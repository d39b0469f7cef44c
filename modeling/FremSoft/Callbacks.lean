/-
Which callbacks a tick of the delivery thread invokes after any sequence of
registrations.  The scheduler has one callback slot for all links, so only the
link registered last can be called.
-/
import FremSoft.Playback

namespace FremSoft

/-- One `PDURegisterEventCallback` call; a null callback unregisters. -/
structure Registration where
  hMod : UInt32
  hCll : UInt32
  cb : Option FremsoftEventCb
deriving DecidableEq, Repr

def registerAll : FremSoftState → List Registration → FremSoftState
  | st, [] => st
  | st, r :: rest =>
      registerAll (fremsoftPDURegisterEventCallback st r.hMod r.hCll r.cb).1
        rest

/-- One tick of the delivery thread; it exists once there is a scheduler. -/
def fremsoftTick (st : FremSoftState) (nowUs : UInt64) : List CallbackCall :=
  match st.gScheduler with
  | none => []
  | some s => deliveryTick s nowUs

/-- The callback a link is left with: that of its most recent registration. -/
def latestCallback (regs : List Registration) (hMod hCll : UInt32) :
    Option FremsoftEventCb :=
  ((regs.filter fun r => r.hMod == hMod && r.hCll == hCll).getLast?).bind
    (·.cb)

/-- The call is owed: its link is registered with this callback and has an
event due. -/
def CallbackOwed (regs : List Registration)
    (queue : List (SchedEvent (List UInt8))) (nowUs : UInt64)
    (call : CallbackCall) : Prop :=
  latestCallback regs call.hMod call.hCll = some call.cb ∧
    ∃ e ∈ queue, e.isDue call.hMod call.hCll nowUs = true

/-- A tick invokes exactly the calls owed, each once. -/
def TickServesAll (regs : List Registration)
    (queue : List (SchedEvent (List UInt8))) (nowUs : UInt64)
    (calls : List CallbackCall) : Prop :=
  calls.Nodup ∧ ∀ call, call ∈ calls ↔ CallbackOwed regs queue nowUs call

/-- Of all registrations only the last one is kept. -/
theorem registerAll_gScheduler (st : FremSoftState) (regs : List Registration)
    {s : Scheduler (List UInt8)} (hscheduler : st.gScheduler = some s) :
    (registerAll st regs).gScheduler =
      match regs.getLast? with
      | none => some s
      | some r => some { s with cb := r.cb, cbHMod := r.hMod, cbHCll := r.hCll }
    := by
  induction regs generalizing st s with
  | nil => exact hscheduler
  | cons r rest ih =>
      rw [registerAll, ih (fremsoftPDURegisterEventCallback st r.hMod r.hCll
        r.cb).1 (s := { s with cb := r.cb, cbHMod := r.hMod, cbHCll := r.hCll })
        (by simp [fremsoftPDURegisterEventCallback, hscheduler,
          schedulerSetCallback])]
      cases hlast : rest.getLast? with
      | none =>
          rw [List.getLast?_eq_none_iff] at hlast
          simp [hlast]
      | some last => simp [List.getLast?_cons, hlast]

theorem latestCallback_of_getLast? {regs : List Registration}
    {last : Registration} (hlast : regs.getLast? = some last) :
    latestCallback regs last.hMod last.hCll = last.cb := by
  obtain ⟨front, rfl⟩ := List.getLast?_eq_some_iff.1 hlast
  simp [latestCallback, List.filter_append]

/-- The calls of a tick: the last registration, when it is live and its link
has an event due. -/
theorem mem_fremsoftTick_iff {st : FremSoftState} {regs : List Registration}
    {s : Scheduler (List UInt8)} (hscheduler : st.gScheduler = some s)
    (hcb : s.cb = none) (nowUs : UInt64) (call : CallbackCall) :
    call ∈ fremsoftTick (registerAll st regs) nowUs ↔
      ∃ last, regs.getLast? = some last ∧ call.hMod = last.hMod ∧
        call.hCll = last.hCll ∧ CallbackOwed regs s.head nowUs call := by
  rw [fremsoftTick, registerAll_gScheduler st regs hscheduler]
  cases hlast : regs.getLast? with
  | none => simp [deliveryTick, deliverySnapshot, hcb]
  | some last =>
      have hlatest := latestCallback_of_getLast? hlast
      simp only [deliveryTick, deliverySnapshot, Option.some.injEq,
        exists_eq_left']
      constructor
      · intro hmem
        cases hcb' : last.cb with
        | none => simp [hcb'] at hmem
        | some cb =>
            simp only [hcb'] at hmem
            split at hmem
            · next hpeek =>
              rw [List.mem_singleton] at hmem
              subst hmem
              refine ⟨rfl, rfl, by rw [hlatest, hcb'], ?_⟩
              simpa [deliveryPeek, List.any_eq_true] using hpeek
            · simp at hmem
      · rintro ⟨hMod, hCll, hcallback, hdue⟩
        obtain ⟨cb, cMod, cCll⟩ := call
        simp only at hMod hCll hcallback hdue
        subst hMod hCll
        rw [hlatest] at hcallback
        have hpeek : deliveryPeek s last.hMod last.hCll nowUs = true := by
          simpa [deliveryPeek, List.any_eq_true] using hdue
        have hsame : deliveryPeek { s with
            cb := some cb, cbHMod := last.hMod, cbHCll := last.hCll } last.hMod
              last.hCll nowUs = true := hpeek
        simp [hcallback, hsame]

theorem fremsoftTick_nodup (st : FremSoftState) (nowUs : UInt64) :
    (fremsoftTick st nowUs).Nodup := by
  unfold fremsoftTick deliveryTick
  split
  · exact List.nodup_nil
  · split
    · exact List.nodup_nil
    · split
      · exact List.nodup_singleton _
      · exact List.nodup_nil

/-- After any registrations, with any queue and at any time, a tick serves all
links exactly when no link other than the one registered last is owed a call. -/
theorem tickServesAll_iff {st : FremSoftState} {s : Scheduler (List UInt8)}
    (regs : List Registration) (nowUs : UInt64)
    (hscheduler : st.gScheduler = some s) (hcb : s.cb = none) :
    TickServesAll regs s.head nowUs
        (fremsoftTick (registerAll st regs) nowUs) ↔
      ∀ hMod hCll cb, latestCallback regs hMod hCll = some cb →
        (∃ e ∈ s.head, e.isDue hMod hCll nowUs = true) →
        ∃ last, regs.getLast? = some last ∧ hMod = last.hMod ∧
          hCll = last.hCll := by
  constructor
  · rintro ⟨_, hserves⟩ hMod hCll cb hlatest hdue
    have hmem := (hserves ⟨cb, hMod, hCll⟩).2 ⟨hlatest, hdue⟩
    obtain ⟨last, hlast, heqMod, heqCll, _⟩ :=
      (mem_fremsoftTick_iff hscheduler hcb nowUs _).1 hmem
    exact ⟨last, hlast, heqMod, heqCll⟩
  · intro hsingle
    refine ⟨fremsoftTick_nodup _ _, ?_⟩
    intro call
    rw [mem_fremsoftTick_iff hscheduler hcb nowUs]
    constructor
    · rintro ⟨_, _, _, _, howed⟩
      exact howed
    · intro howed
      obtain ⟨last, hlast, heqMod, heqCll⟩ := hsingle _ _ _ howed.1 howed.2
      exact ⟨last, hlast, heqMod, heqCll, howed⟩

/-- Two links register; the reply of the first is due. -/
def twoLinks : List Registration :=
  [{ hMod := 1, hCll := 2, cb := some 0xA0 },
    { hMod := 1, hCll := 3, cb := some 0xB0 }]

def waitingReply : SchedEvent (List UInt8) :=
  { dueUs := 5000, hMod := 1, hCll := 2, hCop := 0x10001, copTag := 0
    itemType := pduItResult, numData := 5, dataBytes := [0, 0, 7, 0xE8, 0x7E] }

def waitingState : FremSoftState :=
  { gMode := .playback
    gRecording := none
    gScheduler := some { (schedulerNew : Scheduler (List UInt8)) with
      head := [waitingReply] }
    gNextHCop := 0x10001
    gActivityLog := none
    gUnknownLog := none }

/-- The first link has lost its callback. -/
theorem tick_misses_first_link :
    latestCallback twoLinks 1 2 = some 0xA0 ∧
      waitingReply.isDue 1 2 5000 = true ∧
      fremsoftTick (registerAll waitingState twoLinks) 5000 = [] ∧
      ¬TickServesAll twoLinks [waitingReply] 5000
        (fremsoftTick (registerAll waitingState twoLinks) 5000) := by
  refine ⟨by decide, by decide, by decide, ?_⟩
  rintro ⟨_, hserves⟩
  have howed : CallbackOwed twoLinks [waitingReply] 5000 ⟨0xA0, 1, 2⟩ :=
    ⟨by decide, waitingReply, List.mem_singleton_self _, by decide⟩
  have hmem := (hserves _).2 howed
  revert hmem
  decide

theorem tickServesAll_iff_two_links :
    TickServesAll twoLinks [waitingReply] 5000
        (fremsoftTick (registerAll waitingState twoLinks) 5000) ↔
      ∀ hMod hCll cb, latestCallback twoLinks hMod hCll = some cb →
        (∃ e ∈ [waitingReply], e.isDue hMod hCll 5000 = true) →
        ∃ last, twoLinks.getLast? = some last ∧ hMod = last.hMod ∧
          hCll = last.hCll := by
  have hscheduler : waitingState.gScheduler = some _ := rfl
  exact tickServesAll_iff twoLinks 5000 hscheduler rfl

end FremSoft
