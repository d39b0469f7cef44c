/-
Which callback the delivery thread invokes.  It makes the call with the pointer
it has read from the slot some time ago: that is the registered one exactly as
long as nobody registers another one in between.
-/
import FremSoft.DeliveryThread

namespace FremSoft

universe u

variable {β : Type u}

def lastRegistered (outs : List DeliveryObs) : Option FremsoftEventCb :=
  outs.foldl (fun current o =>
    match o with
    | .registered cb => cb
    | _ => current) none

/-- Whatever is invoked is the callback registered at that moment. -/
def NoStaleCallback (outs : List DeliveryObs) : Prop :=
  ∀ front call back, outs = front ++ .fired call :: back →
    lastRegistered front = some call.cb

/-- A registration does not replace the callback that the delivery thread has
read and may still call. -/
def KeepsSnapshot (s : DeliverySystem β) : DeliveryAction β → Prop
  | .setCallback _ _ cb =>
      ∀ held, s.thread.snapshot? = some held → cb = some held
  | _ => True

instance (s : DeliverySystem β) : (act : DeliveryAction β) →
    Decidable (KeepsSnapshot s act)
  | .setCallback _ _ cb =>
      match hheld : s.thread.snapshot? with
      | none => .isTrue fun held h => by rw [hheld] at h; cases h
      | some held => decidable_of_iff (cb = some held)
          ⟨fun h held' h' => by rw [hheld] at h'; rw [h, h'],
            fun h => h held hheld⟩
  | .startThread _ => .isTrue trivial
  | .push _ _ => .isTrue trivial
  | .popDue _ _ _ => .isTrue trivial
  | .cancelCop _ => .isTrue trivial
  | .deliver _ => .isTrue trivial
  | .free => .isTrue trivial

/-- The slot holds what was registered last, and so does the thread. -/
structure SlotInv (s : DeliverySystem β) (outs : List DeliveryObs) : Prop where
  slot : ∀ scheduler, s.scheduler = some scheduler →
    scheduler.cb = lastRegistered outs
  held : ∀ cb, s.thread.snapshot? = some cb → lastRegistered outs = some cb
  fresh : NoStaleCallback outs

theorem lastRegistered_concat (outs : List DeliveryObs) (o : DeliveryObs) :
    lastRegistered (outs ++ [o]) =
      match o with
      | .registered cb => cb
      | _ => lastRegistered outs := by
  rw [lastRegistered, List.foldl_append]
  rfl

/-- One more observation is fine when it is not the call of a stale
callback. -/
theorem NoStaleCallback.concat {outs : List DeliveryObs} {o : DeliveryObs}
    (h : NoStaleCallback outs)
    (hlast : ∀ call, o = .fired call → lastRegistered outs = some call.cb) :
    NoStaleCallback (outs ++ [o]) := by
  intro front call back hsplit
  rcases List.eq_nil_or_concat back with rfl | ⟨back, o', rfl⟩
  · obtain ⟨rfl, ho⟩ := List.append_inj' hsplit rfl
    simp only [List.cons.injEq, and_true] at ho
    exact hlast call ho
  · rw [List.concat_eq_append, ← List.cons_append, ← List.append_assoc]
      at hsplit
    obtain ⟨hfront, -⟩ := List.append_inj' hsplit rfl
    exact h front call back hfront

/-- Calls that leave the slot alone. -/
theorem SlotInv.of_cb {s : DeliverySystem β} {outs : List DeliveryObs}
    (h : SlotInv s outs) {scheduler : Option (Scheduler β)}
    (hcb : scheduler.map Scheduler.cb = s.scheduler.map Scheduler.cb) :
    SlotInv { s with scheduler } outs := by
  refine ⟨fun scheduler' hsome => ?_, h.held, h.fresh⟩
  simp only at hsome
  rw [hsome, Option.map_some, eq_comm, Option.map_eq_some_iff] at hcb
  obtain ⟨old, hold, hcb⟩ := hcb
  rw [← hcb]
  exact h.slot old hold

theorem schedulerPush_cb (nodeOk : Bool) (s : Option (Scheduler β))
    (e : SchedEvent β) :
    (schedulerPush nodeOk s e).2.map Scheduler.cb = s.map Scheduler.cb := by
  cases s with
  | none => rfl
  | some s => cases nodeOk <;> rfl

theorem schedulerPopDue_cb (s : Option (Scheduler β)) (hMod hCll : UInt32)
    (nowUs : UInt64) : (schedulerPopDue s hMod hCll nowUs).2.map Scheduler.cb =
      s.map Scheduler.cb := by
  cases s with
  | none => rfl
  | some s =>
      rcases schedulerPopDue_cases s hMod hCll nowUs with
        ⟨hnone, _⟩ | ⟨e, rest, hsome, _⟩
      · rw [hnone]
      · rw [hsome]
        rfl

theorem schedulerCancelCop_cb (s : Option (Scheduler β)) (hCop : UInt32) :
    (schedulerCancelCop s hCop).map Scheduler.cb = s.map Scheduler.cb := by
  cases s <;> rfl

theorem schedulerDrain_cb (s : Option (Scheduler β)) :
    (schedulerDrain s).map Scheduler.cb = s.map Scheduler.cb := by
  cases s <;> rfl

/-- A registration that the delivery thread is not in the middle of. -/
theorem SlotInv.setCallback {s : DeliverySystem β} {outs : List DeliveryObs}
    (h : SlotInv s outs) {scheduler : Scheduler β}
    (hsome : s.scheduler = some scheduler) {hMod hCll : UInt32}
    {cb : Option FremsoftEventCb}
    (hkeeps : KeepsSnapshot s (.setCallback hMod hCll cb)) :
    SlotInv { s with
      scheduler := schedulerSetCallback s.scheduler hMod hCll cb }
      (outs ++ [.registered cb]) := by
  refine ⟨fun scheduler' hset => ?_, fun held hheld => ?_, ?_⟩
  · rw [hsome] at hset
    cases hset
    rw [lastRegistered_concat]
  · rw [lastRegistered_concat]
    exact hkeeps held hheld
  · exact h.fresh.concat fun call hcall => by cases hcall

/-- A step of the delivery thread. -/
theorem SlotInv.deliver {s : DeliverySystem β} {outs out : List DeliveryObs}
    (h : SlotInv s outs) {nowUs : UInt64} {thread : ThreadPhase}
    (hstep : deliveryThreadProc s nowUs = some (thread, out)) :
    SlotInv { s with thread } (outs ++ out) := by
  rcases deliveryThreadProc_cases hstep with
    ⟨rfl, hheld⟩ | ⟨call, hthread, rfl, rfl⟩ | ⟨rfl, hnone⟩
  · refine ⟨fun scheduler hsome => ?_, fun cb hcb => ?_, ?_⟩
    · rw [lastRegistered_concat]
      exact h.slot scheduler hsome
    · rw [lastRegistered_concat]
      rcases hheld cb hcb with hheld | ⟨scheduler, hsome, hslot⟩
      · exact h.held cb hheld
      · rw [← hslot]
        exact (h.slot scheduler hsome).symm
    · exact h.fresh.concat fun call hcall => (by cases hcall)
  · refine ⟨fun scheduler hsome => ?_, fun cb hcb => ?_, ?_⟩
    · rw [lastRegistered_concat]
      exact h.slot scheduler hsome
    · cases hcb
    · refine h.fresh.concat fun call' hcall => ?_
      cases hcall
      exact h.held call.cb (by rw [hthread]; rfl)
  · rw [List.append_nil]
    refine ⟨h.slot, fun cb hcb => ?_, h.fresh⟩
    cases hnone.symm.trans hcb

theorem SlotInv.startThread {s : DeliverySystem β} {outs : List DeliveryObs}
    (h : SlotInv s outs) (created : Bool) :
    SlotInv (schedulerStartDeliveryThread s created) outs := by
  unfold schedulerStartDeliveryThread
  split
  · exact h
  · split
    · exact ⟨h.slot, fun cb hcb => (by cases hcb), h.fresh⟩
    · exact ⟨h.slot, h.held, h.fresh⟩

/-- Freeing the scheduler leaves the slot alone as long as there is one. -/
theorem SlotInv.free {s s' : DeliverySystem β} {outs out : List DeliveryObs}
    (h : SlotInv s outs) (hstep : schedulerFree s = some (s', out)) :
    SlotInv s' (outs ++ out) := by
  unfold schedulerFree at hstep
  split at hstep
  · split at hstep
    all_goals
      simp only [Option.some.injEq, Prod.mk.injEq] at hstep
      obtain ⟨rfl, rfl⟩ := hstep
      rw [List.append_nil]
      exact ⟨h.slot, h.held, h.fresh⟩
  · simp only [Option.some.injEq, Prod.mk.injEq] at hstep
    obtain ⟨rfl, rfl⟩ := hstep
    rw [List.append_nil]
    exact ⟨h.slot, h.held, h.fresh⟩
  · simp only [Option.some.injEq, Prod.mk.injEq] at hstep
    obtain ⟨rfl, rfl⟩ := hstep
    rw [List.append_nil]
    exact ⟨h.slot, h.held, h.fresh⟩
  · -- draining
    simp only [Option.some.injEq, Prod.mk.injEq] at hstep
    obtain ⟨rfl, rfl⟩ := hstep
    rw [List.append_nil]
    have hdrained := h.of_cb (schedulerDrain_cb s.scheduler)
    exact ⟨hdrained.slot, hdrained.held, hdrained.fresh⟩
  · -- freeing
    simp only [Option.some.injEq, Prod.mk.injEq] at hstep
    obtain ⟨rfl, rfl⟩ := hstep
    refine ⟨fun scheduler hsome => (by cases hsome), fun cb hcb => ?_, ?_⟩
    · rw [lastRegistered_concat]
      exact h.held cb hcb
    · exact h.fresh.concat fun call hcall => by cases hcall
  · cases hstep

theorem slotInv_step {s s' : DeliverySystem β} {outs out : List DeliveryObs}
    {act : DeliveryAction β} (h : SlotInv s outs) (hkeeps : KeepsSnapshot s act)
    (hstep : deliveryStep s act = some (s', out)) :
    SlotInv s' (outs ++ out) := by
  cases act with
  | startThread created =>
      simp only [deliveryStep] at hstep
      split at hstep
      · simp only [Option.some.injEq, Prod.mk.injEq] at hstep
        obtain ⟨rfl, rfl⟩ := hstep
        rw [List.append_nil]
        exact h.startThread created
      · cases hstep
  | push nodeOk e =>
      simp only [deliveryStep, Option.some.injEq, Prod.mk.injEq] at hstep
      obtain ⟨rfl, rfl⟩ := hstep
      rw [List.append_nil]
      exact h.of_cb (schedulerPush_cb ..)
  | popDue hMod hCll nowUs =>
      simp only [deliveryStep, Option.some.injEq, Prod.mk.injEq] at hstep
      obtain ⟨rfl, rfl⟩ := hstep
      rw [List.append_nil]
      exact h.of_cb (schedulerPopDue_cb ..)
  | cancelCop hCop =>
      simp only [deliveryStep, Option.some.injEq, Prod.mk.injEq] at hstep
      obtain ⟨rfl, rfl⟩ := hstep
      rw [List.append_nil]
      exact h.of_cb (schedulerCancelCop_cb ..)
  | setCallback hMod hCll cb =>
      simp only [deliveryStep, Option.some.injEq, Prod.mk.injEq] at hstep
      obtain ⟨rfl, rfl⟩ := hstep
      cases hscheduler : s.scheduler with
      | none =>
          rw [if_neg (by simp), List.append_nil]
          exact h.of_cb (by rw [hscheduler]; rfl)
      | some scheduler =>
          rw [Option.isSome_some, if_pos rfl, ← hscheduler]
          exact h.setCallback hscheduler hkeeps
  | deliver nowUs =>
      simp only [deliveryStep, Option.map_eq_some_iff, Prod.exists,
        Prod.mk.injEq] at hstep
      obtain ⟨thread, out', hthread, rfl, rfl⟩ := hstep
      exact h.deliver hthread
  | free => exact h.free hstep

/-- In every interleaving in which no registration replaces a callback that the
delivery thread has read and may still call, every callback invoked is the
registered one. -/
theorem noStaleCallback_of_run {acts : List (DeliveryAction β)}
    {t : DeliverySystem β} {outs : List DeliveryObs}
    (hkeeps : deliveryMachine.Meets KeepsSnapshot .init acts)
    (hrun : deliveryMachine.run .init acts = some (t, outs)) :
    NoStaleCallback outs := by
  have hinv : SlotInv t outs := by
    refine Machine.run_invariant_of_meets (I := SlotInv) ?_ hkeeps hrun ?_
    · exact fun s seen act s' out h hkeeps hstep => slotInv_step h hkeeps hstep
    · refine ⟨fun scheduler hsome => ?_, fun cb hcb => (by cases hcb), ?_⟩
      · cases hsome
        rfl
      · intro front call back hsplit
        exact absurd hsplit (by simp)
  exact hinv.fresh

/-- The condition is exact: whatever another registration replaces while the
delivery thread holds it may still be called. -/
theorem exists_stale_call {s : DeliverySystem β} {scheduler : Scheduler β}
    (hscheduler : s.scheduler = some scheduler) {hMod hCll : UInt32}
    {cb : Option FremsoftEventCb}
    (hbroken : ¬KeepsSnapshot s (.setCallback hMod hCll cb))
    (e : SchedEvent β) :
    ∃ acts t outs, deliveryMachine.run s (.setCallback hMod hCll cb :: acts) =
        some (t, outs) ∧ ∀ seen, ¬NoStaleCallback (seen ++ outs) := by
  simp only [KeepsSnapshot, not_forall] at hbroken
  obtain ⟨held, hheld, hcb⟩ := hbroken
  cases s with
  | mk _ deliveryThread stopFlag thread shutdown =>
      simp only at hscheduler hheld
      subst hscheduler
      cases thread with
      | peeking call =>
          cases hheld
          -- An event that is due makes the thread go on to the call.
          let due := { e with
            dueUs := 0, hMod := call.hMod, hCll := call.hCll }
          let registered : Scheduler β :=
            { scheduler with cb, cbHMod := hMod, cbHCll := hCll }
          have hpeek : deliveryPeek (registered.append [due]) call.hMod
              call.hCll 0 = true := by
            rw [deliveryPeek, List.any_eq_true]
            exact ⟨due, by simp, SchedEvent.isDue_iff.2
              ⟨rfl, rfl, UInt64.le_refl _⟩⟩
          refine ⟨[.push true due, .deliver 0, .deliver 0],
            ⟨some (registered.append [due]), deliveryThread, stopFlag,
              .inCallback call, shutdown⟩,
            [.registered cb, .touched, .fired call], ?_, ?_⟩
          · simp [Machine.run, deliveryMachine, deliveryStep,
              deliveryThreadProc, schedulerSetCallback, registered, hpeek]
          · intro seen hfresh
            have hlast := hfresh (seen ++ [.registered cb] ++ [.touched]) call
              [] (by simp)
            rw [lastRegistered_concat, lastRegistered_concat] at hlast
            exact hcb hlast
      | invoking call =>
          cases hheld
          refine ⟨[.deliver 0], _, [.registered cb, .fired call], rfl, ?_⟩
          intro seen hfresh
          have hlast := hfresh (seen ++ [.registered cb]) call [] (by simp)
          rw [lastRegistered_concat] at hlast
          exact hcb hlast
      | testingStop => cases hheld
      | reading => cases hheld
      | inCallback call => cases hheld
      | sleeping => cases hheld
      | ended => cases hheld

/-- The delivery thread has read the callback and seen that an event is due;
before it makes the call the client unregisters the callback. -/
theorem stale_callback_invoked :
    ∃ t outs, deliveryMachine.run .init
        [.startThread true, .setCallback 1 2 (some 0xCB),
          .push true (sampleEvent 1 0), .deliver 0, .deliver 0, .deliver 0,
          .setCallback 1 2 none, .deliver 0] = some (t, outs) ∧
      outs = [.registered (some 0xCB), .touched, .touched, .touched,
        .registered none, .fired ⟨0xCB, 1, 2⟩] ∧ ¬NoStaleCallback outs := by
  refine ⟨_, _, rfl, rfl, fun hfresh => ?_⟩
  have hlast := hfresh [.registered (some 0xCB), .touched, .touched, .touched,
    .registered none] ⟨0xCB, 1, 2⟩ [] rfl
  revert hlast
  decide

/-- Here the callback is unregistered between two passes of the loop. -/
def unregisteredBetweenTicks : List (DeliveryAction Unit) :=
  [.startThread true, .setCallback 1 2 (some 0xCB),
    .push true (sampleEvent 1 0), .deliver 0, .deliver 0, .deliver 0,
    .deliver 0, .deliver 0, .setCallback 1 2 none, .deliver 5, .deliver 5,
    .deliver 5]

theorem noStaleCallback_of_run_between_ticks :
    ∃ t outs, deliveryMachine.run .init unregisteredBetweenTicks =
        some (t, outs) ∧
      outs = [.registered (some 0xCB), .touched, .touched, .touched,
        .fired ⟨0xCB, 1, 2⟩, .registered none, .touched, .touched] ∧
      NoStaleCallback outs :=
  ⟨_, _, rfl, rfl,
    @noStaleCallback_of_run _ unregisteredBetweenTicks _ _ (by decide) rfl⟩

end FremSoft
