/-
A client driven by callbacks: the delivery thread calls back while an event of
the registered link is due, and one poll for each callback is enough to receive
all of them.
-/
import FremSoft.SchedulerRun

namespace FremSoft

universe u

variable {β : Type u}

/-- A callback, and the event the client's poll takes in answer to it. -/
structure AnsweredCall (β : Type u) where
  call : CallbackCall
  event : Option (SchedEvent β)
deriving DecidableEq, Repr

/-- The client answers every call with one poll of the link it names. -/
def answerCalls (nowUs : UInt64) : Option (Scheduler β) → List CallbackCall →
    Option (Scheduler β) × List (AnsweredCall β)
  | s, [] => (s, [])
  | s, call :: calls =>
      let (event, s) := schedulerPopDue s call.hMod call.hCll nowUs
      let (s, answered) := answerCalls nowUs s calls
      (s, { call, event } :: answered)

def tickCalls (s : Option (Scheduler β)) (nowUs : UInt64) :
    List CallbackCall :=
  match s with
  | none => []
  | some s => deliveryTick s nowUs

/-- One tick of the delivery thread after the other, each at its time and
answered before the next. -/
def answeredTickMachine :
    Machine (Option (Scheduler β)) UInt64 (AnsweredCall β) :=
  { step := fun s nowUs => some (answerCalls nowUs s (tickCalls s nowUs)) }

/-- The call that is made for the registered link. -/
def Scheduler.callback (s : Scheduler β) (cb : FremsoftEventCb) :
    CallbackCall :=
  { cb, hMod := s.cbHMod, hCll := s.cbHCll }

def Scheduler.dueEvents (s : Scheduler β) (nowUs : UInt64) :
    List (SchedEvent β) :=
  s.head.filter (SchedEvent.isDue s.cbHMod s.cbHCll nowUs)

def Scheduler.otherEvents (s : Scheduler β) (nowUs : UInt64) :
    List (SchedEvent β) :=
  s.head.filter fun e => !e.isDue s.cbHMod s.cbHCll nowUs

/-- A tick calls back exactly when a poll of the link would return an event. -/
theorem deliveryTick_eq {s : Scheduler β} {cb : FremsoftEventCb}
    (hcb : s.cb = some cb) (nowUs : UInt64) : deliveryTick s nowUs =
      if (schedulerPopDue (some s) s.cbHMod s.cbHCll nowUs).1.isSome then
        [s.callback cb]
      else [] := by
  rw [← deliveryPeek_eq_isSome_popDue]
  simp only [deliveryTick, deliverySnapshot, hcb]
  rfl

/-- What one tick does: with no event due nothing, else the first of them is
called back for and taken. -/
theorem answeredTick_cases {s : Scheduler β} {cb : FremsoftEventCb}
    (hcb : s.cb = some cb) (nowUs : UInt64) :
    (s.dueEvents nowUs = [] ∧ s.otherEvents nowUs = s.head ∧
      deliveryTick s nowUs = [] ∧
      answeredTickMachine.step (some s) nowUs = some (some s, [])) ∨
    ∃ e rest, answeredTickMachine.step (some s) nowUs =
        some (some { s with head := rest }, [⟨s.callback cb, some e⟩]) ∧
      s.dueEvents nowUs =
        e :: Scheduler.dueEvents { s with head := rest } nowUs ∧
      s.otherEvents nowUs =
        Scheduler.otherEvents { s with head := rest } nowUs := by
  have htick := deliveryTick_eq hcb nowUs
  rcases schedulerPopDue_cases s s.cbHMod s.cbHCll nowUs with
    ⟨hnone, hall⟩ | ⟨e, rest, hsome, hdetach⟩
  · left
    simp only [hnone, Option.isSome_none, Bool.false_eq_true, if_false]
      at htick
    refine ⟨?_, ?_, htick, ?_⟩
    · rw [Scheduler.dueEvents, List.filter_eq_nil_iff]
      intro e he
      simp [hall e he]
    · rw [Scheduler.otherEvents, List.filter_eq_self]
      intro e he
      simp [hall e he]
    · simp [answeredTickMachine, tickCalls, htick, answerCalls]
  · right
    simp only [hsome, Option.isSome_some, if_true] at htick
    refine ⟨e, rest, ?_, filter_of_detach hdetach, ?_⟩
    · simp [answeredTickMachine, tickCalls, htick, answerCalls,
        Scheduler.callback, hsome]
    · refine (filter_detach_of_neg hdetach ?_).symm
      simp [detach_pos hdetach]

/-- The first `n` ticks at one time hand out the first `n` due events. -/
theorem answeredTicks_run {s : Scheduler β} {cb : FremsoftEventCb}
    (hcb : s.cb = some cb) (nowUs : UInt64) (n : Nat) :
    ∃ left, answeredTickMachine.run (some s) (List.replicate n nowUs) =
        some (some { s with head := left },
          ((s.dueEvents nowUs).take n).map fun e => ⟨s.callback cb, some e⟩) ∧
      Scheduler.dueEvents { s with head := left } nowUs =
        (s.dueEvents nowUs).drop n ∧
      Scheduler.otherEvents { s with head := left } nowUs =
        s.otherEvents nowUs := by
  induction n generalizing s with
  | zero => exact ⟨s.head, by simp, rfl, rfl⟩
  | succ n ih =>
      rw [List.replicate_succ]
      rcases answeredTick_cases hcb nowUs with
        ⟨hdue, hother, _, hstep⟩ | ⟨e, rest, hstep, hdue, hother⟩
      · obtain ⟨left, hrun, hleft, hrest⟩ := ih hcb
        refine ⟨left, ?_, by simpa [hdue] using hleft, hrest⟩
        refine (Machine.run_cons ..).2 ⟨_, _, _, hstep, hrun, ?_⟩
        simp [hdue]
      · have hcb' : ({ s with head := rest } : Scheduler β).cb = some cb := hcb
        obtain ⟨left, hrun, hleft, hrest⟩ := ih hcb'
        refine ⟨left, ?_, by rw [hdue]; exact hleft, hrest.trans hother.symm⟩
        refine (Machine.run_cons ..).2 ⟨_, _, _, hstep, hrun, ?_⟩
        rw [hdue]
        rfl

/-- No wake-up is lost.  At any time a tick calls back exactly when a poll of
the link would return an event; and a client that takes one event for each
callback has received, after `n` ticks at a time, the first `n` of the events
due then, and after as many as there are nothing but the other events is left
and the callback stops. -/
theorem callbacks_drain {s : Scheduler β} {cb : FremsoftEventCb}
    (hcb : s.cb = some cb) (nowUs : UInt64) :
    (s.callback cb ∈ deliveryTick s nowUs ↔
      ∃ e, (schedulerPopDue (some s) s.cbHMod s.cbHCll nowUs).1 = some e) ∧
    ∀ n, ∃ left, answeredTickMachine.run (some s) (List.replicate n nowUs) =
        some (some { s with head := left },
          ((s.dueEvents nowUs).take n).map fun e => ⟨s.callback cb, some e⟩) ∧
      ((s.dueEvents nowUs).length ≤ n →
        left = s.otherEvents nowUs ∧
          deliveryTick { s with head := left } nowUs = []) := by
  constructor
  · rw [deliveryTick_eq hcb, ← Option.isSome_iff_exists]
    split
    · next hsome => simp [hsome]
    · next hnone => simp [hnone]
  · intro n
    obtain ⟨left, hrun, hdue, hother⟩ := answeredTicks_run hcb nowUs n
    refine ⟨left, hrun, fun hlength => ?_⟩
    rw [List.drop_eq_nil_of_le hlength] at hdue
    have hcb' : ({ s with head := left } : Scheduler β).cb = some cb := hcb
    rcases answeredTick_cases hcb' nowUs with
      ⟨_, hall, htick, _⟩ | ⟨e, rest, _, hcons, _⟩
    · exact ⟨hall.symm.trans hother, htick⟩
    · rw [hdue] at hcons
      cases hcons

def linkEvent (dueUs : UInt64) (hCll hCop : UInt32) : SchedEvent Unit :=
  { dueUs, hMod := 1, hCll, hCop, copTag := 0, itemType := pduItResult
    numData := 0, dataBytes := () }

/-- Two due events of link `(1, 2)`, behind one of another link and around one
that is not yet due. -/
def mixedScheduler : Scheduler Unit :=
  { head := [linkEvent 1000 3 1, linkEvent 5000 2 2, linkEvent 9000 2 2,
      linkEvent 4000 2 3]
    cb := some 0xA0, cbHMod := 1, cbHCll := 2 }

theorem callbacks_drain_mixed :
    answeredTickMachine.run (some mixedScheduler) [5000, 5000] =
      some (some { mixedScheduler with
          head := [linkEvent 1000 3 1, linkEvent 9000 2 2] },
        [⟨⟨0xA0, 1, 2⟩, some (linkEvent 5000 2 2)⟩,
          ⟨⟨0xA0, 1, 2⟩, some (linkEvent 4000 2 3)⟩]) := by
  obtain ⟨left, hrun, hleft⟩ :=
    (callbacks_drain (s := mixedScheduler) rfl 5000).2 2
  obtain ⟨rfl, _⟩ := hleft (by decide)
  exact hrun

end FremSoft
