/-
The list of the scheduler under any sequence of pushes, polls and cancels: what
each call answers, and what becomes of the events.
-/
import FremSoft.Lib.Run
import FremSoft.Scheduler

namespace FremSoft

universe u

variable {β : Type u}

/-- A call of one of the three functions that change the list; `nodeOk` is
whether the node of a pushed event could be allocated. -/
inductive SchedulerOp (β : Type u) where
  | push (nodeOk : Bool) (e : SchedEvent β)
  | popDue (hMod hCll : UInt32) (nowUs : UInt64)
  | cancelCop (hCop : UInt32)
deriving DecidableEq, Repr

/-- What a call answers: the status of a push, and the event a poll of a link
has taken, if any. -/
inductive SchedulerReturn (β : Type u) where
  | pushed (status : Int)
  | popped (hMod hCll : UInt32) (event : Option (SchedEvent β))
  | cancelled
deriving DecidableEq, Repr

def schedulerCall (s : Option (Scheduler β)) :
    SchedulerOp β → Option (Scheduler β) × SchedulerReturn β
  | .push nodeOk e =>
      let (status, s) := schedulerPush nodeOk s e
      (s, .pushed status)
  | .popDue hMod hCll nowUs =>
      let (event, s) := schedulerPopDue s hMod hCll nowUs
      (s, .popped hMod hCll event)
  | .cancelCop hCop => (schedulerCancelCop s hCop, .cancelled)

/-- The calls one after the other; each is one critical section. -/
def schedulerMachine :
    Machine (Option (Scheduler β)) (SchedulerOp β) (SchedulerReturn β) :=
  { step := fun s op => some ((schedulerCall s op).1, [(schedulerCall s op).2]) }

theorem schedulerMachine_step {s s' : Option (Scheduler β)}
    {op : SchedulerOp β} {out : List (SchedulerReturn β)} :
    schedulerMachine.step s op = some (s', out) ↔
      s' = (schedulerCall s op).1 ∧ out = [(schedulerCall s op).2] := by
  simp only [schedulerMachine, Option.some.injEq, Prod.mk.injEq]
  constructor
  · rintro ⟨rfl, rfl⟩
    exact ⟨rfl, rfl⟩
  · rintro ⟨rfl, rfl⟩
    exact ⟨rfl, rfl⟩

/-- No call is ever refused. -/
theorem schedulerMachine_exists_run (s : Option (Scheduler β))
    (ops : List (SchedulerOp β)) :
    ∃ t outs, schedulerMachine.run s ops = some (t, outs) :=
  Machine.exists_run
    (fun _ _ => ⟨_, _, schedulerMachine_step.2 ⟨rfl, rfl⟩⟩) s ops

/-! ### What the queue is for -/

/-- A plain list: events come in at its end, a poll removes the first one of
the link that is due, a cancel removes all of a primitive. -/
def eventListCall (queue : List (SchedEvent β)) :
    SchedulerOp β → List (SchedEvent β) × SchedulerReturn β
  | .push nodeOk e =>
      if nodeOk then (queue ++ [e], .pushed 0) else (queue, .pushed (-1))
  | .popDue hMod hCll nowUs =>
      (queue.eraseP (SchedEvent.isDue hMod hCll nowUs),
        .popped hMod hCll (queue.find? (SchedEvent.isDue hMod hCll nowUs)))
  | .cancelCop hCop => (queue.filter fun e => !(e.hCop == hCop), .cancelled)

def eventListMachine : Machine (List (SchedEvent β)) (SchedulerOp β)
    (SchedulerReturn β) :=
  { step := fun queue op => some ((eventListCall queue op).1,
      [(eventListCall queue op).2]) }

/-- A poll in terms of the traversal. -/
theorem eventListCall_popDue (queue : List (SchedEvent β)) (hMod hCll : UInt32)
    (nowUs : UInt64) : eventListCall queue (.popDue hMod hCll nowUs) =
      match detach (SchedEvent.isDue hMod hCll nowUs) queue with
      | none => (queue, .popped hMod hCll none)
      | some (e, rest) => (rest, .popped hMod hCll (some e)) := by
  rw [eventListCall, detach_eq_find_eraseP]
  cases hfind : queue.find? (SchedEvent.isDue hMod hCll nowUs) with
  | none => simp [List.eraseP_of_forall_not (List.find?_eq_none.1 hfind)]
  | some e => rfl

/-! ### What each call does to the list -/

theorem schedulerPush_queue (nodeOk : Bool) (s : Option (Scheduler β))
    (e : SchedEvent β) : schedulerQueue (schedulerPush nodeOk s e).2 =
      schedulerQueue s ++ if s.isSome && nodeOk then [e] else [] := by
  cases s with
  | none => simp [schedulerPush]
  | some s => cases nodeOk <;> simp [schedulerPush]

theorem schedulerPush_isSome (nodeOk : Bool) (s : Option (Scheduler β))
    (e : SchedEvent β) : (schedulerPush nodeOk s e).2.isSome = s.isSome := by
  rw [schedulerPush_snd, Option.isSome_map]

theorem schedulerCancelCop_queue (s : Option (Scheduler β)) (hCop : UInt32) :
    schedulerQueue (schedulerCancelCop s hCop) =
      (schedulerQueue s).filter fun e => !(e.hCop == hCop) := by
  cases s <;> rfl

theorem schedulerCancelCop_isSome (s : Option (Scheduler β)) (hCop : UInt32) :
    (schedulerCancelCop s hCop).isSome = s.isSome := by
  cases s <;> rfl

/-- A poll in terms of the list alone. -/
theorem schedulerPopDue_eq (s : Option (Scheduler β)) (hMod hCll : UInt32)
    (nowUs : UInt64) :
    (schedulerPopDue s hMod hCll nowUs).1 =
        (detach (SchedEvent.isDue hMod hCll nowUs) (schedulerQueue s)).map
          Prod.fst ∧
      schedulerQueue (schedulerPopDue s hMod hCll nowUs).2 =
        ((detach (SchedEvent.isDue hMod hCll nowUs) (schedulerQueue s)).map
          Prod.snd).getD (schedulerQueue s) := by
  cases s with
  | none => simp [schedulerPopDue]
  | some s =>
      cases hdetach : detach (SchedEvent.isDue hMod hCll nowUs) s.head <;>
        simp [schedulerPopDue, hdetach]

def sampleEvent (hCop : UInt32) (dueUs : UInt64) : SchedEvent Unit :=
  { dueUs, hMod := 1, hCll := 2, hCop, copTag := 0, itemType := 0
    numData := 0, dataBytes := () }

end FremSoft
