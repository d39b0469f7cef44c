/-
Links do not interfere.  All links share one list, but a link's own part of it
evolves as if the traffic of the other links were not there, and so does what
its polls answer.
-/
import FremSoft.Lib.Unwinding
import FremSoft.SchedulerRun

namespace FremSoft

universe u

variable {β : Type u}

/-- The calls that concern a link: pushes of its events, its own polls, and all
cancels, which go by the primitive. -/
def SchedulerOp.concerns (hMod hCll : UInt32) : SchedulerOp β → Bool
  | .push _ e => e.onLink hMod hCll
  | .popDue hMod' hCll' _ => hMod' == hMod && hCll' == hCll
  | .cancelCop _ => true

def SchedulerReturn.isPollOf (hMod hCll : UInt32) :
    SchedulerReturn β → Bool
  | .popped hMod' hCll' _ => hMod' == hMod && hCll' == hCll
  | _ => false

/-- Two schedulers look the same from a link: both exist or neither, and the
link's events are the same, in the same order. -/
def SameOnLink (hMod hCll : UInt32) (s t : Option (Scheduler β)) : Prop :=
  s.isSome = t.isSome ∧
    (schedulerQueue s).filter (SchedEvent.onLink hMod hCll) =
      (schedulerQueue t).filter (SchedEvent.onLink hMod hCll)

theorem SameOnLink.refl (hMod hCll : UInt32) (s : Option (Scheduler β)) :
    SameOnLink hMod hCll s s :=
  ⟨rfl, rfl⟩

theorem SameOnLink.push {hMod hCll : UInt32} {s t : Option (Scheduler β)}
    (h : SameOnLink hMod hCll s t) (nodeOk : Bool) (e : SchedEvent β) :
    SameOnLink hMod hCll (schedulerPush nodeOk s e).2
      (schedulerPush nodeOk t e).2 := by
  refine ⟨?_, ?_⟩
  · rw [schedulerPush_isSome, schedulerPush_isSome, h.1]
  · rw [schedulerPush_queue, schedulerPush_queue, List.filter_append,
      List.filter_append, h.1, h.2]

/-- A push of another link's event is not noticed. -/
theorem SameOnLink.push_other {hMod hCll : UInt32}
    {s t : Option (Scheduler β)} (h : SameOnLink hMod hCll s t) (nodeOk : Bool)
    {e : SchedEvent β} (hother : e.onLink hMod hCll = false) :
    SameOnLink hMod hCll (schedulerPush nodeOk s e).2 t := by
  refine ⟨?_, ?_⟩
  · rw [schedulerPush_isSome, h.1]
  · have hnone : (if s.isSome && nodeOk then [e] else []).filter
        (SchedEvent.onLink hMod hCll) = [] := by
      split <;> simp [hother]
    rw [schedulerPush_queue, List.filter_append, hnone, List.append_nil, h.2]

theorem SameOnLink.cancel {hMod hCll : UInt32} {s t : Option (Scheduler β)}
    (h : SameOnLink hMod hCll s t) (hCop : UInt32) :
    SameOnLink hMod hCll (schedulerCancelCop s hCop)
      (schedulerCancelCop t hCop) := by
  refine ⟨?_, ?_⟩
  · rw [schedulerCancelCop_isSome, schedulerCancelCop_isSome, h.1]
  · rw [schedulerCancelCop_queue, schedulerCancelCop_queue, List.filter_comm,
      h.2, List.filter_comm]

/-- A poll of another link takes nothing of this one. -/
theorem SameOnLink.pop_other {hMod hCll : UInt32} {s t : Option (Scheduler β)}
    (h : SameOnLink hMod hCll s t) {hMod' hCll' : UInt32} (nowUs : UInt64)
    (hother : ¬(hMod' = hMod ∧ hCll' = hCll)) :
    SameOnLink hMod hCll (schedulerPopDue s hMod' hCll' nowUs).2 t := by
  obtain ⟨_, hqueue⟩ := schedulerPopDue_eq s hMod' hCll' nowUs
  refine ⟨(schedulerPopDue_isSome ..).trans h.1, ?_⟩
  rw [hqueue, ← h.2]
  cases hdetach : detach (SchedEvent.isDue hMod' hCll' nowUs)
      (schedulerQueue s) with
  | none => rfl
  | some found =>
      apply filter_detach_of_neg hdetach
      have hdue := SchedEvent.isDue_iff.1 (detach_pos hdetach)
      rw [← Bool.not_eq_true, SchedEvent.onLink_iff]
      rintro ⟨rfl, rfl⟩
      exact hother ⟨hdue.1.symm, hdue.2.1.symm⟩

/-- The link's own poll takes the same event on both sides. -/
theorem SameOnLink.pop {hMod hCll : UInt32} {s t : Option (Scheduler β)}
    (h : SameOnLink hMod hCll s t) (nowUs : UInt64) :
    (schedulerPopDue s hMod hCll nowUs).1 =
        (schedulerPopDue t hMod hCll nowUs).1 ∧
      SameOnLink hMod hCll (schedulerPopDue s hMod hCll nowUs).2
        (schedulerPopDue t hMod hCll nowUs).2 := by
  obtain ⟨hevent, hqueue⟩ := schedulerPopDue_eq s hMod hCll nowUs
  obtain ⟨hevent', hqueue'⟩ := schedulerPopDue_eq t hMod hCll nowUs
  -- Both detach from the link's own events, which are the same.
  have hfilter : ∀ l : List (SchedEvent β),
      detach (SchedEvent.isDue hMod hCll nowUs)
          (l.filter (SchedEvent.onLink hMod hCll)) =
        (detach (SchedEvent.isDue hMod hCll nowUs) l).map fun found =>
          (found.1, found.2.filter (SchedEvent.onLink hMod hCll)) :=
    detach_filter fun _ => SchedEvent.onLink_of_isDue
  have hsame := congrArg (detach (SchedEvent.isDue hMod hCll nowUs)) h.2
  rw [hfilter, hfilter] at hsame
  refine ⟨?_, ?_, ?_⟩
  · have hfst := congrArg (Option.map Prod.fst) hsame
    simpa [hevent, hevent', Function.comp_def] using hfst
  · rw [schedulerPopDue_isSome, schedulerPopDue_isSome, h.1]
  · rw [hqueue, hqueue']
    cases hs : detach (SchedEvent.isDue hMod hCll nowUs) (schedulerQueue s) <;>
      cases ht : detach (SchedEvent.isDue hMod hCll nowUs) (schedulerQueue t)
    · simpa using h.2
    · simp [hs, ht] at hsame
    · simp [hs, ht] at hsame
    · simp only [hs, ht, Option.map_some, Option.some.injEq,
        Prod.mk.injEq] at hsame
      simpa using hsame.2

theorem sameOnLink_unwinding (hMod hCll : UInt32) :
    (schedulerMachine (β := β)).Unwinding (SchedulerOp.concerns hMod hCll)
      (SchedulerReturn.isPollOf hMod hCll) (SameOnLink hMod hCll) where
  hidden s t op s' out hvisible hsame hstep := by
    obtain ⟨rfl, rfl⟩ := schedulerMachine_step.1 hstep
    cases op with
    | push nodeOk e => exact ⟨hsame.push_other nodeOk hvisible, rfl⟩
    | popDue hMod' hCll' nowUs =>
        have hother : ¬(hMod' = hMod ∧ hCll' = hCll) := by
          simpa [SchedulerOp.concerns] using hvisible
        refine ⟨hsame.pop_other nowUs hother, ?_⟩
        simpa [schedulerCall, SchedulerReturn.isPollOf] using hother
    | cancelCop hCop => cases hvisible
  shown s t op s' out hvisible hsame hstep := by
    obtain ⟨rfl, rfl⟩ := schedulerMachine_step.1 hstep
    refine ⟨_, _, schedulerMachine_step.2 ⟨rfl, rfl⟩, ?_⟩
    cases op with
    | push nodeOk e => exact ⟨hsame.push nodeOk e, rfl⟩
    | popDue hMod' hCll' nowUs =>
        have hlink : hMod' = hMod ∧ hCll' = hCll := by
          simpa [SchedulerOp.concerns] using hvisible
        obtain ⟨rfl, rfl⟩ := hlink
        obtain ⟨hevent, hnext⟩ := hsame.pop nowUs
        refine ⟨hnext, ?_⟩
        simp only [schedulerCall, hevent]
    | cancelCop hCop => exact ⟨hsame.cancel hCop, rfl⟩

/-- Whatever is pushed, polled and cancelled, the polls of a link answer what
they answer when the pushes to all other links and the polls of these are left
out, and the link is left with the same events. -/
theorem polls_of_link_alone (hMod hCll : UInt32) (s : Option (Scheduler β))
    (ops : List (SchedulerOp β)) :
    ∃ t outs t' outs', schedulerMachine.run s ops = some (t, outs) ∧
      schedulerMachine.run s (ops.filter (SchedulerOp.concerns hMod hCll)) =
        some (t', outs') ∧
      outs.filter (SchedulerReturn.isPollOf hMod hCll) =
        outs'.filter (SchedulerReturn.isPollOf hMod hCll) ∧
      (schedulerQueue t).filter (SchedEvent.onLink hMod hCll) =
        (schedulerQueue t').filter (SchedEvent.onLink hMod hCll) := by
  obtain ⟨t, outs, hrun⟩ := schedulerMachine_exists_run s ops
  obtain ⟨t', outs', hrun', hsame, houts⟩ :=
    (sameOnLink_unwinding hMod hCll).run_filter (SameOnLink.refl hMod hCll s)
      hrun
  exact ⟨t, outs, t', outs', hrun, hrun', houts, hsame.2⟩

end FremSoft
