/-
The end of the delivery thread and of the scheduler.  `scheduler_free` frees
the scheduler whether or not the thread has ended by the time it has waited for
it: the thread is quiet afterwards exactly when it has.
-/
import FremSoft.DeliveryThread

namespace FremSoft

universe u

variable {β : Type u}

/-- A step of the delivery thread that reads or locks the scheduler, or fires a
callback. -/
def DeliveryObs.ofThread : DeliveryObs → Bool
  | .touched | .fired _ => true
  | .registered _ | .freed => false

/-- Nothing of this comes from the delivery thread once `scheduler_free` has
returned. -/
def QuietAfterFree (outs : List DeliveryObs) : Prop :=
  outs.Pairwise fun o later => o = .freed → later.ofThread = false

instance (outs : List DeliveryObs) : Decidable (QuietAfterFree outs) :=
  inferInstanceAs (Decidable (outs.Pairwise _))

/-- The delivery thread has ended when the wait for it is over. -/
def WaitsForEnd (s : DeliverySystem β) : DeliveryAction β → Prop
  | .free => s.shutdown = .waiting → s.thread = .ended
  | _ => True

instance (s : DeliverySystem β) : (act : DeliveryAction β) →
    Decidable (WaitsForEnd s act)
  | .free => inferInstanceAs (Decidable (_ → _))
  | .startThread _ => .isTrue trivial
  | .push _ _ => .isTrue trivial
  | .popDue _ _ _ => .isTrue trivial
  | .cancelCop _ => .isTrue trivial
  | .setCallback _ _ _ => .isTrue trivial
  | .deliver _ => .isTrue trivial

/-- The wait for the thread lies behind, or was not needed. -/
def ShutdownPhase.waited : ShutdownPhase → Bool
  | .running | .waiting => false
  | .closing | .draining | .freeing | .returned => true

/-- From the end of the wait on there is no thread. -/
structure QuiesceInv (s : DeliverySystem β) (outs : List DeliveryObs) :
    Prop where
  unstarted : s.shutdown = .running → s.deliveryThread = false →
    s.thread = .ended
  ended : s.shutdown.waited = true → s.thread = .ended
  freed : .freed ∈ outs → s.shutdown = .returned
  quiet : QuietAfterFree outs

theorem QuietAfterFree.append {outs out : List DeliveryObs}
    (h : QuietAfterFree outs) (hout : QuietAfterFree out)
    (hthread : .freed ∈ outs → ∀ o ∈ out, o.ofThread = false) :
    QuietAfterFree (outs ++ out) := by
  refine List.pairwise_append.2 ⟨h, hout, fun o ho later hlater hfreed => ?_⟩
  subst hfreed
  exact hthread ho later hlater

/-- A step that is neither the delivery thread's nor the shutdown's. -/
theorem QuiesceInv.of_same {s s' : DeliverySystem β}
    {outs out : List DeliveryObs} (h : QuiesceInv s outs)
    (hshutdown : s'.shutdown = s.shutdown) (hthread : s'.thread = s.thread)
    (hhandle : s'.deliveryThread = s.deliveryThread)
    (hout : ∀ o ∈ out, ∃ cb, o = .registered cb) :
    QuiesceInv s' (outs ++ out) := by
  have hquiet : ∀ o ∈ out, o.ofThread = false := fun o ho => by
    obtain ⟨cb, rfl⟩ := hout o ho
    rfl
  refine ⟨?_, ?_, fun hmem => ?_, ?_⟩
  · rw [hshutdown, hhandle, hthread]
    exact h.unstarted
  · rw [hshutdown, hthread]
    exact h.ended
  · rw [hshutdown]
    rcases List.mem_append.1 hmem with hmem | hmem
    · exact h.freed hmem
    · obtain ⟨cb, hcb⟩ := hout _ hmem
      cases hcb
  · refine h.quiet.append ?_ fun _ => hquiet
    exact List.pairwise_of_forall_mem_list fun o ho later hlater _ =>
      hquiet later hlater

/-- A step of the delivery thread: there is one, so the wait is not over. -/
theorem QuiesceInv.deliver {s : DeliverySystem β} {outs out : List DeliveryObs}
    (h : QuiesceInv s outs) {nowUs : UInt64} {thread : ThreadPhase}
    (hstep : deliveryThreadProc s nowUs = some (thread, out)) :
    QuiesceInv { s with thread } (outs ++ out) := by
  have halive : s.thread ≠ .ended := by
    intro hended
    simp [deliveryThreadProc, hended] at hstep
  have hwaiting : s.shutdown.waited ≠ true := fun hwaited =>
    halive (h.ended hwaited)
  have hunfreed : .freed ∉ outs := fun hmem => by
    rw [h.freed hmem] at hwaiting
    exact hwaiting rfl
  have hout : .freed ∉ out ∧ QuietAfterFree out := by
    rcases deliveryThreadProc_cases hstep with
      ⟨rfl, _⟩ | ⟨call, _, _, rfl⟩ | ⟨rfl, _⟩
    · exact ⟨by decide, by decide⟩
    · exact ⟨by simp, List.pairwise_singleton _ _⟩
    · exact ⟨by decide, by decide⟩
  refine ⟨fun hrunning hhandle => ?_, fun hwaited => ?_, fun hmem => ?_, ?_⟩
  · exact absurd (h.unstarted hrunning hhandle) halive
  · exact absurd hwaited hwaiting
  · rcases List.mem_append.1 hmem with hmem | hmem
    · exact absurd hmem hunfreed
    · exact absurd hmem hout.1
  · exact h.quiet.append hout.2 fun hmem => absurd hmem hunfreed

theorem QuiesceInv.startThread {s : DeliverySystem β} {outs : List DeliveryObs}
    (h : QuiesceInv s outs) (hrunning : s.shutdown = .running)
    (created : Bool) :
    QuiesceInv (schedulerStartDeliveryThread s created) outs := by
  unfold schedulerStartDeliveryThread
  split
  · exact h
  · split
    · refine ⟨fun _ hhandle => (by cases hhandle), fun hwaited => ?_, h.freed,
        h.quiet⟩
      rw [hrunning] at hwaited
      cases hwaited
    · exact ⟨h.unstarted, h.ended, h.freed, h.quiet⟩

/-- What a step of the shutdown does: it goes one phase on, and past the wait
only from the wait itself or when there is no thread to wait for. -/
theorem schedulerFree_cases {s s' : DeliverySystem β} {out : List DeliveryObs}
    (hstep : schedulerFree s = some (s', out)) :
    s'.thread = s.thread ∧ s.shutdown ≠ .returned ∧ s'.shutdown ≠ .running ∧
      (s'.shutdown.waited = true → s.shutdown.waited = true ∨
        s.shutdown = .waiting ∨
        s.shutdown = .running ∧ s.deliveryThread = false) ∧
      (out = [] ∨ out = [.freed] ∧ s'.shutdown = .returned) := by
  cases hphase : s.shutdown with
  | running =>
      cases hhandle : s.deliveryThread <;>
      · simp only [schedulerFree, hphase, hhandle, if_true, Bool.false_eq_true,
          if_false, Option.some.injEq, Prod.mk.injEq] at hstep
        obtain ⟨rfl, rfl⟩ := hstep
        simp [ShutdownPhase.waited]
  | waiting | closing | draining | freeing =>
      simp only [schedulerFree, hphase, Option.some.injEq, Prod.mk.injEq]
        at hstep
      obtain ⟨rfl, rfl⟩ := hstep
      simp [ShutdownPhase.waited]
  | returned => simp [schedulerFree, hphase] at hstep

/-- A step of the shutdown whose wait, if it is one, has seen the thread's
end. -/
theorem QuiesceInv.free {s s' : DeliverySystem β} {outs out : List DeliveryObs}
    (h : QuiesceInv s outs) (hwaits : WaitsForEnd s .free)
    (hstep : schedulerFree s = some (s', out)) :
    QuiesceInv s' (outs ++ out) := by
  obtain ⟨hthread, hphase, hrunning, hwaited, hout⟩ := schedulerFree_cases hstep
  have hunfreed : .freed ∉ outs := fun hmem => hphase (h.freed hmem)
  refine ⟨fun hrun => absurd hrun hrunning, fun hpast => ?_, fun hmem => ?_, ?_⟩
  · rw [hthread]
    rcases hwaited hpast with hpast | hwaiting | ⟨hrun, hhandle⟩
    · exact h.ended hpast
    · exact hwaits hwaiting
    · exact h.unstarted hrun hhandle
  · rcases hout with rfl | ⟨rfl, hreturned⟩
    · rw [List.append_nil] at hmem
      exact absurd hmem hunfreed
    · exact hreturned
  · refine h.quiet.append ?_ fun hmem => absurd hmem hunfreed
    rcases hout with rfl | ⟨rfl, _⟩ <;> decide

theorem quiesceInv_step {s s' : DeliverySystem β} {outs out : List DeliveryObs}
    {act : DeliveryAction β} (h : QuiesceInv s outs) (hwaits : WaitsForEnd s act)
    (hstep : deliveryStep s act = some (s', out)) :
    QuiesceInv s' (outs ++ out) := by
  have hsame : ∀ scheduler : Option (Scheduler β),
      QuiesceInv { s with scheduler } (outs ++ []) := fun scheduler =>
    h.of_same rfl rfl rfl (by simp)
  cases act with
  | startThread created =>
      simp only [deliveryStep] at hstep
      split at hstep
      · next hrunning =>
        simp only [Option.some.injEq, Prod.mk.injEq] at hstep
        obtain ⟨rfl, rfl⟩ := hstep
        rw [List.append_nil]
        exact h.startThread hrunning created
      · cases hstep
  | push nodeOk e =>
      simp only [deliveryStep, Option.some.injEq, Prod.mk.injEq] at hstep
      obtain ⟨rfl, rfl⟩ := hstep
      exact hsame _
  | popDue hMod hCll nowUs =>
      simp only [deliveryStep, Option.some.injEq, Prod.mk.injEq] at hstep
      obtain ⟨rfl, rfl⟩ := hstep
      exact hsame _
  | cancelCop hCop =>
      simp only [deliveryStep, Option.some.injEq, Prod.mk.injEq] at hstep
      obtain ⟨rfl, rfl⟩ := hstep
      exact hsame _
  | setCallback hMod hCll cb =>
      simp only [deliveryStep, Option.some.injEq, Prod.mk.injEq] at hstep
      obtain ⟨rfl, rfl⟩ := hstep
      refine h.of_same rfl rfl rfl fun o ho => ?_
      split at ho
      · exact ⟨cb, List.mem_singleton.1 ho⟩
      · cases ho
  | deliver nowUs =>
      simp only [deliveryStep, Option.map_eq_some_iff, Prod.exists,
        Prod.mk.injEq] at hstep
      obtain ⟨thread, out', hthread, rfl, rfl⟩ := hstep
      exact h.deliver hthread
  | free => exact h.free hwaits hstep

/-- In every interleaving in which the delivery thread has ended when the wait
for it is over, it takes no step that reads or locks the scheduler and fires no
callback once `scheduler_free` has returned. -/
theorem quietAfterFree_of_run {acts : List (DeliveryAction β)}
    {t : DeliverySystem β} {outs : List DeliveryObs}
    (hwaits : deliveryMachine.Meets WaitsForEnd .init acts)
    (hrun : deliveryMachine.run .init acts = some (t, outs)) :
    QuietAfterFree outs := by
  have hinv : QuiesceInv t outs := by
    refine Machine.run_invariant_of_meets (I := QuiesceInv) ?_ hwaits hrun ?_
    · exact fun s seen act s' out h hwaits hstep =>
        quiesceInv_step h hwaits hstep
    · exact ⟨fun _ _ => rfl, fun hwaited => (by cases hwaited),
        fun hmem => (by cases hmem), List.Pairwise.nil⟩
  exact hinv.quiet

theorem not_quietAfterFree (seen : List DeliveryObs) {o : DeliveryObs}
    (ho : o.ofThread = true) : ¬QuietAfterFree (seen ++ [.freed, o]) := by
  intro hquiet
  have hsuffix := (List.pairwise_append.1 hquiet).2.1
  rw [List.pairwise_cons] at hsuffix
  have hlast := hsuffix.1 o (by simp) rfl
  rw [ho] at hlast
  cases hlast

/-- The condition is exact: a wait that times out leaves a thread that may
touch the freed scheduler or fire a callback. -/
theorem exists_unquiet_run {s : DeliverySystem β}
    (hbroken : ¬WaitsForEnd s .free) :
    ∃ acts t outs, deliveryMachine.run s (.free :: acts) = some (t, outs) ∧
      ∀ seen, ¬QuietAfterFree (seen ++ outs) := by
  simp only [WaitsForEnd, not_forall] at hbroken
  obtain ⟨hwaiting, halive⟩ := hbroken
  cases s with
  | mk scheduler deliveryThread stopFlag thread shutdown =>
      simp only at hwaiting halive
      subst hwaiting
      cases thread with
      | testingStop | reading | peeking call =>
          exact ⟨[.free, .free, .free, .deliver 0], _, [.freed, .touched], rfl,
            fun seen => not_quietAfterFree seen rfl⟩
      | invoking call =>
          exact ⟨[.free, .free, .free, .deliver 0], _, [.freed, .fired call],
            rfl, fun seen => not_quietAfterFree seen rfl⟩
      | sleeping =>
          exact ⟨[.free, .free, .free, .deliver 0, .deliver 0], _,
            [.freed, .touched], rfl,
            fun seen => not_quietAfterFree seen rfl⟩
      | inCallback call =>
          exact ⟨[.free, .free, .free, .deliver 0, .deliver 0, .deliver 0], _,
            [.freed, .touched], rfl,
            fun seen => not_quietAfterFree seen rfl⟩
      | ended => exact absurd rfl halive

/-- The client is in its callback for longer than the wait: the scheduler is
freed under the thread, which comes back to test the stop flag. -/
theorem thread_outlives_scheduler :
    ∃ t outs, deliveryMachine.run .init
        [.startThread true, .setCallback 1 2 (some 0xCB),
          .push true (sampleEvent 1 0), .deliver 0, .deliver 0, .deliver 0,
          .deliver 0, .free, .free, .free, .free, .free, .deliver 9,
          .deliver 9, .deliver 9] = some (t, outs) ∧
      outs = [.registered (some 0xCB), .touched, .touched, .touched,
        .fired ⟨0xCB, 1, 2⟩, .freed, .touched] ∧ ¬QuietAfterFree outs :=
  ⟨_, _, rfl, rfl, by decide⟩

/-- The thread comes back from the callback in time. -/
def endedInTime : List (DeliveryAction Unit) :=
  [.startThread true, .setCallback 1 2 (some 0xCB),
    .push true (sampleEvent 1 0), .deliver 0, .deliver 0, .deliver 0,
    .deliver 0, .free, .deliver 9, .deliver 9, .deliver 9, .free, .free, .free,
    .free]

theorem quietAfterFree_of_run_ended_in_time :
    ∃ t outs, deliveryMachine.run .init endedInTime = some (t, outs) ∧
      outs = [.registered (some 0xCB), .touched, .touched, .touched,
        .fired ⟨0xCB, 1, 2⟩, .touched, .freed] ∧ QuietAfterFree outs :=
  ⟨_, _, rfl, rfl, @quietAfterFree_of_run _ endedInTime _ _ (by decide) rfl⟩

end FremSoft
