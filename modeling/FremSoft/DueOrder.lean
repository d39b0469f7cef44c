/-
The order in which one link is answered.  The list is kept in insertion order,
and a poll takes the first event that is due; that is the event due first
exactly as long as no reply starts before something the link still has queued.
-/
import FremSoft.Lib.Run
import FremSoft.FailedAllocations

namespace FremSoft

/-- The module state with the tick of the latest call. -/
structure TimedState where
  st : FremSoftState
  tickMs : UInt64

/-- A `fremsoft_PDUStartComPrimitive` call, with whatever the heap does to it,
or a `scheduler_pop_due` poll at any time. -/
inductive QueueAction where
  | start (env : CallEnv) (a : StartArgs)
  | pop (hMod hCll : UInt32) (nowUs : UInt64)

def QueueAction.isPop : QueueAction → Bool
  | .start _ _ => false
  | .pop _ _ _ => true

def queueStep (s : TimedState) :
    QueueAction → Option (TimedState × List (SchedEvent (List UInt8)))
  | .start env a =>
      if s.tickMs ≤ env.tickMs then
        some ({ st := (fremsoftPDUStartComPrimitive env s.st a).1
                tickMs := env.tickMs }, [])
      else none
  | .pop hMod hCll nowUs =>
      match schedulerPopDue s.st.gScheduler hMod hCll nowUs with
      | (popped, scheduler) =>
          some ({ s with st := { s.st with gScheduler := scheduler } },
            popped.toList)

/-- Calls at non-decreasing ticks, mixed with polls. -/
def queueMachine :
    Machine TimedState QueueAction (SchedEvent (List UInt8)) :=
  { step := queueStep }

def TimedState.queue (s : TimedState) : List (SchedEvent (List UInt8)) :=
  schedulerQueue s.st.gScheduler

def linkQueue (hMod hCll : UInt32) (events : List (SchedEvent (List UInt8))) :
    List (SchedEvent (List UInt8)) :=
  events.filter (SchedEvent.onLink hMod hCll)

/-- The due times along the list never decrease. -/
def DueOrdered (events : List (SchedEvent (List UInt8))) : Prop :=
  events.Pairwise (·.dueUs ≤ ·.dueUs)

instance (events : List (SchedEvent (List UInt8))) :
    Decidable (DueOrdered events) :=
  inferInstanceAs (Decidable (events.Pairwise (·.dueUs ≤ ·.dueUs)))

/-- What a call adds to the queue: the events of its reply whose allocations
succeed. -/
def pushedEvents (env : CallEnv) (st : FremSoftState) (a : StartArgs) :
    List (SchedEvent (List UInt8)) :=
  keepAt (pushSucceeds env st) 0
    (startEvents st.gRecording a (st.gNextHCop + 1) env.nowUs)

/-- The call starts its reply no earlier than anything its link still has
queued, and the due times of the reply do not wrap around. -/
def KeepsDueOrder (s : TimedState) : QueueAction → Prop
  | .start env a =>
      let events := pushedEvents env s.st a
      DueOrdered events ∧
        ∀ e ∈ linkQueue a.hMod a.hCll s.queue, ∀ x ∈ events, e.dueUs ≤ x.dueUs
  | .pop _ _ _ => True

instance (s : TimedState) : (act : QueueAction) →
    Decidable (KeepsDueOrder s act)
  | .start _ _ => inferInstanceAs (Decidable (_ ∧ _))
  | .pop _ _ _ => .isTrue trivial

/-- No event of the link that is due at `nowUs` is due before `e`. -/
def LeastDue (queue : List (SchedEvent (List UInt8))) (hMod hCll : UInt32)
    (nowUs : UInt64) (e : SchedEvent (List UInt8)) : Prop :=
  ∀ x ∈ queue, x.isDue hMod hCll nowUs = true → e.dueUs ≤ x.dueUs

theorem linkQueue_append (hMod hCll : UInt32)
    (front back : List (SchedEvent (List UInt8))) :
    linkQueue hMod hCll (front ++ back) =
      linkQueue hMod hCll front ++ linkQueue hMod hCll back :=
  List.filter_append ..

theorem start_queue (env : CallEnv) (st : FremSoftState) (a : StartArgs) :
    schedulerQueue (fremsoftPDUStartComPrimitive env st a).1.gScheduler =
      schedulerQueue st.gScheduler ++ pushedEvents env st a := by
  by_cases hrequest : a.isRequest = true
  · rw [start_queue_eq hrequest, pushedEvents, startEvents, if_pos hrequest]
  · rw [fremsoftPDUStartComPrimitive_of_not_isRequest hrequest, pushedEvents,
      startEvents, if_neg hrequest]
    exact (List.append_nil _).symm

theorem pushedEvents_belong (env : CallEnv) (st : FremSoftState)
    (a : StartArgs) :
    ∀ e ∈ pushedEvents env st a, e.BelongsTo a (st.gNextHCop + 1) :=
  fun e he => startEvents_belong _ _ _ _ e ((keepAt_sublist _ _ _).subset he)

/-- What a poll does: nothing, or detach one event of the queue. -/
theorem pop_cases {s s' : TimedState} {hMod hCll : UInt32} {nowUs : UInt64}
    {out : List (SchedEvent (List UInt8))}
    (hstep : queueStep s (.pop hMod hCll nowUs) = some (s', out)) :
    (out = [] ∧ s'.queue = s.queue) ∨
    ∃ e, out = [e] ∧
      detach (SchedEvent.isDue hMod hCll nowUs) s.queue =
        some (e, s'.queue) := by
  simp only [queueStep, Option.some.injEq, Prod.mk.injEq] at hstep
  obtain ⟨rfl, rfl⟩ := hstep
  rcases schedulerPopDue_queue_cases s.st.gScheduler hMod hCll nowUs with
    ⟨hnone, hqueue⟩ | ⟨e, hpop, hdetach⟩
  · left
    rw [hnone]
    exact ⟨rfl, hqueue⟩
  · right
    rw [hpop]
    exact ⟨e, rfl, hdetach⟩

/-- A step that meets the condition keeps every link in due order. -/
theorem dueOrdered_step {s s' : TimedState} {act : QueueAction}
    {out : List (SchedEvent (List UInt8))}
    (hordered : ∀ hMod hCll, DueOrdered (linkQueue hMod hCll s.queue))
    (hkeeps : KeepsDueOrder s act) (hstep : queueStep s act = some (s', out)) :
    ∀ hMod hCll, DueOrdered (linkQueue hMod hCll s'.queue) := by
  intro hMod hCll
  cases act with
  | start env a =>
      simp only [queueStep] at hstep
      split at hstep
      · simp only [Option.some.injEq, Prod.mk.injEq] at hstep
        obtain ⟨rfl, rfl⟩ := hstep
        simp only [TimedState.queue, start_queue, linkQueue_append]
        refine List.pairwise_append.2 ⟨hordered hMod hCll, ?_, ?_⟩
        · exact hkeeps.1.sublist List.filter_sublist
        · intro e he x hx
          have hmem := List.mem_of_mem_filter hx
          have hbelongs := pushedEvents_belong env s.st a x hmem
          have hlink := SchedEvent.onLink_iff.1 (List.mem_filter.1 hx).2
          refine hkeeps.2 e ?_ x hmem
          rw [← hbelongs.hMod, ← hbelongs.hCll, hlink.1, hlink.2]
          exact he
      · cases hstep
  | pop hMod' hCll' nowUs =>
      rcases pop_cases hstep with ⟨_, hqueue⟩ | ⟨e, _, hdetach⟩
      · rw [hqueue]
        exact hordered hMod hCll
      · exact (hordered hMod hCll).sublist ((detach_sublist hdetach).filter _)

theorem leastDue_of_dueOrdered {scheduler : Option (Scheduler (List UInt8))}
    {hMod hCll : UInt32} {nowUs : UInt64} {e : SchedEvent (List UInt8)}
    {scheduler' : Option (Scheduler (List UInt8))}
    (hordered : DueOrdered (linkQueue hMod hCll (schedulerQueue scheduler)))
    (hpop : schedulerPopDue scheduler hMod hCll nowUs = (some e, scheduler')) :
    LeastDue (schedulerQueue scheduler) hMod hCll nowUs e := by
  cases scheduler with
  | none => simp [schedulerPopDue] at hpop
  | some s =>
      obtain ⟨rest, _, hdetach⟩ := schedulerPopDue_eq_some.1 hpop
      intro x hx hdue
      have hleast := detach_least hdetach
        (fun b => SchedEvent.onLink_of_isDue) hordered
      rcases List.mem_cons.1 ((detach_perm hdetach).mem_iff.1 hx) with rfl | hx
      · exact UInt64.le_refl _
      · exact hleast x hx hdue

/-- Polls alone hand out a link's events from the front of its order. -/
theorem pops_linkQueue {s t : TimedState} {pops : List QueueAction}
    {outs : List (SchedEvent (List UInt8))} {hMod hCll : UInt32}
    (hpops : ∀ act ∈ pops, act.isPop = true)
    (hrun : queueMachine.run s pops = some (t, outs))
    (hordered : DueOrdered (linkQueue hMod hCll s.queue)) :
    linkQueue hMod hCll s.queue =
      linkQueue hMod hCll outs ++ linkQueue hMod hCll t.queue := by
  induction pops generalizing s outs with
  | nil =>
      simp only [Machine.run_nil, Option.some.injEq, Prod.mk.injEq] at hrun
      obtain ⟨rfl, rfl⟩ := hrun
      rfl
  | cons act rest ih =>
      obtain ⟨s', out, tail, hstep, hrest, rfl⟩ := (Machine.run_cons ..).1 hrun
      have htail : ∀ b ∈ rest, b.isPop = true := fun b hb =>
        hpops b (List.mem_cons_of_mem act hb)
      cases act with
      | start env a => simpa [QueueAction.isPop] using hpops _ List.mem_cons_self
      | pop hMod' hCll' nowUs =>
          rcases pop_cases hstep with ⟨rfl, hqueue⟩ | ⟨e, rfl, hdetach⟩
          · rw [List.nil_append, ← hqueue]
            exact ih htail hrest (by rwa [hqueue])
          · have hnext : DueOrdered (linkQueue hMod hCll s'.queue) :=
              hordered.sublist ((detach_sublist hdetach).filter _)
            rw [linkQueue_append, List.append_assoc, ← ih htail hrest hnext]
            cases hlink : e.onLink hMod hCll with
            | true =>
                -- The link's own poll: it takes the head of the link's order.
                have hon := SchedEvent.onLink_iff.1 hlink
                have hdue := SchedEvent.isDue_iff.1 (detach_pos hdetach)
                have hhead := filter_detach_of_pos hdetach hlink hordered
                  (fun b hb hle => SchedEvent.isDue_iff.2 (by
                    have hb' := SchedEvent.onLink_iff.1 hb
                    exact ⟨hb'.1.trans (hon.1.symm.trans hdue.1),
                      hb'.2.trans (hon.2.symm.trans hdue.2.1),
                      UInt64.le_trans hle hdue.2.2⟩))
                simpa [linkQueue, hlink] using hhead
            | false =>
                simpa [linkQueue, hlink] using
                  (filter_detach_of_neg hdetach hlink).symm

/-- In every run in which each call keeps the due order, every poll returns the
least due event of its link, and consecutive polls hand each link its events in
non-decreasing due time. -/
theorem dueOrder_of_run {st : FremSoftState} {acts : List QueueAction}
    {t : TimedState} {outs : List (SchedEvent (List UInt8))}
    (hempty : schedulerQueue st.gScheduler = [])
    (hkeeps : queueMachine.Meets KeepsDueOrder { st, tickMs := 0 } acts)
    (hrun : queueMachine.run { st, tickMs := 0 } acts = some (t, outs)) :
    (∀ hMod hCll nowUs e scheduler',
      schedulerPopDue t.st.gScheduler hMod hCll nowUs = (some e, scheduler') →
        LeastDue t.queue hMod hCll nowUs e) ∧
    ∀ pops t' outs', (∀ act ∈ pops, act.isPop = true) →
      queueMachine.run t pops = some (t', outs') →
        ∀ hMod hCll, DueOrdered (linkQueue hMod hCll outs') := by
  have hordered : ∀ hMod hCll, DueOrdered (linkQueue hMod hCll t.queue) := by
    refine Machine.run_invariant_of_meets
      (I := fun s _ => ∀ hMod hCll, DueOrdered (linkQueue hMod hCll s.queue))
      ?_ hkeeps hrun ?_
    · exact fun s _ act s' out h hC hstep => dueOrdered_step h hC hstep
    · intro hMod hCll
      simp only [TimedState.queue, hempty]
      exact List.Pairwise.nil
  refine ⟨?_, ?_⟩
  · intro hMod hCll nowUs e scheduler' hpop
    exact leastDue_of_dueOrdered (hordered hMod hCll) hpop
  · intro pops t' outs' hpops hrunPops hMod hCll
    have hsplit := pops_linkQueue hpops hrunPops (hordered hMod hCll)
    have hall := hordered hMod hCll
    rw [hsplit] at hall
    exact (List.pairwise_append.1 hall).1

/-! ### The condition is exact -/

/-- The end of the 64-bit clock, when everything is due. -/
def lastUs : UInt64 := 0xFFFFFFFFFFFFFFFF

theorem isDue_lastUs (hMod hCll : UInt32) (e : SchedEvent (List UInt8)) :
    e.isDue hMod hCll lastUs = e.onLink hMod hCll := by
  have hle : e.dueUs ≤ lastUs := by
    rw [UInt64.le_iff_toNat_le]
    have := e.dueUs.toNat_lt
    simp only [lastUs, UInt64.reduceToNat]
    omega
  simp [SchedEvent.isDue, SchedEvent.onLink, hle]

/-- On a link that is out of order some poll returns an event that is not the
least due one. -/
theorem exists_pop_not_least {s : TimedState} {hMod hCll : UInt32}
    (hbroken : ¬DueOrdered (linkQueue hMod hCll s.queue)) :
    ∃ pops t outs e scheduler', (∀ act ∈ pops, QueueAction.isPop act = true) ∧
      queueMachine.run s pops = some (t, outs) ∧
      schedulerPopDue t.st.gScheduler hMod hCll lastUs =
        (some e, scheduler') ∧
      ¬LeastDue t.queue hMod hCll lastUs e := by
  generalize hlink : linkQueue hMod hCll s.queue = link at hbroken
  induction link generalizing s with
  | nil => exact absurd List.Pairwise.nil hbroken
  | cons x rest ih =>
      obtain ⟨scheduler, hscheduler⟩ : ∃ scheduler,
          s.st.gScheduler = some scheduler := by
        cases hnone : s.st.gScheduler with
        | none => simp [TimedState.queue, hnone, linkQueue] at hlink
        | some scheduler => exact ⟨scheduler, rfl⟩
      have hqueue : s.queue = scheduler.head := by
        simp [TimedState.queue, hscheduler]
      have hsame : (SchedEvent.isDue hMod hCll lastUs :
          SchedEvent (List UInt8) → Bool) = SchedEvent.onLink hMod hCll :=
        funext (isDue_lastUs hMod hCll)
      rcases schedulerPopDue_cases scheduler hMod hCll lastUs with
        ⟨_, hall⟩ | ⟨e, remaining, hpop, hdetach⟩
      · rw [hsame, ← hqueue] at hall
        have hempty := List.filter_eq_nil_iff.2
          (fun y hy => by simp [hall y hy] :
            ∀ y ∈ s.queue, ¬y.onLink hMod hCll = true)
        rw [linkQueue, hempty] at hlink
        cases hlink
      · -- Everything is due: the poll takes the head of the link.
        have hhead := filter_detach_of_pos (R := fun _ _ => True) hdetach
          (SchedEvent.onLink_of_isDue (detach_pos hdetach))
          (List.pairwise_of_forall fun _ _ => trivial)
          (fun b hb _ => by rw [hsame]; exact hb)
        rw [← hqueue] at hhead
        have hsplit := hhead.symm.trans hlink
        simp only [List.cons.injEq] at hsplit
        obtain ⟨rfl, hrest⟩ := hsplit
        by_cases hfirst : ∀ y ∈ rest, e.dueUs ≤ y.dueUs
        · have htail : ¬DueOrdered rest := fun hordered =>
            hbroken (List.pairwise_cons.2 ⟨hfirst, hordered⟩)
          let s' : TimedState := { s with
            st := { s.st with
              gScheduler := some { scheduler with head := remaining } } }
          obtain ⟨pops, t, outs, e', scheduler', hpops, hrun, hlater⟩ :=
            ih (s := s') hrest htail
          refine ⟨.pop hMod hCll lastUs :: pops, t, e :: outs, e', scheduler',
            ?_, ?_, hlater⟩
          · intro act hact
            rcases List.mem_cons.1 hact with rfl | hact
            · rfl
            · exact hpops act hact
          · refine (Machine.run_cons ..).2 ⟨s', [e], outs, ?_, hrun, rfl⟩
            simp [queueMachine, queueStep, hscheduler, hpop, s']
        · refine ⟨[], s, [], e, _, by simp, rfl, by rw [hscheduler, hpop], ?_⟩
          intro hleast
          apply hfirst
          intro y hy
          have hmem : y ∈ linkQueue hMod hCll s.queue := by
            rw [hlink]
            exact List.mem_cons_of_mem _ hy
          apply hleast y (List.mem_of_mem_filter hmem)
          rw [hsame]
          exact (List.mem_filter.1 hmem).2

/-- On an ordered queue, a call meets the condition exactly when no sequence of
polls after it finds its link out of order. -/
theorem keepsDueOrder_iff {s s' : TimedState} {env : CallEnv} {a : StartArgs}
    {out : List (SchedEvent (List UInt8))}
    (hordered : ∀ hMod hCll, DueOrdered (linkQueue hMod hCll s.queue))
    (hstep : queueStep s (.start env a) = some (s', out)) :
    KeepsDueOrder s (.start env a) ↔
      ∀ pops t outs, (∀ act ∈ pops, QueueAction.isPop act = true) →
        queueMachine.run s' pops = some (t, outs) →
        ∀ nowUs e scheduler', schedulerPopDue t.st.gScheduler a.hMod a.hCll
            nowUs = (some e, scheduler') →
          LeastDue t.queue a.hMod a.hCll nowUs e := by
  constructor
  · intro hkeeps pops t outs hpops hrun nowUs e scheduler' hpop
    have hnext := dueOrdered_step hordered hkeeps hstep a.hMod a.hCll
    refine leastDue_of_dueOrdered ?_ hpop
    rw [pops_linkQueue hpops hrun hnext] at hnext
    exact (List.pairwise_append.1 hnext).2.1
  · intro hleast
    have hafter : DueOrdered (linkQueue a.hMod a.hCll s'.queue) := by
      by_contra hbroken
      obtain ⟨pops, t, outs, e, scheduler', hpops, hrun, hpop, hnot⟩ :=
        exists_pop_not_least hbroken
      exact hnot (hleast pops t outs hpops hrun lastUs e scheduler' hpop)
    have hqueue : s'.queue = s.queue ++ pushedEvents env s.st a := by
      simp only [queueStep] at hstep
      split at hstep
      · simp only [Option.some.injEq, Prod.mk.injEq] at hstep
        rw [← hstep.1]
        exact start_queue env s.st a
      · cases hstep
    have hown : linkQueue a.hMod a.hCll (pushedEvents env s.st a) =
        pushedEvents env s.st a := by
      rw [linkQueue, List.filter_eq_self]
      intro x hx
      have hbelongs := pushedEvents_belong env s.st a x hx
      exact SchedEvent.onLink_iff.2 ⟨hbelongs.hMod, hbelongs.hCll⟩
    rw [hqueue, linkQueue_append, hown] at hafter
    have hparts := List.pairwise_append.1 hafter
    exact ⟨hparts.2.1, hparts.2.2⟩

/-! ### Two outstanding requests -/

/-- Two requests, answered after five seconds and after ten milliseconds. -/
def unevenRecording : Recording :=
  { recordingId := "uneven".toList
    vehicleProfile := []
    exchanges :=
      [{ canId := 0x7E0
         udsBytes := [0x31]
         responses :=
          [{ canId := 0x7E8, udsBytes := [0x71], delayMs := 5000 }] },
       { canId := 0x7E0
         udsBytes := [0x3E]
         responses :=
          [{ canId := 0x7E8, udsBytes := [0x7E], delayMs := 10 }] }] }

def unevenState : FremSoftState :=
  { gMode := .playback
    gRecording := some unevenRecording
    gScheduler := some schedulerNew
    gNextHCop := 0x10000
    gActivityLog := none
    gUnknownLog := none }

/-- Both requests are outstanding at once: five seconds on, both replies are
due, and the poll returns the later one while the earlier one stays queued. -/
theorem dueOrder_broken_by_outstanding_requests :
    ∃ t slow quick, queueMachine.run { st := unevenState, tickMs := 0 }
        [.start (callAt 0) (shortRequest 0x31),
          .start (callAt 0) (shortRequest 0x3E)] = some (t, []) ∧
      t.queue = [slow, quick] ∧
      (schedulerPopDue t.st.gScheduler 1 2 5000000).1 = some slow ∧
      quick.isDue 1 2 5000000 = true ∧ quick.dueUs < slow.dueUs :=
  ⟨_, _, _, rfl, rfl, rfl, by decide, by decide⟩

def separateRequests : List QueueAction :=
  [.start (callAt 0) (shortRequest 0x31), .pop 1 2 5000000,
    .start (callAt 6000) (shortRequest 0x3E)]

theorem dueOrder_of_separate_requests :
    ∃ t outs, queueMachine.run { st := unevenState, tickMs := 0 }
        separateRequests = some (t, outs) ∧
      (∀ hMod hCll nowUs e scheduler', schedulerPopDue t.st.gScheduler hMod
          hCll nowUs = (some e, scheduler') →
        LeastDue t.queue hMod hCll nowUs e) ∧
      ∀ pops t' outs', (∀ act ∈ pops, QueueAction.isPop act = true) →
        queueMachine.run t pops = some (t', outs') →
          ∀ hMod hCll, DueOrdered (linkQueue hMod hCll outs') := by
  have hruns : (queueMachine.run { st := unevenState, tickMs := 0 }
      separateRequests).isSome = true := by decide
  have hrun := (Option.some_get hruns).symm
  exact ⟨_, _, hrun, dueOrder_of_run rfl (by decide) hrun⟩

end FremSoft
