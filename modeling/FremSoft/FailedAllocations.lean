/-
What a failing allocation does to a call.  A poll whose item cannot be
allocated has already taken the event, which is then gone; a start call leaves
out the events whose payload or node it cannot allocate, and succeeds.
-/
import FremSoft.SchedulerRun
import FremSoft.Start

namespace FremSoft

/-! ### Polls -/

/-- What a poll does: it finds nothing due, or takes the first event due and
hands it out if there is memory for the item. -/
theorem fremsoftPDUGetEventItem_spec (env : CallEnv) (st : FremSoftState)
    (hMod hCll : UInt32) :
    (fremsoftPDUGetEventItem env st hMod hCll true =
        (st, { status := pduErrEventQueueEmpty, item := none }) ∧
      detach (SchedEvent.isDue hMod hCll env.nowUs)
        (schedulerQueue st.gScheduler) = none) ∨
    ∃ e rest, detach (SchedEvent.isDue hMod hCll env.nowUs)
        (schedulerQueue st.gScheduler) = some (e, rest) ∧
      schedulerQueue (fremsoftPDUGetEventItem env st hMod hCll true).1.gScheduler
        = rest ∧
      (fremsoftPDUGetEventItem env st hMod hCll true).2 =
        if env.blobOk then
          { status := pduStatusNoError, item := some (eventItem e env.nowUs) }
        else { status := pduErrFctFailed, item := none } := by
  cases st with
  | mk mode recording scheduler next activity unknown =>
      cases scheduler with
      | none =>
          left
          exact ⟨rfl, rfl⟩
      | some s =>
          rcases schedulerPopDue_cases s hMod hCll env.nowUs with
            ⟨hnone, hall⟩ | ⟨e, rest, hpop, hdetach⟩
          · left
            refine ⟨?_, detach_eq_none_iff.2 hall⟩
            simp [fremsoftPDUGetEventItem, hnone]
          · right
            refine ⟨e, rest, hdetach, ?_⟩
            cases hblob : env.blobOk <;>
              simp [fremsoftPDUGetEventItem, hpop, hblob]

/-- A poll that does not succeed hands out nothing.  It leaves the state as it
was unless there was no memory for the item: then the first event due is gone,
and it alone. -/
theorem fremsoftPDUGetEventItem_failed {env : CallEnv}
    {st st' : FremSoftState} {hMod hCll : UInt32} {pEventItem : Bool}
    {result : GetResult}
    (hcall : fremsoftPDUGetEventItem env st hMod hCll pEventItem =
      (st', result)) (hfailed : result.status ≠ pduStatusNoError) :
    result.item = none ∧
      (result.status ≠ pduErrFctFailed ∧ st' = st ∨
        result.status = pduErrFctFailed ∧ env.blobOk = false ∧
          ∃ e front back,
            schedulerQueue st.gScheduler = front ++ e :: back ∧
            schedulerQueue st'.gScheduler = front ++ back ∧
            e.isDue hMod hCll env.nowUs = true ∧
            ∀ b ∈ front, b.isDue hMod hCll env.nowUs = false) := by
  cases pEventItem with
  | false =>
      cases hcall
      exact ⟨rfl, .inl ⟨(by decide : pduErrInvalidParameters ≠ _), rfl⟩⟩
  | true =>
      rcases fremsoftPDUGetEventItem_spec env st hMod hCll with
        ⟨hempty, _⟩ | ⟨e, rest, hdetach, hqueue, hresult⟩
      · cases hempty.symm.trans hcall
        exact ⟨rfl, .inl ⟨(by decide : pduErrEventQueueEmpty ≠ _), rfl⟩⟩
      · rw [hcall] at hqueue hresult
        obtain ⟨front, back, hsplit, rfl, hdue, hfront⟩ :=
          detach_eq_some_iff.1 hdetach
        cases hblob : env.blobOk with
        | true =>
            rw [hblob, if_pos rfl] at hresult
            exact absurd (congrArg GetResult.status hresult) hfailed
        | false =>
            rw [hblob, if_neg (by decide)] at hresult
            rw [show result = _ from hresult]
            exact ⟨rfl, .inr ⟨rfl, rfl, e, front, back, hsplit, hqueue, hdue,
              hfront⟩⟩

/-- Playback with nothing recorded and both logs closed. -/
def emptyState : FremSoftState :=
  { gMode := .playback
    gRecording := some { recordingId := [], vehicleProfile := []
                         exchanges := [] }
    gScheduler := some schedulerNew
    gNextHCop := 0x10000
    gActivityLog := none
    gUnknownLog := none }

/-- The poll finds no memory for its item, once the negative response of an
unrecorded request is due; when the client asks again there is nothing left. -/
theorem failed_poll_loses_event :
    ∃ st st' e, (fremsoftPDUStartComPrimitive (callAt 0) emptyState
        (shortRequest 0x3E)).1 = st ∧
      schedulerQueue st.gScheduler = [e] ∧
      fremsoftPDUGetEventItem { callAt 60 with blobOk := false } st 1 2 true =
        (st', { status := pduErrFctFailed, item := none }) ∧
      schedulerQueue st'.gScheduler = [] ∧
      (fremsoftPDUGetEventItem (callAt 70) st' 1 2 true).2.status =
        pduErrEventQueueEmpty :=
  ⟨_, _, _, rfl, rfl, rfl, rfl, rfl⟩

/-- The queue of three unrecorded requests, the first of them on a link of its
own; the poll of the other link loses the second event. -/
theorem fremsoftPDUGetEventItem_failed_without_memory :
    ∃ st st', (schedulerQueue st.gScheduler).length = 3 ∧
      fremsoftPDUGetEventItem { callAt 60 with blobOk := false } st 1 2 true =
        (st', { status := pduErrFctFailed, item := none }) ∧
      ∃ e front back, schedulerQueue st.gScheduler = front ++ e :: back ∧
        schedulerQueue st'.gScheduler = front ++ back ∧
        ∀ b ∈ front, b.isDue 1 2 (callAt 60).nowUs = false := by
  let start (st : FremSoftState) (a : StartArgs) : FremSoftState :=
    (fremsoftPDUStartComPrimitive (callAt 0) st a).1
  let st := start (start (start emptyState
    { shortRequest 0x3E with hMod := 7 }) (shortRequest 0x3E))
    (shortRequest 0x10)
  have hcall : fremsoftPDUGetEventItem { callAt 60 with blobOk := false } st
      1 2 true = (_, { status := pduErrFctFailed, item := none }) := rfl
  rcases fremsoftPDUGetEventItem_failed hcall (by decide) with
    ⟨_, ⟨hstatus, _⟩ | ⟨_, _, e, front, back, hsplit, hqueue, _, hfront⟩⟩
  · exact absurd rfl hstatus
  · exact ⟨st, _, rfl, hcall, e, front, back, hsplit, hqueue, hfront⟩

/-- What polls of a link hand out, one after another. -/
def polledItems (hMod hCll : UInt32) :
    FremSoftState → List CallEnv → List (Option EventItem)
  | _, [] => []
  | st, env :: envs =>
      let r := fremsoftPDUGetEventItem env st hMod hCll true
      r.2.item :: polledItems hMod hCll r.1 envs

/-- Polls of a link, each made when the next event of the link is due, hand out
its events in their order. -/
theorem polledItems_in_order {st : FremSoftState} {hMod hCll : UInt32}
    {envs : List CallEnv} {events : List (SchedEvent (List UInt8))}
    (hevents : (schedulerQueue st.gScheduler).filter
      (SchedEvent.onLink hMod hCll) = events)
    (hpolls : List.Forall₂ (fun (env : CallEnv) e => env.blobOk = true ∧
      SchedEvent.isDue hMod hCll env.nowUs e = true) envs events) :
    polledItems hMod hCll st envs =
      List.zipWith (fun env e => some (eventItem e env.nowUs)) envs events := by
  induction hpolls generalizing st with
  | nil => rfl
  | @cons env e envs events hpoll _ ih =>
      obtain ⟨hblob, hdue⟩ := hpoll
      have hfirst := detach_filter (p := SchedEvent.isDue hMod hCll env.nowUs)
        (fun _ => SchedEvent.onLink_of_isDue) (schedulerQueue st.gScheduler)
      rw [hevents, detach_cons_of_pos hdue] at hfirst
      rcases fremsoftPDUGetEventItem_spec env st hMod hCll with
        ⟨-, hnone⟩ | ⟨e', rest, hdetach, hqueue, hresult⟩
      · rw [hnone] at hfirst
        cases hfirst
      · rw [hdetach, Option.map_some, Option.some.injEq, Prod.mk.injEq]
          at hfirst
        obtain ⟨rfl, hrest⟩ := hfirst
        have hitem : (fremsoftPDUGetEventItem env st hMod hCll true).2.item =
            some (eventItem e env.nowUs) := by rw [hresult, if_pos hblob]
        exact congrArg₂ _ hitem (ih (by rw [hqueue, hrest]))

/-- A client that asks again gets all the events of the link but the one that
was lost. -/
theorem failed_poll_retried {env : CallEnv} {st st' : FremSoftState}
    {hMod hCll : UInt32} {result : GetResult}
    (hcall : fremsoftPDUGetEventItem env st hMod hCll true = (st', result))
    (hfailed : result.status = pduErrFctFailed) :
    ∃ e front back, (schedulerQueue st.gScheduler).filter
        (SchedEvent.onLink hMod hCll) = front ++ e :: back ∧
      ∀ envs : List CallEnv,
        List.Forall₂ (fun (env : CallEnv) e => env.blobOk = true ∧
          SchedEvent.isDue hMod hCll env.nowUs e = true) envs
          (front ++ back) →
        polledItems hMod hCll st' envs =
          List.zipWith (fun env e => some (eventItem e env.nowUs)) envs
            (front ++ back) := by
  rcases fremsoftPDUGetEventItem_spec env st hMod hCll with
    ⟨hempty, -⟩ | ⟨e, rest, hdetach, hqueue, -⟩
  · cases hempty.symm.trans hcall
    exact absurd hfailed (by decide)
  · obtain ⟨front, back, hsplit, rfl, hdue, -⟩ := detach_eq_some_iff.1 hdetach
    rw [hcall] at hqueue
    refine ⟨e, front.filter (SchedEvent.onLink hMod hCll),
      back.filter (SchedEvent.onLink hMod hCll), ?_, fun envs hpolls => ?_⟩
    · rw [hsplit, List.filter_append,
        List.filter_cons_of_pos (SchedEvent.onLink_of_isDue hdue)]
    · rw [← List.filter_append] at hpolls ⊢
      exact polledItems_in_order (by rw [hqueue]) hpolls

/-! ### Start calls -/

/-- The elements of a list whose position, counted from `i`, passes a test. -/
def keepAt {α : Type} (ok : Nat → Bool) : Nat → List α → List α
  | _, [] => []
  | i, x :: rest =>
      (if ok i then [x] else []) ++ keepAt ok (i + 1) rest

theorem keepAt_sublist {α : Type} (ok : Nat → Bool) (i : Nat) (l : List α) :
    (keepAt ok i l).Sublist l := by
  induction l generalizing i with
  | nil => exact .refl _
  | cons x rest ih =>
      rw [keepAt]
      split
      · exact (ih (i + 1)).cons_cons x
      · exact (ih (i + 1)).cons x

theorem mem_keepAt_of_getElem? {α : Type} {ok : Nat → Bool} {i k : Nat}
    {l : List α} {x : α} (hget : l[k]? = some x) (hok : ok (i + k) = true) :
    x ∈ keepAt ok i l := by
  induction l generalizing i k with
  | nil => simp at hget
  | cons y rest ih =>
      rw [keepAt, List.mem_append]
      cases k with
      | zero =>
          rw [List.getElem?_cons_zero, Option.some.injEq] at hget
          left
          rw [Nat.add_zero] at hok
          simp [hok, hget]
      | succ k =>
          right
          apply ih (k := k) (by simpa using hget)
          rwa [Nat.succ_add_eq_add_succ]

/-- A weaker test keeps more. -/
theorem keepAt_sublist_keepAt {α : Type} {ok ok' : Nat → Bool}
    (himp : ∀ k, ok k = true → ok' k = true) (i : Nat) (l : List α) :
    (keepAt ok i l).Sublist (keepAt ok' i l) := by
  induction l generalizing i with
  | nil => exact List.Sublist.refl _
  | cons x rest ih =>
      rw [keepAt, keepAt]
      refine List.Sublist.append ?_ (ih (i + 1))
      cases hok : ok i with
      | false => exact List.nil_sublist _
      | true => rw [himp i hok]

/-- Nothing is left out exactly when every position passes. -/
theorem keepAt_eq_self_iff {α : Type} {ok : Nat → Bool} {i : Nat}
    {l : List α} : keepAt ok i l = l ↔ ∀ k < l.length, ok (i + k) = true := by
  induction l generalizing i with
  | nil => simp [keepAt]
  | cons x rest ih =>
      rw [List.length_cons, keepAt]
      cases hok : ok i with
      | true =>
          simp only [if_true, List.singleton_append, List.cons.injEq, true_and,
            ih]
          constructor
          · intro hall k hk
            cases k with
            | zero => exact hok
            | succ k =>
                rw [← Nat.succ_add_eq_add_succ]
                exact hall k (Nat.lt_of_succ_lt_succ hk)
          · intro hall k hk
            rw [Nat.succ_add_eq_add_succ]
            exact hall (k + 1) (Nat.succ_lt_succ hk)
      | false =>
          constructor
          · intro hself
            have hlength := congrArg List.length hself
            have hle := (keepAt_sublist ok (i + 1) rest).length_le
            simp at hlength
            omega
          · intro hall
            simpa [hok] using hall 0 (Nat.zero_lt_succ _)

/-- Both allocations of the `k`-th event succeed, and there is a scheduler to
push to. -/
def pushSucceeds (env : CallEnv) (st : FremSoftState) (k : Nat) : Bool :=
  st.gScheduler.isSome && env.payloadOk k && env.nodeOk k

/-- The loop adds the events whose allocations succeed. -/
theorem scheduleResponses_queue (env : CallEnv) (a : StartArgs) (hCop : UInt32)
    (nowUs : UInt64) (i : Nat) (cumulativeUs : UInt64)
    (responses : List RecordedResponse) (st : FremSoftState) :
    schedulerQueue
        (scheduleResponses env a hCop nowUs i cumulativeUs responses
          st).gScheduler =
      schedulerQueue st.gScheduler ++ keepAt (pushSucceeds env st) i
        (responseEvents a hCop nowUs cumulativeUs responses) := by
  induction responses generalizing i cumulativeUs st with
  | nil => simp [scheduleResponses, responseEvents, keepAt]
  | cons x rest ih =>
      simp only [scheduleResponses, responseEvents, keepAt]
      cases hpayload : env.payloadOk i with
      | false =>
          rw [if_neg (by decide), ih]
          simp [pushSucceeds, hpayload]
      | true =>
          rw [if_pos rfl, ih, ← List.append_assoc]
          have hsame : pushSucceeds env (fremsoftLogRspUds { st with
              gScheduler := (schedulerPush (env.nodeOk i) st.gScheduler
                (responseEvent a hCop (nowUs + addDelay cumulativeUs x)
                  x)).2 } env (i + 1)
              (responseEvent a hCop (nowUs + addDelay cumulativeUs x)
                x).dataBytes) = pushSucceeds env st := by
            funext k
            simp [pushSucceeds, fremsoftLogRspUds, FremSoftState.logLine,
              schedulerPush_isSome]
          rw [hsame]
          congr 1
          simp [fremsoftLogRspUds, FremSoftState.logLine, schedulerPush_queue,
            pushSucceeds, hpayload]

/-- What a request adds to the queue: the events of its reply whose allocations
succeed, in order. -/
theorem start_queue_eq {a : StartArgs} (hrequest : a.isRequest = true)
    (env : CallEnv) (st : FremSoftState) :
    schedulerQueue (fremsoftPDUStartComPrimitive env st a).1.gScheduler =
      schedulerQueue st.gScheduler ++ keepAt (pushSucceeds env st) 0
        (replyEvents st.gRecording a (st.gNextHCop + 1) env.nowUs) := by
  rw [fremsoftPDUStartComPrimitive_of_isRequest hrequest]
  simp only [replyEvents]
  cases recordingLookup st.gRecording (decodeRequest a.bytes).1
      (decodeRequest a.bytes).2 with
  | some found => exact scheduleResponses_queue ..
  | none =>
      simp only [scheduleNrc, keepAt]
      cases hpayload : env.payloadOk 0 with
      | false => simp [pushSucceeds, hpayload, unknownLogRecord,
          fremsoftLogReqPdu, FremSoftState.logLine]
      | true => simp [pushSucceeds, hpayload, unknownLogRecord,
          fremsoftLogReqPdu, fremsoftLogRspUds, FremSoftState.logLine,
          schedulerPush_queue]

/-- All of a reply is scheduled, at the end of the queue and in order, or the
call reports failure and the queue is as it was. -/
def SchedulesAllOrFails (env : CallEnv) (st : FremSoftState)
    (a : StartArgs) : Prop :=
  let after := fremsoftPDUStartComPrimitive env st a
  (after.2.status = pduStatusNoError →
    schedulerQueue after.1.gScheduler = schedulerQueue st.gScheduler ++
      replyEvents st.gRecording a (st.gNextHCop + 1) env.nowUs) ∧
  (after.2.status ≠ pduStatusNoError →
    schedulerQueue after.1.gScheduler = schedulerQueue st.gScheduler)

/-- No failure is reported, so every allocation of the reply has to succeed. -/
theorem schedulesAllOrFails_iff {env : CallEnv} {st : FremSoftState}
    {a : StartArgs} (hrequest : a.isRequest = true) :
    SchedulesAllOrFails env st a ↔
      ∀ k < (replyEvents st.gRecording a (st.gNextHCop + 1)
          env.nowUs).length, pushSucceeds env st k = true := by
  have hstatus : (fremsoftPDUStartComPrimitive env st a).2.status =
      pduStatusNoError := by rw [fremsoftPDUStartComPrimitive_snd]; rfl
  have hkept := @keepAt_eq_self_iff _ (pushSucceeds env st) 0
    (replyEvents st.gRecording a (st.gNextHCop + 1) env.nowUs)
  simp only [Nat.zero_add] at hkept
  rw [← hkept]
  simp only [SchedulesAllOrFails, hstatus, start_queue_eq hrequest,
    List.append_cancel_left_eq, forall_const, ne_eq, not_true_eq_false,
    false_implies, and_true]

def threeFrameState : FremSoftState :=
  { emptyState with
    gRecording := some
      { recordingId := [], vehicleProfile := []
        exchanges :=
          [{ canId := 0x7E0
             udsBytes := [0x1A]
             responses :=
              [{ canId := 0x7E8, udsBytes := [0x5A, 1], delayMs := 10 },
               { canId := 0x7E8, udsBytes := [2], delayMs := 5 },
               { canId := 0x7E8, udsBytes := [3], delayMs := 5 }] }] } }

theorem schedulesAllOrFails_iff_three_frames :
    SchedulesAllOrFails { callAt 0 with payloadOk := fun k => k < 3 }
      threeFrameState (shortRequest 0x1A) :=
  (schedulesAllOrFails_iff (by decide)).2 (by decide)

/-- The second node cannot be allocated: the first and the third frame are
scheduled, and the call succeeds. -/
theorem second_frame_missing :
    ∃ st' hCoP first second third, fremsoftPDUStartComPrimitive
        { callAt 0 with nodeOk := fun k => k ≠ 1 } threeFrameState
        (shortRequest 0x1A) = (st', { status := pduStatusNoError, hCoP }) ∧
      replyEvents threeFrameState.gRecording (shortRequest 0x1A) 0x10001 0 =
        [first, second, third] ∧
      schedulerQueue st'.gScheduler = [first, third] ∧
      ¬SchedulesAllOrFails { callAt 0 with nodeOk := fun k => k ≠ 1 }
        threeFrameState (shortRequest 0x1A) :=
  ⟨_, _, _, _, _, rfl, rfl, rfl, fun h => by
    have hqueue := congrArg List.length (h.1 rfl)
    revert hqueue
    decide⟩

end FremSoft
