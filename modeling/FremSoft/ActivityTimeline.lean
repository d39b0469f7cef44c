/-
The activity log as a timeline.  The line of a response is written when the
response is scheduled, by `fremsoft_PDUStartComPrimitive`, and not when it is
handed out: the log tells when and in which order the client sees responses
exactly as long as they are recorded without delay.
-/
import FremSoft.DueOrder
import FremSoft.FailedAllocations
import FremSoft.LogRecording
import FremSoft.ShimLog

namespace FremSoft

/-- The clock stands still during a call: its log lines carry its own tick. -/
def CallEnv.still (env : CallEnv) : CallEnv :=
  { env with lineMs := fun _ => env.tickMs }

def rspUdsLine (env : CallEnv) (e : SchedEvent (List UInt8)) : ActivityLine :=
  { ms := env.tickMs, tid := env.tid, tag := rspUdsTag, bytes := e.dataBytes }

def requestLines (env : CallEnv) (a : StartArgs) : List ActivityLine :=
  if a.isRequest then
    [{ ms := env.tickMs, tid := env.tid, tag := reqPduTag, bytes := a.bytes }]
  else []

def ActivityLine.isRspUds (line : ActivityLine) : Bool :=
  line.tag == rspUdsTag

/-- The events a call reports: those whose payload can be allocated. -/
def reportedEvents (env : CallEnv) (st : FremSoftState) (a : StartArgs) :
    List (SchedEvent (List UInt8)) :=
  if a.isRequest then
    keepAt env.payloadOk 0
      (replyEvents st.gRecording a (st.gNextHCop + 1) env.nowUs)
  else []

def handedEvent (env : CallEnv) (st : FremSoftState) (hMod hCll : UInt32)
    (pEventItem : Bool) : Option (SchedEvent (List UInt8)) :=
  if pEventItem && env.blobOk then
    (schedulerPopDue st.gScheduler hMod hCll env.nowUs).1
  else none

/-- The module state with the clock of the latest call. -/
structure ClockedState where
  st : FremSoftState
  nowUs : UInt64

inductive TimelineAction where
  | start (env : CallEnv) (a : StartArgs)
  | poll (env : CallEnv) (hMod hCll : UInt32) (pEventItem : Bool)

/-- A response written to the log, and a response handed to the client. -/
inductive TimelineObs where
  | reported (line : ActivityLine) (e : SchedEvent (List UInt8))
  | handedOut (e : SchedEvent (List UInt8))
deriving DecidableEq, Repr

def TimelineObs.line? : TimelineObs → Option ActivityLine
  | .reported line _ => some line
  | .handedOut _ => none

def TimelineObs.reported? : TimelineObs → Option (SchedEvent (List UInt8))
  | .reported _ e => some e
  | .handedOut _ => none

def TimelineObs.handedOut? : TimelineObs → Option (SchedEvent (List UInt8))
  | .reported _ _ => none
  | .handedOut e => some e

def timelineStep (s : ClockedState) :
    TimelineAction → Option (ClockedState × List TimelineObs)
  | .start env a =>
      if s.nowUs ≤ env.nowUs then
        some ({ st := (fremsoftPDUStartComPrimitive env.still s.st a).1
                nowUs := env.nowUs },
          (reportedEvents env s.st a).map fun e =>
            .reported (rspUdsLine env e) e)
      else none
  | .poll env hMod hCll pEventItem =>
      if s.nowUs ≤ env.nowUs then
        some ({ st := (fremsoftPDUGetEventItem env s.st hMod hCll pEventItem).1
                nowUs := env.nowUs },
          (handedEvent env s.st hMod hCll pEventItem).toList.map .handedOut)
      else none

/-- Calls and polls with a clock that never goes back. -/
def timelineMachine : Machine ClockedState TimelineAction TimelineObs :=
  { step := timelineStep }

/-! ### What a call reports -/

theorem fremsoftLogReqPdu_gActivityLog (st : FremSoftState) (env : CallEnv)
    (k : Nat) (bytes : List UInt8) :
    (fremsoftLogReqPdu st env k bytes).gActivityLog =
      st.gActivityLog.map
        (· ++ [⟨env.lineMs k, env.tid, reqPduTag, bytes⟩]) := rfl

theorem fremsoftLogRspUds_gActivityLog {env : CallEnv}
    (hstill : ∀ k, env.lineMs k = env.tickMs) (st : FremSoftState) (k : Nat)
    (e : SchedEvent (List UInt8)) :
    (fremsoftLogRspUds st env k e.dataBytes).gActivityLog =
      st.gActivityLog.map (· ++ [rspUdsLine env e]) := by
  rw [rspUdsLine, ← hstill k]
  rfl

theorem scheduleResponses_gActivityLog {env : CallEnv}
    (hstill : ∀ k, env.lineMs k = env.tickMs) (a : StartArgs) (hCop : UInt32)
    (nowUs : UInt64) (i : Nat) (cumulativeUs : UInt64)
    (responses : List RecordedResponse) (st : FremSoftState) :
    (scheduleResponses env a hCop nowUs i cumulativeUs responses
        st).gActivityLog =
      st.gActivityLog.map (· ++ (keepAt env.payloadOk i
        (responseEvents a hCop nowUs cumulativeUs responses)).map
          (rspUdsLine env)) := by
  induction responses generalizing i cumulativeUs st with
  | nil => simp [scheduleResponses, responseEvents, keepAt]
  | cons x rest ih =>
      simp only [scheduleResponses, responseEvents, keepAt]
      by_cases hpayload : env.payloadOk i = true
      · rw [if_pos hpayload, if_pos hpayload, ih]
        simp [fremsoftLogRspUds_gActivityLog hstill, Function.comp_def]
      · rw [if_neg hpayload, if_neg hpayload, ih, List.nil_append]

/-- The lines a call writes: the request it was, and what it reports. -/
theorem start_gActivityLog {env : CallEnv}
    (hstill : ∀ k, env.lineMs k = env.tickMs) (st : FremSoftState)
    (a : StartArgs) :
    (fremsoftPDUStartComPrimitive env st a).1.gActivityLog =
      st.gActivityLog.map (· ++ (requestLines env a ++
        (reportedEvents env st a).map (rspUdsLine env))) := by
  by_cases hrequest : a.isRequest = true
  · rw [fremsoftPDUStartComPrimitive_of_isRequest hrequest]
    simp only [reportedEvents, requestLines, hrequest, if_true, replyEvents]
    cases recordingLookup st.gRecording (decodeRequest a.bytes).1
        (decodeRequest a.bytes).2 with
    | some found =>
        rw [scheduleResponses_gActivityLog hstill]
        simp [fremsoftLogReqPdu_gActivityLog, Function.comp_def, hstill]
    | none =>
        by_cases hpayload : env.payloadOk 0 = true <;>
          simp [scheduleNrc, keepAt, hpayload, unknownLogRecord,
            fremsoftLogReqPdu_gActivityLog, Function.comp_def, hstill,
            fremsoftLogRspUds_gActivityLog hstill]
  · rw [fremsoftPDUStartComPrimitive_of_not_isRequest hrequest]
    simp [reportedEvents, requestLines, hrequest]

/-- What a call pushes it reports, in the same order. -/
theorem pushedEvents_reported (env : CallEnv) (st : FremSoftState)
    (a : StartArgs) :
    (pushedEvents env st a).Sublist (reportedEvents env st a) := by
  rw [pushedEvents, reportedEvents, startEvents]
  split
  · refine keepAt_sublist_keepAt (fun k hk => ?_) 0 _
    simp only [pushSucceeds, Bool.and_eq_true] at hk
    exact hk.1.2
  · exact List.nil_sublist _

/-- The event behind the item that the client is handed. -/
theorem handedEvent_item (env : CallEnv) (st : FremSoftState)
    (hMod hCll : UInt32) (pEventItem : Bool) :
    (fremsoftPDUGetEventItem env st hMod hCll pEventItem).2.item =
      (handedEvent env st hMod hCll pEventItem).map fun e =>
        eventItem e env.nowUs := by
  cases pEventItem with
  | false => rfl
  | true =>
      simp only [fremsoftPDUGetEventItem, handedEvent, Bool.true_and,
        Bool.not_true, Bool.false_eq_true, if_false]
      cases schedulerPopDue st.gScheduler hMod hCll env.nowUs with
      | mk popped s =>
          cases popped <;> cases hblob : env.blobOk <;> simp

/-- What a poll shows is what the client is handed. -/
theorem timelineStep_poll_item {s s' : ClockedState} {env : CallEnv}
    {hMod hCll : UInt32} {pEventItem : Bool} {out : List TimelineObs}
    (hstep : timelineStep s (.poll env hMod hCll pEventItem) =
      some (s', out)) :
    (fremsoftPDUGetEventItem env s.st hMod hCll pEventItem).2.item.toList =
      (out.filterMap TimelineObs.handedOut?).map fun e =>
        eventItem e env.nowUs := by
  simp only [timelineStep] at hstep
  split at hstep
  · cases hstep
    rw [handedEvent_item]
    cases handedEvent env s.st hMod hCll pEventItem <;> rfl
  · cases hstep

/-- A poll hands out nothing and leaves the queue, or takes the first event of
the queue that is due, and hands out no other. -/
theorem handedEvent_cases (env : CallEnv) (st : FremSoftState)
    (hMod hCll : UInt32) (pEventItem : Bool) :
    (schedulerQueue
        (fremsoftPDUGetEventItem env st hMod hCll pEventItem).1.gScheduler =
      schedulerQueue st.gScheduler ∧
      handedEvent env st hMod hCll pEventItem = none) ∨
    ∃ e, detach (SchedEvent.isDue hMod hCll env.nowUs)
        (schedulerQueue st.gScheduler) = some (e, schedulerQueue
          (fremsoftPDUGetEventItem env st hMod hCll pEventItem).1.gScheduler) ∧
      (handedEvent env st hMod hCll pEventItem).toList.Sublist [e] := by
  cases pEventItem with
  | false => exact .inl ⟨rfl, rfl⟩
  | true =>
      obtain ⟨hevent, _⟩ :=
        schedulerPopDue_eq st.gScheduler hMod hCll env.nowUs
      rcases fremsoftPDUGetEventItem_spec env st hMod hCll with
        ⟨hempty, hdetach⟩ | ⟨e, rest, hdetach, hqueue, _⟩
      · left
        rw [hempty]
        simp [handedEvent, hevent, hdetach]
      · right
        refine ⟨e, by rw [hqueue, hdetach], ?_⟩
        simp only [handedEvent, hevent, hdetach, Option.map_some]
        split <;> simp

/-! ### The condition -/

/-- The delays of a reply in milliseconds: those recorded, or the one of the
negative response. -/
def replyDelays (r : Option Recording) (bytes : List UInt8) : List UInt32 :=
  match recordingLookup r (decodeRequest bytes).1 (decodeRequest bytes).2 with
  | some found => found.responses.map RecordedResponse.delayMs
  | none => [50]

/-- No response that the call reports has a delay, nor has one before it. -/
def AnsweredAtOnce (s : ClockedState) : TimelineAction → Prop
  | .start env a => a.isRequest = true →
      ∀ k < (replyDelays s.st.gRecording a.bytes).length,
        env.payloadOk k = true →
          ∀ d ∈ (replyDelays s.st.gRecording a.bytes).take (k + 1), d = 0
  | .poll _ _ _ _ => True

instance (s : ClockedState) : (act : TimelineAction) →
    Decidable (AnsweredAtOnce s act)
  | .start _ a =>
      have (k : Nat) : Decidable (∀ d ∈
          (replyDelays s.st.gRecording a.bytes).take (k + 1), d = 0) :=
        List.decidableBAll _ _
      inferInstanceAs (Decidable (_ → _))
  | .poll _ _ _ _ => .isTrue trivial

theorem keepAt_responseEvents_due {ok : Nat → Bool} (a : StartArgs)
    (hCop : UInt32) (nowUs : UInt64) {i : Nat} {cumulativeUs : UInt64}
    {responses : List RecordedResponse}
    (honce : ∀ k < responses.length, ok (i + k) = true →
      cumulativeUs = 0 ∧
        ∀ d ∈ (responses.map RecordedResponse.delayMs).take (k + 1), d = 0) :
    ∀ e ∈ keepAt ok i (responseEvents a hCop nowUs cumulativeUs responses),
      e.dueUs = nowUs := by
  induction responses generalizing i cumulativeUs with
  | nil => simp [responseEvents, keepAt]
  | cons x rest ih =>
      intro e he
      rw [responseEvents, keepAt, List.mem_append] at he
      rcases he with he | he
      · have hok : ok i = true := by
          by_contra hnot
          simp [hnot] at he
        obtain ⟨hcumulative, hdelays⟩ :=
          honce 0 (Nat.zero_lt_succ _) (by simpa using hok)
        have hdelay : x.delayMs = 0 := hdelays _ (by simp)
        rw [if_pos hok, List.mem_singleton] at he
        subst he
        simp [responseEvent, addDelay, hcumulative, hdelay]
      · refine ih (fun k hk hok => ?_) e he
        obtain ⟨hcumulative, hdelays⟩ := honce (k + 1) (Nat.succ_lt_succ hk)
          (by rwa [Nat.add_right_comm, Nat.add_assoc] at hok)
        rw [List.map_cons, List.take_succ_cons] at hdelays
        refine ⟨?_, fun d hd => hdelays d (List.mem_cons_of_mem _ hd)⟩
        simp [addDelay, hcumulative, hdelays _ List.mem_cons_self]

theorem reportedEvents_due {s : ClockedState} {env : CallEnv} {a : StartArgs}
    (honce : AnsweredAtOnce s (.start env a)) :
    ∀ e ∈ reportedEvents env s.st a, e.dueUs = env.nowUs := by
  unfold reportedEvents
  split
  · next hrequest =>
    have honce := honce hrequest
    simp only [replyEvents]
    unfold replyDelays at honce
    cases hlookup : recordingLookup s.st.gRecording (decodeRequest a.bytes).1
        (decodeRequest a.bytes).2 with
    | some found =>
        simp only [hlookup] at honce
        apply keepAt_responseEvents_due
        intro k hk hok
        exact ⟨rfl, honce k (by simpa using hk) (by simpa using hok)⟩
    | none =>
        simp only [hlookup] at honce
        have hpayload : ¬env.payloadOk 0 = true := fun hok => by
          simpa using honce 0 Nat.zero_lt_one hok 50
        simp [keepAt, hpayload]
  · simp

/-- The condition is exact: as long as the due times of the reply do not wrap,
no line of the call is written before its response is due exactly when the
condition holds. -/
theorem answeredAtOnce_iff {s : ClockedState} {env : CallEnv} {a : StartArgs}
    (hsized : ∀ rec ∈ s.st.gRecording, rec.Sized)
    (hfits : ∀ item ∈ replyItems s.st.gRecording a.bytes
      (1000 * env.tickMs.toNat), item.dueUs < 2 ^ 64) :
    AnsweredAtOnce s (.start env a) ↔
      ∀ e ∈ reportedEvents env s.st a, e.dueUs ≤ env.nowUs := by
  constructor
  · intro honce e he
    exact UInt64.le_of_eq (reportedEvents_due honce e he)
  · intro hdue hrequest
    have hcarry := replyEvents_carry (s.st.gNextHCop + 1) hsized hfits
    rw [reportedEvents, if_pos hrequest] at hdue
    -- A response that is reported and due by now was not delayed at all.
    have hitem : ∀ k item, (replyItems s.st.gRecording a.bytes
        (1000 * env.tickMs.toNat))[k]? = some item →
        env.payloadOk k = true → item.dueUs ≤ 1000 * env.tickMs.toNat := by
      intro k item hget hok
      obtain ⟨e, hevent, hcarries⟩ := forall₂_getElem? hcarry hget
      have hle := hdue e (mem_keepAt_of_getElem? hevent (by simpa using hok))
      rw [UInt64.le_iff_toNat_le, hcarries.dueUs, CallEnv.nowUs,
        UInt64.toNat_mul] at hle
      exact hle.trans ((Nat.mod_le _ _).trans_eq (Nat.mul_comm ..))
    unfold replyItems at hitem
    unfold replyDelays
    cases hlookup : recordingLookup s.st.gRecording (decodeRequest a.bytes).1
        (decodeRequest a.bytes).2 with
    | some found =>
        simp only [hlookup, List.length_map] at hitem ⊢
        intro k hk hok d hd
        have hget := recordedItems_getElem? (1000 * env.tickMs.toNat)
          found.responses k
        rw [List.getElem?_eq_getElem hk, Option.map_some] at hget
        have hsum := hitem k _ hget hok
        simp only at hsum
        have hzero : ((found.responses.take (k + 1)).map
            (·.delayMs.toNat)).sum = 0 := by omega
        rw [List.sum_eq_zero_iff_forall_eq_nat] at hzero
        rw [← List.map_take] at hd
        obtain ⟨x, hx, rfl⟩ := List.mem_map.1 hd
        exact UInt32.toNat_inj.1 (hzero _ (List.mem_map.2 ⟨x, hx, rfl⟩))
    | none =>
        simp only [hlookup] at hitem ⊢
        intro k hk hok
        obtain rfl : k = 0 := by simpa using hk
        have hsum := hitem 0 _ rfl hok
        simp only at hsum
        omega

/-! ### Runs -/

/-- The responses in the log are a timeline of what the client saw: no line is
written before its response is due, and each link is handed its responses in
the order of their lines. -/
structure IsTimeline (log : List ActivityLine) (outs : List TimelineObs) :
    Prop where
  lines : log.filter ActivityLine.isRspUds =
    outs.filterMap TimelineObs.line?
  due : ∀ line e, .reported line e ∈ outs → e.dueUs ≤ line.ms * 1000
  order : ∀ hMod hCll,
    (linkQueue hMod hCll (outs.filterMap TimelineObs.handedOut?)).Sublist
      (linkQueue hMod hCll (outs.filterMap TimelineObs.reported?))

/-- What holds between calls: the log is a timeline, everything queued is due,
and each link will go on in the order of its lines. -/
structure TimelineInv (s : ClockedState) (outs : List TimelineObs) :
    Prop where
  log : ∃ log, s.st.gActivityLog = some log ∧
    log.filter ActivityLine.isRspUds = outs.filterMap TimelineObs.line?
  due : ∀ line e, .reported line e ∈ outs → e.dueUs ≤ line.ms * 1000
  queued : ∀ e ∈ schedulerQueue s.st.gScheduler, e.dueUs ≤ s.nowUs
  order : ∀ hMod hCll,
    (linkQueue hMod hCll (outs.filterMap TimelineObs.handedOut?) ++
      linkQueue hMod hCll (schedulerQueue s.st.gScheduler)).Sublist
      (linkQueue hMod hCll (outs.filterMap TimelineObs.reported?))

theorem requestLines_filter (env : CallEnv) (a : StartArgs) :
    (requestLines env a).filter ActivityLine.isRspUds = [] := by
  rw [List.filter_eq_nil_iff]
  intro line hline
  unfold requestLines at hline
  split at hline
  · rw [List.mem_singleton] at hline
    subst hline
    exact (by decide : ¬(reqPduTag == rspUdsTag) = true)
  · cases hline

theorem rspUdsLines_filter (env : CallEnv)
    (events : List (SchedEvent (List UInt8))) :
    (events.map (rspUdsLine env)).filter ActivityLine.isRspUds =
      events.map (rspUdsLine env) := by
  rw [List.filter_eq_self]
  intro line hline
  obtain ⟨e, _, rfl⟩ := List.mem_map.1 hline
  exact beq_self_eq_true rspUdsTag

/-- A call whose responses are due at once: their lines are on time, and come
behind everything its link has been handed or still has queued. -/
theorem timelineInv_start {s s' : ClockedState} {env : CallEnv}
    {a : StartArgs} {outs out : List TimelineObs} (hinv : TimelineInv s outs)
    (honce : AnsweredAtOnce s (.start env a))
    (hstep : timelineStep s (.start env a) = some (s', out)) :
    TimelineInv s' (outs ++ out) := by
  simp only [timelineStep] at hstep
  split at hstep
  · next hclock =>
    simp only [Option.some.injEq, Prod.mk.injEq] at hstep
    obtain ⟨rfl, rfl⟩ := hstep
    have hdue := reportedEvents_due honce
    have hqueue := start_queue env.still s.st a
    have hpushed := pushedEvents_reported env.still s.st a
    obtain ⟨log, hlog, hlines⟩ := hinv.log
    have hline : ((reportedEvents env s.st a).map fun e =>
        TimelineObs.reported (rspUdsLine env e) e).filterMap
          TimelineObs.line? = (reportedEvents env s.st a).map
            (rspUdsLine env) := by
      simp [List.filterMap_map, Function.comp_def, TimelineObs.line?]
    have hreported : ((reportedEvents env s.st a).map fun e =>
        TimelineObs.reported (rspUdsLine env e) e).filterMap
          TimelineObs.reported? = reportedEvents env s.st a := by
      simp [List.filterMap_map, Function.comp_def, TimelineObs.reported?]
    have hhanded : ((reportedEvents env s.st a).map fun e =>
        TimelineObs.reported (rspUdsLine env e) e).filterMap
          TimelineObs.handedOut? = [] := by
      simp [List.filterMap_map, Function.comp_def, TimelineObs.handedOut?]
    refine ⟨?_, ?_, ?_, ?_⟩
    · have hstill : ∀ k, env.still.lineMs k = env.still.tickMs := fun _ => rfl
      have hlog' := start_gActivityLog hstill s.st a
      rw [hlog] at hlog'
      refine ⟨_, hlog', ?_⟩
      rw [List.filter_append, List.filter_append, requestLines_filter,
        rspUdsLines_filter, List.filterMap_append, hline, hlines]
      rfl
    · intro line e hmem
      rcases List.mem_append.1 hmem with hmem | hmem
      · exact hinv.due line e hmem
      · obtain ⟨x, hx, heq⟩ := List.mem_map.1 hmem
        cases heq
        exact UInt64.le_of_eq (hdue e hx)
    · intro e he
      rw [hqueue, List.mem_append] at he
      rcases he with he | he
      · exact UInt64.le_trans (hinv.queued e he) hclock
      · exact UInt64.le_of_eq (hdue e (hpushed.subset he))
    · intro hMod hCll
      rw [hqueue, linkQueue_append, ← List.append_assoc,
        List.filterMap_append, List.filterMap_append, hreported, hhanded,
        List.append_nil, linkQueue_append]
      exact (hinv.order hMod hCll).append (hpushed.filter _)
  · cases hstep

/-- With everything queued due, a poll takes the first event of its link. -/
theorem timelineInv_poll {s s' : ClockedState} {env : CallEnv}
    {hMod hCll : UInt32} {pEventItem : Bool} {outs out : List TimelineObs}
    (hinv : TimelineInv s outs)
    (hstep : timelineStep s (.poll env hMod hCll pEventItem) =
      some (s', out)) :
    TimelineInv s' (outs ++ out) := by
  simp only [timelineStep] at hstep
  split at hstep
  · next hclock =>
    simp only [Option.some.injEq, Prod.mk.injEq] at hstep
    obtain ⟨rfl, rfl⟩ := hstep
    have hline : ((handedEvent env s.st hMod hCll pEventItem).toList.map
        TimelineObs.handedOut).filterMap TimelineObs.line? = [] := by
      simp [List.filterMap_map, Function.comp_def, TimelineObs.line?]
    have hreported : ((handedEvent env s.st hMod hCll pEventItem).toList.map
        TimelineObs.handedOut).filterMap TimelineObs.reported? = [] := by
      simp [List.filterMap_map, Function.comp_def, TimelineObs.reported?]
    have hhanded : ((handedEvent env s.st hMod hCll pEventItem).toList.map
        TimelineObs.handedOut).filterMap TimelineObs.handedOut? =
          (handedEvent env s.st hMod hCll pEventItem).toList := by
      simp [List.filterMap_map, Function.comp_def, TimelineObs.handedOut?]
    obtain ⟨log, hlog, hlines⟩ := hinv.log
    have hqueued : ∀ e ∈ schedulerQueue s.st.gScheduler,
        e.dueUs ≤ env.nowUs := fun e he =>
      UInt64.le_trans (hinv.queued e he) hclock
    refine ⟨⟨log, ?_, ?_⟩, ?_, ?_, ?_⟩
    · rw [fremsoftPDUGetEventItem_fst, hlog]
    · rw [List.filterMap_append, hline, List.append_nil, hlines]
    · intro line e hmem
      rcases List.mem_append.1 hmem with hmem | hmem
      · exact hinv.due line e hmem
      · obtain ⟨x, _, heq⟩ := List.mem_map.1 hmem
        cases heq
    · intro e he
      rcases handedEvent_cases env s.st hMod hCll pEventItem with
        ⟨hqueue, _⟩ | ⟨x, hdetach, _⟩
      · rw [hqueue] at he
        exact hqueued e he
      · exact hqueued e ((detach_sublist hdetach).subset he)
    · intro hMod' hCll'
      rw [List.filterMap_append, List.filterMap_append, hreported, hhanded,
        List.append_nil, linkQueue_append]
      refine List.Sublist.trans ?_ (hinv.order hMod' hCll')
      rw [List.append_assoc]
      refine List.Sublist.append_left ?_ _
      rcases handedEvent_cases env s.st hMod hCll pEventItem with
        ⟨hqueue, hnone⟩ | ⟨x, hdetach, hsub⟩
      · rw [hqueue, hnone]
        exact List.Sublist.refl _
      · refine List.Sublist.trans ((hsub.filter _).append_right _) ?_
        cases hlink : x.onLink hMod' hCll' with
        | true =>
            have hall : ((schedulerQueue s.st.gScheduler).filter
                (SchedEvent.onLink hMod' hCll')).Pairwise
                  fun b _ => b.dueUs ≤ env.nowUs :=
              List.pairwise_of_forall_mem_list fun b hb _ _ =>
                hqueued b (List.mem_of_mem_filter hb)
            have hon := SchedEvent.onLink_iff.1 hlink
            have htaken := SchedEvent.isDue_iff.1 (detach_pos hdetach)
            have hhead := filter_detach_of_pos hdetach hlink hall
              fun b hb hdue => SchedEvent.isDue_iff.2
                ⟨(SchedEvent.onLink_iff.1 hb).1.trans
                    (hon.1.symm.trans htaken.1),
                  (SchedEvent.onLink_iff.1 hb).2.trans
                    (hon.2.symm.trans htaken.2.1), hdue⟩
            simp only [linkQueue, hhead]
            simp [hlink]
        | false =>
            have hsame := filter_detach_of_neg hdetach hlink
            simp only [linkQueue, hsame]
            simp [hlink]
  · cases hstep

/-- In every run whose responses are all recorded without delay, and which
sends no unknown request, the activity log is a timeline of what the client
saw, at every point. -/
theorem timeline_of_run {st : FremSoftState} {acts : List TimelineAction}
    {t : ClockedState} {outs : List TimelineObs}
    (hlog : st.gActivityLog = some [])
    (hempty : schedulerQueue st.gScheduler = [])
    (honce : timelineMachine.Meets AnsweredAtOnce { st, nowUs := 0 } acts)
    (hrun : timelineMachine.run { st, nowUs := 0 } acts = some (t, outs)) :
    ∃ log, t.st.gActivityLog = some log ∧ IsTimeline log outs := by
  have hinv : TimelineInv t outs := by
    refine Machine.run_invariant_of_meets (I := TimelineInv) ?_ honce hrun ?_
    · intro s seen act s' out hinv honce hstep
      cases act with
      | start env a => exact timelineInv_start hinv honce hstep
      | poll env hMod hCll pEventItem => exact timelineInv_poll hinv hstep
    · refine ⟨⟨[], hlog, rfl⟩, by simp, by simp [hempty], ?_⟩
      intro hMod hCll
      simp [hempty, linkQueue]
  obtain ⟨log, hlog, hlines⟩ := hinv.log
  refine ⟨log, hlog, hlines, hinv.due, fun hMod hCll => ?_⟩
  exact (List.sublist_append_left _ _).trans (hinv.order hMod hCll)

/-! ### The delays that the log tells -/

/-- All responses of the log bear the times of their requests. -/
def ToldAtOnce (log : List ActivityLine) : Prop :=
  ∀ maxGapMs, ∀ x ∈ loggedExchanges maxGapMs log, ∀ line ∈ x.2,
    line.ms = x.1.ms

/-- A call writes all its lines at once, whatever the delays of its reply. -/
theorem ToldAtOnce.start {log : List ActivityLine} (h : ToldAtOnce log)
    (env : CallEnv) (st : FremSoftState) (a : StartArgs) :
    ToldAtOnce (log ++ (requestLines env a ++
      (reportedEvents env st a).map (rspUdsLine env))) := by
  unfold requestLines reportedEvents
  split
  · intro maxGapMs x hx line hline
    rw [List.singleton_append,
      loggedExchanges_append_request _ _ _ rfl, List.mem_append] at hx
    rcases hx with hx | hx
    · exact h maxGapMs x hx line hline
    · rw [loggedExchanges, if_pos rfl, List.mem_cons] at hx
      rcases hx with rfl | hx
      · have hmem := List.takeWhile_subset _ (cutAtGap_subset hline)
        obtain ⟨e, -, rfl⟩ := List.mem_map.1 hmem
        rfl
      · -- the response lines are no requests
        have hrequest := (loggedExchanges_mem hx).1
        obtain ⟨e, -, heq⟩ := List.mem_map.1 hrequest
        have htag := (loggedExchanges_mem hx).2.1
        rw [← heq] at htag
        exact absurd htag (by decide : rspUdsTag ≠ reqPduTag)
  · simpa using h

theorem recordedResponses_at_once {ms : Nat} {lines : List ActivityLine}
    (h : ∀ line ∈ lines, line.ms.toNat = ms) :
    ∀ response ∈ recordedResponses ms lines, response.delayMs = 0 := by
  induction lines with
  | nil => simp [recordedResponses]
  | cons line rest ih =>
      obtain ⟨hline, hrest⟩ := List.forall_mem_cons.1 h
      have hzero : delayOf (delayText 0) = 0 := by decide
      rw [recordedResponses, hline, sub_self, List.forall_mem_cons]
      exact ⟨hzero, ih hrest⟩

/-- In every run the tools read no delay out of the log: they reproduce the
recorded delays exactly of the replies that were recorded without any. -/
theorem delays_of_run {st : FremSoftState} {acts : List TimelineAction}
    {t : ClockedState} {outs : List TimelineObs}
    (hlog : st.gActivityLog = some [])
    (hrun : timelineMachine.run { st, nowUs := 0 } acts = some (t, outs)) :
    ∃ log, t.st.gActivityLog = some log ∧
      ∀ maxGapMs, ∀ x ∈ loggedExchanges maxGapMs log,
        ∀ response ∈ (recordedExchange x).responses,
          response.delayMs = 0 := by
  have hinv : ∃ log, t.st.gActivityLog = some log ∧ ToldAtOnce log := by
    refine Machine.run_invariant (I := fun s _ =>
      ∃ log, s.st.gActivityLog = some log ∧ ToldAtOnce log) ?_ hrun ?_
    · rintro s seen act s' out ⟨log, hopen, htold⟩ hstep
      replace hstep : timelineStep s act = some (s', out) := hstep
      cases act with
      | start env a =>
          simp only [timelineStep] at hstep
          split at hstep
          · cases hstep
            have hlog' := @start_gActivityLog env.still (fun _ => rfl) s.st a
            rw [hopen] at hlog'
            exact ⟨_, hlog', htold.start env.still s.st a⟩
          · cases hstep
      | poll env hMod hCll pEventItem =>
          simp only [timelineStep] at hstep
          split at hstep
          · cases hstep
            exact ⟨log, by rw [fremsoftPDUGetEventItem_fst, hopen], htold⟩
          · cases hstep
    · exact ⟨[], hlog, by simp [ToldAtOnce, loggedExchanges]⟩
  obtain ⟨log, hopen, htold⟩ := hinv
  refine ⟨log, hopen, fun maxGapMs x hx => ?_⟩
  exact recordedResponses_at_once fun line hline =>
    congrArg UInt64.toNat (htold maxGapMs x hx line hline)

/-! ### A delayed reply -/

/-- The two requests of the uneven recording, one after the other, and a poll
when each of them is due. -/
def delayedReplies : List TimelineAction :=
  [.start (callAt 0) (shortRequest 0x31),
    .start (callAt 0) (shortRequest 0x3E), .poll (callAt 10) 1 2 true,
    .poll (callAt 5000) 1 2 true]

/-- Both lines are written at once, the one of the slow response five seconds
before it is due, and the responses are handed out the other way round. -/
theorem timeline_broken_by_recorded_delays :
    ∃ t outs line line' slow quick,
      timelineMachine.run { st := { unevenState with gActivityLog := some [] }
                            nowUs := 0 } delayedReplies = some (t, outs) ∧
      outs = [.reported line slow, .reported line' quick, .handedOut quick,
        .handedOut slow] ∧
      line.ms = 0 ∧ slow.dueUs = 5000000 ∧ ∀ log, ¬IsTimeline log outs := by
  refine ⟨_, _, _, _, _, _, rfl, rfl, rfl, rfl, fun log htimeline => ?_⟩
  have hdue := htimeline.due _ _ List.mem_cons_self
  revert hdue
  decide

def promptState : FremSoftState :=
  { emptyState with
    gRecording := some
      { recordingId := [], vehicleProfile := []
        exchanges :=
          [{ canId := 0x7E0
             udsBytes := [0x1A]
             responses :=
              [{ canId := 0x7E8, udsBytes := [0x5A], delayMs := 0 },
               { canId := 0x7E8, udsBytes := [1], delayMs := 0 }] }] }
    gActivityLog := some [] }

theorem timeline_of_run_prompt :
    ∃ t outs log first second,
      timelineMachine.run { st := promptState, nowUs := 0 }
        [.start (callAt 7) (shortRequest 0x1A), .poll (callAt 7) 1 2 true,
          .start (callAt 9) (shortRequest 0x1A), .poll (callAt 9) 1 2 true] =
        some (t, outs) ∧
      t.st.gActivityLog = some log ∧ IsTimeline log outs ∧
      outs.filterMap TimelineObs.handedOut? = [first, second] := by
  have hruns : (timelineMachine.run { st := promptState, nowUs := 0 }
      [.start (callAt 7) (shortRequest 0x1A), .poll (callAt 7) 1 2 true,
        .start (callAt 9) (shortRequest 0x1A),
        .poll (callAt 9) 1 2 true]).isSome = true := by decide
  have hrun := (Option.some_get hruns).symm
  obtain ⟨log, hlog, htimeline⟩ :=
    timeline_of_run rfl rfl (by decide) hrun
  exact ⟨_, _, log, _, _, hrun, hlog, htimeline, rfl⟩

end FremSoft
