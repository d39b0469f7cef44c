/-
One call of `PDUStartComPrimitive` as a whole: it only ever adds, at the end of
the queue and of the two logs, and what it adds is determined by its arguments
and the recording up to the allocations that fail.
-/
import FremSoft.Reply

namespace FremSoft

/-- Events, activity lines and unknown requests added at the ends. -/
def FremSoftState.extend (st : FremSoftState)
    (events : List (SchedEvent (List UInt8))) (lines : List ActivityLine)
    (unknown : List UnknownRecord) : FremSoftState :=
  { st with
    gScheduler := st.gScheduler.map (·.append events)
    gActivityLog := st.gActivityLog.map (· ++ lines)
    gUnknownLog := st.gUnknownLog.map (· ++ unknown) }

theorem FremSoftState.extend_nil (st : FremSoftState) :
    st.extend [] [] [] = st := by
  cases st with
  | mk mode recording scheduler next activity unknown =>
      cases scheduler <;> cases activity <;> cases unknown <;>
        simp [FremSoftState.extend]

theorem FremSoftState.extend_extend (st : FremSoftState)
    (events events' : List (SchedEvent (List UInt8)))
    (lines lines' : List ActivityLine) (unknown unknown' : List UnknownRecord) :
    (st.extend events lines unknown).extend events' lines' unknown' =
      st.extend (events ++ events') (lines ++ lines') (unknown ++ unknown') := by
  cases st with
  | mk mode recording scheduler next activity unknown =>
      cases scheduler <;> cases activity <;> cases unknown <;>
        simp [FremSoftState.extend]

theorem fremsoftLogReqPdu_eq_extend (st : FremSoftState) (env : CallEnv)
    (k : Nat) (bytes : List UInt8) : fremsoftLogReqPdu st env k bytes =
      st.extend [] [⟨env.lineMs k, env.tid, "REQ-PDU".toList, bytes⟩] [] := by
  cases st with
  | mk mode recording scheduler next activity unknown =>
      cases scheduler <;> cases unknown <;>
        simp [FremSoftState.extend, fremsoftLogReqPdu, FremSoftState.logLine]

/-- A push followed by its line in the activity log. -/
theorem pushAndLog_eq_extend (st : FremSoftState) (env : CallEnv) (k : Nat)
    (nodeOk : Bool) (e : SchedEvent (List UInt8)) (bytes : List UInt8) :
    fremsoftLogRspUds
        { st with gScheduler := (schedulerPush nodeOk st.gScheduler e).2 }
        env k bytes =
      st.extend (if nodeOk then [e] else [])
        [⟨env.lineMs k, env.tid, "RSP-UDS".toList, bytes⟩] [] := by
  cases st with
  | mk mode recording scheduler next activity unknown =>
      cases unknown <;>
        simp [FremSoftState.extend, fremsoftLogRspUds, FremSoftState.logLine,
          schedulerPush_snd]

theorem unknownLogRecord_eq_extend (st : FremSoftState) (canId : UInt32)
    (uds : List UInt8) : unknownLogRecord st canId uds =
      st.extend [] [] [⟨canId, uds⟩] := by
  cases st with
  | mk mode recording scheduler next activity unknown =>
      cases scheduler <;> cases activity <;>
        simp [FremSoftState.extend, unknownLogRecord]

/-- The loop schedules the responses in order, leaving out those whose payload
or node could not be allocated. -/
theorem scheduleResponses_spec (env : CallEnv) (a : StartArgs) (hCop : UInt32)
    (nowUs : UInt64) (i : Nat) (cumulativeUs : UInt64)
    (responses : List RecordedResponse) (st : FremSoftState) :
    ∃ events lines,
      scheduleResponses env a hCop nowUs i cumulativeUs responses st =
        st.extend events lines [] ∧
      events.Sublist (responseEvents a hCop nowUs cumulativeUs responses) ∧
      (env.AllocationsSucceed →
        events = responseEvents a hCop nowUs cumulativeUs responses) := by
  induction responses generalizing i cumulativeUs st with
  | nil => exact ⟨[], [], st.extend_nil.symm, List.Sublist.refl _, fun _ => rfl⟩
  | cons x rest ih =>
      simp only [scheduleResponses, responseEvents]
      by_cases hpayload : env.payloadOk i = true
      · simp only [hpayload, if_true, pushAndLog_eq_extend]
        obtain ⟨events, lines, heq, hsub, hall⟩ :=
          ih (i + 1) (addDelay cumulativeUs x) _
        refine ⟨_, _, by rw [heq, FremSoftState.extend_extend]; rfl, ?_, ?_⟩
        · cases env.nodeOk i with
          | true => exact hsub.cons_cons _
          | false => exact hsub.cons _
        · intro halloc
          simp [halloc.2.1 i, hall halloc]
      · simp only [hpayload, Bool.false_eq_true, if_false]
        obtain ⟨events, lines, heq, hsub, hall⟩ :=
          ih (i + 1) (addDelay cumulativeUs x) st
        refine ⟨events, lines, heq, hsub.cons _, ?_⟩
        intro halloc
        exact absurd (halloc.1 i) hpayload

/-- The call carries a diagnostic request. -/
def StartArgs.isRequest (a : StartArgs) : Bool :=
  a.coPType == pduCoptSendrecv && decide (5 ≤ a.coPDataSize) &&
    a.pCoPData.isSome

def startEvents (r : Option Recording) (a : StartArgs) (hCop : UInt32)
    (nowUs : UInt64) : List (SchedEvent (List UInt8)) :=
  if a.isRequest then replyEvents r a hCop nowUs else []

def startUnknown (r : Option Recording) (a : StartArgs) : List UnknownRecord :=
  if a.isRequest then
    match recordingLookup r (decodeRequest a.bytes).1
        (decodeRequest a.bytes).2 with
    | some _ => []
    | none => [⟨(decodeRequest a.bytes).1, (decodeRequest a.bytes).2⟩]
  else []

theorem StartArgs.isRequest_iff {a : StartArgs} :
    a.isRequest = true ↔ a.coPType = pduCoptSendrecv ∧
      ¬(a.coPDataSize < 5 ∨ a.pCoPData = none) := by
  simp [StartArgs.isRequest, not_or, and_assoc, UInt32.not_lt,
    Option.isSome_iff_ne_none]

theorem DiagRequest.isRequest (q : DiagRequest) : q.args.isRequest = true := by
  have hsize := q.args_size
  have hge := q.size_ge
  rw [StartArgs.isRequest_iff]
  simp only [UInt32.lt_iff_toNat_lt, hsize, not_or]
  exact ⟨rfl, by simpa using hge, by simp [DiagRequest.args]⟩

theorem startEvents_belong (r : Option Recording) (a : StartArgs)
    (hCop : UInt32) (nowUs : UInt64) :
    ∀ e ∈ startEvents r a hCop nowUs, e.BelongsTo a hCop := by
  unfold startEvents
  split
  · exact replyEvents_belong r a hCop nowUs
  · simp

/-- What every call answers: success, and the next handle. -/
def startResult (st : FremSoftState) (a : StartArgs) : StartResult :=
  { status := pduStatusNoError
    hCoP := if a.phCoP then some (st.gNextHCop + 1) else none }

theorem fremsoftPDUStartComPrimitive_of_not_isRequest {a : StartArgs}
    (hrequest : ¬a.isRequest = true) (env : CallEnv) (st : FremSoftState) :
    fremsoftPDUStartComPrimitive env st a =
      ({ st with gNextHCop := st.gNextHCop + 1 }, startResult st a) := by
  simp only [fremsoftPDUStartComPrimitive]
  by_cases htype : a.coPType = pduCoptSendrecv
  · rw [if_neg (by simp [htype]), if_pos]
    · rfl
    · by_contra hsize
      exact hrequest (StartArgs.isRequest_iff.2 ⟨htype, hsize⟩)
  · rw [if_pos htype]
    rfl

theorem fremsoftPDUStartComPrimitive_of_isRequest {a : StartArgs}
    (hrequest : a.isRequest = true) (env : CallEnv) (st : FremSoftState) :
    fremsoftPDUStartComPrimitive env st a =
      (let logged := fremsoftLogReqPdu
          { st with gNextHCop := st.gNextHCop + 1 } env 0 a.bytes
       match recordingLookup st.gRecording (decodeRequest a.bytes).1
          (decodeRequest a.bytes).2 with
       | some found => scheduleResponses env a (st.gNextHCop + 1) env.nowUs 0 0
          found.responses logged
       | none => scheduleNrc env a (st.gNextHCop + 1) (decodeRequest a.bytes).1
          (decodeRequest a.bytes).2 logged, startResult st a) := by
  obtain ⟨htype, hsize⟩ := StartArgs.isRequest_iff.1 hrequest
  simp only [fremsoftPDUStartComPrimitive]
  rw [if_neg (by simp [htype]), if_neg hsize]
  simp only [fremsoftLogReqPdu, FremSoftState.logLine]
  cases recordingLookup st.gRecording (decodeRequest a.bytes).1
    (decodeRequest a.bytes).2 <;> rfl

/-- The status is always `PDU_STATUS_NOERROR`, and the handle the next one. -/
theorem fremsoftPDUStartComPrimitive_snd (env : CallEnv) (st : FremSoftState)
    (a : StartArgs) :
    (fremsoftPDUStartComPrimitive env st a).2 = startResult st a := by
  by_cases hrequest : a.isRequest = true
  · rw [fremsoftPDUStartComPrimitive_of_isRequest hrequest]
  · rw [fremsoftPDUStartComPrimitive_of_not_isRequest hrequest]

theorem scheduleNrc_spec (env : CallEnv) (a : StartArgs) (hCop : UInt32)
    (canId : UInt32) (uds : List UInt8) (st : FremSoftState) :
    ∃ events lines, scheduleNrc env a hCop canId uds st =
        st.extend events lines [⟨canId, uds⟩] ∧
      events.Sublist [nrcEvent a hCop env.nowUs canId uds] ∧
      (env.AllocationsSucceed →
        events = [nrcEvent a hCop env.nowUs canId uds]) := by
  by_cases hpayload : env.payloadOk 0 = true
  · simp only [scheduleNrc, unknownLogRecord_eq_extend, hpayload, if_true,
      pushAndLog_eq_extend, FremSoftState.extend_extend]
    refine ⟨_, _, rfl, ?_, ?_⟩
    · cases env.nodeOk 0 <;> simp
    · intro halloc
      simp [halloc.2.1 0]
  · simp only [scheduleNrc, unknownLogRecord_eq_extend, hpayload,
      Bool.false_eq_true, if_false]
    refine ⟨[], [], rfl, List.nil_sublist _, ?_⟩
    intro halloc
    exact absurd (halloc.1 0) hpayload

/-- What a call does to the state. -/
theorem fremsoftPDUStartComPrimitive_spec (env : CallEnv) (st : FremSoftState)
    (a : StartArgs) :
    ∃ events lines, (fremsoftPDUStartComPrimitive env st a).1 =
        { st with gNextHCop := st.gNextHCop + 1 }.extend events lines
          (startUnknown st.gRecording a) ∧
      events.Sublist (startEvents st.gRecording a (st.gNextHCop + 1)
        env.nowUs) ∧
      (env.AllocationsSucceed → events =
        startEvents st.gRecording a (st.gNextHCop + 1) env.nowUs) := by
  by_cases hrequest : a.isRequest = true
  · rw [fremsoftPDUStartComPrimitive_of_isRequest hrequest]
    simp only [startEvents, startUnknown, hrequest, if_true, replyEvents,
      fremsoftLogReqPdu_eq_extend]
    cases recordingLookup st.gRecording (decodeRequest a.bytes).1
        (decodeRequest a.bytes).2 with
    | some found =>
        obtain ⟨events, lines, heq, hsub, hall⟩ := scheduleResponses_spec env a
          (st.gNextHCop + 1) env.nowUs 0 0 found.responses _
        exact ⟨events, _, heq.trans (FremSoftState.extend_extend ..), hsub,
          hall⟩
    | none =>
        obtain ⟨events, lines, heq, hsub, hall⟩ := scheduleNrc_spec env a
          (st.gNextHCop + 1) (decodeRequest a.bytes).1
          (decodeRequest a.bytes).2 _
        exact ⟨events, _, heq.trans (FremSoftState.extend_extend ..), hsub,
          hall⟩
  · rw [fremsoftPDUStartComPrimitive_of_not_isRequest hrequest]
    simp only [startEvents, startUnknown, hrequest, Bool.false_eq_true,
      if_false]
    exact ⟨[], [], (FremSoftState.extend_nil _).symm, List.Sublist.refl _,
      fun _ => rfl⟩

end FremSoft
