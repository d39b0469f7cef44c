/-
Which primitives are answered.  The wrapper logs the data of a primitive
whatever its type is, so the recorder takes every one of them for a request;
playback answers one type and acknowledges the others.
-/
import FremSoft.LogFrames
import FremSoft.Shim

namespace FremSoft

universe u v

variable {ρ : Type u} {κ : Type v}

/-- The buffer behind `pCoPData` has `CoPDataSize` bytes. -/
def StartArgs.Covered (a : StartArgs) : Prop :=
  ∀ buffer ∈ a.pCoPData, a.coPDataSize.toNat ≤ buffer.length

theorem StartArgs.bytes_length {a : StartArgs} (hcovered : a.Covered)
    (hdata : a.pCoPData ≠ none) : a.bytes.length = a.coPDataSize.toNat := by
  obtain ⟨buffer, hbuffer⟩ := Option.ne_none_iff_exists'.1 hdata
  have h := hcovered buffer hbuffer
  rw [StartArgs.bytes, hbuffer, Option.getD_some, List.length_take]
  omega

/-! ### Recording -/

/-- The call adds a line to the shim's log that `parse_log` takes for a TX. -/
def RecordsTx (dll : RealDll ρ κ) (env : ShimEnv) (s : ShimState ρ)
    (a : StartArgs) : Prop :=
  ∃ lines line f, s.gLog = some lines ∧
    (pduStartComPrimitive dll env s a).1.gLog = some (lines ++ [line]) ∧
    parseLine (shimLogHexText line) = some f ∧ f.direction = .tx

def requestLine (env : ShimEnv) (a : StartArgs) : ActivityLine :=
  { ms := env.shimMs 0, tid := env.tid, tag := reqPduTag, bytes := a.bytes }

theorem pduStartComPrimitive_gLog (dll : RealDll ρ κ) (env : ShimEnv)
    (s : ShimState ρ) (a : StartArgs) :
    (pduStartComPrimitive dll env s a).1.gLog =
      if a.isLogged then s.gLog.map (· ++ [requestLine env a]) else s.gLog := by
  unfold pduStartComPrimitive
  by_cases hlogged : a.isLogged = true
  · rw [if_pos hlogged, if_pos hlogged]
    dsimp only
    split <;> rfl
  · rw [if_neg hlogged, if_neg hlogged]
    dsimp only
    split <;> rfl

theorem StartArgs.isLogged_iff {a : StartArgs} :
    a.isLogged = true ↔ a.pCoPData ≠ none ∧ 0 < a.coPDataSize.toNat ∧
      a.coPDataSize.toNat ≤ 4096 := by
  simp [StartArgs.isLogged, UInt32.lt_iff_toNat_lt, UInt32.le_iff_toNat_le,
    Option.isSome_iff_ne_none, and_assoc]

/-- The type of a primitive has no part in whether it is recorded. -/
theorem recordsTx_iff (dll : RealDll ρ κ) (env : ShimEnv) {s : ShimState ρ}
    {a : StartArgs} (hcovered : a.Covered) (hlog : s.gLog.isSome) :
    RecordsTx dll env s a ↔ a.pCoPData ≠ none ∧
      5 ≤ a.coPDataSize.toNat ∧ a.coPDataSize.toNat ≤ 4096 := by
  obtain ⟨lines, hlines⟩ := Option.isSome_iff_exists.1 hlog
  have hlength : a.pCoPData ≠ none →
      (requestLine env a).bytes.length = a.coPDataSize.toNat :=
    a.bytes_length hcovered
  constructor
  · rintro ⟨lines', line, f, hlines', hline, hparse, -⟩
    rw [pduStartComPrimitive_gLog, hlines'] at hline
    by_cases hlogged : a.isLogged = true
    · obtain ⟨hdata, hpos, hle⟩ := StartArgs.isLogged_iff.1 hlogged
      have hsize := hlength hdata
      obtain rfl : requestLine env a = line := by simpa [hlogged] using hline
      rw [parseLine_shimLogHexText (.inl rfl)
        (List.ne_nil_of_length_pos (by omega)), frameOfBytes] at hparse
      split at hparse
      · cases hparse
      · exact ⟨hdata, by omega, hle⟩
    · simp [hlogged] at hline
  · rintro ⟨hdata, hge, hle⟩
    have hlogged := StartArgs.isLogged_iff.2 ⟨hdata, by omega, hle⟩
    have hsize := hlength hdata
    refine ⟨lines, requestLine env a, (requestLine env a).frame, hlines, ?_, ?_,
      ActivityLine.direction_tx.2 rfl⟩
    · rw [pduStartComPrimitive_gLog, if_pos hlogged, hlines]
      rfl
    · exact (parseLine_shimLogHexText (.inl rfl)
        (List.ne_nil_of_length_pos (by omega))).trans
          (frameOfBytes_eq (by omega))

/-! ### Playback -/

/-- The event carries these bytes to the link of the primitive, under its handle
and tag, from `dueUs` on. -/
structure SchedEvent.IsAnswer (a : StartArgs) (hCop : UInt32) (dueUs : UInt64)
    (bytes : List UInt8) (e : SchedEvent (List UInt8)) : Prop extends
    e.BelongsTo a hCop where
  dueUs : e.dueUs = dueUs
  numData : e.numData = UInt32.ofNat bytes.length
  dataBytes : e.dataBytes = bytes

/-- The delays of these responses, one after the other. -/
def delaySum : List RecordedResponse → UInt64
  | [] => 0
  | x :: rest => x.delayMs.toUInt64 * 1000 + delaySum rest

/-- A request at `nowUs` is answered: each recorded response of its key is
scheduled for when its delay and those before it have passed; or, if there is no
such key, the request is recorded as unknown and `7F <SID> 11` scheduled 50 ms
later. -/
def AnswersRequest (r : Recording) (nowUs : UInt64) (a : StartArgs)
    (st st' : FremSoftState) : Prop :=
  ∃ s events, st.gScheduler = some s ∧
    st'.gScheduler = some (s.append events) ∧
    match recordingLookup (some r) (decodeRequest a.bytes).1
      (decodeRequest a.bytes).2 with
    | some found =>
        events.length = found.responses.length ∧
        (∀ i (e : SchedEvent (List UInt8)) x, events[i]? = some e →
          found.responses[i]? = some x →
          e.IsAnswer a (st.gNextHCop + 1)
            (nowUs + delaySum (found.responses.take (i + 1)))
            (canIdBytes x.canId ++ x.udsBytes)) ∧
        st'.gUnknownLog = st.gUnknownLog
    | none =>
        (∃ e, events = [e] ∧ e.IsAnswer a (st.gNextHCop + 1) (nowUs + 50000)
          (canIdBytes ((decodeRequest a.bytes).1 + 0x400) ++
            [0x7F, (decodeRequest a.bytes).2.headD 0, 0x11])) ∧
        st'.gUnknownLog = st.gUnknownLog.map
          (· ++ [⟨(decodeRequest a.bytes).1, (decodeRequest a.bytes).2⟩])

theorem responseEvents_length (a : StartArgs) (hCop : UInt32)
    (nowUs cumulativeUs : UInt64) (responses : List RecordedResponse) :
    (responseEvents a hCop nowUs cumulativeUs responses).length =
      responses.length := by
  induction responses generalizing cumulativeUs with
  | nil => rfl
  | cons x rest ih => rw [responseEvents, List.length_cons, ih, List.length_cons]

theorem responseEvent_isAnswer (a : StartArgs) (hCop : UInt32) (dueUs : UInt64)
    (x : RecordedResponse) :
    (responseEvent a hCop dueUs x).IsAnswer a hCop dueUs
      (canIdBytes x.canId ++ x.udsBytes) where
  hMod := rfl
  hCll := rfl
  hCop := rfl
  copTag := rfl
  itemType := rfl
  dueUs := rfl
  numData := by
    rw [List.length_append, UInt32.ofNat_add]
    rfl
  dataBytes := rfl

/-- The loop over the responses adds up their delays. -/
theorem responseEvents_isAnswer (a : StartArgs) (hCop : UInt32) (nowUs : UInt64)
    {responses : List RecordedResponse} {cumulativeUs : UInt64} {i : Nat}
    {e : SchedEvent (List UInt8)} {x : RecordedResponse}
    (he : (responseEvents a hCop nowUs cumulativeUs responses)[i]? = some e)
    (hx : responses[i]? = some x) :
    e.IsAnswer a hCop
      (nowUs + (cumulativeUs + delaySum (responses.take (i + 1))))
      (canIdBytes x.canId ++ x.udsBytes) := by
  induction responses generalizing cumulativeUs i with
  | nil => cases hx
  | cons first rest ih =>
      rw [List.take_succ_cons, delaySum, ← UInt64.add_assoc cumulativeUs]
      cases i with
      | zero =>
          obtain rfl := Option.some.inj hx
          obtain rfl := Option.some.inj he
          have hsum : delaySum (rest.take 0) = 0 := rfl
          rw [hsum, UInt64.add_zero]
          exact responseEvent_isAnswer a hCop _ first
      | succ i => exact ih he hx

/-- A request that reaches the data path is answered. -/
theorem answersRequest_of_isRequest {env : CallEnv} {st : FremSoftState}
    {a : StartArgs} {r : Recording} (halloc : env.AllocationsSucceed)
    (hrecording : st.gRecording = some r) (hscheduler : st.gScheduler.isSome)
    (hrequest : a.isRequest = true) :
    AnswersRequest r env.nowUs a st
      (fremsoftPDUStartComPrimitive env st a).1 := by
  obtain ⟨events, logged, hstate, _, hevents⟩ :=
    fremsoftPDUStartComPrimitive_spec env st a
  obtain ⟨s, hs⟩ := Option.isSome_iff_exists.1 hscheduler
  refine ⟨s, events, hs, by rw [hstate]; simp [FremSoftState.extend, hs], ?_⟩
  rw [hstate, hevents halloc, hrecording]
  simp only [startEvents, startUnknown, hrequest, if_true, replyEvents,
    FremSoftState.extend]
  cases recordingLookup (some r) (decodeRequest a.bytes).1
    (decodeRequest a.bytes).2 with
  | some found =>
      refine ⟨responseEvents_length .., fun i e x he hx => ?_, by simp⟩
      have hanswer := responseEvents_isAnswer a (st.gNextHCop + 1) env.nowUs he hx
      rwa [UInt64.zero_add] at hanswer
  | none =>
      exact ⟨⟨_, rfl, ⟨⟨rfl, rfl, rfl, rfl, rfl⟩, rfl, rfl, rfl⟩⟩, rfl⟩

/-- A call is recorded as a request whatever its type is, by the size of its
data.  What playback makes of it: it returns with the next handle; with the type
of a diagnostic request, a scheduler and enough memory it is answered; with any
other type it is acknowledged, and nothing but the handle counter changes. -/
theorem recorded_call_in_playback (dll : RealDll ρ κ) (recEnv env : ShimEnv)
    (recording : ShimState ρ) {playing : ShimState ρ} {a : StartArgs}
    {r : Recording} (hcovered : a.Covered) (hlog : recording.gLog.isSome)
    (hmode : playing.frem.gMode = .playback)
    (hrecording : playing.frem.gRecording = some r) :
    (RecordsTx dll recEnv recording a ↔ a.pCoPData ≠ none ∧
      5 ≤ a.coPDataSize.toNat ∧ a.coPDataSize.toNat ≤ 4096) ∧
    (RecordsTx dll recEnv recording a →
      (pduStartComPrimitive dll env playing a).2 =
        startResult playing.frem a ∧
      (a.coPType = pduCoptSendrecv → playing.frem.gScheduler.isSome →
        env.toCallEnv.AllocationsSucceed →
        AnswersRequest r env.nowUs a playing.frem
          (pduStartComPrimitive dll env playing a).1.frem) ∧
      (a.coPType ≠ pduCoptSendrecv →
        (pduStartComPrimitive dll env playing a).1.frem =
          { playing.frem with gNextHCop := playing.frem.gNextHCop + 1 })) := by
  have hserves : playing.frem.gMode.servesReplies = true := by rw [hmode]; rfl
  obtain ⟨hfrem, hresult⟩ := pduStartComPrimitive_frem dll env hserves a
  have hiff := recordsTx_iff dll recEnv hcovered hlog
  refine ⟨hiff, fun hrecords => ?_⟩
  obtain ⟨hdata, hge, -⟩ := hiff.1 hrecords
  rw [hfrem]
  refine ⟨hresult, fun htype hscheduler halloc => ?_, fun htype => ?_⟩
  · apply answersRequest_of_isRequest halloc hrecording hscheduler
    rw [StartArgs.isRequest_iff, UInt32.lt_iff_toNat_lt]
    refine ⟨htype, not_or.2 ⟨?_, hdata⟩⟩
    simpa using hge
  · rw [fremsoftPDUStartComPrimitive_of_not_isRequest fun hrequest =>
      htype (StartArgs.isRequest_iff.1 hrequest).1]

/-- Recording and playback of one recorded exchange, `3E` and its answer. -/
def testerPresentRecording : Recording :=
  { recordingId := [], vehicleProfile := [], exchanges :=
      [{ canId := 0x7E0, udsBytes := [0x3E], responses :=
          [{ canId := 0x5E8, udsBytes := [0x7E], delayMs := 30 }] }] }

def shimIn (mode : FremsoftMode) : ShimState Unit :=
  { frem :=
      { gMode := mode
        gRecording := some testerPresentRecording
        gScheduler := some schedulerNew
        gNextHCop := 0x10000
        gActivityLog := none
        gUnknownLog := some [] }
    gLog := some []
    real := () }

theorem shortRequest_covered (sid : UInt8) : (shortRequest sid).Covered := by
  intro buffer hbuffer
  obtain rfl := Option.some.inj hbuffer
  exact Nat.le_refl 5

theorem recorded_call_in_playback_sample :
    RecordsTx quietDll (shimCallAt 5) (shimIn .record) (shortRequest 0x3E) ∧
      AnswersRequest testerPresentRecording 9000 (shortRequest 0x3E)
        (shimIn .playback).frem
        (pduStartComPrimitive quietDll (shimCallAt 9) (shimIn .playback)
          (shortRequest 0x3E)).1.frem := by
  have hmode : (shimIn .playback).frem.gMode = .playback := rfl
  obtain ⟨hiff, hplays⟩ := recorded_call_in_playback quietDll (shimCallAt 5)
    (shimCallAt 9) (shimIn .record) (shortRequest_covered 0x3E) rfl hmode rfl
  have hrecords := hiff.2 (by decide)
  exact ⟨hrecords, (hplays hrecords).2.1 rfl rfl
    ⟨fun _ => rfl, fun _ => rfl, rfl⟩⟩

/-- The same request under the type that carries requests on the bench. -/
def benchRequest : StartArgs := { shortRequest 0x3E with coPType := 0x8004 }

/-- It is recorded, and in playback dropped with a success status: there is a
recorded response, and nothing is scheduled. -/
theorem bench_request_dropped :
    RecordsTx quietDll (shimCallAt 5) (shimIn .record) benchRequest ∧
      (pduStartComPrimitive quietDll (shimCallAt 9) (shimIn .playback)
        benchRequest).2.status = pduStatusNoError ∧
      (∃ found, recordingLookup (some testerPresentRecording)
        (decodeRequest benchRequest.bytes).1
        (decodeRequest benchRequest.bytes).2 = some found ∧
        found.responses ≠ []) ∧
      (pduStartComPrimitive quietDll (shimCallAt 9) (shimIn .playback)
        benchRequest).1.frem.gScheduler = some schedulerNew ∧
      ¬ AnswersRequest testerPresentRecording 9000 benchRequest
        (shimIn .playback).frem
        (pduStartComPrimitive quietDll (shimCallAt 9) (shimIn .playback)
          benchRequest).1.frem := by
  have hsame : (pduStartComPrimitive quietDll (shimCallAt 9) (shimIn .playback)
      benchRequest).1.frem.gScheduler = some schedulerNew := by decide
  refine ⟨(recordsTx_iff quietDll _ (shortRequest_covered 0x3E) rfl).2
    (by decide), by decide, ⟨_, rfl, by decide⟩, hsame, ?_⟩
  rintro ⟨s, events, hs, hqueue, hanswer⟩
  obtain rfl : events = [] := by
    obtain rfl : schedulerNew = s := Option.some.inj hs
    simpa [hsame, Scheduler.append, schedulerNew] using hqueue
  cases hanswer.1

end FremSoft
