/-
From the log to the queue: a request that was logged is answered with the
responses the log shows behind its first occurrence, byte for byte and at the
distances the log shows.
-/
import FremSoft.LoadSized
import FremSoft.LogRecording
import FremSoft.Start

namespace FremSoft

/-! ### Delays -/

/-- Every line comes no earlier than the one before it, by less than the
`uint32_t` of a recorded delay. -/
def DelaysFit (lastMs : Nat) : List ActivityLine → Prop
  | [] => True
  | line :: rest =>
      lastMs ≤ line.ms.toNat ∧ line.ms.toNat - lastMs < 2 ^ 32 ∧
        DelaysFit line.ms.toNat rest

theorem cutAtGap_delaysFit {maxGapMs : Int} (hgap : maxGapMs < 2 ^ 32)
    {lines : List ActivityLine} (hordered : lines.Pairwise (·.ms ≤ ·.ms))
    {lastMs : Nat} (hlast : ∀ line ∈ lines, lastMs ≤ line.ms.toNat) :
    DelaysFit lastMs (cutAtGap maxGapMs lastMs lines) := by
  induction lines generalizing lastMs with
  | nil => trivial
  | cons line rest ih =>
      rw [List.pairwise_cons] at hordered
      rw [cutAtGap]
      split
      · have hfirst := hlast line List.mem_cons_self
        refine ⟨hfirst, by omega, ih hordered.2 fun l hl => ?_⟩
        exact UInt64.le_iff_toNat_le.1 (hordered.1 l hl)
      · trivial

theorem loggedExchanges_delaysFit {maxGapMs : Int} (hgap : maxGapMs < 2 ^ 32)
    {lines : List ActivityLine} (hordered : lines.Pairwise (·.ms ≤ ·.ms))
    {x : ActivityLine × List ActivityLine}
    (hx : x ∈ loggedExchanges maxGapMs lines) :
    DelaysFit x.1.ms.toNat x.2 := by
  induction lines with
  | nil => simp [loggedExchanges] at hx
  | cons line rest ih =>
      rw [List.pairwise_cons] at hordered
      rw [loggedExchanges] at hx
      split at hx
      · rcases List.mem_cons.1 hx with rfl | hx
        · have hsub := List.takeWhile_sublist (l := rest)
            (fun l => decide (l.tag ≠ reqPduTag))
          refine cutAtGap_delaysFit hgap (hordered.2.sublist hsub)
            fun l hl => ?_
          exact UInt64.le_iff_toNat_le.1 (hordered.1 l (hsub.subset hl))
        · exact ih hordered.2 hx
      · exact ih hordered.2 hx

theorem delayOf_recorded {fromMs toMs : Nat} (hle : fromMs ≤ toMs)
    (hlt : toMs - fromMs < 2 ^ 32) :
    (delayOf (delayText ((toMs : Int) - fromMs))).toNat = toMs - fromMs := by
  have hdelay : (toMs : Int) - fromMs = (toMs - fromMs : Nat) := by omega
  rw [hdelay, delayOf_delayText_of_lt hlt]

/-! ### Replay -/

/-- The item is the frame of the line, due as long after `nowUs` as the line
was logged after `fromMs`. -/
structure ReplyItem.Replays (nowUs fromMs : Nat) (item : ReplyItem)
    (line : ActivityLine) : Prop where
  data : item.data = line.bytes
  dueUs : item.dueUs = nowUs + 1000 * (line.ms.toNat - fromMs)

/-- The delays that were taken from line to line add up to the time since the
request again. -/
theorem recordedItems_replay (nowUs : Nat) {fromMs lastMs : Nat}
    {reply : List ActivityLine} (hfrom : fromMs ≤ lastMs)
    (hdelays : DelaysFit lastMs reply)
    (hframes : ∀ line ∈ reply, 4 ≤ line.bytes.length ∧
      HasZeroChannel line.bytes) :
    List.Forall₂ (ReplyItem.Replays nowUs fromMs)
      (recordedItems (nowUs + 1000 * (lastMs - fromMs))
        (recordedResponses lastMs reply)) reply := by
  induction reply generalizing lastMs with
  | nil => exact .nil
  | cons line rest ih =>
      obtain ⟨hle, hlt, hrest⟩ := hdelays
      obtain ⟨hlength, hzero⟩ := hframes line List.mem_cons_self
      have hdelay := delayOf_recorded hle hlt
      have hdue : nowUs + 1000 * (lastMs - fromMs) +
          1000 * (line.ms.toNat - lastMs) =
          nowUs + 1000 * (line.ms.toNat - fromMs) := by omega
      simp only [recordedResponses, recordedItems, recordedResponse, hdelay,
        hdue]
      refine .cons ⟨(canIdBytes_append_eq_iff hlength).2 hzero, rfl⟩ ?_
      exact ih (by omega) hrest fun l hl =>
        hframes l (List.mem_cons_of_mem line hl)

/-- The event is the frame of the line, due as long after `nowUs` as the line
was logged after `fromMs`. -/
structure SchedEvent.Replays (nowUs fromMs : Nat)
    (e : SchedEvent (List UInt8)) (line : ActivityLine) : Prop where
  dataBytes : e.dataBytes = line.bytes
  numData : e.numData.toNat = line.bytes.length
  dueUs : e.dueUs.toNat = nowUs + 1000 * (line.ms.toNat - fromMs)

theorem SchedEvent.replays_of_carries {nowUs fromMs : Nat}
    (e : SchedEvent (List UInt8)) (item : ReplyItem) (line : ActivityLine)
    (hcarries : e.Carries item) (hreplays : item.Replays nowUs fromMs line) :
    e.Replays nowUs fromMs line :=
  { dataBytes := hcarries.dataBytes.trans hreplays.data
    numData := by rw [hcarries.numData, hreplays.data]
    dueUs := hcarries.dueUs.trans hreplays.dueUs }

/-- Frames with zero channels that are filed under one key are the same. -/
theorem requestKey_eq_iff {line : ActivityLine} {raw : List UInt8}
    (hlength : 4 ≤ line.bytes.length) (hzero : HasZeroChannel line.bytes)
    (hlength' : 4 ≤ raw.length) (hzero' : HasZeroChannel raw) :
    requestKey line = (headerCanId raw, raw.drop 4) ↔ line.bytes = raw := by
  constructor
  · intro hkey
    obtain ⟨hcanId, huds⟩ := Prod.mk.inj hkey
    rw [← (canIdBytes_append_eq_iff hlength).2 hzero,
      ← (canIdBytes_append_eq_iff hlength').2 hzero', hcanId, huds]
  · rintro rfl
    rfl

/-- Every line of the log is a frame that starts with `00 00`. -/
def IsZeroChannelLog (lines : List ActivityLine) : Prop :=
  IsFrameLog lines ∧ ∀ line ∈ lines, HasZeroChannel line.bytes

/-- The lookup of a logged request finds its first occurrence. -/
theorem recordingLookup_logged {r : Recording} {maxGapMs : Int}
    {lines : List ActivityLine} {line : ActivityLine}
    (hlog : IsZeroChannelLog lines)
    (hexchanges : r.exchanges =
      (keptExchanges maxGapMs lines).map recordedExchange)
    (hline : line ∈ lines) (htag : line.tag = reqPduTag) :
    ∃ x, loggedReply maxGapMs line.bytes lines = some x ∧
      recordingLookup (some r) (decodeRequest line.bytes).1
        (decodeRequest line.bytes).2 = some (recordedExchange x) := by
  have hlength : ∀ l ∈ lines, 4 ≤ l.bytes.length := fun l hl => by
    have := (hlog.1 l hl).2
    omega
  have hzero := hlog.2 line hline
  have hdecode := (decodeRequest_eq_iff (hlength line hline)).2 hzero
  have hcanId := ofNat_headerCanId_eq_iff.1
    (rfl : UInt32.ofNat (headerCanId line.bytes) = _)
  have hfirst : loggedReply maxGapMs line.bytes lines =
      (loggedExchanges maxGapMs lines).find? fun x => decide
        (requestKey x.1 = (headerCanId line.bytes, line.bytes.drop 4)) := by
    refine List.find?_congr fun x hx => decide_eq_decide.2 ?_
    have hmem := (loggedExchanges_mem hx).1
    exact (requestKey_eq_iff (hlength _ hmem) (hlog.2 _ hmem)
      (hlength line hline) hzero).symm
  obtain ⟨reply, hreply⟩ := exists_loggedExchange maxGapMs hline htag
  have hsome : (loggedReply maxGapMs line.bytes lines).isSome :=
    List.find?_isSome.2 ⟨_, hreply, by simp⟩
  obtain ⟨x, hx⟩ := Option.isSome_iff_exists.1 hsome
  refine ⟨x, hx, ?_⟩
  rw [recordingLookup_log hexchanges, hdecode, ← hcanId, ← hfirst, hx]
  rfl

/-- The events of a logged request's responses replay the lines. -/
theorem responseEvents_replay {r : Recording} {maxGapMs : Int}
    {lines : List ActivityLine} {x : ActivityLine × List ActivityLine}
    (a : StartArgs) (hCop : UInt32) {nowUs : UInt64}
    (hlog : IsZeroChannelLog lines) (hordered : lines.Pairwise (·.ms ≤ ·.ms))
    (hgap : maxGapMs < 2 ^ 32) (hx : x ∈ loggedExchanges maxGapMs lines)
    (hsized : r.Sized) (hfound : recordedExchange x ∈ r.exchanges)
    (hfits : ∀ line ∈ x.2,
      nowUs.toNat + 1000 * (line.ms.toNat - x.1.ms.toNat) < 2 ^ 64) :
    List.Forall₂ (SchedEvent.Replays nowUs.toNat x.1.ms.toNat)
      (responseEvents a hCop nowUs 0 (recordedExchange x).responses) x.2 := by
  have hframes : ∀ line ∈ x.2, 4 ≤ line.bytes.length ∧
      HasZeroChannel line.bytes := by
    intro line hline
    have hmem := (loggedExchanges_mem hx).2.2 hline
    have hlength := (hlog.1 line hmem).2
    exact ⟨by omega, hlog.2 line hmem⟩
  have hitems := recordedItems_replay nowUs.toNat (le_refl _)
    (loggedExchanges_delaysFit hgap hordered hx) hframes
  rw [Nat.sub_self, Nat.mul_zero, Nat.add_zero] at hitems
  refine forall₂_comp SchedEvent.replays_of_carries
    (responseEvents_carry a hCop nowUs (by rw [UInt64.add_zero])
      (hsized _ hfound).2 ?_) hitems
  intro item hitem
  obtain ⟨line, hline, hreplays⟩ := forall₂_exists_right hitems hitem
  rw [hreplays.dueUs]
  exact hfits line hline

/-- What was logged is replayed: a request of the log, sent again, puts into
the queue the responses that follow its first occurrence in the log, each with
its bytes and its time since that request. -/
theorem replay_of_log {lines : List ActivityLine} {line : ActivityLine}
    {header : DocHeader} {maxGapMs : Int} {json : List Char}
    {toks : List JsmnTok} {q : DiagRequest} (hlog : IsZeroChannelLog lines)
    (hordered : lines.Pairwise (·.ms ≤ ·.ms)) (hgap : maxGapMs < 2 ^ 32)
    (htoks : Tokenises json
      (buildRecording header maxGapMs (shimLogText lines)) toks)
    (hline : line ∈ lines) (htag : line.tag = reqPduTag)
    (hbytes : q.bytes = line.bytes) :
    ∃ r request reply, recordingLoad json toks = .ok (some r) ∧
      loggedReply maxGapMs q.bytes lines = some (request, reply) ∧
      ∀ (env : CallEnv) (st : FremSoftState) (s : Scheduler (List UInt8)),
        env.AllocationsSucceed → st.gRecording = some r →
        st.gScheduler = some s →
        (∀ l ∈ reply, env.nowUs.toNat +
          1000 * (l.ms.toNat - request.ms.toNat) < 2 ^ 64) →
        ∃ events, (fremsoftPDUStartComPrimitive env st q.args).1.gScheduler =
            some (s.append events) ∧
          List.Forall₂
            (SchedEvent.Replays env.nowUs.toNat request.ms.toNat)
            events reply := by
  obtain ⟨r, hload, hexchanges⟩ := recordingLoad_log hlog.1 htoks
  obtain ⟨⟨request, reply⟩, hfirst, hlookup⟩ :=
    recordingLookup_logged hlog hexchanges hline htag
  rw [← hbytes] at hfirst hlookup
  refine ⟨r, request, reply, hload, hfirst, ?_⟩
  intro env st s halloc hrecording hscheduler hfits
  obtain ⟨events, logged, hstate, _, hevents⟩ :=
    fremsoftPDUStartComPrimitive_spec env st q.args
  have hreply : events = responseEvents q.args (st.gNextHCop + 1) env.nowUs 0
      (recordedExchange (request, reply)).responses := by
    rw [hevents halloc, startEvents, if_pos q.isRequest, replyEvents,
      q.args_bytes, hrecording, hlookup]
  refine ⟨events, ?_, ?_⟩
  · rw [hstate]
    simp [FremSoftState.extend, hscheduler]
  · rw [hreply]
    exact responseEvents_replay q.args _ hlog hordered hgap
      (List.mem_of_find?_eq_some hfirst)
      (recordingLoad_sized htoks.fits hload) (lookupScan_mem hlookup).1 hfits

/-- A request, its response, and the same request again a second later. -/
def sampleLog : List ActivityLine :=
  [{ ms := 100, tid := 1, tag := reqPduTag
     bytes := [0x00, 0x00, 0x07, 0xE0, 0x3E] },
    { ms := 130, tid := 1, tag := rspUdsTag
      bytes := [0x00, 0x00, 0x05, 0xE8, 0x7E] },
    { ms := 1130, tid := 1, tag := reqPduTag
      bytes := [0x00, 0x00, 0x07, 0xE0, 0x3E] }]

def sampleHeader : DocHeader :=
  { recordingId := [], capturedAt := [], vehicleProfile := [], sourceLog := [] }

theorem sampleLog_isZeroChannelLog : IsZeroChannelLog sampleLog := by
  refine ⟨fun line hline => ?_, by decide⟩
  simp only [sampleLog, List.mem_cons, List.not_mem_nil, or_false] at hline
  rcases hline with rfl | rfl | rfl
  · exact ⟨.inl rfl, by decide⟩
  · exact ⟨.inr rfl, by decide⟩
  · exact ⟨.inl rfl, by decide⟩

theorem replay_of_log_sample :
    ∃ json toks r, recordingLoad json toks = .ok (some r) ∧
      ∀ (st : FremSoftState) (s : Scheduler (List UInt8)),
        st.gRecording = some r → st.gScheduler = some s →
        ∃ e : SchedEvent (List UInt8),
          (fremsoftPDUStartComPrimitive (callAt 7) st
            (shortRequest 0x3E)).1.gScheduler = some (s.append [e]) ∧
          e.dataBytes = [0x00, 0x00, 0x05, 0xE8, 0x7E] ∧
          e.dueUs.toNat = 7000 + 1000 * 30 := by
  obtain ⟨toks, htoks⟩ := exists_tokenises
    (buildRecording sampleHeader 3000 (shimLogText sampleLog))
    (by decide +kernel)
  obtain ⟨r, request, reply, hload, hfirst, hreplay⟩ := replay_of_log
    (q := ⟨1, 2, 0, true, [0x00, 0x00, 0x07, 0xE0, 0x3E], by decide, by decide⟩)
    sampleLog_isZeroChannelLog (by decide) (by decide) htoks
    List.mem_cons_self rfl rfl
  have hsample : loggedReply 3000 [0x00, 0x00, 0x07, 0xE0, 0x3E] sampleLog =
      some (sampleLog[0], [sampleLog[1]]) := by decide +kernel
  obtain ⟨rfl, rfl⟩ := Prod.mk.inj (Option.some.inj (hfirst.symm.trans hsample))
  refine ⟨_, toks, r, hload, fun st s hrecording hscheduler => ?_⟩
  obtain ⟨events, hqueue, hreplays⟩ := hreplay (callAt 7) st s
    ⟨fun _ => rfl, fun _ => rfl, rfl⟩ hrecording hscheduler (by decide)
  obtain ⟨e, rest, he, hrest, rfl⟩ := List.forall₂_cons_right_iff.1 hreplays
  rw [List.forall₂_nil_right_iff] at hrest
  rw [hrest] at hqueue
  exact ⟨e, hqueue, he.dataBytes, he.dueUs⟩

end FremSoft
