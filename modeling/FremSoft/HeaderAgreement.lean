/-
Recorder and player read the four-byte header of a frame differently: the one
takes the CAN-ID from the last two bytes, the other from all four.  They agree
on a log exactly when no recorded frame of it uses the first two.
-/
import FremSoft.LogReplay

namespace FremSoft

/-- The pair of a frame after `index_by_request` has written it and
`recording_load` has read it. -/
def Frame.readBack (f : Frame) : UInt32 × List UInt8 :=
  (parseCanIdStr (canIdText f.canId), parseHexBytes (hexbytes f.uds))

/-- The payload the player composes for a recorded response. -/
def RecordedResponse.payload (x : RecordedResponse) : List UInt8 :=
  canIdBytes x.canId ++ x.udsBytes

/-- The recording made of a log answers the frames of the log: every request
has the key the player looks up and is found, every recorded response is
replayed as it was logged, and no two requests share a key. -/
structure FramesAgree (maxGapMs : Int) (lines : List ActivityLine)
    (r : Recording) : Prop where
  keys : ∀ line ∈ lines, line.tag = reqPduTag →
    line.frame.readBack = decodeRequest line.bytes
  found : ∀ line ∈ lines, line.tag = reqPduTag →
    (recordingLookup (some r) (decodeRequest line.bytes).1
      (decodeRequest line.bytes).2).isSome
  payloads : List.Forall₂
    (fun x e => List.Forall₂ (fun line y => y.payload = line.bytes) x.2
      e.responses) (keptExchanges maxGapMs lines) r.exchanges
  distinct : ∀ line ∈ lines, line.tag = reqPduTag → ∀ line' ∈ lines,
    line'.tag = reqPduTag → line.frame.readBack = line'.frame.readBack →
      line.bytes = line'.bytes

/-- A line of the log that ends up in the recording: a request, or a response
behind the first request of a key. -/
def IsRecorded (maxGapMs : Int) (lines : List ActivityLine)
    (line : ActivityLine) : Prop :=
  line ∈ lines ∧ (line.tag = reqPduTag ∨
    ∃ x ∈ keptExchanges maxGapMs lines, line ∈ x.2)

theorem ActivityLine.frame_readBack (line : ActivityLine) :
    line.frame.readBack =
      (UInt32.ofNat (headerCanId line.bytes), line.bytes.drop 4) := by
  rw [Frame.readBack, ActivityLine.frame, parseCanIdStr_headerCanId,
    parseHexBytes_hexbytes]

/-- The player looks a frame up under the key it was recorded with exactly when
its first two bytes are zero. -/
theorem readBack_eq_decodeRequest_iff {line : ActivityLine}
    (h : 4 ≤ line.bytes.length) :
    line.frame.readBack = decodeRequest line.bytes ↔
      HasZeroChannel line.bytes := by
  rw [ActivityLine.frame_readBack, eq_comm]
  exact decodeRequest_eq_iff h

theorem recordedResponses_payload_iff {reply : List ActivityLine}
    (h : ∀ line ∈ reply, 4 ≤ line.bytes.length) (lastMs : Int) :
    List.Forall₂ (fun line y => y.payload = line.bytes) reply
        (recordedResponses lastMs reply) ↔
      ∀ line ∈ reply, HasZeroChannel line.bytes := by
  induction reply generalizing lastMs with
  | nil => simp [recordedResponses]
  | cons line rest ih =>
      rw [recordedResponses, List.forall₂_cons, List.forall_mem_cons,
        ih (fun l hl => h l (List.mem_cons_of_mem line hl))]
      exact and_congr_left fun _ =>
        canIdBytes_append_eq_iff (h line List.mem_cons_self)

theorem IsFrameLog.four_le {lines : List ActivityLine} (hlog : IsFrameLog lines)
    {line : ActivityLine} (hline : line ∈ lines) : 4 ≤ line.bytes.length := by
  have h := (hlog line hline).2
  omega

theorem keptExchanges_subset {maxGapMs : Int} {lines : List ActivityLine}
    {x : ActivityLine × List ActivityLine}
    (hx : x ∈ keptExchanges maxGapMs lines) : x.2 ⊆ lines :=
  (loggedExchanges_mem (mem_of_mem_keepFirst hx)).2.2

/-- The payloads agree exactly when every kept response has a zero channel. -/
theorem payloads_iff {maxGapMs : Int} {lines : List ActivityLine}
    (hlog : IsFrameLog lines) :
    List.Forall₂
        (fun x e => List.Forall₂ (fun line y => y.payload = line.bytes) x.2
          e.responses) (keptExchanges maxGapMs lines)
        ((keptExchanges maxGapMs lines).map recordedExchange) ↔
      ∀ x ∈ keptExchanges maxGapMs lines,
        ∀ line ∈ x.2, HasZeroChannel line.bytes := by
  rw [List.forall₂_map_right_iff, List.forall₂_same]
  refine forall₂_congr fun x hx => recordedResponses_payload_iff ?_ _
  exact fun line hline => hlog.four_le (keptExchanges_subset hx hline)

/-- A request with a zero channel is found when its bytes are sent again. -/
theorem recordingLookup_isSome_of_zeroChannel {r : Recording} {maxGapMs : Int}
    {lines : List ActivityLine} {line : ActivityLine}
    (hlog : IsFrameLog lines)
    (hexchanges : r.exchanges =
      (keptExchanges maxGapMs lines).map recordedExchange)
    (hline : line ∈ lines) (htag : line.tag = reqPduTag)
    (hzero : HasZeroChannel line.bytes) :
    (recordingLookup (some r) (decodeRequest line.bytes).1
      (decodeRequest line.bytes).2).isSome := by
  obtain ⟨reply, hreply⟩ := exists_loggedExchange maxGapMs hline htag
  have hcanId := ofNat_headerCanId_eq_iff.1
    (rfl : UInt32.ofNat (headerCanId line.bytes) = _)
  rw [recordingLookup_log hexchanges,
    (decodeRequest_eq_iff (hlog.four_le hline)).2 hzero, Option.isSome_map,
    List.find?_isSome]
  refine ⟨_, hreply, ?_⟩
  rw [decide_eq_true_eq, ← hcanId]
  rfl

/-- Recorder and player agree on a log exactly when every recorded frame of it
starts with `00 00`. -/
theorem framesAgree_iff {lines : List ActivityLine} {header : DocHeader}
    {maxGapMs : Int} {json : List Char} {toks : List JsmnTok}
    (hlog : IsFrameLog lines)
    (htoks : Tokenises json
      (buildRecording header maxGapMs (shimLogText lines)) toks) :
    ∃ r, recordingLoad json toks = .ok (some r) ∧
      (FramesAgree maxGapMs lines r ↔
        ∀ line, IsRecorded maxGapMs lines line → HasZeroChannel line.bytes) := by
  obtain ⟨r, hload, hexchanges⟩ := recordingLoad_log hlog htoks
  refine ⟨r, hload, ?_, ?_⟩
  · rintro hagree line ⟨hline, htag | ⟨x, hx, hmem⟩⟩
    · exact (readBack_eq_decodeRequest_iff (hlog.four_le hline)).1
        (hagree.keys line hline htag)
    · have hpayloads := hagree.payloads
      rw [hexchanges, payloads_iff hlog] at hpayloads
      exact hpayloads x hx line hmem
  · intro hzero
    have hrequest : ∀ line ∈ lines, line.tag = reqPduTag →
        HasZeroChannel line.bytes := fun line hline htag =>
      hzero line ⟨hline, .inl htag⟩
    refine { keys := ?_, found := ?_, payloads := ?_, distinct := ?_ }
    · intro line hline htag
      exact (readBack_eq_decodeRequest_iff (hlog.four_le hline)).2
        (hrequest line hline htag)
    · intro line hline htag
      exact recordingLookup_isSome_of_zeroChannel hlog hexchanges hline htag
        (hrequest line hline htag)
    · rw [hexchanges, payloads_iff hlog]
      exact fun x hx line hmem =>
        hzero line ⟨keptExchanges_subset hx hmem, .inr ⟨x, hx, hmem⟩⟩
    · intro line hline htag line' hline' htag' hkey
      rw [ActivityLine.frame_readBack, ActivityLine.frame_readBack,
        Prod.mk.injEq] at hkey
      have hframe := (canIdBytes_append_eq_iff (hlog.four_le hline)).2
        (hrequest line hline htag)
      have hframe' := (canIdBytes_append_eq_iff (hlog.four_le hline')).2
        (hrequest line' hline' htag')
      rw [← hframe, ← hframe', hkey.1, hkey.2]

theorem framesAgree_iff_sample :
    ∃ json toks r, recordingLoad json toks = .ok (some r) ∧
      FramesAgree 3000 sampleLog r := by
  obtain ⟨toks, htoks⟩ := exists_tokenises
    (buildRecording sampleHeader 3000 (shimLogText sampleLog))
    (by decide +kernel)
  obtain ⟨r, hload, hiff⟩ :=
    framesAgree_iff sampleLog_isZeroChannelLog.1 htoks
  exact ⟨_, toks, r, hload, hiff.2 fun line hline =>
    sampleLog_isZeroChannelLog.2 line hline.1⟩

/-- A `TesterPresent` to the 29-bit CAN-ID `0x18DA10F1`, and one to the 11-bit
CAN-ID that the recorder takes it for. -/
def extendedIdLog : List ActivityLine :=
  [{ ms := 100, tid := 1, tag := reqPduTag
     bytes := [0x18, 0xDA, 0x10, 0xF1, 0x3E] },
    { ms := 130, tid := 1, tag := rspUdsTag
      bytes := [0x18, 0xDA, 0xF1, 0x10, 0x7E] },
    { ms := 200, tid := 1, tag := reqPduTag
      bytes := [0x00, 0x00, 0x10, 0xF1, 0x3E] }]

/-- Its request is not found, its response would be replayed from `0xF110`, and
the two requests share one exchange. -/
theorem extended_id_disagrees :
    ∃ json toks r, Tokenises json
        (buildRecording sampleHeader 3000 (shimLogText extendedIdLog)) toks ∧
      recordingLoad json toks = .ok (some r) ∧
      r.exchanges = [{ canId := 0x10F1, udsBytes := [0x3E], responses :=
        [{ canId := 0xF110, udsBytes := [0x7E], delayMs := 30 }] }] ∧
      recordingLookup (some r) (decodeRequest [0x18, 0xDA, 0x10, 0xF1, 0x3E]).1
        (decodeRequest [0x18, 0xDA, 0x10, 0xF1, 0x3E]).2 = none ∧
      ¬ FramesAgree 3000 extendedIdLog r := by
  have hlog : IsFrameLog extendedIdLog := by
    intro line hline
    simp only [extendedIdLog, List.mem_cons, List.not_mem_nil, or_false]
      at hline
    rcases hline with rfl | rfl | rfl
    · exact ⟨.inl rfl, by decide⟩
    · exact ⟨.inr rfl, by decide⟩
    · exact ⟨.inl rfl, by decide⟩
  obtain ⟨toks, htoks⟩ := exists_tokenises
    (buildRecording sampleHeader 3000 (shimLogText extendedIdLog))
    (by decide +kernel)
  obtain ⟨r, hload, hexchanges⟩ := recordingLoad_log hlog htoks
  have hvalue : (keptExchanges 3000 extendedIdLog).map recordedExchange =
      [{ canId := 0x10F1, udsBytes := [0x3E], responses :=
        [{ canId := 0xF110, udsBytes := [0x7E], delayMs := 30 }] }] := by
    decide +kernel
  rw [hvalue] at hexchanges
  have hlookup : recordingLookup (some r)
      (decodeRequest [0x18, 0xDA, 0x10, 0xF1, 0x3E]).1
      (decodeRequest [0x18, 0xDA, 0x10, 0xF1, 0x3E]).2 = none := by
    rw [recordingLookup, hexchanges]
    decide +kernel
  refine ⟨_, toks, r, htoks, hload, hexchanges, hlookup, fun hagree => ?_⟩
  have hfound := hagree.found extendedIdLog[0] List.mem_cons_self rfl
  have hnot : (recordingLookup (some r)
      (decodeRequest extendedIdLog[0].bytes).1
      (decodeRequest extendedIdLog[0].bytes).2).isSome = false :=
    congrArg Option.isSome hlookup
  rw [hnot] at hfound
  cases hfound

end FremSoft
