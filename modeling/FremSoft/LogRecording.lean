/-
The recording that comes back from a log: its exchanges in terms of the lines
of the log, what the lookup finds in it, and what the two decoders of the
four-byte header have in common.
-/
import FremSoft.LogFrames
import FremSoft.Reply
import Mathlib.Data.List.Find

namespace FremSoft

/-! ### Exchanges -/

/-- The key the recorder files a request under. -/
def requestKey (line : ActivityLine) : Nat × List UInt8 :=
  (headerCanId line.bytes, line.bytes.drop 4)

/-- The requests of a log with their responses, the first of each key. -/
def keptExchanges (maxGapMs : Int) (lines : List ActivityLine) :
    List (ActivityLine × List ActivityLine) :=
  keepFirst (fun x => requestKey x.1) [] (loggedExchanges maxGapMs lines)

/-- A logged response that comes `delayMs` after the line before it, written by
the recorder and read by the loader. -/
def recordedResponse (line : ActivityLine) (delayMs : Int) : RecordedResponse :=
  { canId := UInt32.ofNat (headerCanId line.bytes)
    udsBytes := line.bytes.drop 4, delayMs := delayOf (delayText delayMs) }

/-- The responses behind a line of time `lastMs`. -/
def recordedResponses (lastMs : Int) :
    List ActivityLine → List RecordedResponse
  | [] => []
  | line :: rest =>
      recordedResponse line (line.ms.toNat - lastMs) ::
        recordedResponses line.ms.toNat rest

/-- A request with its responses, written and read. -/
def recordedExchange (x : ActivityLine × List ActivityLine) :
    RecordedExchange :=
  { canId := UInt32.ofNat (headerCanId x.1.bytes)
    udsBytes := x.1.bytes.drop 4
    responses := recordedResponses x.1.ms.toNat x.2 }

theorem parseCanIdStr_headerCanId (raw : List UInt8) :
    parseCanIdStr (canIdText (headerCanId raw)) =
      UInt32.ofNat (headerCanId raw) := by
  have hlt := headerCanId_lt raw
  exact parseCanIdStr_canIdText_of_lt (by omega)

theorem PairedRx.entry_response (line : ActivityLine) (delayMs : Int) :
    RxEntry.response (PairedRx.entry
        { canId := line.frame.canId, uds := line.frame.uds, delayMs }) =
      recordedResponse line delayMs := by
  simp [PairedRx.entry, RxEntry.response, recordedResponse, ActivityLine.frame,
    parseCanIdStr_headerCanId, parseHexBytes_hexbytes]

/-- Adding response lines: the request stays, the responses are appended. -/
theorem foldl_add_frame (reply : List ActivityLine) (ex : PairedExchange) :
    (reply.foldl (fun ex line => ex.add line.frame) ex).entry.exchange =
      { ex.entry.exchange with
        responses := ex.entry.exchange.responses ++
          recordedResponses ex.lastSeenMs reply } := by
  induction reply generalizing ex with
  | nil => simp [recordedResponses]
  | cons line rest ih =>
      have hresponse := PairedRx.entry_response line
        (line.frame.ms - ex.lastSeenMs)
      rw [List.foldl_cons, ih, recordedResponses]
      simp only [PairedExchange.add, PairedExchange.entry,
        ExchangeEntry.exchange, List.map_append, List.map_cons, List.map_nil,
        List.append_assoc, List.cons_append, List.nil_append, hresponse]
      rfl

theorem pairedExchange_entry_exchange
    (x : ActivityLine × List ActivityLine) :
    (pairedExchange x).entry.exchange = recordedExchange x := by
  have hcanId := parseCanIdStr_headerCanId x.1.bytes
  rw [pairedExchange, foldl_add_frame]
  simp [Frame.exchange, PairedExchange.entry, ExchangeEntry.exchange,
    recordedExchange, ActivityLine.frame, hcanId, parseHexBytes_hexbytes]

theorem pairedExchange_key (x : ActivityLine × List ActivityLine) :
    (pairedExchange x).key = requestKey x.1 := by
  have hfold : ∀ (reply : List ActivityLine) (ex : PairedExchange),
      (reply.foldl (fun ex line => ex.add line.frame) ex).key = ex.key := by
    intro reply
    induction reply with
    | nil => exact fun _ => rfl
    | cons line rest ih => exact fun ex => ih (ex.add line.frame)
  exact hfold x.2 x.1.frame.exchange

/-- The recording made of a log holds the first exchange of each key. -/
theorem recordingLoad_log {lines : List ActivityLine} {header : DocHeader}
    {maxGapMs : Int} {json : List Char} {toks : List JsmnTok}
    (hlog : IsFrameLog lines)
    (htoks : Tokenises json
      (buildRecording header maxGapMs (shimLogText lines)) toks) :
    ∃ r, recordingLoad json toks = .ok (some r) ∧
      r.exchanges = (keptExchanges maxGapMs lines).map recordedExchange := by
  obtain ⟨r, hload, hexchanges⟩ := recordingLoad_buildRecording htoks
  refine ⟨r, hload, ?_⟩
  rw [hexchanges, parseLog_shimLogText hlog, exchangesOf_map_frame,
    keepFirst_map, List.map_map]
  simp only [pairedExchange_key]
  exact List.map_congr_left fun x _ => pairedExchange_entry_exchange x

theorem ofNat_headerCanId_eq_iff {raw : List UInt8} {canId : UInt32} :
    UInt32.ofNat (headerCanId raw) = canId ↔
      headerCanId raw = canId.toNat := by
  have hlt := headerCanId_lt raw
  rw [← UInt32.toNat_inj,
    UInt32.toNat_ofNat_of_lt' (by rw [UInt32.size]; omega)]

theorem recordedExchange_key_iff {x : ActivityLine × List ActivityLine}
    {canId : UInt32} {uds : List UInt8} :
    (recordedExchange x).key = (canId, uds) ↔
      requestKey x.1 = (canId.toNat, uds) := by
  rw [RecordedExchange.key, recordedExchange, requestKey, Prod.mk.injEq,
    Prod.mk.injEq, ofNat_headerCanId_eq_iff]

/-- The lookup finds the first request of the log with the key. -/
theorem recordingLookup_log {r : Recording} {maxGapMs : Int}
    {lines : List ActivityLine}
    (hexchanges : r.exchanges =
      (keptExchanges maxGapMs lines).map recordedExchange)
    (canId : UInt32) (uds : List UInt8) :
    recordingLookup (some r) canId uds =
      ((loggedExchanges maxGapMs lines).find? fun x =>
        decide (requestKey x.1 = (canId.toNat, uds))).map recordedExchange := by
  have hkey : (fun e => decide (e.key = (canId, uds))) ∘ recordedExchange =
      fun x => decide (requestKey x.1 = (canId.toNat, uds)) :=
    funext fun x => decide_eq_decide.2 recordedExchange_key_iff
  rw [recordingLookup, hexchanges, lookupScan_eq_find?, List.find?_map, hkey,
    keptExchanges, find?_keepFirst _ _ List.not_mem_nil]

theorem cutAtGap_subset {maxGapMs lastMs : Int} {lines : List ActivityLine} :
    cutAtGap maxGapMs lastMs lines ⊆ lines := by
  induction lines generalizing lastMs with
  | nil => exact List.Subset.refl _
  | cons line rest ih =>
      rw [cutAtGap]
      split
      · exact List.cons_subset_cons line ih
      · exact List.nil_subset _

/-- A logged exchange is a request of the log with lines of the log. -/
theorem loggedExchanges_mem {maxGapMs : Int} {lines : List ActivityLine}
    {x : ActivityLine × List ActivityLine}
    (hx : x ∈ loggedExchanges maxGapMs lines) :
    x.1 ∈ lines ∧ x.1.tag = reqPduTag ∧ x.2 ⊆ lines := by
  induction lines with
  | nil => simp [loggedExchanges] at hx
  | cons line rest ih =>
      have hlater : x ∈ loggedExchanges maxGapMs rest →
          x.1 ∈ line :: rest ∧ x.1.tag = reqPduTag ∧ x.2 ⊆ line :: rest :=
        fun h => ⟨List.mem_cons_of_mem line (ih h).1, (ih h).2.1,
          List.subset_cons_of_subset line (ih h).2.2⟩
      rw [loggedExchanges] at hx
      split at hx
      · next htag =>
        rcases List.mem_cons.1 hx with rfl | hx
        · refine ⟨List.mem_cons_self, htag, ?_⟩
          exact List.subset_cons_of_subset line
            (List.Subset.trans cutAtGap_subset (List.takeWhile_subset _))
        · exact hlater hx
      · exact hlater hx

/-- Every request of the log is a logged exchange. -/
theorem exists_loggedExchange (maxGapMs : Int) {lines : List ActivityLine}
    {line : ActivityLine} (hline : line ∈ lines)
    (htag : line.tag = reqPduTag) :
    ∃ reply, (line, reply) ∈ loggedExchanges maxGapMs lines := by
  induction lines with
  | nil => simp at hline
  | cons head rest ih =>
      rw [loggedExchanges]
      rcases List.mem_cons.1 hline with rfl | hline
      · rw [if_pos htag]
        exact ⟨_, List.mem_cons_self⟩
      · obtain ⟨reply, hreply⟩ := ih hline
        split
        · exact ⟨reply, List.mem_cons_of_mem _ hreply⟩
        · exact ⟨reply, hreply⟩

/-! ### The two decoders of a header -/

/-- The frame's first two bytes are zero. -/
def HasZeroChannel (raw : List UInt8) : Prop := raw.take 2 = [0, 0]

instance : DecidablePred HasZeroChannel := fun _ =>
  inferInstanceAs (Decidable (_ = _))

theorem exists_four_cons {raw : List UInt8} (h : 4 ≤ raw.length) :
    ∃ b0 b1 b2 b3 rest, raw = b0 :: b1 :: b2 :: b3 :: rest := by
  match raw, h with
  | b0 :: b1 :: b2 :: b3 :: rest, _ => exact ⟨b0, b1, b2, b3, rest, rfl⟩

/-- The recorder reads a header as if its first two bytes were zero. -/
theorem ofNat_headerCanId (b0 b1 b2 b3 : UInt8) (rest : List UInt8) :
    UInt32.ofNat (headerCanId (b0 :: b1 :: b2 :: b3 :: rest)) =
      readCanId 0 0 b2 b3 := by
  rw [ofNat_headerCanId_eq_iff, readCanId_toNat, headerCanId_eq]
  simp

theorem readCanId_inj {b0 b1 b2 b3 c0 c1 c2 c3 : UInt8}
    (h : readCanId b0 b1 b2 b3 = readCanId c0 c1 c2 c3) :
    b0 = c0 ∧ b1 = c1 ∧ b2 = c2 ∧ b3 = c3 := by
  have hbytes := congrArg canIdBytes h
  rw [canIdBytes_readCanId, canIdBytes_readCanId] at hbytes
  simpa using hbytes

/-- Recorder and player read the same key from a frame exactly when its first
two bytes are zero. -/
theorem decodeRequest_eq_iff {raw : List UInt8} (h : 4 ≤ raw.length) :
    decodeRequest raw =
        (UInt32.ofNat (headerCanId raw), raw.drop 4) ↔
      HasZeroChannel raw := by
  obtain ⟨b0, b1, b2, b3, rest, rfl⟩ := exists_four_cons h
  rw [ofNat_headerCanId]
  constructor
  · intro heq
    obtain ⟨rfl, rfl, _, _⟩ := readCanId_inj (congrArg Prod.fst heq)
    rfl
  · intro hzero
    simp only [HasZeroChannel, List.take_succ_cons, List.take_zero,
      List.cons.injEq, and_true] at hzero
    rw [hzero.1, hzero.2]
    rfl

/-- What the player composes for a recorded response is the logged frame
exactly when the frame's first two bytes are zero. -/
theorem canIdBytes_append_eq_iff {raw : List UInt8} (h : 4 ≤ raw.length) :
    canIdBytes (UInt32.ofNat (headerCanId raw)) ++ raw.drop 4 = raw ↔
      HasZeroChannel raw := by
  obtain ⟨b0, b1, b2, b3, rest, rfl⟩ := exists_four_cons h
  rw [ofNat_headerCanId, canIdBytes_readCanId]
  simp [HasZeroChannel, eq_comm]

end FremSoft
