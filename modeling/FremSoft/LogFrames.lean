/-
The recording tool reads back what the shim wrote: from the text of a log of
hex lines `parse_log` yields the frames, and from these comes the recording
that `recording_load` returns.
-/
import FremSoft.BuildRecording

namespace FremSoft

/-! ### Lines -/

/-- `REQ-PDU` lines are sent, `RSP-UDS` lines received. -/
def ActivityLine.direction (line : ActivityLine) : Direction :=
  if line.tag = reqPduTag then .tx else .rx

/-- The key part of a frame's header, `(raw[2] << 8) | raw[3]`. -/
def headerCanId (raw : List UInt8) : Nat :=
  ((raw.getD 2 0).toNat <<< 8) ||| (raw.getD 3 0).toNat

/-- The frame that a line of at least five bytes holds. -/
def ActivityLine.frame (line : ActivityLine) : Frame :=
  { ms := line.ms.toNat, direction := line.direction
    canId := headerCanId line.bytes, uds := line.bytes.drop 4 }

theorem headerCanId_eq (raw : List UInt8) :
    headerCanId raw = (raw.getD 2 0).toNat * 256 + (raw.getD 3 0).toNat := by
  have h := (raw.getD 3 0).toNat_lt
  rw [headerCanId, ← Nat.shiftLeft_add_eq_or_of_lt (by omega),
    Nat.shiftLeft_eq]

theorem headerCanId_lt (raw : List UInt8) : headerCanId raw < 2 ^ 16 := by
  have h2 := (raw.getD 2 0).toNat_lt
  have h3 := (raw.getD 3 0).toNat_lt
  rw [headerCanId_eq]
  omega

theorem spacedHex_ne_nil {digit : Nat → Char} {bytes : List UInt8}
    (h : bytes ≠ []) : spacedHex digit bytes ≠ [] := by
  obtain ⟨b, rest, rfl⟩ := List.exists_cons_of_ne_nil h
  cases rest <;> simp [spacedHex, hexByte]

theorem matchText_reqPduTag_rsp (rest : List Char) :
    matchText reqPduTag (rspUdsTag ++ rest) = none := by
  have hprefix : reqPduTag.isPrefixOf (rspUdsTag ++ rest) = false := rfl
  simp only [matchText, hprefix, Bool.false_eq_true, if_false]

theorem rspUdsTag_ne : rspUdsTag ≠ reqPduTag := by decide

theorem matchKind_tag {line : ActivityLine} (h : line.IsFrame)
    (rest : List Char) :
    matchKind (line.tag ++ rest) = some (line.direction, rest) := by
  rw [ActivityLine.direction]
  rcases h with htag | htag
  · rw [htag, if_pos rfl, matchKind, matchText_append]
  · rw [htag, if_neg rspUdsTag_ne, matchKind, matchText_reqPduTag_rsp,
      matchText_append]
    rfl

def ActivityLine.fields (line : ActivityLine) : List (List Char) :=
  [writeDigits lowerDigit 10 line.ms.toNat,
    writeDigits lowerDigit 10 line.tid.toNat, "HEX  ".toList, line.tag,
    "len=".toList ++ writeDigits lowerDigit 10 line.bytes.length]

theorem shimLogHexText_eq (line : ActivityLine) :
    shimLogHexText line =
      fielded '|' line.fields (spacedHex upperDigit line.bytes) := by
  simp [shimLogHexText, ActivityLine.fields, fielded, hexMark, lenMark]

/-- `LINE_RE` matches the line of a frame, whatever follows its fields. -/
theorem matchLine_fields {line : ActivityLine} (h : line.IsFrame)
    {hex : List Char} (hhex : hex ≠ []) :
    matchLine (fielded '|' line.fields hex) =
      some (line.ms.toNat, line.direction, hex) := by
  have hbar : isDigitOf 10 '|' = false := by decide
  have hblanks : ∀ rest, (' ' :: ' ' :: '|' :: rest).dropWhile isRegexSpace =
      '|' :: rest := by
    have hspace : isRegexSpace ' ' = true := by decide
    have hnot : isRegexSpace '|' = false := by decide
    intro rest
    simp [List.dropWhile, hspace, hnot]
  have hbarText : ∀ rest, matchText ['|'] ('|' :: rest) = some rest :=
    fun rest => matchText_append ['|'] rest
  have hhexMark : ∀ n rest, matchNumber (writeDigits lowerDigit 10 n ++
      (hexMark ++ rest)) = some (n, hexMark ++ rest) :=
    fun n rest => matchNumber_writeDigits n hbar _
  have hshape : fielded '|' line.fields hex =
      writeDigits lowerDigit 10 line.ms.toNat ++ '|' ::
        (writeDigits lowerDigit 10 line.tid.toNat ++ (hexMark ++
          (' ' :: ' ' :: '|' :: (line.tag ++ (lenMark ++
            (writeDigits lowerDigit 10 line.bytes.length ++ '|' ::
              hex)))))) := by
    simp [ActivityLine.fields, fielded, hexMark, lenMark]
  simp only [hshape, matchLine, matchNumber_writeDigits _ hbar,
    hhexMark, hbarText, hblanks, matchText_append, matchKind_tag h,
    Option.bind_eq_bind, Option.bind_some, hhex, if_false]

/-- `LINE_RE` matches the hex lines of frames. -/
theorem matchLine_shimLogHexText {line : ActivityLine} (h : line.IsFrame)
    (hbytes : line.bytes ≠ []) :
    matchLine (shimLogHexText line) = some (line.ms.toNat, line.direction,
      spacedHex upperDigit line.bytes) := by
  rw [shimLogHexText_eq]
  exact matchLine_fields h (spacedHex_ne_nil hbytes)

/-- `parse_log` reads the bytes of a line back. -/
theorem parseLine_shimLogHexText {line : ActivityLine} (h : line.IsFrame)
    (hbytes : line.bytes ≠ []) :
    parseLine (shimLogHexText line) =
      frameOfBytes line.ms.toNat line.direction line.bytes := by
  simp only [parseLine, matchLine_shimLogHexText h hbytes, fromHex_spacedHex,
    Option.bind_eq_bind, Option.bind_some]

theorem frameOfBytes_eq {line : ActivityLine} (h : 5 ≤ line.bytes.length) :
    frameOfBytes line.ms.toNat line.direction line.bytes = some line.frame := by
  rw [frameOfBytes, if_neg (by omega)]
  rfl

/-- A log whose lines are requests and responses that a frame fits in. -/
def IsFrameLog (lines : List ActivityLine) : Prop :=
  ∀ line ∈ lines, line.IsFrame ∧ 5 ≤ line.bytes.length

/-- `parse_log` yields the frame of every line, in order. -/
theorem parseLog_shimLogText {lines : List ActivityLine}
    (h : IsFrameLog lines) :
    parseLog (shimLogText lines) = lines.map ActivityLine.frame := by
  have hsplit : splitlines (shimLogText lines) = lines.map shimLogHexText :=
    splitlines_flatMap fun line hline =>
      shimLogHexText_line (h line hline).1.line
  rw [parseLog, hsplit, List.filterMap_map]
  refine List.filterMap_eq_map_iff_forall_eq_some.2 fun line hline => ?_
  obtain ⟨hframe, hlength⟩ := h line hline
  have hbytes : line.bytes ≠ [] := List.ne_nil_of_length_pos (by omega)
  exact (parseLine_shimLogHexText hframe hbytes).trans (frameOfBytes_eq hlength)

/-! ### Requests and their replies -/

/-- The lines in front of the first that comes more than `maxGapMs` after the
one before. -/
def cutAtGap (maxGapMs lastMs : Int) : List ActivityLine → List ActivityLine
  | [] => []
  | line :: rest =>
      if line.ms.toNat - lastMs ≤ maxGapMs then
        line :: cutAtGap maxGapMs line.ms.toNat rest
      else []

/-- Each request of a log, with the responses up to the next request or the
first gap. -/
def loggedExchanges (maxGapMs : Int) :
    List ActivityLine → List (ActivityLine × List ActivityLine)
  | [] => []
  | line :: rest =>
      if line.tag = reqPduTag then
        (line, cutAtGap maxGapMs line.ms.toNat
          (rest.takeWhile fun l => decide (l.tag ≠ reqPduTag))) ::
          loggedExchanges maxGapMs rest
      else loggedExchanges maxGapMs rest

/-- A request and its responses behind a log that was written before it. -/
theorem loggedExchanges_append_request (maxGapMs : Int)
    (log rest : List ActivityLine) {line : ActivityLine}
    (htag : line.tag = reqPduTag) :
    loggedExchanges maxGapMs (log ++ line :: rest) =
      loggedExchanges maxGapMs log ++
        loggedExchanges maxGapMs (line :: rest) := by
  induction log with
  | nil => rfl
  | cons head log ih =>
      have hstops : (log ++ line :: rest).takeWhile
          (fun l => decide (l.tag ≠ reqPduTag)) =
            log.takeWhile fun l => decide (l.tag ≠ reqPduTag) := by
        rw [List.takeWhile_append]
        split
        · next hlength =>
          rw [List.takeWhile_cons_of_neg (by simp [htag]), List.append_nil]
          exact ((List.takeWhile_sublist _).eq_of_length hlength).symm
        · rfl
      rw [List.cons_append, loggedExchanges, loggedExchanges, ih, hstops]
      split <;> rfl

/-- The first occurrence of a request, with its responses. -/
def loggedReply (maxGapMs : Int) (raw : List UInt8)
    (lines : List ActivityLine) : Option (ActivityLine × List ActivityLine) :=
  (loggedExchanges maxGapMs lines).find? fun x => decide (x.1.bytes = raw)

/-- What `pair_exchanges` makes of a request and its responses. -/
def pairedExchange (x : ActivityLine × List ActivityLine) : PairedExchange :=
  x.2.foldl (fun ex line => ex.add line.frame) x.1.frame.exchange

theorem ActivityLine.direction_tx {line : ActivityLine} :
    line.frame.direction = .tx ↔ line.tag = reqPduTag := by
  rw [ActivityLine.frame, ActivityLine.direction]
  split <;> simp_all

theorem ActivityLine.direction_rx {line : ActivityLine}
    (h : line.tag ≠ reqPduTag) : line.frame.direction = .rx := by
  simp [ActivityLine.frame, ActivityLine.direction, h]

theorem extend_map_frame (maxGapMs : Int) (lines : List ActivityLine)
    (ex : PairedExchange) :
    ex.extend maxGapMs (lines.map ActivityLine.frame) =
      (cutAtGap maxGapMs ex.lastSeenMs
        (lines.takeWhile fun l => decide (l.tag ≠ reqPduTag))).foldl
        (fun ex line => ex.add line.frame) ex := by
  induction lines generalizing ex with
  | nil => rfl
  | cons line rest ih =>
      rw [List.map_cons, PairedExchange.extend]
      by_cases htag : line.tag = reqPduTag
      · rw [ActivityLine.direction_tx.2 htag, List.takeWhile_cons]
        simp [htag, cutAtGap]
      · rw [ActivityLine.direction_rx htag, List.takeWhile_cons_of_pos
          (by simpa using htag), cutAtGap]
        have hms : line.frame.ms = line.ms.toNat := rfl
        by_cases hgap : line.ms.toNat - ex.lastSeenMs ≤ maxGapMs
        · simp only [hms, if_pos hgap, List.foldl_cons]
          rw [if_neg (by omega), ih]
          rfl
        · simp only [hms, if_neg hgap, List.foldl_nil]
          rw [if_pos (by omega)]

/-- `pair_exchanges` finds the requests of the log with their responses. -/
theorem exchangesOf_map_frame (maxGapMs : Int) (lines : List ActivityLine) :
    exchangesOf maxGapMs (lines.map ActivityLine.frame) =
      (loggedExchanges maxGapMs lines).map pairedExchange := by
  induction lines with
  | nil => rfl
  | cons line rest ih =>
      rw [List.map_cons, exchangesOf, loggedExchanges, ih]
      by_cases htag : line.tag = reqPduTag
      · rw [ActivityLine.direction_tx.2 htag, if_pos htag, List.map_cons,
          extend_map_frame]
        rfl
      · rw [ActivityLine.direction_rx htag, if_neg htag]

end FremSoft
