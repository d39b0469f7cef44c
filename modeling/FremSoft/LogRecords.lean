/-
The log as its writers leave it: header lines, free text and hex dumps in any
order.  `parse_log` yields a frame for each request or response that is long
enough, and for no other line.
-/
import FremSoft.LogFrames

namespace FremSoft

/-! ### The writers -/

abbrev LineText := { text : List Char // ∀ c ∈ text, isLineBreak c = false }

/-- The loop over the bytes of a dump of `len`, from the `i`-th on: a blank
behind each byte but the last. -/
def hexLoop (len : Nat) : Nat → List UInt8 → List Char
  | _, [] => []
  | i, b :: rest =>
      hexByte upperDigit b ++ (if i + 1 < len then [' '] else []) ++
        hexLoop len (i + 1) rest

/-- The line that the format `%llu|%lu`, a literal and `%u|`, and then the
loop, print. -/
def fremsoftLogHexText (literal : List Char) (ms : UInt64) (tid : UInt32)
    (bytes : List UInt8) : List Char :=
  writeDigits lowerDigit 10 ms.toNat ++ '|' ::
    (writeDigits lowerDigit 10 tid.toNat ++ (literal ++
      (writeDigits lowerDigit 10 bytes.length ++ '|' ::
        hexLoop bytes.length 0 bytes)))

/-- The text of `fremsoft_log_req_pdu`, up to the end of its line. -/
def fremsoftLogReqPduText (ms : UInt64) (tid : UInt32) (bytes : List UInt8) :
    List Char :=
  fremsoftLogHexText "|HEX  |REQ-PDU|len=".toList ms tid bytes

/-- The text of `fremsoft_log_rsp_uds`, up to the end of its line. -/
def fremsoftLogRspUdsText (ms : UInt64) (tid : UInt32) (bytes : List UInt8) :
    List Char :=
  fremsoftLogHexText "|HEX  |RSP-UDS|len=".toList ms tid bytes

/-- The text of `shim_log` for a formatted `text`, up to the end of its line. -/
def shimLogLineText (ms : UInt64) (tid : UInt32) (text : List Char) :
    List Char :=
  writeDigits lowerDigit 10 ms.toNat ++ '|' ::
    (writeDigits lowerDigit 10 tid.toNat ++ '|' :: text)

/-- What the writers put into a log, a line each. -/
inductive LogRecord where
  | header (text : LineText)
  | plain (ms : UInt64) (tid : UInt32) (text : LineText)
      (hplain : ¬"HEX".toList <+: text.1)
  | hex (ms : UInt64) (tid : UInt32) (tag : LineText) (bytes : List UInt8)
      (htag : '|' ∉ tag.1)
  | reqPdu (ms : UInt64) (tid : UInt32) (bytes : List UInt8)
  | rspUds (ms : UInt64) (tid : UInt32) (bytes : List UInt8)

def LogRecord.text : LogRecord → List Char
  | header text => '#' :: text.1
  | plain ms tid text _ => shimLogLineText ms tid text.1
  | hex ms tid tag bytes _ => shimLogHexText { ms, tid, tag := tag.1, bytes }
  | reqPdu ms tid bytes => fremsoftLogReqPduText ms tid bytes
  | rspUds ms tid bytes => fremsoftLogRspUdsText ms tid bytes

def logText (records : List LogRecord) : List Char :=
  records.flatMap fun r => r.text ++ ['\n']

/-- What a hex dump shows. -/
def LogRecord.line? : LogRecord → Option ActivityLine
  | header _ => none
  | plain _ _ _ _ => none
  | hex ms tid tag bytes _ => some { ms, tid, tag := tag.1, bytes }
  | reqPdu ms tid bytes => some { ms, tid, tag := reqPduTag, bytes }
  | rspUds ms tid bytes => some { ms, tid, tag := rspUdsTag, bytes }

instance (line : ActivityLine) : Decidable line.IsFrame :=
  inferInstanceAs (Decidable (_ ∨ _))

/-- The frame of a request or a response of at least five bytes. -/
def ActivityLine.frame? (line : ActivityLine) : Option Frame :=
  if line.IsFrame ∧ 5 ≤ line.bytes.length then
    some
      { ms := line.ms.toNat
        direction := if line.tag = reqPduTag then .tx else .rx
        canId := (line.bytes.getD 2 0).toNat * 256 +
          (line.bytes.getD 3 0).toNat
        uds := line.bytes.drop 4 }
  else none

def LogRecord.frame? (r : LogRecord) : Option Frame :=
  r.line?.bind ActivityLine.frame?

theorem hexLoop_eq (before : Nat) (bytes : List UInt8) :
    hexLoop (before + bytes.length) before bytes =
      spacedHex upperDigit bytes := by
  induction bytes generalizing before with
  | nil => rfl
  | cons b rest ih =>
      have hnext := ih (before + 1)
      rw [Nat.add_assoc, Nat.add_comm 1] at hnext
      rw [hexLoop, List.length_cons, hnext]
      cases rest with
      | nil => simp [spacedHex]
      | cons c rest => simp [spacedHex]

/-- The three writers of hex dumps agree. -/
theorem fremsoftLogHexText_eq (ms : UInt64) (tid : UInt32)
    (tag : List Char) (bytes : List UInt8) :
    fremsoftLogHexText (hexMark ++ ' ' :: ' ' :: '|' :: (tag ++ lenMark)) ms tid
      bytes = shimLogHexText { ms, tid, tag, bytes } := by
  have hloop : hexLoop bytes.length 0 bytes = spacedHex upperDigit bytes := by
    simpa using hexLoop_eq 0 bytes
  simp [fremsoftLogHexText, shimLogHexText, hloop]

theorem fremsoftLogReqPduText_eq (ms : UInt64) (tid : UInt32)
    (bytes : List UInt8) :
    fremsoftLogReqPduText ms tid bytes =
      shimLogHexText { ms, tid, tag := reqPduTag, bytes } :=
  fremsoftLogHexText_eq ms tid reqPduTag bytes

theorem fremsoftLogRspUdsText_eq (ms : UInt64) (tid : UInt32)
    (bytes : List UInt8) :
    fremsoftLogRspUdsText ms tid bytes =
      shimLogHexText { ms, tid, tag := rspUdsTag, bytes } :=
  fremsoftLogHexText_eq ms tid rspUdsTag bytes

/-- Each call of a writer adds its line to the text of the activity log. -/
theorem FremSoftState.logLine_text (st : FremSoftState) (env : CallEnv)
    (k : Nat) (tag : List Char) (bytes : List UInt8) :
    (st.logLine env k tag bytes).gActivityLog.map shimLogText =
      st.gActivityLog.map fun lines => shimLogText lines ++
        (shimLogHexText { ms := env.lineMs k, tid := env.tid, tag, bytes } ++
          ['\n']) := by
  cases hlog : st.gActivityLog with
  | none => simp [logLine, hlog]
  | some lines => simp [logLine, hlog, shimLogText]

theorem fremsoftLogReqPdu_text (st : FremSoftState) (env : CallEnv) (k : Nat)
    (bytes : List UInt8) :
    (fremsoftLogReqPdu st env k bytes).gActivityLog.map shimLogText =
      st.gActivityLog.map fun lines => shimLogText lines ++
        (fremsoftLogReqPduText (env.lineMs k) env.tid bytes ++ ['\n']) := by
  rw [fremsoftLogReqPduText_eq]
  exact st.logLine_text env k reqPduTag bytes

theorem fremsoftLogRspUds_text (st : FremSoftState) (env : CallEnv) (k : Nat)
    (bytes : List UInt8) :
    (fremsoftLogRspUds st env k bytes).gActivityLog.map shimLogText =
      st.gActivityLog.map fun lines => shimLogText lines ++
        (fremsoftLogRspUdsText (env.lineMs k) env.tid bytes ++ ['\n']) := by
  rw [fremsoftLogRspUdsText_eq]
  exact st.logLine_text env k rspUdsTag bytes

theorem reqPduTag_noBar : '|' ∉ reqPduTag := by decide

theorem rspUdsTag_noBar : '|' ∉ rspUdsTag := by decide

/-- The record of a dump is its line, and its tag has no bar. -/
theorem LogRecord.text_of_line {r : LogRecord} {line : ActivityLine}
    (h : r.line? = some line) : r.text = shimLogHexText line ∧
      '|' ∉ line.tag ∧ ∀ c ∈ line.tag, isLineBreak c = false := by
  cases r with
  | header text => cases h
  | plain ms tid text hplain => cases h
  | hex ms tid tag bytes htag =>
      obtain rfl := Option.some.inj h
      exact ⟨rfl, htag, tag.2⟩
  | reqPdu ms tid bytes =>
      obtain rfl := Option.some.inj h
      exact ⟨fremsoftLogReqPduText_eq ms tid bytes, reqPduTag_noBar,
        ActivityLine.IsFrame.line (.inl rfl)⟩
  | rspUds ms tid bytes =>
      obtain rfl := Option.some.inj h
      exact ⟨fremsoftLogRspUdsText_eq ms tid bytes, rspUdsTag_noBar,
        ActivityLine.IsFrame.line (.inr rfl)⟩

/-- Every record is one line of the log. -/
theorem LogRecord.text_line (r : LogRecord) :
    ∀ c ∈ r.text, isLineBreak c = false := by
  cases hline : r.line? with
  | some line =>
      obtain ⟨htext, -, htag⟩ := text_of_line hline
      rw [htext]
      exact shimLogHexText_line htag
  | none =>
      cases r with
      | header text =>
          exact List.forall_mem_cons.2 ⟨by decide, text.2⟩
      | plain ms tid text hplain =>
          have hbar : isLineBreak '|' = false := by decide
          intro c hc
          simp only [LogRecord.text, shimLogLineText, List.mem_append,
            List.mem_cons] at hc
          rcases hc with hc | rfl | hc | rfl | hc
          · exact writeDigits_line _ c hc
          · exact hbar
          · exact writeDigits_line _ c hc
          · exact hbar
          · exact text.2 c hc
      | hex ms tid tag bytes htag => cases hline
      | reqPdu ms tid bytes => cases hline
      | rspUds ms tid bytes => cases hline

/-! ### What `LINE_RE` matches -/

/-- The tag that a `kind` stands for. -/
def Direction.tag : Direction → List Char
  | .tx => reqPduTag
  | .rx => rspUdsTag

theorem matchKind_eq_some {line rest : List Char} {kind : Direction}
    (h : matchKind line = some (kind, rest)) : line = kind.tag ++ rest := by
  rw [matchKind] at h
  split at h
  · next hreq =>
    obtain ⟨rfl, rfl⟩ := Prod.mk.inj (Option.some.inj h)
    exact matchText_eq_some hreq
  · obtain ⟨back, hrsp, hpair⟩ := Option.map_eq_some_iff.1 h
    obtain ⟨rfl, rfl⟩ := Prod.mk.inj hpair
    exact matchText_eq_some hrsp

theorem noBar_of_digits {digits : List Char}
    (h : ∀ c ∈ digits, isDigitOf 10 c = true) : '|' ∉ digits := by
  intro hbar
  exact absurd (h _ hbar) (by decide)

/-- A line that matches has five fields in front of its bytes. -/
theorem matchLine_eq_some {text hex : List Char} {ms : Nat} {kind : Direction}
    (h : matchLine text = some (ms, kind, hex)) :
    ∃ first tid blanks len, text = fielded '|' [first, tid,
        "HEX".toList ++ blanks, kind.tag, "len=".toList ++ len] hex ∧
      (∀ f ∈ [first, tid, "HEX".toList ++ blanks, kind.tag,
        "len=".toList ++ len], '|' ∉ f) ∧
      readDigits 10 0 first = ms ∧ first ≠ [] ∧
      (∀ c ∈ first, isDigitOf 10 c = true) ∧ hex ≠ [] := by
  simp only [matchLine, Option.bind_eq_bind, Option.bind_eq_some_iff,
    Prod.exists] at h
  obtain ⟨n, rest, hfirst, rest₁, hbar₁, _, rest₂, htid, rest₃, hhex, rest₄,
    hbar₄, k, rest₅, hkind, rest₆, hlen, _, rest₇, hcount, back, hbar₇,
    hresult⟩ := h
  obtain ⟨first, rfl, hne, hfirstDigits, hms⟩ := matchNumber_eq_some hfirst
  obtain ⟨tid, rfl, -, htidDigits, -⟩ := matchNumber_eq_some htid
  obtain ⟨len, rfl, -, hlenDigits, -⟩ := matchNumber_eq_some hcount
  obtain rfl := matchText_eq_some hbar₁
  obtain rfl := matchText_eq_some hhex
  obtain rfl := matchKind_eq_some hkind
  obtain rfl := matchText_eq_some hlen
  obtain rfl := matchText_eq_some hbar₇
  have hblanks : rest₃ = rest₃.takeWhile isRegexSpace ++ '|' ::
      (k.tag ++ (lenMark ++ (len ++ '|' :: back))) := by
    have hrest := matchText_eq_some hbar₄
    conv_lhs => rw [← @List.takeWhile_append_dropWhile _ isRegexSpace rest₃]
    rw [hrest]
    simp
  have hnoBar : '|' ∉ rest₃.takeWhile isRegexSpace := by
    intro hbar
    exact absurd (List.mem_takeWhile_imp hbar) (by decide)
  have hkindBar : '|' ∉ k.tag := by
    cases k with
    | tx => exact reqPduTag_noBar
    | rx => exact rspUdsTag_noBar
  split at hresult
  · cases hresult
  · next hback =>
    obtain ⟨rfl, rfl, rfl⟩ : n = ms ∧ k = kind ∧ back = hex := by
      simpa using hresult
    refine ⟨first, tid, rest₃.takeWhile isRegexSpace, len, ?_, ?_, hms, hne,
      hfirstDigits, hback⟩
    · conv_lhs => rw [hblanks]
      simp [fielded, hexMark, lenMark]
    · simp [noBar_of_digits hfirstDigits, noBar_of_digits htidDigits, hnoBar,
        hkindBar, noBar_of_digits hlenDigits]

/-! ### Lines that may be cut short -/

/-- What stands in front of the bytes of a hex line. -/
def ActivityLine.head (line : ActivityLine) : List Char :=
  fielded '|' line.fields []

/-- The line with its first `k` bytes only. -/
def ActivityLine.cutTo (line : ActivityLine) (k : Nat) : ActivityLine :=
  { line with bytes := line.bytes.take k }

theorem ActivityLine.fielded_fields (line : ActivityLine) (rest : List Char) :
    fielded '|' line.fields rest = line.head ++ rest :=
  fielded_append '|' line.fields [] rest

theorem writeDigits_noBar (n : Nat) : '|' ∉ writeDigits lowerDigit 10 n :=
  noBar_of_digits (isDigitOf_decimal n)

theorem ActivityLine.fields_noBar {line : ActivityLine}
    (htag : '|' ∉ line.tag) : ∀ f ∈ line.fields, '|' ∉ f := by
  simp [fields, htag, writeDigits_noBar]

theorem Direction.isFrame_of_tag {line : ActivityLine} {kind : Direction}
    (h : kind.tag = line.tag) : line.IsFrame := by
  cases kind with
  | tx => exact .inl h.symm
  | rx => exact .inr h.symm

/-- If the front of a hex line matches then it is that of a frame, and goes up
to the bytes. -/
theorem matchLine_front {line : ActivityLine} (htag : '|' ∉ line.tag)
    {part hex : List Char} (hpart : part <+: shimLogHexText line) {ms : Nat}
    {kind : Direction} (h : matchLine part = some (ms, kind, hex)) :
    line.IsFrame ∧ part = line.head ++ hex ∧ hex ≠ [] := by
  obtain ⟨first, tid, blanks, len, rfl, hfields, -, -, -, hhex⟩ :=
    matchLine_eq_some h
  rw [shimLogHexText_eq] at hpart
  obtain ⟨heq, -⟩ := fielded_isPrefix hfields
    (ActivityLine.fields_noBar htag) rfl hpart
  have hkind : kind.tag = line.tag := by
    simp only [ActivityLine.fields, List.cons.injEq] at heq
    exact heq.2.2.2.1
  exact ⟨Direction.isFrame_of_tag hkind,
    by rw [heq, ActivityLine.fielded_fields], hhex⟩

theorem parseLine_eq_none {text : List Char} (h : matchLine text = none) :
    parseLine text = none := by
  rw [parseLine, h]
  rfl

/-- Nothing comes of the front of a hex line that holds no frame, or stops in
front of the bytes. -/
theorem parseLine_front_eq_none {line : ActivityLine} (htag : '|' ∉ line.tag)
    {part : List Char} (hpart : part <+: shimLogHexText line)
    (h : ¬(line.IsFrame ∧ line.head.length < part.length)) :
    parseLine part = none := by
  refine parseLine_eq_none (Option.eq_none_iff_forall_ne_some.2 ?_)
  rintro ⟨ms, kind, hex⟩ hmatch
  obtain ⟨hframe, rfl, hhex⟩ := matchLine_front htag hpart hmatch
  refine h ⟨hframe, ?_⟩
  rw [List.length_append]
  exact Nat.lt_add_of_pos_right (List.length_pos_of_ne_nil hhex)

/-- `parse_log` makes a frame of the bytes of a request or a response. -/
theorem frameOfBytes_eq_frame? {line : ActivityLine} (h : line.IsFrame) :
    frameOfBytes line.ms.toNat line.direction line.bytes = line.frame? := by
  by_cases hlength : 5 ≤ line.bytes.length
  · rw [frameOfBytes_eq hlength, ActivityLine.frame?, if_pos ⟨h, hlength⟩,
      ActivityLine.frame, headerCanId_eq]
    rfl
  · rw [frameOfBytes, if_pos (by omega), ActivityLine.frame?,
      if_neg fun hboth => hlength hboth.2]

/-- What `parse_log` makes of the first `q` characters of a hex line: nothing
in front of the bytes or inside of one, else the frame of the whole bytes. -/
theorem parseLine_take {line : ActivityLine} (htag : '|' ∉ line.tag) {q : Nat}
    (hq : q ≤ (shimLogHexText line).length) :
    parseLine ((shimLogHexText line).take q) =
      if line.head.length < q ∧ (q - line.head.length) % 3 ≠ 1 then
        (line.cutTo ((q - line.head.length + 1) / 3)).frame?
      else none := by
  have hfront := List.take_prefix q (shimLogHexText line)
  have hlength : ((shimLogHexText line).take q).length = q :=
    List.length_take_of_le hq
  by_cases hhead : line.head.length < q
  · by_cases hframe : line.IsFrame
    · obtain ⟨m, rfl⟩ := Nat.exists_eq_add_of_lt hhead
      have htext : shimLogHexText line =
          line.head ++ spacedHex upperDigit line.bytes := by
        rw [shimLogHexText_eq, ActivityLine.fielded_fields]
      have hm : m + 1 ≤ (spacedHex upperDigit line.bytes).length := by
        rw [htext, List.length_append] at hq
        omega
      have hne : (spacedHex upperDigit line.bytes).take (m + 1) ≠ [] := by
        apply List.ne_nil_of_length_pos
        rw [List.length_take_of_le hm]
        exact m.succ_pos
      rw [htext, Nat.add_assoc, List.take_length_add_append,
        ← ActivityLine.fielded_fields, parseLine, matchLine_fields hframe hne,
        Nat.add_sub_cancel_left]
      simp only [Option.bind_eq_bind, Option.bind_some,
        fromHex_take_spacedHex _ hm]
      by_cases hhalf : (m + 1) % 3 = 1
      · simp [hhalf]
      · have hcut : (line.cutTo ((m + 1 + 1) / 3)).IsFrame := hframe
        rw [if_neg hhalf, if_pos ⟨by omega, hhalf⟩,
          ← frameOfBytes_eq_frame? hcut]
        rfl
    · rw [parseLine_front_eq_none htag hfront fun h => hframe h.1]
      split
      · exact (if_neg fun h => hframe h.1).symm
      · rfl
  · rw [parseLine_front_eq_none htag hfront fun h => hhead (hlength ▸ h.2),
      if_neg fun h => hhead h.1]

/-- `parse_log` on a whole hex line. -/
theorem parseLine_shimLogHexText_eq {line : ActivityLine}
    (htag : '|' ∉ line.tag) :
    parseLine (shimLogHexText line) = line.frame? := by
  have h := parseLine_take htag (Nat.le_refl (shimLogHexText line).length)
  have hlength : (shimLogHexText line).length - line.head.length =
      3 * line.bytes.length - 1 := by
    rw [shimLogHexText_eq, ActivityLine.fielded_fields, List.length_append,
      length_spacedHex, Nat.add_sub_cancel_left]
  rw [List.take_length, hlength] at h
  rw [h]
  by_cases hshort : line.bytes.length < 5
  · have hnone : ∀ k, (line.cutTo k).frame? = none := by
      intro k
      refine if_neg fun hboth => ?_
      have hcut := hboth.2
      rw [ActivityLine.cutTo, List.length_take] at hcut
      omega
    rw [hnone, ite_self]
    exact (if_neg fun hboth => absurd hboth.2 (by omega)).symm
  · have hall : line.cutTo ((3 * line.bytes.length - 1 + 1) / 3) = line := by
      have hk : (3 * line.bytes.length - 1 + 1) / 3 = line.bytes.length := by
        omega
      rw [ActivityLine.cutTo, hk, List.take_length]
    rw [if_pos ⟨by omega, by omega⟩, hall]

/-- No front of a line that is no hex dump makes a frame. -/
theorem LogRecord.parseLine_front_eq_none {r : LogRecord} (h : r.line? = none)
    {part : List Char} (hpart : part <+: r.text) : parseLine part = none := by
  refine parseLine_eq_none (Option.eq_none_iff_forall_ne_some.2 ?_)
  rintro ⟨ms, kind, hex⟩ hmatch
  obtain ⟨first, tid, blanks, len, rfl, hfields, -, hne, hdigits, -⟩ :=
    matchLine_eq_some hmatch
  cases r with
  | header text =>
      -- The number in front cannot begin with `#`.
      obtain ⟨c, first, rfl⟩ := List.exists_cons_of_ne_nil hne
      obtain ⟨rfl, -⟩ := List.cons_prefix_cons.1 hpart
      exact absurd (hdigits _ List.mem_cons_self) (by decide)
  | plain ms tid' text hplain =>
      -- Behind the two numbers the free text would have to begin with `HEX`.
      have hnumbers : ∀ f ∈ [writeDigits lowerDigit 10 ms.toNat,
          writeDigits lowerDigit 10 tid'.toNat], '|' ∉ f := by
        simp [writeDigits_noBar]
      have hfront : ∀ f ∈ [first, tid], '|' ∉ f := fun f hf =>
        hfields f (List.mem_append_left _ hf)
      obtain ⟨-, htext⟩ := @fielded_isPrefix _ _ [first, tid] _
        (fielded '|' ["HEX".toList ++ blanks, kind.tag,
          "len=".toList ++ len] hex) text.1 hfront hnumbers rfl hpart
      have hword := List.prefix_append "HEX".toList
        (blanks ++ '|' :: fielded '|' [kind.tag, "len=".toList ++ len] hex)
      rw [← List.append_assoc] at hword
      exact hplain (hword.trans htext)
  | hex ms tid tag bytes htag => cases h
  | reqPdu ms tid bytes => cases h
  | rspUds ms tid bytes => cases h

/-! ### Logs -/

/-- `parse_log` on a whole line of the log. -/
theorem LogRecord.parseLine_text (r : LogRecord) :
    parseLine r.text = r.frame? := by
  cases hline : r.line? with
  | none =>
      rw [parseLine_front_eq_none hline List.prefix_rfl, frame?, hline]
      rfl
  | some line =>
      obtain ⟨htext, htag, -⟩ := text_of_line hline
      rw [htext, parseLine_shimLogHexText_eq htag, frame?, hline]
      rfl

/-- `parse_log` on a log that stops inside a line, or behind one. -/
theorem parseLog_logText_append (records : List LogRecord) {part : List Char}
    (hpart : ∀ c ∈ part, isLineBreak c = false) :
    parseLog (logText records ++ part) =
      records.filterMap LogRecord.frame? ++ (parseLine part).toList := by
  have hsplit := splitlines_flatMap_append
    (fun r (_ : r ∈ records) => LogRecord.text_line r) hpart
  have hwhole : (parseLine ∘ LogRecord.text) = LogRecord.frame? :=
    funext LogRecord.parseLine_text
  rw [parseLog, logText, hsplit, List.filterMap_append, List.filterMap_map,
    hwhole]
  split
  · next hempty =>
    rw [hempty]
    rfl
  · rw [List.filterMap_cons]
    cases parseLine part <;> rfl

/-- `parse_log` yields the frames of the records and nothing else, and the
three writers of hex dumps write the same text. -/
theorem parseLog_logText (records : List LogRecord) :
    parseLog (logText records) = records.filterMap LogRecord.frame? ∧
      ∀ (ms : UInt64) (tid : UInt32) (bytes : List UInt8),
        fremsoftLogReqPduText ms tid bytes =
            shimLogHexText { ms, tid, tag := "REQ-PDU".toList, bytes } ∧
          fremsoftLogRspUdsText ms tid bytes =
            shimLogHexText { ms, tid, tag := "RSP-UDS".toList, bytes } := by
  refine ⟨?_, fun ms tid bytes => ⟨fremsoftLogReqPduText_eq ms tid bytes,
    fremsoftLogRspUdsText_eq ms tid bytes⟩⟩
  have h := parseLog_logText_append records (List.forall_mem_nil _)
  rw [List.append_nil] at h
  rw [h]
  exact List.append_nil _

end FremSoft
