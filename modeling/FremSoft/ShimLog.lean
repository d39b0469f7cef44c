/-
The text of the shim's log as far as hex lines go: `shim_log_hex` writes one
line for a tagged byte string, and the wrappers use it with two tags that the
recording tool looks for.
-/
import FremSoft.Lib.TextScan
import FremSoft.Playback

namespace FremSoft

/-- What stands before the blanks in front of the tag. -/
def hexMark : List Char := "|HEX".toList

/-- What stands before the number of bytes. -/
def lenMark : List Char := "|len=".toList

/-- The line `shim_log_hex` writes, up to its end. -/
def shimLogHexText (line : ActivityLine) : List Char :=
  writeDigits lowerDigit 10 line.ms.toNat ++ '|' ::
    (writeDigits lowerDigit 10 line.tid.toNat ++ (hexMark ++
      (' ' :: ' ' :: '|' :: (line.tag ++ (lenMark ++
        (writeDigits lowerDigit 10 line.bytes.length ++ '|' ::
          spacedHex upperDigit line.bytes))))))

def shimLogText (lines : List ActivityLine) : List Char :=
  lines.flatMap fun line => shimLogHexText line ++ ['\n']

def reqPduTag : List Char := "REQ-PDU".toList

def rspUdsTag : List Char := "RSP-UDS".toList

/-- A request or a response of the bus. -/
def ActivityLine.IsFrame (line : ActivityLine) : Prop :=
  line.tag = reqPduTag ∨ line.tag = rspUdsTag

theorem spacedHex_chars {digit : Nat → Char} {P : Char → Prop}
    (hdigit : ∀ d, d < 16 → P (digit d)) (hblank : P ' ') (bytes : List UInt8) :
    ∀ c ∈ spacedHex digit bytes, P c := by
  have hbyte : ∀ b : UInt8, ∀ c ∈ hexByte digit b, P c := by
    intro b c hc
    have hb := b.toNat_lt
    simp only [hexByte, List.mem_cons, List.not_mem_nil, or_false] at hc
    rcases hc with rfl | rfl
    · exact hdigit _ (by omega)
    · exact hdigit _ (by omega)
  induction bytes with
  | nil => simp [spacedHex]
  | cons b rest ih =>
      cases rest with
      | nil => exact hbyte b
      | cons d rest =>
          intro c hc
          rw [spacedHex, List.mem_append, List.mem_cons] at hc
          rcases hc with hc | rfl | hc
          · exact hbyte b c hc
          · exact hblank
          · exact ih c hc

theorem not_isLineBreak_of_isDigitOf {base : Nat} {c : Char}
    (h : isDigitOf base c = true) : isLineBreak c = false := by
  have hsome : digitValue? c ≠ none := by
    intro hnone
    simp [isDigitOf, hnone] at h
  unfold digitValue? at hsome
  rw [isLineBreak, decide_eq_false_iff_not]
  intro hbreak
  apply hsome
  simp only [List.mem_cons, List.not_mem_nil, or_false] at hbreak
  rw [if_neg (by omega), if_neg (by omega), if_neg (by omega)]

theorem writeDigits_line (n : Nat) :
    ∀ c ∈ writeDigits lowerDigit 10 n, isLineBreak c = false := fun c hc =>
  not_isLineBreak_of_isDigitOf (isDigitOf_decimal n c hc)

/-- A hex line is one line of the text. -/
theorem shimLogHexText_line {line : ActivityLine}
    (htag : ∀ c ∈ line.tag, isLineBreak c = false) :
    ∀ c ∈ shimLogHexText line, isLineBreak c = false := by
  have hhex := spacedHex_chars (P := fun c => isLineBreak c = false)
    (show ∀ d, d < 16 → isLineBreak (upperDigit d) = false by decide)
    (by decide) line.bytes
  have hbar : isLineBreak '|' = false := by decide
  have hblank : isLineBreak ' ' = false := by decide
  have hmark : ∀ c ∈ hexMark ++ lenMark, isLineBreak c = false :=
    List.forall_iff_forall_mem.1 (by decide)
  intro c hc
  simp only [shimLogHexText, List.mem_append, List.mem_cons] at hc
  rcases hc with hc | rfl | hc | hc | rfl | rfl | rfl | hc | hc | hc | rfl | hc
  · exact writeDigits_line _ c hc
  · exact hbar
  · exact writeDigits_line _ c hc
  · exact hmark c (List.mem_append_left _ hc)
  · exact hblank
  · exact hblank
  · exact hbar
  · exact htag c hc
  · exact hmark c (List.mem_append_right _ hc)
  · exact writeDigits_line _ c hc
  · exact hbar
  · exact hhex c hc

theorem ActivityLine.IsFrame.line {line : ActivityLine} (h : line.IsFrame) :
    ∀ c ∈ line.tag, isLineBreak c = false := by
  rcases h with h | h
  · rw [h]
    exact List.forall_iff_forall_mem.1 (by decide)
  · rw [h]
    exact List.forall_iff_forall_mem.1 (by decide)

end FremSoft
