/-
`parse_hex_bytes` against what it is for: delete every character that is no
hex digit, pair the digits that are left.
-/
import FremSoft.Lib.TextScan
import FremSoft.LoadBlocks
import FremSoft.RecordingDoc

namespace FremSoft

/-- Digits paired to bytes, high nibble first; an unpaired last digit is
dropped. -/
def pairNibbles : List Nat → List UInt8
  | h :: l :: rest => UInt8.ofNat (16 * h + l) :: pairNibbles rest
  | [_] => []
  | [] => []

/-- The two digits of each byte. -/
def nibblesOf (bytes : List UInt8) : List Nat :=
  bytes.flatMap fun b => [b.toNat / 16, b.toNat % 16]

/-- A hex text of the bytes, each digit in either case, with blanks anywhere. -/
def IsHexText (bytes : List UInt8) (s : List Char) : Prop :=
  List.Forall₂ (fun c d => hexDigit? c = some d)
    (s.filter fun c => decide (c ≠ ' ')) (nibblesOf bytes)

/-- The loader and the decoder of the recording tool know the same digits. -/
theorem hexNibble?_eq (c : Char) : hexNibble? c = hexDigit? c := by
  unfold hexNibble? hexDigit? digitValue?
  by_cases hdecimal : 48 ≤ c.toNat ∧ c.toNat ≤ 57
  · have hlt : c.toNat - 48 < 16 := by omega
    simp [hdecimal, hlt]
  · by_cases hlower : 97 ≤ c.toNat ∧ c.toNat ≤ 102
    · have hletter : 97 ≤ c.toNat ∧ c.toNat ≤ 122 := by omega
      have hlt : c.toNat - 87 < 16 := by omega
      have hvalue : 10 + (c.toNat - 97) = c.toNat - 87 := by omega
      simp [hdecimal, hlower, hletter, hlt, hvalue]
    · by_cases hupper : 65 ≤ c.toNat ∧ c.toNat ≤ 70
      · have hnotlower : ¬(97 ≤ c.toNat ∧ c.toNat ≤ 122) := by omega
        have hletter : 65 ≤ c.toNat ∧ c.toNat ≤ 90 := by omega
        have hlt : c.toNat - 55 < 16 := by omega
        have hvalue : 10 + (c.toNat - 65) = c.toNat - 55 := by omega
        simp [hdecimal, hlower, hupper, hnotlower, hletter, hlt, hvalue]
      · -- A letter behind `f` has a value, but not below sixteen.
        simp only [hdecimal, hlower, hupper, if_false]
        split_ifs with h1 h2
        · have hlarge : ¬c.toNat - 87 < 16 := by omega
          simp [hlarge]
        · have hlarge : ¬c.toNat - 55 < 16 := by omega
          simp [hlarge]
        · rfl

theorem hexDigit?_lt {c : Char} {d : Nat} (h : hexDigit? c = some d) :
    d < 16 := by
  unfold hexDigit? at h
  split at h
  · split at h
    · next hlt =>
      rw [← Option.some.inj h]
      exact hlt
    · cases h
  · cases h

theorem shiftLeft_or_nibble {h l : Nat} (hl : l < 16) :
    (h <<< 4) ||| l = 16 * h + l := by
  rw [← Nat.shiftLeft_add_eq_or_of_lt (by omega), Nat.shiftLeft_eq]
  omega

/-- The loop pairs what is left of the text behind the nibble it carries. -/
theorem parseHexLoop_eq (hi : Option Nat) (s : List Char) :
    parseHexLoop hi s = pairNibbles (hi.toList ++ s.filterMap hexDigit?) := by
  induction s generalizing hi with
  | nil => cases hi <;> rfl
  | cons c rest ih =>
      rw [parseHexLoop, hexNibble?_eq]
      cases hdigit : hexDigit? c with
      | none =>
          rw [List.filterMap_cons_none hdigit]
          exact ih hi
      | some v =>
          rw [List.filterMap_cons_some hdigit]
          cases hi with
          | none => exact ih (some v)
          | some h =>
              simp only [ih none, shiftLeft_or_nibble (hexDigit?_lt hdigit)]
              rfl

theorem parseHexBytes_eq (s : List Char) :
    parseHexBytes s = pairNibbles (s.filterMap hexDigit?) :=
  parseHexLoop_eq none s

theorem pairNibbles_nibblesOf (bytes : List UInt8) :
    pairNibbles (nibblesOf bytes) = bytes := by
  induction bytes with
  | nil => rfl
  | cons b rest ih =>
      have hvalue : 16 * (b.toNat / 16) + b.toNat % 16 = b.toNat := by omega
      rw [nibblesOf, List.flatMap_cons] at *
      simp [pairNibbles, hvalue, ih]

/-- Blanks have no value, so they may stand anywhere. -/
theorem IsHexText.digits {bytes : List UInt8} {s : List Char}
    (h : IsHexText bytes s) : s.filterMap hexDigit? = nibblesOf bytes := by
  have hblank : hexDigit? ' ' = none := by decide
  have hfilter : (s.filter fun c => decide (c ≠ ' ')).filterMap hexDigit? =
      s.filterMap hexDigit? := by
    rw [List.filterMap_filter]
    refine List.filterMap_congr fun c _ => ?_
    by_cases hc : c = ' '
    · simp [hc, hblank]
    · simp [hc]
  rw [← hfilter]
  unfold IsHexText at h
  generalize s.filter (fun c => decide (c ≠ ' ')) = text at h
  generalize nibblesOf bytes = digits at h
  induction h with
  | nil => rfl
  | cons hc _ ih => rw [List.filterMap_cons_some hc, ih]

theorem hexDigit?_lowerDigit :
    ∀ d, d < 16 → hexDigit? (lowerDigit d) = some d := by
  decide

/-- What the recording tool writes is such a text. -/
theorem isHexText_hexbytes (bytes : List UInt8) :
    IsHexText bytes (hexbytes bytes) := by
  have hblank : ∀ d, d < 16 → lowerDigit d ≠ ' ' := by decide
  rw [IsHexText, hexbytes, filter_spacedHex hblank]
  induction bytes with
  | nil => exact .nil
  | cons b rest ih =>
      have hb := b.toNat_lt
      exact .cons (hexDigit?_lowerDigit _ (by omega))
        (.cons (hexDigit?_lowerDigit _ (by omega)) ih)

/-- `parse_hex_bytes` on any string: the digits of it, paired; at most half as
many bytes as characters, all written inside its block; and so the bytes of any
hex text, the one `hexbytes` writes among them. -/
theorem parseHexBytes_decodes (s : List Char) :
    parseHexBytes s = pairNibbles (s.filterMap hexDigit?) ∧
    (∃ out n, Mem.parseHexBytes s 0 s.length = .ok (out, n) ∧
      n ≤ s.length / 2 ∧ Mem.BlockHolds (some out) n (parseHexBytes s)) ∧
    (∀ bytes, IsHexText bytes s → parseHexBytes s = bytes) ∧
    ∀ bytes, parseHexBytes (hexbytes bytes) = bytes := by
  have hdecode : ∀ bytes text, IsHexText bytes text →
      parseHexBytes text = bytes := by
    intro bytes text htext
    rw [parseHexBytes_eq, htext.digits, pairNibbles_nibblesOf]
  refine ⟨parseHexBytes_eq s, ?_, fun bytes => hdecode bytes s,
    fun bytes => hdecode bytes _ (isHexText_hexbytes bytes)⟩
  have hspan : 0 + s.length ≤ s.length := by simp
  obtain ⟨out, n, hparse, hblock⟩ := Mem.parseHexBytes_ok hspan
  rw [List.drop_zero, List.take_length] at hblock
  refine ⟨out, n, hparse, ?_, hblock⟩
  rw [hblock.1]
  exact parseHexBytes_length s

/-- Two bytes in mixed case, with a blank inside the first pair. -/
theorem parseHexBytes_decodes_mixed :
    parseHexBytes ['1', ' ', 'a', ' ', ' ', '2', 'B'] = [0x1A, 0x2B] := by
  have htext : IsHexText [0x1A, 0x2B] ['1', ' ', 'a', ' ', ' ', '2', 'B'] :=
    .cons rfl (.cons rfl (.cons rfl (.cons rfl .nil)))
  exact (parseHexBytes_decodes _).2.2.1 _ htext

end FremSoft
