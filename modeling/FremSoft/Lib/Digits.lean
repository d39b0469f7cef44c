/-
Numbers as text: positional notation written with any digit alphabet, and the
C library's `strtoul` with a 32-bit `unsigned long`.  The round trips cover
every base up to sixteen.
-/
import Mathlib.Data.List.TakeWhile
import Mathlib.Data.Nat.Digits.Lemmas

namespace FremSoft

/-- The characters of the digits `0..15`, upper case from ten on. -/
def upperDigit (d : Nat) : Char :=
  if d < 10 then Char.ofNat (48 + d) else Char.ofNat (55 + d)

def lowerDigit (d : Nat) : Char :=
  if d < 10 then Char.ofNat (48 + d) else Char.ofNat (87 + d)

/-- The value of a digit character, of any base up to thirty-six: `0..9`,
then `a..z` or `A..Z`. -/
def digitValue? (c : Char) : Option Nat :=
  if 48 ≤ c.toNat ∧ c.toNat ≤ 57 then some (c.toNat - 48)
  else if 97 ≤ c.toNat ∧ c.toNat ≤ 122 then some (c.toNat - 87)
  else if 65 ≤ c.toNat ∧ c.toNat ≤ 90 then some (c.toNat - 55)
  else none

def isDigitOf (base : Nat) (c : Char) : Bool :=
  match digitValue? c with
  | some d => decide (d < base)
  | none => false

theorem digitValue?_upperDigit :
    ∀ d, d < 16 → digitValue? (upperDigit d) = some d := by
  decide

theorem digitValue?_lowerDigit :
    ∀ d, d < 16 → digitValue? (lowerDigit d) = some d := by
  decide

/-- Read a string of digits, most significant first, on top of `acc`. -/
def readDigits (base : Nat) : Nat → List Char → Nat
  | acc, [] => acc
  | acc, c :: rest => readDigits base (acc * base + (digitValue? c).getD 0) rest

/-- Write a number in a base: no leading zeros, and zero as a single digit. -/
def writeDigits (digit : Nat → Char) (base n : Nat) : List Char :=
  if n = 0 then [digit 0] else ((Nat.digits base n).reverse).map digit

/-- Pad on the left to a minimum width, as `printf` does for `%0*`. -/
def padLeft (width : Nat) (pad : Char) (text : List Char) : List Char :=
  List.replicate (width - text.length) pad ++ text

def hexByte (digit : Nat → Char) (b : UInt8) : List Char :=
  [digit (b.toNat / 16), digit (b.toNat % 16)]

/-- A byte string as hex pairs with one blank between them. -/
def spacedHex (digit : Nat → Char) : List UInt8 → List Char
  | [] => []
  | [b] => hexByte digit b
  | b :: c :: rest => hexByte digit b ++ ' ' :: spacedHex digit (c :: rest)

theorem readDigits_append (base acc : Nat) (front back : List Char) :
    readDigits base acc (front ++ back) =
      readDigits base (readDigits base acc front) back := by
  induction front generalizing acc with
  | nil => rfl
  | cons c front ih => exact ih (acc * base + (digitValue? c).getD 0)

section Alphabet

variable {digit : Nat → Char}
  (hdigit : ∀ d, d < 16 → digitValue? (digit d) = some d)

include hdigit

theorem readDigits_map_reverse {base : Nat} (hbase : base ≤ 16)
    (ds : List Nat) (hds : ∀ d ∈ ds, d < base) (acc : Nat) :
    readDigits base acc (ds.reverse.map digit) =
      acc * base ^ ds.length + Nat.ofDigits base ds := by
  induction ds generalizing acc with
  | nil => simp [readDigits, Nat.ofDigits]
  | cons d ds ih =>
      have hd : d < base := hds d List.mem_cons_self
      have hrest : ∀ x ∈ ds, x < base := fun x hx =>
        hds x (List.mem_cons_of_mem d hx)
      rw [List.reverse_cons, List.map_append, readDigits_append, ih hrest]
      simp only [List.map_cons, List.map_nil, readDigits,
        hdigit d (by omega), Option.getD_some, List.length_cons,
        Nat.ofDigits_cons, pow_succ]
      ring

/-- Reading what was written gives the number back. -/
theorem readDigits_writeDigits {base : Nat} (hlow : 1 < base)
    (hbase : base ≤ 16) (n : Nat) :
    readDigits base 0 (writeDigits digit base n) = n := by
  unfold writeDigits
  split
  · next hzero =>
    simp [readDigits, hdigit 0 (by omega), hzero]
  · rw [readDigits_map_reverse hdigit hbase _
      (fun d hd => Nat.digits_lt_base hlow hd)]
    simp [Nat.ofDigits_digits]

theorem isDigitOf_writeDigits {base : Nat} (hlow : 1 < base)
    (hbase : base ≤ 16) (n : Nat) :
    ∀ c ∈ writeDigits digit base n, isDigitOf base c = true := by
  intro c hc
  unfold writeDigits at hc
  split at hc
  · simp only [List.mem_singleton] at hc
    subst hc
    simp [isDigitOf, hdigit 0 (by omega)]
    omega
  · simp only [List.mem_map, List.mem_reverse] at hc
    obtain ⟨d, hd, rfl⟩ := hc
    have hlt : d < base := Nat.digits_lt_base hlow hd
    simp [isDigitOf, hdigit d (by omega), hlt]

end Alphabet

/-- Decimal numbers are made of decimal digits. -/
theorem isDigitOf_decimal (n : Nat) :
    ∀ c ∈ writeDigits lowerDigit 10 n, isDigitOf 10 c = true :=
  isDigitOf_writeDigits digitValue?_lowerDigit (by omega) (by omega) n

theorem readDigits_decimal (n : Nat) :
    readDigits 10 0 (writeDigits lowerDigit 10 n) = n :=
  readDigits_writeDigits digitValue?_lowerDigit (by omega) (by omega) n

theorem writeDigits_length_le {digit : Nat → Char} {base width n : Nat}
    (hlow : 1 < base) (hwidth : 0 < width) (hn : n < base ^ width) :
    (writeDigits digit base n).length ≤ width := by
  unfold writeDigits
  split
  · simpa using Nat.succ_le_of_lt hwidth
  · simpa using (Nat.digits_length_le_iff hlow n).2 hn

theorem writeDigits_ne_nil (digit : Nat → Char) {base n : Nat} :
    writeDigits digit base n ≠ [] := by
  unfold writeDigits
  split
  · simp
  · next hzero => simp [Nat.digits_ne_nil_iff_ne_zero, hzero]

theorem readDigits_padLeft (base width : Nat) (text : List Char) :
    readDigits base 0 (padLeft width '0' text) = readDigits base 0 text := by
  have hzeros : ∀ k, readDigits base 0 (List.replicate k '0') = 0 := by
    intro k
    induction k with
    | zero => rfl
    | succ k ih =>
        have hvalue : digitValue? '0' = some 0 := by decide
        simpa [List.replicate_succ, readDigits, hvalue] using ih
  rw [padLeft, readDigits_append, hzeros]

/-! `strtoul` -/

/-- C's `isspace` in the "C" locale: the blank and `\t` to `\r`. -/
def isSpace (c : Char) : Bool :=
  decide (c.toNat = 32 ∨ (9 ≤ c.toNat ∧ c.toNat ≤ 13))

/-- In base sixteen a `0x` is skipped, but only in front of a digit. -/
def skipHexPrefix (base : Nat) : List Char → List Char
  | '0' :: x :: c :: rest =>
      if base = 16 ∧ (x = 'x' ∨ x = 'X') ∧ isDigitOf 16 c = true then c :: rest
      else '0' :: x :: c :: rest
  | text => text

/-- `strtoul(text, NULL, base)`: leading white space, a sign, the longest
string of digits; out of range saturates, a minus sign negates. -/
def strtoul (base : Nat) (text : List Char) : UInt32 :=
  let body := text.dropWhile isSpace
  let negative := body.head? == some '-'
  let unsigned :=
    if negative || body.head? == some '+' then body.tail else body
  let value := readDigits base 0
    ((skipHexPrefix base unsigned).takeWhile (isDigitOf base))
  if 2 ^ 32 ≤ value then 0xFFFFFFFF
  else if negative then 0 - UInt32.ofNat value
  else UInt32.ofNat value

theorem not_isSpace_of_isDigitOf {base : Nat} {c : Char}
    (h : isDigitOf base c = true) : isSpace c = false := by
  have hsome : digitValue? c ≠ none := by
    intro hnone
    simp [isDigitOf, hnone] at h
  unfold digitValue? at hsome
  simp only [isSpace, decide_eq_false_iff_not]
  intro hspace
  apply hsome
  rw [if_neg (by omega), if_neg (by omega), if_neg (by omega)]

/-- On a plain string of digits `strtoul` is the number they spell. -/
theorem strtoul_digits {base : Nat} {text : List Char} (hne : text ≠ [])
    (hdigits : ∀ c ∈ text, isDigitOf base c = true) (hbase : base ≤ 16)
    (hrange : readDigits base 0 text < 2 ^ 32) :
    strtoul base text = UInt32.ofNat (readDigits base 0 text) := by
  obtain ⟨c, rest, rfl⟩ := List.exists_cons_of_ne_nil hne
  have hc := hdigits c List.mem_cons_self
  have hnotspace := not_isSpace_of_isDigitOf hc
  have hminus : c ≠ '-' := by
    rintro rfl
    have : digitValue? '-' = none := by decide
    simp [isDigitOf, this] at hc
  have hplus : c ≠ '+' := by
    rintro rfl
    have : digitValue? '+' = none := by decide
    simp [isDigitOf, this] at hc
  have hprefix : skipHexPrefix base (c :: rest) = c :: rest := by
    unfold skipHexPrefix
    split
    · next x c' rest' heq =>
      simp only [List.cons.injEq] at heq
      obtain ⟨rfl, rfl⟩ := heq
      rw [if_neg]
      rintro ⟨rfl, hx, _⟩
      have hxdigit := hdigits x (by simp)
      have : digitValue? 'x' = some 33 ∧ digitValue? 'X' = some 33 := by decide
      rcases hx with rfl | rfl
      · simp [isDigitOf, this.1] at hxdigit
      · simp [isDigitOf, this.2] at hxdigit
    · rfl
  have htake : (c :: rest).takeWhile (isDigitOf base) = c :: rest :=
    by
    rw [List.takeWhile_eq_self_iff]
    exact hdigits
  have hdrop : (c :: rest).dropWhile isSpace = c :: rest := by
    simp [List.dropWhile, hnotspace]
  have hsigns : (c == '-') = false ∧ (c == '+') = false :=
    ⟨by simpa using hminus, by simpa using hplus⟩
  unfold strtoul
  simp only [hdrop, List.head?_cons, Option.some_beq_some, hsigns.1, hsigns.2,
    Bool.or_self, Bool.false_eq_true, if_false, hprefix, htake,
    Nat.not_le.2 hrange]

theorem digits_skipHexPrefix_append_nul (base : Nat) (text rest : List Char) :
    (skipHexPrefix base (text ++ Char.ofNat 0 :: rest)).takeWhile
        (isDigitOf base) =
      (skipHexPrefix base text).takeWhile (isDigitOf base) := by
  have hnul : isDigitOf base (Char.ofNat 0) = false := by
    simp [isDigitOf, show digitValue? (Char.ofNat 0) = none by decide]
  have happend : ∀ front : List Char,
      (front ++ Char.ofNat 0 :: rest).takeWhile (isDigitOf base) =
        front.takeWhile (isDigitOf base) := by
    intro front
    induction front with
    | nil => simp [hnul]
    | cons c front ih => simp [List.takeWhile_cons, ih]
  -- The prefix is three characters, so the `NUL` may stand inside it.
  rcases text with _ | ⟨a, _ | ⟨b, _ | ⟨c, tail⟩⟩⟩
  · simp [skipHexPrefix, hnul]
  · rcases rest with _ | ⟨d, rest⟩
    · simp [skipHexPrefix, ← happend [a]]
    · by_cases hzero : a = '0'
      · subst hzero
        simp [skipHexPrefix, ← happend ['0']]
      · simp [skipHexPrefix, hzero, ← happend [a]]
  · by_cases hzero : a = '0'
    · subst hzero
      have hnul16 : isDigitOf 16 (Char.ofNat 0) = false := by decide
      simp [skipHexPrefix, hnul16, ← happend ['0', b]]
    · simp [skipHexPrefix, hzero, ← happend [a, b]]
  · by_cases hzero : a = '0'
    · subst hzero
      simp only [List.cons_append, skipHexPrefix]
      split
      · exact happend (c :: tail)
      · exact happend ('0' :: b :: c :: tail)
    · have hsame : ∀ l : List Char, skipHexPrefix base (a :: l) = a :: l := by
        intro l
        simp [skipHexPrefix, hzero]
      rw [List.cons_append, hsame, hsame]
      exact happend (a :: b :: c :: tail)

/-- `strtoul` stops at the end of a C string. -/
theorem strtoul_append_nul (base : Nat) (text rest : List Char) :
    strtoul base (text ++ Char.ofNat 0 :: rest) = strtoul base text := by
  have hspace : (Char.ofNat 0 :: rest).dropWhile isSpace =
      Char.ofNat 0 :: rest := by
    simp [show isSpace (Char.ofNat 0) = false by decide]
  have hbody : (text ++ Char.ofNat 0 :: rest).dropWhile isSpace =
      text.dropWhile isSpace ++ Char.ofNat 0 :: rest := by
    rw [List.dropWhile_append, hspace]
    split
    · next hempty =>
      rw [List.isEmpty_iff.1 hempty, List.nil_append]
    · rfl
  unfold strtoul
  rw [hbody]
  rcases text.dropWhile isSpace with _ | ⟨c, body⟩
  · have hdigits := digits_skipHexPrefix_append_nul base [] rest
    simp only [List.nil_append] at hdigits
    simp [hdigits]
  · have htail := digits_skipHexPrefix_append_nul base body rest
    have hall := digits_skipHexPrefix_append_nul base (c :: body) rest
    simp only [List.cons_append] at hall
    simp only [List.cons_append, List.head?_cons, List.tail_cons]
    by_cases hsign : (some c == some '-' || some c == some '+') = true
    · simp only [hsign, if_true, htail]
    · simp only [hsign, Bool.false_eq_true, if_false, hall]

end FremSoft
