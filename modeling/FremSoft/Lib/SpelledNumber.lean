/-
The texts that `strtoul` reads as a number other than zero, in base sixteen:
white space, a sign, a prefix and zeros may stand in front of a digit, and
anything behind it.
-/
import FremSoft.Lib.Digits

namespace FremSoft

/-- Behind any zeros comes another hex digit. -/
def LeadsNonzero (text : List Char) : Prop :=
  ∃ zeros d rest, text = zeros ++ d :: rest ∧ (∀ c ∈ zeros, c = '0') ∧
    isDigitOf 16 d = true ∧ d ≠ '0'

/-- What may stand in front of hex digits. -/
def hexPrefixes : List (List Char) := [[], ['0', 'x'], ['0', 'X']]

/-- White space, a sign and a prefix, each of which may be missing, and then
digits that are not all zero. -/
def SpellsNonzero (text : List Char) : Prop :=
  ∃ blanks sign pre back, text = blanks ++ (sign ++ (pre ++ back)) ∧
    (∀ c ∈ blanks, isSpace c = true) ∧ sign ∈ [[], ['+'], ['-']] ∧
    pre ∈ hexPrefixes ∧ LeadsNonzero back

theorem digitValue?_eq_zero_iff {c : Char} :
    digitValue? c = some 0 ↔ c = '0' := by
  constructor
  · intro h
    unfold digitValue? at h
    apply Char.toNat_inj.1
    have hzero : '0'.toNat = 48 := rfl
    rw [hzero]
    split at h
    · simp only [Option.some.injEq] at h
      omega
    · split at h
      · simp only [Option.some.injEq] at h
        omega
      · split at h
        · simp only [Option.some.injEq] at h
          omega
        · cases h
  · rintro rfl
    decide

theorem leadsNonzero_zero {rest : List Char} :
    LeadsNonzero ('0' :: rest) ↔ LeadsNonzero rest := by
  constructor
  · rintro ⟨zeros, d, back, heq, hzeros, hd, hne⟩
    cases zeros with
    | nil => exact absurd (List.cons.inj heq).1.symm hne
    | cons z zeros =>
        exact ⟨zeros, d, back, (List.cons.inj heq).2,
          fun c hc => hzeros c (List.mem_cons_of_mem z hc), hd, hne⟩
  · rintro ⟨zeros, d, back, rfl, hzeros, hd, hne⟩
    exact ⟨'0' :: zeros, d, back, rfl,
      List.forall_mem_cons.2 ⟨rfl, hzeros⟩, hd, hne⟩

theorem leadsNonzero_cons {c : Char} {rest : List Char} (hc : c ≠ '0') :
    LeadsNonzero (c :: rest) ↔ isDigitOf 16 c = true := by
  constructor
  · rintro ⟨zeros, d, back, heq, hzeros, hd, -⟩
    cases zeros with
    | nil => exact (List.cons.inj heq).1 ▸ hd
    | cons z zeros =>
        have hz := hzeros z List.mem_cons_self
        exact absurd ((List.cons.inj heq).1.trans hz) hc
  · intro hd
    exact ⟨[], c, rest, rfl, List.forall_mem_nil _, hd, hc⟩

theorem readDigits_pos {base acc : Nat} (hbase : 0 < base) (hacc : 0 < acc)
    (text : List Char) : 0 < readDigits base acc text := by
  induction text generalizing acc with
  | nil => exact hacc
  | cons c rest ih =>
      exact ih (Nat.lt_of_lt_of_le (Nat.mul_pos hacc hbase)
        (Nat.le_add_right _ _))

/-- The digits at the front of a text are a number other than zero. -/
theorem readDigits_takeWhile_ne_zero_iff {text : List Char} :
    readDigits 16 0 (text.takeWhile (isDigitOf 16)) ≠ 0 ↔
      LeadsNonzero text := by
  induction text with
  | nil => simp [readDigits, LeadsNonzero]
  | cons c rest ih =>
      by_cases hzero : c = '0'
      · subst hzero
        rw [leadsNonzero_zero, ← ih,
          List.takeWhile_cons_of_pos (show isDigitOf 16 '0' = true by decide)]
        rfl
      · rw [leadsNonzero_cons hzero]
        by_cases hdigit : isDigitOf 16 c = true
        · obtain ⟨d, hd⟩ : ∃ d, digitValue? c = some d := by
            cases hvalue : digitValue? c with
            | none => simp [isDigitOf, hvalue] at hdigit
            | some d => exact ⟨d, rfl⟩
          have hpos : 0 < d := by
            apply Nat.pos_of_ne_zero
            rintro rfl
            exact hzero (digitValue?_eq_zero_iff.1 hd)
          have hread := readDigits_pos (show 0 < 16 by omega) hpos
            (rest.takeWhile (isDigitOf 16))
          rw [List.takeWhile_cons_of_pos hdigit, readDigits, hd]
          simp only [Nat.zero_mul, Nat.zero_add, Option.getD_some]
          exact iff_of_true hread.ne' hdigit
        · rw [List.takeWhile_cons_of_neg hdigit]
          simp [readDigits, hdigit]

/-- The text behind a sign. -/
def skipSign : List Char → List Char
  | '+' :: rest => rest
  | '-' :: rest => rest
  | text => text

/-- `strtoul` gives zero exactly if the digits it reads do: saturation and a
minus sign keep other numbers away from zero. -/
theorem strtoul_ne_zero_iff_digits {base : Nat} {text : List Char} :
    strtoul base text ≠ 0 ↔ readDigits base 0 ((skipHexPrefix base
      (skipSign (text.dropWhile isSpace))).takeWhile (isDigitOf base)) ≠ 0 := by
  have hsign : ∀ body : List Char,
      (if (body.head? == some '-') || body.head? == some '+' then body.tail
        else body) = skipSign body := by
    intro body
    cases body with
    | nil => rfl
    | cons c rest =>
        by_cases hplus : c = '+'
        · subst hplus
          rfl
        · by_cases hminus : c = '-'
          · subst hminus
            rfl
          · simp [skipSign, hplus, hminus]
  unfold strtoul
  simp only [hsign]
  generalize readDigits base 0 _ = value
  by_cases hbig : 2 ^ 32 ≤ value
  · rw [if_pos hbig]
    exact iff_of_true (by decide) (by omega)
  · have hvalue : UInt32.ofNat value = 0 ↔ value = 0 := by
      rw [← UInt32.toNat_inj, UInt32.toNat_ofNat', Nat.mod_eq_of_lt (by omega)]
      rfl
    rw [if_neg hbig]
    split
    · rw [UInt32.zero_sub, UInt32.neg_ne_zero, ne_eq, hvalue]
    · rw [ne_eq, hvalue]

theorem LeadsNonzero.head {text : List Char} (h : LeadsNonzero text) :
    ∃ c rest, text = c :: rest ∧ isDigitOf 16 c = true := by
  obtain ⟨zeros, d, rest, rfl, hzeros, hd, -⟩ := h
  cases zeros with
  | nil => exact ⟨d, rest, rfl, hd⟩
  | cons z zeros =>
      refine ⟨z, zeros ++ d :: rest, rfl, ?_⟩
      rw [hzeros z List.mem_cons_self]
      decide

theorem leadsNonzero_skipHexPrefix_iff {text : List Char} :
    LeadsNonzero (skipHexPrefix 16 text) ↔
      ∃ pre back, text = pre ++ back ∧ pre ∈ hexPrefixes ∧
        LeadsNonzero back := by
  have hx : isDigitOf 16 'x' = false ∧ isDigitOf 16 'X' = false := by decide
  constructor
  · intro h
    unfold skipHexPrefix at h
    split at h
    · next x c rest =>
      split at h
      · next hskip =>
        refine ⟨['0', x], c :: rest, rfl, ?_, h⟩
        rcases hskip.2.1 with rfl | rfl <;> decide
      · exact ⟨[], _, rfl, by decide, h⟩
    · exact ⟨[], text, rfl, by decide, h⟩
  · rintro ⟨pre, back, rfl, hpre, hback⟩
    obtain ⟨c, rest, rfl, hc⟩ := hback.head
    simp only [hexPrefixes, List.mem_cons, List.not_mem_nil, or_false] at hpre
    rcases hpre with rfl | rfl | rfl
    · -- A `0x` in front would be a zero with no digit behind it.
      rw [List.nil_append]
      unfold skipHexPrefix
      split
      · next x d rest' heq =>
        have hzero := heq ▸ hback
        obtain ⟨y, back, hy, hdigit⟩ := (leadsNonzero_zero.1 hzero).head
        obtain ⟨rfl, -⟩ := List.cons.inj hy
        rw [if_neg, ← heq]
        · exact hback
        · rintro ⟨-, rfl | rfl, -⟩
          · simp [hx.1] at hdigit
          · simp [hx.2] at hdigit
      · exact hback
    · simpa [skipHexPrefix, hc] using hback
    · simpa [skipHexPrefix, hc] using hback

theorem LeadsNonzero.prefixed_head {pre back : List Char}
    (hpre : pre ∈ hexPrefixes) (h : LeadsNonzero back) :
    ∃ c rest, pre ++ back = c :: rest ∧ isDigitOf 16 c = true := by
  simp only [hexPrefixes, List.mem_cons, List.not_mem_nil, or_false] at hpre
  rcases hpre with rfl | rfl | rfl
  · exact h.head
  · exact ⟨'0', 'x' :: back, rfl, by decide⟩
  · exact ⟨'0', 'X' :: back, rfl, by decide⟩

theorem skipSign_of_digit {c : Char} {rest : List Char}
    (h : isDigitOf 16 c = true) : skipSign (c :: rest) = c :: rest := by
  unfold skipSign
  split
  · next heq =>
    rw [(List.cons.inj heq).1] at h
    exact absurd h (by decide)
  · next heq =>
    rw [(List.cons.inj heq).1] at h
    exact absurd h (by decide)
  · rfl

theorem leadsNonzero_skipSign_iff {text : List Char} :
    LeadsNonzero (skipHexPrefix 16 (skipSign text)) ↔
      ∃ sign pre back, text = sign ++ (pre ++ back) ∧
        sign ∈ [[], ['+'], ['-']] ∧ pre ∈ hexPrefixes ∧ LeadsNonzero back := by
  rw [leadsNonzero_skipHexPrefix_iff]
  constructor
  · rintro ⟨pre, back, heq, hpre, hback⟩
    unfold skipSign at heq
    split at heq
    · exact ⟨['+'], pre, back, by rw [heq]; rfl, by decide, hpre, hback⟩
    · exact ⟨['-'], pre, back, by rw [heq]; rfl, by decide, hpre, hback⟩
    · exact ⟨[], pre, back, heq, by decide, hpre, hback⟩
  · rintro ⟨sign, pre, back, rfl, hsign, hpre, hback⟩
    refine ⟨pre, back, ?_, hpre, hback⟩
    simp only [List.mem_cons, List.not_mem_nil, or_false] at hsign
    rcases hsign with rfl | rfl | rfl
    · obtain ⟨c, rest, heq, hc⟩ := hback.prefixed_head hpre
      rw [List.nil_append, heq, skipSign_of_digit hc]
    · rfl
    · rfl

/-- What `strtoul` skips, in terms of what it finds behind. -/
theorem spellsNonzero_iff {text : List Char} :
    SpellsNonzero text ↔
      LeadsNonzero (skipHexPrefix 16 (skipSign (text.dropWhile isSpace))) := by
  rw [leadsNonzero_skipSign_iff]
  symm
  constructor
  · rintro ⟨sign, pre, back, heq, hsign, hpre, hback⟩
    refine ⟨text.takeWhile isSpace, sign, pre, back, ?_,
      fun c hc => List.mem_takeWhile_imp hc, hsign, hpre, hback⟩
    rw [← heq, List.takeWhile_append_dropWhile]
  · rintro ⟨blanks, sign, pre, back, rfl, hblanks, hsign, hpre, hback⟩
    refine ⟨sign, pre, back, ?_, hsign, hpre, hback⟩
    have hhead : ∃ c rest, sign ++ (pre ++ back) = c :: rest ∧
        isSpace c = false := by
      simp only [List.mem_cons, List.not_mem_nil, or_false] at hsign
      rcases hsign with rfl | rfl | rfl
      · obtain ⟨c, rest, heq, hc⟩ := hback.prefixed_head hpre
        exact ⟨c, rest, heq, not_isSpace_of_isDigitOf hc⟩
      · exact ⟨'+', pre ++ back, rfl, by decide⟩
      · exact ⟨'-', pre ++ back, rfl, by decide⟩
    obtain ⟨c, rest, heq, hc⟩ := hhead
    rw [List.dropWhile_append_of_pos hblanks, heq,
      List.dropWhile_cons_of_neg (by simp [hc])]

/-- The texts that `strtoul` does not read as zero. -/
theorem strtoul_ne_zero_iff {text : List Char} :
    strtoul 16 text ≠ 0 ↔ SpellsNonzero text := by
  rw [strtoul_ne_zero_iff_digits, readDigits_takeWhile_ne_zero_iff,
    spellsNonzero_iff]

theorem LeadsNonzero.spells {text : List Char} (h : LeadsNonzero text) :
    SpellsNonzero text :=
  ⟨[], [], [], text, rfl, List.forall_mem_nil _, by decide, by decide, h⟩

/-- A prefix is skipped once more. -/
theorem SpellsNonzero.of_prefixed {x : Char} {rest : List Char}
    (hx : x = 'x' ∨ x = 'X') (h : SpellsNonzero ('0' :: x :: rest)) :
    SpellsNonzero rest := by
  have hnotDigit : isDigitOf 16 x = false := by
    rcases hx with rfl | rfl <;> decide
  have hspace : isSpace '0' = false := by decide
  rw [spellsNonzero_iff, List.dropWhile_cons_of_neg (by simp [hspace]),
    skipSign_of_digit (show isDigitOf 16 '0' = true by decide),
    leadsNonzero_skipHexPrefix_iff] at h
  obtain ⟨pre, back, heq, hpre, hback⟩ := h
  simp only [hexPrefixes, List.mem_cons, List.not_mem_nil, or_false] at hpre
  rcases hpre with rfl | rfl | rfl
  · obtain rfl : '0' :: x :: rest = back := heq
    obtain ⟨c, rest', hc, hdigit⟩ := (leadsNonzero_zero.1 hback).head
    rw [(List.cons.inj hc).1, hdigit] at hnotDigit
    cases hnotDigit
  · obtain rfl := (List.cons.inj (List.cons.inj heq).2).2
    exact hback.spells
  · obtain rfl := (List.cons.inj (List.cons.inj heq).2).2
    exact hback.spells

theorem SpellsNonzero.ne_nil {text : List Char} (h : SpellsNonzero text) :
    text ≠ [] := by
  rintro rfl
  rw [spellsNonzero_iff] at h
  obtain ⟨c, rest, heq, -⟩ := h.head
  cases heq

end FremSoft
