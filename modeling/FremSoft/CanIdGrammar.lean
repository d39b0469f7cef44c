/-
Which texts `parse_can_id_str` takes for a CAN-ID.  All of the grammar are read
as the number they spell, but `strtoul` takes more than the grammar.
-/
import FremSoft.Lib.SpelledNumber
import FremSoft.Recording

namespace FremSoft

/-- The text spells `v`: an optional prefix and hex digits, at most fifteen
characters in all, of a 32-bit number. -/
structure IsCanIdText (s : List Char) (v : Nat) : Prop where
  spelled : ∃ pre digits, s = pre ++ digits ∧ pre ∈ hexPrefixes ∧
    digits ≠ [] ∧ (∀ c ∈ digits, isDigitOf 16 c = true) ∧
    readDigits 16 0 digits = v
  range : v < 2 ^ 32
  fits : s.length ≤ 15

/-- `parse_can_id_str` reads the text by the grammar: its number, or zero if it
is no CAN-ID. -/
structure ReadByGrammar (s : List Char) : Prop where
  number : ∀ v, IsCanIdText s v → (parseCanIdStr s).toNat = v
  zero : (∀ v, ¬IsCanIdText s v) → parseCanIdStr s = 0

/-- The text is no CAN-ID, but fits the buffer and has, behind an optional
prefix, what `strtoul` reads as a number other than zero. -/
structure TakenForNumber (s : List Char) : Prop where
  noCanId : ∀ v, ¬IsCanIdText s v
  fits : s.length ≤ 15
  spells : ∃ pre text, s = pre ++ text ∧ pre ∈ hexPrefixes ∧
    SpellsNonzero text

/-- The two ways through the function for a text that fits the buffer: a prefix
is dropped if anything follows it. -/
theorem parseCanIdStr_cases {s : List Char} (hne : s ≠ [])
    (hfits : s.length ≤ 15) :
    (∃ x rest, s = '0' :: x :: rest ∧ (x = 'x' ∨ x = 'X') ∧ rest ≠ [] ∧
        parseCanIdStr s = strtoul 16 rest) ∨
      (∀ x rest, s = '0' :: x :: rest → (x = 'x' ∨ x = 'X') → rest = []) ∧
        parseCanIdStr s = strtoul 16 s := by
  have hlength : ¬(s.length = 0 ∨ 16 ≤ s.length) := by
    rw [List.length_eq_zero_iff]
    rintro (hnil | hlong)
    · exact hne hnil
    · omega
  unfold parseCanIdStr
  rw [if_neg hlength]
  split
  · next x c rest =>
    by_cases hx : x = 'x' ∨ x = 'X'
    · exact .inl ⟨x, c :: rest, rfl, hx, by simp, if_pos hx⟩
    · refine .inr ⟨fun y back heq hy => ?_, if_neg hx⟩
      simp only [List.cons.injEq, true_and] at heq
      exact absurd (heq.1 ▸ hy) hx
  · next hno =>
    refine .inr ⟨fun x rest heq _ => ?_, rfl⟩
    cases rest with
    | nil => rfl
    | cons c rest => exact absurd heq (hno x c rest)

theorem mem_hexPrefixes {pre : List Char} :
    pre ∈ hexPrefixes ↔
      pre = [] ∨ ∃ x, (x = 'x' ∨ x = 'X') ∧ pre = ['0', x] := by
  simp [hexPrefixes]

/-- The texts that `parse_can_id_str` does not read as zero. -/
theorem parseCanIdStr_ne_zero_iff {s : List Char} :
    parseCanIdStr s ≠ 0 ↔ s.length ≤ 15 ∧ ∃ pre text, s = pre ++ text ∧
      pre ∈ hexPrefixes ∧ SpellsNonzero text := by
  by_cases hlong : s.length = 0 ∨ 16 ≤ s.length
  · have hzero : parseCanIdStr s = 0 := if_pos hlong
    refine iff_of_false (fun hne => hne hzero) ?_
    rintro ⟨hfits, pre, text, rfl, -, hspells⟩
    have hpos := List.length_pos_of_ne_nil hspells.ne_nil
    rw [List.length_append] at hlong hfits
    omega
  · have hfits : s.length ≤ 15 := by omega
    have hne : s ≠ [] := by
      rintro rfl
      exact hlong (.inl rfl)
    rcases parseCanIdStr_cases hne hfits with
      ⟨x, rest, rfl, hx, -, hparse⟩ | ⟨hplain, hparse⟩
    · rw [hparse, strtoul_ne_zero_iff]
      constructor
      · intro h
        exact ⟨hfits, ['0', x], rest, rfl,
          mem_hexPrefixes.2 (.inr ⟨x, hx, rfl⟩), h⟩
      · rintro ⟨-, pre, text, heq, hpre, hspells⟩
        rcases mem_hexPrefixes.1 hpre with rfl | ⟨y, -, rfl⟩
        · obtain rfl : '0' :: x :: rest = text := heq
          exact hspells.of_prefixed hx
        · obtain rfl := (List.cons.inj (List.cons.inj heq).2).2
          exact hspells
    · rw [hparse, strtoul_ne_zero_iff]
      constructor
      · intro h
        exact ⟨hfits, [], s, rfl, by decide, h⟩
      · rintro ⟨-, pre, text, heq, hpre, hspells⟩
        rcases mem_hexPrefixes.1 hpre with rfl | ⟨y, hy, rfl⟩
        · obtain rfl : s = text := heq
          exact hspells
        · exact absurd (hplain y text heq hy) hspells.ne_nil

/-- A text of the grammar is read as its number. -/
theorem parseCanIdStr_of_isCanIdText {s : List Char} {v : Nat}
    (h : IsCanIdText s v) : parseCanIdStr s = UInt32.ofNat v := by
  obtain ⟨⟨pre, digits, rfl, hpre, hne, hdigits, rfl⟩, hrange, hfits⟩ := h
  have hread := strtoul_digits hne hdigits (le_refl 16) hrange
  have hsne : pre ++ digits ≠ [] := fun hnil =>
    hne (List.append_eq_nil_iff.1 hnil).2
  rcases parseCanIdStr_cases hsne hfits with
    ⟨x, rest, heq, hx, -, hparse⟩ | ⟨hplain, hparse⟩
  · rcases mem_hexPrefixes.1 hpre with rfl | ⟨y, -, rfl⟩
    · -- The prefix holds a letter that is no hex digit.
      have hdigit := hdigits x (by rw [← List.nil_append digits, heq]; simp)
      rcases hx with rfl | rfl <;> exact absurd hdigit (by decide)
    · have hrest : digits = rest := (List.cons.inj (List.cons.inj heq).2).2
      rw [hparse, ← hrest, hread]
  · rcases mem_hexPrefixes.1 hpre with rfl | ⟨y, hy, rfl⟩
    · rw [List.nil_append] at hparse ⊢
      rw [hparse, hread]
    · exact absurd (hplain y digits rfl hy) hne

/-- `parse_can_id_str` follows the grammar exactly on the texts it does not take
for a number by mistake. -/
theorem readByGrammar_iff (s : List Char) :
    ReadByGrammar s ↔ ¬TakenForNumber s := by
  constructor
  · intro hread htaken
    exact parseCanIdStr_ne_zero_iff.2 ⟨htaken.fits, htaken.spells⟩
      (hread.zero htaken.noCanId)
  · intro hnot
    refine ⟨fun v hv => ?_, fun hno => ?_⟩
    · rw [parseCanIdStr_of_isCanIdText hv, UInt32.toNat_ofNat',
        Nat.mod_eq_of_lt hv.range]
    · by_contra hne
      obtain ⟨hfits, hspells⟩ := parseCanIdStr_ne_zero_iff.1 hne
      exact hnot ⟨hno, hfits, hspells⟩

/-- A letter for a digit: `0x7EO` is read as `0x7E`. -/
theorem mistyped_canId_aliases :
    parseCanIdStr "0x7EO".toList = 0x7E ∧ ¬ReadByGrammar "0x7EO".toList := by
  refine ⟨by decide, fun hread => ?_⟩
  have hno : ∀ v, ¬IsCanIdText "0x7EO".toList v := by
    intro v h
    obtain ⟨pre, digits, heq, hpre, -, hdigits, -⟩ := h.spelled
    have hmem : 'O' ∈ pre ++ digits := by
      rw [← heq]
      decide
    rcases List.mem_append.1 hmem with hfront | hback
    · rcases mem_hexPrefixes.1 hpre with rfl | ⟨x, rfl | rfl, rfl⟩
      · cases hfront
      · exact absurd hfront (by decide)
      · exact absurd hfront (by decide)
    · exact absurd (hdigits 'O' hback) (by decide)
  exact absurd (hread.zero hno) (by decide)

end FremSoft
