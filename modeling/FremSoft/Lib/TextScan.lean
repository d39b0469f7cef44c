/-
Reading a log line by line: the lines of a text, a literal or a number at the
front of a line, and byte strings written as hex pairs, as Python's
`str.splitlines`, anchored regular expressions and `bytes.fromhex` do.
-/
import FremSoft.Lib.Digits

namespace FremSoft

/-! ### Lines -/

/-- The characters at which `str.splitlines` ends a line. -/
def isLineBreak (c : Char) : Bool :=
  decide (c.toNat ∈
    [0x0A, 0x0B, 0x0C, 0x0D, 0x1C, 0x1D, 0x1E, 0x85, 0x2028, 0x2029])

/-- The lines of a text, behind the characters of the line already begun. -/
def splitlinesFrom (line : List Char) : List Char → List (List Char)
  | [] => if line = [] then [] else [line]
  | '\r' :: '\n' :: rest => line :: splitlinesFrom [] rest
  | c :: rest =>
      if isLineBreak c then line :: splitlinesFrom [] rest
      else splitlinesFrom (line ++ [c]) rest

def splitlines (text : List Char) : List (List Char) := splitlinesFrom [] text

theorem splitlinesFrom_cons {c : Char} (hc : isLineBreak c = false)
    (line rest : List Char) :
    splitlinesFrom line (c :: rest) = splitlinesFrom (line ++ [c]) rest := by
  have hcr : c ≠ '\r' := by
    rintro rfl
    exact absurd hc (by decide)
  rw [splitlinesFrom.eq_3 line c rest (fun _ h _ => hcr h)]
  simp [hc]

/-- A line that `'\n'` ends. -/
theorem splitlinesFrom_line {text : List Char}
    (htext : ∀ c ∈ text, isLineBreak c = false) (line rest : List Char) :
    splitlinesFrom line (text ++ '\n' :: rest) =
      (line ++ text) :: splitlinesFrom [] rest := by
  induction text generalizing line with
  | nil =>
      rw [List.nil_append, List.append_nil,
        splitlinesFrom.eq_3 line '\n' rest (by simp)]
      rfl
  | cons c text ih =>
      rw [List.cons_append, splitlinesFrom_cons (htext c List.mem_cons_self),
        ih (fun d hd => htext d (List.mem_cons_of_mem c hd))]
      simp

/-- A line that nothing ends, if it has been begun. -/
theorem splitlinesFrom_tail {text : List Char}
    (htext : ∀ c ∈ text, isLineBreak c = false) (line : List Char) :
    splitlinesFrom line text =
      if line ++ text = [] then [] else [line ++ text] := by
  induction text generalizing line with
  | nil => simp [splitlinesFrom]
  | cons c text ih =>
      rw [splitlinesFrom_cons (htext c List.mem_cons_self),
        ih (fun d hd => htext d (List.mem_cons_of_mem c hd))]
      simp

/-- Splitting a text of lines that stops inside a line, or behind one. -/
theorem splitlines_flatMap_append {α : Type} {write : α → List Char}
    {l : List α} (hwrite : ∀ a ∈ l, ∀ c ∈ write a, isLineBreak c = false)
    {part : List Char} (hpart : ∀ c ∈ part, isLineBreak c = false) :
    splitlines ((l.flatMap fun a => write a ++ ['\n']) ++ part) =
      l.map write ++ if part = [] then [] else [part] := by
  rw [splitlines]
  induction l with
  | nil => exact splitlinesFrom_tail hpart []
  | cons a l ih =>
      have ha := splitlinesFrom_line (hwrite a List.mem_cons_self) []
        ((l.flatMap fun a => write a ++ ['\n']) ++ part)
      rw [ih fun b hb => hwrite b (List.mem_cons_of_mem a hb)] at ha
      rw [List.flatMap_cons, List.append_assoc, List.append_assoc]
      exact ha

/-- Writing lines and splitting the text gives the lines back. -/
theorem splitlines_flatMap {α : Type} {write : α → List Char} {l : List α}
    (hwrite : ∀ a ∈ l, ∀ c ∈ write a, isLineBreak c = false) :
    splitlines (l.flatMap fun a => write a ++ ['\n']) = l.map write := by
  simpa using splitlines_flatMap_append hwrite (List.forall_mem_nil _)

/-- Cutting what is written of a list cuts one element. -/
theorem take_flatMap {α β : Type} (write : α → List β) {l : List α} {p : Nat}
    (hp : p < (l.flatMap write).length) :
    ∃ front a back q, l = front ++ a :: back ∧ q < (write a).length ∧
      p = (front.flatMap write).length + q ∧
      (l.flatMap write).take p = front.flatMap write ++ (write a).take q := by
  induction l generalizing p with
  | nil => simp at hp
  | cons a l ih =>
      by_cases hfirst : p < (write a).length
      · refine ⟨[], a, l, p, rfl, hfirst, by simp, ?_⟩
        rw [List.flatMap_cons, List.take_append_of_le_length hfirst.le]
        rfl
      · obtain ⟨n, rfl⟩ := Nat.exists_eq_add_of_le (Nat.le_of_not_lt hfirst)
        rw [List.flatMap_cons, List.length_append] at hp
        obtain ⟨front, b, back, q, rfl, hq, rfl, htake⟩ :=
          ih (Nat.lt_of_add_lt_add_left hp)
        refine ⟨a :: front, b, back, q, rfl, hq, ?_, ?_⟩
        · rw [List.flatMap_cons, List.length_append, Nat.add_assoc]
        · rw [List.flatMap_cons, List.take_length_add_append, htake,
            List.flatMap_cons, List.append_assoc]

/-! ### Fields -/

/-- Fields that a separator ends, and what stands behind them. -/
def fielded {α : Type} (sep : α) : List (List α) → List α → List α
  | [], rest => rest
  | field :: fields, rest => field ++ sep :: fielded sep fields rest

theorem fielded_append {α : Type} (sep : α) (fields : List (List α))
    (rest back : List α) :
    fielded sep fields (rest ++ back) = fielded sep fields rest ++ back := by
  induction fields with
  | nil => rfl
  | cons field fields ih => rw [fielded, ih, fielded]; simp

/-- Texts that agree up to a separator agree behind it. -/
theorem separated_isPrefix {α : Type} {sep : α}
    {front front' back back' : List α} (hfront : sep ∉ front)
    (hfront' : sep ∉ front')
    (h : front ++ sep :: back <+: front' ++ sep :: back') :
    front = front' ∧ back <+: back' := by
  induction front generalizing front' with
  | nil =>
      cases front' with
      | nil => exact ⟨rfl, (List.cons_prefix_cons.1 h).2⟩
      | cons c front' =>
          have hc := (List.cons_prefix_cons.1 h).1
          exact absurd (hc ▸ List.mem_cons_self) hfront'
  | cons c front ih =>
      cases front' with
      | nil =>
          have hc := (List.cons_prefix_cons.1 h).1
          exact absurd (hc ▸ List.mem_cons_self) hfront
      | cons d front' =>
          obtain ⟨rfl, hrest⟩ := List.cons_prefix_cons.1 h
          obtain ⟨rfl, hback⟩ := ih (List.not_mem_of_not_mem_cons hfront)
            (List.not_mem_of_not_mem_cons hfront') hrest
          exact ⟨rfl, hback⟩

/-- A text that goes on behind as many fields as another has the same
fields. -/
theorem fielded_isPrefix {α : Type} {sep : α} {fields fields' : List (List α)}
    {rest rest' : List α} (hfields : ∀ f ∈ fields, sep ∉ f)
    (hfields' : ∀ f ∈ fields', sep ∉ f)
    (hlength : fields.length = fields'.length)
    (h : fielded sep fields rest <+: fielded sep fields' rest') :
    fields = fields' ∧ rest <+: rest' := by
  induction fields generalizing fields' with
  | nil =>
      obtain rfl := List.length_eq_zero_iff.1 hlength.symm
      exact ⟨rfl, h⟩
  | cons f fields ih =>
      cases fields' with
      | nil => simp at hlength
      | cons g fields' =>
          rw [List.forall_mem_cons] at hfields hfields'
          obtain ⟨rfl, hrest⟩ := separated_isPrefix hfields.1 hfields'.1 h
          obtain ⟨rfl, hback⟩ := ih hfields.2 hfields'.2
            (Nat.succ.inj hlength) hrest
          exact ⟨rfl, hback⟩

/-! ### The front of a line -/

def matchText (text line : List Char) : Option (List Char) :=
  if text.isPrefixOf line then some (line.drop text.length) else none

/-- `(\d+)` on ASCII text; other decimal digits of Unicode are no digits here. -/
def matchNumber (line : List Char) : Option (Nat × List Char) :=
  let digits := line.takeWhile (isDigitOf 10)
  if digits = [] then none
  else some (readDigits 10 0 digits, line.drop digits.length)

theorem matchText_append (text rest : List Char) :
    matchText text (text ++ rest) = some rest := by
  simp [matchText]

theorem matchText_eq_some {text line rest : List Char}
    (h : matchText text line = some rest) : line = text ++ rest := by
  rw [matchText] at h
  split at h
  · next hprefix =>
    obtain ⟨back, rfl⟩ := List.isPrefixOf_iff_prefix.1 hprefix
    simpa using h
  · cases h

theorem matchNumber_eq_some {line rest : List Char} {n : Nat}
    (h : matchNumber line = some (n, rest)) :
    ∃ digits, line = digits ++ rest ∧ digits ≠ [] ∧
      (∀ c ∈ digits, isDigitOf 10 c = true) ∧ readDigits 10 0 digits = n := by
  refine ⟨line.takeWhile (isDigitOf 10), ?_⟩
  simp only [matchNumber] at h
  split at h
  · cases h
  · next hne =>
    obtain ⟨hn, rfl⟩ : readDigits 10 0 (line.takeWhile (isDigitOf 10)) = n ∧
        line.drop (line.takeWhile (isDigitOf 10)).length = rest := by
      simpa using h
    refine ⟨?_, hne, fun c hc => List.mem_takeWhile_imp hc, hn⟩
    have hfront : line.take (line.takeWhile (isDigitOf 10)).length =
        line.takeWhile (isDigitOf 10) :=
      (List.prefix_iff_eq_take.1 (List.takeWhile_prefix _)).symm
    rw [← hfront, List.length_take, Nat.min_eq_left]
    · exact (List.take_append_drop _ _).symm
    · exact (List.takeWhile_prefix _).length_le

/-- A number is read up to the first character that is no digit. -/
theorem matchNumber_writeDigits (n : Nat) {c : Char}
    (hc : isDigitOf 10 c = false) (rest : List Char) :
    matchNumber (writeDigits lowerDigit 10 n ++ c :: rest) =
      some (n, c :: rest) := by
  have htake : (writeDigits lowerDigit 10 n ++ c :: rest).takeWhile
      (isDigitOf 10) = writeDigits lowerDigit 10 n := by
    rw [List.takeWhile_append, List.takeWhile_eq_self_iff.2
      (isDigitOf_decimal n)]
    simp [hc]
  simp only [matchNumber, htake, writeDigits_ne_nil lowerDigit, if_false,
    readDigits_decimal n, List.drop_left]

/-! ### Bytes -/

def hexDigit? (c : Char) : Option Nat :=
  match digitValue? c with
  | some d => if d < 16 then some d else none
  | none => none

/-- `bytes.fromhex`: pairs of hex digits, with white space between pairs. -/
def fromHex : List Char → Option (List UInt8)
  | [] => some []
  | [c] => if isSpace c then some [] else none
  | c :: d :: rest =>
      if isSpace c then fromHex (d :: rest)
      else
        match hexDigit? c, hexDigit? d with
        | some h, some l => (fromHex rest).map (UInt8.ofNat (16 * h + l) :: ·)
        | _, _ => none

theorem hexDigit?_upperDigit :
    ∀ d, d < 16 → hexDigit? (upperDigit d) = some d := by
  decide

theorem isSpace_upperDigit : ∀ d, d < 16 → isSpace (upperDigit d) = false := by
  decide

theorem fromHex_hexByte (b : UInt8) (rest : List Char) :
    fromHex (hexByte upperDigit b ++ rest) = (fromHex rest).map (b :: ·) := by
  have hb := b.toNat_lt
  have hhigh : b.toNat / 16 < 16 := by omega
  have hlow : b.toNat % 16 < 16 := by omega
  have hvalue : 16 * (b.toNat / 16) + b.toNat % 16 = b.toNat := by omega
  simp only [hexByte, List.cons_append, List.nil_append, fromHex,
    isSpace_upperDigit _ hhigh, hexDigit?_upperDigit _ hhigh,
    hexDigit?_upperDigit _ hlow, hvalue, UInt8.ofNat_toNat, Bool.false_eq_true,
    if_false]

theorem filter_hexByte_append {digit : Nat → Char}
    (hblank : ∀ d, d < 16 → digit d ≠ ' ') (b : UInt8) (back : List Char) :
    (hexByte digit b ++ back).filter (fun c => decide (c ≠ ' ')) =
      hexByte digit b ++ back.filter fun c => decide (c ≠ ' ') := by
  have hb := b.toNat_lt
  have hhigh := hblank (b.toNat / 16) (by omega)
  have hlow := hblank (b.toNat % 16) (by omega)
  simp [hexByte, hhigh, hlow]

/-- Without its blanks a spaced hex dump is the hex pairs one after another. -/
theorem filter_spacedHex {digit : Nat → Char}
    (hblank : ∀ d, d < 16 → digit d ≠ ' ') (bytes : List UInt8) :
    (spacedHex digit bytes).filter (fun c => decide (c ≠ ' ')) =
      bytes.flatMap (hexByte digit) := by
  induction bytes with
  | nil => rfl
  | cons b rest ih =>
      cases rest with
      | nil => simpa [spacedHex] using filter_hexByte_append hblank b []
      | cons c rest =>
          rw [spacedHex, filter_hexByte_append hblank, List.flatMap_cons, ← ih]
          simp

theorem upperDigit_ne_blank : ∀ d, d < 16 → upperDigit d ≠ ' ' := by decide

theorem length_spacedHex (digit : Nat → Char) (bytes : List UInt8) :
    (spacedHex digit bytes).length = 3 * bytes.length - 1 := by
  induction bytes with
  | nil => rfl
  | cons b rest ih =>
      cases rest with
      | nil => rfl
      | cons c rest =>
          simp only [spacedHex, List.length_append, ih, hexByte,
            List.length_cons, List.length_nil]
          omega

/-- A hex dump that stops early is read up to its last whole byte, unless it
stops inside a byte. -/
theorem fromHex_take_spacedHex (bytes : List UInt8) {m : Nat}
    (hm : m ≤ (spacedHex upperDigit bytes).length) :
    fromHex (((spacedHex upperDigit bytes).take m).filter
        (fun c => decide (c ≠ ' '))) =
      if m % 3 = 1 then none else some (bytes.take ((m + 1) / 3)) := by
  induction bytes generalizing m with
  | nil =>
      obtain rfl : m = 0 := by simpa [spacedHex] using hm
      rfl
  | cons b rest ih =>
      have hb := b.toNat_lt
      have hhigh : b.toNat / 16 < 16 := by omega
      obtain ⟨back, hback⟩ : ∃ back, spacedHex upperDigit (b :: rest) =
          hexByte upperDigit b ++ back := by
        cases rest with
        | nil => exact ⟨[], (List.append_nil _).symm⟩
        | cons c rest => exact ⟨_, rfl⟩
      match m with
      | 0 => rfl
      | 1 =>
          rw [hback]
          simp [hexByte, fromHex, upperDigit_ne_blank _ hhigh,
            isSpace_upperDigit _ hhigh]
      | 2 =>
          have htake : (spacedHex upperDigit (b :: rest)).take 2 =
              hexByte upperDigit b ++ [] := by
            rw [hback]
            rfl
          rw [htake, filter_hexByte_append upperDigit_ne_blank,
            List.filter_nil, fromHex_hexByte]
          rfl
      | k + 3 =>
          cases rest with
          | nil => simp [spacedHex, hexByte] at hm
          | cons c rest =>
              have htake : (spacedHex upperDigit (b :: c :: rest)).take
                  (k + 3) = hexByte upperDigit b ++
                    ' ' :: (spacedHex upperDigit (c :: rest)).take k := rfl
              have hk : k ≤ (spacedHex upperDigit (c :: rest)).length := by
                simpa [spacedHex, hexByte] using hm
              have hdiv : (k + 3 + 1) / 3 = (k + 1) / 3 + 1 := by omega
              rw [htake, filter_hexByte_append upperDigit_ne_blank,
                List.filter_cons_of_neg (by simp), fromHex_hexByte, ih hk,
                Nat.add_mod_right, hdiv, List.take_succ_cons]
              split <;> rfl

/-- A spaced hex dump is read back. -/
theorem fromHex_spacedHex (bytes : List UInt8) :
    fromHex ((spacedHex upperDigit bytes).filter
      (fun c => decide (c ≠ ' '))) = some bytes := by
  rw [filter_spacedHex upperDigit_ne_blank]
  induction bytes with
  | nil => rfl
  | cons b rest ih => rw [List.flatMap_cons, fromHex_hexByte, ih]; rfl

end FremSoft
