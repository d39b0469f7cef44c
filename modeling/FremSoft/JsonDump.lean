/-
`json.dumps(out, indent=2)` as `build_recording.py` calls it: strings escaped
down to ASCII, one member or element on each line.  What it writes is a text of
the document, so jsmn reads it.
-/
import FremSoft.BuildRecording
import FremSoft.JsonSpelling

namespace FremSoft

/-! ### Strings -/

/-- `'\\u{0:04x}'.format(n)` -/
def unicodeEscape (n : Nat) : List Char :=
  ['\\', 'u', lowerDigit (n / 4096 % 16), lowerDigit (n / 256 % 16),
    lowerDigit (n / 16 % 16), lowerDigit (n % 16)]

/-- `replace` of `py_encode_basestring_ascii`. -/
def escapeChar (c : Char) : List Char :=
  if c = '"' then ['\\', '"']
  else if c = '\\' then ['\\', '\\']
  else if ' ' ≤ c ∧ c ≤ '~' then [c]
  else if c = '\n' then ['\\', 'n']
  else if c = '\r' then ['\\', 'r']
  else if c = '\t' then ['\\', 't']
  else if c = Char.ofNat 0x0C then ['\\', 'f']
  else if c = Char.ofNat 0x08 then ['\\', 'b']
  else if c.toNat < 0x10000 then unicodeEscape c.toNat
  else
    let n := c.toNat - 0x10000
    unicodeEscape (0xD800 ||| ((n >>> 10) &&& 0x3FF)) ++
      unicodeEscape (0xDC00 ||| (n &&& 0x3FF))

def escapeString (s : List Char) : List Char := s.flatMap escapeChar

theorem RawString.append {front back : List Char} (hfront : RawString front)
    (hback : RawString back) : RawString (front ++ back) := by
  induction hfront with
  | nil => exact hback
  | plain hquote hescape hnul _ ih => exact .plain hquote hescape hnul ih
  | escape hc _ ih => exact .escape hc ih
  | unicode hdigits _ ih => exact .unicode hdigits ih

theorem isHexDigit_lowerDigit :
    ∀ d, d < 16 → isHexDigit (lowerDigit d) = true := by decide

theorem rawString_unicodeEscape (n : Nat) : RawString (unicodeEscape n) := by
  refine .unicode (fun c hc => ?_) .nil
  simp only [List.mem_cons, List.not_mem_nil, or_false] at hc
  rcases hc with rfl | rfl | rfl | rfl <;>
    exact isHexDigit_lowerDigit _ (by omega)

theorem rawString_escapeChar (c : Char) : RawString (escapeChar c) := by
  unfold escapeChar
  split
  · exact .escape rfl .nil
  · split
    · exact .escape rfl .nil
    · rename_i hquote hescape
      split
      · rename_i hprintable
        refine .plain hquote hescape ?_ .nil
        rintro rfl
        exact absurd hprintable.1 (by decide)
      · split
        · exact .escape rfl .nil
        split
        · exact .escape rfl .nil
        split
        · exact .escape rfl .nil
        split
        · exact .escape rfl .nil
        split
        · exact .escape rfl .nil
        split
        · exact rawString_unicodeEscape _
        · exact (rawString_unicodeEscape _).append (rawString_unicodeEscape _)

/-- What `json.dumps` writes between quotes is what jsmn takes for a string. -/
theorem rawString_escapeString (s : List Char) :
    RawString (escapeString s) := by
  induction s with
  | nil => exact .nil
  | cons c s ih => exact (rawString_escapeChar c).append ih

/-! ### Values -/

/-- `newline_indent`; `nl` is what the text file makes of `'\n'`. -/
def newlineIndent (nl : List Char) (level : Nat) : List Char :=
  nl ++ List.replicate (2 * level) ' '

mutual

/-- `_iterencode` with `indent=2`. -/
def Json.dump (nl : List Char) (level : Nat) : Json → List Char
  | .str raw => '"' :: (raw ++ ['"'])
  | .prim raw => raw
  | .arr [] => ['[', ']']
  | .arr (item :: rest) =>
      '[' :: (newlineIndent nl (level + 1) ++
        (dumpItems nl (level + 1) (item :: rest) ++
          (newlineIndent nl level ++ [']'])))
  | .obj [] => ['{', '}']
  | .obj (m :: rest) =>
      '{' :: (newlineIndent nl (level + 1) ++
        (dumpMembers nl (level + 1) (m :: rest) ++
          (newlineIndent nl level ++ ['}'])))

def dumpItems (nl : List Char) (level : Nat) : List Json → List Char
  | [] => []
  | [item] => item.dump nl level
  | item :: next :: rest =>
      item.dump nl level ++ ',' :: (newlineIndent nl level ++
        dumpItems nl level (next :: rest))

def dumpMembers (nl : List Char) (level : Nat) :
    List (List Char × Json) → List Char
  | [] => []
  | [(name, value)] =>
      '"' :: (name ++ '"' :: ':' :: ' ' :: value.dump nl level)
  | (name, value) :: next :: rest =>
      '"' :: (name ++ '"' :: ':' :: ' ' :: (value.dump nl level ++
        ',' :: (newlineIndent nl level ++ dumpMembers nl level (next :: rest))))

end

theorem blank_newlineIndent {nl : List Char} (hnl : Blank nl) (level : Nat) :
    Blank (newlineIndent nl level) := by
  intro c hc
  rcases List.mem_append.1 hc with hc | hc
  · exact hnl c hc
  · rw [(List.mem_replicate.1 hc).2]
    rfl

theorem Blank.append {front back : List Char} (hfront : Blank front)
    (hback : Blank back) : Blank (front ++ back) := by
  intro c hc
  rcases List.mem_append.1 hc with hc | hc
  · exact hfront c hc
  · exact hback c hc

section Dump

variable {nl : List Char}

mutual

theorem Json.spelled_dump (hnl : Blank nl) : ∀ (value : Json) (level : Nat),
    value.Writable → value.Spelled (value.dump nl level)
  | .str _, _, h => ⟨h, rfl⟩
  | .prim _, _, h => ⟨h, rfl⟩
  | .arr [], _, _ => ⟨[], blank_nil, rfl⟩
  | .arr (item :: rest), level, h => by
      refine ⟨_, itemsSpelled_dump hnl (item :: rest) (level + 1) h (by simp)
        (blank_newlineIndent hnl (level + 1)) (blank_newlineIndent hnl level),
        ?_⟩
      simp [Json.dump]
  | .obj [], _, _ => ⟨[], blank_nil, rfl⟩
  | .obj (m :: rest), level, h => by
      refine ⟨_, membersSpelled_dump hnl (m :: rest) (level + 1) h (by simp)
        (blank_newlineIndent hnl (level + 1)) (blank_newlineIndent hnl level),
        ?_⟩
      simp [Json.dump]

theorem itemsSpelled_dump (hnl : Blank nl) : ∀ (items : List Json)
    (level : Nat), ItemsWritable items → items ≠ [] →
    ∀ {pre post : List Char}, Blank pre → Blank post →
      ItemsSpelled items (pre ++ (dumpItems nl level items ++ post))
  | [], _, _, hne, _, _, _, _ => absurd rfl hne
  | [item], level, h, _, pre, post, hpre, hpost =>
      ⟨pre, item.dump nl level, post, [], hpre,
        item.spelled_dump hnl level h.1, hpost, by simp [dumpItems],
        .inl ⟨rfl, rfl⟩⟩
  | item :: next :: rest, level, h, _, pre, post, hpre, hpost =>
      ⟨pre, item.dump nl level, [], _, hpre, item.spelled_dump hnl level h.1,
        blank_nil, by simp [dumpItems],
        .inr ⟨by simp, _, itemsSpelled_dump hnl (next :: rest) level h.2
          (by simp) (blank_newlineIndent hnl level) hpost, rfl⟩⟩

theorem membersSpelled_dump (hnl : Blank nl) :
    ∀ (members : List (List Char × Json)) (level : Nat),
    MembersWritable members → members ≠ [] →
    ∀ {pre post : List Char}, Blank pre → Blank post →
      MembersSpelled members (pre ++ (dumpMembers nl level members ++ post))
  | [], _, _, hne, _, _, _, _ => absurd rfl hne
  | [(name, value)], level, h, _, pre, post, hpre, hpost =>
      ⟨pre, [], [' '], value.dump nl level, post, [], hpre, h.1, blank_nil,
        by decide, value.spelled_dump hnl level h.2.1, hpost,
        by simp [dumpMembers], .inl ⟨rfl, rfl⟩⟩
  | (name, value) :: next :: rest, level, h, _, pre, post, hpre, hpost =>
      ⟨pre, [], [' '], value.dump nl level, [], _, hpre, h.1, blank_nil,
        by decide, value.spelled_dump hnl level h.2.1, blank_nil,
        by simp [dumpMembers],
        .inr ⟨by simp, _, membersSpelled_dump hnl (next :: rest) level h.2.2
          (by simp) (blank_newlineIndent hnl level) hpost, rfl⟩⟩

end

end Dump

end FremSoft
