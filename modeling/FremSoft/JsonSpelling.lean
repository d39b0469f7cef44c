/-
The texts of a JSON document: any white space between its tokens, and leaves
that stand for themselves.
-/
import FremSoft.Jsmn
import FremSoft.JsonText

namespace FremSoft

def Blank (text : List Char) : Prop := ∀ c ∈ text, isBlank c = true

instance (text : List Char) : Decidable (Blank text) :=
  List.decidableBAll _ _

/-- What may stand between the quotes of a string. -/
inductive RawString : List Char → Prop where
  | nil : RawString []
  | plain {c : Char} {rest : List Char} (hquote : c ≠ '"')
      (hescape : c ≠ '\\') (hnul : c ≠ Char.ofNat 0) :
      RawString rest → RawString (c :: rest)
  | escape {c : Char} {rest : List Char} (hc : isEscaped c = true) :
      RawString rest → RawString ('\\' :: c :: rest)
  | unicode {a b c d : Char} {rest : List Char}
      (hdigits : ∀ x ∈ [a, b, c, d], isHexDigit x = true) :
      RawString rest → RawString ('\\' :: 'u' :: a :: b :: c :: d :: rest)

/-- What may stand as a number, `true`, `false` or `null`. -/
structure RawPrimitive (raw : List Char) : Prop where
  first : ∃ c rest, raw = c :: rest ∧ c ≠ '"' ∧ c ≠ '{' ∧ c ≠ '['
  inner : ∀ c ∈ raw, endsPrimitive c = false ∧ 32 ≤ c.toNat ∧ c.toNat < 127

mutual

/-- `text` is a text of the value, without white space around it. -/
def Json.Spelled : Json → List Char → Prop
  | .str raw, text => RawString raw ∧ text = '"' :: (raw ++ ['"'])
  | .prim raw, text => RawPrimitive raw ∧ text = raw
  | .arr items, text =>
      ∃ inner, ItemsSpelled items inner ∧ text = '[' :: (inner ++ [']'])
  | .obj members, text =>
      ∃ inner, MembersSpelled members inner ∧ text = '{' :: (inner ++ ['}'])

def ItemsSpelled : List Json → List Char → Prop
  | [], text => Blank text
  | item :: rest, text =>
      ∃ pre body post tail, Blank pre ∧ item.Spelled body ∧ Blank post ∧
        text = pre ++ (body ++ (post ++ tail)) ∧
        ((rest = [] ∧ tail = []) ∨
          (rest ≠ [] ∧ ∃ more, ItemsSpelled rest more ∧ tail = ',' :: more))

def MembersSpelled : List (List Char × Json) → List Char → Prop
  | [], text => Blank text
  | (name, value) :: rest, text =>
      ∃ pre mid mid' body post tail, Blank pre ∧ RawString name ∧ Blank mid ∧
        Blank mid' ∧ value.Spelled body ∧ Blank post ∧
        text = pre ++ '"' :: (name ++ '"' :: (mid ++ ':' ::
          (mid' ++ (body ++ (post ++ tail))))) ∧
        ((rest = [] ∧ tail = []) ∨
          (rest ≠ [] ∧ ∃ more, MembersSpelled rest more ∧ tail = ',' :: more))

end

def Json.IsText (doc : Json) (js : List Char) : Prop :=
  ∃ pre body post, Blank pre ∧ doc.Spelled body ∧ Blank post ∧
    js = pre ++ (body ++ post)

mutual

/-- The leaves of a document can be written down as they are. -/
def Json.Writable : Json → Prop
  | .str raw => RawString raw
  | .prim raw => RawPrimitive raw
  | .arr items => ItemsWritable items
  | .obj members => MembersWritable members

def ItemsWritable : List Json → Prop
  | [] => True
  | item :: rest => item.Writable ∧ ItemsWritable rest

def MembersWritable : List (List Char × Json) → Prop
  | [] => True
  | (name, value) :: rest =>
      RawString name ∧ value.Writable ∧ MembersWritable rest

end

theorem blank_nil : Blank [] := by simp [Blank]

mutual

/-- The compact text is a text. -/
theorem Json.spelled_render : ∀ value : Json, value.Writable →
    value.Spelled value.render
  | .str _, h => ⟨h, rfl⟩
  | .prim _, h => ⟨h, rfl⟩
  | .arr items, h => ⟨renderItems items, itemsSpelled_render items h, rfl⟩
  | .obj members, h =>
      ⟨renderMembers members, membersSpelled_render members h, rfl⟩

theorem itemsSpelled_render : ∀ items : List Json, ItemsWritable items →
    ItemsSpelled items (renderItems items)
  | [], _ => blank_nil
  | [item], h =>
      ⟨[], item.render, [], [], blank_nil, item.spelled_render h.1, blank_nil,
        by simp [renderItems], .inl ⟨rfl, rfl⟩⟩
  | item :: next :: rest, h =>
      ⟨[], item.render, [], ',' :: renderItems (next :: rest), blank_nil,
        item.spelled_render h.1, blank_nil, by simp [renderItems],
        .inr ⟨by simp, _, itemsSpelled_render (next :: rest) h.2, rfl⟩⟩

theorem membersSpelled_render : ∀ members : List (List Char × Json),
    MembersWritable members → MembersSpelled members (renderMembers members)
  | [], _ => blank_nil
  | [(name, value)], h =>
      ⟨[], [], [], value.render, [], [], blank_nil, h.1, blank_nil, blank_nil,
        value.spelled_render h.2.1, blank_nil, by simp [renderMembers],
        .inl ⟨rfl, rfl⟩⟩
  | (name, value) :: next :: rest, h =>
      ⟨[], [], [], value.render, [], ',' :: renderMembers (next :: rest),
        blank_nil, h.1, blank_nil, blank_nil, value.spelled_render h.2.1,
        blank_nil, by simp [renderMembers],
        .inr ⟨by simp, _, membersSpelled_render (next :: rest) h.2.2, rfl⟩⟩

end

end FremSoft
