/-
JSON documents as trees, and what it means that a token array is the pre-order
tokenisation of a document: one token per node, containers before their
contents, with the node's kind, its number of children and, for a leaf, its
text between the token's offsets.
-/
import FremSoft.RecordingLoad

namespace FremSoft

/-- A JSON value.  Strings are held as they stand between the quotes. -/
inductive Json where
  | str (raw : List Char)
  | prim (raw : List Char)
  | arr (items : List Json)
  | obj (members : List (List Char × Json))

/-- One token of a document: what jsmn reports of it except its position. -/
structure TokShape where
  type : JsmnType
  size : Nat
  text : Option (List Char)
deriving DecidableEq, Repr

/-- The token of a member's key; a key is the parent of its value. -/
def TokShape.key (name : List Char) : TokShape :=
  { type := .string, size := 1, text := some name }

mutual

/-- The tokens of a value in pre-order. -/
def Json.flatten : Json → List TokShape
  | .str raw => [{ type := .string, size := 0, text := some raw }]
  | .prim raw => [{ type := .primitive, size := 0, text := some raw }]
  | .arr items =>
      { type := .array, size := items.length, text := none } ::
        flattenItems items
  | .obj members =>
      { type := .object, size := members.length, text := none } ::
        flattenMembers members

def flattenItems : List Json → List TokShape
  | [] => []
  | item :: rest => item.flatten ++ flattenItems rest

def flattenMembers : List (List Char × Json) → List TokShape
  | [] => []
  | (name, value) :: rest =>
      TokShape.key name :: (value.flatten ++ flattenMembers rest)

end

/-- A token reports this shape: its span lies in the text and, for a leaf,
spells the leaf. -/
def TokShape.Matches (json : List Char) (shape : TokShape) (tok : JsmnTok) :
    Prop :=
  tok.type = shape.type ∧ tok.size = shape.size ∧
    tok.start ≤ tok.stop ∧ tok.stop ≤ json.length ∧
    ∀ text ∈ shape.text, tokText json tok = text

/-- `toks` is what jsmn reports for the text `json` of the document `doc`; its
offsets are C `int`s. -/
structure Tokenises (json : List Char) (doc : Json) (toks : List JsmnTok) :
    Prop where
  fits : json.length < 2 ^ 31
  tokens : List.Forall₂ (TokShape.Matches json) doc.flatten toks

theorem flattenMembers_append (front back : List (List Char × Json)) :
    flattenMembers (front ++ back) =
      flattenMembers front ++ flattenMembers back := by
  induction front with
  | nil => rfl
  | cons m rest ih =>
      obtain ⟨name, value⟩ := m
      simp [flattenMembers, ih]

theorem Json.flatten_ne_nil (value : Json) : value.flatten ≠ [] := by
  cases value <;> simp [Json.flatten]

/-- A string token with this text: what `json_eq` tests. -/
def TokShape.spells (shape : TokShape) (s : List Char) : Bool :=
  shape.type == .string && shape.text == some s

/-- A string token has a text. -/
def TokShape.Proper (shape : TokShape) : Prop :=
  shape.type = .string → shape.text.isSome

@[simp] theorem TokShape.key_spells (name s : List Char) :
    (TokShape.key name).spells s = decide (name = s) := by
  by_cases h : name = s <;> simp [TokShape.spells, TokShape.key, h]

/-! Tokens of a document are proper. -/

mutual

theorem Json.flatten_proper : ∀ value : Json,
    ∀ shape ∈ value.flatten, shape.Proper
  | .str raw => by simp [Json.flatten, TokShape.Proper]
  | .prim raw => by simp [Json.flatten, TokShape.Proper]
  | .arr items => by
      simp only [Json.flatten, List.mem_cons, forall_eq_or_imp]
      exact ⟨by simp [TokShape.Proper], flattenItems_proper items⟩
  | .obj members => by
      simp only [Json.flatten, List.mem_cons, forall_eq_or_imp]
      exact ⟨by simp [TokShape.Proper], flattenMembers_proper members⟩

theorem flattenItems_proper : ∀ items : List Json,
    ∀ shape ∈ flattenItems items, shape.Proper
  | [] => by simp [flattenItems]
  | item :: rest => by
      simp only [flattenItems, List.mem_append]
      rintro shape (h | h)
      · exact Json.flatten_proper item shape h
      · exact flattenItems_proper rest shape h

theorem flattenMembers_proper : ∀ members : List (List Char × Json),
    ∀ shape ∈ flattenMembers members, shape.Proper
  | [] => by simp [flattenMembers]
  | (name, value) :: rest => by
      simp only [flattenMembers, List.mem_cons, List.mem_append]
      rintro shape (rfl | h | h)
      · simp [TokShape.Proper, TokShape.key]
      · exact Json.flatten_proper value shape h
      · exact flattenMembers_proper rest shape h

end

theorem TokShape.key_proper (name : List Char) :
    (TokShape.key name).Proper := by
  simp [TokShape.Proper, TokShape.key]

example : (Json.obj [("a".toList, .arr [.prim "1".toList])]).flatten.map
    TokShape.size = [1, 1, 1, 0] := by decide

end FremSoft
