/-
What a recording document says, read off its tree: every member updates the
record of its object, whatever its place.
-/
import FremSoft.JsonDoc

namespace FremSoft

/-! ### The meaning of a document -/

def Json.text : Json → List Char
  | .str raw | .prim raw => raw
  | .arr _ | .obj _ => []

def Json.type : Json → JsmnType
  | .str _ => .string
  | .prim _ => .primitive
  | .arr _ => .array
  | .obj _ => .object

def Json.IsLeaf (value : Json) : Prop :=
  (∃ raw, value = .str raw) ∨ ∃ raw, value = .prim raw

/-- The decimal number in the first fifteen characters of a `delay_ms`. -/
def delayOf (text : List Char) : UInt32 := strtoul 10 (text.take 15)

/-- What a text leaves in a `char[128]` that held an earlier one. -/
def keepText (old text : List Char) : List Char :=
  text.take 127 ++ old.drop (text.take 127).length

def txField (ex : RecordedExchange) (m : List Char × Json) :
    RecordedExchange :=
  if m.1 = "can_id".toList then { ex with canId := parseCanIdStr m.2.text }
  else if m.1 = "uds".toList then { ex with udsBytes := parseHexBytes m.2.text }
  else ex

def rxField (x : RecordedResponse) (m : List Char × Json) :
    RecordedResponse :=
  if m.1 = "can_id".toList then { x with canId := parseCanIdStr m.2.text }
  else if m.1 = "uds".toList then { x with udsBytes := parseHexBytes m.2.text }
  else if m.1 = "delay_ms".toList then { x with delayMs := delayOf m.2.text }
  else x

def rxElement : Json → RecordedResponse
  | .obj members => members.foldl rxField RecordedResponse.zero
  | _ => RecordedResponse.zero

def exchangeField (ex : RecordedExchange) (m : List Char × Json) :
    RecordedExchange :=
  match m.2 with
  | .obj members =>
      if m.1 = "tx".toList then members.foldl txField ex else ex
  | .arr items =>
      if m.1 = "rx".toList then { ex with responses := items.map rxElement }
      else ex
  | _ => ex

def exchangeElement : Json → RecordedExchange
  | .obj members => members.foldl exchangeField RecordedExchange.zero
  | _ => RecordedExchange.zero

def recordingField (r : Recording) (m : List Char × Json) : Recording :=
  if m.1 = "recording_id".toList then
    { r with recordingId := keepText r.recordingId m.2.text }
  else if m.1 = "vehicle_profile".toList then
    { r with vehicleProfile := keepText r.vehicleProfile m.2.text }
  else if m.1 = "exchanges".toList then
    match m.2 with
    | .arr items => { r with exchanges := items.map exchangeElement }
    | _ => r
  else r

/-- The recording a document stands for. -/
def recordingOfMembers (members : List (List Char × Json)) : Recording :=
  members.foldl recordingField
    { recordingId := [], vehicleProfile := [], exchanges := [] }

/-! ### Members the walk steps over correctly -/

/-- The value is one token, and a leaf if the member is one that is read. -/
structure PlainMember (names : List (List Char)) (m : List Char × Json) :
    Prop where
  single : m.2.flatten.length = 1
  leaf : m.1 ∈ names → m.2.IsLeaf

def txNames : List (List Char) := ["can_id".toList, "uds".toList]

def rxNames : List (List Char) :=
  ["can_id".toList, "uds".toList, "delay_ms".toList]

/-- An element of an array of objects: an object with such members, or a value
that is one token. -/
inductive PlainElement (plain : List Char × Json → Prop) : Json → Prop
  | object {members : List (List Char × Json)} (h : ∀ m ∈ members, plain m) :
      PlainElement plain (.obj members)
  | other {value : Json} (hobject : ∀ members, value ≠ .obj members)
      (hsingle : value.flatten.length = 1) : PlainElement plain value

/-- A member of an exchange object: a `tx` object or an `rx` array of plain
members, or a value that is one token. -/
inductive PlainExchangeMember : List Char × Json → Prop
  | tx {members : List (List Char × Json)}
      (h : ∀ m ∈ members, PlainMember txNames m) :
      PlainExchangeMember ("tx".toList, .obj members)
  | rx {items : List Json}
      (h : ∀ item ∈ items, PlainElement (PlainMember rxNames) item) :
      PlainExchangeMember ("rx".toList, .arr items)
  | other {name : List Char} {value : Json}
      (htx : name = "tx".toList → ∀ members, value ≠ .obj members)
      (hrx : name = "rx".toList → ∀ items, value ≠ .arr items)
      (hsingle : value.flatten.length = 1) : PlainExchangeMember (name, value)

/-- The names `recording_load` looks for in the document itself. -/
def topNames : List (List Char) :=
  ["recording_id".toList, "vehicle_profile".toList, "exchanges".toList]

/-- A token that is no string with one of these names. -/
def TokShape.Avoids (names : List (List Char)) (shape : TokShape) : Prop :=
  ∀ name ∈ names, shape.spells name = false

/-- A member of the document: a text that is kept, the exchanges, or a value of
an odd number of tokens none of which looks like a name. -/
inductive PlainTopMember : List Char × Json → Prop
  | recordingId {value : Json} (h : value.IsLeaf) :
      PlainTopMember ("recording_id".toList, value)
  | vehicleProfile {value : Json} (h : value.IsLeaf) :
      PlainTopMember ("vehicle_profile".toList, value)
  | exchanges {items : List Json}
      (h : ∀ item ∈ items, PlainElement PlainExchangeMember item) :
      PlainTopMember ("exchanges".toList, .arr items)
  | leaf {name : List Char} {value : Json} (hname : name ∉ topNames)
      (h : value.IsLeaf) : PlainTopMember (name, value)
  | other {name : List Char} {value : Json} (hname : name ∉ topNames)
      (hodd : value.flatten.length % 2 = 1)
      (hvalue : ∀ shape ∈ value.flatten, shape.Avoids topNames) :
      PlainTopMember (name, value)

/-! ### Tokens of values -/

theorem Json.IsLeaf.flatten {value : Json} (h : value.IsLeaf) :
    ∃ shape : TokShape, value.flatten = [shape] ∧
      shape.text = some value.text := by
  rcases h with ⟨raw, rfl⟩ | ⟨raw, rfl⟩
  · exact ⟨_, rfl, rfl⟩
  · exact ⟨_, rfl, rfl⟩

theorem Json.flatten_eq_cons (value : Json) :
    ∃ shape shapes, value.flatten = shape :: shapes ∧
      shape.type = value.type := by
  cases value with
  | str raw | prim raw | arr items | obj members => exact ⟨_, _, rfl, rfl⟩

theorem Json.type_ne_object {value : Json}
    (hobject : ∀ members, value ≠ .obj members) : value.type ≠ .object := by
  cases value with
  | obj members => exact absurd rfl (hobject members)
  | str raw | prim raw | arr items => simp [Json.type]

theorem Json.type_ne_array {value : Json}
    (harray : ∀ items, value ≠ .arr items) : value.type ≠ .array := by
  cases value with
  | arr items => exact absurd rfl (harray items)
  | str raw | prim raw | obj members => simp [Json.type]

theorem rxElement_of_not_object {value : Json}
    (hobject : ∀ members, value ≠ .obj members) :
    rxElement value = RecordedResponse.zero := by
  cases value with
  | obj members => exact absurd rfl (hobject members)
  | str raw | prim raw | arr items => rfl

theorem exchangeElement_of_not_object {value : Json}
    (hobject : ∀ members, value ≠ .obj members) :
    exchangeElement value = RecordedExchange.zero := by
  cases value with
  | obj members => exact absurd rfl (hobject members)
  | str raw | prim raw | arr items => rfl

theorem flattenMembers_length {members : List (List Char × Json)}
    (hsingle : ∀ m ∈ members, m.2.flatten.length = 1) :
    (flattenMembers members).length = 2 * members.length := by
  induction members with
  | nil => rfl
  | cons m members ih =>
      obtain ⟨name, value⟩ := m
      have hm : value.flatten.length = 1 := hsingle _ List.mem_cons_self
      have hrest := ih fun m hm => hsingle m (List.mem_cons_of_mem _ hm)
      simp only [flattenMembers, List.length_cons, List.length_append, hm,
        hrest]
      omega

theorem exchangeField_other {name : List Char} {value : Json}
    (htx : name = "tx".toList → ∀ members, value ≠ .obj members)
    (hrx : name = "rx".toList → ∀ items, value ≠ .arr items)
    (ex : RecordedExchange) : exchangeField ex (name, value) = ex := by
  cases value with
  | str raw | prim raw => rfl
  | obj members =>
      have hname : name ≠ "tx".toList := fun hname => htx hname members rfl
      simp only [exchangeField, hname, if_false]
  | arr items =>
      have hname : name ≠ "rx".toList := fun hname => hrx hname items rfl
      simp only [exchangeField, hname, if_false]

theorem flattenMembers_cons (m : List Char × Json)
    (members : List (List Char × Json)) :
    flattenMembers (m :: members) =
      TokShape.key m.1 :: (m.2.flatten ++ flattenMembers members) := rfl

theorem flattenMembers_cons_append (m : List Char × Json)
    (members : List (List Char × Json)) (rest : List TokShape) :
    flattenMembers (m :: members) ++ rest =
      TokShape.key m.1 :: (m.2.flatten ++ (flattenMembers members ++ rest)) := by
  simp [flattenMembers]

theorem recordingField_other {name : List Char} (hname : name ∉ topNames)
    (r : Recording) (value : Json) : recordingField r (name, value) = r := by
  simp only [topNames, List.mem_cons, List.not_mem_nil, or_false, not_or]
    at hname
  simp only [recordingField, hname.1, hname.2.1, hname.2.2, if_false]

end FremSoft
