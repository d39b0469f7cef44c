/-
A member the loader has no name for, put anywhere into a document of the
format.  Each level of the walk steps over it by a constant: two tokens a pass.
That is right for a value of one token, and in the document itself, where the
passes are not counted, for a value of any odd number of tokens.
-/
import FremSoft.RecordingDoc

namespace FremSoft

/-- The names `recording_load` looks for at any level. -/
def loaderNames : List (List Char) :=
  ["recording_id".toList, "vehicle_profile".toList, "exchanges".toList,
    "tx".toList, "rx".toList, "can_id".toList, "uds".toList, "delay_ms".toList]

/-- A member that uses none of the loader's names, in its key or its value. -/
structure ForeignMember (m : List Char × Json) : Prop where
  key : m.1 ∉ loaderNames
  value : ∀ shape ∈ m.2.flatten, shape.Avoids loaderNames

/-- The four kinds of object of a document. -/
inductive ObjectLevel where
  | document
  | exchange
  | tx
  | rx
deriving DecidableEq, Repr

/-- `m` is added somewhere in the object. -/
def InsertMember (m : List Char × Json) (value value' : Json) : Prop :=
  ∃ front back, value = .obj (front ++ back) ∧
    value' = .obj (front ++ m :: back)

/-- The value of one member with this name is changed. -/
def InMember (name : List Char) (R : Json → Json → Prop)
    (value value' : Json) : Prop :=
  ∃ front back v v', value = .obj (front ++ (name, v) :: back) ∧
    value' = .obj (front ++ (name, v') :: back) ∧ R v v'

/-- One element of the array is changed. -/
def InItem (R : Json → Json → Prop) (value value' : Json) : Prop :=
  ∃ front back v v', value = .arr (front ++ v :: back) ∧
    value' = .arr (front ++ v' :: back) ∧ R v v'

/-- `m` is added at some place in some object of this level. -/
def Inserts (m : List Char × Json) : ObjectLevel → Json → Json → Prop
  | .document => InsertMember m
  | .exchange => InMember "exchanges".toList (InItem (InsertMember m))
  | .tx => InMember "exchanges".toList
      (InItem (InMember "tx".toList (InsertMember m)))
  | .rx => InMember "exchanges".toList
      (InItem (InMember "rx".toList (InItem (InsertMember m))))

/-- The exchanges, responses and delays that `recording_load` returns. -/
def loadedExchanges (json : List Char) (toks : List JsmnTok) :
    Except Fault (Option (List RecordedExchange)) :=
  (recordingLoad json toks).map fun r => r.map Recording.exchanges

/-- Added at this level, the member never changes what is loaded. -/
def IgnoredAt (level : ObjectLevel) (m : List Char × Json) : Prop :=
  ∀ header entries doc doc' json json' toks toks',
    IsRecordingDoc header entries doc → Inserts m level doc doc' →
    Tokenises json doc toks → Tokenises json' doc' toks' →
      loadedExchanges json' toks' = loadedExchanges json toks

/-- The value is stepped over by the passes of its level. -/
def SteppedOver (level : ObjectLevel) (m : List Char × Json) : Prop :=
  match level with
  | .document => m.2.flatten.length % 2 = 1
  | .exchange | .tx | .rx => m.2.flatten.length = 1

instance (level : ObjectLevel) (m : List Char × Json) :
    Decidable (SteppedOver level m) :=
  match level with
  | .document => inferInstanceAs (Decidable (m.2.flatten.length % 2 = 1))
  | .exchange | .tx | .rx =>
      inferInstanceAs (Decidable (m.2.flatten.length = 1))

/-! ### A member that is stepped over is ignored -/

section Ignored

variable {m : List Char × Json}

theorem ForeignMember.key_ne (hforeign : ForeignMember m) {name : List Char}
    (hname : name ∈ loaderNames) : m.1 ≠ name := by
  rintro rfl
  exact hforeign.key hname

/-- Changing one element of a list of members or items. -/
theorem forall_mem_replace {α : Type} {P : α → Prop} {front back : List α}
    {a b : α} (h : ∀ x ∈ front ++ a :: back, P x) (hb : P b) :
    ∀ x ∈ front ++ b :: back, P x := by
  intro x hx
  rcases List.mem_append.1 hx with hx | hx
  · exact h x (List.mem_append_left _ hx)
  · rcases List.mem_cons.1 hx with rfl | hx
    · exact hb
    · exact h x (List.mem_append_right _ (List.mem_cons_of_mem _ hx))

theorem forall_mem_insert {α : Type} {P : α → Prop} {front back : List α}
    {b : α} (h : ∀ x ∈ front ++ back, P x) (hb : P b) :
    ∀ x ∈ front ++ b :: back, P x := by
  intro x hx
  rcases List.mem_append.1 hx with hx | hx
  · exact h x (List.mem_append_left _ hx)
  · rcases List.mem_cons.1 hx with rfl | hx
    · exact hb
    · exact h x (List.mem_append_right _ hx)

theorem foldl_insert {α β : Type} {f : β → α → β} {b : α}
    (hsame : ∀ z, f z b = z) (front back : List α) (z : β) :
    (front ++ b :: back).foldl f z = (front ++ back).foldl f z := by
  rw [List.foldl_append, List.foldl_append, List.foldl_cons, hsame]

theorem foldl_replace {α β : Type} {f : β → α → β} {a b : α}
    (hsame : ∀ z, f z b = f z a) (front back : List α) (z : β) :
    (front ++ b :: back).foldl f z = (front ++ a :: back).foldl f z := by
  rw [List.foldl_append, List.foldl_append, List.foldl_cons, List.foldl_cons,
    hsame]

theorem plainMember_of_foreign {names : List (List Char)}
    (hnames : ∀ name ∈ names, name ∈ loaderNames)
    (hforeign : ForeignMember m) (hsingle : m.2.flatten.length = 1) :
    PlainMember names m :=
  ⟨hsingle, fun h => absurd (hnames _ h) hforeign.key⟩

theorem txField_of_foreign (hforeign : ForeignMember m)
    (ex : RecordedExchange) : txField ex m = ex := by
  simp only [txField, hforeign.key_ne (show "can_id".toList ∈ loaderNames by
    simp [loaderNames]), hforeign.key_ne (show "uds".toList ∈ loaderNames by
    simp [loaderNames]), if_false]

theorem rxField_of_foreign (hforeign : ForeignMember m)
    (x : RecordedResponse) : rxField x m = x := by
  simp only [rxField, hforeign.key_ne (show "can_id".toList ∈ loaderNames by
    simp [loaderNames]), hforeign.key_ne (show "uds".toList ∈ loaderNames by
    simp [loaderNames]), hforeign.key_ne (show "delay_ms".toList ∈ loaderNames
    by simp [loaderNames]), if_false]

theorem exchangeField_of_foreign (hforeign : ForeignMember m)
    (ex : RecordedExchange) : exchangeField ex m = ex :=
  exchangeField_other
    (fun h => absurd h (hforeign.key_ne (by simp [loaderNames])))
    (fun h => absurd h (hforeign.key_ne (by simp [loaderNames]))) ex

theorem exchangesAfter_of_foreign (hforeign : ForeignMember m)
    (exs : List RecordedExchange) : exchangesAfter exs m = exs := by
  rw [exchangesAfter, if_neg (hforeign.key_ne (by simp [loaderNames]))]

/-- What a change of one value must keep. -/
def KeepsElement {α : Type} (plain : List Char × Json → Prop)
    (meaning : Json → α) (R : Json → Json → Prop) : Prop :=
  ∀ v v', PlainElement plain v → R v v' →
    PlainElement plain v' ∧ meaning v' = meaning v

def KeepsExchangeMember (name : List Char) (R : Json → Json → Prop) : Prop :=
  ∀ v v', PlainExchangeMember (name, v) → R v v' →
    PlainExchangeMember (name, v') ∧
      ∀ ex, exchangeField ex (name, v') = exchangeField ex (name, v)

theorem plainElement_obj {plain : List Char × Json → Prop}
    {members : List (List Char × Json)}
    (h : PlainElement plain (.obj members)) : ∀ m ∈ members, plain m := by
  cases h with
  | object h => exact h
  | other hobject _ => exact absurd rfl (hobject members)

theorem plainExchangeMember_tx {members : List (List Char × Json)}
    (h : PlainExchangeMember ("tx".toList, .obj members)) :
    ∀ m ∈ members, PlainMember txNames m := by
  generalize hname : "tx".toList = name at h
  cases h with
  | tx h => exact h
  | other htx _ _ => exact absurd rfl (htx hname.symm members)

theorem plainExchangeMember_rx {items : List Json}
    (h : PlainExchangeMember ("rx".toList, .arr items)) :
    ∀ item ∈ items, PlainElement (PlainMember rxNames) item := by
  generalize hname : "rx".toList = name at h
  cases h with
  | rx h => exact h
  | other _ hrx _ => exact absurd rfl (hrx hname.symm items)

theorem keeps_rx (hforeign : ForeignMember m)
    (hsingle : m.2.flatten.length = 1) :
    KeepsElement (PlainMember rxNames) rxElement (InsertMember m) := by
  rintro _ _ hplain ⟨front, back, rfl, rfl⟩
  have hm := plainMember_of_foreign
    (show ∀ name ∈ rxNames, name ∈ loaderNames by simp [rxNames, loaderNames])
    hforeign hsingle
  exact ⟨.object (forall_mem_insert (plainElement_obj hplain) hm),
    foldl_insert (fun x => rxField_of_foreign hforeign x) front back _⟩

theorem keeps_tx (hforeign : ForeignMember m)
    (hsingle : m.2.flatten.length = 1) :
    KeepsExchangeMember "tx".toList (InsertMember m) := by
  rintro _ _ hplain ⟨front, back, rfl, rfl⟩
  have hm := plainMember_of_foreign
    (show ∀ name ∈ txNames, name ∈ loaderNames by simp [txNames, loaderNames])
    hforeign hsingle
  refine ⟨.tx (forall_mem_insert (plainExchangeMember_tx hplain) hm),
    fun ex => ?_⟩
  simp only [exchangeField, if_true]
  exact foldl_insert (fun ex => txField_of_foreign hforeign ex) front back ex

theorem keeps_rx_item {R : Json → Json → Prop}
    (hR : KeepsElement (PlainMember rxNames) rxElement R) :
    KeepsExchangeMember "rx".toList (InItem R) := by
  rintro _ _ hplain ⟨front, back, v, v', rfl, rfl, hv⟩
  have hitems := plainExchangeMember_rx hplain
  obtain ⟨hplain', hsame⟩ := hR v v' (hitems v (by simp)) hv
  refine ⟨.rx (forall_mem_replace hitems hplain'), fun ex => ?_⟩
  simp only [exchangeField, if_true, List.map_append, List.map_cons, hsame]

theorem keeps_exchange_member {name : List Char} {R : Json → Json → Prop}
    (hR : KeepsExchangeMember name R) :
    KeepsElement PlainExchangeMember exchangeElement (InMember name R) := by
  rintro _ _ hplain ⟨front, back, v, v', rfl, rfl, hv⟩
  have hmembers := plainElement_obj hplain
  obtain ⟨hplain', hsame⟩ := hR v v' (hmembers (name, v) (by simp)) hv
  exact ⟨.object (forall_mem_replace hmembers hplain'),
    foldl_replace hsame front back _⟩

theorem keeps_exchange (hforeign : ForeignMember m)
    (hsingle : m.2.flatten.length = 1) :
    KeepsElement PlainExchangeMember exchangeElement (InsertMember m) := by
  rintro _ _ hplain ⟨front, back, rfl, rfl⟩
  have hm : PlainExchangeMember m := .other
    (fun h => absurd h (hforeign.key_ne (by simp [loaderNames])))
    (fun h => absurd h (hforeign.key_ne (by simp [loaderNames]))) hsingle
  exact ⟨.object (forall_mem_insert (plainElement_obj hplain) hm),
    foldl_insert (fun ex => exchangeField_of_foreign hforeign ex) front back _⟩

/-- The documents that the walk steps through, with the same exchanges. -/
def SameExchanges (members : List (List Char × Json)) (doc' : Json) : Prop :=
  ∃ members', doc' = .obj members' ∧ (∀ m ∈ members', PlainTopMember m) ∧
    (recordingOfMembers members').exchanges =
      (recordingOfMembers members).exchanges

theorem plainTopMember_exchanges {items : List Json}
    (h : PlainTopMember ("exchanges".toList, .arr items)) :
    ∀ item ∈ items, PlainElement PlainExchangeMember item := by
  generalize hname : "exchanges".toList = name at h
  cases h with
  | exchanges h => exact h
  | recordingId h | vehicleProfile h =>
      rcases h with ⟨_, h⟩ | ⟨_, h⟩ <;> cases h
  | leaf _ h => rcases h with ⟨_, h⟩ | ⟨_, h⟩ <;> cases h
  | other hname' _ _ =>
      exact absurd (hname ▸ by simp [topNames]) hname'

theorem sameExchanges_item {members : List (List Char × Json)} {doc' : Json}
    {R : Json → Json → Prop}
    (hR : KeepsElement PlainExchangeMember exchangeElement R)
    (hplain : ∀ m ∈ members, PlainTopMember m)
    (h : InMember "exchanges".toList (InItem R) (.obj members) doc') :
    SameExchanges members doc' := by
  obtain ⟨front, back, _, _, heq, rfl, inner, outer, v, v', rfl, rfl, hv⟩ := h
  obtain rfl := Json.obj.inj heq
  have hmember : PlainTopMember
      ("exchanges".toList, .arr (inner ++ v :: outer)) :=
    hplain _ (List.mem_append_right front List.mem_cons_self)
  have hitems := plainTopMember_exchanges hmember
  obtain ⟨hplain', hsame⟩ := hR v v' (hitems v (by simp)) hv
  have hmember' : PlainTopMember
      ("exchanges".toList, .arr (inner ++ v' :: outer)) :=
    .exchanges (forall_mem_replace hitems hplain')
  refine ⟨_, rfl, forall_mem_replace hplain hmember', ?_⟩
  rw [recordingOfMembers_exchanges, recordingOfMembers_exchanges]
  refine foldl_replace (fun exs => ?_) front back []
  rw [exchangesAfter_arr, exchangesAfter_arr, List.map_append, List.map_append,
    List.map_cons, List.map_cons, hsame]

theorem sameExchanges_document {members : List (List Char × Json)}
    {doc' : Json} (hforeign : ForeignMember m)
    (hodd : m.2.flatten.length % 2 = 1)
    (hplain : ∀ m ∈ members, PlainTopMember m)
    (h : InsertMember m (.obj members) doc') :
    SameExchanges members doc' := by
  obtain ⟨front, back, heq, rfl⟩ := h
  obtain rfl := Json.obj.inj heq
  have htop : ∀ name ∈ topNames, name ∈ loaderNames := by
    simp [topNames, loaderNames]
  have hm : PlainTopMember m := .other
    (fun h => hforeign.key (htop m.1 h)) hodd
    fun shape hshape name hname => hforeign.value shape hshape name
      (htop name hname)
  refine ⟨_, rfl, forall_mem_insert hplain hm, ?_⟩
  rw [recordingOfMembers_exchanges, recordingOfMembers_exchanges]
  exact foldl_insert (fun exs => exchangesAfter_of_foreign hforeign exs) front
    back []

/-- A member that is stepped over leaves a document one that the walk steps
through, with the same exchanges. -/
theorem sameExchanges_of_steppedOver {level : ObjectLevel}
    {members : List (List Char × Json)} {doc' : Json}
    (hforeign : ForeignMember m) (hstepped : SteppedOver level m)
    (hplain : ∀ m ∈ members, PlainTopMember m)
    (h : Inserts m level (.obj members) doc') :
    SameExchanges members doc' := by
  cases level with
  | document => exact sameExchanges_document hforeign hstepped hplain h
  | exchange =>
      exact sameExchanges_item (keeps_exchange hforeign hstepped) hplain h
  | tx =>
      exact sameExchanges_item
        (keeps_exchange_member (keeps_tx hforeign hstepped)) hplain h
  | rx =>
      exact sameExchanges_item (keeps_exchange_member
        (keeps_rx_item (keeps_rx hforeign hstepped))) hplain h

theorem ignoredAt_of_steppedOver {level : ObjectLevel}
    (hforeign : ForeignMember m) (hstepped : SteppedOver level m) :
    IgnoredAt level m := by
  intro header entries doc doc' json json' toks toks' hdoc hinserts htoks htoks'
  obtain ⟨members, rfl, hplain⟩ := hdoc.plain
  obtain ⟨members', rfl, hplain', hsame⟩ :=
    sameExchanges_of_steppedOver hforeign hstepped hplain hinserts
  rw [loadedExchanges, loadedExchanges, recordingLoad_of_plain hplain htoks,
    recordingLoad_of_plain hplain' htoks']
  exact congrArg (fun exs => Except.ok (some exs)) hsame

end Ignored

end FremSoft
