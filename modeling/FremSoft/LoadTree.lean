/-
The token walk of `recording_load` computes what the document says, on every
document whose nested members it steps over correctly: one lemma for a pass of
each loop, and one for its whole run.
-/
import FremSoft.Document
import FremSoft.TokenWalk

namespace FremSoft

theorem copyInto_take (size : Nat) (hsize : 0 < size) (old text : List Char) :
    copyInto size old (text.take (size - 1)) =
      .ok (text.take (size - 1) ++ old.drop (text.take (size - 1)).length) := by
  have hlength : (text.take (size - 1)).length < size := by
    rw [List.length_take]
    omega
  rw [copyInto, if_pos hlength]

theorem parseDelay_eq (text : List Char) :
    parseDelay text = .ok (delayOf text) := by
  rw [parseDelay, copyInto_take 16 (by omega)]
  simp [delayOf]

section Passes

variable {json : List Char} {toks : List JsmnTok} {t e : Nat}
  {rest : List TokShape} {exs : List RecordedExchange}
  {ex : RecordedExchange} {rx : Nat} {x : RecordedResponse}

theorem isMember_of_key {name : List Char} {value : Json}
    (h : Ahead json toks t (TokShape.key name :: (value.flatten ++ rest)))
    (s : List Char) :
    isMember json toks t s = .ok (decide (name = s)) := by
  obtain ⟨shape, shapes, hshape, _⟩ := value.flatten_eq_cons
  rw [hshape] at h
  rw [isMember_of_ahead h (TokShape.key_proper name), TokShape.key_spells]

theorem memberText_of_key {name : List Char} {value : Json}
    (h : Ahead json toks t (TokShape.key name :: (value.flatten ++ rest)))
    (hleaf : value.IsLeaf) : memberText json toks t = .ok value.text := by
  obtain ⟨shape, hshape, htext⟩ := hleaf.flatten
  rw [hshape] at h
  exact memberText_of_ahead h htext

/-- A write to `exchanges[e]`. -/
theorem writeExchange_eq (hex : exs[e]? = some ex)
    (f : RecordedExchange → RecordedExchange) :
    writeExchange exs e f = .ok (exs.set e (f ex)) := by
  obtain ⟨he, rfl⟩ := List.getElem?_eq_some_iff.1 hex
  rw [writeExchange, if_pos he, List.modify_eq_set_getElem?, hex]
  rfl

/-- A write to `exchanges[e].responses[rx]`. -/
theorem writeResponse_eq (hex : exs[e]? = some ex)
    (hx : ex.responses[rx]? = some x)
    (f : RecordedResponse → RecordedResponse) :
    writeResponse exs e rx f = .ok (exs.set e
      { ex with responses := ex.responses.set rx (f x) }) := by
  obtain ⟨hrx, rfl⟩ := List.getElem?_eq_some_iff.1 hx
  simp [writeResponse, hex, hrx, List.modify_eq_set_getElem?]

theorem set_self {α : Type} {l : List α} {i : Nat} {a : α}
    (h : l[i]? = some a) : l.set i a = l := by
  obtain ⟨hi, rfl⟩ := List.getElem?_eq_some_iff.1 h
  exact List.set_getElem_self hi

theorem getElem?_set_of_some {α : Type} {l : List α} {i : Nat} {a : α}
    (h : l[i]? = some a) (b : α) : (l.set i b)[i]? = some b :=
  List.getElem?_set_self (List.getElem?_eq_some_iff.1 h).1

theorem txMembersLoop_pass {m : List Char × Json}
    (h : Ahead json toks t (TokShape.key m.1 :: (m.2.flatten ++ rest)))
    (hplain : PlainMember txNames m) (hex : exs[e]? = some ex) (q : Nat) :
    txMembersLoop json toks e (q + 1) exs t =
      txMembersLoop json toks e q (exs.set e (txField ex m)) (t + 2) := by
  rw [txMembersLoop, if_pos h.lt]
  simp only [isMember_of_key h, ok_bind, decide_eq_true_eq]
  by_cases hcan : m.1 = "can_id".toList
  · have hleaf := hplain.leaf (by simp [txNames, hcan])
    simp [hcan, memberText_of_key h hleaf, writeExchange_eq hex, txField]
  · by_cases huds : m.1 = "uds".toList
    · have hleaf := hplain.leaf (by simp [txNames, huds])
      simp [huds, memberText_of_key h hleaf, writeExchange_eq hex, txField]
    · simp only [txField, hcan, huds, if_false, set_self hex]

/-- The `q` loop reads the members of a `tx` object into its exchange. -/
theorem txMembersLoop_eq {members : List (List Char × Json)}
    (hplain : ∀ m ∈ members, PlainMember txNames m)
    (h : Ahead json toks t (flattenMembers members ++ rest))
    (hex : exs[e]? = some ex) :
    txMembersLoop json toks e members.length exs t =
      .ok (exs.set e (members.foldl txField ex), t + 2 * members.length) := by
  induction members generalizing exs t ex with
  | nil => simp [txMembersLoop, set_self hex]
  | cons m members ih =>
      have hm := hplain m List.mem_cons_self
      rw [flattenMembers_cons_append] at h
      have hnext := h.tail.skip
      rw [hm.single] at hnext
      have hposition : t + 2 + 2 * members.length =
          t + 2 * (members.length + 1) := by omega
      rw [List.length_cons, txMembersLoop_pass h hm hex,
        ih (fun m hm => hplain m (List.mem_cons_of_mem _ hm)) hnext
          (getElem?_set_of_some hex _), List.set_set, hposition]
      rfl

theorem rxMembersLoop_pass {m : List Char × Json}
    (h : Ahead json toks t (TokShape.key m.1 :: (m.2.flatten ++ rest)))
    (hplain : PlainMember rxNames m) (hex : exs[e]? = some ex)
    (hx : ex.responses[rx]? = some x) (q : Nat) :
    rxMembersLoop json toks e rx (q + 1) exs t =
      rxMembersLoop json toks e rx q
        (exs.set e { ex with responses := ex.responses.set rx (rxField x m) })
        (t + 2) := by
  rw [rxMembersLoop, if_pos h.lt]
  simp only [isMember_of_key h, ok_bind, decide_eq_true_eq]
  by_cases hcan : m.1 = "can_id".toList
  · have hleaf := hplain.leaf (by simp [rxNames, hcan])
    simp [hcan, memberText_of_key h hleaf, writeResponse_eq hex hx, rxField]
  · by_cases huds : m.1 = "uds".toList
    · have hleaf := hplain.leaf (by simp [rxNames, huds])
      simp [huds, memberText_of_key h hleaf, writeResponse_eq hex hx, rxField]
    · by_cases hdelay : m.1 = "delay_ms".toList
      · have hleaf := hplain.leaf (by simp [rxNames, hdelay])
        simp [hdelay, memberText_of_key h hleaf, parseDelay_eq,
          writeResponse_eq hex hx, rxField]
      · simp only [rxField, hcan, huds, hdelay, if_false, set_self hx,
          set_self hex]

/-- The `q` loop reads the members of an `rx` element into its response. -/
theorem rxMembersLoop_eq {members : List (List Char × Json)}
    (hplain : ∀ m ∈ members, PlainMember rxNames m)
    (h : Ahead json toks t (flattenMembers members ++ rest))
    (hex : exs[e]? = some ex) (hx : ex.responses[rx]? = some x) :
    rxMembersLoop json toks e rx members.length exs t =
      .ok (exs.set e { ex with
          responses := ex.responses.set rx (members.foldl rxField x) },
        t + 2 * members.length) := by
  induction members generalizing exs t ex x with
  | nil => simp [rxMembersLoop, set_self hex, set_self hx]
  | cons m members ih =>
      have hm := hplain m List.mem_cons_self
      rw [flattenMembers_cons_append] at h
      have hnext := h.tail.skip
      rw [hm.single] at hnext
      have hposition : t + 2 + 2 * members.length =
          t + 2 * (members.length + 1) := by omega
      rw [List.length_cons, rxMembersLoop_pass h hm hex hx,
        ih (fun m hm => hplain m (List.mem_cons_of_mem _ hm)) hnext
          (getElem?_set_of_some hex _) (getElem?_set_of_some hx _),
        List.set_set, hposition]
      simp

/-- The element `a` that a loop is about to fill, and what is left of it. -/
theorem set_next {α : Type} (front : List α) (a b : α) (back : List α) :
    (front ++ a :: back)[front.length]? = some a ∧
      (front ++ a :: back).set front.length b = (front ++ [b]) ++ back := by
  constructor
  · simp
  · simp

/-- A pass over an object goes on behind whatever the `q` loop walked over. -/
theorem rxLoop_object {members : List (List Char × Json)}
    {exs' : List RecordedExchange} {t' : Nat}
    (h : Ahead json toks t ((Json.obj members).flatten ++ rest))
    (hloop : rxMembersLoop json toks e rx members.length exs (t + 1) =
      .ok (exs', t')) (left : Nat) :
    rxLoop json toks e (left + 1) rx exs t =
      rxLoop json toks e left (rx + 1) exs' t' := by
  obtain ⟨tok, htok, htype, hsize, _⟩ := tokAt_of_ahead h
  rw [rxLoop, if_pos (Ahead.lt h), htok, ok_bind, htype, if_pos (by rfl), hsize,
    hloop, ok_bind]

theorem rxLoop_pass {item : Json}
    (hplain : PlainElement (PlainMember rxNames) item)
    (h : Ahead json toks t (item.flatten ++ rest))
    (hex : exs[e]? = some ex)
    (hx : ex.responses[rx]? = some RecordedResponse.zero) (left : Nat) :
    rxLoop json toks e (left + 1) rx exs t =
      rxLoop json toks e left (rx + 1)
        (exs.set e
          { ex with responses := ex.responses.set rx (rxElement item) })
        (t + item.flatten.length) := by
  cases hplain with
  | @object members hmembers =>
      have hlength := flattenMembers_length fun m hm => (hmembers m hm).single
      rw [rxLoop_object h (rxMembersLoop_eq hmembers (Ahead.tail h) hex hx)]
      simp only [rxElement, Json.flatten, List.length_cons, hlength]
      congr 1
      omega
  | other hobject hsingle =>
      have hnot := Json.type_ne_object hobject
      obtain ⟨shape, shapes, hshape, hkind⟩ := item.flatten_eq_cons
      rw [hshape, List.cons_append] at h
      obtain ⟨tok, htok, htype, _⟩ := tokAt_of_ahead h
      rw [rxLoop, if_pos h.lt, htok, ok_bind, htype,
        if_neg (by simpa [hkind] using hnot), hsingle,
        rxElement_of_not_object hobject, set_self hx, set_self hex]

/-- The `rx` loop reads the elements of an `rx` array into the zeroed
responses. -/
theorem rxLoop_eq {items : List Json} {front : List RecordedResponse}
    (hplain : ∀ item ∈ items, PlainElement (PlainMember rxNames) item)
    (h : Ahead json toks t (flattenItems items ++ rest))
    (hex : exs[e]? = some ex)
    (hresponses : ex.responses =
      front ++ List.replicate items.length RecordedResponse.zero) :
    rxLoop json toks e items.length front.length exs t =
      .ok (exs.set e { ex with responses := front ++ items.map rxElement },
        t + (flattenItems items).length) := by
  induction items generalizing exs t ex front with
  | nil =>
      have hsame : { ex with responses := front } = ex := by
        rw [List.length_nil, List.replicate_zero, List.append_nil] at hresponses
        rw [← hresponses]
      simp [rxLoop, flattenItems, hsame, set_self hex]
  | cons item items ih =>
      have hrest := fun item hitem =>
        hplain item (List.mem_cons_of_mem _ hitem)
      rw [List.length_cons, List.replicate_succ] at hresponses
      have hslot := set_next front RecordedResponse.zero (rxElement item)
        (List.replicate items.length RecordedResponse.zero)
      rw [← hresponses] at hslot
      rw [flattenItems, List.append_assoc] at h
      have hrun := ih hrest h.skip (getElem?_set_of_some hex { ex with
        responses := ex.responses.set front.length (rxElement item) }) hslot.2
      rw [List.length_append, List.length_singleton] at hrun
      rw [List.length_cons,
        rxLoop_pass (hplain item List.mem_cons_self) h hex hslot.1, hrun,
        List.set_set, flattenItems, List.length_append, Nat.add_assoc]
      simp

theorem isMemberOf_of_key {name : List Char} {value : Json}
    (h : Ahead json toks t (TokShape.key name :: (value.flatten ++ rest)))
    (s : List Char) (type : JsmnType) :
    isMemberOf json toks t s type =
      .ok (decide (name = s) && value.type == type) := by
  obtain ⟨shape, shapes, hshape, hkind⟩ := value.flatten_eq_cons
  rw [hshape] at h
  rw [isMemberOf_of_ahead h (TokShape.key_proper name), TokShape.key_spells,
    hkind]

/-- A pass over a `tx` member goes on behind whatever its loop walked over. -/
theorem exchangeMembersLoop_tx {members : List (List Char × Json)}
    {exs' : List RecordedExchange} {t' : Nat}
    (h : Ahead json toks t (TokShape.key "tx".toList ::
      ((Json.obj members).flatten ++ rest)))
    (hloop : txMembersLoop json toks e members.length exs (t + 2) =
      .ok (exs', t')) (k : Nat) :
    exchangeMembersLoop json toks e (k + 1) exs t =
      exchangeMembersLoop json toks e k exs' t' := by
  obtain ⟨tok, htok, _, hsize, _⟩ := tokAt_of_ahead h.tail
  rw [exchangeMembersLoop, if_pos h.lt, isMemberOf_of_key h, ok_bind,
    if_pos (by simp [Json.type]), htok, ok_bind, hsize, hloop, ok_bind]

/-- A pass over an `rx` member zeroes its responses, and goes on behind
whatever their loop walked over. -/
theorem exchangeMembersLoop_rx {items : List Json}
    {exs' : List RecordedExchange} {t' : Nat}
    (h : Ahead json toks t (TokShape.key "rx".toList ::
      ((Json.arr items).flatten ++ rest))) (hex : exs[e]? = some ex)
    (hloop : rxLoop json toks e items.length 0
      (exs.set e { ex with
        responses := List.replicate items.length RecordedResponse.zero })
      (t + 2) = .ok (exs', t')) (k : Nat) :
    exchangeMembersLoop json toks e (k + 1) exs t =
      exchangeMembersLoop json toks e k exs' t' := by
  obtain ⟨tok, htok, _, hsize, _⟩ := tokAt_of_ahead h.tail
  rw [exchangeMembersLoop, if_pos h.lt, isMemberOf_of_key h, ok_bind,
    if_neg (by simp), isMemberOf_of_key h, ok_bind,
    if_pos (by simp [Json.type]), htok, ok_bind, hsize, writeExchange_eq hex,
    ok_bind, hloop, ok_bind]

theorem exchangeMembersLoop_pass {m : List Char × Json}
    (h : Ahead json toks t (TokShape.key m.1 :: (m.2.flatten ++ rest)))
    (hplain : PlainExchangeMember m) (hex : exs[e]? = some ex) (k : Nat) :
    exchangeMembersLoop json toks e (k + 1) exs t =
      exchangeMembersLoop json toks e k (exs.set e (exchangeField ex m))
        (t + 1 + m.2.flatten.length) := by
  cases hplain with
  | @tx members hmembers =>
      have hlength := flattenMembers_length fun m hm => (hmembers m hm).single
      have hinside : Ahead json toks (t + 2) (flattenMembers members ++ rest) :=
        h.tail.tail
      rw [exchangeMembersLoop_tx h (txMembersLoop_eq hmembers hinside hex)]
      simp only [exchangeField, if_true, Json.flatten, List.length_cons,
        hlength]
      congr 1
      omega
  | @rx items hitems =>
      have hinside : Ahead json toks (t + 2) (flattenItems items ++ rest) :=
        h.tail.tail
      have hzeroed := getElem?_set_of_some hex { ex with
        responses := List.replicate items.length RecordedResponse.zero }
      have hloop := rxLoop_eq hitems hinside hzeroed
        (List.nil_append (List.replicate items.length _)).symm
      rw [List.length_nil, List.set_set] at hloop
      rw [exchangeMembersLoop_rx h hex hloop]
      simp only [exchangeField, if_true, Json.flatten, List.length_cons,
        List.nil_append]
      congr 1
      omega
  | @other name value htx hrx hsingle =>
      have hnottx : (decide (name = "tx".toList) && value.type == .object) =
          false := by
        by_cases hname : name = "tx".toList
        · simpa [hname] using Json.type_ne_object (htx hname)
        · rw [decide_eq_false hname, Bool.false_and]
      have hnotrx : (decide (name = "rx".toList) && value.type == .array) =
          false := by
        by_cases hname : name = "rx".toList
        · simpa [hname] using Json.type_ne_array (hrx hname)
        · rw [decide_eq_false hname, Bool.false_and]
      rw [exchangeMembersLoop, if_pos h.lt, isMemberOf_of_key h, ok_bind,
        hnottx, isMemberOf_of_key h, ok_bind, hnotrx,
        exchangeField_other htx hrx, set_self hex, hsingle]
      rfl

/-- The `k` loop reads the members of an exchange object into its exchange. -/
theorem exchangeMembersLoop_eq {members : List (List Char × Json)}
    (hplain : ∀ m ∈ members, PlainExchangeMember m)
    (h : Ahead json toks t (flattenMembers members ++ rest))
    (hex : exs[e]? = some ex) :
    exchangeMembersLoop json toks e members.length exs t =
      .ok (exs.set e (members.foldl exchangeField ex),
        t + (flattenMembers members).length) := by
  induction members generalizing exs t ex with
  | nil => simp [exchangeMembersLoop, flattenMembers, set_self hex]
  | cons m members ih =>
      rw [flattenMembers_cons_append] at h
      rw [List.length_cons,
        exchangeMembersLoop_pass h (hplain m List.mem_cons_self) hex,
        ih (fun m hm => hplain m (List.mem_cons_of_mem _ hm)) h.tail.skip
          (getElem?_set_of_some hex _), List.set_set, flattenMembers_cons,
        List.length_cons, List.length_append, List.foldl_cons]
      congr 2
      omega

/-- A pass over an object goes on behind whatever the `k` loop walked over. -/
theorem exchangesLoop_object {members : List (List Char × Json)}
    {exs' : List RecordedExchange} {t' : Nat}
    (h : Ahead json toks t ((Json.obj members).flatten ++ rest))
    (hloop : exchangeMembersLoop json toks e members.length exs (t + 1) =
      .ok (exs', t')) (left : Nat) :
    exchangesLoop json toks (left + 1) e exs t =
      exchangesLoop json toks left (e + 1) exs' t' := by
  obtain ⟨tok, htok, htype, hsize, _⟩ := tokAt_of_ahead h
  rw [exchangesLoop, if_pos (Ahead.lt h), htok, ok_bind, htype,
    if_pos (by rfl), hsize, hloop, ok_bind]

theorem exchangesLoop_pass {item : Json}
    (hplain : PlainElement PlainExchangeMember item)
    (h : Ahead json toks t (item.flatten ++ rest))
    (hex : exs[e]? = some RecordedExchange.zero) (left : Nat) :
    exchangesLoop json toks (left + 1) e exs t =
      exchangesLoop json toks left (e + 1) (exs.set e (exchangeElement item))
        (t + item.flatten.length) := by
  cases hplain with
  | @object members hmembers =>
      rw [exchangesLoop_object h
        (exchangeMembersLoop_eq hmembers (Ahead.tail h) hex)]
      simp only [exchangeElement, Json.flatten, List.length_cons]
      congr 1
      omega
  | other hobject hsingle =>
      have hnot := Json.type_ne_object hobject
      obtain ⟨shape, shapes, hshape, hkind⟩ := item.flatten_eq_cons
      rw [hshape, List.cons_append] at h
      obtain ⟨tok, htok, htype, _⟩ := tokAt_of_ahead h
      rw [exchangesLoop, if_pos h.lt, htok, ok_bind, htype,
        if_neg (by simpa [hkind] using hnot), hsingle,
        exchangeElement_of_not_object hobject, set_self hex]

/-- The `e` loop reads the elements of the `exchanges` array into the zeroed
exchanges. -/
theorem exchangesLoop_eq {items : List Json} {front : List RecordedExchange}
    (hplain : ∀ item ∈ items, PlainElement PlainExchangeMember item)
    (h : Ahead json toks t (flattenItems items ++ rest)) :
    exchangesLoop json toks items.length front.length
        (front ++ List.replicate items.length RecordedExchange.zero) t =
      .ok (front ++ items.map exchangeElement,
        t + (flattenItems items).length) := by
  induction items generalizing t front with
  | nil => simp [exchangesLoop, flattenItems]
  | cons item items ih =>
      have hslot := set_next front RecordedExchange.zero (exchangeElement item)
        (List.replicate items.length RecordedExchange.zero)
      rw [flattenItems, List.append_assoc] at h
      have hrun := @ih _ (front ++ [exchangeElement item])
        (fun item hitem => hplain item (List.mem_cons_of_mem _ hitem)) h.skip
      rw [List.length_append, List.length_singleton] at hrun
      rw [List.length_cons, List.replicate_succ,
        exchangesLoop_pass (hplain item List.mem_cons_self) h hslot.1, hslot.2,
        hrun, flattenItems, List.length_append, Nat.add_assoc]
      simp

end Passes

/-! ### The outer loop -/

/-- From position `t` on, with passes to spare, the outer loop ends in `res`. -/
def TopRuns (json : List Char) (toks : List JsmnTok) (t : Nat)
    (r res : Recording) : Prop :=
  ∀ fuel, toks.length ≤ t + fuel → topLoop json toks fuel r t = .ok res

/-- Every other one of these, from the first on. -/
def EveryOther {α : Type} (P : α → Prop) : List α → Prop
  | [] => True
  | [a] => P a
  | a :: _ :: rest => P a ∧ EveryOther P rest

theorem everyOther_of_forall {α : Type} {P : α → Prop} :
    ∀ {l : List α}, (∀ a ∈ l, P a) → EveryOther P l
  | [], _ => trivial
  | [a], h => h a List.mem_cons_self
  | a :: b :: _, h =>
      ⟨h a List.mem_cons_self, everyOther_of_forall fun c hc => h c
        (List.mem_cons_of_mem a (List.mem_cons_of_mem b hc))⟩

section Top

variable {json : List Char} {toks : List JsmnTok} {t : Nat}
  {shape : TokShape} {rest : List TokShape} {r res : Recording}

theorem topRuns_end (h : toks.length ≤ t) : TopRuns json toks t r r := by
  intro fuel _
  have hnot : ¬ t < toks.length := by omega
  cases fuel with
  | zero => simp [topLoop, hnot]
  | succ fuel => simp [topLoop, hnot]

/-- One more pass in front of a run. -/
theorem topRuns_pass {t' : Nat} {r' : Recording} (hlt : t < toks.length)
    (hforward : t + 1 ≤ t')
    (hpass : ∀ fuel, topLoop json toks (fuel + 1) r t =
      topLoop json toks fuel r' t')
    (hrun : TopRuns json toks t' r' res) : TopRuns json toks t r res := by
  intro fuel hfuel
  cases fuel with
  | zero => omega
  | succ fuel =>
      rw [hpass]
      exact hrun fuel (by omega)

theorem isMember_of_not_spells (h : Ahead json toks t (shape :: rest))
    (hproper : shape.Proper) {name : List Char}
    (hspells : shape.spells name = false) :
    isMember json toks t name = .ok false := by
  obtain ⟨tok, htok, hmatches⟩ := tokAt_of_ahead h
  simp [isMember, htok, jsonEq_of_matches hproper hmatches, hspells]

/-- A token that spells no name of the document is stepped over together with
the one behind it. -/
theorem topRuns_skip (h : Ahead json toks t (shape :: rest))
    (hproper : shape.Proper) (havoid : shape.Avoids topNames)
    (hrun : TopRuns json toks (t + 2) r res) : TopRuns json toks t r res := by
  refine topRuns_pass h.lt (by omega) (fun fuel => ?_) hrun
  have hnot := fun name hname =>
    isMember_of_not_spells h hproper (havoid name hname)
  rw [topLoop, if_pos h.lt, hnot _ (by simp [topNames]), ok_bind,
    hnot _ (by simp [topNames]), ok_bind, isMemberOf,
    hnot _ (by simp [topNames])]
  rfl

/-- The walk steps over the rest of a document that spells no name where it
looks. -/
theorem topRuns_rest :
    ∀ {shapes : List TokShape} {t : Nat}, Ahead json toks t shapes →
      (∀ shape ∈ shapes, shape.Proper) →
      EveryOther (TokShape.Avoids topNames) shapes → TopRuns json toks t r r
  | [], _, h, _, _ => topRuns_end h.end_le
  | [shape], _, h, hproper, havoid => by
      have hend := h.tail.end_le
      exact topRuns_skip h (hproper shape List.mem_cons_self) havoid
        (topRuns_end (by omega))
  | shape :: _ :: _, _, h, hproper, havoid =>
      topRuns_skip h (hproper shape List.mem_cons_self) havoid.1
        (topRuns_rest h.tail.tail (fun shape hshape => hproper shape
          (List.mem_cons_of_mem _ (List.mem_cons_of_mem _ hshape))) havoid.2)

/-- A stretch of tokens whose even positions spell no name is stepped over. -/
theorem topRuns_skip_all :
    ∀ {front : List TokShape} {t : Nat}, Ahead json toks t (front ++ rest) →
      front.length % 2 = 0 → (∀ shape ∈ front, shape.Proper) →
      EveryOther (TokShape.Avoids topNames) front →
      TopRuns json toks (t + front.length) r res → TopRuns json toks t r res
  | [], _, _, _, _, _, hrun => hrun
  | [_], _, _, hlength, _, _, _ => by simp at hlength
  | shape :: next :: front, t, h, hlength, hproper, havoid, hrun => by
      rw [List.length_cons, List.length_cons] at hlength
      refine topRuns_skip h (hproper shape List.mem_cons_self) havoid.1
        (topRuns_skip_all h.tail.tail (by omega)
          (fun shape hshape => hproper shape
            (List.mem_cons_of_mem _ (List.mem_cons_of_mem _ hshape)))
          havoid.2 ?_)
      rwa [Nat.add_assoc, Nat.add_comm 2]

theorem avoids_key {names : List (List Char)} {name : List Char}
    (hname : name ∉ names) : (TokShape.key name).Avoids names := by
  intro other hother
  rw [TokShape.key_spells, decide_eq_false_iff_not]
  rintro rfl
  exact hname hother

/-- The pass over the `exchanges` member goes on behind whatever its loops
have walked over. -/
theorem topRuns_exchanges {items : List Json} {exs : List RecordedExchange}
    {t' : Nat}
    (h : Ahead json toks t (TokShape.key "exchanges".toList ::
      ((Json.arr items).flatten ++ rest)))
    (hloop : exchangesLoop json toks items.length 0
      (List.replicate items.length RecordedExchange.zero) (t + 2) =
        .ok (exs, t'))
    (hforward : t + 1 ≤ t')
    (hrun : TopRuns json toks t' { r with exchanges := exs } res) :
    TopRuns json toks t r res := by
  obtain ⟨tok, htok, _, hsize, _⟩ := tokAt_of_ahead h.tail
  refine topRuns_pass h.lt hforward (fun fuel => ?_) hrun
  rw [topLoop, if_pos h.lt, isMember_of_key h, ok_bind, if_neg (by simp),
    isMember_of_key h, ok_bind, if_neg (by simp), isMemberOf_of_key h,
    ok_bind, if_pos (by simp [Json.type]), htok, ok_bind, hsize, hloop,
    ok_bind]

/-- One member of the document. -/
theorem topRuns_member {m : List Char × Json}
    (h : Ahead json toks t (TokShape.key m.1 :: (m.2.flatten ++ rest)))
    (hplain : PlainTopMember m)
    (hrun : TopRuns json toks (t + 1 + m.2.flatten.length)
      (recordingField r m) res) : TopRuns json toks t r res := by
  cases hplain with
  | @recordingId value hleaf =>
      obtain ⟨shape, hshape, _⟩ := hleaf.flatten
      have hsingle : value.flatten.length = 1 := by rw [hshape]; rfl
      refine topRuns_pass h.lt (by omega) (fun fuel => ?_) hrun
      rw [topLoop, if_pos h.lt, isMember_of_key h, ok_bind,
        if_pos (by simp), memberText_of_key h hleaf, ok_bind,
        copyInto_take 128 (by omega), ok_bind, hsingle]
      rfl
  | @vehicleProfile value hleaf =>
      obtain ⟨shape, hshape, _⟩ := hleaf.flatten
      have hsingle : value.flatten.length = 1 := by rw [hshape]; rfl
      refine topRuns_pass h.lt (by omega) (fun fuel => ?_) hrun
      rw [topLoop, if_pos h.lt, isMember_of_key h, ok_bind,
        if_neg (by simp), isMember_of_key h, ok_bind,
        if_pos (by simp), memberText_of_key h hleaf, ok_bind,
        copyInto_take 128 (by omega), ok_bind, hsingle]
      rfl
  | @exchanges items hitems =>
      have hinside : Ahead json toks (t + 2) (flattenItems items ++ rest) :=
        h.tail.tail
      have hloop := @exchangesLoop_eq _ _ _ _ items [] hitems hinside
      have hposition : t + 2 + (flattenItems items).length =
          t + 1 + (Json.arr items).flatten.length := by
        rw [Json.flatten, List.length_cons]
        omega
      rw [List.length_nil, List.nil_append, List.nil_append, hposition] at hloop
      apply topRuns_exchanges h hloop (by omega)
      simpa [recordingField] using hrun
  | @leaf name value hname hleaf =>
      obtain ⟨shape, hshape, _⟩ := hleaf.flatten
      rw [recordingField_other hname, hshape] at hrun
      exact topRuns_skip h (TokShape.key_proper name) (avoids_key hname) hrun
  | @other name value hname hodd hvalue =>
      rw [recordingField_other hname, Nat.add_assoc, Nat.add_comm 1] at hrun
      rw [← List.cons_append] at h
      refine topRuns_skip_all h ?_ ?_ ?_ hrun
      · simp only [List.length_cons]
        omega
      · intro shape hshape
        rcases List.mem_cons.1 hshape with rfl | hshape
        · exact TokShape.key_proper name
        · exact value.flatten_proper shape hshape
      · apply everyOther_of_forall
        intro shape hshape
        rcases List.mem_cons.1 hshape with rfl | hshape
        · exact avoids_key hname
        · exact hvalue shape hshape

/-- Members at the front of the document. -/
theorem topRuns_members {members : List (List Char × Json)}
    (hplain : ∀ m ∈ members, PlainTopMember m)
    (h : Ahead json toks t (flattenMembers members ++ rest))
    (hrun : TopRuns json toks (t + (flattenMembers members).length)
      (members.foldl recordingField r) res) : TopRuns json toks t r res := by
  induction members generalizing t r with
  | nil => exact hrun
  | cons m members ih =>
      rw [flattenMembers_cons_append] at h
      rw [flattenMembers_cons, List.length_cons, List.length_append] at hrun
      refine topRuns_member h (hplain m List.mem_cons_self)
        (ih (fun m hm => hplain m (List.mem_cons_of_mem _ hm)) h.tail.skip ?_)
      have hposition : t + 1 + m.2.flatten.length +
          (flattenMembers members).length =
          t + (m.2.flatten.length + (flattenMembers members).length + 1) := by
        omega
      rw [hposition]
      exact hrun

end Top

/-- `recording_load` of an object is the outer loop over its members. -/
theorem recordingLoad_of_topRuns {json : List Char} {toks : List JsmnTok}
    {members : List (List Char × Json)} {res : Recording}
    (h : Tokenises json (.obj members) toks)
    (hrun : Ahead json toks 1 (flattenMembers members) →
      TopRuns json toks 1
        { recordingId := [], vehicleProfile := [], exchanges := [] } res) :
    recordingLoad json toks = .ok (some res) := by
  have hahead : Ahead json toks 0 (Json.obj members).flatten := h.tokens
  rw [Json.flatten] at hahead
  obtain ⟨tok, hget, _, htype, _⟩ := hahead.head
  cases toks with
  | nil => simp at hget
  | cons first rest =>
      have hfirst : first = tok := by simpa using hget
      subst hfirst
      have hresult := hrun hahead.tail (first :: rest).length (by omega)
      rw [recordingLoad, if_neg (by simp [htype]), hresult]
      rfl

/-- On a document whose members are plain, `recording_load` returns the
recording that the document stands for. -/
theorem recordingLoad_of_plain {json : List Char} {toks : List JsmnTok}
    {members : List (List Char × Json)}
    (hplain : ∀ m ∈ members, PlainTopMember m)
    (h : Tokenises json (.obj members) toks) :
    recordingLoad json toks = .ok (some (recordingOfMembers members)) := by
  refine recordingLoad_of_topRuns h fun hahead => ?_
  rw [← List.append_nil (flattenMembers members)] at hahead
  exact topRuns_members hplain hahead (topRuns_end hahead.skip.end_le)

end FremSoft
