/-
A recording may be reformatted: what `recording_load` reads depends on the
document alone, and not on how its text spells it.
-/
import FremSoft.RecordingFile

namespace FremSoft

/-! ### Two token arrays that the walk cannot tell apart -/

/-- The members whose values `recording_load` copies. -/
def copiedNames : List (List Char) :=
  ["recording_id".toList, "vehicle_profile".toList, "can_id".toList,
    "uds".toList, "delay_ms".toList]

/-- What the walk reads of a token itself. -/
def JsmnTok.kind (tok : JsmnTok) : JsmnType × Nat := (tok.type, tok.size)

/-- The reads of the walk have the same outcome on both sides.  Spans are not
compared: a container is as long as its spelling. -/
structure SameWalk (json json' : List Char) (toks toks' : List JsmnTok) :
    Prop where
  length : toks.length = toks'.length
  tok : ∀ i : Nat, toks[i]?.map JsmnTok.kind = toks'[i]?.map JsmnTok.kind
  member : ∀ i name, isMember json toks i name = isMember json' toks' i name
  text : ∀ i, ∀ name ∈ copiedNames, isMember json toks i name = .ok true →
    memberText json toks i = memberText json' toks' i

namespace SameWalk

variable {json json' : List Char} {toks toks' : List JsmnTok} {α : Type}

theorem tok_bind (h : SameWalk json json' toks toks') (i : Nat)
    {f f' : JsmnTok → Except Fault α}
    (hf : ∀ tok tok', tok.type = tok'.type → tok.size = tok'.size →
      f tok = f' tok') :
    (tokAt toks i >>= f) = (tokAt toks' i >>= f') := by
  have hat := h.tok i
  unfold tokAt
  cases htok : toks[i]? with
  | none =>
      rw [htok] at hat
      rw [Option.map_eq_none_iff.1 hat.symm]
      rfl
  | some tok =>
      rw [htok] at hat
      obtain ⟨tok', htok', heq⟩ := Option.map_eq_some_iff.1 hat.symm
      rw [htok']
      exact hf tok tok' (congrArg Prod.fst heq).symm
        (congrArg Prod.snd heq).symm

/-- A member whose text is copied. -/
theorem copied_bind (h : SameWalk json json' toks toks') {name : List Char}
    (hname : name ∈ copiedNames) (i : Nat) {f f' : List Char → Except Fault α}
    {g g' : Except Fault α} (hf : ∀ text, f text = f' text) (hg : g = g') :
    (isMember json toks i name >>= fun found =>
        if found then memberText json toks i >>= f else g) =
      (isMember json' toks' i name >>= fun found =>
        if found then memberText json' toks' i >>= f' else g') := by
  obtain rfl : f = f' := funext hf
  subst hg
  rw [← h.member]
  cases hmember : isMember json toks i name with
  | error fault => rfl
  | ok found =>
      cases found with
      | false => rfl
      | true => rw [h.text i name hname hmember]

theorem memberOf (h : SameWalk json json' toks toks') (i : Nat)
    (name : List Char) (type : JsmnType) :
    isMemberOf json toks i name type = isMemberOf json' toks' i name type := by
  rw [isMemberOf, isMemberOf, h.member]
  refine bind_congr fun found => ?_
  cases found with
  | false => rfl
  | true => exact h.tok_bind _ fun _ _ htype _ => by rw [htype]

/-! ### One lemma for each loop -/

theorem txMembersLoop_eq (h : SameWalk json json' toks toks') (e q : Nat)
    (exs : List RecordedExchange) (t : Nat) :
    txMembersLoop json toks e q exs t =
      txMembersLoop json' toks' e q exs t := by
  induction q generalizing exs t with
  | zero => rfl
  | succ q ih =>
      rw [txMembersLoop, txMembersLoop, h.length]
      split
      · refine h.copied_bind (by decide) t (fun text => ?_) ?_
        · exact bind_congr fun exs => ih exs _
        refine h.copied_bind (by decide) t (fun text => ?_) (ih exs _)
        exact bind_congr fun exs => ih exs _
      · rfl

theorem rxMembersLoop_eq (h : SameWalk json json' toks toks') (e rx q : Nat)
    (exs : List RecordedExchange) (t : Nat) :
    rxMembersLoop json toks e rx q exs t =
      rxMembersLoop json' toks' e rx q exs t := by
  induction q generalizing exs t with
  | zero => rfl
  | succ q ih =>
      rw [rxMembersLoop, rxMembersLoop, h.length]
      split
      · refine h.copied_bind (by decide) t (fun text => ?_) ?_
        · exact bind_congr fun exs => ih exs _
        refine h.copied_bind (by decide) t (fun text => ?_) ?_
        · exact bind_congr fun exs => ih exs _
        refine h.copied_bind (by decide) t (fun text => ?_) (ih exs _)
        exact bind_congr fun delay => bind_congr fun exs => ih exs _
      · rfl

theorem rxLoop_eq (h : SameWalk json json' toks toks') (e left rx : Nat)
    (exs : List RecordedExchange) (t : Nat) :
    rxLoop json toks e left rx exs t = rxLoop json' toks' e left rx exs t := by
  induction left generalizing rx exs t with
  | zero => rfl
  | succ left ih =>
      rw [rxLoop, rxLoop, h.length]
      split
      · refine h.tok_bind t fun tok tok' htype hsize => ?_
        rw [htype, hsize, h.rxMembersLoop_eq]
        simp only [ih]
      · rfl

theorem exchangeMembersLoop_eq (h : SameWalk json json' toks toks')
    (e k : Nat) (exs : List RecordedExchange) (j : Nat) :
    exchangeMembersLoop json toks e k exs j =
      exchangeMembersLoop json' toks' e k exs j := by
  induction k generalizing exs j with
  | zero => rfl
  | succ k ih =>
      rw [exchangeMembersLoop, exchangeMembersLoop, h.length]
      simp only [h.memberOf, ih]
      split
      · refine bind_congr fun found => ?_
        split
        · refine h.tok_bind _ fun tok tok' _ hsize => ?_
          rw [hsize, h.txMembersLoop_eq]
        refine bind_congr fun found => ?_
        split
        · refine h.tok_bind _ fun tok tok' _ hsize => ?_
          simp only [hsize, h.rxLoop_eq]
        · rfl
      · rfl

theorem exchangesLoop_eq (h : SameWalk json json' toks toks') (left e : Nat)
    (exs : List RecordedExchange) (j : Nat) :
    exchangesLoop json toks left e exs j =
      exchangesLoop json' toks' left e exs j := by
  induction left generalizing e exs j with
  | zero => rfl
  | succ left ih =>
      rw [exchangesLoop, exchangesLoop, h.length]
      split
      · refine h.tok_bind j fun tok tok' htype hsize => ?_
        rw [htype, hsize, h.exchangeMembersLoop_eq]
        simp only [ih]
      · rfl

theorem topLoop_eq (h : SameWalk json json' toks toks') (fuel : Nat)
    (r : Recording) (i : Nat) :
    topLoop json toks fuel r i = topLoop json' toks' fuel r i := by
  induction fuel generalizing r i with
  | zero => rw [topLoop, topLoop, h.length]
  | succ fuel ih =>
      rw [topLoop, topLoop, h.length]
      split
      · refine h.copied_bind (by decide) i (fun text => ?_) ?_
        · exact bind_congr fun id => ih _ _
        refine h.copied_bind (by decide) i (fun text => ?_) ?_
        · exact bind_congr fun profile => ih _ _
        rw [h.memberOf]
        refine bind_congr fun found => ?_
        split
        · refine h.tok_bind _ fun tok tok' _ hsize => ?_
          simp only [hsize, h.exchangesLoop_eq, ih]
        · exact ih _ _
      · rfl

/-- The whole walk reads the same recording. -/
theorem recordingLoad_eq (h : SameWalk json json' toks toks') :
    recordingLoad json toks = recordingLoad json' toks' := by
  have hlength := h.length
  cases toks with
  | nil =>
      obtain rfl := List.eq_nil_of_length_eq_zero hlength.symm
      rfl
  | cons tok rest =>
      obtain ⟨tok', rest', rfl⟩ : ∃ tok' rest', toks' = tok' :: rest' := by
        cases toks' with
        | nil => cases hlength
        | cons tok' rest' => exact ⟨tok', rest', rfl⟩
      have htype : tok.type = tok'.type := by
        exact congrArg Prod.fst (Option.some.inj (h.tok 0))
      rw [recordingLoad, recordingLoad, htype, h.topLoop_eq, hlength]

end SameWalk

/-! ### Two texts of one document -/

/-- Wherever the walk may copy the token behind a name, that token is a leaf:
the text of a container would be copied with its white space. -/
def Json.CopiesLeaves (doc : Json) : Prop :=
  ∀ x ∈ doc.flatten.zip doc.flatten.tail, ∀ name ∈ copiedNames,
    x.1.spells name = true → x.2.text.isSome

instance (doc : Json) : Decidable doc.CopiesLeaves :=
  inferInstanceAs (Decidable (∀ _ ∈ _, _))

theorem Json.CopiesLeaves.next {doc : Json} (h : doc.CopiesLeaves) {i : Nat}
    {shape next : TokShape} (hshape : doc.flatten[i]? = some shape)
    (hnext : doc.flatten[i + 1]? = some next) {name : List Char}
    (hname : name ∈ copiedNames) (hspells : shape.spells name = true) :
    next.text.isSome := by
  have hzip : (doc.flatten.zip doc.flatten.tail)[i]? = some (shape, next) := by
    rw [List.getElem?_zip_eq_some, List.getElem?_tail]
    exact ⟨hshape, hnext⟩
  exact h _ (List.mem_of_getElem? hzip) name hname hspells

theorem TokShape.Matches.kind {json : List Char} {shape : TokShape}
    {tok : JsmnTok} (h : shape.Matches json tok) :
    tok.kind = (shape.type, shape.size) :=
  Prod.ext h.1 h.2.1

theorem isMember_of_matches {json : List Char} {toks : List JsmnTok}
    {shapes : List TokShape} (hproper : ∀ shape ∈ shapes, shape.Proper)
    (h : List.Forall₂ (TokShape.Matches json) shapes toks) (i : Nat)
    (name : List Char) :
    isMember json toks i name =
      match shapes[i]? with
      | none => .error (.tokenRead i)
      | some shape =>
          .ok (shape.spells name && decide (i + 1 < shapes.length)) := by
  unfold isMember tokAt
  rw [h.length_eq]
  cases htok : toks[i]? with
  | none =>
      rw [List.getElem?_eq_none_iff, ← h.length_eq] at htok
      rw [List.getElem?_eq_none htok]
      rfl
  | some tok =>
      obtain ⟨shape, hshape, hmatches⟩ := forall₂_getElem? h htok
      rw [hshape, ok_bind, jsonEq_of_matches
        (hproper shape (List.mem_of_getElem? hshape)) hmatches]
      rfl

theorem sameWalk_of_tokenises {doc : Json} {json json' : List Char}
    {toks toks' : List JsmnTok} (hleaves : doc.CopiesLeaves)
    (h : Tokenises json doc toks) (h' : Tokenises json' doc toks') :
    SameWalk json json' toks toks' := by
  have hmember := isMember_of_matches doc.flatten_proper h.tokens
  have hmember' := isMember_of_matches doc.flatten_proper h'.tokens
  have hat : ∀ {json : List Char} {toks : List JsmnTok},
      Tokenises json doc toks → ∀ i : Nat,
        toks[i]?.map JsmnTok.kind =
          doc.flatten[i]?.map fun shape => (shape.type, shape.size) := by
    intro json toks h i
    rw [← List.getElem?_map, ← List.getElem?_map,
      map_eq_of_forall₂ (fun _ _ hmatches => hmatches.kind) h.tokens]
  exact {
    length := h.tokens.length_eq.symm.trans h'.tokens.length_eq
    tok := fun i => (hat h i).trans (hat h' i).symm
    member := fun i name => (hmember i name).trans (hmember' i name).symm
    text := by
      intro i name hname htrue
      rw [hmember i name] at htrue
      split at htrue
      · cases htrue
      · rename_i shape hshape
        rw [Except.ok.injEq, Bool.and_eq_true, decide_eq_true_eq] at htrue
        obtain ⟨hspells, hlt⟩ := htrue
        have hnext := List.getElem?_eq_getElem hlt
        obtain ⟨text, htext⟩ := Option.isSome_iff_exists.1
          (hleaves.next hshape hnext hname hspells)
        have hread : ∀ {json : List Char} {toks : List JsmnTok},
            Tokenises json doc toks → memberText json toks i = .ok text := by
          intro json toks h
          have hlt' : i + 1 < toks.length := by rwa [← h.tokens.length_eq]
          have htok := List.getElem?_eq_getElem hlt'
          obtain ⟨next, hget, hmatches⟩ := forall₂_getElem? h.tokens htok
          rw [hnext, Option.some.injEq] at hget
          subst hget
          rw [memberText, tokAt, htok, ok_bind, hmatches.2.2.2.2 text htext]
          rfl
        exact (hread h).trans (hread h').symm }

/-- Indentation, line ends and other white space are lost on the loader: from
any two texts of an object it loads the same recording. -/
theorem recordingLoadText_reformatted {members : List (List Char × Json)}
    {js js' : List Char} (hleaves : (Json.obj members).CopiesLeaves)
    (h : (Json.obj members).IsText js) (h' : (Json.obj members).IsText js')
    (hfits : js.length < 2 ^ 31) (hfits' : js'.length < 2 ^ 31)
    (hroom : (Json.obj members).flatten.length < 2 ^ 28) :
    ∃ m m' r, recordingLoadText js = .ok (some m) ∧
      recordingLoadText js' = .ok (some m') ∧ m.Holds r ∧ m'.Holds r := by
  obtain ⟨toks, m, r, htoks, hm, hr, hholds⟩ :=
    recordingLoadText_of_text h hfits hroom
  obtain ⟨toks', m', r', htoks', hm', hr', hholds'⟩ :=
    recordingLoadText_of_text h' hfits' hroom
  have hsame := (sameWalk_of_tokenises hleaves htoks htoks').recordingLoad_eq
  obtain rfl : r = r' := by
    rw [hr, hr', Except.ok.injEq, Option.some.injEq] at hsame
    exact hsame
  exact ⟨m, m', r, hm, hm', hholds, hholds'⟩

/-- One member, without white space and with all that the grammar allows. -/
theorem recordingLoadText_reformatted_line :
    ∃ m m' r,
      recordingLoadText ['{', '"', 'k', '"', ':', '"', 'a', '"', '}'] =
        .ok (some m) ∧
      recordingLoadText
          ['{', '\n', '"', 'k', '"', ':', ' ', '"', 'a', '"', ' ', '}'] =
        .ok (some m') ∧ m.Holds r ∧ m'.Holds r := by
  have hspelled : ∀ {pre mid post : List Char}, Blank pre → Blank mid →
      Blank post → MembersSpelled [(['k'], .str ['a'])]
        (pre ++ '"' :: 'k' :: '"' :: ':' ::
          (mid ++ '"' :: 'a' :: '"' :: post)) :=
    fun hpre hmid hpost => ⟨_, [], _, _, _, [], hpre,
      rawString_of_plain (by simp), blank_nil, hmid,
      ⟨rawString_of_plain (by simp), rfl⟩, hpost, by simp, .inl ⟨rfl, rfl⟩⟩
  exact @recordingLoadText_reformatted [(['k'], .str ['a'])] _ _ (by decide)
    ⟨[], _, [], blank_nil, ⟨_, hspelled blank_nil blank_nil blank_nil, rfl⟩,
      blank_nil, rfl⟩
    ⟨[], _, [], blank_nil, ⟨_, @hspelled ['\n'] [' '] [' '] (by decide)
      (by decide) (by decide), rfl⟩, blank_nil, rfl⟩ (by decide) (by decide) (by decide)

end FremSoft
