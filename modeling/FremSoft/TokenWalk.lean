/-
The token walk seen from a document.  A position of the walk is described by
the tokens that are still ahead of it, up to the end of the document; the
lemmas say what one pass of each loop does in front of a given member.
-/
import FremSoft.JsonDoc
import FremSoft.Lib.Outcome

namespace FremSoft

theorem jsonEq_of_matches {json : List Char} {shape : TokShape} {tok : JsmnTok}
    (hproper : shape.Proper) (h : shape.Matches json tok) (s : List Char) :
    jsonEq json tok s = shape.spells s := by
  obtain ⟨htype, _, hle, hstop, htext⟩ := h
  by_cases hstring : shape.type = .string
  · obtain ⟨raw, hraw⟩ := Option.isSome_iff_exists.1 (hproper hstring)
    have hspan := htext raw hraw
    have hlength : raw.length = tok.stop - tok.start := by
      rw [← hspan, tokText, List.length_take, List.length_drop]
      omega
    by_cases hsame : raw = s
    · subst hsame
      rw [tokText] at hspan
      simp [jsonEq, TokShape.spells, htype, hstring, hraw, hlength, hspan]
    · have hfalse : shape.spells s = false := by
        simp [TokShape.spells, hstring, hraw, hsame]
      rw [hfalse]
      by_contra heq
      simp only [jsonEq, Bool.not_eq_false, Bool.and_eq_true, beq_iff_eq] at heq
      rw [← heq.1.2] at heq
      exact hsame (hspan.symm.trans heq.2)
  · have hfalse : (shape.type == JsmnType.string) = false := by
      simpa using hstring
    simp [jsonEq, TokShape.spells, htype, hfalse]

/-- The tokens from position `t` to the end are these. -/
def Ahead (json : List Char) (toks : List JsmnTok) (t : Nat)
    (shapes : List TokShape) : Prop :=
  List.Forall₂ (TokShape.Matches json) shapes (toks.drop t)

section Ahead

variable {json : List Char} {toks : List JsmnTok} {t : Nat}
  {shape next : TokShape} {rest : List TokShape}

theorem Ahead.head (h : Ahead json toks t (shape :: rest)) :
    ∃ tok, toks[t]? = some tok ∧ t < toks.length ∧ shape.Matches json tok := by
  obtain ⟨tok, tail, hmatches, _, hdrop⟩ := List.forall₂_cons_left_iff.1 h
  have hget : toks[t]? = some tok := by
    rw [← List.head?_drop, hdrop]
    rfl
  exact ⟨tok, hget, (List.getElem?_eq_some_iff.1 hget).1, hmatches⟩

theorem Ahead.tail (h : Ahead json toks t (shape :: rest)) :
    Ahead json toks (t + 1) rest := by
  obtain ⟨tok, tail, _, htail, hdrop⟩ := List.forall₂_cons_left_iff.1 h
  rw [Ahead, ← List.tail_drop, hdrop]
  exact htail

theorem Ahead.lt (h : Ahead json toks t (shape :: rest)) : t < toks.length := by
  obtain ⟨_, _, hlt, _⟩ := h.head
  exact hlt

theorem Ahead.end_le (h : Ahead json toks t []) : toks.length ≤ t := by
  rw [Ahead, List.forall₂_nil_left_iff, List.drop_eq_nil_iff] at h
  exact h

/-- Past a stretch of tokens, the rest is ahead. -/
theorem Ahead.skip {front : List TokShape}
    (h : Ahead json toks t (front ++ rest)) :
    Ahead json toks (t + front.length) rest := by
  induction front generalizing t with
  | nil => exact h
  | cons shape front ih =>
      have := ih h.tail
      rwa [List.length_cons, Nat.add_comm front.length, ← Nat.add_assoc]

theorem tokAt_of_ahead (h : Ahead json toks t (shape :: rest)) :
    ∃ tok, tokAt toks t = .ok tok ∧ shape.Matches json tok := by
  obtain ⟨tok, hget, _, hmatches⟩ := h.head
  exact ⟨tok, by simp [tokAt, hget], hmatches⟩

/-- `json_eq(...) && i + 1 < n` at a token that is not the last. -/
theorem isMember_of_ahead (h : Ahead json toks t (shape :: next :: rest))
    (hproper : shape.Proper) (name : List Char) :
    isMember json toks t name = .ok (shape.spells name) := by
  obtain ⟨tok, htok, hmatches⟩ := tokAt_of_ahead h
  have hlt := h.tail.lt
  simp [isMember, htok, jsonEq_of_matches hproper hmatches, hlt]

/-- The text of the token after `t`. -/
theorem memberText_of_ahead (h : Ahead json toks t (shape :: next :: rest))
    {text : List Char} (htext : next.text = some text) :
    memberText json toks t = .ok text := by
  obtain ⟨tok, htok, hmatches⟩ := tokAt_of_ahead h.tail
  simp [memberText, htok, hmatches.2.2.2.2 text htext]

theorem isMemberOf_of_ahead (h : Ahead json toks t (shape :: next :: rest))
    (hproper : shape.Proper) (name : List Char) (type : JsmnType) :
    isMemberOf json toks t name type =
      .ok (shape.spells name && next.type == type) := by
  rw [isMemberOf, isMember_of_ahead h hproper]
  cases hspells : shape.spells name with
  | false => simp
  | true =>
      obtain ⟨tok, htok, hmatches⟩ := tokAt_of_ahead h.tail
      simp [htok, hmatches.1]

end Ahead

end FremSoft
