/-
Every document has a text, and the text has a tokenisation.  The loader takes
both as inputs, so this is what makes statements about them say something.
-/
import FremSoft.JsonDoc

namespace FremSoft

mutual

def Json.render : Json → List Char
  | .str raw => '"' :: (raw ++ ['"'])
  | .prim raw => raw
  | .arr items => '[' :: (renderItems items ++ [']'])
  | .obj members => '{' :: (renderMembers members ++ ['}'])

def renderItems : List Json → List Char
  | [] => []
  | [item] => item.render
  | item :: next :: rest => item.render ++ ',' :: renderItems (next :: rest)

def renderMembers : List (List Char × Json) → List Char
  | [] => []
  | [(name, value)] => '"' :: (name ++ '"' :: ':' :: value.render)
  | (name, value) :: next :: rest =>
      '"' :: (name ++ '"' :: ':' :: (value.render ++
        ',' :: renderMembers (next :: rest)))

end

/-- The token of a stretch of text that stands behind `front`. -/
theorem tokText_of_append (front text back : List Char) (type : JsmnType)
    (size : Nat) :
    TokShape.Matches (front ++ (text ++ back))
      { type, size, text := some text }
      { type, start := front.length, stop := front.length + text.length
        size } := by
  refine ⟨rfl, rfl, by simp, by simp, ?_⟩
  simp [tokText]

/-- The token of a container that stands behind `front`. -/
theorem matches_container (front text back : List Char) (type : JsmnType)
    (size : Nat) :
    TokShape.Matches (front ++ (text ++ back)) { type, size, text := none }
      { type, start := front.length, stop := front.length + text.length
        size } := by
  refine ⟨rfl, rfl, by simp, by simp, ?_⟩
  simp

/-- There are tokens of these shapes in the text. -/
def HasTokens (json : List Char) (shapes : List TokShape) : Prop :=
  ∃ toks, List.Forall₂ (TokShape.Matches json) shapes toks

theorem HasTokens.cons {json : List Char} {shape : TokShape}
    {shapes : List TokShape} {tok : JsmnTok} (h : shape.Matches json tok)
    (hrest : HasTokens json shapes) : HasTokens json (shape :: shapes) := by
  obtain ⟨toks, htoks⟩ := hrest
  exact ⟨tok :: toks, .cons h htoks⟩

theorem HasTokens.append {json : List Char} {front back : List TokShape}
    (hfront : HasTokens json front) (hback : HasTokens json back) :
    HasTokens json (front ++ back) := by
  obtain ⟨toks, htoks⟩ := hfront
  obtain ⟨toks', htoks'⟩ := hback
  exact ⟨toks ++ toks', List.rel_append htoks htoks'⟩

mutual

/-- Wherever the text of a value stands, its tokens are there. -/
theorem Json.hasTokens : ∀ (value : Json) (front back : List Char),
    HasTokens (front ++ (value.render ++ back)) value.flatten
  | .str raw, front, back => by
      have h := tokText_of_append (front ++ ['"']) raw ('"' :: back) .string 0
      simp only [List.append_assoc, List.cons_append, List.nil_append] at h
      simp only [Json.render, Json.flatten, List.cons_append, List.append_assoc,
        List.nil_append]
      exact .cons h ⟨[], .nil⟩
  | .prim raw, front, back =>
      .cons (tokText_of_append front raw back .primitive 0) ⟨[], .nil⟩
  | .arr items, front, back => by
      have h := matches_container front (Json.arr items).render back .array
        items.length
      refine .cons h ?_
      have hitems := hasTokens_items items (front ++ ['[']) (']' :: back)
      simpa [Json.render] using hitems
  | .obj members, front, back => by
      have h := matches_container front (Json.obj members).render back .object
        members.length
      refine .cons h ?_
      have hmembers := hasTokens_members members (front ++ ['{']) ('}' :: back)
      simpa [Json.render] using hmembers

theorem hasTokens_items : ∀ (items : List Json) (front back : List Char),
    HasTokens (front ++ (renderItems items ++ back)) (flattenItems items)
  | [], _, _ => ⟨[], .nil⟩
  | [item], front, back => by
      simpa [renderItems, flattenItems] using item.hasTokens front back
  | item :: next :: rest, front, back => by
      have hitem := item.hasTokens front
        (',' :: (renderItems (next :: rest) ++ back))
      have hrest := hasTokens_items (next :: rest)
        (front ++ (item.render ++ [','])) back
      rw [flattenItems, renderItems]
      refine .append ?_ ?_
      · simpa using hitem
      · simpa using hrest

theorem hasTokens_members :
    ∀ (members : List (List Char × Json)) (front back : List Char),
      HasTokens (front ++ (renderMembers members ++ back))
        (flattenMembers members)
  | [], _, _ => ⟨[], .nil⟩
  | [(name, value)], front, back => by
      have hkey := tokText_of_append (front ++ ['"']) name
        ('"' :: ':' :: (value.render ++ back)) .string 1
      have hvalue := value.hasTokens (front ++ '"' :: (name ++ ['"', ':'])) back
      rw [flattenMembers, renderMembers]
      refine .cons (by simpa [TokShape.key] using hkey) (.append ?_ ⟨[], .nil⟩)
      simpa using hvalue
  | (name, value) :: next :: rest, front, back => by
      have hkey := tokText_of_append (front ++ ['"']) name ('"' :: ':' ::
        (value.render ++ ',' :: (renderMembers (next :: rest) ++ back)))
        .string 1
      have hvalue := value.hasTokens (front ++ '"' :: (name ++ ['"', ':']))
        (',' :: (renderMembers (next :: rest) ++ back))
      have hrest := hasTokens_members (next :: rest)
        (front ++ '"' :: (name ++ '"' :: ':' :: (value.render ++ [',']))) back
      rw [flattenMembers, renderMembers]
      refine .cons (by simpa [TokShape.key] using hkey) (.append ?_ ?_)
      · simpa using hvalue
      · simpa using hrest

end

/-- The text of a document that `int` offsets reach has a tokenisation. -/
theorem exists_tokenises (doc : Json) (hfits : doc.render.length < 2 ^ 31) :
    ∃ toks, Tokenises doc.render doc toks := by
  have h := doc.hasTokens [] []
  rw [List.nil_append, List.append_nil] at h
  obtain ⟨toks, htoks⟩ := h
  exact ⟨toks, hfits, htoks⟩

end FremSoft
