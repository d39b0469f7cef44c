/-
Lists related element by element: what carries over from one list to the
other, and how a relation splits along an append.
-/
import Mathlib.Data.List.Forall2

namespace FremSoft

universe u v w

variable {α : Type u} {β : Type v} {γ : Type w}

theorem forall₂_exists_right {R : α → β → Prop} {l : List α} {l' : List β}
    (h : List.Forall₂ R l l') {a : α} (ha : a ∈ l) : ∃ b ∈ l', R a b := by
  induction h with
  | nil => simp at ha
  | cons hhead _ ih =>
      rcases List.mem_cons.1 ha with rfl | ha
      · exact ⟨_, List.mem_cons_self, hhead⟩
      · obtain ⟨b, hb, hab⟩ := ih ha
        exact ⟨b, List.mem_cons_of_mem _ hb, hab⟩

/-- Related lists are related position by position. -/
theorem forall₂_getElem? {R : α → β → Prop} {l : List α} {l' : List β}
    (h : List.Forall₂ R l l') {k : Nat} {b : β} (hb : l'[k]? = some b) :
    ∃ a, l[k]? = some a ∧ R a b := by
  induction h generalizing k with
  | nil => simp at hb
  | @cons a b' l l' hrelated _ ih =>
      cases k with
      | zero =>
          rw [List.getElem?_cons_zero, Option.some.injEq] at hb
          subst hb
          exact ⟨a, rfl, hrelated⟩
      | succ k =>
          rw [List.getElem?_cons_succ] at hb ⊢
          exact ih hb

theorem forall₂_exists_left {R : α → β → Prop} {l : List α} {l' : List β}
    (h : List.Forall₂ R l l') {b : β} (hb : b ∈ l') : ∃ a ∈ l, R a b :=
  forall₂_exists_right (R := fun b a => R a b) h.flip hb

/-- Changing both lists at one position. -/
theorem forall₂_modify {R : α → β → Prop} {l : List α} {l' : List β} {i : Nat}
    {f : α → α} {g : β → β} (h : List.Forall₂ R l l')
    (hat : ∀ a b, l[i]? = some a → R a b → R (f a) (g b)) :
    List.Forall₂ R (l.modify i f) (l'.modify i g) := by
  induction h generalizing i with
  | nil => simp
  | @cons a b l l' hhead htail ih =>
      cases i with
      | zero =>
          rw [List.modify_zero_cons, List.modify_zero_cons]
          exact List.Forall₂.cons (hat a b rfl hhead) htail
      | succ i =>
          rw [List.modify_succ_cons, List.modify_succ_cons]
          exact List.Forall₂.cons hhead (ih hat)

/-- An order along the right list is an order along the left one. -/
theorem forall₂_pairwise {R : α → β → Prop} {S : α → α → Prop}
    {T : β → β → Prop} {l : List α} {l' : List β} (h : List.Forall₂ R l l')
    (himp : ∀ a b a' b', R a b → R a' b' → T b b' → S a a')
    (hordered : l'.Pairwise T) : l.Pairwise S := by
  induction h with
  | nil => exact List.Pairwise.nil
  | cons hhead htail ih =>
      rw [List.pairwise_cons] at hordered ⊢
      refine ⟨?_, ih hordered.2⟩
      intro a' ha'
      obtain ⟨b', hb', hrel⟩ := forall₂_exists_right htail ha'
      exact himp _ _ _ _ hhead hrel (hordered.1 b' hb')

theorem forall₂_append {R : α → β → Prop} {l₁ l₂ : List α} {l₁' l₂' : List β}
    (hfront : List.Forall₂ R l₁ l₁') (hback : List.Forall₂ R l₂ l₂') :
    List.Forall₂ R (l₁ ++ l₂) (l₁' ++ l₂') :=
  List.rel_append hfront hback

/-- Two relations along a shared middle list compose. -/
theorem forall₂_comp {R : α → β → Prop} {S : β → γ → Prop} {T : α → γ → Prop}
    (himp : ∀ a b c, R a b → S b c → T a c) {l : List α} {m : List β}
    {r : List γ} (hleft : List.Forall₂ R l m) (hright : List.Forall₂ S m r) :
    List.Forall₂ T l r := by
  induction hleft generalizing r with
  | nil =>
      rw [List.forall₂_nil_left_iff] at hright
      rw [hright]
      exact List.Forall₂.nil
  | cons hhead _ ih =>
      rw [List.forall₂_cons_left_iff] at hright
      obtain ⟨c, rest, hc, hrest, rfl⟩ := hright
      exact List.Forall₂.cons (himp _ _ _ hhead hc) (ih hrest)

/-- Two maps that agree along the relation. -/
theorem map_eq_of_forall₂ {R : α → β → Prop} {f : α → γ} {g : β → γ}
    (himp : ∀ a b, R a b → g b = f a) {l : List α} {l' : List β}
    (h : List.Forall₂ R l l') : l'.map g = l.map f := by
  induction h with
  | nil => rfl
  | cons hhead _ ih => rw [List.map_cons, List.map_cons, himp _ _ hhead, ih]

/-- A partial function that is defined along a list, with what it yields. -/
theorem exists_mapM_eq_some {α β : Type} {f : α → Option β} {R : α → β → Prop}
    {l : List α} (h : ∀ a ∈ l, ∃ b, f a = some b ∧ R a b) :
    ∃ l', l.mapM f = some l' ∧ List.Forall₂ R l l' := by
  induction l with
  | nil => exact ⟨[], rfl, .nil⟩
  | cons a l ih =>
      obtain ⟨b, hb, hab⟩ := h a List.mem_cons_self
      obtain ⟨l', hl', hrelated⟩ := ih fun a ha =>
        h a (List.mem_cons_of_mem _ ha)
      exact ⟨b :: l', by simp [hb, hl'], .cons hab hrelated⟩

end FremSoft
