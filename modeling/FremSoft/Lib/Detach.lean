/-
Detaching the first element of a list that satisfies a predicate: the shape
of every "walk, unlink the first match, stop" traversal.  The lemmas say what
such a step does to the whole list and to a subsequence of it.
-/
import Mathlib.Data.List.Basic

namespace FremSoft

universe u v

variable {α : Type u}

/-- The first element satisfying `p`, with the list that remains without it. -/
def detach (p : α → Bool) : List α → Option (α × List α)
  | [] => none
  | a :: rest =>
      if p a then some (a, rest)
      else (detach p rest).map fun found => (found.1, a :: found.2)

@[simp] theorem detach_nil (p : α → Bool) : detach p [] = none := rfl

theorem detach_cons_of_pos {p : α → Bool} {a : α} (h : p a = true)
    (rest : List α) : detach p (a :: rest) = some (a, rest) := by
  simp [detach, h]

theorem detach_cons_of_neg {p : α → Bool} {a : α} (h : p a = false)
    (rest : List α) : detach p (a :: rest) =
      (detach p rest).map fun found => (found.1, a :: found.2) := by
  simp [detach, h]

/-- What a successful detach does: the list splits at the detached element,
nothing before it satisfies the predicate, and the two sides stay in order. -/
theorem detach_eq_some_iff {p : α → Bool} {l : List α} {a : α} {rest : List α} :
    detach p l = some (a, rest) ↔
      ∃ front back, l = front ++ a :: back ∧ rest = front ++ back ∧
        p a = true ∧ ∀ b ∈ front, p b = false := by
  induction l generalizing rest with
  | nil => simp
  | cons head tail ih =>
      cases hp : p head with
      | true =>
          rw [detach_cons_of_pos hp]
          constructor
          · intro h
            simp only [Option.some.injEq, Prod.mk.injEq] at h
            obtain ⟨rfl, rfl⟩ := h
            exact ⟨[], tail, rfl, rfl, hp, by simp⟩
          · rintro ⟨front, back, hsplit, rfl, _, hfront⟩
            cases front with
            | nil =>
                simp only [List.nil_append, List.cons.injEq] at hsplit
                obtain ⟨rfl, rfl⟩ := hsplit
                rfl
            | cons b front =>
                simp only [List.cons_append, List.cons.injEq] at hsplit
                have hb := hfront b List.mem_cons_self
                rw [← hsplit.1, hp] at hb
                contradiction
      | false =>
          rw [detach_cons_of_neg hp]
          simp only [Option.map_eq_some_iff, Prod.exists, Prod.mk.injEq]
          constructor
          · rintro ⟨found, remaining, hfound, rfl, rfl⟩
            obtain ⟨front, back, rfl, rfl, hpa, hfront⟩ := ih.1 hfound
            refine ⟨head :: front, back, rfl, rfl, hpa, ?_⟩
            intro b hb
            rcases List.mem_cons.1 hb with rfl | hb
            · exact hp
            · exact hfront b hb
          · rintro ⟨front, back, hsplit, rfl, hpa, hfront⟩
            cases front with
            | nil =>
                simp only [List.nil_append, List.cons.injEq] at hsplit
                rw [← hsplit.1, hp] at hpa
                contradiction
            | cons b front =>
                simp only [List.cons_append, List.cons.injEq] at hsplit
                obtain ⟨rfl, rfl⟩ := hsplit
                refine ⟨a, front ++ back, ?_, rfl, rfl⟩
                exact ih.2 ⟨front, back, rfl, rfl, hpa,
                  fun c hc => hfront c (List.mem_cons_of_mem _ hc)⟩

theorem detach_eq_none_iff {p : α → Bool} {l : List α} :
    detach p l = none ↔ ∀ a ∈ l, p a = false := by
  induction l with
  | nil => simp
  | cons head tail ih =>
      cases hp : p head with
      | true => simp [detach_cons_of_pos hp, hp]
      | false => simp [detach_cons_of_neg hp, hp, ih]

theorem detach_pos {p : α → Bool} {l : List α} {a : α} {rest : List α}
    (h : detach p l = some (a, rest)) : p a = true := by
  obtain ⟨_, _, _, _, hpa, _⟩ := detach_eq_some_iff.1 h
  exact hpa

theorem detach_mem {p : α → Bool} {l : List α} {a : α} {rest : List α}
    (h : detach p l = some (a, rest)) : a ∈ l := by
  obtain ⟨front, back, rfl, _, _, _⟩ := detach_eq_some_iff.1 h
  simp

/-- Nothing is lost or duplicated: the list is the detached element and the
remainder, rearranged. -/
theorem detach_perm {p : α → Bool} {l : List α} {a : α} {rest : List α}
    (h : detach p l = some (a, rest)) : l.Perm (a :: rest) := by
  obtain ⟨front, back, rfl, rfl, _, _⟩ := detach_eq_some_iff.1 h
  exact List.perm_middle

theorem detach_sublist {p : α → Bool} {l : List α} {a : α} {rest : List α}
    (h : detach p l = some (a, rest)) : rest.Sublist l := by
  obtain ⟨front, back, rfl, rfl, _, _⟩ := detach_eq_some_iff.1 h
  exact List.Sublist.append_left (List.sublist_cons_self a back) front

/-- A candidate is detached itself or gets one step closer to the front. -/
theorem detach_append_cons {p : α → Bool} {a : α} (hp : p a = true)
    (front back : List α) :
    detach p (front ++ a :: back) = some (a, front ++ back) ∨
      ∃ b front', detach p (front ++ a :: back) =
          some (b, front' ++ a :: back) ∧
        front.length = front'.length + 1 := by
  induction front with
  | nil => exact Or.inl (detach_cons_of_pos hp back)
  | cons head tail ih =>
      rw [List.cons_append]
      cases hhead : p head with
      | true =>
          exact Or.inr ⟨head, tail, detach_cons_of_pos hhead _, rfl⟩
      | false =>
          rw [detach_cons_of_neg hhead]
          rcases ih with hself | ⟨b, front', hother, hlength⟩
          · exact Or.inl (by simp [hself])
          · exact Or.inr ⟨b, head :: front', by simp [hother], by
              rw [List.length_cons, List.length_cons, hlength]⟩

/-- The same in terms of the library's search and removal. -/
theorem detach_eq_find_eraseP (p : α → Bool) (l : List α) :
    detach p l = (l.find? p).map fun a => (a, l.eraseP p) := by
  induction l with
  | nil => rfl
  | cons head tail ih =>
      cases hp : p head with
      | true =>
          rw [detach_cons_of_pos hp, List.find?_cons_of_pos hp,
            List.eraseP_cons_of_pos hp]
          rfl
      | false =>
          have hnot : ¬p head = true := by simp [hp]
          rw [detach_cons_of_neg hp, ih, List.find?_cons_of_neg hnot,
            List.eraseP_cons_of_neg hnot, Option.map_map]
          rfl

/-- Detaching from an image. -/
theorem detach_map {β : Type v} (f : β → α) (p : α → Bool) (l : List β) :
    detach p (l.map f) =
      (detach (p ∘ f) l).map fun found => (f found.1, found.2.map f) := by
  induction l with
  | nil => rfl
  | cons head tail ih =>
      rw [List.map_cons]
      cases hp : p (f head) with
      | true =>
          rw [detach_cons_of_pos hp, detach_cons_of_pos (p := p ∘ f) hp]
          rfl
      | false =>
          rw [detach_cons_of_neg hp, detach_cons_of_neg (p := p ∘ f) hp, ih,
            Option.map_map, Option.map_map]
          rfl

/-- Elements that `p` never takes may be left out beforehand or afterwards. -/
theorem detach_filter {p q : α → Bool} (himp : ∀ b, p b = true → q b = true)
    (l : List α) : detach p (l.filter q) =
      (detach p l).map fun found => (found.1, found.2.filter q) := by
  induction l with
  | nil => rfl
  | cons head tail ih =>
      cases hp : p head with
      | true =>
          rw [List.filter_cons_of_pos (himp head hp), detach_cons_of_pos hp,
            detach_cons_of_pos hp]
          rfl
      | false =>
          rw [detach_cons_of_neg hp, Option.map_map]
          cases hq : q head with
          | true =>
              rw [List.filter_cons_of_pos hq, detach_cons_of_neg hp, ih,
                Option.map_map]
              simp [Function.comp_def, hq]
          | false =>
              rw [List.filter_cons_of_neg (by simp [hq]), ih]
              simp [Function.comp_def, hq]

/-- A subsequence the detached element does not belong to is untouched. -/
theorem filter_detach_of_neg {p q : α → Bool} {l : List α} {a : α}
    {rest : List α} (h : detach p l = some (a, rest)) (hq : q a = false) :
    rest.filter q = l.filter q := by
  obtain ⟨front, back, rfl, rfl, _, _⟩ := detach_eq_some_iff.1 h
  simp [hq]

/-- The candidates give up the first of them. -/
theorem filter_of_detach {p : α → Bool} {l : List α} {a : α} {rest : List α}
    (h : detach p l = some (a, rest)) : l.filter p = a :: rest.filter p := by
  obtain ⟨front, back, rfl, rfl, hpa, hfront⟩ := detach_eq_some_iff.1 h
  have hnone : front.filter p = [] := by
    rw [List.filter_eq_nil_iff]
    intro b hb
    simp [hfront b hb]
  simp [hnone, hpa]

/-- A subsequence along which `p` can only be lost, never gained, gives up its
own head. -/
theorem filter_detach_of_pos {p q : α → Bool} {R : α → α → Prop} {l : List α}
    {a : α} {rest : List α} (h : detach p l = some (a, rest))
    (hq : q a = true) (hordered : (l.filter q).Pairwise R)
    (hdown : ∀ b, q b = true → R b a → p b = true) :
    l.filter q = a :: rest.filter q := by
  obtain ⟨front, back, rfl, rfl, _, hfront⟩ := detach_eq_some_iff.1 h
  have hnone : front.filter q = [] := by
    rw [List.filter_eq_nil_iff]
    intro b hb hqb
    rw [List.filter_append, List.filter_cons_of_pos hq,
      List.pairwise_append] at hordered
    have hR : R b a := hordered.2.2 b (List.mem_filter.2 ⟨hb, hqb⟩) a
      List.mem_cons_self
    have hpb := hfront b hb
    rw [hdown b hqb hR] at hpb
    contradiction
  simp [hnone, hq]

/-- Along an ordered subsequence that holds every candidate, the detached
element comes before every candidate that remains. -/
theorem detach_least {p q : α → Bool} {R : α → α → Prop} {l : List α} {a : α}
    {rest : List α} (h : detach p l = some (a, rest))
    (himp : ∀ b, p b = true → q b = true)
    (hordered : (l.filter q).Pairwise R) :
    ∀ b ∈ rest, p b = true → R a b := by
  obtain ⟨front, back, rfl, rfl, hpa, hfront⟩ := detach_eq_some_iff.1 h
  intro b hb hpb
  rcases List.mem_append.1 hb with hb | hb
  · rw [hfront b hb] at hpb
    contradiction
  · rw [List.filter_append, List.filter_cons_of_pos (himp a hpa),
      List.pairwise_append, List.pairwise_cons] at hordered
    exact hordered.2.1.1 b (List.mem_filter.2 ⟨hb, himp b hpb⟩)

end FremSoft
