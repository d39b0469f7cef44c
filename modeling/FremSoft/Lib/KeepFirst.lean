/-
Keeping, of the elements of a list with equal keys, only the first one: what a
table that is filled in order and never overwritten ends up with, and how many
of the elements it leaves out differ from the one it keeps.
-/
import Mathlib.Data.List.Nodup
import Mathlib.Data.List.Range

namespace FremSoft

universe u v

variable {α β : Type u} {κ : Type v} [DecidableEq κ]

/-- The elements whose key has not been seen, each key once. -/
def keepFirst (key : α → κ) (seen : List κ) : List α → List α
  | [] => []
  | a :: rest =>
      if key a ∈ seen then keepFirst key seen rest
      else a :: keepFirst key (seen ++ [key a]) rest

theorem mem_of_mem_keepFirst {key : α → κ} {seen : List κ} {l : List α} {a : α}
    (h : a ∈ keepFirst key seen l) : a ∈ l := by
  induction l generalizing seen with
  | nil => simp [keepFirst] at h
  | cons b rest ih =>
      by_cases hseen : key b ∈ seen
      · rw [keepFirst, if_pos hseen] at h
        exact List.mem_cons_of_mem b (ih h)
      · rw [keepFirst, if_neg hseen] at h
        rcases List.mem_cons.1 h with rfl | h
        · exact List.mem_cons_self
        · exact List.mem_cons_of_mem b (ih h)

theorem keepFirst_map (key : β → κ) (f : α → β) (seen : List κ) (l : List α) :
    keepFirst key seen (l.map f) =
      (keepFirst (fun a => key (f a)) seen l).map f := by
  induction l generalizing seen with
  | nil => rfl
  | cons a rest ih =>
      rw [List.map_cons, keepFirst, keepFirst]
      split
      · exact ih seen
      · rw [List.map_cons, ih]

/-- Looking a key up finds what the whole list would give. -/
theorem find?_keepFirst (key : α → κ) {seen : List κ} (l : List α) {k : κ}
    (hk : k ∉ seen) :
    (keepFirst key seen l).find? (fun a => decide (key a = k)) =
      l.find? fun a => decide (key a = k) := by
  induction l generalizing seen with
  | nil => rfl
  | cons a rest ih =>
      by_cases hseen : key a ∈ seen
      · have hne : key a ≠ k := fun heq => hk (heq ▸ hseen)
        rw [keepFirst, if_pos hseen, ih hk, List.find?_cons_of_neg (by simpa)]
      · rw [keepFirst, if_neg hseen]
        by_cases heq : key a = k
        · rw [List.find?_cons_of_pos (by simpa), List.find?_cons_of_pos
            (by simpa)]
        · have hk' : k ∉ seen ++ [key a] := by
            simpa [hk] using fun h => heq h.symm
          rw [List.find?_cons_of_neg (by simpa), List.find?_cons_of_neg
            (by simpa), ih hk']

/-! ### What is kept -/

theorem mem_map_keepFirst {key : α → κ} {seen : List κ} {l : List α} {k : κ} :
    k ∈ (keepFirst key seen l).map key ↔ k ∈ l.map key ∧ k ∉ seen := by
  induction l generalizing seen with
  | nil => simp [keepFirst]
  | cons a rest ih =>
      rw [keepFirst, List.map_cons, List.mem_cons]
      split
      · next hseen =>
        rw [ih]
        constructor
        · rintro ⟨hk, hnot⟩
          exact ⟨.inr hk, hnot⟩
        · rintro ⟨rfl | hk, hnot⟩
          · exact absurd hseen hnot
          · exact ⟨hk, hnot⟩
      · next hseen =>
        rw [List.map_cons, List.mem_cons, ih, List.mem_append,
          List.mem_singleton]
        constructor
        · rintro (rfl | ⟨hk, hnot⟩)
          · exact ⟨.inl rfl, hseen⟩
          · exact ⟨.inr hk, fun h => hnot (.inl h)⟩
        · rintro ⟨rfl | hk, hnot⟩
          · exact .inl rfl
          · by_cases heq : k = key a
            · exact .inl heq
            · exact .inr ⟨hk, fun h => h.elim hnot heq⟩

/-- The keys come in the order of their first occurrence. -/
theorem keepFirst_pairwise_idxOf [BEq κ] [LawfulBEq κ] (key : α → κ)
    (seen : List κ) (l : List α) :
    ((keepFirst key seen l).map key).Pairwise fun j k =>
      (l.map key).idxOf j < (l.map key).idxOf k := by
  induction l generalizing seen with
  | nil => exact .nil
  | cons a rest ih =>
      have hlater : ∀ {k : κ}, k ≠ key a → ((a :: rest).map key).idxOf k =
          (rest.map key).idxOf k + 1 := by
        intro k hne
        rw [List.map_cons, List.idxOf_cons_ne _ (Ne.symm hne)]
      rw [keepFirst]
      split
      · next hseen =>
        refine (ih seen).imp_of_mem fun {j k} hj hk hlt => ?_
        have hkept : ∀ {i : κ}, i ∈ (keepFirst key seen rest).map key →
            i ≠ key a := fun hi heq =>
          (mem_map_keepFirst.1 hi).2 (heq ▸ hseen)
        rw [hlater (hkept hj), hlater (hkept hk)]
        exact Nat.succ_lt_succ hlt
      · have hkept : ∀ {i : κ},
            i ∈ (keepFirst key (seen ++ [key a]) rest).map key →
              i ≠ key a := fun hi heq =>
          (mem_map_keepFirst.1 hi).2 (by simp [heq])
        refine List.pairwise_cons.2
          ⟨fun k hk => ?_, (ih _).imp_of_mem fun {j k} hj hk hlt => ?_⟩
        · rw [hlater (hkept hk), List.map_cons, List.idxOf_cons_self]
          exact Nat.succ_pos _
        · rw [hlater (hkept hj), hlater (hkept hk)]
          exact Nat.succ_lt_succ hlt

theorem nodup_map_keepFirst (key : α → κ) (seen : List κ) (l : List α) :
    ((keepFirst key seen l).map key).Nodup :=
  (keepFirst_pairwise_idxOf key seen l).imp fun hlt heq => by
    rw [heq] at hlt
    exact Nat.lt_irrefl _ hlt

/-- What is kept is the first element of its key. -/
theorem find?_of_mem_keepFirst {key : α → κ} {seen : List κ} {l : List α}
    {a : α} (h : a ∈ keepFirst key seen l) :
    l.find? (fun b => decide (key b = key a)) = some a := by
  induction l generalizing seen with
  | nil => simp [keepFirst] at h
  | cons b rest ih =>
      have hskip : ∀ {seen' : List κ}, a ∈ keepFirst key seen' rest →
          key b ∈ seen' → (b :: rest).find?
            (fun c => decide (key c = key a)) = some a := by
        intro seen' hmem hb
        have hnot := (mem_map_keepFirst.1 (List.mem_map_of_mem hmem)).2
        have hne : key b ≠ key a := fun heq => hnot (heq ▸ hb)
        rw [List.find?_cons_of_neg (by simpa using hne), ih hmem]
      rw [keepFirst] at h
      split at h
      · next hseen => exact hskip h hseen
      · rcases List.mem_cons.1 h with rfl | h
        · exact List.find?_cons_of_pos (by simp)
        · exact hskip h (by simp)

/-! ### What is left out -/

/-- Does the element at `i` differ from the first one of its key, if that is
one in front of it? -/
def differsAt (key : α → κ) (differs : α → α → Bool) (l : List α) (i : Nat) :
    Bool :=
  match l[i]? with
  | none => false
  | some a =>
      match (l.take i).find? fun b => decide (key b = key a) with
      | none => false
      | some first => differs first a

/-- How many elements are left out that differ from the one kept. -/
def countDiffering (key : α → κ) (differs : α → α → Bool) (l : List α) : Nat :=
  (List.range l.length).countP (differsAt key differs l)

theorem differsAt_iff {key : α → κ} {differs : α → α → Bool} {l : List α}
    {i : Nat} : differsAt key differs l i = true ↔
      ∃ a first, l[i]? = some a ∧
        (l.take i).find? (fun b => decide (key b = key a)) = some first ∧
        differs first a = true := by
  unfold differsAt
  cases l[i]? with
  | none => simp
  | some a =>
      cases hfirst : (l.take i).find? fun b => decide (key b = key a) with
      | none => simp [hfirst]
      | some first => simp [hfirst]

/-- One more element counts if it differs from the first of its key. -/
theorem countDiffering_concat (key : α → κ) (differs : α → α → Bool)
    (l : List α) (a : α) : countDiffering key differs (l ++ [a]) =
      countDiffering key differs l +
        if (l.find? fun b => decide (key b = key a)).any (differs · a) then 1
        else 0 := by
  have hfront : ∀ i ∈ List.range l.length,
      differsAt key differs (l ++ [a]) i = true ↔
        differsAt key differs l i = true := by
    intro i hi
    have hlt := List.mem_range.1 hi
    rw [differsAt_iff, differsAt_iff, List.getElem?_append_left hlt,
      List.take_append_of_le_length hlt.le]
  have hlast : differsAt key differs (l ++ [a]) l.length =
      (l.find? fun b => decide (key b = key a)).any (differs · a) := by
    simp only [differsAt, List.getElem?_concat_length, List.take_left]
    cases l.find? fun b => decide (key b = key a) <;> rfl
  rw [countDiffering, List.length_append, List.length_singleton,
    List.range_succ, List.countP_append, List.countP_congr hfront,
    List.countP_singleton, hlast]
  rfl

/-- A finer comparison counts the same only if it finds the same. -/
theorem countDiffering_eq_iff {key : α → κ} {finer differs : α → α → Bool}
    (himp : ∀ a b, differs a b = true → finer a b = true) {l : List α} :
    countDiffering key differs l = countDiffering key finer l ↔
      ∀ i, differsAt key finer l i = true →
        differsAt key differs l i = true := by
  have hsub : ∀ i, differsAt key differs l i = true →
      differsAt key finer l i = true := by
    intro i hi
    obtain ⟨a, first, ha, hfirst, hdiffers⟩ := differsAt_iff.1 hi
    exact differsAt_iff.2 ⟨a, first, ha, hfirst, himp _ _ hdiffers⟩
  have hsplit := List.countP_eq_countP_filter_add (List.range l.length)
    (differsAt key finer l) (differsAt key differs l)
  have hboth : ((List.range l.length).filter (differsAt key differs l)).countP
      (differsAt key finer l) = countDiffering key differs l := by
    rw [countDiffering, List.countP_filter]
    refine List.countP_congr fun i _ => ?_
    rw [Bool.and_eq_true]
    exact ⟨fun h => h.2, fun h => ⟨hsub i h, h⟩⟩
  rw [← countDiffering, hboth] at hsplit
  rw [hsplit, eq_comm, Nat.add_eq_left, List.countP_eq_zero]
  constructor
  · intro hnone i hi
    have hlt : i < l.length := by
      obtain ⟨a, _, ha, _⟩ := differsAt_iff.1 hi
      exact (List.getElem?_eq_some_iff.1 ha).1
    by_contra hnot
    have hleft : i ∈ (List.range l.length).filter
        (fun j => !differsAt key differs l j) :=
      List.mem_filter.2 ⟨List.mem_range.2 hlt, by simpa using hnot⟩
    exact hnone i hleft hi
  · intro hall i hi hfiner
    have hnot := (List.mem_filter.1 hi).2
    simp [hall i hfiner] at hnot

end FremSoft
