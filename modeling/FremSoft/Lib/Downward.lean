/-
A loop that counts down and stops at the first index with a property:
`for (i = n - 1; i >= 0; i--) if (p(i)) break;`.
-/
import Mathlib.Data.Nat.Notation
import Mathlib.Tactic.Common

namespace FremSoft

/-- The greatest index below `n` with the property. -/
def lastBelow (p : Nat → Bool) : Nat → Option Nat
  | 0 => none
  | n + 1 => if p n then some n else lastBelow p n

theorem lastBelow_spec {p : Nat → Bool} {n i : Nat}
    (h : lastBelow p n = some i) :
    i < n ∧ p i = true ∧ ∀ j, i < j → j < n → p j = false := by
  induction n with
  | zero => cases h
  | succ n ih =>
      rw [lastBelow] at h
      split at h
      · rename_i hn
        cases h
        exact ⟨Nat.lt_succ_self _, hn, fun j hij hj => by omega⟩
      · rename_i hn
        obtain ⟨hlt, hi, hafter⟩ := ih h
        refine ⟨Nat.lt_succ_of_lt hlt, hi, fun j hij hj => ?_⟩
        rcases Nat.lt_succ_iff_lt_or_eq.1 hj with hj | rfl
        · exact hafter j hij hj
        · simpa using hn

/-- The loop reads nothing at or above its bound. -/
theorem lastBelow_congr {p q : Nat → Bool} {n : Nat}
    (h : ∀ j, j < n → p j = q j) : lastBelow p n = lastBelow q n := by
  induction n with
  | zero => rfl
  | succ n ih =>
      rw [lastBelow, lastBelow, h n (Nat.lt_succ_self n),
        ih fun j hj => h j (Nat.lt_succ_of_lt hj)]

/-- Indices without the property are passed over. -/
theorem lastBelow_add {p : Nat → Bool} {n k : Nat}
    (h : ∀ j, n ≤ j → j < n + k → p j = false) :
    lastBelow p (n + k) = lastBelow p n := by
  induction k with
  | zero => rfl
  | succ k ih =>
      rw [← Nat.add_assoc, lastBelow, if_neg (by simp [h (n + k)])]
      exact ih fun j hj hjk => h j hj (by omega)

/-! ### Searching a list from its end -/

section Lists

variable {α : Type} {q : α → Bool} {l rest : List α}

/-- Elements at the end without the property are passed over. -/
theorem lastBelow_append (h : ∀ a ∈ rest, q a = false) :
    lastBelow (fun i => ((l ++ rest)[i]?).any q) (l.length + rest.length) =
      lastBelow (fun i => (l[i]?).any q) l.length := by
  rw [lastBelow_add]
  · exact lastBelow_congr fun j hj => by rw [List.getElem?_append_left hj]
  · intro j hj hlt
    rw [List.getElem?_append_right hj]
    cases hat : rest[j - l.length]? with
    | none => rfl
    | some a => exact h a (List.mem_of_getElem? hat)

/-- The last element with the property. -/
theorem lastBelow_append_cons {a : α} (ha : q a = true)
    (h : ∀ b ∈ rest, q b = false) :
    lastBelow (fun i => ((l ++ a :: rest)[i]?).any q)
      (l.length + (rest.length + 1)) = some l.length := by
  have hsplit : l ++ a :: rest = (l ++ [a]) ++ rest := by simp
  have hlength : l.length + (rest.length + 1) =
      (l ++ [a]).length + rest.length := by simp; omega
  rw [hsplit, hlength, lastBelow_append h, List.length_append,
    List.length_singleton, lastBelow, if_pos (by simp [ha])]

end Lists

end FremSoft
