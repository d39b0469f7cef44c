/-
Blocks of memory as lists of cells, with every access checked against the size
of the block, and pairs of computations that succeed together.
-/
import FremSoft.Lib.Outcome
import Mathlib.Data.List.Basic

namespace FremSoft

variable {ε δ α β γ κ : Type}

/-- `l[i]`, or the fault. -/
def readAt (fault : ε) (l : List α) (i : Nat) : Except ε α :=
  match l[i]? with
  | some a => .ok a
  | none => .error fault

/-- `l[i] = f(l[i])`, or the fault. -/
def modifyAt (fault : ε) (l : List α) (i : Nat) (f : α → α) :
    Except ε (List α) :=
  if i < l.length then .ok (l.modify i f) else .error fault

/-- The cells `l[start .. start + len)`, or the fault. -/
def readSpan (fault : ε) (l : List α) (start len : Nat) : Except ε (List α) :=
  if start + len ≤ l.length then .ok ((l.drop start).take len)
  else .error fault

/-- `memcpy` to the start of a block, or the fault. -/
def copyAt (fault : ε) (dst src : List α) : Except ε (List α) :=
  if src.length ≤ dst.length then .ok (src ++ dst.drop src.length)
  else .error fault

theorem readAt_ok (fault : ε) {l : List α} {i : Nat} (h : i < l.length) :
    readAt fault l i = .ok l[i] := by
  simp [readAt, List.getElem?_eq_getElem h]

theorem readAt_of_getElem? (fault : ε) {l : List α} {i : Nat} {a : α}
    (h : l[i]? = some a) : readAt fault l i = .ok a := by
  simp [readAt, h]

theorem modifyAt_ok (fault : ε) {l : List α} {i : Nat} (h : i < l.length)
    (f : α → α) : modifyAt fault l i f = .ok (l.modify i f) :=
  if_pos h

theorem readSpan_ok (fault : ε) {l : List α} {start len : Nat}
    (h : start + len ≤ l.length) :
    readSpan fault l start len = .ok ((l.drop start).take len) :=
  if_pos h

theorem copyAt_ok (fault : ε) {dst src : List α}
    (h : src.length ≤ dst.length) :
    copyAt fault dst src = .ok (src ++ dst.drop src.length) :=
  if_pos h

/-- Two computations that both succeed, with related results. -/
def BothOk (R : α → β → Prop) (x : Except ε α) (y : Except δ β) : Prop :=
  ∃ a b, x = .ok a ∧ y = .ok b ∧ R a b

theorem BothOk.ok {R : α → β → Prop} {a : α} {b : β} (h : R a b) :
    BothOk R (.ok a : Except ε α) (.ok b : Except δ β) :=
  ⟨a, b, rfl, rfl, h⟩

theorem BothOk.bind {R : α → β → Prop} {S : γ → κ → Prop} {x : Except ε α}
    {y : Except δ β} {f : α → Except ε γ} {g : β → Except δ κ}
    (hboth : BothOk R x y)
    (hnext : ∀ a b, R a b → BothOk S (f a) (g b)) :
    BothOk S (x >>= f) (y >>= g) := by
  obtain ⟨a, b, rfl, rfl, hrelated⟩ := hboth
  exact hnext a b hrelated

theorem BothOk.mono {R S : α → β → Prop} {x : Except ε α} {y : Except δ β}
    (hboth : BothOk R x y) (himp : ∀ a b, R a b → S a b) : BothOk S x y := by
  obtain ⟨a, b, hx, hy, hrelated⟩ := hboth
  exact ⟨a, b, hx, hy, himp a b hrelated⟩

/-- The two sides take the same branch. -/
theorem BothOk.ite {R : α → β → Prop} {c : Prop} [Decidable c]
    {x x' : Except ε α} {y y' : Except δ β} (hthen : c → BothOk R x y)
    (helse : ¬c → BothOk R x' y') :
    BothOk R (if c then x else x') (if c then y else y') := by
  by_cases hc : c
  · rw [if_pos hc, if_pos hc]
    exact hthen hc
  · rw [if_neg hc, if_neg hc]
    exact helse hc

end FremSoft
