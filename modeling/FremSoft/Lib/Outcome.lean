/-
Computations in `Except` taken apart one bind at a time, and what is known of
both ways they can end.
-/

namespace FremSoft

@[simp] theorem ok_bind {ε α β : Type} (a : α) (f : α → Except ε β) :
    (Except.ok a >>= f) = f a := rfl

@[simp] theorem pure_eq_ok {ε α : Type} (a : α) :
    (pure a : Except ε α) = .ok a := rfl

theorem bind_eq_ok {ε α β : Type} {x : Except ε α} {f : α → Except ε β} {b : β}
    (h : x >>= f = .ok b) : ∃ a, x = .ok a ∧ f a = .ok b := by
  cases x with
  | error e => cases h
  | ok a => exact ⟨a, rfl, h⟩

/-- The computation ends with a value in `Q` or with an error in `E`. -/
def Ends {ε α : Type} (x : Except ε α) (Q : α → Prop) (E : ε → Prop) : Prop :=
  match x with
  | .ok a => Q a
  | .error e => E e

namespace Ends

variable {ε α β : Type} {x : Except ε α} {Q Q' : α → Prop} {E E' : ε → Prop}

@[simp] theorem ok_iff {a : α} : Ends (.ok a : Except ε α) Q E ↔ Q a := Iff.rfl

@[simp] theorem error_iff {e : ε} : Ends (.error e : Except ε α) Q E ↔ E e :=
  Iff.rfl

theorem mono (h : Ends x Q E) (hvalue : ∀ a, Q a → Q' a)
    (herror : ∀ e, E e → E' e) : Ends x Q' E' := by
  cases x with
  | ok a => exact hvalue a h
  | error e => exact herror e h

theorem bind {f : α → Except ε β} {R : β → Prop} (h : Ends x Q E)
    (hf : ∀ a, Q a → Ends (f a) R E) : Ends (x >>= f) R E := by
  cases x with
  | ok a => exact hf a h
  | error e => exact h

theorem of_ok {a : α} (h : Ends x Q E) (hx : x = .ok a) : Q a := by
  subst hx
  exact h

end Ends

end FremSoft
