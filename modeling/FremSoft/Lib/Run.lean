/-
Runs of a partial step function that emits observations.  A run either
executes every action and returns the final state with all observations in
order, or is undefined at the first disabled action.
-/
import Mathlib.Data.List.Basic

namespace FremSoft

universe u v w x y

/-- A deterministic machine: an action is disabled when `step` is `none`, and
an enabled action emits a list of observations. -/
structure Machine (σ : Type u) (α : Type v) (ω : Type w) where
  step : σ → α → Option (σ × List ω)

namespace Machine

variable {σ : Type u} {α : Type v} {ω : Type w}

/-- Execute a list of actions, concatenating what the steps emit. -/
def run (M : Machine σ α ω) : σ → List α → Option (σ × List ω)
  | s, [] => some (s, [])
  | s, a :: rest =>
      match M.step s a with
      | none => none
      | some (s', out) =>
          match run M s' rest with
          | none => none
          | some (t, outs) => some (t, out ++ outs)

/-- Every step of the run, as long as it is enabled, meets the condition `C`
on the state before it and its action. -/
def Meets (M : Machine σ α ω) (C : σ → α → Prop) : σ → List α → Prop
  | _, [] => True
  | s, a :: rest =>
      C s a ∧ ∀ s' out, M.step s a = some (s', out) → Meets M C s' rest

@[simp] theorem run_nil (M : Machine σ α ω) (s : σ) :
    M.run s [] = some (s, []) := rfl

theorem run_cons (M : Machine σ α ω) (s : σ) (a : α) (rest : List α)
    (t : σ) (outs : List ω) :
    M.run s (a :: rest) = some (t, outs) ↔
      ∃ s' out tail, M.step s a = some (s', out) ∧
        M.run s' rest = some (t, tail) ∧ outs = out ++ tail := by
  constructor
  · intro h
    simp only [run] at h
    split at h
    · cases h
    · next s' out hstep =>
      split at h
      · cases h
      · next t' tail hrest =>
        simp only [Option.some.injEq, Prod.mk.injEq] at h
        obtain ⟨rfl, rfl⟩ := h
        exact ⟨s', out, tail, hstep, hrest, rfl⟩
  · rintro ⟨s', out, tail, hstep, hrest, rfl⟩
    simp [run, hstep, hrest]

theorem run_singleton (M : Machine σ α ω) (s : σ) (a : α) :
    M.run s [a] = M.step s a := by
  cases hstep : M.step s a with
  | none => simp [run, hstep]
  | some next => simp [run, hstep]

/-- One more action at the end of a run. -/
theorem run_concat {M : Machine σ α ω} {s t t' : σ} {acts : List α} {a : α}
    {outs out : List ω} (hrun : M.run s acts = some (t, outs))
    (hstep : M.step t a = some (t', out)) :
    M.run s (acts ++ [a]) = some (t', outs ++ out) := by
  induction acts generalizing s outs with
  | nil =>
      simp only [run_nil, Option.some.injEq, Prod.mk.injEq] at hrun
      obtain ⟨rfl, rfl⟩ := hrun
      rw [List.nil_append, run_singleton, hstep, List.nil_append]
  | cons b rest ih =>
      obtain ⟨s', out', tail, hfirst, hrest, rfl⟩ := (run_cons ..).1 hrun
      rw [List.cons_append]
      exact (run_cons ..).2 ⟨s', out', tail ++ out, hfirst, ih hrest,
        List.append_assoc ..⟩

/-- A machine that refuses no action has a run for every list of them. -/
theorem exists_run {M : Machine σ α ω}
    (htotal : ∀ s a, ∃ s' out, M.step s a = some (s', out)) (s : σ)
    (acts : List α) : ∃ t outs, M.run s acts = some (t, outs) := by
  induction acts generalizing s with
  | nil => exact ⟨s, [], rfl⟩
  | cons a rest ih =>
      obtain ⟨s', out, hstep⟩ := htotal s a
      obtain ⟨t, outs, hrun⟩ := ih s'
      exact ⟨t, out ++ outs,
        (run_cons ..).2 ⟨s', out, outs, hstep, hrun, rfl⟩⟩

theorem meets_cons {M : Machine σ α ω} {C : σ → α → Prop} {s s' : σ} {a : α}
    {out : List ω} (hstep : M.step s a = some (s', out)) (rest : List α) :
    M.Meets C s (a :: rest) ↔ C s a ∧ M.Meets C s' rest := by
  simp [Meets, hstep]

theorem meets_cons_of_disabled {M : Machine σ α ω} {C : σ → α → Prop} {s : σ}
    {a : α} (hstep : M.step s a = none) (rest : List α) :
    M.Meets C s (a :: rest) ↔ C s a := by
  simp [Meets, hstep]

theorem meets_concat {M : Machine σ α ω} {C : σ → α → Prop} {s t : σ}
    {acts : List α} {a : α} {outs : List ω} (hmeets : M.Meets C s acts)
    (hrun : M.run s acts = some (t, outs)) (hC : C t a) :
    M.Meets C s (acts ++ [a]) := by
  induction acts generalizing s outs with
  | nil =>
      simp only [run_nil, Option.some.injEq, Prod.mk.injEq] at hrun
      obtain ⟨rfl, rfl⟩ := hrun
      exact ⟨hC, fun _ _ _ => trivial⟩
  | cons b rest ih =>
      obtain ⟨s', out', tail, hfirst, hrest, rfl⟩ := (run_cons ..).1 hrun
      rw [List.cons_append, meets_cons hfirst]
      rw [meets_cons hfirst] at hmeets
      exact ⟨hmeets.1, ih hmeets.2 hrest⟩

instance decidableMeets (M : Machine σ α ω) (C : σ → α → Prop)
    [∀ s a, Decidable (C s a)] :
    ∀ (s : σ) (acts : List α), Decidable (M.Meets C s acts)
  | _, [] => .isTrue trivial
  | s, a :: rest =>
      match hstep : M.step s a with
      | none => decidable_of_iff _ (meets_cons_of_disabled hstep rest).symm
      | some (s', _) =>
          have := decidableMeets M C s' rest
          decidable_of_iff _ (meets_cons hstep rest).symm

/-- The run rule under a condition on the steps: what every step meeting the
condition preserves, of the state and of everything emitted so far, holds
after the run. -/
theorem run_invariant_from {M : Machine σ α ω} {C : σ → α → Prop}
    {I : σ → List ω → Prop}
    (hpreserved : ∀ s seen a s' out, I s seen → C s a →
      M.step s a = some (s', out) → I s' (seen ++ out))
    {s t : σ} {acts : List α} {outs seen : List ω}
    (hmeets : M.Meets C s acts) (hrun : M.run s acts = some (t, outs))
    (hinit : I s seen) : I t (seen ++ outs) := by
  induction acts generalizing s outs seen with
  | nil =>
      simp only [run_nil, Option.some.injEq, Prod.mk.injEq] at hrun
      obtain ⟨rfl, rfl⟩ := hrun
      simpa using hinit
  | cons a rest ih =>
      obtain ⟨hhead, htail⟩ := hmeets
      obtain ⟨s', out, tail, hstep, hrest, rfl⟩ := (run_cons ..).1 hrun
      have hnext := hpreserved s seen a s' out hinit hhead hstep
      rw [← List.append_assoc]
      exact ih (htail s' out hstep) hrest hnext

/-- The run rule under a condition, from the start of a run. -/
theorem run_invariant_of_meets {M : Machine σ α ω} {C : σ → α → Prop}
    {I : σ → List ω → Prop}
    (hpreserved : ∀ s seen a s' out, I s seen → C s a →
      M.step s a = some (s', out) → I s' (seen ++ out))
    {s t : σ} {acts : List α} {outs : List ω}
    (hmeets : M.Meets C s acts) (hrun : M.run s acts = some (t, outs))
    (hinit : I s []) : I t outs := by
  simpa using run_invariant_from hpreserved hmeets hrun hinit

/-- The rule for a condition that is also necessary: if each step keeps the
property exactly when it meets the condition, then so does the run. -/
theorem run_property_iff_from {M : Machine σ α ω} {C : σ → α → Prop}
    {I : σ → List ω → Prop} {P : List ω → Prop}
    (hpreserved : ∀ s seen a s' out, I s seen → M.step s a = some (s', out) →
      I s' (seen ++ out) ∧ (P (seen ++ out) ↔ P seen ∧ C s a))
    {s t : σ} {acts : List α} {outs seen : List ω}
    (hrun : M.run s acts = some (t, outs)) (hinit : I s seen) :
    P (seen ++ outs) ↔ P seen ∧ M.Meets C s acts := by
  induction acts generalizing s outs seen with
  | nil =>
      simp only [run_nil, Option.some.injEq, Prod.mk.injEq] at hrun
      obtain ⟨rfl, rfl⟩ := hrun
      simp [Meets]
  | cons a rest ih =>
      obtain ⟨s', out, tail, hstep, hrest, rfl⟩ := (run_cons ..).1 hrun
      obtain ⟨hnext, hone⟩ := hpreserved s seen a s' out hinit hstep
      rw [← List.append_assoc, ih hrest hnext, hone, meets_cons hstep,
        and_assoc]

theorem run_property_iff_meets {M : Machine σ α ω} {C : σ → α → Prop}
    {I : σ → List ω → Prop} {P : List ω → Prop}
    (hpreserved : ∀ s seen a s' out, I s seen → M.step s a = some (s', out) →
      I s' (seen ++ out) ∧ (P (seen ++ out) ↔ P seen ∧ C s a))
    {s t : σ} {acts : List α} {outs : List ω}
    (hrun : M.run s acts = some (t, outs)) (hinit : I s []) (hnil : P []) :
    P outs ↔ M.Meets C s acts := by
  simpa [hnil] using run_property_iff_from hpreserved hrun hinit

theorem meets_of_forall {M : Machine σ α ω} {C : σ → α → Prop}
    (hall : ∀ s a, C s a) (s : σ) (acts : List α) : M.Meets C s acts := by
  induction acts generalizing s with
  | nil => trivial
  | cons a rest ih => exact ⟨hall s a, fun s' _ _ => ih s'⟩

/-- The run rule: what every step preserves holds after the run. -/
theorem run_invariant {M : Machine σ α ω} {I : σ → List ω → Prop}
    (hpreserved : ∀ s seen a s' out, I s seen →
      M.step s a = some (s', out) → I s' (seen ++ out))
    {s t : σ} {acts : List α} {outs : List ω}
    (hrun : M.run s acts = some (t, outs)) (hinit : I s []) : I t outs := by
  have hmeets : M.Meets (fun _ _ => True) s acts :=
    meets_of_forall (fun _ _ => trivial) s acts
  exact run_invariant_of_meets
    (fun s seen a s' out hI _ hstep => hpreserved s seen a s' out hI hstep)
    hmeets hrun hinit

/-- A machine that does what another one does and keeps a history beside it:
`embed` makes its state of the other's state and of what the other has emitted,
`shown` is what it lets through. -/
theorem run_embed {τ : Type x} {ν : Type y} {M : Machine σ α ω}
    {N : Machine τ α ν} {embed : τ → List ν → σ} {shown : ν → ω}
    (hstep : ∀ t seen a, M.step (embed t seen) a =
      (N.step t a).map fun next =>
        (embed next.1 (seen ++ next.2), next.2.map shown))
    (t : τ) (seen : List ν) (acts : List α) :
    M.run (embed t seen) acts = (N.run t acts).map fun last =>
      (embed last.1 (seen ++ last.2), last.2.map shown) := by
  induction acts generalizing t seen with
  | nil => simp
  | cons a rest ih =>
      simp only [run, hstep]
      cases N.step t a with
      | none => rfl
      | some next =>
          obtain ⟨t', out⟩ := next
          simp only [Option.map_some, ih]
          cases N.run t' rest with
          | none => rfl
          | some last =>
              simp only [Option.map_some, List.append_assoc, List.map_append]

end Machine

end FremSoft
