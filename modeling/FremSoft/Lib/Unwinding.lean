/-
Noninterference by unwinding, and machines of two parts.  An observer sees some
of the actions of a machine and some of what it emits; if no other action
changes what the observer can tell apart, leaving these actions out of a run
changes nothing it sees.
-/
import FremSoft.Lib.Run

namespace FremSoft

universe u v w

variable {σ : Type u} {α : Type v} {ω : Type w}

/-- `R` relates the states that look the same: an action that is not visible
leads to a state that still looks like the one before and emits nothing seen,
and a visible one does the same thing to both. -/
structure Machine.Unwinding (M : Machine σ α ω) (visible : α → Bool)
    (seen : ω → Bool) (R : σ → σ → Prop) : Prop where
  hidden : ∀ s t a s' out, visible a = false → R s t →
    M.step s a = some (s', out) → R s' t ∧ out.filter seen = []
  shown : ∀ s t a s' out, visible a = true → R s t →
    M.step s a = some (s', out) →
    ∃ t' out', M.step t a = some (t', out') ∧ R s' t' ∧
      out.filter seen = out'.filter seen

/-- A run and the run of its visible actions alone, from states that look the
same, emit the same as far as it is seen. -/
theorem Machine.Unwinding.run_filter {M : Machine σ α ω} {visible : α → Bool}
    {seen : ω → Bool} {R : σ → σ → Prop} (h : M.Unwinding visible seen R)
    {s s' t : σ} {acts : List α} {outs : List ω} (hR : R s t)
    (hrun : M.run s acts = some (s', outs)) :
    ∃ t' outs', M.run t (acts.filter visible) = some (t', outs') ∧ R s' t' ∧
      outs.filter seen = outs'.filter seen := by
  induction acts generalizing s t outs with
  | nil =>
      simp only [Machine.run_nil, Option.some.injEq, Prod.mk.injEq] at hrun
      obtain ⟨rfl, rfl⟩ := hrun
      exact ⟨t, [], rfl, hR, rfl⟩
  | cons a rest ih =>
      obtain ⟨s₁, out, tail, hstep, hrest, rfl⟩ := (Machine.run_cons ..).1 hrun
      cases hvisible : visible a with
      | false =>
          obtain ⟨hR₁, hout⟩ := h.hidden s t a s₁ out hvisible hR hstep
          obtain ⟨t', outs', hrun', hR', hsame⟩ := ih hR₁ hrest
          rw [List.filter_cons_of_neg (by simp [hvisible])]
          exact ⟨t', outs', hrun', hR', by rw [List.filter_append, hout, hsame,
            List.nil_append]⟩
      | true =>
          obtain ⟨t₁, out', hstep', hR₁, hout⟩ :=
            h.shown s t a s₁ out hvisible hR hstep
          obtain ⟨t', outs', hrun', hR', hsame⟩ := ih hR₁ hrest
          rw [List.filter_cons_of_pos hvisible]
          refine ⟨t', out' ++ outs', ?_, hR', ?_⟩
          · exact (Machine.run_cons ..).2 ⟨t₁, out', outs', hstep', hrun', rfl⟩
          · rw [List.filter_append, List.filter_append, hout, hsame]

/-! ### Two parts -/

universe x y

/-- A machine whose state has two parts, of which every action works on one: a
left action does what the machine `A` does to the left part and leaves the
right one alone, and the other way round. -/
structure Machine.Parts {τ : Type x} {υ : Type y} (M : Machine σ α ω)
    (A : Machine τ α ω) (B : Machine υ α ω) (left : α → Bool) (f : σ → τ)
    (g : σ → υ) (I : σ → Prop) : Prop where
  keeps : ∀ s a s' out, I s → M.step s a = some (s', out) → I s'
  onLeft : ∀ s a s' out, I s → left a = true → M.step s a = some (s', out) →
    A.step (f s) a = some (f s', out) ∧ g s' = g s
  onRight : ∀ s a s' out, I s → left a = false → M.step s a = some (s', out) →
    B.step (g s) a = some (g s', out) ∧ f s' = f s

/-- A run is a run of each part over its own actions, and what it emits is what
the two emit, each in its order. -/
theorem Machine.Parts.run_split {τ : Type x} {υ : Type y} {M : Machine σ α ω}
    {A : Machine τ α ω} {B : Machine υ α ω} {left : α → Bool} {f : σ → τ}
    {g : σ → υ} {I : σ → Prop} (h : M.Parts A B left f g I) {s t : σ}
    {acts : List α} {outs : List ω} (hI : I s)
    (hrun : M.run s acts = some (t, outs)) :
    ∃ outsA outsB, A.run (f s) (acts.filter left) = some (f t, outsA) ∧
      B.run (g s) (acts.filter fun a => !left a) = some (g t, outsB) ∧
      outsA.Sublist outs ∧ outsB.Sublist outs ∧
      outs.Perm (outsA ++ outsB) := by
  induction acts generalizing s outs with
  | nil =>
      simp only [Machine.run_nil, Option.some.injEq, Prod.mk.injEq] at hrun
      obtain ⟨rfl, rfl⟩ := hrun
      exact ⟨[], [], rfl, rfl, .refl _, .refl _, .refl _⟩
  | cons a rest ih =>
      obtain ⟨s₁, out, tail, hstep, hrest, rfl⟩ := (Machine.run_cons ..).1 hrun
      obtain ⟨outsA, outsB, hA, hB, hsubA, hsubB, hperm⟩ :=
        ih (h.keeps s a s₁ out hI hstep) hrest
      cases hleft : left a with
      | true =>
          obtain ⟨hstepA, hsame⟩ := h.onLeft s a s₁ out hI hleft hstep
          rw [hsame] at hB
          rw [List.filter_cons_of_pos hleft,
            List.filter_cons_of_neg (by simp [hleft])]
          refine ⟨out ++ outsA, outsB,
            (Machine.run_cons ..).2 ⟨_, out, outsA, hstepA, hA, rfl⟩, hB,
            (List.Sublist.refl out).append hsubA,
            hsubB.trans (List.sublist_append_right out tail), ?_⟩
          rw [List.append_assoc]
          exact hperm.append_left out
      | false =>
          obtain ⟨hstepB, hsame⟩ := h.onRight s a s₁ out hI hleft hstep
          rw [hsame] at hA
          rw [List.filter_cons_of_neg (by simp [hleft]),
            List.filter_cons_of_pos (by simp [hleft])]
          refine ⟨outsA, out ++ outsB, hA,
            (Machine.run_cons ..).2 ⟨_, out, outsB, hstepB, hB, rfl⟩,
            hsubA.trans (List.sublist_append_right out tail),
            (List.Sublist.refl out).append hsubB, ?_⟩
          have hswap : ((out ++ outsA) ++ outsB).Perm
              ((outsA ++ out) ++ outsB) :=
            List.perm_append_comm.append_right outsB
          rw [List.append_assoc, List.append_assoc] at hswap
          exact (hperm.append_left out).trans hswap

end FremSoft
