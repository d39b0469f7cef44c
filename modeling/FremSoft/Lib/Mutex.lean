/-
Calls under one lock.  A call waits for the lock, makes its accesses to what the
lock protects one at a time, and leaves.  However the calls interleave, they do
what whole sections do one after the other, and the accesses of at most one more
section are under way.
-/
import FremSoft.Lib.Run

namespace FremSoft

universe u v w x y

/-- Operations under a lock, cut at their accesses to the state that the lock
protects.  Every access has an input, and the code goes on from it or has its
result. -/
structure Guarded (σ : Type u) (ο : Type y) (κ : Type v) (ι : Type w)
    (ρ : Type x) where
  enter : ο → κ
  access : σ → κ → ι → σ × (κ ⊕ ρ)

inductive GuardedObs (ι : Type w) (ρ : Type x) where
  | accessed (k : Nat) (input : ι)
  | finished (k : Nat) (result : ρ)
deriving DecidableEq, Repr

def GuardedObs.result? {ι : Type w} {ρ : Type x} :
    GuardedObs ι ρ → Option (Nat × ρ)
  | accessed _ _ => none
  | finished k result => some (k, result)

def GuardedObs.input? {ι : Type w} {ρ : Type x} : GuardedObs ι ρ → Option ι
  | accessed _ input => some input
  | finished _ _ => none

/-- Where a call stands. -/
inductive GuardedStage (κ : Type v) where
  | waiting
  | inside (code : κ)
  | leaving
  | returned
deriving DecidableEq, Repr

structure GuardedCall (ο : Type y) (κ : Type v) where
  op : ο
  stage : GuardedStage κ
deriving DecidableEq, Repr

/-- The protected state, the call that holds the lock, and every call made. -/
structure GuardedState (σ : Type u) (ο : Type y) (κ : Type v) where
  shared : σ
  lock : Option Nat
  calls : List (GuardedCall ο κ)

inductive GuardedAction (ο : Type y) (ι : Type w) where
  | call (op : ο)
  | enter (k : Nat)
  | access (k : Nat) (input : ι)
  | leave (k : Nat)

/-- A section as a whole: the call, and the inputs of its accesses. -/
structure Turn (ο : Type y) (ι : Type w) where
  k : Nat
  op : ο
  inputs : List ι

def Turn.call {ο : Type y} {ι : Type w} (turn : Turn ο ι) : Nat × ο :=
  (turn.k, turn.op)

namespace Guarded

variable {σ : Type u} {ο : Type y} {κ : Type v} {ι : Type w} {ρ : Type x}

/-- The accesses of a section from its code on, one for each input; undefined
when the code has its result before the last one. -/
def body (G : Guarded σ ο κ ι ρ) : σ → κ → List ι → Option (σ × (κ ⊕ ρ))
  | s, code, [] => some (s, .inl code)
  | s, code, input :: rest =>
      match G.access s code input with
      | (s', .inl code') => body G s' code' rest
      | (s', .inr r) => if rest.isEmpty then some (s', .inr r) else none

def serial (G : Guarded σ ο κ ι ρ) : Machine σ (Turn ο ι) (GuardedObs ι ρ) :=
  { step := fun s turn =>
      match G.body s (G.enter turn.op) turn.inputs with
      | some (s', .inr r) =>
          some (s', turn.inputs.map (.accessed turn.k) ++ [.finished turn.k r])
      | _ => none }

def lockedStep (G : Guarded σ ο κ ι ρ) (t : GuardedState σ ο κ) :
    GuardedAction ο ι → Option (GuardedState σ ο κ × List (GuardedObs ι ρ))
  | .call op =>
      some ({ t with calls := t.calls ++ [{ op, stage := .waiting }] }, [])
  | .enter k =>
      match t.lock, t.calls[k]? with
      | none, some ⟨op, .waiting⟩ =>
          some ({ t with
            lock := some k
            calls := t.calls.set k { op, stage := .inside (G.enter op) } }, [])
      | _, _ => none
  | .access k input =>
      match t.calls[k]? with
      | some ⟨op, .inside now⟩ =>
          match G.access t.shared now input with
          | (shared, .inl next) =>
              some ({ t with
                shared
                calls := t.calls.set k { op, stage := .inside next } },
                [.accessed k input])
          | (shared, .inr r) =>
              some ({ t with
                shared
                calls := t.calls.set k { op, stage := .leaving } },
                [.accessed k input, .finished k r])
      | _ => none
  | .leave k =>
      match t.calls[k]? with
      | some ⟨op, .leaving⟩ =>
          some ({ t with
            lock := none
            calls := t.calls.set k { op, stage := .returned } }, [])
      | _ => none

/-- Every interleaving of calls, access by access. -/
def locked (G : Guarded σ ο κ ι ρ) :
    Machine (GuardedState σ ο κ) (GuardedAction ο ι) (GuardedObs ι ρ) :=
  { step := G.lockedStep }

def start (s : σ) : GuardedState σ ο κ :=
  { shared := s, lock := none, calls := [] }

/-! ### Sections -/

section Body

variable {G : Guarded σ ο κ ι ρ} {s s' : σ} {code code' : κ} {inputs : List ι}

/-- The first accesses of a section that goes on. -/
theorem body_append (h : G.body s code inputs = some (s', .inl code'))
    (rest : List ι) :
    G.body s code (inputs ++ rest) = G.body s' code' rest := by
  induction inputs generalizing s code with
  | nil =>
      simp only [body, Option.some.injEq, Prod.mk.injEq, Sum.inl.injEq] at h
      obtain ⟨rfl, rfl⟩ := h
      rfl
  | cons first later ih =>
      simp only [List.cons_append, body] at h ⊢
      rcases haccess : G.access s code first with ⟨s₁, code₁ | r⟩
      · rw [haccess] at h
        exact ih h
      · simp only [haccess] at h
        split at h <;> simp at h

theorem body_concat (h : G.body s code inputs = some (s', .inl code'))
    (input : ι) :
    G.body s code (inputs ++ [input]) = some (G.access s' code' input) := by
  rw [body_append h]
  simp only [body]
  rcases G.access s' code' input with ⟨s₁, code₁ | r⟩ <;> rfl

end Body

/-- From its code on, a section ends in this state with this result. -/
inductive Yields (G : Guarded σ ο κ ι ρ) : σ → κ → σ → ρ → Prop where
  | last {s s' : σ} {code : κ} {input : ι} {r : ρ}
      (haccess : G.access s code input = (s', .inr r)) : Yields G s code s' r
  | more {s s₁ s' : σ} {code code₁ : κ} {input : ι} {r : ρ}
      (haccess : G.access s code input = (s₁, .inl code₁))
      (hrest : Yields G s₁ code₁ s' r) : Yields G s code s' r

section Body

variable {G : Guarded σ ο κ ι ρ} {s s' : σ} {code code' : κ} {inputs : List ι}

theorem filterMap_result_whole (inputs : List ι) (k : Nat) (r : ρ) :
    (inputs.map (GuardedObs.accessed k) ++ [GuardedObs.finished k r]).filterMap
      GuardedObs.result? = [(k, r)] := by
  simp [List.filterMap_map, Function.comp_def, GuardedObs.result?]

theorem filterMap_input_whole (inputs : List ι) (k : Nat) (r : ρ) :
    (inputs.map (GuardedObs.accessed k) ++ [GuardedObs.finished k r]).filterMap
      GuardedObs.input? = inputs := by
  simp [List.filterMap_map, Function.comp_def, GuardedObs.input?]

/-- Where the inputs make no difference, a section ends in one way only. -/
theorem Yields.eq_of_body [Subsingleton ι] {s'' : σ} {r r' : ρ}
    (h : G.Yields s code s' r)
    (hbody : G.body s code inputs = some (s'', .inr r')) :
    s'' = s' ∧ r' = r := by
  induction h generalizing inputs with
  | @last s s' code input r haccess =>
      cases inputs with
      | nil => cases hbody
      | cons first rest =>
          obtain rfl := Subsingleton.elim first input
          simp only [body, haccess] at hbody
          split at hbody
          · simp only [Option.some.injEq, Prod.mk.injEq, Sum.inr.injEq] at hbody
            exact ⟨hbody.1.symm, hbody.2.symm⟩
          · cases hbody
  | @more s s₁ s' code code₁ input r haccess _ ih =>
      cases inputs with
      | nil => cases hbody
      | cons first rest =>
          obtain rfl := Subsingleton.elim first input
          simp only [body, haccess] at hbody
          exact ih hbody

/-- What is left of a section that is under way. -/
theorem Yields.of_body [Subsingleton ι] {s₁ : σ} {now : κ} {r : ρ}
    (h : G.Yields s code s' r)
    (hbody : G.body s code inputs = some (s₁, .inl now)) :
    G.Yields s₁ now s' r := by
  induction inputs generalizing s code with
  | nil =>
      simp only [body, Option.some.injEq, Prod.mk.injEq, Sum.inl.injEq] at hbody
      obtain ⟨rfl, rfl⟩ := hbody
      exact h
  | cons first rest ih =>
      simp only [body] at hbody
      cases h with
      | @last _ _ _ input _ haccess =>
          obtain rfl := Subsingleton.elim first input
          rw [haccess] at hbody
          simp only at hbody
          split at hbody <;> simp at hbody
      | @more _ _ _ _ _ input _ haccess hrest =>
          obtain rfl := Subsingleton.elim first input
          rw [haccess] at hbody
          exact ih hrest hbody

theorem serial_step_of_body {op : ο} {r : ρ}
    (h : G.body s (G.enter op) inputs = some (s', .inr r)) (k : Nat) :
    G.serial.step s { k, op, inputs } =
      some (s', inputs.map (.accessed k) ++ [.finished k r]) := by
  simp only [serial, h]

theorem body_of_serial_step {turn : Turn ο ι} {out : List (GuardedObs ι ρ)}
    (h : G.serial.step s turn = some (s', out)) :
    ∃ r, G.body s (G.enter turn.op) turn.inputs = some (s', .inr r) ∧
      out = turn.inputs.map (.accessed turn.k) ++ [.finished turn.k r] := by
  simp only [serial] at h
  split at h
  · next s₁ r hbody =>
    simp only [Option.some.injEq, Prod.mk.injEq] at h
    obtain ⟨rfl, rfl⟩ := h
    exact ⟨r, hbody, rfl⟩
  · cases h

end Body

/-! ### Runs -/

end Guarded

def GuardedStage.active {κ : Type v} : GuardedStage κ → Bool
  | inside _ | leaving => true
  | waiting | returned => false

def GuardedStage.ended {κ : Type v} : GuardedStage κ → Bool
  | leaving | returned => true
  | waiting | inside _ => false

/-- The sections of the calls that have their results, each once. -/
structure TurnsOf {ο : Type y} {κ : Type v} {ι : Type w}
    (calls : List (GuardedCall ο κ)) (turns : List (Turn ο ι)) : Prop where
  nodup : (turns.map Turn.k).Nodup
  ended : ∀ k, k ∈ turns.map Turn.k ↔
    ∃ call, calls[k]? = some call ∧ call.stage.ended = true
  op : ∀ turn ∈ turns, calls[turn.k]?.map GuardedCall.op = some turn.op

namespace Guarded

variable {σ : Type u} {ο : Type y} {κ : Type v} {ι : Type w} {ρ : Type x}

/-- How a state stands to the state `s` that whole sections have led to: the
lock is free; or a call is inside, and its accesses lead from `s` to here; or it
has its result and has yet to leave.  `Q` held when the section was entered. -/
inductive Stands (G : Guarded σ ο κ ι ρ) (Q : σ → ο → Prop)
    (t : GuardedState σ ο κ) (s : σ) : List (GuardedObs ι ρ) → Prop where
  | free (hlock : t.lock = none) (hshared : t.shared = s) : Stands G Q t s []
  | inside {k : Nat} {op : ο} {now : κ} {inputs : List ι}
      (hlock : t.lock = some k) (hcall : t.calls[k]? = some ⟨op, .inside now⟩)
      (hbody : G.body s (G.enter op) inputs = some (t.shared, .inl now))
      (hQ : Q s op) : Stands G Q t s (inputs.map (.accessed k))
  | leaving {k : Nat} {op : ο} (hlock : t.lock = some k)
      (hcall : t.calls[k]? = some ⟨op, .leaving⟩)
      (hshared : t.shared = s) : Stands G Q t s []

/-- Only the holder of the lock is in its section. -/
def Exclusive (t : GuardedState σ ο κ) : Prop :=
  ∀ k call, t.calls[k]? = some call → call.stage.active = true →
    t.lock = some k

/-- What has been seen is whole sections, and what is under way. -/
def Serialized (G : Guarded σ ο κ ι ρ) (Q : σ → ο → Prop) (s₀ : σ)
    (t : GuardedState σ ο κ) (outs : List (GuardedObs ι ρ)) : Prop :=
  Exclusive t ∧ ∃ turns s whole partly,
    G.serial.run s₀ turns = some (s, whole) ∧
    G.serial.Meets (fun s turn => Q s turn.op) s₀ turns ∧
    TurnsOf t.calls turns ∧ G.Stands Q t s partly ∧ outs = whole ++ partly

end Guarded

section Calls

variable {ο : Type y} {κ : Type v} {ι : Type w}
  {calls : List (GuardedCall ο κ)} {turns : List (Turn ο ι)} {k : Nat} {op : ο}

theorem getElem?_set_call {call call' : GuardedCall ο κ}
    (hcall : calls[k]? = some call) (j : Nat) :
    (calls.set k call')[j]? = if k = j then some call' else calls[j]? := by
  have hlt : k < calls.length := (List.getElem?_eq_some_iff.1 hcall).1
  rw [List.getElem?_set, if_pos hlt]

theorem getElem?_set_call_self {call : GuardedCall ο κ}
    (hcall : calls[k]? = some call) (call' : GuardedCall ο κ) :
    (calls.set k call')[k]? = some call' := by
  rw [getElem?_set_call hcall, if_pos rfl]

/-- The calls, when one more has been made. -/
theorem getElem?_concat_call {new call : GuardedCall ο κ} :
    (calls ++ [new])[k]? = some call ↔
      calls[k]? = some call ∨ k = calls.length ∧ call = new := by
  by_cases hlt : k < calls.length
  · rw [List.getElem?_append_left hlt]
    exact ⟨.inl, fun h => h.resolve_right fun hk => Nat.ne_of_lt hlt hk.1⟩
  · have hnone : calls[k]? = none := List.getElem?_eq_none (Nat.le_of_not_lt hlt)
    constructor
    · intro hcall
      have hbound := (List.getElem?_eq_some_iff.1 hcall).1
      rw [List.length_append, List.length_singleton] at hbound
      obtain rfl : k = calls.length := by omega
      rw [List.getElem?_concat_length] at hcall
      exact .inr ⟨rfl, (Option.some.inj hcall).symm⟩
    · rintro (hcall | ⟨rfl, rfl⟩)
      · rw [hnone] at hcall
        cases hcall
      · exact List.getElem?_concat_length

theorem TurnsOf.call (h : TurnsOf calls turns) (op : ο) :
    TurnsOf (calls ++ [{ op, stage := .waiting }]) turns where
  nodup := h.nodup
  ended k := by
    rw [h.ended]
    constructor
    · rintro ⟨call, hcall, hended⟩
      exact ⟨call, getElem?_concat_call.2 (.inl hcall), hended⟩
    · rintro ⟨call, hcall, hended⟩
      rcases getElem?_concat_call.1 hcall with hcall | ⟨-, rfl⟩
      · exact ⟨call, hcall, hended⟩
      · cases hended
  op turn hturn := by
    obtain ⟨call, hcall, hop⟩ := Option.map_eq_some_iff.1 (h.op turn hturn)
    rw [getElem?_concat_call.2 (.inl hcall), Option.map_some, hop]

theorem TurnsOf.set {stage stage' : GuardedStage κ} (h : TurnsOf calls turns)
    (hcall : calls[k]? = some ⟨op, stage⟩)
    (hended : stage'.ended = stage.ended) :
    TurnsOf (calls.set k { op, stage := stage' }) turns where
  nodup := h.nodup
  ended j := by
    rw [h.ended, getElem?_set_call hcall]
    split
    · next heq =>
      subst heq
      simp [hcall, hended]
    · rfl
  op turn hturn := by
    rw [← h.op turn hturn, getElem?_set_call hcall]
    split
    · next heq => rw [← heq, hcall, Option.map_some, Option.map_some]
    · rfl

theorem TurnsOf.finish {now : κ} (h : TurnsOf calls turns)
    (hcall : calls[k]? = some ⟨op, .inside now⟩) (inputs : List ι) :
    TurnsOf (calls.set k { op, stage := .leaving })
      (turns ++ [⟨k, op, inputs⟩]) where
  nodup := by
    rw [List.map_append, List.map_singleton, List.nodup_append]
    refine ⟨h.nodup, List.pairwise_singleton _ _, fun j hj j' hj' heq => ?_⟩
    obtain rfl := List.mem_singleton.1 hj'
    obtain ⟨call, hsome, hended⟩ := (h.ended j).1 hj
    rw [heq, hcall] at hsome
    obtain rfl := Option.some.inj hsome
    cases hended
  ended j := by
    rw [List.map_append, List.mem_append, h.ended, getElem?_set_call hcall]
    split
    · next heq => simp [heq, GuardedStage.ended]
    · next hne => simp [Ne.symm hne]
  op turn hturn := by
    rw [getElem?_set_call hcall]
    rcases List.mem_append.1 hturn with hturn | hturn
    · split
      · next heq =>
        rw [← h.op turn hturn, ← heq, hcall]
        rfl
      · exact h.op turn hturn
    · obtain rfl := List.mem_singleton.1 hturn
      rw [if_pos rfl]
      rfl

end Calls

namespace Guarded

variable {σ : Type u} {ο : Type y} {κ : Type v} {ι : Type w} {ρ : Type x}
  {G : Guarded σ ο κ ι ρ} {Q : σ → ο → Prop} {s₀ : σ}
  {t t' : GuardedState σ ο κ}
  {outs out : List (GuardedObs ι ρ)}

/-- What one step can do. -/
theorem lockedStep_cases {a : GuardedAction ο ι}
    (hstep : G.locked.step t a = some (t', out)) :
    (∃ op, a = .call op ∧ t' = { t with
        calls := t.calls ++ [{ op, stage := .waiting }] } ∧ out = []) ∨
    (∃ k op, a = .enter k ∧ t.lock = none ∧
      t.calls[k]? = some ⟨op, .waiting⟩ ∧ t' = { t with
        lock := some k
        calls := t.calls.set k { op, stage := .inside (G.enter op) } } ∧
      out = []) ∨
    (∃ k input op now shared next, a = .access k input ∧
      t.calls[k]? = some ⟨op, .inside now⟩ ∧
      G.access t.shared now input = (shared, .inl next) ∧ t' = { t with
        shared
        calls := t.calls.set k { op, stage := .inside next } } ∧
      out = [.accessed k input]) ∨
    (∃ k input op now shared r, a = .access k input ∧
      t.calls[k]? = some ⟨op, .inside now⟩ ∧
      G.access t.shared now input = (shared, .inr r) ∧ t' = { t with
        shared
        calls := t.calls.set k { op, stage := .leaving } } ∧
      out = [.accessed k input, .finished k r]) ∨
    (∃ k op, a = .leave k ∧ t.calls[k]? = some ⟨op, .leaving⟩ ∧
      t' = { t with
        lock := none
        calls := t.calls.set k { op, stage := .returned } } ∧ out = []) := by
  cases a with
  | call op =>
      simp only [locked, lockedStep, Option.some.injEq, Prod.mk.injEq] at hstep
      exact .inl ⟨op, rfl, hstep.1.symm, hstep.2.symm⟩
  | enter k =>
      simp only [locked, lockedStep] at hstep
      split at hstep
      · next op hlock hcall =>
        simp only [Option.some.injEq, Prod.mk.injEq] at hstep
        exact .inr (.inl ⟨k, op, rfl, hlock, hcall, hstep.1.symm,
          hstep.2.symm⟩)
      · cases hstep
  | access k input =>
      simp only [locked, lockedStep] at hstep
      split at hstep
      · next op now hcall =>
        split at hstep
        · next shared next haccess =>
          simp only [Option.some.injEq, Prod.mk.injEq] at hstep
          exact .inr (.inr (.inl ⟨k, input, op, now, shared, next, rfl, hcall,
            haccess, hstep.1.symm, hstep.2.symm⟩))
        · next shared r haccess =>
          simp only [Option.some.injEq, Prod.mk.injEq] at hstep
          exact .inr (.inr (.inr (.inl ⟨k, input, op, now, shared, r, rfl,
            hcall, haccess, hstep.1.symm, hstep.2.symm⟩)))
      · cases hstep
  | leave k =>
      simp only [locked, lockedStep] at hstep
      split at hstep
      · next op hcall =>
        simp only [Option.some.injEq, Prod.mk.injEq] at hstep
        exact .inr (.inr (.inr (.inr ⟨k, op, rfl, hcall, hstep.1.symm,
          hstep.2.symm⟩)))
      · cases hstep

/-- The condition on a call when it enters its section. -/
def EntersWith (Q : σ → ο → Prop) (t : GuardedState σ ο κ) :
    GuardedAction ο ι → Prop
  | .enter k => ∀ op, t.calls[k]? = some ⟨op, .waiting⟩ → Q t.shared op
  | _ => True

theorem Exclusive.call (h : Exclusive t) (op : ο) :
    Exclusive { t with calls := t.calls ++ [{ op, stage := .waiting }] } := by
  intro k call hcall hactive
  rcases getElem?_concat_call.1 hcall with hcall | ⟨-, rfl⟩
  · exact h k call hcall hactive
  · cases hactive

/-- The call `k` has moved on to a stage that is in order with the lock. -/
theorem Exclusive.set (h : Exclusive t) {k : Nat} {op : ο}
    {stage stage' : GuardedStage κ} {shared : σ} {lock : Option Nat}
    (hcall : t.calls[k]? = some ⟨op, stage⟩)
    (hheld : stage'.active = true → lock = some k)
    (hothers : ∀ j, j ≠ k → t.lock = some j → lock = some j) :
    Exclusive { shared, lock
                calls := t.calls.set k { op, stage := stage' } } := by
  intro j call hj hactive
  simp only [getElem?_set_call hcall] at hj
  split at hj
  · next heq =>
    obtain rfl := Option.some.inj hj
    rw [← heq]
    exact hheld hactive
  · next hne => exact hothers j (Ne.symm hne) (h j call hj hactive)

/-- The holder of the lock, as the one call that is in its section. -/
theorem Stands.of_inside {s : σ} {partly : List (GuardedObs ι ρ)}
    (h : G.Stands Q t s partly) (hexclusive : Exclusive t) {k : Nat}
    {op : ο} {now : κ} (hcall : t.calls[k]? = some ⟨op, .inside now⟩) :
    t.lock = some k ∧ ∃ inputs, partly = inputs.map (.accessed k) ∧
      G.body s (G.enter op) inputs = some (t.shared, .inl now) ∧ Q s op := by
  have hheld := hexclusive k _ hcall rfl
  refine ⟨hheld, ?_⟩
  cases h with
  | free hlock hshared =>
      rw [hlock] at hheld
      cases hheld
  | inside hlock hcall' hbody hQ =>
      obtain rfl := Option.some.inj (hlock.symm.trans hheld)
      rw [hcall] at hcall'
      simp only [Option.some.injEq, GuardedCall.mk.injEq,
        GuardedStage.inside.injEq] at hcall'
      obtain ⟨rfl, rfl⟩ := hcall'
      exact ⟨_, rfl, hbody, hQ⟩
  | leaving hlock hcall' hshared =>
      obtain rfl := Option.some.inj (hlock.symm.trans hheld)
      rw [hcall] at hcall'
      cases hcall'

theorem Stands.of_leaving {s : σ} {partly : List (GuardedObs ι ρ)}
    (h : G.Stands Q t s partly) (hexclusive : Exclusive t) {k : Nat}
    {op : ο} (hcall : t.calls[k]? = some ⟨op, .leaving⟩) :
    t.lock = some k ∧ partly = [] ∧ t.shared = s := by
  have hheld := hexclusive k _ hcall rfl
  refine ⟨hheld, ?_⟩
  cases h with
  | free hlock hshared =>
      rw [hlock] at hheld
      cases hheld
  | inside hlock hcall' hbody hQ =>
      obtain rfl := Option.some.inj (hlock.symm.trans hheld)
      rw [hcall] at hcall'
      cases hcall'
  | leaving hlock hcall' hshared => exact ⟨rfl, hshared⟩

/-- With the lock free, nothing is under way. -/
theorem Stands.shared_of_free {s : σ} {partly : List (GuardedObs ι ρ)}
    (h : G.Stands Q t s partly) (hfree : t.lock = none) : t.shared = s := by
  cases h with
  | free hlock hshared => exact hshared
  | inside hlock hcall hbody hQ =>
      rw [hfree] at hlock
      cases hlock
  | leaving hlock hcall hshared => exact hshared

/-- A call that is only made changes nothing of what is under way. -/
theorem Stands.call {s : σ} {partly : List (GuardedObs ι ρ)}
    (h : G.Stands Q t s partly) (op : ο) :
    G.Stands Q { t with calls := t.calls ++ [{ op, stage := .waiting }] } s
      partly := by
  have hkeep : ∀ {k : Nat} {call : GuardedCall ο κ}, t.calls[k]? = some call →
      (t.calls ++ [{ op, stage := .waiting }])[k]? = some call :=
    fun hcall => getElem?_concat_call.2 (.inl hcall)
  cases h with
  | free hlock hshared => exact .free hlock hshared
  | inside hlock hcall hbody hQ => exact .inside hlock (hkeep hcall) hbody hQ
  | leaving hlock hcall hshared => exact .leaving hlock (hkeep hcall) hshared

/-- Every step keeps to whole sections. -/
theorem Serialized.step (h : G.Serialized Q s₀ t outs) {a : GuardedAction ο ι}
    (hQ : EntersWith Q t a) (hstep : G.locked.step t a = some (t', out)) :
    G.Serialized Q s₀ t' (outs ++ out) := by
  obtain ⟨hexclusive, turns, s, whole, partly, hrun, hmeets, hturns, hstands,
    rfl⟩ := h
  rcases lockedStep_cases hstep with ⟨op, rfl, rfl, rfl⟩ |
    ⟨k, op, rfl, hlock, hcall, rfl, rfl⟩ |
    ⟨k, input, op, now, shared, next, rfl, hcall, haccess, rfl, rfl⟩ |
    ⟨k, input, op, now, shared, r, rfl, hcall, haccess, rfl, rfl⟩ |
    ⟨k, op, rfl, hcall, rfl, rfl⟩
  · exact ⟨hexclusive.call op, turns, s, whole, partly, hrun, hmeets,
      hturns.call op, hstands.call op, List.append_nil _⟩
  · -- the lock was free, so nothing is under way
    have hfree : partly = [] ∧ t.shared = s := by
      cases hstands with
      | free hlock' hshared => exact ⟨rfl, hshared⟩
      | inside hlock' hcall' hbody hQ => rw [hlock] at hlock'; cases hlock'
      | leaving hlock' hcall' hshared => rw [hlock] at hlock'; cases hlock'
    obtain ⟨rfl, rfl⟩ := hfree
    refine ⟨hexclusive.set hcall (fun _ => rfl) fun j _ hj => ?_, turns,
      t.shared, whole, ([] : List ι).map (.accessed k), hrun, hmeets,
      hturns.set hcall rfl, .inside rfl (getElem?_set_call_self hcall _) rfl
        (hQ op hcall), by simp⟩
    rw [hlock] at hj
    cases hj
  · obtain ⟨hheld, inputs, rfl, hbody, hQ'⟩ :=
      hstands.of_inside hexclusive hcall
    refine ⟨hexclusive.set hcall (fun _ => hheld) fun _ _ hj => hj, turns, s,
      whole, (inputs ++ [input]).map (.accessed k), hrun, hmeets,
      hturns.set hcall rfl,
      .inside hheld (getElem?_set_call_self hcall _) ?_ hQ',
      by simp⟩
    rw [body_concat hbody, haccess]
  · -- the section is whole
    obtain ⟨hheld, inputs, rfl, hbody, hQ'⟩ :=
      hstands.of_inside hexclusive hcall
    have hwhole : G.body s (G.enter op) (inputs ++ [input]) =
        some (shared, .inr r) := by
      rw [body_concat hbody, haccess]
    have hturn := serial_step_of_body hwhole k
    refine ⟨hexclusive.set hcall (fun _ => hheld) fun _ _ hj => hj,
      turns ++ [⟨k, op, inputs ++ [input]⟩], shared, _, [],
      Machine.run_concat hrun hturn, Machine.meets_concat hmeets hrun hQ',
      hturns.finish hcall _,
      .leaving hheld (getElem?_set_call_self hcall _) rfl, by simp⟩
  · obtain ⟨hheld, rfl, rfl⟩ := hstands.of_leaving hexclusive hcall
    refine ⟨hexclusive.set hcall (fun hactive => by cases hactive)
      fun j hne hj => ?_, turns, t.shared, whole, [], hrun, hmeets,
      hturns.set hcall rfl, .free rfl rfl, by simp⟩
    rw [hheld] at hj
    exact absurd (Option.some.inj hj).symm hne

/-- A call that is inside goes on to the end of its section and leaves; no other
call is made meanwhile. -/
theorem Yields.exists_run {k : Nat} {op : ο} {now : κ} {shared : σ} {r : ρ}
    (h : G.Yields t.shared now shared r)
    (hcall : t.calls[k]? = some ⟨op, .inside now⟩) :
    ∃ acts outs, (∀ a ∈ acts, ∀ op, a ≠ .call op) ∧
      G.locked.run t acts = some
        ({ shared, lock := none
           calls := t.calls.set k { op, stage := .returned } }, outs) := by
  obtain ⟨first, lock, calls⟩ := t
  simp only at h hcall
  induction h generalizing calls with
  | @last s s' now input r haccess =>
      have hfirst : G.locked.step { shared := s, lock, calls }
          (.access k input) = some ({ shared := s', lock
                                      calls := calls.set k
                                        { op, stage := .leaving } },
            [.accessed k input, .finished k r]) := by
        simp only [locked, lockedStep, hcall, haccess]
      refine ⟨[.access k input, .leave k], [.accessed k input, .finished k r],
        by simp, (Machine.run_cons ..).2 ⟨_, _, [], hfirst, ?_, rfl⟩⟩
      rw [Machine.run_singleton]
      simp only [locked, lockedStep, getElem?_set_call_self hcall, List.set_set]
  | @more s s₁ s' now now₁ input r haccess _ ih =>
      obtain ⟨acts, outs, hcalls, hrun⟩ := ih
        (calls.set k { op, stage := .inside now₁ })
        (getElem?_set_call_self hcall _)
      rw [List.set_set] at hrun
      have hfirst : G.locked.step { shared := s, lock, calls }
          (.access k input) = some ({ shared := s₁, lock
                                      calls := calls.set k
                                        { op, stage := .inside now₁ } },
            [.accessed k input]) := by
        simp only [locked, lockedStep, hcall, haccess]
      exact ⟨.access k input :: acts, .accessed k input :: outs,
        List.forall_mem_cons.2 ⟨by simp, hcalls⟩,
        (Machine.run_cons ..).2 ⟨_, _, outs, hfirst, hrun, rfl⟩⟩

theorem Stands.results_nil {s : σ} {partly : List (GuardedObs ι ρ)}
    (h : G.Stands Q t s partly) :
    partly.filterMap GuardedObs.result? = [] := by
  cases h with
  | free hlock hshared => rfl
  | inside hlock hcall hbody hQ =>
      simp [List.filterMap_map, Function.comp_def, GuardedObs.result?]
  | leaving hlock hcall hshared => rfl

theorem serialized_start (G : Guarded σ ο κ ι ρ) (Q : σ → ο → Prop) (s₀ : σ) :
    G.Serialized Q s₀ (start s₀) [] := by
  refine ⟨fun k call hcall => by simp [start] at hcall, [], s₀, [], [], rfl,
    trivial, ⟨List.nodup_nil, fun k => ?_, by simp⟩, .free rfl rfl, rfl⟩
  simp [start]

/-- Nothing is asked of a call. -/
theorem meets_true (G : Guarded σ ο κ ι ρ) (t : GuardedState σ ο κ)
    (acts : List (GuardedAction ο ι)) :
    G.locked.Meets (EntersWith fun _ _ => True) t acts :=
  Machine.meets_of_forall (fun _ a => by cases a <;> simp [EntersWith]) t acts

/-- Whatever the interleaving, a run is whole sections one after the other, and
the accesses of at most one more. -/
theorem locked_run {acts : List (GuardedAction ο ι)}
    (hmeets : G.locked.Meets (EntersWith Q) (start s₀) acts)
    (hrun : G.locked.run (start s₀) acts = some (t, outs)) :
    G.Serialized Q s₀ t outs :=
  Machine.run_invariant_of_meets (I := G.Serialized Q s₀)
    (fun _ _ _ _ _ h hQ hstep => h.step hQ hstep) hmeets hrun
    (serialized_start G Q s₀)

end Guarded

end FremSoft
