/-
Every interleaving of the threads that use the scheduler, as long as it is not
freed.  A push allocates and fills its node in front of the lock, so the heap
has nodes that are not yet on the list; they stay beside the heap that the
sections work on, and a run of the threads is a run of the sections.
-/
import FremSoft.PushNodes

namespace FremSoft

variable {β : Type}

/-! ### The threads -/

/-- A step of one of the threads.  `scheduler_push` allocates and fills its node
before it waits for the lock. -/
def threadStep (t : SchedulerThreads β) :
    SectionAction β → Option (SchedulerThreads β × List (SectionObs β))
  | .call (.push n e) =>
      schedulerSections.lockedStep
        { t with shared := { t.shared with
            events := t.shared.events.alloc n e } } (.call (.push n e))
  | a => schedulerSections.lockedStep t a

def threadMachine :
    Machine (SchedulerThreads β) (SectionAction β) (SectionObs β) :=
  { step := threadStep }

/-- `calloc` gives a push a node that is not allocated. -/
def CallocFresh (t : SchedulerThreads β) : SectionAction β → Prop
  | .call (.push n _) => t.shared.events.cells n = none
  | _ => True

/-! ### Nodes beside the list -/

/-- The nodes that pushes have brought and still own. -/
def OwnNodes (calls : List (SectionUse β))
    (rest : Addr → Option (Cell (SchedEvent β))) : Prop :=
  ∀ a c, rest a = some c ↔ ∃ (k : Nat) (call : SectionUse β) (e : SchedEvent β),
    calls[k]? = some call ∧ call.pending? = some (a, e) ∧ c = ⟨e, none⟩

def HeapScheduler.beside (s : HeapScheduler β)
    (rest : Addr → Option (Cell (SchedEvent β))) : HeapScheduler β :=
  { s with events := s.events.beside rest }

/-- The threads, with these nodes beside those of the list. -/
def threadsBeside (v : SchedulerThreads β)
    (rest : Addr → Option (Cell (SchedEvent β))) : SchedulerThreads β :=
  { v with shared := v.shared.beside rest }

section OwnNodes

variable {calls : List (SectionUse β)} {k : Nat} {call call' : SectionUse β}
  {rest : Addr → Option (Cell (SchedEvent β))}

theorem OwnNodes.eq_none_iff (h : OwnNodes calls rest) {a : Addr} :
    rest a = none ↔ ∀ call ∈ calls, ∀ e, call.pending? ≠ some (a, e) := by
  constructor
  · intro hnone call hcall e hpending
    obtain ⟨k, hk⟩ := List.mem_iff_getElem?.1 hcall
    rw [(h a _).2 ⟨k, call, e, hk, hpending, rfl⟩] at hnone
    cases hnone
  · intro hnone
    cases hrest : rest a with
    | none => rfl
    | some c =>
        obtain ⟨k, call, e, hk, hpending, -⟩ := (h a c).1 hrest
        exact absurd hpending (hnone call (List.mem_of_getElem? hk) e)

/-- A call that goes on with the same node, if it has one. -/
theorem OwnNodes.set (h : OwnNodes calls rest) (hcall : calls[k]? = some call)
    (hsame : call'.pending? = call.pending?) :
    OwnNodes (calls.set k call') rest := by
  intro a c
  rw [h a c]
  constructor
  · rintro ⟨j, other, e, hj, hpending, rfl⟩
    by_cases hjk : k = j
    · subst hjk
      obtain rfl := Option.some.inj (hcall.symm.trans hj)
      exact ⟨k, call', e, getElem?_set_call_self hcall call',
        hsame.trans hpending, rfl⟩
    · exact ⟨j, other, e, by rw [getElem?_set_call hcall, if_neg hjk, hj],
        hpending, rfl⟩
  · rintro ⟨j, other, e, hj, hpending, rfl⟩
    rw [getElem?_set_call hcall] at hj
    split at hj
    · obtain rfl := Option.some.inj hj
      exact ⟨k, call, e, hcall, hsame.symm.trans hpending, rfl⟩
    · exact ⟨j, other, e, hj, hpending, rfl⟩

/-- A push whose section begins gives its node away. -/
theorem OwnNodes.giveAway (h : OwnNodes calls rest) {n : Addr}
    {e : SchedEvent β} (hcall : calls[k]? = some call)
    (hpending : call.pending? = some (n, e)) (hgone : call'.pending? = none)
    (hapart : ∀ j other e', calls[j]? = some other →
      other.pending? = some (n, e') → j = k) :
    OwnNodes (calls.set k call') (Function.update rest n none) := by
  intro a c
  constructor
  · intro hrest
    have hne : a ≠ n := by
      rintro rfl
      simp at hrest
    rw [Function.update_of_ne hne] at hrest
    obtain ⟨j, other, e', hj, hother, rfl⟩ := (h a c).1 hrest
    refine ⟨j, other, e', ?_, hother, rfl⟩
    rw [getElem?_set_call hcall, if_neg, hj]
    rintro rfl
    obtain rfl := Option.some.inj (hcall.symm.trans hj)
    rw [hpending] at hother
    exact hne (congrArg Prod.fst (Option.some.inj hother)).symm
  · rintro ⟨j, other, e', hj, hother, rfl⟩
    rw [getElem?_set_call hcall] at hj
    split at hj
    · obtain rfl := Option.some.inj hj
      rw [hgone] at hother
      cases hother
    · next hjk =>
      have hne : a ≠ n := by
        rintro rfl
        exact hjk (hapart j other e' hj hother).symm
      rw [Function.update_of_ne hne]
      exact (h a _).2 ⟨j, other, e', hj, hother, rfl⟩

theorem OwnNodes.append (h : OwnNodes calls rest)
    (hnone : call'.pending? = none) : OwnNodes (calls ++ [call']) rest := by
  intro a c
  rw [h a c]
  constructor
  · rintro ⟨j, other, e, hj, hpending, rfl⟩
    exact ⟨j, other, e, getElem?_concat_call.2 (.inl hj), hpending, rfl⟩
  · rintro ⟨j, other, e, hj, hpending, rfl⟩
    rcases getElem?_concat_call.1 hj with hj | ⟨-, rfl⟩
    · exact ⟨j, other, e, hj, hpending, rfl⟩
    · rw [hnone] at hpending
      cases hpending

/-- A push brings its node. -/
theorem OwnNodes.bring (h : OwnNodes calls rest) {n : Addr} {e : SchedEvent β}
    (hpending : call'.pending? = some (n, e)) (hfree : rest n = none) :
    OwnNodes (calls ++ [call'])
      (Function.update rest n (some ⟨e, none⟩)) := by
  intro a c
  by_cases hne : a = n
  · subst hne
    rw [Function.update_self]
    constructor
    · intro hc
      obtain rfl := Option.some.inj hc
      exact ⟨calls.length, call', e, List.getElem?_concat_length, hpending, rfl⟩
    · rintro ⟨j, other, e', hj, hother, rfl⟩
      rcases getElem?_concat_call.1 hj with hj | ⟨-, rfl⟩
      · exact absurd hother
          (h.eq_none_iff.1 hfree other (List.mem_of_getElem? hj) e')
      · rw [hpending] at hother
        obtain rfl := (Prod.mk.inj (Option.some.inj hother)).2
        rfl
  · rw [Function.update_of_ne hne, h a c]
    constructor
    · rintro ⟨j, other, e', hj, hother, rfl⟩
      exact ⟨j, other, e', getElem?_concat_call.2 (.inl hj), hother, rfl⟩
    · rintro ⟨j, other, e', hj, hother, rfl⟩
      rcases getElem?_concat_call.1 hj with hj | ⟨-, rfl⟩
      · exact ⟨j, other, e', hj, hother, rfl⟩
      · rw [hpending] at hother
        exact absurd (congrArg Prod.fst (Option.some.inj hother)).symm hne

theorem NodesApart.apart_of_own {v : SchedulerThreads β} (h : NodesApart v)
    (hown : OwnNodes v.calls rest) : v.shared.events.Apart rest := by
  intro a c hrest
  obtain ⟨k, call, e, hk, hpending, -⟩ := (hown a c).1 hrest
  exact h.fresh k call (a, e) hk hpending

end OwnNodes

/-! ### An access with nodes beside the list -/

/-- A branch that only says how the section goes on. -/
theorem branch_beside {p : Prop} [Decidable p] {s s' : HeapScheduler β}
    {next₁ next₂ next : SectionNext β}
    {rest : Addr → Option (Cell (SchedEvent β))}
    (h : (if p then pure (s, next₁) else pure (s, next₂) :
      Except HeapFault (HeapScheduler β × SectionNext β)) = .ok (s', next)) :
    (if p then pure (s.beside rest, next₁) else pure (s.beside rest, next₂) :
      Except HeapFault (HeapScheduler β × SectionNext β)) =
        .ok (s'.beside rest, next) := by
  by_cases hp : p
  · rw [if_pos hp] at h ⊢
    obtain ⟨rfl, rfl⟩ := Prod.mk.inj (Except.ok.inj h)
    rfl
  · rw [if_neg hp] at h ⊢
    obtain ⟨rfl, rfl⟩ := Prod.mk.inj (Except.ok.inj h)
    rfl

/-- The nodes beside the list have no part in an access. -/
theorem sectionAccess_beside {s s' : HeapScheduler β} {code : SectionCode β}
    {next : SectionNext β} {rest : Addr → Option (Cell (SchedEvent β))}
    (hapart : s.events.Apart rest)
    (h : sectionAccess s code = .ok (s', next)) :
    sectionAccess (s.beside rest) code = .ok (s'.beside rest, next) := by
  cases code with
  | first sec =>
      cases sec with
      | push n e =>
          have hhead : (s.beside rest).events.head = s.events.head := rfl
          simp only [sectionAccess, firstAccess, hhead] at h ⊢
          cases hcur : s.events.head with
          | none =>
              simp only [hcur] at h
              obtain ⟨rfl, rfl⟩ := Prod.mk.inj (Except.ok.inj h)
              rfl
          | some head =>
              simp only [hcur] at h
              obtain ⟨rfl, rfl⟩ := Prod.mk.inj (Except.ok.inj h)
              rfl
      | _ =>
          obtain ⟨rfl, rfl⟩ := Prod.mk.inj (Except.ok.inj h)
          rfl
  | link n last =>
      obtain ⟨events, hset, h⟩ := bind_eq_ok h
      obtain ⟨rfl, rfl⟩ := Prod.mk.inj (Except.ok.inj h)
      simp [sectionAccess, HeapScheduler.beside,
        LinkedHeap.beside_setLink hset]
  | popUnlink prev cur found =>
      obtain ⟨events, hset, h⟩ := bind_eq_ok h
      obtain ⟨rfl, rfl⟩ := Prod.mk.inj (Except.ok.inj h)
      simp [sectionAccess, HeapScheduler.beside,
        LinkedHeap.beside_setLink hset]
  | cancelUnlink hCop doomed prev cur found =>
      obtain ⟨events, hset, h⟩ := bind_eq_ok h
      obtain ⟨rfl, rfl⟩ := Prod.mk.inj (Except.ok.inj h)
      simp [sectionAccess, HeapScheduler.beside,
        LinkedHeap.beside_setLink hset]
  | popFree cur e =>
      obtain ⟨events, hfree, h⟩ := bind_eq_ok h
      obtain ⟨rfl, rfl⟩ := Prod.mk.inj (Except.ok.inj h)
      simp [sectionAccess, HeapScheduler.beside,
        LinkedHeap.beside_free hapart hfree]
  | cancelFree hCop doomed prev cur found =>
      obtain ⟨events, hfree, h⟩ := bind_eq_ok h
      obtain ⟨rfl, rfl⟩ := Prod.mk.inj (Except.ok.inj h)
      simp [sectionAccess, HeapScheduler.beside,
        LinkedHeap.beside_free hapart hfree]
  | setHMod hMod hCll | setHCll hCll | readHMod cb | readHCll cb hMod =>
      obtain ⟨rfl, rfl⟩ := Prod.mk.inj (Except.ok.inj h)
      rfl
  | tailWalk n cur =>
      obtain ⟨c, hload, h⟩ := bind_eq_ok h
      simp only [sectionAccess, HeapScheduler.beside,
        LinkedHeap.beside_load hload, ok_bind]
      cases hnext : c.next with
      | none =>
          simp only [hnext] at h
          obtain ⟨rfl, rfl⟩ := Prod.mk.inj (Except.ok.inj h)
          rfl
      | some next =>
          simp only [hnext] at h
          obtain ⟨rfl, rfl⟩ := Prod.mk.inj (Except.ok.inj h)
          rfl
  | popDue hMod hCll nowUs prev cur =>
      cases cur with
      | none =>
          obtain ⟨rfl, rfl⟩ := Prod.mk.inj (Except.ok.inj h)
          rfl
      | some cur =>
          obtain ⟨c, hload, h⟩ := bind_eq_ok h
          simp only [sectionAccess, HeapScheduler.beside,
            LinkedHeap.beside_load hload, ok_bind]
          exact branch_beside h
  | cancelCop hCop doomed prev cur =>
      cases cur with
      | none =>
          obtain ⟨rfl, rfl⟩ := Prod.mk.inj (Except.ok.inj h)
          rfl
      | some cur =>
          obtain ⟨c, hload, h⟩ := bind_eq_ok h
          simp only [sectionAccess, HeapScheduler.beside,
            LinkedHeap.beside_load hload, ok_bind]
          exact branch_beside h
  | peek hMod hCll nowUs cur =>
      cases cur with
      | none =>
          obtain ⟨rfl, rfl⟩ := Prod.mk.inj (Except.ok.inj h)
          rfl
      | some cur =>
          obtain ⟨c, hload, h⟩ := bind_eq_ok h
          simp only [sectionAccess, HeapScheduler.beside,
            LinkedHeap.beside_load hload, ok_bind]
          exact branch_beside h

/-! ### A step with nodes beside the list -/

/-- What stays beside the list when an access is made. -/
def leftBeside (rest : Addr → Option (Cell (SchedEvent β))) :
    SectionCode β → Addr → Option (Cell (SchedEvent β))
  | .first (.push n _) => Function.update rest n none
  | _ => rest

section Beside

variable {v v' : SchedulerThreads β} {k : Nat} {op : SchedulerSection β}
  {now : SectionCode β} {rest : Addr → Option (Cell (SchedEvent β))}

theorem takeOver_of_other {s : HeapScheduler β}
    (hother : ∀ n e, now ≠ .first (.push n e)) : s.takeOver now = s := by
  unfold HeapScheduler.takeOver
  split
  · next n e => exact absurd rfl (hother n e)
  · rfl

theorem leftBeside_of_other (hother : ∀ n e, now ≠ .first (.push n e)) :
    leftBeside rest now = rest := by
  unfold leftBeside
  split
  · next n e => exact absurd rfl (hother n e)
  · rfl

/-- Taking over a node writes nothing. -/
theorem takeOver_beside (hnodes : NodesApart v) (hown : OwnNodes v.calls rest)
    (hcall : v.calls[k]? = some ⟨op, .inside now⟩) :
    (v.shared.takeOver now).beside (leftBeside rest now) =
      v.shared.beside rest := by
  by_cases hother : ∀ n e, now ≠ .first (.push n e)
  · rw [takeOver_of_other hother, leftBeside_of_other hother]
  · push Not at hother
    obtain ⟨n, e, rfl⟩ := hother
    have hpending : GuardedCall.pending? ⟨op, .inside (.first (.push n e))⟩ =
        some (n, e) := pending_inside_iff.2 rfl
    have hcell := hnodes.fresh k _ (n, e) hcall hpending
    have hrest := (hown n ⟨e, none⟩).2 ⟨k, _, e, hcall, hpending, rfl⟩
    simp only [HeapScheduler.takeOver, leftBeside, HeapScheduler.beside,
      LinkedHeap.alloc_beside v.shared.events hcell hrest]

theorem takeOver_apart (hapart : v.shared.events.Apart rest) :
    (v.shared.takeOver now).events.Apart (leftBeside rest now) := by
  intro a c hrest
  refine takeOver_keeps (hapart a c ?_) fun e he => ?_
  · unfold leftBeside at hrest
    split at hrest
    · next n e =>
      by_cases hne : a = n
      · simp [hne] at hrest
      · rwa [Function.update_of_ne hne] at hrest
    · exact hrest
  · simp [he, leftBeside] at hrest

theorem OwnNodes.access (hown : OwnNodes v.calls rest) (hnodes : NodesApart v)
    (hcall : v.calls[k]? = some ⟨op, .inside now⟩) {call' : SectionUse β}
    (hgone : call'.pending? = none) :
    OwnNodes (v.calls.set k call') (leftBeside rest now) := by
  unfold leftBeside
  split
  · next n e =>
    have hpending : GuardedCall.pending? ⟨op, .inside (.first (.push n e))⟩ =
        some (n, e) := pending_inside_iff.2 rfl
    exact hown.giveAway hcall hpending hgone fun j other e' hj hother =>
      hnodes.apart j k other _ (n, e') (n, e) hj hcall hother hpending rfl
  · next hother =>
    refine hown.set hcall ?_
    rw [hgone, eq_comm, Option.eq_none_iff_forall_ne_some]
    rintro ⟨n, e⟩ hpending
    exact hother n e (pending_inside_iff.1 hpending)

/-- A step of the sections is one of the threads. -/
theorem threadStep_beside {a : SectionAction β} {out : List (SectionObs β)}
    (hnodes : NodesApart v) (hown : OwnNodes v.calls rest)
    (hbrings : BringsOwnNode v a)
    (hok : ∀ k fault, .finished k (.error fault) ∉ out)
    (hstep : ownedSections.locked.step v a = some (v', out)) :
    ∃ rest', OwnNodes v'.calls rest' ∧
      threadMachine.step (threadsBeside v rest) a =
        some (threadsBeside v' rest', out) := by
  have hapart := hnodes.apart_of_own hown
  rcases Guarded.lockedStep_cases hstep with ⟨op, rfl, rfl, rfl⟩ |
    ⟨k, op, rfl, hlock, hcall, rfl, rfl⟩ |
    ⟨k, input, op, now, shared, next, rfl, hcall, haccess, rfl, rfl⟩ |
    ⟨k, input, op, now, shared, r, rfl, hcall, haccess, rfl, rfl⟩ |
    ⟨k, op, rfl, hcall, rfl, rfl⟩
  · cases op with
    | push n e =>
        refine ⟨_, hown.bring (pending_waiting_iff.2 rfl)
          (hown.eq_none_iff.2 hbrings.2), ?_⟩
        simp only [threadMachine, threadStep, Guarded.lockedStep, threadsBeside,
          HeapScheduler.beside, LinkedHeap.beside_alloc _ hbrings.1]
    | _ => exact ⟨rest, hown.append rfl, rfl⟩
  · have hsame : GuardedCall.pending? ⟨op, .inside (.first op)⟩ =
        GuardedCall.pending? ⟨op, .waiting⟩ := by
      cases op <;> rfl
    refine ⟨rest, hown.set hcall hsame, ?_⟩
    simp only [threadMachine, threadStep, Guarded.lockedStep, threadsBeside,
      hlock, hcall]
    rfl
  · have hlater := ownedAccess_inl haccess
    have hgone : GuardedCall.pending? ⟨op, .inside next⟩ = none := by
      rw [Option.eq_none_iff_forall_ne_some]
      rintro ⟨n, e⟩ hpending
      exact (sectionAccess_later hlater).goesOn _
        (congrArg Sum.inl (pending_inside_iff.1 hpending))
    have hbeside := sectionAccess_beside (takeOver_apart hapart) hlater
    rw [takeOver_beside hnodes hown hcall] at hbeside
    refine ⟨_, hown.access hnodes hcall hgone, ?_⟩
    simp only [threadMachine, threadStep, Guarded.lockedStep, threadsBeside,
      hcall, schedulerSections, hbeside]
  · rcases ownedAccess_inr haccess with ⟨r', rfl, hresult⟩ |
      ⟨-, fault, rfl⟩
    · have hbeside := sectionAccess_beside (takeOver_apart hapart) hresult
      rw [takeOver_beside hnodes hown hcall] at hbeside
      refine ⟨_, hown.access hnodes hcall rfl, ?_⟩
      simp only [threadMachine, threadStep, Guarded.lockedStep, threadsBeside,
        hcall, schedulerSections, hbeside]
    · exact absurd (by simp) (hok k fault)
  · refine ⟨rest, hown.set hcall rfl, ?_⟩
    simp only [threadMachine, threadStep, Guarded.lockedStep, threadsBeside,
      hcall]

/-- Whether a step is enabled is a matter of the lock and the calls. -/
theorem exists_ownedStep {a : SectionAction β} {t' : SchedulerThreads β}
    {out : List (SectionObs β)}
    (hstep : threadMachine.step (threadsBeside v rest) a = some (t', out)) :
    ∃ v' out', ownedSections.locked.step v a = some (v', out') := by
  cases a with
  | call op => exact ⟨_, _, rfl⟩
  | enter k =>
      simp only [threadMachine, threadStep, Guarded.lockedStep,
        threadsBeside] at hstep
      split at hstep
      · next op hlock hcall =>
        simp only [Guarded.locked, Guarded.lockedStep, hlock, hcall]
        exact ⟨_, _, rfl⟩
      · cases hstep
  | access k input =>
      simp only [threadMachine, threadStep, Guarded.lockedStep,
        threadsBeside] at hstep
      split at hstep
      · next op now hcall =>
        simp only [Guarded.locked, Guarded.lockedStep, hcall]
        split <;> exact ⟨_, _, rfl⟩
      · cases hstep
  | leave k =>
      simp only [threadMachine, threadStep, Guarded.lockedStep,
        threadsBeside] at hstep
      split at hstep
      · next op hcall =>
        simp only [Guarded.locked, Guarded.lockedStep, hcall]
        exact ⟨_, _, rfl⟩
      · cases hstep

end Beside

/-! ### A run with nodes beside the list -/

theorem CallocFresh.brings {v : SchedulerThreads β} {a : SectionAction β}
    {rest : Addr → Option (Cell (SchedEvent β))}
    (hown : OwnNodes v.calls rest)
    (h : CallocFresh (threadsBeside v rest) a) : BringsOwnNode v a := by
  cases a with
  | call op =>
      cases op with
      | push n e =>
          obtain ⟨hcell, hrest⟩ := LinkedHeap.beside_cells_eq_none.1 h
          exact ⟨hcell, hown.eq_none_iff.1 hrest⟩
      | _ => trivial
  | _ => trivial

/-- A run of the threads is one of the sections, with the nodes of the pushes
that wait beside their heap. -/
theorem exists_ownedRun {acts : List (SectionAction β)}
    {t : SchedulerThreads β} {outs : List (SectionObs β)}
    (hcalloc : threadMachine.Meets CallocFresh
      (Guarded.start HeapScheduler.new) acts)
    (hrun : threadMachine.run (Guarded.start HeapScheduler.new) acts =
      some (t, outs)) :
    ∃ acts' v rest, OwnedRun acts' v outs ∧ OwnNodes v.calls rest ∧
      t = threadsBeside v rest := by
  refine Machine.run_invariant_of_meets (I := fun t outs => ∃ acts' v rest,
    OwnedRun acts' v outs ∧ OwnNodes v.calls rest ∧ t = threadsBeside v rest)
    ?_ hcalloc hrun ?_
  · rintro _ seen a t' out ⟨acts', v, rest, howned, hown, rfl⟩ hfresh hstep
    have hbrings := hfresh.brings hown
    obtain ⟨v', out', hstep'⟩ := exists_ownedStep hstep
    have hnext := howned.concat hbrings hstep'
    obtain ⟨rest', hown', hthread⟩ := threadStep_beside howned.serialized.1 hown
      hbrings (fun k fault hmem =>
        hnext.no_fault k fault (List.mem_append_right _ hmem)) hstep'
    obtain ⟨rfl, rfl⟩ := Prod.mk.inj
      (Option.some.inj (hstep.symm.trans hthread))
    exact ⟨_, v', rest', hnext, hown', rfl⟩
  · refine ⟨[], Guarded.start HeapScheduler.new, fun _ => none,
      ⟨trivial, rfl⟩, fun a c => by simp [Guarded.start], ?_⟩
    rfl

/-- From where the sections are, the threads go on as they do. -/
theorem OwnedRun.goesOn {acts more : List (SectionAction β)}
    {v v' : SchedulerThreads β} {outs outs' : List (SectionObs β)}
    {rest : Addr → Option (Cell (SchedEvent β))} (h : OwnedRun acts v outs)
    (hown : OwnNodes v.calls rest) (hcalls : ∀ a ∈ more, ∀ sec, a ≠ .call sec)
    (hrun : ownedSections.locked.run v more = some (v', outs')) :
    ∃ rest', threadMachine.run (threadsBeside v rest) more =
      some (threadsBeside v' rest', outs') := by
  induction more generalizing acts v outs outs' rest with
  | nil =>
      obtain ⟨rfl, rfl⟩ := Prod.mk.inj (Option.some.inj hrun)
      exact ⟨rest, rfl⟩
  | cons a more ih =>
      obtain ⟨v₁, out, tail, hstep, hrest, rfl⟩ := (Machine.run_cons ..).1 hrun
      obtain ⟨hhead, htail⟩ := List.forall_mem_cons.1 hcalls
      have hbrings : BringsOwnNode v a := by
        cases a with
        | call sec => exact absurd rfl (hhead sec)
        | _ => trivial
      have hnext := h.concat hbrings hstep
      obtain ⟨rest₁, hown₁, hthread⟩ := threadStep_beside h.serialized.1 hown
        hbrings (fun k fault hmem =>
          hnext.no_fault k fault (List.mem_append_right _ hmem)) hstep
      obtain ⟨rest', hlast⟩ := ih hnext hown₁ htail hrest
      exact ⟨rest', (Machine.run_cons ..).2
        ⟨_, out, tail, hthread, hlast, rfl⟩⟩

/-! ### Events in and out -/

/-- The event that a section puts on the list. -/
def SchedulerSection.put : SchedulerSection β → List (SchedEvent β)
  | push _ e => [e]
  | _ => []

/-- What a section has taken off the list. -/
def SectionResult.taken {γ : Type} : SectionResult γ → List γ
  | popped found => found.toList
  | cancelled doomed => doomed
  | _ => []

/-- The events that the sections so far have put on the list. -/
def putEvents (t : SchedulerThreads β)
    (results : List (Nat × Except HeapFault (SectionResult (EventNode β)))) :
    List (SchedEvent β) :=
  results.flatMap fun x =>
    (t.calls[x.1]?.map fun call => call.op.put).getD []

/-- The nodes that they have taken off it. -/
def takenNodes
    (results : List (Nat × Except HeapFault (SectionResult (EventNode β)))) :
    List (EventNode β) :=
  results.flatMap fun x =>
    match x.2 with
    | .ok r => r.taken
    | .error _ => []

/-! ### Every interleaving -/

/-- With the lock free the list is these nodes, and the other nodes that are
allocated are those of the pushes that wait for it. -/
structure HoldsBetween (t : SchedulerThreads β)
    (nodes : List (EventNode β)) : Prop where
  chain : Segment t.shared.events.cells t.shared.events.head nodes none
  live : ∀ a, (t.shared.events.cells a).isSome ↔ a ∈ nodes.map Prod.fst ∨
    ∃ e, ⟨.push a e, .waiting⟩ ∈ t.calls
  own : ∀ a e, ⟨.push a e, .waiting⟩ ∈ t.calls → a ∉ nodes.map Prod.fst ∧
    t.shared.events.cells a = some ⟨e, none⟩

theorem holdsBetween {v : SchedulerThreads β} {nodes : List (EventNode β)}
    {rest : Addr → Option (Cell (SchedEvent β))}
    (hexclusive : Guarded.Exclusive v) (hnodes : NodesApart v)
    (hown : OwnNodes v.calls rest) (hfree : v.lock = none)
    (hholds : EventHeap.Holds v.shared.events nodes) :
    HoldsBetween (threadsBeside v rest) nodes := by
  have hwaiting : ∀ a c, rest a = some c ↔
      ∃ e, ⟨.push a e, .waiting⟩ ∈ v.calls ∧ c = ⟨e, none⟩ := by
    intro a c
    rw [hown a c]
    constructor
    · rintro ⟨k, ⟨op, stage⟩, e, hk, hpending, rfl⟩
      have hidle : ∀ code, stage ≠ .inside code := by
        rintro code rfl
        have hheld := hexclusive k _ hk rfl
        rw [hfree] at hheld
        cases hheld
      cases stage with
      | waiting =>
          rw [pending_waiting_iff.1 hpending] at hk
          exact ⟨e, List.mem_of_getElem? hk, rfl⟩
      | inside code => exact absurd rfl (hidle code)
      | leaving => cases hpending
      | returned => cases hpending
    · rintro ⟨e, hmem, rfl⟩
      obtain ⟨k, hk⟩ := List.mem_iff_getElem?.1 hmem
      exact ⟨k, _, e, hk, pending_waiting_iff.2 rfl, rfl⟩
  have hapart := hnodes.apart_of_own hown
  refine { chain := ?_, live := fun a => ?_, own := fun a e hmem => ?_ }
  · refine hholds.chain.frame fun a ha => ?_
    obtain ⟨c, hc⟩ := Option.isSome_iff_exists.1 ((hholds.live a).2 ha)
    simp [threadsBeside, HeapScheduler.beside, LinkedHeap.beside, hc]
  · rw [← hholds.live a]
    simp only [threadsBeside, HeapScheduler.beside, LinkedHeap.beside,
      Option.isSome_or, Bool.or_eq_true]
    refine or_congr_right ?_
    rw [Option.isSome_iff_exists]
    constructor
    · rintro ⟨c, hc⟩
      obtain ⟨e, hmem, -⟩ := (hwaiting a c).1 hc
      exact ⟨e, hmem⟩
    · rintro ⟨e, hmem⟩
      exact ⟨_, (hwaiting a _).2 ⟨e, hmem, rfl⟩⟩
  · have hrest := (hwaiting a ⟨e, none⟩).2 ⟨e, hmem, rfl⟩
    have hcell := hapart a _ hrest
    refine ⟨fun ha => ?_, ?_⟩
    · have hsome := (hholds.live a).2 ha
      rw [hcell] at hsome
      cases hsome
    · simp [threadsBeside, HeapScheduler.beside, LinkedHeap.beside, hcell, hrest]

/-- The scheduler under any interleaving of its threads, access by access, until
it is freed.  From the empty scheduler and with any nodes `calloc` may give, no
access faults; the results are those of the scheduler's functions, called one
after the other in the order in which the sections end, each call once; when the
lock is free the heap holds the events of the list that these calls have led to,
and the nodes of the pushes that wait; and a thread inside comes out. -/
theorem interleaved_sections_atomic {acts : List (SectionAction β)}
    {t : SchedulerThreads β} {outs : List (SectionObs β)}
    (hcalloc : threadMachine.Meets CallocFresh
      (Guarded.start HeapScheduler.new) acts)
    (hrun : threadMachine.run (Guarded.start HeapScheduler.new) acts =
      some (t, outs)) :
    ∃ (secs : List (Nat × SchedulerSection β)) (s : Scheduler β)
        (rs : List (Nat × SectionResult (EventNode β))),
      outs.filterMap GuardedObs.result? = rs.map (fun x => (x.1, .ok x.2)) ∧
      sectionMachine.run schedulerNew secs =
        some (s, rs.map fun x => (x.1, x.2.map Prod.snd)) ∧
      (secs.map Prod.fst).Nodup ∧
      (∀ k, k ∈ secs.map Prod.fst ↔
        ∃ call, t.calls[k]? = some call ∧ call.stage.ended = true) ∧
      (∀ sec ∈ secs, t.calls[sec.1]?.map GuardedCall.op = some sec.2) ∧
      (t.lock = none → ∃ nodes, HoldsBetween t nodes ∧
        s = t.shared.view nodes) ∧
      (t.lock ≠ none → ∃ more t' outs',
        threadMachine.run t more = some (t', outs') ∧ t'.lock = none) := by
  obtain ⟨acts', v, rest, howned, hown, rfl⟩ := exists_ownedRun hcalloc hrun
  obtain ⟨turns, s₁, nodes, rs, partly, hturns, hstands, hholds, hatomic,
    hresults⟩ := howned.sections
  obtain ⟨hnodes, hexclusive, -⟩ := howned.serialized
  have hk : (turns.map Turn.call).map Prod.fst = turns.map Turn.k :=
    List.map_map
  refine ⟨turns.map Turn.call, s₁.view nodes, rs, hresults, hatomic, ?_, ?_, ?_,
    ?_, ?_⟩
  · rw [hk]
    exact hturns.nodup
  · rw [hk]
    exact hturns.ended
  · intro sec hsec
    obtain ⟨turn, hturn, rfl⟩ := List.mem_map.1 hsec
    exact hturns.op turn hturn
  · intro hfree
    obtain rfl := hstands.shared_of_free hfree
    exact ⟨nodes, holdsBetween hexclusive hnodes hown hfree hholds, rfl⟩
  · intro hheld
    obtain ⟨more, v', outs', hcalls, hmore, hfree⟩ :=
      holder_finishes hholds hstands hheld
    obtain ⟨rest', hthreads⟩ := howned.goesOn hown hcalls hmore
    exact ⟨more, _, outs', hthreads, hfree⟩

/-- Two pushes and a poll that come in while the first push is inside; the poll
takes the second event. -/
def sampleInterleaving : List (SectionAction Unit) :=
  [.call (.push 8 (sampleEvent 1 900)), .enter 0,
    .call (.push 4 (sampleEvent 2 10)), .access 0 (),
    .call (.popDue 1 2 50), .access 0 (), .leave 0, .enter 1,
    .access 1 (), .access 1 (), .access 1 (), .leave 1, .enter 2, .access 2 (),
    .access 2 (), .access 2 (), .access 2 (), .access 2 (), .leave 2]

theorem sampleInterleaving_fresh : threadMachine.Meets CallocFresh
    (Guarded.start HeapScheduler.new) sampleInterleaving := by
  simp [sampleInterleaving, Machine.Meets, CallocFresh, threadMachine,
    threadStep, Guarded.lockedStep, Guarded.start, HeapScheduler.new,
    LinkedHeap.empty, LinkedHeap.alloc, schedulerSections, sectionAccess,
    firstAccess]

theorem sampleInterleaving_run : ∃ t outs,
    threadMachine.run (Guarded.start HeapScheduler.new)
        sampleInterleaving = some (t, outs) ∧
      t.lock = none ∧ outs.filterMap GuardedObs.result? =
        [(0, .ok (.pushed 0)), (1, .ok (.pushed 0)),
          (2, .ok (.popped (some (4, sampleEvent 2 10))))] ∧
      putEvents t (outs.filterMap GuardedObs.result?) =
        [sampleEvent 1 900, sampleEvent 2 10] :=
  ⟨_, _, rfl, rfl, rfl, rfl⟩

theorem interleaved_sections_atomic_sample : ∃ t outs secs s,
    threadMachine.run (Guarded.start HeapScheduler.new)
        sampleInterleaving = some (t, outs) ∧
      outs.filterMap GuardedObs.result? =
        [(0, .ok (.pushed 0)), (1, .ok (.pushed 0)),
          (2, .ok (.popped (some (4, sampleEvent 2 10))))] ∧
      sectionMachine.run schedulerNew secs = some (s,
        [(0, .pushed 0), (1, .pushed 0), (2, .popped (some (sampleEvent 2 10)))]) ∧
      ∃ nodes, HoldsBetween t nodes ∧ s.head = nodes.map Prod.snd := by
  obtain ⟨t, outs, hrun, hfree, hlast, -⟩ := sampleInterleaving_run
  obtain ⟨secs, s, rs, hresults, hatomic, -, -, -, hholds, -⟩ :=
    interleaved_sections_atomic sampleInterleaving_fresh hrun
  have hrs : rs = [(0, .pushed 0), (1, .pushed 0),
      (2, .popped (some (4, sampleEvent 2 10)))] := by
    refine List.map_injective_iff.2 ?_ (hresults.symm.trans hlast)
    rintro ⟨k, r⟩ ⟨k', r'⟩ heq
    simpa using heq
  obtain ⟨nodes, hnodes, rfl⟩ := hholds hfree
  rw [hrs] at hatomic
  exact ⟨t, outs, secs, _, hrun, hlast, hatomic, nodes, hnodes, rfl⟩

theorem SectionResult.taken_map {γ δ : Type} (f : γ → δ)
    (r : SectionResult γ) : (r.map f).taken = r.taken.map f := by
  cases r with
  | popped found => cases found <;> rfl
  | _ => rfl

/-- A section neither loses an event nor makes a second one of it. -/
theorem sectionCall_events (s : Scheduler β) (sec : SchedulerSection β) :
    (s.head ++ sec.put).Perm
        ((sectionCall s sec).2.taken ++ (sectionCall s sec).1.head) ∧
      (sectionCall s sec).1.head.Sublist (s.head ++ sec.put) := by
  cases sec with
  | push n e => exact ⟨.refl _, .refl _⟩
  | popDue hMod hCll nowUs =>
      simp only [SchedulerSection.put, List.append_nil, sectionCall,
        schedulerPopDue]
      cases hpop : detach (SchedEvent.isDue hMod hCll nowUs) s.head with
      | none => exact ⟨.refl _, .refl _⟩
      | some found => exact ⟨detach_perm hpop, detach_sublist hpop⟩
  | cancelCop hCop =>
      simp only [SchedulerSection.put, List.append_nil]
      exact ⟨(List.filter_append_perm _ s.head).symm, List.filter_sublist⟩
  | _ =>
      simp only [SchedulerSection.put, List.append_nil]
      exact ⟨.refl _, .refl _⟩

theorem sectionMachine_events {s s' : Scheduler β}
    {secs : List (Nat × SchedulerSection β)}
    {rs : List (Nat × SectionResult (SchedEvent β))}
    (hrun : sectionMachine.run s secs = some (s', rs)) :
    rs.map Prod.fst = secs.map Prod.fst ∧
      (s.head ++ secs.flatMap fun sec => sec.2.put).Perm
        ((rs.flatMap fun x => x.2.taken) ++ s'.head) ∧
      s'.head.Sublist (s.head ++ secs.flatMap fun sec => sec.2.put) := by
  induction secs generalizing s rs with
  | nil =>
      simp only [Machine.run_nil, Option.some.injEq, Prod.mk.injEq] at hrun
      obtain ⟨rfl, rfl⟩ := hrun
      simp
  | cons sec rest ih =>
      obtain ⟨s₁, out, tail, hstep, hrest, rfl⟩ := (Machine.run_cons ..).1 hrun
      obtain ⟨rfl, rfl⟩ := Prod.mk.inj (Option.some.inj hstep)
      obtain ⟨hk, hperm, hsub⟩ := ih hrest
      obtain ⟨hone, hkept⟩ := sectionCall_events s sec.2
      refine ⟨by simp [hk], ?_, ?_⟩
      · rw [List.flatMap_cons, ← List.append_assoc, List.singleton_append,
          List.flatMap_cons]
        refine (hone.append_right _).trans ?_
        rw [List.append_assoc, List.append_assoc]
        exact hperm.append_left _
      · rw [List.flatMap_cons, ← List.append_assoc]
        exact hsub.trans (hkept.append_right _)

theorem putEvents_eq {t : SchedulerThreads β}
    {turns : List (Turn (SchedulerSection β) Unit)}
    {results : List (Nat × Except HeapFault (SectionResult (EventNode β)))}
    (hturns : TurnsOf t.calls turns)
    (hk : results.map Prod.fst = turns.map Turn.k) :
    putEvents t results = (turns.map Turn.call).flatMap fun sec => sec.2.put := by
  have hput : putEvents t results = (results.map Prod.fst).flatMap fun k =>
      (t.calls[k]?.map fun call => call.op.put).getD [] := by
    rw [List.flatMap_map]
    rfl
  rw [hput, hk, List.flatMap_map, List.flatMap_map]
  refine List.flatMap_congr fun turn hturn => ?_
  obtain ⟨call, hcall, hop⟩ := Option.map_eq_some_iff.1 (hturns.op turn hturn)
  rw [hcall, Option.map_some, Option.getD_some, hop]
  rfl

theorem takenNodes_eq (rs : List (Nat × SectionResult (EventNode β))) :
    (takenNodes (rs.map fun x => (x.1, .ok x.2))).map Prod.snd =
      (rs.map fun x => (x.1, x.2.map Prod.snd)).flatMap fun x => x.2.taken := by
  simp only [takenNodes, List.flatMap_map, List.map_flatMap,
    SectionResult.taken_map]

/-- No event is lost or duplicated by any interleaving of the threads, access by
access, until the scheduler is freed: when the lock is free, the events that
pushes have put on the list are those that polls and cancellations have taken
off it and those that are left, which stand in the order of their pushes, and no
other node is allocated than those of the pushes that wait for the lock. -/
theorem interleaved_events_conserved {acts : List (SectionAction β)}
    {t : SchedulerThreads β} {outs : List (SectionObs β)}
    {results : List (Nat × Except HeapFault (SectionResult (EventNode β)))}
    (hcalloc : threadMachine.Meets CallocFresh
      (Guarded.start HeapScheduler.new) acts)
    (hrun : threadMachine.run (Guarded.start HeapScheduler.new) acts =
      some (t, outs))
    (hresults : outs.filterMap GuardedObs.result? = results)
    (hfree : t.lock = none) :
    ∃ nodes, HoldsBetween t nodes ∧
      (putEvents t results).Perm
        ((takenNodes results).map Prod.snd ++ nodes.map Prod.snd) ∧
      (nodes.map Prod.snd).Sublist (putEvents t results) := by
  obtain ⟨acts', v, rest, howned, hown, rfl⟩ := exists_ownedRun hcalloc hrun
  obtain ⟨turns, s, nodes, rs, partly, hturns, hstands, hholds, hatomic,
    hrs⟩ := howned.sections
  obtain ⟨hnodes, hexclusive, -⟩ := howned.serialized
  obtain ⟨hk, hperm, hsub⟩ := sectionMachine_events hatomic
  have hkeys : results.map Prod.fst = turns.map Turn.k := by
    rw [List.map_map, List.map_map] at hk
    rw [← hresults, hrs, List.map_map]
    exact hk
  obtain rfl := hstands.shared_of_free hfree
  have hputs : putEvents (threadsBeside v rest) results = putEvents v results :=
    rfl
  rw [hputs, putEvents_eq hturns hkeys, ← hresults, hrs, takenNodes_eq]
  exact ⟨nodes, holdsBetween hexclusive hnodes hown hfree hholds, hperm, hsub⟩

theorem interleaved_events_conserved_sample : ∃ t outs nodes,
    threadMachine.run (Guarded.start HeapScheduler.new)
        sampleInterleaving = some (t, outs) ∧
      HoldsBetween t nodes ∧
      [sampleEvent 1 900, sampleEvent 2 10].Perm
        (sampleEvent 2 10 :: nodes.map Prod.snd) := by
  obtain ⟨t, outs, hrun, hfree, hlast, hput⟩ := sampleInterleaving_run
  obtain ⟨nodes, hnodes, hperm, -⟩ :=
    interleaved_events_conserved sampleInterleaving_fresh hrun rfl hfree
  rw [hput, hlast] at hperm
  exact ⟨t, outs, nodes, hrun, hnodes, hperm⟩

end FremSoft
