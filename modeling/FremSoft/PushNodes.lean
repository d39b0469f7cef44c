/-
Whose the nodes are.  The node of a push belongs to the thread that has allocated
it until its section begins, then to the heap that the lock protects, and the
sections on this heap are the functions of the scheduler one after the other.
-/
import FremSoft.LockedScheduler

namespace FremSoft

variable {β : Type}

/-! ### The nodes of pushes that are still to come -/

abbrev SectionUse (β : Type) :=
  GuardedCall (SchedulerSection β) (SectionCode β)

/-- The scheduler and the calls of its threads. -/
abbrev SchedulerThreads (β : Type) :=
  GuardedState (HeapScheduler β) (SchedulerSection β) (SectionCode β)

abbrev SectionAction (β : Type) := GuardedAction (SchedulerSection β) Unit

abbrev SectionObs (β : Type) :=
  GuardedObs Unit (Except HeapFault (SectionResult (EventNode β)))

/-- The node that a push has brought and that is still its own. -/
def GuardedCall.pending? (call : SectionUse β) : Option (EventNode β) :=
  match call.stage, call.op with
  | .waiting, .push n e => some (n, e)
  | .inside (.first (.push n e)), _ => some (n, e)
  | _, _ => none

/-- A push brings a node that is neither one of the list nor one that another
push has brought. -/
def BringsOwnNode (t : SchedulerThreads β) :
    SectionAction β → Prop
  | .call (.push n _) => t.shared.events.cells n = none ∧
      ∀ call ∈ t.calls, ∀ e, call.pending? ≠ some (n, e)
  | _ => True

/-- The nodes still to come are not in use, and every push has its own. -/
structure NodesApart (t : SchedulerThreads β) : Prop where
  fresh : ∀ (k : Nat) (call : SectionUse β) (node : EventNode β),
    t.calls[k]? = some call → call.pending? = some node →
    t.shared.events.cells node.1 = none
  apart : ∀ (j k : Nat) (call call' : SectionUse β) (node node' : EventNode β),
    t.calls[j]? = some call → t.calls[k]? = some call' →
    call.pending? = some node → call'.pending? = some node' →
    node.1 = node'.1 → j = k

theorem setLink_keeps_unused {s s' : EventHeap β} {last : LinkRef}
    {p : Option Addr} (h : s.setLink last p = .ok s') {a : Addr}
    (ha : s.cells a = none) : s'.cells a = none := by
  cases last with
  | head =>
      obtain rfl := Except.ok.inj h
      exact ha
  | next b =>
      obtain ⟨c, hload, h⟩ := bind_eq_ok h
      obtain rfl := Except.ok.inj h
      refine (Function.update_of_ne ?_ _ _).trans ha
      rintro rfl
      simp [LinkedHeap.load, ha] at hload

theorem free_keeps_unused {s s' : EventHeap β} {b : Addr}
    (h : s.free b = .ok s') {a : Addr} (ha : s.cells a = none) :
    s'.cells a = none := by
  unfold LinkedHeap.free at h
  split at h
  · obtain rfl := Except.ok.inj h
    by_cases hab : a = b
    · subst hab
      exact Function.update_self ..
    · exact (Function.update_of_ne hab _ _).trans ha
  · cases h

/-- What an access keeps: it makes no node one of the heap, and the section does
not start again. -/
structure LaterAccess (s s' : HeapScheduler β) (next : SectionNext β) :
    Prop where
  unused : ∀ a, s.events.cells a = none → s'.events.cells a = none
  goesOn : ∀ sec, next ≠ .inl (.first sec)

section LaterAccess

variable {s s' : HeapScheduler β} {next next' : SectionNext β}

theorem LaterAccess.same (h : s.events = s'.events)
    (hnext : ∀ sec, next ≠ .inl (.first sec)) : LaterAccess s s' next :=
  ⟨fun a => by rw [h]; exact id, hnext⟩

theorem LaterAccess.setLink {last : LinkRef} {p : Option Addr}
    (h : (do
      let events ← s.events.setLink last p
      return ({ s with events }, next)) = Except.ok (s', next'))
    (hnext : ∀ sec, next ≠ .inl (.first sec)) : LaterAccess s s' next' := by
  obtain ⟨events, hset, h⟩ := bind_eq_ok h
  obtain ⟨rfl, rfl⟩ := Prod.mk.inj (Except.ok.inj h)
  exact ⟨fun _ => setLink_keeps_unused hset, hnext⟩

theorem LaterAccess.free {b : Addr}
    (h : (do
      let events ← s.events.free b
      return ({ s with events }, next)) = Except.ok (s', next'))
    (hnext : ∀ sec, next ≠ .inl (.first sec)) : LaterAccess s s' next' := by
  obtain ⟨events, hfree, h⟩ := bind_eq_ok h
  obtain ⟨rfl, rfl⟩ := Prod.mk.inj (Except.ok.inj h)
  exact ⟨fun _ => free_keeps_unused hfree, hnext⟩

end LaterAccess

theorem sectionAccess_later {s s' : HeapScheduler β} {code : SectionCode β}
    {next : SectionNext β} (h : sectionAccess s code = .ok (s', next)) :
    LaterAccess s s' next := by
  cases code with
  | first sec =>
      cases sec with
      | push n e =>
          simp only [sectionAccess, firstAccess] at h
          split at h
          all_goals
            obtain ⟨rfl, rfl⟩ := Prod.mk.inj (Except.ok.inj h)
            exact .same rfl (by simp)
      | _ =>
          obtain ⟨rfl, rfl⟩ := Prod.mk.inj (Except.ok.inj h)
          exact .same rfl (by simp)
  | link n last => exact .setLink h (by simp)
  | popUnlink prev cur found => exact .setLink h (by simp)
  | popFree cur e => exact .free h (by simp)
  | cancelUnlink hCop doomed prev cur found => exact .setLink h (by simp)
  | cancelFree hCop doomed prev cur found => exact .free h (by simp)
  | setHMod hMod hCll =>
      obtain ⟨rfl, rfl⟩ := Prod.mk.inj (Except.ok.inj h)
      exact .same rfl (by simp)
  | setHCll hCll =>
      obtain ⟨rfl, rfl⟩ := Prod.mk.inj (Except.ok.inj h)
      exact .same rfl (by simp)
  | readHMod cb =>
      obtain ⟨rfl, rfl⟩ := Prod.mk.inj (Except.ok.inj h)
      exact .same rfl (by simp)
  | readHCll cb hMod =>
      obtain ⟨rfl, rfl⟩ := Prod.mk.inj (Except.ok.inj h)
      exact .same rfl (by simp)
  | tailWalk n cur =>
      obtain ⟨c, -, h⟩ := bind_eq_ok h
      split at h
      all_goals
        obtain ⟨rfl, rfl⟩ := Prod.mk.inj (Except.ok.inj h)
        exact .same rfl (by simp)
  | popDue hMod hCll nowUs prev cur =>
      cases cur with
      | none =>
          obtain ⟨rfl, rfl⟩ := Prod.mk.inj (Except.ok.inj h)
          exact .same rfl (by simp)
      | some cur =>
          obtain ⟨c, -, h⟩ := bind_eq_ok h
          split at h
          all_goals
            obtain ⟨rfl, rfl⟩ := Prod.mk.inj (Except.ok.inj h)
            exact .same rfl (by simp)
  | cancelCop hCop doomed prev cur =>
      cases cur with
      | none =>
          obtain ⟨rfl, rfl⟩ := Prod.mk.inj (Except.ok.inj h)
          exact .same rfl (by simp)
      | some cur =>
          obtain ⟨c, -, h⟩ := bind_eq_ok h
          split at h
          all_goals
            obtain ⟨rfl, rfl⟩ := Prod.mk.inj (Except.ok.inj h)
            exact .same rfl (by simp)
  | peek hMod hCll nowUs cur =>
      cases cur with
      | none =>
          obtain ⟨rfl, rfl⟩ := Prod.mk.inj (Except.ok.inj h)
          exact .same rfl (by simp)
      | some cur =>
          obtain ⟨c, -, h⟩ := bind_eq_ok h
          split at h
          all_goals
            obtain ⟨rfl, rfl⟩ := Prod.mk.inj (Except.ok.inj h)
            exact .same rfl (by simp)

/-- A section takes over no other node than that of its own push. -/
theorem takeOver_keeps {s : HeapScheduler β} {code : SectionCode β} {a : Addr}
    (ha : s.events.cells a = none) (hother : ∀ e, code ≠ .first (.push a e)) :
    (s.takeOver code).events.cells a = none := by
  unfold HeapScheduler.takeOver
  split
  · next n e =>
    refine (Function.update_of_ne ?_ _ _).trans ha
    rintro rfl
    exact hother e rfl
  · exact ha

theorem ownedAccess_inl {s s' : HeapScheduler β} {code next : SectionCode β}
    {input : Unit} (h : ownedSections.access s code input = (s', .inl next)) :
    sectionAccess (s.takeOver code) code = .ok (s', .inl next) := by
  simp only [ownedSections, schedulerSections] at h
  split at h <;> simp_all

theorem ownedAccess_inr {s s' : HeapScheduler β} {code : SectionCode β}
    {input : Unit} {r : Except HeapFault (SectionResult (EventNode β))}
    (h : ownedSections.access s code input = (s', .inr r)) :
    (∃ r', r = .ok r' ∧
      sectionAccess (s.takeOver code) code = .ok (s', .inr r')) ∨
    s' = s.takeOver code ∧ ∃ fault, r = .error fault := by
  simp only [ownedSections, schedulerSections] at h
  split at h
  · cases h
  · next s₁ r' haccess =>
    obtain ⟨rfl, hr⟩ := Prod.mk.inj h
    obtain rfl := Sum.inr.inj hr
    exact .inl ⟨r', rfl, haccess⟩
  · next fault _ =>
    obtain ⟨rfl, hr⟩ := Prod.mk.inj h
    exact .inr ⟨rfl, fault, (Sum.inr.inj hr).symm⟩

section Pending

variable {sec : SchedulerSection β} {now : SectionCode β} {n : Addr}
  {e : SchedEvent β}

theorem pending_waiting_iff :
    GuardedCall.pending? ⟨sec, .waiting⟩ = some (n, e) ↔ sec = .push n e := by
  cases sec <;> simp [GuardedCall.pending?]

theorem pending_inside_iff :
    GuardedCall.pending? ⟨sec, .inside now⟩ = some (n, e) ↔
      now = .first (.push n e) := by
  cases now with
  | first sec => cases sec <;> simp [GuardedCall.pending?]
  | _ => simp [GuardedCall.pending?]

end Pending

section NodesApart

variable {t t' : SchedulerThreads β}

theorem NodesApart.set (h : NodesApart t) {k : Nat} {op : SchedulerSection β}
    {stage stage' : GuardedStage (SectionCode β)} {shared : HeapScheduler β}
    {lock : Option Nat} (hcall : t.calls[k]? = some ⟨op, stage⟩)
    (hcells : ∀ a, t.shared.events.cells a = none →
      (∀ e, GuardedCall.pending? ⟨op, stage⟩ ≠ some (a, e)) →
      shared.events.cells a = none)
    (hown : ∀ node, GuardedCall.pending? ⟨op, stage'⟩ = some node →
      GuardedCall.pending? ⟨op, stage⟩ = some node ∧
        shared.events.cells node.1 = none) :
    NodesApart { shared, lock
                 calls := t.calls.set k { op, stage := stage' } } where
  fresh j call node hj hn := by
    simp only [getElem?_set_call hcall] at hj
    split at hj
    · obtain rfl := Option.some.inj hj
      exact (hown node hn).2
    · next hne =>
      refine hcells node.1 (h.fresh j call node hj hn) fun e hk => hne ?_
      exact h.apart k j _ call (node.1, e) node hcall hj hk hn rfl
  apart i j call call' node node' hi hj hn hn' hsame := by
    simp only [getElem?_set_call hcall] at hi hj
    split at hi
    · next hik =>
      obtain rfl := Option.some.inj hi
      split at hj
      · next hjk => exact hik.symm.trans hjk
      · rw [← hik]
        exact h.apart k j _ call' node node' hcall hj (hown node hn).1 hn' hsame
    · split at hj
      · next hjk =>
        obtain rfl := Option.some.inj hj
        rw [← hjk]
        exact h.apart i k call _ node node' hi hcall hn (hown node' hn').1 hsame
      · exact h.apart i j call call' node node' hi hj hn hn' hsame

theorem NodesApart.call (h : NodesApart t) {op : SchedulerSection β}
    (hfresh : BringsOwnNode t (.call op)) :
    NodesApart { t with calls := t.calls ++ [{ op, stage := .waiting }] } := by
  have hunused : ∀ node, GuardedCall.pending? ⟨op, .waiting⟩ = some node →
      t.shared.events.cells node.1 = none ∧
        ∀ call ∈ t.calls, ∀ e, call.pending? ≠ some (node.1, e) := by
    rintro ⟨n, e⟩ hn
    obtain rfl := pending_waiting_iff.1 hn
    exact hfresh
  refine ⟨fun k call node hcall hn => ?_,
    fun j k call call' node node' hj hk hn hn' hsame => ?_⟩
  · rcases getElem?_concat_call.1 hcall with hcall | ⟨rfl, rfl⟩
    · exact h.fresh k call node hcall hn
    · exact (hunused node hn).1
  · rcases getElem?_concat_call.1 hj with hj | ⟨rfl, rfl⟩
    · rcases getElem?_concat_call.1 hk with hk | ⟨rfl, rfl⟩
      · exact h.apart j k call call' node node' hj hk hn hn' hsame
      · refine absurd hn ?_
        have hnone := (hunused node' hn').2 call (List.mem_of_getElem? hj)
        rw [← hsame] at hnone
        exact hnone node.2
    · rcases getElem?_concat_call.1 hk with hk | ⟨rfl, rfl⟩
      · refine absurd hn' ?_
        have hnone := (hunused node hn).2 call' (List.mem_of_getElem? hk)
        rw [hsame] at hnone
        exact hnone node'.2
      · rfl

theorem NodesApart.step (h : NodesApart t)
    {a : SectionAction β}
    {out : List (SectionObs β)}
    (hfresh : BringsOwnNode t a)
    (hstep : ownedSections.locked.step t a = some (t', out)) :
    NodesApart t' := by
  rcases Guarded.lockedStep_cases hstep with ⟨op, rfl, rfl, rfl⟩ |
    ⟨k, op, rfl, hlock, hcall, rfl, rfl⟩ |
    ⟨k, input, op, now, shared, next, rfl, hcall, haccess, rfl, rfl⟩ |
    ⟨k, input, op, now, shared, r, rfl, hcall, haccess, rfl, rfl⟩ |
    ⟨k, op, rfl, hcall, rfl, rfl⟩
  · exact h.call hfresh
  · refine h.set hcall (fun _ ha _ => ha) fun node hn => ?_
    obtain he : SectionCode.first op = .first (.push node.1 node.2) :=
      pending_inside_iff.1 hn
    have hwaiting : GuardedCall.pending? ⟨op, .waiting⟩ = some node :=
      pending_waiting_iff.2 (SectionCode.first.inj he)
    exact ⟨hwaiting, h.fresh k _ node hcall hwaiting⟩
  · have hlater := sectionAccess_later (ownedAccess_inl haccess)
    refine h.set hcall (fun a ha hother => ?_) fun node hn => ?_
    · exact hlater.unused a (takeOver_keeps ha fun e he =>
        hother e (pending_inside_iff.2 he))
    · obtain rfl : next = .first (.push node.1 node.2) :=
        pending_inside_iff.1 hn
      exact absurd rfl (hlater.goesOn _)
  · refine h.set hcall (fun a ha hother => ?_) fun node hn => by cases hn
    have htaken := @takeOver_keeps _ t.shared now a ha fun e he =>
      hother e (pending_inside_iff.2 he)
    rcases ownedAccess_inr haccess with ⟨r', -, hresult⟩ | ⟨rfl, -⟩
    · exact (sectionAccess_later hresult).unused a htaken
    · exact htaken
  · exact h.set hcall (fun _ ha _ => ha) fun node hn => by cases hn

end NodesApart

/-! ### Sections on the heap of the list -/

/-- An interleaving of the sections on the heap of the list. -/
structure OwnedRun (acts : List (SectionAction β)) (t : SchedulerThreads β)
    (outs : List (SectionObs β)) : Prop where
  brings : ownedSections.locked.Meets BringsOwnNode
    (Guarded.start HeapScheduler.new) acts
  run : ownedSections.locked.run (Guarded.start HeapScheduler.new) acts =
    some (t, outs)

theorem OwnedRun.concat {acts : List (SectionAction β)}
    {t t' : SchedulerThreads β} {outs out : List (SectionObs β)}
    {a : SectionAction β} (h : OwnedRun acts t outs)
    (hbrings : BringsOwnNode t a)
    (hstep : ownedSections.locked.step t a = some (t', out)) :
    OwnedRun (acts ++ [a]) t' (outs ++ out) where
  brings := Machine.meets_concat h.brings h.run hbrings
  run := Machine.run_concat h.run hstep

/-- An interleaving keeps to whole sections, each entered with a node of its
own. -/
theorem OwnedRun.serialized {acts : List (SectionAction β)}
    {t : SchedulerThreads β} {outs : List (SectionObs β)}
    (h : OwnedRun acts t outs) :
    NodesApart t ∧ ownedSections.Serialized (fun s sec => sec.Fresh s)
      HeapScheduler.new t outs := by
  refine Machine.run_invariant_of_meets
    (I := fun t outs => NodesApart t ∧ ownedSections.Serialized
      (fun s sec => sec.Fresh s) HeapScheduler.new t outs)
    ?_ h.brings h.run ⟨⟨by simp [Guarded.start], by simp [Guarded.start]⟩,
      Guarded.serialized_start _ _ _⟩
  rintro t seen a t' out ⟨hnodes, hserial⟩ hfresh hstep
  refine ⟨hnodes.step hfresh hstep, hserial.step ?_ hstep⟩
  cases a with
  | enter k =>
      intro sec hcall
      cases sec with
      | push n e =>
          exact hnodes.fresh k _ (n, e) hcall (pending_waiting_iff.2 rfl)
      | _ => trivial
  | _ => trivial

/-- A section that is under way comes to its end. -/
theorem holder_finishes {s₀ : HeapScheduler β} {t : SchedulerThreads β}
    {partly : List (SectionObs β)}
    {nodes : List (EventNode β)} (h : EventHeap.Holds s₀.events nodes)
    (hstands : ownedSections.Stands (fun s sec => sec.Fresh s) t s₀ partly)
    (hheld : t.lock ≠ none) :
    ∃ acts t' outs, (∀ a ∈ acts, ∀ sec, a ≠ .call sec) ∧
      ownedSections.locked.run t acts = some (t', outs) ∧ t'.lock = none := by
  cases hstands with
  | free hlock hshared => exact absurd hlock hheld
  | inside hlock hcall hbody hfresh =>
      obtain ⟨s', nodes', r, hends, -⟩ := section_ends h hfresh
      obtain ⟨acts, outs, hcalls, hrun⟩ :=
        (hends.of_body hbody).exists_run hcall
      exact ⟨acts, _, outs, hcalls, hrun, rfl⟩
  | @leaving k op hlock hcall hshared =>
      refine ⟨[.leave k], { t with
        lock := none
        calls := t.calls.set k { op, stage := .returned } }, [], by simp, ?_,
        rfl⟩
      rw [Machine.run_singleton]
      simp only [Guarded.locked, Guarded.lockedStep, hcall]

/-- The sections that have ended, the scheduler they have led to and the nodes
that it consists of. -/
theorem OwnedRun.sections {acts : List (SectionAction β)}
    {t : SchedulerThreads β} {outs : List (SectionObs β)}
    (h : OwnedRun acts t outs) :
    ∃ (turns : List (Turn (SchedulerSection β) Unit)) (s : HeapScheduler β)
        (nodes : List (EventNode β))
        (rs : List (Nat × SectionResult (EventNode β)))
        (partly : List (SectionObs β)),
      TurnsOf t.calls turns ∧
      ownedSections.Stands (fun s sec => sec.Fresh s) t s partly ∧
      EventHeap.Holds s.events nodes ∧
      sectionMachine.run schedulerNew (turns.map Turn.call) =
        some (s.view nodes, rs.map fun x => (x.1, x.2.map Prod.snd)) ∧
      outs.filterMap GuardedObs.result? = rs.map fun x => (x.1, .ok x.2) := by
  obtain ⟨-, -, turns, s, whole, partly, hserial, hmeets, hturns, hstands,
    rfl⟩ := h.serialized
  have hempty : EventHeap.Holds (HeapScheduler.new : HeapScheduler β).events [] :=
    ⟨rfl, fun a => by simp [HeapScheduler.new, LinkedHeap.empty]⟩
  obtain ⟨nodes, rs, hholds, hatomic, hresults⟩ :=
    serial_sections hempty hmeets hserial
  refine ⟨turns, s, nodes, rs, partly, hturns, hstands, hholds, hatomic, ?_⟩
  rw [List.filterMap_append, hresults, hstands.results_nil, List.append_nil]

/-- No access has faulted. -/
theorem OwnedRun.no_fault {acts : List (SectionAction β)}
    {t : SchedulerThreads β} {outs : List (SectionObs β)}
    (h : OwnedRun acts t outs) (k : Nat) (fault : HeapFault) :
    .finished k (.error fault) ∉ outs := by
  obtain ⟨-, -, -, rs, -, -, -, -, -, hresults⟩ := h.sections
  intro hmem
  have hresult : (k, .error fault) ∈ outs.filterMap GuardedObs.result? :=
    List.mem_filterMap.2 ⟨_, hmem, rfl⟩
  rw [hresults] at hresult
  obtain ⟨x, -, hx⟩ := List.mem_map.1 hresult
  cases hx

end FremSoft
