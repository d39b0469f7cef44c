/-
The critical sections of `scheduler.c`, access by access.  The API threads and
the delivery thread take the one lock in any order and may be interrupted after
every access to the list, to its nodes and to the callback slot; what they see
is what the functions of the scheduler do, one after the other.
-/
import FremSoft.DeliveryThread
import FremSoft.HeapQueue
import FremSoft.Lib.Mutex

namespace FremSoft

variable {β : Type}

/-! ### The sections -/

/-- `scheduler_t` with its nodes on the heap. -/
structure HeapScheduler (β : Type) where
  events : EventHeap β
  cb : Option FremsoftEventCb
  cbHMod : UInt32
  cbHCll : UInt32

/-- `scheduler_new`, before any node is allocated. -/
def HeapScheduler.new : HeapScheduler β :=
  { events := .empty, cb := none, cbHMod := 0, cbHCll := 0 }

/-- What is done under the lock until `scheduler_free` is called: by the
functions of `scheduler.c`, and twice in each pass of `delivery_thread_proc`.
The node of a push has been allocated and filled in front of the lock. -/
inductive SchedulerSection (β : Type) where
  | push (n : Addr) (e : SchedEvent β)
  | popDue (hMod hCll : UInt32) (nowUs : UInt64)
  | cancelCop (hCop : UInt32)
  | setCallback (hMod hCll : UInt32) (cb : Option FremsoftEventCb)
  | snapshot
  | peek (hMod hCll : UInt32) (nowUs : UInt64)

/-- What a section leads to; `γ` stands for what is taken off the list. -/
inductive SectionResult (γ : Type) where
  | pushed (status : Int)
  | popped (found : Option γ)
  | cancelled (doomed : List γ)
  | registered
  | slot (read : Option FremsoftEventCb × UInt32 × UInt32)
  | peeked (hasDue : Bool)
deriving DecidableEq, Repr

def SectionResult.map {γ δ : Type} (f : γ → δ) :
    SectionResult γ → SectionResult δ
  | pushed status => .pushed status
  | popped found => .popped (found.map f)
  | cancelled doomed => .cancelled (doomed.map f)
  | registered => .registered
  | slot read => .slot read
  | peeked hasDue => .peeked hasDue

/-- The next access of a section, and the local variables it needs. -/
inductive SectionCode (β : Type) where
  | first (sec : SchedulerSection β)
  | tailWalk (n cur : Addr)
  | link (n : Addr) (last : LinkRef)
  | popDue (hMod hCll : UInt32) (nowUs : UInt64) (prev : LinkRef)
      (cur : Option Addr)
  | popUnlink (prev : LinkRef) (cur : Addr) (found : Cell (SchedEvent β))
  | popFree (cur : Addr) (e : SchedEvent β)
  | cancelCop (hCop : UInt32) (doomed : List (EventNode β)) (prev : LinkRef)
      (cur : Option Addr)
  | cancelUnlink (hCop : UInt32) (doomed : List (EventNode β)) (prev : LinkRef)
      (cur : Addr) (found : Cell (SchedEvent β))
  | cancelFree (hCop : UInt32) (doomed : List (EventNode β)) (prev : LinkRef)
      (cur : Addr) (found : Cell (SchedEvent β))
  | setHMod (hMod hCll : UInt32)
  | setHCll (hCll : UInt32)
  | readHMod (cb : Option FremsoftEventCb)
  | readHCll (cb : Option FremsoftEventCb) (hMod : UInt32)
  | peek (hMod hCll : UInt32) (nowUs : UInt64) (cur : Option Addr)

abbrev SectionNext (β : Type) :=
  SectionCode β ⊕ SectionResult (EventNode β)

def firstAccess (s : HeapScheduler β) :
    SchedulerSection β → HeapScheduler β × SectionNext β
  | .push n _ =>
      match s.events.head with
      | none => (s, .inl (.link n .head))
      | some head => (s, .inl (.tailWalk n head))
  | .popDue hMod hCll nowUs =>
      (s, .inl (.popDue hMod hCll nowUs .head s.events.head))
  | .cancelCop hCop => (s, .inl (.cancelCop hCop [] .head s.events.head))
  | .setCallback hMod hCll cb => ({ s with cb }, .inl (.setHMod hMod hCll))
  | .snapshot => (s, .inl (.readHMod s.cb))
  | .peek hMod hCll nowUs => (s, .inl (.peek hMod hCll nowUs s.events.head))

def sectionAccess (s : HeapScheduler β) :
    SectionCode β → Except HeapFault (HeapScheduler β × SectionNext β)
  | .first sec => return firstAccess s sec
  | .tailWalk n cur => do
      let c ← s.events.load cur
      match c.next with
      | none => return (s, .inl (.link n (.next cur)))
      | some next => return (s, .inl (.tailWalk n next))
  | .link n last => do
      let events ← s.events.setLink last (some n)
      return ({ s with events }, .inr (.pushed 0))
  | .popDue _ _ _ _ none => return (s, .inr (.popped none))
  | .popDue hMod hCll nowUs prev (some cur) => do
      let c ← s.events.load cur
      if c.value.isDue hMod hCll nowUs then
        return (s, .inl (.popUnlink prev cur c))
      else return (s, .inl (.popDue hMod hCll nowUs (.next cur) c.next))
  | .popUnlink prev cur found => do
      let events ← s.events.setLink prev found.next
      return ({ s with events }, .inl (.popFree cur found.value))
  | .popFree cur e => do
      let events ← s.events.free cur
      return ({ s with events }, .inr (.popped (some (cur, e))))
  | .cancelCop _ doomed _ none => return (s, .inr (.cancelled doomed))
  | .cancelCop hCop doomed prev (some cur) => do
      let c ← s.events.load cur
      if c.value.hCop == hCop then
        return (s, .inl (.cancelUnlink hCop doomed prev cur c))
      else return (s, .inl (.cancelCop hCop doomed (.next cur) c.next))
  | .cancelUnlink hCop doomed prev cur found => do
      let events ← s.events.setLink prev found.next
      return ({ s with events }, .inl (.cancelFree hCop doomed prev cur found))
  | .cancelFree hCop doomed prev cur found => do
      let events ← s.events.free cur
      return ({ s with events },
        .inl (.cancelCop hCop (doomed ++ [(cur, found.value)]) prev found.next))
  | .setHMod hMod hCll => return ({ s with cbHMod := hMod }, .inl (.setHCll hCll))
  | .setHCll hCll => return ({ s with cbHCll := hCll }, .inr .registered)
  | .readHMod cb => return (s, .inl (.readHCll cb s.cbHMod))
  | .readHCll cb hMod => return (s, .inr (.slot (cb, hMod, s.cbHCll)))
  | .peek _ _ _ none => return (s, .inr (.peeked false))
  | .peek hMod hCll nowUs (some cur) => do
      let c ← s.events.load cur
      if c.value.isDue hMod hCll nowUs then return (s, .inr (.peeked true))
      else return (s, .inl (.peek hMod hCll nowUs c.next))

/-- The sections under the lock; a fault ends the one that makes it. -/
def schedulerSections : Guarded (HeapScheduler β) (SchedulerSection β)
    (SectionCode β) Unit (Except HeapFault (SectionResult (EventNode β))) where
  enter := .first
  access s code _ :=
    match sectionAccess s code with
    | .ok (s', .inl next) => (s', .inl next)
    | .ok (s', .inr r) => (s', .inr (.ok r))
    | .error fault => (s, .inr (.error fault))

/-- Before the first access of a push its node is known to its own thread only;
then it belongs to the heap that the lock protects. -/
def HeapScheduler.takeOver (s : HeapScheduler β) :
    SectionCode β → HeapScheduler β
  | .first (.push n e) => { s with events := s.events.alloc n e }
  | _ => s

/-- The sections on the heap that the lock protects. -/
def ownedSections : Guarded (HeapScheduler β) (SchedulerSection β)
    (SectionCode β) Unit (Except HeapFault (SectionResult (EventNode β))) where
  enter := .first
  access s code := schedulerSections.access (s.takeOver code) code

/-! ### The accesses are those of the functions on the heap -/

/-- From its code on, a section ends without a fault. -/
abbrev SectionEnds (s : HeapScheduler β) (code : SectionCode β)
    (s' : HeapScheduler β) (r : SectionResult (EventNode β)) : Prop :=
  ownedSections.Yields s code s' (.ok r)

section Ends

variable {s s₁ s' : HeapScheduler β} {code next : SectionCode β}
  {r : SectionResult (EventNode β)}

theorem SectionEnds.of_access
    (h : sectionAccess (s.takeOver code) code = .ok (s₁, .inl next))
    (hrest : SectionEnds s₁ next s' r) : SectionEnds s code s' r :=
  @Guarded.Yields.more _ _ _ _ _ ownedSections s s₁ s' code next () (.ok r)
    (by simp only [ownedSections, schedulerSections, h]) hrest

theorem SectionEnds.of_result
    (h : sectionAccess (s.takeOver code) code = .ok (s', .inr r)) :
    SectionEnds s code s' r :=
  @Guarded.Yields.last _ _ _ _ _ ownedSections s s' code () (.ok r)
    (by simp only [ownedSections, schedulerSections, h])

/-- The walk to the tail. -/
theorem tailWalk_ends {fuel : Nat} {n cur last : Addr}
    (h : FremSoft.tailWalk s.events fuel cur = .ok last)
    (hrest : SectionEnds s (.link n (.next last)) s' r) :
    SectionEnds s (.tailWalk n cur) s' r := by
  induction fuel generalizing cur with
  | zero => cases h
  | succ fuel ih =>
      rw [FremSoft.tailWalk] at h
      obtain ⟨c, hload, h⟩ := bind_eq_ok h
      cases hnext : c.next with
      | none =>
          simp only [hnext] at h
          obtain rfl := Except.ok.inj h
          have haccess : sectionAccess s (.tailWalk n cur) =
              .ok (s, .inl (.link n (.next cur))) := by
            simp [sectionAccess, hload, hnext]
          exact .of_access haccess hrest
      | some next =>
          simp only [hnext] at h
          have haccess : sectionAccess s (.tailWalk n cur) =
              .ok (s, .inl (.tailWalk n next)) := by
            simp [sectionAccess, hload, hnext]
          exact .of_access haccess (ih h)

theorem link_ends {n : Addr} {last : LinkRef} {events : EventHeap β}
    (h : s.events.setLink last (some n) = .ok events) :
    SectionEnds s (.link n last) { s with events } (.pushed 0) :=
  .of_result (by simp [sectionAccess, HeapScheduler.takeOver, h])

theorem heapPush_ends {fuel : Nat} {n : Addr} {e : SchedEvent β} {status : Int}
    {events : EventHeap β}
    (h : heapPush fuel s.events (some n) e = .ok (status, events)) :
    SectionEnds s (.first (.push n e)) { s with events } (.pushed status) := by
  have hhead : (s.events.alloc n e).head = s.events.head := rfl
  simp only [heapPush, hhead] at h
  cases hcur : s.events.head with
  | none =>
      simp only [hcur] at h
      obtain ⟨linked, hset, h⟩ := bind_eq_ok h
      obtain ⟨rfl, rfl⟩ := Prod.mk.inj (Except.ok.inj h)
      have haccess : sectionAccess (s.takeOver (.first (.push n e)))
          (.first (.push n e)) =
          .ok (s.takeOver (.first (.push n e)), .inl (.link n .head)) := by
        simp [sectionAccess, firstAccess, HeapScheduler.takeOver, hhead, hcur]
      exact .of_access haccess (link_ends hset)
  | some head =>
      simp only [hcur] at h
      obtain ⟨last, hwalk, h⟩ := bind_eq_ok h
      obtain ⟨linked, hset, h⟩ := bind_eq_ok h
      obtain ⟨rfl, rfl⟩ := Prod.mk.inj (Except.ok.inj h)
      have haccess : sectionAccess (s.takeOver (.first (.push n e)))
          (.first (.push n e)) =
          .ok (s.takeOver (.first (.push n e)), .inl (.tailWalk n head)) := by
        simp [sectionAccess, firstAccess, HeapScheduler.takeOver, hhead, hcur]
      exact .of_access haccess (tailWalk_ends hwalk (link_ends hset))

theorem popDueLoop_ends {hMod hCll : UInt32} {nowUs : UInt64} {fuel : Nat}
    {prev : LinkRef} {cur : Option Addr} {found : Option (EventNode β)}
    {events : EventHeap β}
    (h : popDueLoop hMod hCll nowUs fuel s.events prev cur =
      .ok (found, events)) :
    SectionEnds s (.popDue hMod hCll nowUs prev cur) { s with events }
      (.popped found) := by
  induction fuel generalizing prev cur with
  | zero =>
      cases cur with
      | none =>
          obtain ⟨rfl, rfl⟩ := Prod.mk.inj (Except.ok.inj h)
          exact .of_result rfl
      | some cur => cases h
  | succ fuel ih =>
      cases cur with
      | none =>
          obtain ⟨rfl, rfl⟩ := Prod.mk.inj (Except.ok.inj h)
          exact .of_result rfl
      | some cur =>
          rw [popDueLoop] at h
          obtain ⟨c, hload, h⟩ := bind_eq_ok h
          cases hdue : c.value.isDue hMod hCll nowUs with
          | false =>
              simp only [hdue, Bool.false_eq_true, if_false] at h
              have hstays : sectionAccess s
                  (.popDue hMod hCll nowUs prev (some cur)) =
                  .ok (s, .inl (.popDue hMod hCll nowUs (.next cur) c.next)) :=
                by simp [sectionAccess, hload, hdue]
              exact .of_access hstays (ih h)
          | true =>
              simp only [hdue, if_true] at h
              obtain ⟨linked, hset, h⟩ := bind_eq_ok h
              obtain ⟨freed, hfree, h⟩ := bind_eq_ok h
              obtain ⟨rfl, rfl⟩ := Prod.mk.inj (Except.ok.inj h)
              have htaken : sectionAccess s
                  (.popDue hMod hCll nowUs prev (some cur)) =
                  .ok (s, .inl (.popUnlink prev cur c)) := by
                simp [sectionAccess, hload, hdue]
              have hunlink : sectionAccess s (.popUnlink prev cur c) =
                  .ok ({ s with events := linked },
                    .inl (.popFree cur c.value)) := by
                simp [sectionAccess, hset]
              have hgone : sectionAccess { s with events := linked }
                  (.popFree cur c.value) = .ok ({ s with events := freed },
                    .inr (.popped (some (cur, c.value)))) := by
                simp [sectionAccess, hfree]
              exact .of_access htaken (.of_access hunlink (.of_result hgone))

theorem cancelCopLoop_ends {hCop : UInt32} {fuel : Nat}
    {doomed rest : List (EventNode β)} {prev : LinkRef} {cur : Option Addr}
    {events : EventHeap β}
    (h : cancelCopLoop hCop fuel s.events prev cur = .ok (rest, events)) :
    SectionEnds s (.cancelCop hCop doomed prev cur) { s with events }
      (.cancelled (doomed ++ rest)) := by
  induction fuel generalizing s doomed rest prev cur with
  | zero =>
      cases cur with
      | none =>
          obtain ⟨rfl, rfl⟩ := Prod.mk.inj (Except.ok.inj h)
          rw [List.append_nil]
          exact .of_result rfl
      | some cur => cases h
  | succ fuel ih =>
      cases cur with
      | none =>
          obtain ⟨rfl, rfl⟩ := Prod.mk.inj (Except.ok.inj h)
          rw [List.append_nil]
          exact .of_result rfl
      | some cur =>
          rw [cancelCopLoop] at h
          obtain ⟨c, hload, h⟩ := bind_eq_ok h
          by_cases hcop : c.value.hCop = hCop
          · simp only [hcop, beq_self_eq_true, if_true] at h
            obtain ⟨linked, hset, h⟩ := bind_eq_ok h
            obtain ⟨freed, hfree, h⟩ := bind_eq_ok h
            obtain ⟨⟨later, last⟩, hloop, h⟩ := bind_eq_ok h
            obtain ⟨rfl, rfl⟩ := Prod.mk.inj (Except.ok.inj h)
            have htaken : sectionAccess s
                (.cancelCop hCop doomed prev (some cur)) =
                .ok (s, .inl (.cancelUnlink hCop doomed prev cur c)) := by
              simp [sectionAccess, hload, hcop]
            have hunlink : sectionAccess s
                (.cancelUnlink hCop doomed prev cur c) =
                .ok ({ s with events := linked },
                  .inl (.cancelFree hCop doomed prev cur c)) := by
              simp [sectionAccess, hset]
            have hgone : sectionAccess { s with events := linked }
                (.cancelFree hCop doomed prev cur c) =
                .ok ({ s with events := freed }, .inl (.cancelCop hCop
                  (doomed ++ [(cur, c.value)]) prev c.next)) := by
              simp [sectionAccess, hfree]
            rw [List.append_cons]
            exact .of_access htaken (.of_access hunlink (.of_access hgone
              (@ih { s with events := freed } _ _ _ _ hloop)))
          · simp only [beq_iff_eq, hcop, if_false] at h
            have hstays : sectionAccess s
                (.cancelCop hCop doomed prev (some cur)) =
                .ok (s, .inl (.cancelCop hCop doomed (.next cur) c.next)) := by
              simp [sectionAccess, hload, hcop]
            exact .of_access hstays (ih h)

/-- The delivery thread's look at the list. -/
theorem peek_ends {hMod hCll : UInt32} {nowUs : UInt64} {cur : Option Addr}
    {nodes : List (EventNode β)}
    (h : Segment s.events.cells cur nodes none) :
    SectionEnds s (.peek hMod hCll nowUs cur) s
      (.peeked ((nodes.map Prod.snd).any (SchedEvent.isDue hMod hCll nowUs))) := by
  induction nodes generalizing cur with
  | nil =>
      obtain rfl : cur = none := h
      exact .of_result rfl
  | cons node rest ih =>
      obtain ⟨rfl, next, hcell, hrest⟩ := h
      have hload := LinkedHeap.load_of_cell hcell
      cases hdue : node.2.isDue hMod hCll nowUs with
      | true =>
          simp only [List.map_cons, List.any_cons, hdue, Bool.true_or]
          exact .of_result
            (by simp [sectionAccess, HeapScheduler.takeOver, hload, hdue])
      | false =>
          simp only [List.map_cons, List.any_cons, hdue, Bool.false_or]
          have hstays : sectionAccess s
              (.peek hMod hCll nowUs (some node.1)) =
              .ok (s, .inl (.peek hMod hCll nowUs next)) := by
            simp [sectionAccess, hload, hdue]
          exact .of_access hstays (ih hrest)

end Ends

/-! ### What a section does to the scheduler -/

/-- The functions of the scheduler, as the sections that they are. -/
def sectionCall (s : Scheduler β) :
    SchedulerSection β → Scheduler β × SectionResult (SchedEvent β)
  | .push _ e =>
      let (status, next) := schedulerPush true (some s) e
      (next.getD s, .pushed status)
  | .popDue hMod hCll nowUs =>
      let (found, next) := schedulerPopDue (some s) hMod hCll nowUs
      (next.getD s, .popped found)
  | .cancelCop hCop =>
      ((schedulerCancelCop (some s) hCop).getD s,
        .cancelled (s.head.filter fun e => e.hCop == hCop))
  | .setCallback hMod hCll cb =>
      ((schedulerSetCallback (some s) hMod hCll cb).getD s, .registered)
  | .snapshot => (s, .slot (deliverySnapshot s))
  | .peek hMod hCll nowUs => (s, .peeked (deliveryPeek s hMod hCll nowUs))

/-- The scheduler that these nodes make up. -/
def HeapScheduler.view (s : HeapScheduler β) (nodes : List (EventNode β)) :
    Scheduler β :=
  { head := nodes.map Prod.snd, cb := s.cb, cbHMod := s.cbHMod
    cbHCll := s.cbHCll }

/-- The node of a push is not in use. -/
def SchedulerSection.Fresh (s : HeapScheduler β) : SchedulerSection β → Prop
  | .push n _ => s.events.cells n = none
  | _ => True

/-- A section in front of a list of nodes ends, without a fault, and does what
the function does. -/
theorem section_ends {s : HeapScheduler β} {nodes : List (EventNode β)}
    (h : EventHeap.Holds s.events nodes) {sec : SchedulerSection β}
    (hfresh : sec.Fresh s) :
    ∃ s' nodes' r, SectionEnds s (.first sec) s' r ∧
      EventHeap.Holds s'.events nodes' ∧
      sectionCall (s.view nodes) sec = (s'.view nodes', r.map Prod.snd) := by
  cases sec with
  | push n e =>
      obtain ⟨events, hpush, hholds⟩ := heapPush_spec (Nat.le_refl _) h hfresh e
      refine ⟨_, _, _, heapPush_ends hpush, hholds, ?_⟩
      simp [sectionCall, HeapScheduler.view, SectionResult.map,
        Scheduler.append]
  | popDue hMod hCll nowUs =>
      have hqueue := detach_map Prod.snd (SchedEvent.isDue hMod hCll nowUs)
        nodes
      have hstart : sectionAccess s (.first (.popDue hMod hCll nowUs)) = .ok
          (s, .inl (.popDue hMod hCll nowUs .head s.events.head)) := rfl
      rcases heapPopDue_spec (Nat.le_refl _) h hMod hCll nowUs with
        ⟨hnone, hpop⟩ | ⟨n, rest, events, hsome, hpop, hholds⟩
      · rw [hnone] at hqueue
        refine ⟨_, nodes, _, .of_access hstart (popDueLoop_ends hpop), h, ?_⟩
        simp [sectionCall, schedulerPopDue, HeapScheduler.view, hqueue,
          SectionResult.map]
      · rw [hsome] at hqueue
        refine ⟨_, rest, _, .of_access hstart (popDueLoop_ends hpop), hholds, ?_⟩
        simp [sectionCall, schedulerPopDue, HeapScheduler.view, hqueue,
          SectionResult.map]
  | cancelCop hCop =>
      obtain ⟨events, hcancel, hholds⟩ :=
        heapCancelCop_spec (Nat.le_refl _) h hCop
      have hstart : sectionAccess s (.first (.cancelCop hCop)) =
          .ok (s, .inl (.cancelCop hCop [] .head s.events.head)) := rfl
      refine ⟨_, _, _, .of_access hstart (cancelCopLoop_ends hcancel), hholds,
        ?_⟩
      simp [sectionCall, schedulerCancelCop, HeapScheduler.view,
        SectionResult.map, List.filter_map, Function.comp_def]
  | setCallback hMod hCll cb =>
      have hlast : SectionEnds { s with cb, cbHMod := hMod }
          (.setHCll hCll) { s with cb, cbHMod := hMod, cbHCll := hCll }
          .registered := .of_result rfl
      have hnext : SectionEnds { s with cb } (.setHMod hMod hCll) _ _ :=
        .of_access rfl hlast
      exact ⟨_, nodes, _, .of_access rfl hnext, h, rfl⟩
  | snapshot =>
      have hlast : SectionEnds s (.readHCll s.cb s.cbHMod) s
          (.slot (s.cb, s.cbHMod, s.cbHCll)) := .of_result rfl
      have hnext : SectionEnds s (.readHMod s.cb) _ _ := .of_access rfl hlast
      exact ⟨s, nodes, _, .of_access rfl hnext, h, rfl⟩
  | peek hMod hCll nowUs =>
      exact ⟨s, nodes, _, .of_access rfl (peek_ends h.chain), h, rfl⟩

/-- The sections one after the other, as the functions of the scheduler. -/
def sectionMachine : Machine (Scheduler β) (Nat × SchedulerSection β)
    (Nat × SectionResult (SchedEvent β)) :=
  { step := fun s call => some ((sectionCall s call.2).1,
      [(call.1, (sectionCall s call.2).2)]) }

theorem serial_sections {s s' : HeapScheduler β} {nodes : List (EventNode β)}
    {turns : List (Turn (SchedulerSection β) Unit)}
    {outs : List (GuardedObs Unit
      (Except HeapFault (SectionResult (EventNode β))))}
    (h : EventHeap.Holds s.events nodes)
    (hmeets : ownedSections.serial.Meets (fun s turn => turn.op.Fresh s) s turns)
    (hrun : ownedSections.serial.run s turns = some (s', outs)) :
    ∃ (nodes' : List (EventNode β))
        (rs : List (Nat × SectionResult (EventNode β))),
      EventHeap.Holds s'.events nodes' ∧
      sectionMachine.run (s.view nodes) (turns.map Turn.call) =
        some (s'.view nodes', rs.map fun x => (x.1, x.2.map Prod.snd)) ∧
      outs.filterMap GuardedObs.result? = rs.map fun x => (x.1, .ok x.2) := by
  induction turns generalizing s nodes outs with
  | nil =>
      simp only [Machine.run_nil, Option.some.injEq, Prod.mk.injEq] at hrun
      obtain ⟨rfl, rfl⟩ := hrun
      exact ⟨nodes, [], h, rfl, rfl⟩
  | cons turn rest ih =>
      obtain ⟨s₁, out, tail, hstep, hrest, rfl⟩ := (Machine.run_cons ..).1 hrun
      rw [Machine.meets_cons hstep] at hmeets
      obtain ⟨hfresh, hmeets⟩ := hmeets
      obtain ⟨s₂, nodes₁, r, hends, hholds, hcall⟩ := section_ends h hfresh
      obtain ⟨r', hbody, rfl⟩ := Guarded.body_of_serial_step hstep
      obtain ⟨rfl, rfl⟩ := hends.eq_of_body hbody
      obtain ⟨nodes', rs, hholds', hrun', hresults⟩ := ih hholds hmeets hrest
      refine ⟨nodes', (turn.k, r) :: rs, hholds', ?_, ?_⟩
      · refine (Machine.run_cons ..).2 ⟨s₁.view nodes₁,
          [(turn.k, r.map Prod.snd)], _, ?_, hrun', rfl⟩
        simp only [sectionMachine, Turn.call, hcall]
      · rw [List.filterMap_append, Guarded.filterMap_result_whole, hresults,
          List.map_cons, List.singleton_append]

end FremSoft
