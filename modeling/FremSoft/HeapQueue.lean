/-
The queue as `scheduler.c` keeps it: nodes on the heap, linked from `head`.
The tail walk of `scheduler_push` and the unlinking of `scheduler_pop_due` and
`scheduler_cancel_cop` through `prev` are followed access by access, and what
they compute is the plain list of the scheduler.
-/
import FremSoft.Lib.LinkedHeap
import FremSoft.Lib.Outcome
import FremSoft.SchedulerRun

namespace FremSoft

variable {β : Type}

/-- `scheduler_t` as far as its list of `event_node_t` goes. -/
abbrev EventHeap (β : Type) := LinkedHeap (SchedEvent β)

abbrev EventNode (β : Type) := Addr × SchedEvent β

/-- `while (cur->next) cur = cur->next` -/
def tailWalk (s : EventHeap β) : Nat → Addr → Except HeapFault Addr
  | 0, _ => .error .outOfFuel
  | fuel + 1, cur => do
      let n ← s.load cur
      match n.next with
      | none => return cur
      | some next => tailWalk s fuel next

/-- `scheduler_push`; `node` is what `calloc` returned. -/
def heapPush (fuel : Nat) (s : EventHeap β) (node : Option Addr)
    (e : SchedEvent β) : Except HeapFault (Int × EventHeap β) :=
  match node with
  | none => return (-1, s)
  | some n => do
      let s := s.alloc n e
      match s.head with
      | none => return (0, ← s.setLink .head (some n))
      | some head =>
          let cur ← tailWalk s fuel head
          return (0, ← s.setLink (.next cur) (some n))

/-- The loop of `scheduler_pop_due`; the node taken is freed. -/
def popDueLoop (hMod hCll : UInt32) (nowUs : UInt64) :
    Nat → EventHeap β → LinkRef → Option Addr →
      Except HeapFault (Option (EventNode β) × EventHeap β)
  | _, s, _, none => return (none, s)
  | 0, _, _, some _ => .error .outOfFuel
  | fuel + 1, s, prev, some cur => do
      let n ← s.load cur
      if n.value.isDue hMod hCll nowUs then
        let s ← s.setLink prev n.next
        let s ← s.free cur
        return (some (cur, n.value), s)
      else popDueLoop hMod hCll nowUs fuel s (.next cur) n.next

def heapPopDue (fuel : Nat) (s : EventHeap β) (hMod hCll : UInt32)
    (nowUs : UInt64) : Except HeapFault (Option (EventNode β) × EventHeap β) :=
  popDueLoop hMod hCll nowUs fuel s .head s.head

/-- The loop of `scheduler_cancel_cop`; it goes on behind a freed node with the
same `prev`. -/
def cancelCopLoop (hCop : UInt32) :
    Nat → EventHeap β → LinkRef → Option Addr →
      Except HeapFault (List (EventNode β) × EventHeap β)
  | _, s, _, none => return ([], s)
  | 0, _, _, some _ => .error .outOfFuel
  | fuel + 1, s, prev, some cur => do
      let n ← s.load cur
      if n.value.hCop == hCop then
        let s ← s.setLink prev n.next
        let s ← s.free cur
        let (doomed, s) ← cancelCopLoop hCop fuel s prev n.next
        return ((cur, n.value) :: doomed, s)
      else cancelCopLoop hCop fuel s (.next cur) n.next

def heapCancelCop (fuel : Nat) (s : EventHeap β) (hCop : UInt32) :
    Except HeapFault (List (EventNode β) × EventHeap β) :=
  cancelCopLoop hCop fuel s .head s.head

/-! ### Each walk in front of a list of nodes -/

/-- The list is these nodes, and no other node is allocated. -/
structure EventHeap.Holds (s : EventHeap β) (nodes : List (EventNode β)) :
    Prop where
  chain : Segment s.cells s.head nodes none
  live : ∀ a, (s.cells a).isSome ↔ a ∈ nodes.map Prod.fst

theorem EventHeap.Holds.nodup {s : EventHeap β} {nodes : List (EventNode β)}
    (h : EventHeap.Holds s nodes) : (nodes.map Prod.fst).Nodup :=
  h.chain.nodup

/-- The walk to the tail ends at the last node. -/
theorem tailWalk_spec {s : EventHeap β} {fuel : Nat} {cur : Addr}
    {nodes : List (EventNode β)} (hfuel : nodes.length ≤ fuel)
    (h : Segment s.cells (some cur) nodes none) :
    ∃ front last e, tailWalk s fuel cur = .ok last ∧
      nodes = front ++ [(last, e)] := by
  induction nodes generalizing fuel cur with
  | nil => cases h
  | cons node rest ih =>
      obtain ⟨hcur, next, hcell, hrest⟩ := h
      obtain rfl : cur = node.1 := Option.some.inj hcur
      cases fuel with
      | zero => simp at hfuel
      | succ fuel =>
          rw [List.length_cons, Nat.add_le_add_iff_right] at hfuel
          cases next with
          | none =>
              cases rest with
              | nil =>
                  refine ⟨[], node.1, node.2, ?_, rfl⟩
                  simp [tailWalk, LinkedHeap.load_of_cell hcell]
              | cons node' rest => cases hrest.1
          | some next =>
              obtain ⟨front, last, e, hwalk, hsplit⟩ := ih hfuel hrest
              refine ⟨node :: front, last, e, ?_, by rw [hsplit]; rfl⟩
              simpa [tailWalk, LinkedHeap.load_of_cell hcell] using hwalk

/-- A pushed node comes last. -/
theorem heapPush_spec {s : EventHeap β} {nodes : List (EventNode β)}
    {fuel : Nat} {n : Addr} (hfuel : nodes.length ≤ fuel)
    (h : EventHeap.Holds s nodes) (hn : s.cells n = none) (e : SchedEvent β) :
    ∃ s', heapPush fuel s (some n) e = .ok (0, s') ∧
      EventHeap.Holds s' (nodes ++ [(n, e)]) := by
  have hfresh : n ∉ nodes.map Prod.fst := fun hmem => by
    simpa [hn] using (h.live n).2 hmem
  have hchain : Segment (s.alloc n e).cells (s.alloc n e).head nodes none := by
    refine h.chain.frame fun a ha => Function.update_of_ne ?_ _ _
    rintro rfl
    exact hfresh ha
  have hnode : (s.alloc n e).cells n = some ⟨e, none⟩ :=
    Function.update_self ..
  have hlive : ∀ a, ((s.alloc n e).cells a).isSome ↔
      a ∈ (nodes ++ [(n, e)]).map Prod.fst := by
    intro a
    by_cases ha : a = n
    · subst ha
      simp [hnode]
    · simpa [LinkedHeap.alloc, ha] using h.live a
  -- Once the last link leads to the new node, the list is longer by it.
  have hlinked : ∀ link : LinkRef, link.Behind nodes →
      ∃ s', (s.alloc n e).setLink link (some n) = .ok s' ∧
        EventHeap.Holds s' (nodes ++ [(n, e)]) := by
    intro link hlink
    obtain ⟨s', hset, hsegment, hframe, hsome⟩ :=
      LinkedHeap.setLink_spec hlink h.nodup hchain (some n)
    refine ⟨s', hset, segment_append.2 ⟨some n, hsegment, rfl, none, ?_, rfl⟩,
      fun a => by rw [hsome, hlive]⟩
    rw [hframe n hfresh, hnode]
  cases hhead : s.head with
  | none =>
      have hempty : nodes = [] := by
        cases nodes with
        | nil => rfl
        | cons node rest =>
            have := h.chain.1
            rw [hhead] at this
            cases this
      obtain ⟨s', hset, hholds⟩ := hlinked .head hempty
      refine ⟨s', ?_, hholds⟩
      simp [heapPush, LinkedHeap.alloc, hhead] at hset ⊢
      simp [hset]
  | some head =>
      have hhead' : (s.alloc n e).head = some head := hhead
      rw [hhead'] at hchain
      obtain ⟨front, last, e', hwalk, hsplit⟩ := tailWalk_spec hfuel hchain
      obtain ⟨s', hset, hholds⟩ := hlinked (.next last) ⟨front, e', hsplit⟩
      refine ⟨s', ?_, hholds⟩
      simp [heapPush, hhead', hwalk, hset]

/-- The loop of `scheduler_pop_due` with some nodes behind it already: it takes
the first due one of those still ahead. -/
theorem popDueLoop_spec {hMod hCll : UInt32} {nowUs : UInt64} {fuel : Nat}
    {s : EventHeap β} {prev : LinkRef} {cur : Option Addr}
    {front back : List (EventNode β)} (hfuel : back.length ≤ fuel)
    (hprev : prev.Behind front)
    (hnodup : ((front ++ back).map Prod.fst).Nodup)
    (hfront : Segment s.cells s.head front cur)
    (hback : Segment s.cells cur back none) :
    (detach (SchedEvent.isDue hMod hCll nowUs ∘ Prod.snd) back = none ∧
      popDueLoop hMod hCll nowUs fuel s prev cur = .ok (none, s)) ∨
    ∃ n rest s', detach (SchedEvent.isDue hMod hCll nowUs ∘ Prod.snd) back =
        some (n, rest) ∧
      popDueLoop hMod hCll nowUs fuel s prev cur = .ok (some n, s') ∧
      Segment s'.cells s'.head (front ++ rest) none ∧
      ∀ a, (s'.cells a).isSome ↔ (s.cells a).isSome ∧ a ≠ n.1 := by
  induction back generalizing fuel front prev cur with
  | nil =>
      obtain rfl : cur = none := hback
      left
      cases fuel <;> exact ⟨rfl, rfl⟩
  | cons node rest ih =>
      obtain ⟨rfl, next, hcell, hrest⟩ := hback
      cases fuel with
      | zero => simp at hfuel
      | succ fuel =>
          rw [List.length_cons, Nat.add_le_add_iff_right] at hfuel
          cases hdue : node.2.isDue hMod hCll nowUs with
          | true =>
              right
              obtain ⟨s₁, s₂, hset, hfree, hfront₂, hrest₂, hlive⟩ :=
                LinkedHeap.unlink_spec hprev hnodup hfront hcell hrest
              have htaken : (SchedEvent.isDue hMod hCll nowUs ∘ Prod.snd) node =
                true := hdue
              refine ⟨node, rest, s₂, detach_cons_of_pos htaken rest, ?_,
                segment_append.2 ⟨next, hfront₂, hrest₂⟩, hlive⟩
              simp [popDueLoop, LinkedHeap.load_of_cell hcell, hdue, hset,
                hfree]
          | false =>
              have hleft : (SchedEvent.isDue hMod hCll nowUs ∘ Prod.snd) node =
                false := hdue
              rw [detach_cons_of_neg hleft]
              have hloop : popDueLoop hMod hCll nowUs (fuel + 1) s prev
                  (some node.1) =
                  popDueLoop hMod hCll nowUs fuel s (.next node.1) next := by
                simp [popDueLoop, LinkedHeap.load_of_cell hcell, hdue]
              rw [hloop]
              -- The node stays, and its own link is the one behind it.
              have hbehind : LinkRef.Behind (.next node.1) (front ++ [node]) :=
                ⟨front, node.2, rfl⟩
              rcases ih hfuel hbehind (by simpa using hnodup)
                  (segment_append.2 ⟨_, hfront, rfl, next, hcell, rfl⟩) hrest
                with ⟨hnone, hpop⟩ | ⟨n, rest', s', hsome, hpop, hchain, hlive⟩
              · left
                exact ⟨by rw [hnone]; rfl, hpop⟩
              · right
                refine ⟨n, node :: rest', s', by rw [hsome]; rfl, hpop, ?_,
                  hlive⟩
                simpa using hchain

theorem heapPopDue_spec {fuel : Nat} {s : EventHeap β}
    {nodes : List (EventNode β)} (hfuel : nodes.length ≤ fuel)
    (h : EventHeap.Holds s nodes) (hMod hCll : UInt32) (nowUs : UInt64) :
    (detach (SchedEvent.isDue hMod hCll nowUs ∘ Prod.snd) nodes = none ∧
      heapPopDue fuel s hMod hCll nowUs = .ok (none, s)) ∨
    ∃ n rest s', detach (SchedEvent.isDue hMod hCll nowUs ∘ Prod.snd) nodes =
        some (n, rest) ∧
      heapPopDue fuel s hMod hCll nowUs = .ok (some n, s') ∧
      EventHeap.Holds s' rest := by
  have hhead : LinkRef.Behind .head ([] : List (EventNode β)) := rfl
  rcases popDueLoop_spec hfuel hhead h.nodup rfl h.chain with
    hnone | ⟨n, rest, s', hsome, hpop, hchain, hlive⟩
  · exact .inl hnone
  · refine .inr ⟨n, rest, s', hsome, hpop, hchain, fun a => ?_⟩
    rw [hlive, h.live]
    have hperm := (detach_perm hsome).map Prod.fst
    have hnodup := hperm.nodup_iff.1 h.nodup
    rw [List.map_cons, List.nodup_cons] at hnodup
    rw [hperm.mem_iff, List.map_cons, List.mem_cons]
    constructor
    · rintro ⟨rfl | hmem, hne⟩
      · exact absurd rfl hne
      · exact hmem
    · intro hmem
      refine ⟨.inr hmem, ?_⟩
      rintro rfl
      exact hnodup.1 hmem

/-- The loop of `scheduler_cancel_cop` with some nodes behind it already. -/
theorem cancelCopLoop_spec {hCop : UInt32} {fuel : Nat} {s : EventHeap β}
    {prev : LinkRef} {cur : Option Addr} {front back : List (EventNode β)}
    (hfuel : back.length ≤ fuel) (hprev : prev.Behind front)
    (hnodup : ((front ++ back).map Prod.fst).Nodup)
    (hfront : Segment s.cells s.head front cur)
    (hback : Segment s.cells cur back none) :
    ∃ s', cancelCopLoop hCop fuel s prev cur =
        .ok (back.filter (fun n => n.2.hCop == hCop), s') ∧
      Segment s'.cells s'.head
        (front ++ back.filter fun n => !(n.2.hCop == hCop)) none ∧
      ∀ a, (s'.cells a).isSome ↔ (s.cells a).isSome ∧
        a ∉ (back.filter fun n => n.2.hCop == hCop).map Prod.fst := by
  induction back generalizing fuel s front prev cur with
  | nil =>
      obtain rfl : cur = none := hback
      refine ⟨s, ?_, by simpa using hfront, by simp⟩
      cases fuel <;> rfl
  | cons node rest ih =>
      obtain ⟨rfl, next, hcell, hrest⟩ := hback
      cases fuel with
      | zero => simp at hfuel
      | succ fuel =>
          rw [List.length_cons, Nat.add_le_add_iff_right] at hfuel
          by_cases hcop : node.2.hCop = hCop
          · obtain ⟨s₁, s₂, hset, hfree, hfront₂, hrest₂, hlive⟩ :=
              LinkedHeap.unlink_spec hprev hnodup hfront hcell hrest
            have hnodup₂ : ((front ++ rest).map Prod.fst).Nodup :=
              hnodup.sublist (((List.sublist_cons_self node rest).append_left
                front).map Prod.fst)
            obtain ⟨s', hloop, hchain, hlive'⟩ :=
              ih hfuel hprev hnodup₂ hfront₂ hrest₂
            refine ⟨s', ?_, by simpa [hcop] using hchain, fun a => ?_⟩
            · simp [cancelCopLoop, LinkedHeap.load_of_cell hcell, hcop, hset,
                hfree, hloop]
            · rw [hlive', hlive]
              simp only [List.filter_cons, hcop, beq_self_eq_true, if_true,
                List.map_cons, List.mem_cons, not_or, and_assoc]
          · -- The node stays, and its own link is the one behind it.
            have hbehind : LinkRef.Behind (.next node.1) (front ++ [node]) :=
              ⟨front, node.2, rfl⟩
            obtain ⟨s', hloop, hchain, hlive⟩ := ih hfuel hbehind
              (by simpa using hnodup)
              (segment_append.2 ⟨_, hfront, rfl, next, hcell, rfl⟩) hrest
            refine ⟨s', ?_, by simpa [hcop] using hchain,
              by simpa [hcop] using hlive⟩
            simp [cancelCopLoop, LinkedHeap.load_of_cell hcell, hcop, hloop]

theorem heapCancelCop_spec {fuel : Nat} {s : EventHeap β}
    {nodes : List (EventNode β)} (hfuel : nodes.length ≤ fuel)
    (h : EventHeap.Holds s nodes) (hCop : UInt32) :
    ∃ s', heapCancelCop fuel s hCop =
        .ok (nodes.filter (fun n => n.2.hCop == hCop), s') ∧
      EventHeap.Holds s' (nodes.filter fun n => !(n.2.hCop == hCop)) := by
  have hhead : LinkRef.Behind .head ([] : List (EventNode β)) := rfl
  obtain ⟨s', hloop, hchain, hlive⟩ :=
    cancelCopLoop_spec hfuel hhead h.nodup rfl h.chain
  refine ⟨s', hloop, hchain, fun a => ?_⟩
  rw [hlive, h.live]
  exact mem_keys_filter_not h.nodup _ a

/-! ### Sequences of calls -/

/-- A call on the heap; `node` is what `calloc` returned for a push. -/
inductive HeapOp (β : Type) where
  | push (node : Option Addr) (e : SchedEvent β)
  | popDue (hMod hCll : UInt32) (nowUs : UInt64)
  | cancelCop (hCop : UInt32)
deriving DecidableEq, Repr

def HeapOp.toList : HeapOp β → SchedulerOp β
  | .push node e => .push node.isSome e
  | .popDue hMod hCll nowUs => .popDue hMod hCll nowUs
  | .cancelCop hCop => .cancelCop hCop

/-- `calloc` never returns a block that is in use. -/
def HeapOp.fresh (s : EventHeap β) : HeapOp β → Bool
  | .push (some n) _ => (s.cells n).isNone
  | _ => true

/-- What a call answers, and what becomes of nodes. -/
inductive HeapObs (β : Type) where
  | answered (r : SchedulerReturn β)
  | allocated (n : EventNode β)
  | popped (n : EventNode β)
  | cancelled (n : EventNode β)
deriving DecidableEq, Repr

def HeapObs.answer? : HeapObs β → Option (SchedulerReturn β)
  | .answered r => some r
  | _ => none

def HeapObs.allocated? : HeapObs β → Option (EventNode β)
  | .allocated n => some n
  | _ => none

def HeapObs.popped? : HeapObs β → Option (EventNode β)
  | .popped n => some n
  | _ => none

def HeapObs.cancelled? : HeapObs β → Option (EventNode β)
  | .cancelled n => some n
  | _ => none

def heapCall (fuel : Nat) (s : EventHeap β) :
    HeapOp β → Except HeapFault (EventHeap β × List (HeapObs β))
  | .push node e => do
      let (status, s) ← heapPush fuel s node e
      return (s, (node.toList.map fun n => .allocated (n, e)) ++
        [.answered (.pushed status)])
  | .popDue hMod hCll nowUs => do
      let (node, s) ← heapPopDue fuel s hMod hCll nowUs
      return (s, node.toList.map .popped ++
        [.answered (.popped hMod hCll (node.map Prod.snd))])
  | .cancelCop hCop => do
      let (doomed, s) ← heapCancelCop fuel s hCop
      return (s, doomed.map .cancelled ++ [.answered .cancelled])

/-- The calls one after the other; after a fault nothing is known, and nothing
runs. -/
def heapMachine (fuel : Nat) :
    Machine (Except HeapFault (EventHeap β)) (HeapOp β) (HeapObs β) where
  step
    | .error f, _ => some (.error f, [])
    | .ok s, op =>
        if op.fresh s then
          match heapCall fuel s op with
          | .ok (s', out) => some (.ok s', out)
          | .error f => some (.error f, [])
        else none

/-- The nodes allocated are those popped, those cancelled and those in the
list. -/
def AccountsFor (outs : List (HeapObs β)) (before after : List (EventNode β)) :
    Prop :=
  (before ++ outs.filterMap HeapObs.allocated?).Perm
    (outs.filterMap HeapObs.popped? ++ outs.filterMap HeapObs.cancelled? ++
      after)

theorem AccountsFor.append {outs outs' : List (HeapObs β)}
    {before between after : List (EventNode β)}
    (h : AccountsFor outs before between)
    (h' : AccountsFor outs' between after) :
    AccountsFor (outs ++ outs') before after := by
  simp only [AccountsFor, List.filterMap_append] at h h' ⊢
  classical
  rw [List.perm_iff_count] at h h' ⊢
  intro n
  have hn := h n
  have hn' := h' n
  simp only [List.count_append] at hn hn' ⊢
  omega

theorem accountsFor_answered {nodes : List (EventNode β)}
    (r : SchedulerReturn β) : AccountsFor [.answered r] nodes nodes := by
  simp [AccountsFor, List.filterMap_cons, HeapObs.allocated?, HeapObs.popped?,
    HeapObs.cancelled?]

/-- One call in front of a list of nodes does not fault, answers what the plain
list answers, and leaves the heap holding the nodes of that list. -/
theorem heapCall_spec {fuel : Nat} {s : EventHeap β}
    {nodes : List (EventNode β)} {op : HeapOp β}
    (hfuel : nodes.length ≤ fuel) (h : EventHeap.Holds s nodes)
    (hfresh : op.fresh s = true) :
    ∃ s' out nodes' r, heapCall fuel s op = .ok (s', out) ∧
      EventHeap.Holds s' nodes' ∧
      eventListCall (nodes.map Prod.snd) op.toList = (nodes'.map Prod.snd, r) ∧
      out.filterMap HeapObs.answer? = [r] ∧
      AccountsFor out nodes nodes' ∧ nodes'.length ≤ nodes.length + 1 := by
  cases op with
  | push node e =>
      cases node with
      | none =>
          exact ⟨s, _, nodes, _, rfl, h, rfl, rfl, accountsFor_answered _,
            Nat.le_succ _⟩
      | some n =>
          have hn : s.cells n = none := by simpa [HeapOp.fresh] using hfresh
          obtain ⟨s', hpush, hholds⟩ := heapPush_spec hfuel h hn e
          refine ⟨s', _, nodes ++ [(n, e)], _, by rw [heapCall, hpush]; rfl,
            hholds, ?_, rfl, ?_, by simp⟩
          · simp [eventListCall, HeapOp.toList]
          · simp [AccountsFor, List.filterMap_cons, HeapObs.allocated?,
              HeapObs.popped?, HeapObs.cancelled?]
  | popDue hMod hCll nowUs =>
      have hqueue := detach_map Prod.snd (SchedEvent.isDue hMod hCll nowUs)
        nodes
      simp only [HeapOp.toList, eventListCall_popDue]
      rcases heapPopDue_spec hfuel h hMod hCll nowUs with
        ⟨hnone, hpop⟩ | ⟨n, rest, s', hsome, hpop, hholds⟩
      · rw [hnone] at hqueue
        refine ⟨s, _, nodes, _, by rw [heapCall, hpop]; rfl, h, ?_, rfl,
          accountsFor_answered _, Nat.le_succ _⟩
        rw [hqueue]
        rfl
      · rw [hsome] at hqueue
        refine ⟨s', _, rest, _, by rw [heapCall, hpop]; rfl, hholds, ?_, rfl,
          ?_, ?_⟩
        · rw [hqueue]
          rfl
        · simpa [AccountsFor, List.filterMap_cons, HeapObs.allocated?,
            HeapObs.popped?, HeapObs.cancelled?] using detach_perm hsome
        · exact (detach_sublist hsome).length_le.trans (Nat.le_succ _)
  | cancelCop hCop =>
      obtain ⟨s', hcancel, hholds⟩ := heapCancelCop_spec hfuel h hCop
      refine ⟨s', _, _, .cancelled, by rw [heapCall, hcancel]; rfl, hholds, ?_,
        ?_, ?_, (List.length_filter_le _ _).trans (Nat.le_succ _)⟩
      · rw [HeapOp.toList, eventListCall, List.filter_map]
        rfl
      · simp [List.filterMap_map, Function.comp_def, HeapObs.answer?]
      · have hperm := List.filter_append_perm (fun n => n.2.hCop == hCop) nodes
        simpa [AccountsFor, List.filterMap_map, Function.comp_def,
          List.filterMap_cons, HeapObs.allocated?, HeapObs.popped?,
          HeapObs.cancelled?] using hperm.symm

/-- A run of calls in front of a list of nodes. -/
theorem heapMachine_run_spec {fuel : Nat} {s : EventHeap β}
    {nodes : List (EventNode β)} {ops : List (HeapOp β)}
    {st : Except HeapFault (EventHeap β)} {outs : List (HeapObs β)}
    (hfuel : nodes.length + ops.length ≤ fuel) (h : EventHeap.Holds s nodes)
    (hrun : (heapMachine fuel).run (.ok s) ops = some (st, outs)) :
    ∃ s' nodes', st = .ok s' ∧ EventHeap.Holds s' nodes' ∧
      eventListMachine.run (nodes.map Prod.snd) (ops.map HeapOp.toList) =
        some (nodes'.map Prod.snd, outs.filterMap HeapObs.answer?) ∧
      AccountsFor outs nodes nodes' := by
  induction ops generalizing s nodes outs with
  | nil =>
      simp only [Machine.run_nil, Option.some.injEq, Prod.mk.injEq] at hrun
      obtain ⟨rfl, rfl⟩ := hrun
      exact ⟨s, nodes, rfl, h, rfl, by simp [AccountsFor]⟩
  | cons op rest ih =>
      obtain ⟨st', out, tail, hstep, hrest, rfl⟩ :=
        (Machine.run_cons ..).1 hrun
      rw [List.length_cons] at hfuel
      cases hfresh : op.fresh s with
      | false => simp [heapMachine, hfresh] at hstep
      | true =>
          have hnodes : nodes.length ≤ fuel := by omega
          obtain ⟨s', out', nodes', r, hcall, hholds, hqueue, hanswer,
            haccounts, hlength⟩ := heapCall_spec hnodes h hfresh
          simp only [heapMachine, hfresh, if_true, hcall, Option.some.injEq,
            Prod.mk.injEq] at hstep
          obtain ⟨rfl, rfl⟩ := hstep
          obtain ⟨s'', nodes'', rfl, hholds', hqueue', haccounts'⟩ :=
            ih (by omega) hholds hrest
          refine ⟨s'', nodes'', rfl, hholds', ?_, haccounts.append haccounts'⟩
          rw [List.map_cons, Machine.run_cons]
          refine ⟨nodes'.map Prod.snd, [r], _, ?_, hqueue', ?_⟩
          · simp [eventListMachine, hqueue]
          · rw [List.filterMap_append, hanswer]

/-- The list on the heap and the plain list.  From the empty queue and with any
heap the allocator may choose, no call touches a node that is not allocated,
frees one twice or walks on forever; each answers what the plain list answers;
what can be reached from `head` are the events of the plain list, each node
once, and nothing else is allocated; and the nodes pushed are those popped,
those cancelled and those still there. -/
theorem heapQueue_refines_list {fuel : Nat} {ops : List (HeapOp β)}
    {st : Except HeapFault (EventHeap β)} {outs : List (HeapObs β)}
    (hfuel : ops.length ≤ fuel)
    (hrun : (heapMachine fuel).run (.ok .empty) ops = some (st, outs)) :
    ∃ s nodes, st = .ok s ∧
      Segment s.cells s.head nodes none ∧ (nodes.map Prod.fst).Nodup ∧
      (∀ a, (s.cells a).isSome ↔ a ∈ nodes.map Prod.fst) ∧
      eventListMachine.run [] (ops.map HeapOp.toList) =
        some (nodes.map Prod.snd, outs.filterMap HeapObs.answer?) ∧
      (outs.filterMap HeapObs.allocated?).Perm
        (outs.filterMap HeapObs.popped? ++
          outs.filterMap HeapObs.cancelled? ++ nodes) := by
  have hempty : EventHeap.Holds (.empty : EventHeap β) [] :=
    ⟨rfl, fun a => by simp [LinkedHeap.empty]⟩
  obtain ⟨s, nodes, hok, hholds, hqueue, haccounts⟩ :=
    heapMachine_run_spec (by simpa using hfuel) hempty hrun
  exact ⟨s, nodes, hok, hholds.chain, hholds.nodup, hholds.live, hqueue,
    by simpa [AccountsFor] using haccounts⟩

/-- Three pushes, one of which finds no memory, a poll that takes the node in
the middle, its address used again, and a cancel of the other primitive's
nodes at both ends. -/
def sampleHeapOps : List (HeapOp Unit) :=
  [.push (some 8) (sampleEvent 1 900), .push none (sampleEvent 1 10),
    .push (some 4) (sampleEvent 2 10), .push (some 6) (sampleEvent 3 70),
    .popDue 1 2 50, .push (some 4) (sampleEvent 1 95), .cancelCop 1,
    .popDue 1 2 50]

theorem heapQueue_refines_list_sample : ∃ s outs nodes,
    (heapMachine 8).run (.ok .empty) sampleHeapOps = some (.ok s, outs) ∧
      Segment s.cells s.head nodes none ∧
      nodes.map Prod.snd = [sampleEvent 3 70] ∧
      (outs.filterMap HeapObs.allocated?).Perm
        (outs.filterMap HeapObs.popped? ++
          outs.filterMap HeapObs.cancelled? ++ nodes) := by
  obtain ⟨st, outs, hrun⟩ : ∃ st outs,
      (heapMachine 8).run (.ok .empty) sampleHeapOps = some (st, outs) :=
    ⟨_, _, rfl⟩
  obtain ⟨s, nodes, rfl, hchain, -, -, hqueue, haccounts⟩ :=
    heapQueue_refines_list (by decide) hrun
  have hlist : (eventListMachine.run [] (sampleHeapOps.map HeapOp.toList)).map
      Prod.fst = some [sampleEvent 3 70] := rfl
  rw [hqueue] at hlist
  exact ⟨s, outs, nodes, hrun, hchain, Option.some.inj hlist, haccounts⟩

end FremSoft
