/-
Who may touch a payload buffer.  A pusher allocates it, hands it to the queue
and then reads it once more for its log line; a poller takes it from the queue,
copies it and frees it; cancelling and shutting down free what is queued.  The
queue carries buffer numbers here, and every allocation gets a new one.
-/
import FremSoft.Lib.Run
import FremSoft.Start

namespace FremSoft

universe u v

/-- A buffer, numbered in the order of allocation. -/
abbrev BufId := Nat

/-- What a step does to a buffer. -/
inductive MemOp where
  | alloc (b : BufId)
  | read (b : BufId)
  | free (b : BufId)
deriving DecidableEq, Repr

/-- Where an activation stands: of `fremsoft_PDUStartComPrimitive` with the
events of its reply still to come, or of `fremsoft_PDUGetEventItem`. -/
inductive Activity where
  | scheduling (left : List (SchedEvent (List UInt8)))
  | filled (b : BufId) (e : SchedEvent (List UInt8))
      (left : List (SchedEvent (List UInt8)))
  | pushed (b : BufId) (left : List (SchedEvent (List UInt8)))
  | popped (b : BufId)
  | copied (b : BufId)
  | returned
deriving DecidableEq, Repr

/-- The shared state and every activation so far. -/
structure OwnState where
  gScheduler : Option (Scheduler BufId)
  gNextHCop : UInt32
  nextBuf : BufId
  activities : List Activity
deriving DecidableEq, Repr

inductive OwnAction where
  | start (a : StartArgs) (tickMs : UInt64)
  | poll (hMod hCll : UInt32) (nowUs : UInt64)
  | advance (k : Nat) (memoryOk : Bool)
  | cancelCop (hCop : UInt32)
  | schedulerFree
deriving DecidableEq, Repr

/-- The event as it is queued, with its buffer in place of the bytes. -/
def SchedEvent.inBuffer {β : Type u} {γ : Type v} (e : SchedEvent β) (b : γ) :
    SchedEvent γ :=
  { dueUs := e.dueUs, hMod := e.hMod, hCll := e.hCll, hCop := e.hCop
    copTag := e.copTag, itemType := e.itemType, numData := e.numData
    dataBytes := b }

def buffersOf (events : List (SchedEvent BufId)) : List BufId :=
  events.map (·.dataBytes)

def OwnState.init : OwnState :=
  { gScheduler := some schedulerNew
    gNextHCop := 0x10000
    nextBuf := 0
    activities := [] }

/-- The next step of an activation: where it stands afterwards, the scheduler
and the number of allocations afterwards, and what it did to buffers.
`memoryOk` is the outcome of the `malloc` or `calloc` the step makes. -/
def Activity.next (logOpen : Bool) (s : OwnState) (memoryOk : Bool) :
    Activity → Option (Activity × Option (Scheduler BufId) × BufId × List MemOp)
  | .scheduling [] => some (.returned, s.gScheduler, s.nextBuf, [])
  | .scheduling (e :: left) =>
      if memoryOk then
        some (.filled s.nextBuf e left, s.gScheduler, s.nextBuf + 1,
          [.alloc s.nextBuf])
      else some (.scheduling left, s.gScheduler, s.nextBuf, [])
  | .filled b e left =>
      some (.pushed b left,
        (schedulerPush memoryOk s.gScheduler (e.inBuffer b)).2, s.nextBuf, [])
  | .pushed b left =>
      some (.scheduling left, s.gScheduler, s.nextBuf,
        if logOpen then [.read b] else [])
  | .popped b =>
      if memoryOk then some (.copied b, s.gScheduler, s.nextBuf, [.read b])
      else some (.returned, s.gScheduler, s.nextBuf, [.free b])
  | .copied b => some (.returned, s.gScheduler, s.nextBuf, [.free b])
  | .returned => none

def ownStep (r : Option Recording) (logOpen : Bool) (s : OwnState) :
    OwnAction → Option (OwnState × List MemOp)
  | .start a tickMs =>
      let hCop := s.gNextHCop + 1
      some ({ s with
        gNextHCop := hCop
        activities := s.activities ++
          [.scheduling (startEvents r a hCop (tickMs * 1000))] }, [])
  | .poll hMod hCll nowUs =>
      match schedulerPopDue s.gScheduler hMod hCll nowUs with
      | (none, scheduler) => some ({ s with gScheduler := scheduler }, [])
      | (some e, scheduler) =>
          some ({ s with
            gScheduler := scheduler
            activities := s.activities ++ [.popped e.dataBytes] }, [])
  | .advance k memoryOk =>
      match s.activities[k]? with
      | none => none
      | some activity =>
          match activity.next logOpen s memoryOk with
          | none => none
          | some (activity', scheduler, nextBuf, ops) =>
              some ({ s with
                gScheduler := scheduler
                nextBuf
                activities := s.activities.set k activity' }, ops)
  | .cancelCop hCop =>
      some ({ s with gScheduler := schedulerCancelCop s.gScheduler hCop },
        (buffersOf ((schedulerQueue s.gScheduler).filter
          fun e => e.hCop == hCop)).map .free)
  | .schedulerFree =>
      some ({ s with gScheduler := none },
        (buffersOf (schedulerQueue s.gScheduler)).map .free)

/-- Every interleaving of the activations' steps with cancels and shutdown;
`logOpen` is whether the activity log could be opened. -/
def ownMachine (r : Option Recording) (logOpen : Bool) :
    Machine OwnState OwnAction MemOp :=
  { step := ownStep r logOpen }

def FreedOnce (ops : List MemOp) : Prop :=
  ops.Pairwise fun x y => ∀ b, x = .free b → y ≠ .free b

def ReadsLive (ops : List MemOp) : Prop :=
  ops.Pairwise fun x y => ∀ b, x = .free b → y ≠ .read b

def OwnState.freedBy (s : OwnState) : OwnAction → List BufId
  | .start _ _ => []
  | .poll _ _ _ => []
  | .advance k memoryOk =>
      match s.activities[k]? with
      | some (.popped b) => if memoryOk then [] else [b]
      | some (.copied b) => [b]
      | _ => []
  | .cancelCop hCop =>
      buffersOf ((schedulerQueue s.gScheduler).filter fun e => e.hCop == hCop)
  | .schedulerFree => buffersOf (schedulerQueue s.gScheduler)

/-- The buffer a pusher has handed over and will read for its log line. -/
def Activity.awaitsLog : Activity → Option BufId
  | .pushed b _ => some b
  | _ => none

/-- The step frees no buffer that some pusher has yet to log. -/
def FreesOnlyLogged (s : OwnState) (act : OwnAction) : Prop :=
  ∀ activity ∈ s.activities, ∀ b ∈ activity.awaitsLog, b ∉ s.freedBy act

instance (s : OwnState) (act : OwnAction) : Decidable (FreesOnlyLogged s act) :=
  inferInstanceAs (Decidable (∀ activity ∈ s.activities,
    ∀ b ∈ activity.awaitsLog, b ∉ s.freedBy act))

/-! ### Every buffer has at most one holder -/

/-- The buffers an activation holds: it alone may free them or pass them on. -/
def Activity.owned : Activity → List BufId
  | .filled b _ _ => [b]
  | .popped b => [b]
  | .copied b => [b]
  | _ => []

def freedIn (ops : List MemOp) : List BufId :=
  ops.filterMap fun op =>
    match op with
    | .free b => some b
    | _ => none

/-- How often a buffer is queued, held by an activation, or freed. -/
def OwnState.holders (s : OwnState) (seen : List MemOp) (b : BufId) : Nat :=
  (buffersOf (schedulerQueue s.gScheduler)).count b +
    (s.activities.flatMap Activity.owned).count b + (freedIn seen).count b

theorem mem_freedIn {ops : List MemOp} {b : BufId} :
    b ∈ freedIn ops ↔ MemOp.free b ∈ ops := by
  simp only [freedIn, List.mem_filterMap]
  constructor
  · rintro ⟨op, hop, heq⟩
    cases op with
    | free c =>
        simp only [Option.some.injEq] at heq
        rwa [← heq]
    | alloc c => simp at heq
    | read c => simp at heq
  · exact fun h => ⟨.free b, h, rfl⟩

@[simp] theorem freedIn_append (front back : List MemOp) :
    freedIn (front ++ back) = freedIn front ++ freedIn back :=
  List.filterMap_append ..

@[simp] theorem freedIn_map_free (bufs : List BufId) :
    freedIn (bufs.map .free) = bufs := by
  induction bufs with
  | nil => rfl
  | cons b rest ih => exact congrArg (b :: ·) ih

theorem freedOnce_of_nodup {ops : List MemOp} (h : (freedIn ops).Nodup) :
    FreedOnce ops := by
  rw [freedIn, List.Nodup, List.pairwise_filterMap] at h
  apply h.imp
  intro x y hne b hx hy
  subst hx hy
  exact hne b rfl b rfl rfl

theorem readsLive_append {front back : List MemOp} (hfront : ReadsLive front)
    (hback : ReadsLive back)
    (hread : ∀ b, .read b ∈ back → .free b ∉ front) :
    ReadsLive (front ++ back) := by
  refine List.pairwise_append.2 ⟨hfront, hback, ?_⟩
  intro x hx y hy b hfree hreads
  subst hfree hreads
  exact hread b hy hx

theorem count_flatMap_set {f : Activity → List BufId} {l : List Activity}
    {k : Nat} {x : Activity} (hk : l[k]? = some x) (y : Activity) (b : BufId) :
    ((l.set k y).flatMap f).count b + (f x).count b =
      (l.flatMap f).count b + (f y).count b := by
  induction l generalizing k with
  | nil => simp at hk
  | cons head tail ih =>
      cases k with
      | zero =>
          simp only [List.getElem?_cons_zero, Option.some.injEq] at hk
          subst hk
          simp only [List.set_cons_zero, List.flatMap_cons, List.count_append]
          omega
      | succ k =>
          have := ih (k := k) (by simpa using hk)
          simp only [List.set_cons_succ, List.flatMap_cons, List.count_append]
          omega

theorem count_buffersOf_filter (q : SchedEvent BufId → Bool)
    (events : List (SchedEvent BufId)) (b : BufId) :
    (buffersOf (events.filter fun e => !q e)).count b +
      (buffersOf (events.filter q)).count b = (buffersOf events).count b := by
  induction events with
  | nil => rfl
  | cons e rest ih =>
      cases hq : q e <;>
        simp [buffersOf, hq, List.count_cons] at ih ⊢ <;> omega

theorem schedulerPush_buffers_count (nodeOk : Bool)
    (s : Option (Scheduler BufId)) (e : SchedEvent BufId) (b : BufId) :
    (buffersOf (schedulerQueue (schedulerPush nodeOk s e).2)).count b ≤
      (buffersOf (schedulerQueue s)).count b + [e.dataBytes].count b := by
  rw [schedulerPush_snd]
  cases s with
  | none => simp [buffersOf]
  | some s => cases nodeOk <;> simp [buffersOf]

/-- What an activation's step can do: take no buffer into its hands, allocate
one, push it, log it, copy a popped one, or free it. -/
theorem Activity.next_cases {logOpen memoryOk : Bool} {s : OwnState}
    {x y : Activity} {scheduler : Option (Scheduler BufId)} {nextBuf : BufId}
    {ops : List MemOp}
    (hnext : x.next logOpen s memoryOk = some (y, scheduler, nextBuf, ops)) :
    (∃ left, x = .scheduling left ∧
      (y = .returned ∨ ∃ left', y = .scheduling left') ∧
      scheduler = s.gScheduler ∧ nextBuf = s.nextBuf ∧ ops = []) ∨
    (∃ e left, x = .scheduling (e :: left) ∧ y = .filled s.nextBuf e left ∧
      scheduler = s.gScheduler ∧ nextBuf = s.nextBuf + 1 ∧
      ops = [.alloc s.nextBuf]) ∨
    (∃ b e left, x = .filled b e left ∧ y = .pushed b left ∧
      scheduler = (schedulerPush memoryOk s.gScheduler (e.inBuffer b)).2 ∧
      nextBuf = s.nextBuf ∧ ops = []) ∨
    (∃ b left, x = .pushed b left ∧ y = .scheduling left ∧
      scheduler = s.gScheduler ∧ nextBuf = s.nextBuf ∧
      ops = if logOpen then [.read b] else []) ∨
    (∃ b, x = .popped b ∧ memoryOk = true ∧ y = .copied b ∧
      scheduler = s.gScheduler ∧ nextBuf = s.nextBuf ∧ ops = [.read b]) ∨
    (∃ b, (x = .popped b ∧ memoryOk = false ∨ x = .copied b) ∧
      y = .returned ∧ scheduler = s.gScheduler ∧ nextBuf = s.nextBuf ∧
      ops = [.free b]) := by
  cases x with
  | scheduling left =>
      cases left with
      | nil =>
          simp only [Activity.next, Option.some.injEq, Prod.mk.injEq] at hnext
          obtain ⟨rfl, rfl, rfl, rfl⟩ := hnext
          exact .inl ⟨[], rfl, .inl rfl, rfl, rfl, rfl⟩
      | cons e left =>
          cases memoryOk with
          | true =>
              simp only [Activity.next, if_true, Option.some.injEq,
                Prod.mk.injEq] at hnext
              obtain ⟨rfl, rfl, rfl, rfl⟩ := hnext
              exact .inr (.inl ⟨e, left, rfl, rfl, rfl, rfl, rfl⟩)
          | false =>
              simp only [Activity.next, Bool.false_eq_true, if_false,
                Option.some.injEq, Prod.mk.injEq] at hnext
              obtain ⟨rfl, rfl, rfl, rfl⟩ := hnext
              exact .inl ⟨_, rfl, .inr ⟨left, rfl⟩, rfl, rfl, rfl⟩
  | filled b e left =>
      simp only [Activity.next, Option.some.injEq, Prod.mk.injEq] at hnext
      obtain ⟨rfl, rfl, rfl, rfl⟩ := hnext
      exact .inr (.inr (.inl ⟨b, e, left, rfl, rfl, rfl, rfl, rfl⟩))
  | pushed b left =>
      simp only [Activity.next, Option.some.injEq, Prod.mk.injEq] at hnext
      obtain ⟨rfl, rfl, rfl, rfl⟩ := hnext
      exact .inr (.inr (.inr (.inl ⟨b, left, rfl, rfl, rfl, rfl, rfl⟩)))
  | popped b =>
      cases memoryOk with
      | true =>
          simp only [Activity.next, if_true, Option.some.injEq,
            Prod.mk.injEq] at hnext
          obtain ⟨rfl, rfl, rfl, rfl⟩ := hnext
          exact .inr (.inr (.inr (.inr (.inl
            ⟨b, rfl, rfl, rfl, rfl, rfl, rfl⟩))))
      | false =>
          simp only [Activity.next, Bool.false_eq_true, if_false,
            Option.some.injEq, Prod.mk.injEq] at hnext
          obtain ⟨rfl, rfl, rfl, rfl⟩ := hnext
          exact .inr (.inr (.inr (.inr (.inr
            ⟨b, .inl ⟨rfl, rfl⟩, rfl, rfl, rfl, rfl⟩))))
  | copied b =>
      simp only [Activity.next, Option.some.injEq, Prod.mk.injEq] at hnext
      obtain ⟨rfl, rfl, rfl, rfl⟩ := hnext
      exact .inr (.inr (.inr (.inr (.inr ⟨b, .inr rfl, rfl, rfl, rfl, rfl⟩))))
  | returned => simp [Activity.next] at hnext

/-- An activation's step passes buffers on or frees them; the only buffer it
adds is the next new one. -/
theorem Activity.next_holders {logOpen memoryOk : Bool} {s : OwnState}
    {x y : Activity} {scheduler : Option (Scheduler BufId)} {nextBuf : BufId}
    {ops : List MemOp}
    (hnext : x.next logOpen s memoryOk = some (y, scheduler, nextBuf, ops)) :
    s.nextBuf ≤ nextBuf ∧ ∀ b,
      (buffersOf (schedulerQueue scheduler)).count b + y.owned.count b +
          (freedIn ops).count b ≤
        (buffersOf (schedulerQueue s.gScheduler)).count b + x.owned.count b +
          (if s.nextBuf ≤ b ∧ b < nextBuf then 1 else 0) := by
  rcases Activity.next_cases hnext with
    ⟨left, rfl, hy, rfl, rfl, rfl⟩ | ⟨e, left, rfl, rfl, rfl, rfl, rfl⟩ |
    ⟨c, e, left, rfl, rfl, rfl, rfl, rfl⟩ | ⟨c, left, rfl, rfl, rfl, rfl, rfl⟩ |
    ⟨c, rfl, _, rfl, rfl, rfl, rfl⟩ | ⟨c, hx, rfl, rfl, rfl, rfl⟩
  · refine ⟨Nat.le_refl _, fun b => ?_⟩
    rcases hy with rfl | ⟨left', rfl⟩ <;> simp [owned, freedIn]
  · refine ⟨Nat.le_succ _, fun b => ?_⟩
    by_cases hb : b = s.nextBuf
    · subst hb
      simp [owned, freedIn]
    · have hne : s.nextBuf ≠ b := Ne.symm hb
      simp [owned, freedIn, hne]
  · refine ⟨Nat.le_refl _, fun b => ?_⟩
    have hpush := schedulerPush_buffers_count memoryOk s.gScheduler
      (e.inBuffer c) b
    have hbuffer : (e.inBuffer c).dataBytes = c := rfl
    rw [hbuffer] at hpush
    simp only [owned, freedIn, List.filterMap_nil, List.count_nil]
    omega
  · refine ⟨Nat.le_refl _, fun b => ?_⟩
    cases logOpen <;> simp [owned, freedIn]
  · exact ⟨Nat.le_refl _, fun b => by simp [owned, freedIn]⟩
  · refine ⟨Nat.le_refl _, fun b => ?_⟩
    rcases hx with ⟨rfl, _⟩ | rfl <;> simp [owned, freedIn]

/-- Every buffer has at most one holder, and those not yet allocated none. -/
structure HoldersInv (s : OwnState) (seen : List MemOp) : Prop where
  single : ∀ b, s.holders seen b ≤ 1
  fresh : ∀ b, s.nextBuf ≤ b → s.holders seen b = 0

theorem HoldersInv.of_le {s s' : OwnState} {seen seen' : List MemOp}
    (hinv : HoldersInv s seen) (hbufs : s.nextBuf ≤ s'.nextBuf)
    (hle : ∀ b, s'.holders seen' b ≤ s.holders seen b +
      if s.nextBuf ≤ b ∧ b < s'.nextBuf then 1 else 0) :
    HoldersInv s' seen' where
  single b := by
    have hb := hle b
    have hold := hinv.single b
    split at hb
    · next hnew =>
      have := hinv.fresh b hnew.1
      omega
    · omega
  fresh b hb := by
    have hstep := hle b
    have hold : ¬(s.nextBuf ≤ b ∧ b < s'.nextBuf) :=
      fun h => Nat.not_lt_of_le hb h.2
    rw [if_neg hold, hinv.fresh b (hbufs.trans hb)] at hstep
    omega

/-- What one step can do. -/
theorem ownStep_cases {r : Option Recording} {logOpen : Bool}
    {s s' : OwnState} {act : OwnAction} {out : List MemOp}
    (hstep : ownStep r logOpen s act = some (s', out)) :
    (∃ hCop left, s' = { s with
        gNextHCop := hCop
        activities := s.activities ++ [.scheduling left] } ∧
      out = [] ∧ s.freedBy act = []) ∨
    (s' = s ∧ out = [] ∧ s.freedBy act = []) ∨
    (∃ p scheduler e rest, s.gScheduler = some scheduler ∧
      detach p scheduler.head = some (e, rest) ∧
      s' = { s with
        gScheduler := some { scheduler with head := rest }
        activities := s.activities ++ [.popped e.dataBytes] } ∧
      out = [] ∧ s.freedBy act = []) ∨
    (∃ k memoryOk x y scheduler nextBuf, act = .advance k memoryOk ∧
      s.activities[k]? = some x ∧
      x.next logOpen s memoryOk = some (y, scheduler, nextBuf, out) ∧
      s' = { s with
        gScheduler := scheduler
        nextBuf
        activities := s.activities.set k y }) ∨
    (∃ q, s' = { s with gScheduler := s.gScheduler.map fun scheduler =>
          { scheduler with head := scheduler.head.filter fun e => !q e } } ∧
      s.freedBy act =
        buffersOf ((schedulerQueue s.gScheduler).filter q) ∧
      out = (s.freedBy act).map .free) ∨
    (s' = { s with gScheduler := none } ∧
      s.freedBy act = buffersOf (schedulerQueue s.gScheduler) ∧
      out = (s.freedBy act).map .free) := by
  cases act with
  | start a tickMs =>
      simp only [ownStep, Option.some.injEq, Prod.mk.injEq] at hstep
      exact Or.inl ⟨_, _, hstep.1.symm, hstep.2.symm, rfl⟩
  | poll hMod hCll nowUs =>
      cases hscheduler : s.gScheduler with
      | none =>
          simp only [ownStep, hscheduler, schedulerPopDue, Option.some.injEq,
            Prod.mk.injEq] at hstep
          refine Or.inr (Or.inl ⟨?_, hstep.2.symm, rfl⟩)
          rw [← hstep.1, ← hscheduler]
      | some scheduler =>
          rcases schedulerPopDue_cases scheduler hMod hCll nowUs with
            ⟨hnone, _⟩ | ⟨e, rest, hpop, hdetach⟩
          · simp only [ownStep, hscheduler, hnone, Option.some.injEq,
              Prod.mk.injEq] at hstep
            refine Or.inr (Or.inl ⟨?_, hstep.2.symm, rfl⟩)
            rw [← hstep.1, ← hscheduler]
          · simp only [ownStep, hscheduler, hpop, Option.some.injEq,
              Prod.mk.injEq] at hstep
            exact Or.inr (Or.inr (Or.inl ⟨_, scheduler, e, rest, rfl, hdetach,
              hstep.1.symm, hstep.2.symm, rfl⟩))
  | advance k memoryOk =>
      simp only [ownStep] at hstep
      split at hstep
      · cases hstep
      · next x hk =>
        split at hstep
        · cases hstep
        · next y scheduler nextBuf ops hnext =>
          simp only [Option.some.injEq, Prod.mk.injEq] at hstep
          obtain ⟨hs', rfl⟩ := hstep
          exact Or.inr (Or.inr (Or.inr (Or.inl
            ⟨k, memoryOk, x, y, scheduler, nextBuf, rfl, hk, hnext, hs'.symm⟩)))
  | cancelCop hCop =>
      simp only [ownStep, Option.some.injEq, Prod.mk.injEq] at hstep
      refine Or.inr (Or.inr (Or.inr (Or.inr (Or.inl
        ⟨fun e => e.hCop == hCop, ?_, rfl, hstep.2.symm⟩))))
      rw [← hstep.1]
      cases s.gScheduler <;> rfl
  | schedulerFree =>
      simp only [ownStep, Option.some.injEq, Prod.mk.injEq] at hstep
      exact Or.inr (Or.inr (Or.inr (Or.inr (Or.inr
        ⟨hstep.1.symm, rfl, hstep.2.symm⟩))))

theorem holdersInv_step {r : Option Recording} {logOpen : Bool}
    {s s' : OwnState} {act : OwnAction} {seen out : List MemOp}
    (hinv : HoldersInv s seen)
    (hstep : ownStep r logOpen s act = some (s', out)) :
    HoldersInv s' (seen ++ out) := by
  rcases ownStep_cases hstep with
    ⟨hCop, left, rfl, rfl, _⟩ | ⟨rfl, rfl, _⟩ |
    ⟨p, scheduler, e, rest, hscheduler, hdetach, rfl, rfl, _⟩ |
    ⟨k, memoryOk, x, y, scheduler, nextBuf, _, hk, hnext, rfl⟩ |
    ⟨q, rfl, hfreed, rfl⟩ | ⟨rfl, hfreed, rfl⟩
  · refine hinv.of_le (Nat.le_refl _) fun b => ?_
    simp [OwnState.holders, Activity.owned]
  · rwa [List.append_nil]
  · refine hinv.of_le (Nat.le_refl _) fun b => ?_
    have hperm := ((detach_perm hdetach).map (·.dataBytes)).count_eq b
    simp only [List.map_cons, List.count_cons] at hperm
    simp only [OwnState.holders, buffersOf, hscheduler, schedulerQueue_some,
      List.flatMap_append, List.flatMap_cons, List.flatMap_nil, Activity.owned,
      List.append_nil, List.count_append, List.count_cons, List.count_nil,
      hperm]
    omega
  · obtain ⟨hbufs, hcount⟩ := Activity.next_holders hnext
    refine hinv.of_le hbufs fun b => ?_
    have hb := hcount b
    have hset := count_flatMap_set (f := Activity.owned) hk y b
    simp only [OwnState.holders, freedIn_append, List.count_append]
    omega
  · refine hinv.of_le (Nat.le_refl _) fun b => ?_
    have hsplit := count_buffersOf_filter q (schedulerQueue s.gScheduler) b
    have hqueue : schedulerQueue (s.gScheduler.map fun scheduler =>
          { scheduler with head := scheduler.head.filter fun e => !q e }) =
        (schedulerQueue s.gScheduler).filter fun e => !q e := by
      cases s.gScheduler <;> rfl
    simp only [OwnState.holders, hqueue, hfreed, freedIn_append,
      freedIn_map_free, List.count_append]
    omega
  · refine hinv.of_le (Nat.le_refl _) fun b => ?_
    simp only [OwnState.holders, hfreed, schedulerQueue_none, freedIn_append,
      freedIn_map_free, List.count_append]
    simp only [buffersOf, List.map_nil, List.count_nil]
    omega

/-! ### Reads -/

/-- Nothing read so far had been freed, and what a pusher is still going to
read has not been. -/
structure ReadsInv (logOpen : Bool) (s : OwnState) (seen : List MemOp) :
    Prop where
  readsLive : ReadsLive seen
  awaited : logOpen = true →
    ∀ x ∈ s.activities, ∀ b ∈ x.awaitsLog, .free b ∉ seen

/-- A buffer in the hands of an activation has not been freed. -/
theorem HoldersInv.not_freed {s : OwnState} {seen : List MemOp}
    (hinv : HoldersInv s seen) {x : Activity} (hx : x ∈ s.activities)
    {b : BufId} (hb : b ∈ x.owned) : .free b ∉ seen := by
  intro hfree
  have hheld : 0 < (s.activities.flatMap Activity.owned).count b :=
    List.count_pos_iff.2 (List.mem_flatMap.2 ⟨x, hx, hb⟩)
  have hfreed : 0 < (freedIn seen).count b :=
    List.count_pos_iff.2 (mem_freedIn.2 hfree)
  have hsingle := hinv.single b
  simp only [OwnState.holders] at hsingle
  omega

/-- What an activation's step does to buffers, and what it awaits next. -/
theorem Activity.next_ops {logOpen memoryOk : Bool} {s : OwnState}
    {x y : Activity} {scheduler : Option (Scheduler BufId)} {nextBuf : BufId}
    {ops : List MemOp}
    (hnext : x.next logOpen s memoryOk = some (y, scheduler, nextBuf, ops)) :
    ReadsLive ops ∧
    (∀ b, .read b ∈ ops →
      b ∈ x.owned ∨ logOpen = true ∧ x.awaitsLog = some b) ∧
    ∀ b, y.awaitsLog = some b → b ∈ x.owned ∧ ops = [] := by
  rcases Activity.next_cases hnext with
    ⟨left, rfl, hy, _, _, rfl⟩ | ⟨e, left, rfl, rfl, _, _, rfl⟩ |
    ⟨c, e, left, rfl, rfl, _, _, rfl⟩ | ⟨c, left, rfl, rfl, _, _, rfl⟩ |
    ⟨c, rfl, _, rfl, _, _, rfl⟩ | ⟨c, hx, rfl, _, _, rfl⟩
  · refine ⟨List.Pairwise.nil, by simp, ?_⟩
    rcases hy with rfl | ⟨left', rfl⟩ <;> simp [awaitsLog]
  · exact ⟨List.pairwise_singleton _ _, by simp, by simp [awaitsLog]⟩
  · exact ⟨List.Pairwise.nil, by simp, by simp [awaitsLog, owned]⟩
  · cases logOpen with
    | false => exact ⟨List.Pairwise.nil, by simp, by simp [awaitsLog]⟩
    | true =>
        refine ⟨List.pairwise_singleton _ _, ?_, by simp [awaitsLog]⟩
        simp [awaitsLog, eq_comm]
  · exact ⟨List.pairwise_singleton _ _, by simp [owned], by simp [awaitsLog]⟩
  · exact ⟨List.pairwise_singleton _ _, by simp, by simp [awaitsLog]⟩

/-- What an activation's step frees is what `freedBy` says. -/
theorem Activity.next_freedIn {logOpen memoryOk : Bool} {s : OwnState}
    {x y : Activity} {scheduler : Option (Scheduler BufId)} {nextBuf : BufId}
    {ops : List MemOp} {k : Nat} (hk : s.activities[k]? = some x)
    (hnext : x.next logOpen s memoryOk = some (y, scheduler, nextBuf, ops)) :
    freedIn ops = s.freedBy (.advance k memoryOk) := by
  simp only [OwnState.freedBy, hk]
  rcases Activity.next_cases hnext with
    ⟨left, rfl, _, _, _, rfl⟩ | ⟨e, left, rfl, _, _, _, rfl⟩ |
    ⟨c, e, left, rfl, _, _, _, rfl⟩ | ⟨c, left, rfl, _, _, _, rfl⟩ |
    ⟨c, rfl, rfl, _, _, _, rfl⟩ | ⟨c, ⟨rfl, rfl⟩ | rfl, _, _, _, rfl⟩
  · rfl
  · rfl
  · rfl
  · cases logOpen <;> rfl
  · rfl
  · rfl
  · rfl

theorem readsLive_map_free (bufs : List BufId) :
    ReadsLive (bufs.map .free) := by
  rw [ReadsLive, List.pairwise_map]
  exact List.pairwise_of_forall fun x y b _ h => by cases h

/-- A step that frees only what has been logged leaves all reads safe. -/
theorem readsInv_step {r : Option Recording} {logOpen : Bool}
    {s s' : OwnState} {act : OwnAction} {seen out : List MemOp}
    (hholders : HoldersInv s seen) (hinv : ReadsInv logOpen s seen)
    (hlogged : logOpen = true → FreesOnlyLogged s act)
    (hstep : ownStep r logOpen s act = some (s', out)) :
    ReadsInv logOpen s' (seen ++ out) := by
  have hfrees : ∀ bufs, s.freedBy act = bufs →
      ReadsInv logOpen s (seen ++ bufs.map .free) := by
    rintro bufs rfl
    refine ⟨readsLive_append hinv.readsLive (readsLive_map_free _) (by simp),
      ?_⟩
    intro hopen x hx b hb hmem
    rcases List.mem_append.1 hmem with hmem | hmem
    · exact hinv.awaited hopen x hx b hb hmem
    · exact hlogged hopen x hx b hb (by simpa using hmem)
  rcases ownStep_cases hstep with
    ⟨hCop, left, rfl, rfl, _⟩ | ⟨rfl, rfl, _⟩ |
    ⟨p, scheduler, e, rest, hscheduler, hdetach, rfl, rfl, _⟩ |
    ⟨k, memoryOk, x, y, scheduler, nextBuf, rfl, hk, hnext, rfl⟩ |
    ⟨q, rfl, hfreed, rfl⟩ | ⟨rfl, hfreed, rfl⟩
  · rw [List.append_nil]
    refine ⟨hinv.readsLive, fun hopen x hx b hb => ?_⟩
    rcases List.mem_append.1 hx with hx | hx
    · exact hinv.awaited hopen x hx b hb
    · rw [List.mem_singleton] at hx
      subst hx
      simp [Activity.awaitsLog] at hb
  · rwa [List.append_nil]
  · rw [List.append_nil]
    refine ⟨hinv.readsLive, fun hopen x hx b hb => ?_⟩
    rcases List.mem_append.1 hx with hx | hx
    · exact hinv.awaited hopen x hx b hb
    · rw [List.mem_singleton] at hx
      subst hx
      simp [Activity.awaitsLog] at hb
  · obtain ⟨hops, hreads, hawaits⟩ := Activity.next_ops hnext
    have hx : x ∈ s.activities := List.mem_of_getElem? hk
    refine ⟨readsLive_append hinv.readsLive hops ?_, ?_⟩
    · intro b hread
      rcases hreads b hread with howned | ⟨hopen, hawait⟩
      · exact hholders.not_freed hx howned
      · exact hinv.awaited hopen x hx b hawait
    · intro hopen z hz b hb hmem
      rcases List.mem_or_eq_of_mem_set hz with hold | rfl
      · -- Another activation still awaits its line.
        rcases List.mem_append.1 hmem with hmem | hmem
        · exact hinv.awaited hopen z hold b hb hmem
        · apply hlogged hopen z hold b hb
          rw [← Activity.next_freedIn hk hnext, mem_freedIn]
          exact hmem
      · -- The activation has just pushed the buffer it held.
        obtain ⟨howned, rfl⟩ := hawaits b hb
        rw [List.append_nil] at hmem
        exact hholders.not_freed hx howned hmem
  · exact { hfrees _ rfl with }
  · exact { hfrees _ rfl with }

theorem holdersInv_init : HoldersInv OwnState.init [] where
  single b := by
    simp [OwnState.holders, OwnState.init, schedulerNew, buffersOf, freedIn]
  fresh b _ := by
    simp [OwnState.holders, OwnState.init, schedulerNew, buffersOf, freedIn]

/-- In any run whatever no buffer is freed twice. -/
theorem freedOnce_of_run {r : Option Recording} {logOpen : Bool}
    {acts : List OwnAction} {t : OwnState} {ops : List MemOp}
    (hrun : (ownMachine r logOpen).run OwnState.init acts = some (t, ops)) :
    FreedOnce ops := by
  have hholders := Machine.run_invariant (I := HoldersInv)
    (fun s seen act s' out hI hstep => holdersInv_step hI hstep) hrun
    holdersInv_init
  apply freedOnce_of_nodup
  rw [List.nodup_iff_count_le_one]
  intro b
  have hsingle := hholders.single b
  simp only [OwnState.holders] at hsingle
  omega

/-- Ownership over any run.  No buffer is freed twice; and in a run that frees
no buffer between its push and its log line, or has no log to write, no buffer
is read after it was freed. -/
theorem bufferOwnership_of_run {r : Option Recording} {logOpen : Bool}
    {acts : List OwnAction} {t : OwnState} {ops : List MemOp}
    (hlogged : logOpen = true →
      (ownMachine r logOpen).Meets FreesOnlyLogged OwnState.init acts)
    (hrun : (ownMachine r logOpen).run OwnState.init acts = some (t, ops)) :
    FreedOnce ops ∧ ReadsLive ops := by
  refine ⟨freedOnce_of_run hrun, ?_⟩
  have hmeets : (ownMachine r logOpen).Meets
      (fun s act => logOpen = true → FreesOnlyLogged s act)
      OwnState.init acts := by
    cases logOpen with
    | false => exact Machine.meets_of_forall (fun _ _ h => by cases h) _ _
    | true => simpa using hlogged rfl
  have hall := Machine.run_invariant_of_meets
    (I := fun s seen => HoldersInv s seen ∧ ReadsInv logOpen s seen)
    (fun s seen act s' out hI hC hstep =>
      ⟨holdersInv_step hI.1 hstep, readsInv_step hI.1 hI.2 hC hstep⟩)
    hmeets hrun
    ⟨holdersInv_init, List.Pairwise.nil, fun _ => by simp [OwnState.init]⟩
  exact hall.2.readsLive

/-- The condition is needed: once a buffer is freed between its push and its
log line, the pusher's next step reads it. -/
theorem reads_freed_of_not_logged {r : Option Recording} {s s' : OwnState}
    {act : OwnAction} {out : List MemOp}
    (hstep : ownStep r true s act = some (s', out)) {j : Nat} {b : BufId}
    {left : List (SchedEvent (List UInt8))}
    (hj : s.activities[j]? = some (.pushed b left)) (hb : b ∈ s.freedBy act) :
    ∃ t, (ownMachine r true).run s [act, .advance j true] =
        some (t, out ++ [.read b]) ∧
      ¬ReadsLive (out ++ [.read b]) := by
  have hfree : .free b ∈ out ∧ s'.activities[j]? = some (.pushed b left) := by
    rcases ownStep_cases hstep with
      ⟨hCop, left', rfl, rfl, hnone⟩ | ⟨rfl, rfl, hnone⟩ |
      ⟨p, scheduler, e, rest, hscheduler, hdetach, rfl, rfl, hnone⟩ |
      ⟨k, memoryOk, x, y, scheduler, nextBuf, rfl, hk, hnext, rfl⟩ |
      ⟨q, rfl, hfreed, rfl⟩ | ⟨rfl, hfreed, rfl⟩
    · simp [hnone] at hb
    · simp [hnone] at hb
    · simp [hnone] at hb
    · have hkj : k ≠ j := by
        rintro rfl
        simp [OwnState.freedBy, hj] at hb
      refine ⟨?_, by simpa [List.getElem?_set, hkj] using hj⟩
      rw [← mem_freedIn, Activity.next_freedIn hk hnext]
      exact hb
    · exact ⟨by simpa using hb, hj⟩
    · exact ⟨by simpa using hb, hj⟩
  refine ⟨{ s' with activities := s'.activities.set j (.scheduling left) },
    ?_, ?_⟩
  · refine (Machine.run_cons ..).2 ⟨s', out, [.read b], hstep, ?_, rfl⟩
    rw [Machine.run_singleton]
    simp [ownMachine, ownStep, hfree.2, Activity.next]
  · intro hlive
    exact (List.pairwise_append.1 hlive).2.2 _ hfree.1 _
      (List.mem_singleton_self _) b rfl rfl

/-! ### A reply without delay -/

/-- One response, recorded with no delay. -/
def instantRecording : Recording :=
  { recordingId := "instant".toList
    vehicleProfile := []
    exchanges :=
      [{ canId := 0x7E0
         udsBytes := [0x3E]
         responses :=
          [{ canId := 0x7E8, udsBytes := [0x7E], delayMs := 0 }] }] }

/-- The reply is polled between its push and its log line. -/
theorem bufferOwnership_broken_by_instant_poll :
    ∃ t, (ownMachine (some instantRecording) true).run OwnState.init
        [.start (shortRequest 0x3E) 0, .advance 0 true, .advance 0 true,
          .poll 1 2 0, .advance 1 true, .advance 1 true, .advance 0 true] =
      some (t, [.alloc 0, .read 0, .free 0, .read 0]) ∧
      ¬ReadsLive [.alloc 0, .read 0, .free 0, .read 0] := by
  refine ⟨_, rfl, ?_⟩
  simp [ReadsLive]

/-- The same poll one step later. -/
def loggedThenPolled : List OwnAction :=
  [.start (shortRequest 0x3E) 0, .advance 0 true, .advance 0 true,
    .advance 0 true, .poll 1 2 0, .advance 1 true, .advance 1 true]

theorem bufferOwnership_of_logged_poll :
    ∃ t ops, (ownMachine (some instantRecording) true).run OwnState.init
        loggedThenPolled = some (t, ops) ∧ FreedOnce ops ∧ ReadsLive ops := by
  have hruns : ((ownMachine (some instantRecording) true).run OwnState.init
      loggedThenPolled).isSome = true := by decide
  have hrun := (Option.some_get hruns).symm
  exact ⟨_, _, hrun, bufferOwnership_of_run (fun _ => by decide) hrun⟩

end FremSoft
