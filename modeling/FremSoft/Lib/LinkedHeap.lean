/-
Singly linked lists on a heap.  Cells are reached through links, a link is the
list's head pointer or the next-pointer of a cell, and an access to a cell that
is not allocated is a fault.  A list of cells describes the heap when following
the links visits exactly these cells.
-/
import Mathlib.Data.List.Nodup
import Mathlib.Logic.Function.Basic

namespace FremSoft

universe u

variable {α : Type u}

abbrev Addr := Nat

structure Cell (α : Type u) where
  value : α
  next : Option Addr
deriving DecidableEq, Repr

/-- What C would leave undefined, and a walk that does not end. -/
inductive HeapFault where
  | badAccess (a : Addr)
  | badFree (a : Addr)
  | outOfFuel
deriving DecidableEq, Repr

/-- A head pointer and the cells that are allocated. -/
structure LinkedHeap (α : Type u) where
  head : Option Addr
  cells : Addr → Option (Cell α)

/-- A place that holds a pointer to a cell, as a pointer to a pointer names
it. -/
inductive LinkRef where
  | head
  | next (a : Addr)
deriving DecidableEq, Repr

namespace LinkedHeap

def empty : LinkedHeap α := { head := none, cells := fun _ => none }

def load (s : LinkedHeap α) (a : Addr) : Except HeapFault (Cell α) :=
  match s.cells a with
  | some c => .ok c
  | none => .error (.badAccess a)

/-- A new cell at an address; the caller has it from the allocator. -/
def alloc (s : LinkedHeap α) (a : Addr) (v : α) : LinkedHeap α :=
  { s with cells := Function.update s.cells a (some ⟨v, none⟩) }

/-- `*link = p` -/
def setLink (s : LinkedHeap α) (link : LinkRef) (p : Option Addr) :
    Except HeapFault (LinkedHeap α) :=
  match link with
  | .head => .ok { s with head := p }
  | .next a => do
      let c ← s.load a
      return { s with
        cells := Function.update s.cells a (some { c with next := p }) }

def free (s : LinkedHeap α) (a : Addr) : Except HeapFault (LinkedHeap α) :=
  match s.cells a with
  | some _ => .ok { s with cells := Function.update s.cells a none }
  | none => .error (.badFree a)

end LinkedHeap

/-- From pointer `p`, following the links visits these cells and arrives at
pointer `q`. -/
def Segment (cells : Addr → Option (Cell α)) :
    Option Addr → List (Addr × α) → Option Addr → Prop
  | p, [], q => p = q
  | p, (a, v) :: rest, q =>
      p = some a ∧ ∃ next, cells a = some ⟨v, next⟩ ∧ Segment cells next rest q

section Segment

variable {cells cells' : Addr → Option (Cell α)} {p q : Option Addr}
  {l front back : List (Addr × α)}

theorem segment_append : Segment cells p (front ++ back) q ↔
    ∃ m, Segment cells p front m ∧ Segment cells m back q := by
  induction front generalizing p with
  | nil => simp [Segment]
  | cons c front ih =>
      simp only [List.cons_append, Segment, ih]
      constructor
      · rintro ⟨hp, next, hcell, m, hfront, hback⟩
        exact ⟨m, ⟨hp, next, hcell, hfront⟩, hback⟩
      · rintro ⟨m, ⟨hp, next, hcell, hfront⟩, hback⟩
        exact ⟨hp, next, hcell, m, hfront, hback⟩

/-- A segment depends on its own cells only. -/
theorem Segment.frame (h : Segment cells p l q)
    (hsame : ∀ a ∈ l.map Prod.fst, cells' a = cells a) :
    Segment cells' p l q := by
  induction l generalizing p with
  | nil => exact h
  | cons c rest ih =>
      obtain ⟨hp, next, hcell, hrest⟩ := h
      refine ⟨hp, next, ?_, ih hrest fun a ha => ?_⟩
      · rw [hsame c.1 (by simp), hcell]
      · exact hsame a (List.mem_cons_of_mem _ ha)

/-- A pointer starts at most one list that ends. -/
theorem Segment.unique {l' : List (Addr × α)} (h : Segment cells p l none)
    (h' : Segment cells p l' none) : l = l' := by
  induction l generalizing p l' with
  | nil =>
      cases l' with
      | nil => rfl
      | cons c rest => exact absurd (h.symm.trans h'.1) (by simp)
  | cons c rest ih =>
      cases l' with
      | nil => exact absurd (h'.symm.trans h.1) (by simp)
      | cons c' rest' =>
          obtain ⟨hp, next, hcell, hrest⟩ := h
          obtain ⟨hp', next', hcell', hrest'⟩ := h'
          have haddr : c.1 = c'.1 := Option.some.inj (hp.symm.trans hp')
          rw [← haddr, hcell] at hcell'
          simp only [Option.some.injEq, Cell.mk.injEq] at hcell'
          obtain ⟨hvalue, rfl⟩ := hcell'
          rw [ih hrest hrest', Prod.ext haddr hvalue]

/-- A list that ends visits no cell twice. -/
theorem Segment.nodup (h : Segment cells p l none) :
    (l.map Prod.fst).Nodup := by
  induction l generalizing p with
  | nil => exact List.nodup_nil
  | cons c rest ih =>
      have hwhole := h
      obtain ⟨hp, next, hcell, hrest⟩ := h
      rw [List.map_cons, List.nodup_cons]
      refine ⟨fun hmem => ?_, ih hrest⟩
      -- Visited again, the cell would start the same list from further on.
      obtain ⟨c', hc', haddr⟩ := List.mem_map.1 hmem
      obtain ⟨front, back, hsplit⟩ := List.append_of_mem hc'
      rw [hsplit] at hrest
      obtain ⟨m, _, hback⟩ := segment_append.1 hrest
      have hm : m = p := hback.1.trans (by rw [haddr, ← hp])
      have hsame := Segment.unique hwhole (hm ▸ hback)
      have hlength := congrArg List.length hsame
      rw [hsplit] at hlength
      simp only [List.length_cons, List.length_append] at hlength
      omega

end Segment

/-- Among cells visited once each, those not taken are those kept. -/
theorem mem_keys_filter_not {ι : Type*} {l : List (ι × α)}
    (h : (l.map Prod.fst).Nodup) (taken : ι × α → Bool) (a : ι) :
    (a ∈ l.map Prod.fst ∧ a ∉ (l.filter taken).map Prod.fst) ↔
      a ∈ (l.filter fun c => !taken c).map Prod.fst := by
  have hinj := List.inj_on_of_nodup_map h
  simp only [List.mem_map, List.mem_filter]
  constructor
  · rintro ⟨⟨c, hc, rfl⟩, hnot⟩
    refine ⟨c, ⟨hc, ?_⟩, rfl⟩
    by_contra hkept
    exact hnot ⟨c, ⟨hc, by simpa using hkept⟩, rfl⟩
  · rintro ⟨c, ⟨hc, hkept⟩, rfl⟩
    refine ⟨⟨c, hc, rfl⟩, ?_⟩
    rintro ⟨c', ⟨hc', htaken⟩, haddr⟩
    rw [hinj hc' hc haddr] at htaken
    simp [htaken] at hkept

/-- The link that is met behind these cells. -/
def LinkRef.Behind : LinkRef → List (Addr × α) → Prop
  | .head, l => l = []
  | .next a, l => ∃ front v, l = front ++ [(a, v)]

namespace LinkedHeap

variable {s : LinkedHeap α} {front : List (Addr × α)} {p : Option Addr}

theorem load_of_cell {a : Addr} {c : Cell α} (h : s.cells a = some c) :
    s.load a = .ok c := by
  simp [load, h]

/-- Redirecting the link behind some cells: they now lead to the new pointer,
and no other cell is touched. -/
theorem setLink_spec {link : LinkRef} (hlink : link.Behind front)
    (hnodup : (front.map Prod.fst).Nodup)
    (h : Segment s.cells s.head front p) (p' : Option Addr) :
    ∃ s', s.setLink link p' = .ok s' ∧ Segment s'.cells s'.head front p' ∧
      (∀ a ∉ front.map Prod.fst, s'.cells a = s.cells a) ∧
      ∀ a, (s'.cells a).isSome = (s.cells a).isSome := by
  cases link with
  | head =>
      obtain rfl : front = [] := hlink
      exact ⟨{ s with head := p' }, rfl, rfl, fun _ _ => rfl, fun _ => rfl⟩
  | next a =>
      obtain ⟨before, v, rfl⟩ := hlink
      obtain ⟨m, hbefore, rfl, next, hcell, hnext⟩ := segment_append.1 h
      have hfresh : a ∉ before.map Prod.fst := by
        rw [List.map_append, List.nodup_append] at hnodup
        exact fun ha => hnodup.2.2 a ha a (by simp) rfl
      refine ⟨{ s with
        cells := Function.update s.cells a (some ⟨v, p'⟩) }, ?_, ?_, ?_, ?_⟩
      · simp only [setLink, load_of_cell hcell]
        rfl
      · refine segment_append.2 ⟨some a, hbefore.frame fun b hb => ?_, rfl, p',
          Function.update_self .., rfl⟩
        apply Function.update_of_ne
        rintro rfl
        exact hfresh hb
      · intro b hb
        apply Function.update_of_ne
        rintro rfl
        exact hb (by simp)
      · intro b
        by_cases hba : b = a
        · subst hba
          simp [hcell]
        · simp [hba]

theorem free_spec {a : Addr} (h : (s.cells a).isSome) :
    s.free a =
      .ok { s with cells := Function.update s.cells a none } := by
  obtain ⟨c, hcell⟩ := Option.isSome_iff_exists.1 h
  simp [free, hcell]

/-- Taking a cell out of the list through the link in front of it, and freeing
it. -/
theorem unlink_spec {link : LinkRef} {cur : Addr} {v : α}
    {next : Option Addr} {back : List (Addr × α)} (hlink : link.Behind front)
    (hnodup : ((front ++ (cur, v) :: back).map Prod.fst).Nodup)
    (hfront : Segment s.cells s.head front (some cur))
    (hcell : s.cells cur = some ⟨v, next⟩)
    (hback : Segment s.cells next back none) :
    ∃ s₁ s₂, s.setLink link next = .ok s₁ ∧ s₁.free cur = .ok s₂ ∧
      Segment s₂.cells s₂.head front next ∧
      Segment s₂.cells next back none ∧
      ∀ a, (s₂.cells a).isSome ↔ (s.cells a).isSome ∧ a ≠ cur := by
  rw [List.map_append, List.map_cons, List.nodup_append, List.nodup_cons]
    at hnodup
  obtain ⟨hfrontNodup, ⟨hcurBack, _⟩, hdisjoint⟩ := hnodup
  have hcurFront : cur ∉ front.map Prod.fst := fun h =>
    hdisjoint cur h cur List.mem_cons_self rfl
  obtain ⟨s₁, hset, hfront₁, hframe, hlive⟩ :=
    setLink_spec hlink hfrontNodup hfront next
  have hcur₁ : (s₁.cells cur).isSome := by simp [hlive, hcell]
  have hother : ∀ l : List (Addr × α), cur ∉ l.map Prod.fst →
      ∀ a ∈ l.map Prod.fst,
        Function.update s₁.cells cur none a = s₁.cells a := by
    intro l hl a ha
    apply Function.update_of_ne
    rintro rfl
    exact hl ha
  refine ⟨s₁, _, hset, free_spec hcur₁, ?_, ?_, ?_⟩
  · exact hfront₁.frame (hother front hcurFront)
  · refine hback.frame fun a ha => (hother back hcurBack a ha).trans ?_
    apply hframe
    exact fun h => hdisjoint a h a (List.mem_cons_of_mem _ ha) rfl
  · intro a
    by_cases ha : a = cur
    · subst ha
      simp
    · simp [ha, hlive]

/-! ### Cells beside the list -/

def beside (s : LinkedHeap α) (rest : Addr → Option (Cell α)) : LinkedHeap α :=
  { s with cells := fun a => (s.cells a).or (rest a) }

/-- The further cells are at other addresses. -/
def Apart (s : LinkedHeap α) (rest : Addr → Option (Cell α)) : Prop :=
  ∀ a c, rest a = some c → s.cells a = none

variable {s' : LinkedHeap α} {rest : Addr → Option (Cell α)} {a : Addr}

theorem beside_cells_eq_none :
    (s.beside rest).cells a = none ↔ s.cells a = none ∧ rest a = none :=
  Option.or_eq_none_iff

theorem beside_load {c : Cell α} (h : s.load a = .ok c) :
    (s.beside rest).load a = .ok c := by
  unfold load at h ⊢
  cases hcell : s.cells a with
  | none => simp [hcell] at h
  | some c' =>
      simp only [hcell] at h
      simp only [beside, hcell, Option.some_or]
      exact h

theorem beside_setLink {link : LinkRef} {p : Option Addr}
    (h : s.setLink link p = .ok s') :
    (s.beside rest).setLink link p = .ok (s'.beside rest) := by
  cases link with
  | head =>
      obtain rfl := Except.ok.inj h
      rfl
  | next a =>
      cases hload : s.load a with
      | error fault => simp [setLink, hload, bind, Except.bind] at h
      | ok c =>
          simp only [setLink, hload] at h
          obtain rfl := Except.ok.inj h
          simp only [setLink, beside_load hload]
          refine congrArg Except.ok (congrArg (LinkedHeap.mk s.head) ?_)
          funext b
          by_cases hb : b = a
          · simp [hb, beside]
          · simp [hb, beside]

/-- A cell of the list is freed, and those beside it stay. -/
theorem beside_free (hapart : s.Apart rest) (h : s.free a = .ok s') :
    (s.beside rest).free a = .ok (s'.beside rest) := by
  unfold free at h ⊢
  cases hcell : s.cells a with
  | none => simp [hcell] at h
  | some c =>
      have hrest : rest a = none := by
        by_contra hsome
        obtain ⟨c', hc'⟩ := Option.ne_none_iff_exists'.1 hsome
        rw [hapart a c' hc'] at hcell
        cases hcell
      simp only [hcell] at h
      obtain rfl := Except.ok.inj h
      simp only [beside, hcell, Option.some_or]
      refine congrArg Except.ok (congrArg (LinkedHeap.mk s.head) ?_)
      funext b
      by_cases hb : b = a
      · simp [hb, hrest]
      · simp [hb]

/-- A cell is allocated beside the list. -/
theorem beside_alloc (s : LinkedHeap α) {rest : Addr → Option (Cell α)}
    {a : Addr} (h : s.cells a = none) (v : α) :
    (s.beside rest).alloc a v =
      s.beside (Function.update rest a (some ⟨v, none⟩)) := by
  refine congrArg (LinkedHeap.mk s.head) ?_
  funext b
  by_cases hb : b = a
  · simp [hb, h]
  · simp [hb, beside]

/-- A cell from beside the list becomes one of its heap: nothing is written. -/
theorem alloc_beside (s : LinkedHeap α) {rest : Addr → Option (Cell α)}
    {a : Addr} {v : α} (hcell : s.cells a = none)
    (hrest : rest a = some ⟨v, none⟩) :
    (s.alloc a v).beside (Function.update rest a none) = s.beside rest := by
  refine congrArg (LinkedHeap.mk s.head) ?_
  funext b
  by_cases hb : b = a
  · simp [hb, alloc, hcell, hrest]
  · simp [hb, alloc]

end LinkedHeap

end FremSoft
