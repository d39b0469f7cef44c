/-
Two ways to cut a list: into segments at the elements that open one, and at the
first place where a chain breaks.
-/
import Mathlib.Data.List.Chain
import Mathlib.Data.List.TakeWhile

namespace FremSoft

universe u

variable {α : Type u}

/-! ### Segments -/

/-- Each element that opens a segment, with the elements up to the next. -/
def segments (opens : α → Bool) : List α → List (α × List α)
  | [] => []
  | a :: rest =>
      if opens a then
        (a, rest.takeWhile fun b => !opens b) :: segments opens rest
      else segments opens rest

/-- The elements in front of the first segment. -/
def unopened (opens : α → Bool) (l : List α) : List α :=
  l.takeWhile fun a => !opens a

/-- Nothing is lost, and nothing reordered. -/
theorem unopened_append_segments (opens : α → Bool) (l : List α) :
    unopened opens l ++
      (segments opens l).flatMap (fun run => run.1 :: run.2) = l := by
  induction l with
  | nil => rfl
  | cons a rest ih =>
      cases ha : opens a with
      | true =>
          rw [segments, if_pos ha, List.flatMap_cons, unopened,
            List.takeWhile_cons_of_neg (by simp [ha]), List.nil_append,
            List.cons_append]
          exact congrArg (List.cons a) ih
      | false =>
          rw [segments, if_neg (by simp [ha]), unopened,
            List.takeWhile_cons_of_pos (by simp [ha]), List.cons_append]
          exact congrArg (List.cons a) ih

theorem unopened_closed {opens : α → Bool} {l : List α} :
    ∀ a ∈ unopened opens l, opens a = false := by
  intro a ha
  simpa using List.mem_takeWhile_imp ha

theorem segments_open {opens : α → Bool} {l : List α} {run : α × List α}
    (h : run ∈ segments opens l) :
    opens run.1 = true ∧ ∀ a ∈ run.2, opens a = false := by
  induction l with
  | nil => simp [segments] at h
  | cons a rest ih =>
      rw [segments] at h
      split at h
      · next ha =>
        rcases List.mem_cons.1 h with rfl | h
        · exact ⟨ha, unopened_closed⟩
        · exact ih h
      · exact ih h

/-- One segment for each element that opens one, in order. -/
theorem segments_map_fst (opens : α → Bool) (l : List α) :
    (segments opens l).map Prod.fst = l.filter opens := by
  induction l with
  | nil => rfl
  | cons a rest ih =>
      rw [segments]
      split
      · next ha => rw [List.map_cons, ih, List.filter_cons_of_pos ha]
      · next ha => rw [ih, List.filter_cons_of_neg ha]

/-- A front of the list without an opening element is in front of the first
segment. -/
theorem isPrefix_unopened_iff {opens : α → Bool} {front l : List α} :
    front <+: unopened opens l ↔
      front <+: l ∧ ∀ a ∈ front, opens a = false := by
  constructor
  · intro hfront
    exact ⟨hfront.trans (List.takeWhile_prefix _),
      fun a ha => unopened_closed a (hfront.subset ha)⟩
  · rintro ⟨⟨back, rfl⟩, hclosed⟩
    rw [unopened, List.takeWhile_append_of_pos fun a ha => by simp [hclosed a ha]]
    exact List.prefix_append _ _

/-! ### Chains -/

section Chain

variable {r : α → α → Prop} [DecidableRel r]

/-- The elements that continue a chain from `a`, up to where it breaks. -/
def chainFrom (r : α → α → Prop) [DecidableRel r] (a : α) : List α → List α
  | [] => []
  | b :: rest => if r a b then b :: chainFrom r b rest else []

theorem chainFrom_isPrefix (a : α) (l : List α) : chainFrom r a l <+: l := by
  induction l generalizing a with
  | nil => exact List.prefix_rfl
  | cons b rest ih =>
      rw [chainFrom]
      split
      · exact List.cons_prefix_cons.2 ⟨rfl, ih b⟩
      · exact List.nil_prefix

theorem isChain_chainFrom (a : α) (l : List α) :
    (a :: chainFrom r a l).IsChain r := by
  induction l generalizing a with
  | nil => exact .singleton a
  | cons b rest ih =>
      rw [chainFrom]
      split
      · next hr => exact .cons_cons hr (ih b)
      · exact .singleton a

/-- No longer front of the list continues the chain. -/
theorem isPrefix_chainFrom {a : α} {l front : List α} (hfront : front <+: l)
    (hchain : (a :: front).IsChain r) : front <+: chainFrom r a l := by
  induction l generalizing a front with
  | nil => rw [List.prefix_nil.1 hfront]; exact List.nil_prefix
  | cons b rest ih =>
      cases front with
      | nil => exact List.nil_prefix
      | cons c front =>
          obtain ⟨rfl, hrest⟩ := List.cons_prefix_cons.1 hfront
          rw [List.isChain_cons_cons] at hchain
          rw [chainFrom, if_pos hchain.1]
          exact List.cons_prefix_cons.2 ⟨rfl, ih hrest hchain.2⟩

/-- The fronts of the chain are the fronts of the list that continue it. -/
theorem isPrefix_chainFrom_iff {a : α} {l front : List α} :
    front <+: chainFrom r a l ↔
      front <+: l ∧ (a :: front).IsChain r := by
  constructor
  · intro hfront
    refine ⟨hfront.trans (chainFrom_isPrefix a l), ?_⟩
    have hchain := isChain_chainFrom (r := r) a l
    obtain ⟨back, hback⟩ := hfront
    rw [← hback, ← List.cons_append] at hchain
    exact hchain.left_of_append
  · rintro ⟨hfront, hchain⟩
    exact isPrefix_chainFrom hfront hchain

omit [DecidableRel r] in
/-- The last step of a chain. -/
theorem rel_of_isChain_concat {a b : α} {front : List α}
    (hchain : (a :: (front ++ [b])).IsChain r) : r (front.getLastD a) b := by
  induction front generalizing a with
  | nil => exact (List.isChain_cons_cons.1 hchain).1
  | cons c front ih =>
      rw [List.getLastD_cons]
      exact ih (List.isChain_cons_cons.1 hchain).2

end Chain

/-- The steps along a list, from `a` to its first element and so on. -/
theorem mem_zipWith_cons_iff {β : Type u} {f : α → α → β} {a : α} {l : List α}
    {x : β} : x ∈ List.zipWith f (a :: l) l ↔
      ∃ front b, front ++ [b] <+: l ∧ x = f (front.getLastD a) b := by
  induction l generalizing a with
  | nil =>
      constructor
      · intro hx
        simp at hx
      · rintro ⟨front, b, hfront, _⟩
        simp at hfront
  | cons c rest ih =>
      rw [List.zipWith_cons_cons, List.mem_cons, ih]
      constructor
      · rintro (rfl | ⟨front, b, hfront, rfl⟩)
        · exact ⟨[], c, List.cons_prefix_cons.2 ⟨rfl, List.nil_prefix⟩, rfl⟩
        · refine ⟨c :: front, b, List.cons_prefix_cons.2 ⟨rfl, hfront⟩, ?_⟩
          rw [List.getLastD_cons]
      · rintro ⟨front, b, hfront, rfl⟩
        cases front with
        | nil =>
            obtain ⟨rfl, _⟩ := List.cons_prefix_cons.1 hfront
            exact .inl rfl
        | cons d front =>
            obtain ⟨rfl, hrest⟩ := List.cons_prefix_cons.1 hfront
            refine .inr ⟨front, b, hrest, ?_⟩
            rw [List.getLastD_cons]

end FremSoft
