/-
Stores at any place of a block, and little-endian words in a block of bytes.
Stores that do not overlap are all there afterwards, in whatever order they were
made, and what none of them covers is as it was.
-/
import FremSoft.Lib.Cells
import Mathlib.Algebra.Group.Nat.Defs

namespace FremSoft

variable {ε α : Type}

/-! ### Stores -/

/-- The block with other cells from `off` on. -/
def overwrite (block : List α) (off : Nat) (cells : List α) : List α :=
  block.take off ++ (cells ++ block.drop (off + cells.length))

/-- `memcpy` to `block + off`, or the fault. -/
def storeAt (fault : ε) (block : List α) (off : Nat) (cells : List α) :
    Except ε (List α) :=
  if off + cells.length ≤ block.length then .ok (overwrite block off cells)
  else .error fault

def storeAll (fault : ε) (block : List α) :
    List (Nat × List α) → Except ε (List α)
  | [] => .ok block
  | store :: rest => do
      let block ← storeAt fault block store.1 store.2
      storeAll fault block rest

/-- The cells `[off, off + len)`. -/
def span (block : List α) (off len : Nat) : List α := (block.drop off).take len

/-- The store and the cells have nothing in common. -/
def Apart (store : Nat × List α) (off len : Nat) : Prop :=
  off + len ≤ store.1 ∨ store.1 + store.2.length ≤ off

section Overwrite

variable {block cells : List α} {off : Nat}

theorem length_overwrite (h : off + cells.length ≤ block.length) :
    (overwrite block off cells).length = block.length := by
  simp only [overwrite, List.length_append, List.length_take, List.length_drop]
  omega

theorem span_overwrite_same (h : off + cells.length ≤ block.length) :
    span (overwrite block off cells) off cells.length = cells := by
  have hoff : (block.take off).length = off := by
    rw [List.length_take]
    omega
  rw [span, overwrite, List.drop_append_of_le_length (by omega),
    List.drop_of_length_le (by omega), List.nil_append,
    List.take_append_of_le_length (Nat.le_refl _), List.take_length]

theorem span_overwrite_of_disjoint (h : off + cells.length ≤ block.length)
    {off' len : Nat} (hdisjoint : Apart (off, cells) off' len) :
    span (overwrite block off cells) off' len = span block off' len := by
  refine List.ext_getElem? fun i => ?_
  by_cases hi : i < len
  · have hget : ∀ l : List α, (span l off' len)[i]? = l[off' + i]? := by
      intro l
      rw [span, List.getElem?_take_of_lt hi, List.getElem?_drop]
    rw [hget, hget, overwrite]
    rcases hdisjoint with hbefore | hafter
    · have hlt : off' + i < off := by
        have : off' + len ≤ off := hbefore
        omega
      rw [List.getElem?_append_left (by rw [List.length_take]; omega),
        List.getElem?_take_of_lt hlt]
    · have hle : off + cells.length ≤ off' + i := by
        have : off + cells.length ≤ off' := hafter
        omega
      have hoff : (block.take off).length = off := by
        rw [List.length_take]
        omega
      rw [List.getElem?_append_right (by omega), hoff,
        List.getElem?_append_right (by omega), List.getElem?_drop]
      congr 1
      omega
  · rw [span, span, List.getElem?_take_eq_none (by omega),
      List.getElem?_take_eq_none (by omega)]

end Overwrite

/-- A list of stores that fit into the block. -/
theorem storeAll_spec (fault : ε) {block : List α}
    {stores : List (Nat × List α)}
    (hfits : ∀ store ∈ stores, store.1 + store.2.length ≤ block.length)
    (hapart : stores.Pairwise fun store later =>
      Apart later store.1 store.2.length) :
    ∃ block', storeAll fault block stores = .ok block' ∧
      block'.length = block.length ∧
      (∀ store ∈ stores, span block' store.1 store.2.length = store.2) ∧
      ∀ off len, (∀ store ∈ stores, Apart store off len) →
        span block' off len = span block off len := by
  induction stores generalizing block with
  | nil => exact ⟨block, rfl, rfl, by simp, fun _ _ _ => rfl⟩
  | cons store rest ih =>
      obtain ⟨hfirst, hrest⟩ := List.forall_mem_cons.1 hfits
      obtain ⟨hclear, hapart⟩ := List.pairwise_cons.1 hapart
      have hlength := length_overwrite hfirst
      obtain ⟨block', hstores, hlength', hsame, hother⟩ :=
        @ih (overwrite block store.1 store.2)
          (by simpa only [hlength] using hrest) hapart
      refine ⟨block', ?_, hlength'.trans hlength, ?_, ?_⟩
      · rw [storeAll, storeAt, if_pos hfirst, ok_bind, hstores]
      · refine List.forall_mem_cons.2 ⟨?_, hsame⟩
        rw [hother _ _ hclear, span_overwrite_same hfirst]
      · intro off len hdisjoint
        obtain ⟨hstore, hdisjoint⟩ := List.forall_mem_cons.1 hdisjoint
        rw [hother off len hdisjoint,
          span_overwrite_of_disjoint hfirst hstore]

/-- A store beside the block is a fault. -/
theorem storeAll_fault (fault : ε) {block : List α}
    {stores : List (Nat × List α)} {store : Nat × List α}
    (hstore : store ∈ stores)
    (hbeside : block.length < store.1 + store.2.length) :
    storeAll fault block stores = .error fault := by
  induction stores generalizing block with
  | nil => cases hstore
  | cons first rest ih =>
      rw [storeAll, storeAt]
      by_cases hfits : first.1 + first.2.length ≤ block.length
      · rw [if_pos hfits, ok_bind]
        rcases List.mem_cons.1 hstore with rfl | hstore
        · omega
        · exact ih hstore (by rwa [length_overwrite hfits])
      · rw [if_neg hfits]
        rfl

/-! ### Words -/

/-- The `width` bytes of a number, the lowest first. -/
def leBytes : Nat → Nat → List UInt8
  | 0, _ => []
  | width + 1, n => UInt8.ofNat n :: leBytes width (n / 256)

def ofLeBytes : List UInt8 → Nat
  | [] => 0
  | b :: rest => b.toNat + 256 * ofLeBytes rest

@[simp] theorem length_leBytes (width n : Nat) :
    (leBytes width n).length = width := by
  induction width generalizing n with
  | zero => rfl
  | succ width ih => rw [leBytes, List.length_cons, ih]

theorem ofLeBytes_leBytes {width n : Nat} (h : n < 256 ^ width) :
    ofLeBytes (leBytes width n) = n := by
  induction width generalizing n with
  | zero => simp only [leBytes, ofLeBytes]; omega
  | succ width ih =>
      rw [leBytes, ofLeBytes, ih (by rw [Nat.pow_succ] at h; omega),
        UInt8.toNat_ofNat']
      omega

def wordBytes (w : UInt32) : List UInt8 := leBytes 4 w.toNat

def wordOf (bytes : List UInt8) : UInt32 := UInt32.ofNat (ofLeBytes bytes)

@[simp] theorem length_wordBytes (w : UInt32) : (wordBytes w).length = 4 :=
  length_leBytes 4 w.toNat

@[simp] theorem wordOf_wordBytes (w : UInt32) : wordOf (wordBytes w) = w := by
  rw [wordOf, wordBytes, ofLeBytes_leBytes (by simpa using w.toNat_lt),
    UInt32.ofNat_toNat]

end FremSoft
