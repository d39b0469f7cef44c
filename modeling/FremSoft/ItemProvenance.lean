/-
Whose block an event item is.  `PDUGetEventItem` checks the mode and hands out
a block of FremSoft's; `PDUDestroyItem` is one of the generated forwarders and
takes whatever it is given to the real DLL.  A pointer carries its provenance
here: it is the number of a block of FremSoft's, or any other address.
-/
import FremSoft.Cancel

namespace FremSoft

universe u v

variable {ρ : Type u} {κ : Type v}

/-- An item pointer: to the block of a call of `fremsoft_PDUGetEventItem`,
numbered in the order of allocation, or to something else. -/
inductive ItemPtr where
  | block (b : Nat)
  | address (p : VoidPtr)
deriving DecidableEq, Repr

def ItemPtr.null : ItemPtr := .address 0

/-- The real DLL with what it does to items: where the item is that it hands
out, `PDUDestroyItem`, and the pointers among the arguments of a call. -/
structure ItemDll (ρ : Type u) (κ : Type v) extends RealDll ρ κ where
  itemAddress : ρ → VoidPtr
  destroyItem : ρ → ItemPtr → ρ × TPduError
  pointers : κ → List ItemPtr

/-- The process, and how many blocks FremSoft has allocated for items. -/
structure ItemState (ρ : Type u) where
  shim : ShimState ρ
  blocks : Nat

def ItemState.init (shim : ShimState ρ) : ItemState ρ := { shim, blocks := 0 }

def ItemState.isMinted (s : ItemState ρ) : ItemPtr → Bool
  | .block b => decide (b < s.blocks)
  | .address _ => false

@[simp] theorem ItemState.isMinted_block (s : ItemState ρ) (b : Nat) :
    s.isMinted (.block b) = true ↔ b < s.blocks :=
  decide_eq_true_iff

@[simp] theorem ItemState.isMinted_address (s : ItemState ρ) (p : VoidPtr) :
    s.isMinted (.address p) = false := rfl

inductive ItemCall (κ : Type v) where
  | api (call : ApiCall κ)
  | destroyItem (pItem : ItemPtr)

/-- What a call gives back and what became of the items in it: the one that
FremSoft allocated, the one the client got, the one it asked to destroy, those
that FremSoft freed, and those that a function of the real DLL was given. -/
structure ItemTrace where
  ret : ApiReturn
  minted : Option ItemPtr
  handedOut : Option ItemPtr
  destroys : Option ItemPtr
  released : List ItemPtr
  toReal : List ItemPtr
deriving DecidableEq, Repr

/-- The pointers that the export behind a call passes on to the real DLL. -/
def ApiCall.pointers (dll : ItemDll ρ κ) : ApiCall κ → List ItemPtr
  | .ioCtl _ call _ => dll.pointers call
  | .setComParam _ call _ => dll.pointers call
  | .other call => dll.pointers call
  | _ => []

/-- A call of one of the exports of the shim with the item pointers in it. -/
def itemApiCall (dll : ItemDll ρ κ) (s : ItemState ρ) (call : ApiCall κ) :
    ItemState ρ × ItemTrace :=
  let (shim, ret) := apiCall dll.toRealDll s.shim call
  if s.shim.frem.gMode.servesReplies then
    let minted := ret.item.map fun _ => ItemPtr.block s.blocks
    ({ shim, blocks := s.blocks + minted.toList.length },
      { ret, minted, handedOut := minted, destroys := none, released := []
        toReal := call.pointers dll })
  else
    ({ s with shim },
      { ret, minted := none
        handedOut := ret.item.map fun _ =>
          .address (dll.itemAddress s.shim.real)
        destroys := none, released := [], toReal := call.pointers dll })

/-- `PDUDestroyItem`: a naked jump to the real DLL, in every mode.  No export
calls `fremsoft_PDUDestroyItem`, so FremSoft frees nothing. -/
def pduDestroyItem (dll : ItemDll ρ κ) (s : ItemState ρ) (pItem : ItemPtr) :
    ItemState ρ × ItemTrace :=
  let (real, status) := dll.destroyItem s.shim.real pItem
  ({ s with shim := { s.shim with real } },
    { ret := .status status, minted := none, handedOut := none
      destroys := some pItem, released := [], toReal := [pItem] })

def itemMachine (dll : ItemDll ρ κ) :
    Machine (ItemState ρ) (ItemCall κ) ItemTrace :=
  { step := fun s call =>
      let (s', trace) :=
        match call with
        | .api call => itemApiCall dll s call
        | .destroyItem pItem => pduDestroyItem dll s pItem
      some (s', [trace]) }

/-- FremSoft's items stay with FremSoft: what is handed out was minted in the
same call, and a minted pointer is released when the client destroys it and
never reaches the real DLL. -/
structure ProvenanceKept (outs : List ItemTrace) : Prop where
  minted : ∀ c ∈ outs, ∀ p ∈ c.handedOut, c.minted = some p
  apart : outs.Pairwise fun earlier later => ∀ p ∈ earlier.minted,
    (later.destroys = some p → later.released = [p]) ∧ p ∉ later.toReal

/-- The client gives no item of FremSoft's to an export that forwards. -/
def KeepsItems (dll : ItemDll ρ κ) (s : ItemState ρ) : ItemCall κ → Prop
  | .api call => ∀ p ∈ call.pointers dll, s.isMinted p = false
  | .destroyItem p => s.isMinted p = false

instance (dll : ItemDll ρ κ) (s : ItemState ρ) :
    (call : ItemCall κ) → Decidable (KeepsItems dll s call)
  | .api call =>
      inferInstanceAs (Decidable (∀ p ∈ call.pointers dll, _ = false))
  | .destroyItem _ => inferInstanceAs (Decidable (_ = false))

/-! ### One call -/

/-- What a call after the state `s` must not do to the pointers minted. -/
structure ItemTrace.Respects (c : ItemTrace) (s : ItemState ρ) : Prop where
  minted : ∀ p ∈ c.handedOut, c.minted = some p
  apart : ∀ p, s.isMinted p = true →
    (c.destroys = some p → c.released = [p]) ∧ p ∉ c.toReal

theorem provenanceKept_concat {s : ItemState ρ} {seen : List ItemTrace}
    (hminted : ∀ p, (∃ e ∈ seen, p ∈ e.minted) ↔ s.isMinted p = true)
    (c : ItemTrace) :
    ProvenanceKept (seen ++ [c]) ↔ ProvenanceKept seen ∧ c.Respects s := by
  constructor
  · rintro ⟨hall, hpairs⟩
    obtain ⟨hseen, _, hlast⟩ := List.pairwise_append.1 hpairs
    refine ⟨⟨fun e he => hall e (List.mem_append_left _ he), hseen⟩,
      ⟨hall c (by simp), ?_⟩⟩
    intro p hp
    obtain ⟨e, he, hep⟩ := (hminted p).2 hp
    exact hlast e he c (List.mem_singleton_self c) p hep
  · rintro ⟨⟨hall, hseen⟩, hlast⟩
    constructor
    · intro e he
      rcases List.mem_append.1 he with he | he
      · exact hall e he
      · rw [List.mem_singleton.1 he]
        exact hlast.minted
    · refine List.pairwise_append.2
        ⟨hseen, List.pairwise_singleton .., ?_⟩
      intro e he d hd p hp
      rw [List.mem_singleton.1 hd]
      exact hlast.apart p ((hminted p).1 ⟨e, he, hp⟩)

theorem itemApiCall_respects_iff (dll : ItemDll ρ κ) {s : ItemState ρ}
    (hserves : s.shim.frem.gMode.servesReplies = true) (call : ApiCall κ) :
    (itemApiCall dll s call).2.Respects s ↔
      ∀ p ∈ call.pointers dll, s.isMinted p = false := by
  simp only [itemApiCall, hserves, if_true]
  constructor
  · rintro ⟨_, hapart⟩ p hp
    by_contra hminted
    exact (hapart p (by simpa using hminted)).2 hp
  · intro hnone
    refine ⟨fun p hp => hp, fun p hp => ⟨by simp, fun hmem => ?_⟩⟩
    rw [hnone p hmem] at hp
    cases hp

theorem pduDestroyItem_respects_iff (dll : ItemDll ρ κ) (s : ItemState ρ)
    (pItem : ItemPtr) : (pduDestroyItem dll s pItem).2.Respects s ↔
      s.isMinted pItem = false := by
  constructor
  · rintro ⟨_, hapart⟩
    by_contra hminted
    exact (hapart pItem (by simpa using hminted)).2 (List.mem_singleton_self _)
  · intro hnone
    refine ⟨by simp [pduDestroyItem], fun p hp => ?_⟩
    have hne : p ≠ pItem := by
      rintro rfl
      rw [hnone] at hp
      cases hp
    simp [pduDestroyItem, hne, hne.symm]

/-! ### Every run -/

/-- The process serves replies, and the pointers minted so far are known. -/
structure ItemInv (s : ItemState ρ) (seen : List ItemTrace) : Prop where
  serves : s.shim.frem.gMode.servesReplies = true
  minted : ∀ p, (∃ e ∈ seen, p ∈ e.minted) ↔ s.isMinted p = true

theorem itemInv_init {shim : ShimState ρ}
    (hmode : shim.frem.gMode = .playback) : ItemInv (.init shim) [] where
  serves := by simp [ItemState.init, hmode, FremsoftMode.servesReplies]
  minted := by
    rintro (b | p) <;> simp [ItemState.init]

theorem ItemInv.api (dll : ItemDll ρ κ) {s : ItemState ρ}
    {seen : List ItemTrace} (hinv : ItemInv s seen) (call : ApiCall κ) :
    ItemInv (itemApiCall dll s call).1
      (seen ++ [(itemApiCall dll s call).2]) := by
  constructor
  · simp only [itemApiCall, hinv.serves, if_true]
    rw [apiCall_frem _ hinv.serves, fremsoftCall_gMode, hinv.serves]
  · intro p
    simp only [itemApiCall, hinv.serves, if_true, List.mem_append,
      List.mem_singleton, or_and_right, exists_or, hinv.minted p,
      exists_eq_left]
    cases (apiCall dll.toRealDll s.shim call).2.item with
    | none => cases p <;> simp
    | some item =>
        cases p with
        | address p => simp
        | block b =>
            simp only [ItemState.isMinted_block, Option.map_some,
              Option.toList_some, List.length_singleton, Option.mem_some_iff,
              ItemPtr.block.injEq]
            omega

theorem ItemInv.of_same {s s' : ItemState ρ} {seen : List ItemTrace}
    {c : ItemTrace} (hinv : ItemInv s seen)
    (hfrem : s'.shim.frem = s.shim.frem) (hblocks : s'.blocks = s.blocks)
    (hminted : c.minted = none) : ItemInv s' (seen ++ [c]) where
  serves := by rw [hfrem, hinv.serves]
  minted := by
    intro p
    have hsame : s'.isMinted p = s.isMinted p := by
      cases p <;> simp [ItemState.isMinted, hblocks]
    rw [hsame, ← hinv.minted p]
    simp [or_and_right, exists_or, hminted]

/-- FremSoft's items stay with FremSoft exactly in those runs in which no call
gives one to an export that forwards, and `PDUDestroyItem` is such an export. -/
theorem provenanceKept_iff_of_run (dll : ItemDll ρ κ) {shim : ShimState ρ}
    {t : ItemState ρ} {calls : List (ItemCall κ)} {outs : List ItemTrace}
    (hmode : shim.frem.gMode = .playback)
    (hrun : (itemMachine dll).run (.init shim) calls = some (t, outs)) :
    ProvenanceKept outs ↔
      (itemMachine dll).Meets (KeepsItems dll) (.init shim) calls := by
  refine Machine.run_property_iff_meets (I := ItemInv) ?_ hrun
    (itemInv_init hmode) ⟨by simp, List.Pairwise.nil⟩
  intro s seen call s' out hinv hstep
  cases call with
  | api call =>
      simp only [itemMachine, Option.some.injEq, Prod.mk.injEq] at hstep
      obtain ⟨rfl, rfl⟩ := hstep
      refine ⟨hinv.api dll call, ?_⟩
      rw [provenanceKept_concat hinv.minted,
        itemApiCall_respects_iff dll hinv.serves]
      rfl
  | destroyItem pItem =>
      simp only [itemMachine, Option.some.injEq, Prod.mk.injEq] at hstep
      obtain ⟨rfl, rfl⟩ := hstep
      refine ⟨hinv.of_same rfl rfl rfl, ?_⟩
      rw [provenanceKept_concat hinv.minted, pduDestroyItem_respects_iff]
      rfl

/-- A real DLL that keeps no state and gives every item the same address. -/
def quietItemDll : ItemDll Unit Unit :=
  { quietDll with
    itemAddress := fun _ => 0x5000
    destroyItem := fun _ _ => ((), 0)
    pointers := fun _ => [] }

/-- A probe, the poll that fetches its answer, and then an item destroyed. -/
def destroyAfterProbe (pItem : ItemPtr) : List (ItemCall Unit) :=
  (answeredProbe 1000).map .api ++ [.destroyItem pItem]

/-- The client destroys what it was handed, and the real DLL gets the block. -/
theorem answered_item_reaches_real_dll :
    ∃ t outs, (itemMachine quietItemDll).run
        (.init blankPlayback) (destroyAfterProbe (.block 0)) = some (t, outs) ∧
      outs.map ItemTrace.handedOut = [none, some (.block 0), none] ∧
      outs.map ItemTrace.toReal = [[], [], [.block 0]] ∧
      outs.map ItemTrace.released = [[], [], []] ∧
      ¬ProvenanceKept outs := by
  have hruns : ((itemMachine quietItemDll).run
      (.init blankPlayback) (destroyAfterProbe (.block 0))).isSome = true := by
    decide
  have hrun := (Option.some_get hruns).symm
  refine ⟨_, _, hrun, by decide, by decide, by decide, ?_⟩
  intro hkept
  exact (by decide : ¬List.Pairwise _ _) hkept.apart

/-- The client fetches the item and destroys nothing. -/
theorem provenanceKept_of_answered_probe :
    ∃ t outs, (itemMachine quietItemDll).run
        (.init blankPlayback) (destroyAfterProbe .null) = some (t, outs) ∧
      outs.map ItemTrace.handedOut = [none, some (.block 0), none] ∧
      ProvenanceKept outs := by
  have hruns : ((itemMachine quietItemDll).run
      (.init blankPlayback) (destroyAfterProbe .null)).isSome = true := by
    decide
  have hrun := (Option.some_get hruns).symm
  refine ⟨_, _, hrun, by decide, ?_⟩
  exact (provenanceKept_iff_of_run quietItemDll rfl hrun).2 (by decide)

end FremSoft
