/-
`decode_ssa_for_seed.py`: the key of a captured seed, from the twelve SKA tuples
of an SSA card.
-/
import Mathlib.Data.List.Dedup
import Mathlib.Data.List.Sort

namespace FremSoft

/-! ### `parse_ssa` -/

def skaOffset : Nat := 0x132

def skaCount : Nat := 12

def skaEntrySize : Nat := 8

/-- `data[start:stop]` -/
def slice (data : List UInt8) (start stop : Nat) : List UInt8 :=
  (data.take stop).drop start

/-- `struct.unpack(">H", _)` -/
def unpackH : List UInt8 → Option Nat
  | [a, b] => some (a.toNat * 256 + b.toNat)
  | _ => none

/-- `struct.unpack(">HHHH", _)` -/
def unpackHHHH : List UInt8 → Option (Nat × Nat × Nat × Nat)
  | [a, b, c, d, e, f, g, h] =>
      some (a.toNat * 256 + b.toNat, c.toNat * 256 + d.toNat,
        e.toNat * 256 + f.toNat, g.toNat * 256 + h.toNat)
  | _ => none

structure SkaTuple where
  index : Nat
  offset : Nat
  status : Nat
  algo : Nat
  seed : Nat
  key : Nat
  blank : Bool
deriving DecidableEq, Repr

structure SsaInfo where
  hwkid : List Char
  version : Nat
  freeShots : Nat
  tuples : List SkaTuple
deriving DecidableEq, Repr

/-- `decode("ascii", errors="replace")` -/
def decodeAscii (bytes : List UInt8) : List Char :=
  bytes.map fun b =>
    if b.toNat < 128 then Char.ofNat b.toNat else Char.ofNat 0xFFFD

/-- `rstrip("\\x00")` -/
def rstripNul (text : List Char) : List Char :=
  (text.reverse.dropWhile fun c => decide (c = Char.ofNat 0)).reverse

def readTuple (data : List UInt8) (i : Nat) : Option SkaTuple := do
  let off := skaOffset + i * skaEntrySize
  let (status, algo, seed, key) ←
    unpackHHHH (slice data off (off + skaEntrySize))
  some
    { index := i
      offset := off
      status
      algo
      seed
      key
      blank := decide (status = 0xFFFF ∧ algo = 0xFFFF ∧ seed = 0xFFFF ∧
        key = 0xFFFF) }

/-- The first `n` passes of the loop. -/
def readTuples (data : List UInt8) : Nat → Option (List SkaTuple)
  | 0 => some []
  | n + 1 => do
      let tuples ← readTuples data n
      let t ← readTuple data n
      some (tuples ++ [t])

/-- `parse_ssa`; a card that is too short is a `struct.error`. -/
def parseSsa (data : List UInt8) : Option SsaInfo := do
  let hwkid := rstripNul (decodeAscii (slice data 2 12))
  let version ← unpackH (slice data 0x0C 0x0E)
  let freeShots ← unpackH (slice data 0x0E 0x10)
  let tuples ← readTuples data skaCount
  some { hwkid, version, freeShots, tuples }

/-! ### `main` -/

/-- What `main` prints: one constructor for each `print` that says something of
the card or the seed. -/
inductive SsaLine where
  | unexpectedLength (length : Nat)
  | hwkid (text : List Char)
  | version (version : Nat)
  | freeShots (freeShots : Nat)
  | blank (index offset : Nat)
  | tuple (index offset status algo seed key : Nat)
  | lookingUp (target : Int)
  | found (index algo key : Nat)
  | notStored (target : Int)
  | notImportable
  | noTuples
  | computing (algos : Nat)
  | candidate (algo : Nat) (key : Int)
deriving DecidableEq, Repr

def SkaTuple.line (t : SkaTuple) : SsaLine :=
  if t.blank then .blank t.index t.offset
  else .tuple t.index t.offset t.status t.algo t.seed t.key

/-- The warning of `parse_ssa`. -/
def lengthWarning (data : List UInt8) : List SsaLine :=
  if data.length ≠ 714 then [.unexpectedLength data.length] else []

def SsaInfo.table (info : SsaInfo) : List SsaLine :=
  .hwkid info.hwkid :: .version info.version :: .freeShots info.freeShots ::
    info.tuples.map SkaTuple.line

def SsaInfo.matches (info : SsaInfo) (target : Int) : List SkaTuple :=
  info.tuples.filter fun t => !t.blank && decide ((t.seed : Int) = target)

def SsaInfo.algos (info : SsaInfo) : List Nat :=
  ((info.tuples.filter fun t => !t.blank).map SkaTuple.algo).dedup.insertionSort
    (· ≤ ·)

/-- The lookup of a seed, and the exit status.  `getKeyFromSeed` is
`security_calc.get_key_from_seed`, `none` when the module is not there. -/
def SsaInfo.lookUp (info : SsaInfo)
    (getKeyFromSeed : Option (Int → Nat → Int)) (target : Int) :
    List SsaLine × Nat :=
  let found := info.matches target
  if found ≠ [] then
    (.lookingUp target :: found.map fun m => .found m.index m.algo m.key, 0)
  else
    match getKeyFromSeed with
    | none => ([.lookingUp target, .notStored target, .notImportable], 1)
    | some getKeyFromSeed =>
        if info.algos = [] then
          ([.lookingUp target, .notStored target, .noTuples], 1)
        else
          (.lookingUp target :: .notStored target ::
            .computing info.algos.length :: info.algos.map fun algo =>
              .candidate algo (getKeyFromSeed target algo), 0)

/-- `main`, for the content of a card and the seed asked for, if any; `none`
when `parse_ssa` raises. -/
def decodeSsa (getKeyFromSeed : Option (Int → Nat → Int)) (data : List UInt8)
    (seed : Option Int) : Option (List SsaLine × Nat) := do
  let info ← parseSsa data
  let front := lengthWarning data ++ info.table
  match seed with
  | none => some (front, 0)
  | some target =>
      let (lines, status) := info.lookUp getKeyFromSeed target
      some (front ++ lines, status)

/-! ### The tuples of a card -/

/-- The big-endian word at an offset. -/
def cardWord (data : List UInt8) (off : Nat) : Nat :=
  (data.getD off 0).toNat * 256 + (data.getD (off + 1) 0).toNat

/-- The `i`-th tuple of a card, as its layout has it. -/
def skaTuple (data : List UInt8) (i : Nat) : SkaTuple :=
  let off := skaOffset + i * skaEntrySize
  let status := cardWord data off
  let algo := cardWord data (off + 2)
  let seed := cardWord data (off + 4)
  let key := cardWord data (off + 6)
  { index := i
    offset := off
    status
    algo
    seed
    key
    blank := decide (status = 0xFFFF ∧ algo = 0xFFFF ∧ seed = 0xFFFF ∧
      key = 0xFFFF) }

/-- All that a card says. -/
def cardInfo (data : List UInt8) : SsaInfo :=
  { hwkid := rstripNul (decodeAscii (slice data 2 12))
    version := cardWord data 0x0C
    freeShots := cardWord data 0x0E
    tuples := (List.range skaCount).map (skaTuple data) }

theorem slice_eq {data : List UInt8} {off n : Nat}
    (h : off + n ≤ data.length) :
    slice data off (off + n) =
      (List.range n).map fun k => data.getD (off + k) 0 := by
  apply List.ext_getElem
  · simp [slice, h]
  · intro k hk hk'
    have hn : k < n := by simpa using hk'
    simp [slice, List.getD_eq_getElem?_getD,
      List.getElem?_eq_getElem (show off + k < data.length by omega)]

theorem unpackH_slice {data : List UInt8} {off : Nat}
    (h : off + 2 ≤ data.length) :
    unpackH (slice data off (off + 2)) = some (cardWord data off) := by
  rw [slice_eq h]
  rfl

theorem readTuple_eq {data : List UInt8} {i : Nat}
    (h : skaOffset + (i + 1) * skaEntrySize ≤ data.length) :
    readTuple data i = some (skaTuple data i) := by
  have hslice : skaOffset + i * skaEntrySize + skaEntrySize ≤ data.length := by
    rw [Nat.add_assoc, ← Nat.succ_mul]
    exact h
  rw [readTuple, slice_eq hslice]
  rfl

theorem readTuples_eq {data : List UInt8} {n : Nat}
    (h : skaOffset + n * skaEntrySize ≤ data.length) :
    readTuples data n = some ((List.range n).map (skaTuple data)) := by
  induction n with
  | zero => rfl
  | succ n ih =>
      have hless : n * skaEntrySize ≤ (n + 1) * skaEntrySize :=
        Nat.mul_le_mul_right _ n.le_succ
      rw [readTuples, ih (by omega), readTuple_eq h, List.range_succ,
        List.map_append]
      rfl

/-- A card that reaches behind the tuples is read as its layout has it. -/
theorem parseSsa_eq {data : List UInt8} (h : 402 ≤ data.length) :
    parseSsa data = some (cardInfo data) := by
  have htuples : skaOffset + skaCount * skaEntrySize ≤ data.length := h
  rw [parseSsa, unpackH_slice (show 0x0C + 2 ≤ data.length by omega),
    unpackH_slice (show 0x0E + 2 ≤ data.length by omega),
    readTuples_eq htuples]
  rfl

/-! ### The answer to a seed -/

/-- A populated tuple of the seed asked for. -/
structure SkaTuple.Answers (t : SkaTuple) (target : Int) : Prop where
  populated : t.blank = false
  seed : (t.seed : Int) = target

instance (t : SkaTuple) (target : Int) : Decidable (t.Answers target) :=
  decidable_of_iff (t.blank = false ∧ (t.seed : Int) = target)
    ⟨fun h => ⟨h.1, h.2⟩, fun h => ⟨h.1, h.2⟩⟩

/-- The key that unlocks the ECU: the stored one once the tuple is stamped. -/
def SkaTuple.unlockKey (getKeyFromSeed : Int → Nat → Int) (target : Int)
    (t : SkaTuple) : Int :=
  if t.key ≠ 0xFFFF then t.key else getKeyFromSeed target t.algo

/-- The key that a line reports for the tuple `i`. -/
def SsaLine.foundKey? (i : Nat) : SsaLine → Option Int
  | .found index _ key => if index = i then some (key : Int) else none
  | _ => none

/-- The lines answer a seed: with the right key for each tuple that has it, and
if there is none with the keys of all the algorithms on the card. -/
structure AnswersSeed (getKeyFromSeed : Int → Nat → Int) (data : List UInt8)
    (target : Int) (lines : List SsaLine) : Prop where
  stored : ∀ i < skaCount, (skaTuple data i).Answers target →
    lines.filterMap (SsaLine.foundKey? i) =
      [(skaTuple data i).unlockKey getKeyFromSeed target]
  computed : (∀ i < skaCount, ¬(skaTuple data i).Answers target) →
    ∀ algo key, .candidate algo key ∈ lines ↔
      (∃ i < skaCount, (skaTuple data i).blank = false ∧
        (skaTuple data i).algo = algo) ∧ key = getKeyFromSeed target algo

/-- Every tuple of the seed is stamped, or its key is the blank word. -/
def StampedFor (getKeyFromSeed : Int → Nat → Int) (data : List UInt8)
    (target : Int) : Prop :=
  ∀ i < skaCount, (skaTuple data i).Answers target →
    (skaTuple data i).key = 0xFFFF →
      getKeyFromSeed target (skaTuple data i).algo = 0xFFFF

instance (getKeyFromSeed : Int → Nat → Int) (data : List UInt8)
    (target : Int) : Decidable (StampedFor getKeyFromSeed data target) :=
  inferInstanceAs (Decidable (∀ i < skaCount, _ → _ → _))

theorem mem_matches {data : List UInt8} {target : Int} {t : SkaTuple} :
    t ∈ (cardInfo data).matches target ↔
      (∃ i < skaCount, skaTuple data i = t) ∧ t.Answers target := by
  have hboth : (!t.blank && decide ((t.seed : Int) = target)) = true ↔
      t.Answers target := by
    rw [Bool.and_eq_true, Bool.not_eq_true', decide_eq_true_iff]
    exact ⟨fun h => ⟨h.1, h.2⟩, fun h => ⟨h.1, h.2⟩⟩
  rw [SsaInfo.matches, List.mem_filter, hboth]
  simp [cardInfo]

theorem mem_algos {data : List UInt8} {algo : Nat} :
    algo ∈ (cardInfo data).algos ↔ ∃ i < skaCount,
      (skaTuple data i).blank = false ∧ (skaTuple data i).algo = algo := by
  rw [SsaInfo.algos, List.mem_insertionSort, List.mem_dedup]
  simp [cardInfo, and_assoc]

/-- In front of the lookup no key is reported. -/
theorem front_silent {data : List UInt8} {line : SsaLine}
    (h : line ∈ lengthWarning data ++ (cardInfo data).table) (i : Nat) :
    line.foundKey? i = none ∧ ∀ algo key, line ≠ .candidate algo key := by
  rw [List.mem_append, lengthWarning] at h
  rcases h with h | h
  · split at h
    · rw [List.mem_singleton] at h
      subst h
      exact ⟨rfl, by simp⟩
    · cases h
  · simp only [SsaInfo.table, List.mem_cons, List.mem_map] at h
    rcases h with rfl | rfl | rfl | ⟨t, -, rfl⟩
    · exact ⟨rfl, by simp⟩
    · exact ⟨rfl, by simp⟩
    · exact ⟨rfl, by simp⟩
    · rw [SkaTuple.line]
      split
      · exact ⟨rfl, by simp⟩
      · exact ⟨rfl, by simp⟩

theorem filterMap_eq_singleton {α β : Type} {l : List α} (hnodup : l.Nodup)
    {a : α} (ha : a ∈ l) {g : α → Option β} {b : β} (hb : g a = some b)
    (hothers : ∀ x ∈ l, x ≠ a → g x = none) : l.filterMap g = [b] := by
  obtain ⟨front, back, rfl⟩ := List.append_of_mem ha
  have hnot := (List.nodup_middle.1 hnodup).notMem
  rw [List.mem_append, not_or] at hnot
  have hfront : front.filterMap g = [] :=
    List.filterMap_eq_nil_iff.2 fun x hx =>
      hothers x (by simp [hx]) fun heq => hnot.1 (heq ▸ hx)
  have hback : back.filterMap g = [] :=
    List.filterMap_eq_nil_iff.2 fun x hx =>
      hothers x (by simp [hx]) fun heq => hnot.2 (heq ▸ hx)
  rw [List.filterMap_append, List.filterMap_cons_some hb, hfront, hback]
  rfl

/-- Of the tuples that are reported, one has the index `i`. -/
theorem filterMap_found {data : List UInt8} {target : Int} {n i : Nat}
    (hi : i < n) (h : (skaTuple data i).Answers target) :
    (((List.range n).map (skaTuple data)).filter fun t =>
        !t.blank && decide ((t.seed : Int) = target)).filterMap
      (fun m => (SsaLine.found m.index m.algo m.key).foundKey? i) =
        [((skaTuple data i).key : Int)] := by
  rw [List.filterMap_filter, List.filterMap_map]
  have hindex : ∀ j, (skaTuple data j).index = j := fun _ => rfl
  refine filterMap_eq_singleton List.nodup_range (List.mem_range.2 hi) ?_ ?_
  · simp [SsaLine.foundKey?, h.populated, h.seed, hindex]
  · intro j _ hj
    simp [SsaLine.foundKey?, hindex, hj]

/-- `main` reports the stored key of each tuple of the seed. -/
theorem lookUp_found (getKeyFromSeed : Option (Int → Nat → Int))
    {data : List UInt8} {target : Int} {i : Nat} (hi : i < skaCount)
    (h : (skaTuple data i).Answers target) :
    ((cardInfo data).lookUp getKeyFromSeed target).1.filterMap
      (SsaLine.foundKey? i) = [((skaTuple data i).key : Int)] := by
  have hsome : (cardInfo data).matches target ≠ [] :=
    List.ne_nil_of_mem (mem_matches.2 ⟨⟨i, hi, rfl⟩, h⟩)
  simp only [SsaInfo.lookUp, if_pos hsome]
  rw [List.filterMap_cons_none rfl, List.filterMap_map]
  exact filterMap_found hi h

/-- Without such a tuple `main` computes a key for each algorithm. -/
theorem lookUp_candidate (getKeyFromSeed : Int → Nat → Int)
    {data : List UInt8} {target : Int}
    (h : ∀ i < skaCount, ¬(skaTuple data i).Answers target) (algo : Nat)
    (key : Int) :
    .candidate algo key ∈
        ((cardInfo data).lookUp (some getKeyFromSeed) target).1 ↔
      algo ∈ (cardInfo data).algos ∧ key = getKeyFromSeed target algo := by
  have hnone : (cardInfo data).matches target = [] := by
    refine List.eq_nil_iff_forall_not_mem.2 fun t ht => ?_
    obtain ⟨⟨i, hi, rfl⟩, hanswers⟩ := mem_matches.1 ht
    exact h i hi hanswers
  simp only [SsaInfo.lookUp, hnone, ne_eq, not_true_eq_false, if_false]
  by_cases halgos : (cardInfo data).algos = []
  · simp [halgos]
  · simp only [if_neg halgos, List.mem_cons, reduceCtorEq, List.mem_map,
      SsaLine.candidate.injEq, false_or]
    constructor
    · rintro ⟨a, ha, rfl, rfl⟩
      exact ⟨ha, rfl⟩
    · rintro ⟨ha, rfl⟩
      exact ⟨algo, ha, rfl, rfl⟩

/-- `main` on a card that reaches behind the tuples. -/
theorem decodeSsa_eq (getKeyFromSeed : Option (Int → Nat → Int))
    {data : List UInt8} (hlength : 402 ≤ data.length) (target : Int) :
    decodeSsa getKeyFromSeed data (some target) = some
      (lengthWarning data ++ (cardInfo data).table ++
        ((cardInfo data).lookUp getKeyFromSeed target).1,
      ((cardInfo data).lookUp getKeyFromSeed target).2) := by
  rw [decodeSsa, parseSsa_eq hlength]
  rfl

/-- The one key that `main` reports for a tuple of the seed. -/
theorem decodeSsa_found (getKeyFromSeed : Option (Int → Nat → Int))
    {data : List UInt8} {target : Int} {i : Nat} (hi : i < skaCount)
    (h : (skaTuple data i).Answers target) :
    (lengthWarning data ++ (cardInfo data).table ++
      ((cardInfo data).lookUp getKeyFromSeed target).1).filterMap
        (SsaLine.foundKey? i) = [((skaTuple data i).key : Int)] := by
  have hfront : (lengthWarning data ++ (cardInfo data).table).filterMap
      (SsaLine.foundKey? i) = [] :=
    List.filterMap_eq_nil_iff.2 fun line hline => (front_silent hline i).1
  rw [List.filterMap_append, hfront, List.nil_append, lookUp_found _ hi h]

/-- `main` answers a seed exactly if no tuple of it waits for its key. -/
theorem decodeSsa_answers_iff (getKeyFromSeed : Int → Nat → Int)
    (target : Int) {data : List UInt8} (hlength : 402 ≤ data.length) :
    (∃ lines status, decodeSsa (some getKeyFromSeed) data (some target) =
        some (lines, status) ∧ AnswersSeed getKeyFromSeed data target lines) ↔
      StampedFor getKeyFromSeed data target := by
  have hrun := decodeSsa_eq (some getKeyFromSeed) hlength target
  constructor
  · rintro ⟨lines, status, hlines, hanswers⟩ i hi h hkey
    rw [hrun] at hlines
    obtain ⟨rfl, -⟩ := Prod.mk.inj (Option.some.inj hlines)
    have hsame := (decodeSsa_found _ hi h).symm.trans (hanswers.stored i hi h)
    simpa [SkaTuple.unlockKey, hkey, eq_comm] using hsame
  · intro hstamped
    refine ⟨_, _, hrun, ⟨fun i hi h => ?_, fun hnone algo key => ?_⟩⟩
    · rw [decodeSsa_found _ hi h, SkaTuple.unlockKey]
      split
      · rfl
      · next hkey =>
        rw [hstamped i hi h (not_not.1 hkey), not_not.1 hkey]
        rfl
    · have hfront : .candidate algo key ∉
          lengthWarning data ++ (cardInfo data).table :=
        fun hmem => (front_silent hmem 0).2 algo key rfl
      rw [List.mem_append, lookUp_candidate getKeyFromSeed hnone, mem_algos]
      exact or_iff_right hfront

/-- The key of the sample tuple that the script's layout names. -/
def sampleKeyFromSeed (target : Int) (algo : Nat) : Int :=
  if target = 0x3949 ∧ algo = 0x0366 then 0x8249 else 0

def sampleCard (key : List UInt8) : List UInt8 :=
  List.replicate skaOffset 0x00 ++
    ([0x00, 0x00, 0x03, 0x66, 0x39, 0x49] ++ key ++ List.replicate 88 0xFF)

theorem decodeSsa_answers_iff_stamped :
    ∃ lines status, decodeSsa (some sampleKeyFromSeed)
        (sampleCard [0x82, 0x49]) (some 0x3949) = some (lines, status) ∧
      AnswersSeed sampleKeyFromSeed (sampleCard [0x82, 0x49]) 0x3949 lines := by
  refine (decodeSsa_answers_iff sampleKeyFromSeed 0x3949
    (show 402 ≤ (sampleCard [0x82, 0x49]).length by decide +kernel)).2 ?_
  decide +kernel

/-- On a card from before the stamping the blank word is reported as the key. -/
theorem blank_key_reported :
    (decodeSsa (some sampleKeyFromSeed) (sampleCard [0xFF, 0xFF])
        (some 0x3949)).map (fun out => out.1.filterMap
          (SsaLine.foundKey? 0)) = some [0xFFFF] ∧
      (skaTuple (sampleCard [0xFF, 0xFF]) 0).unlockKey sampleKeyFromSeed
        0x3949 = 0x8249 ∧
      ¬∃ lines status, decodeSsa (some sampleKeyFromSeed)
          (sampleCard [0xFF, 0xFF]) (some 0x3949) = some (lines, status) ∧
        AnswersSeed sampleKeyFromSeed (sampleCard [0xFF, 0xFF]) 0x3949
          lines := by
  have hanswers : (skaTuple (sampleCard [0xFF, 0xFF]) 0).Answers 0x3949 := by
    decide +kernel
  have hstored : (skaTuple (sampleCard [0xFF, 0xFF]) 0).key = 0xFFFF := by
    decide +kernel
  have hfound : (decodeSsa (some sampleKeyFromSeed) (sampleCard [0xFF, 0xFF])
      (some 0x3949)).map (fun out => out.1.filterMap (SsaLine.foundKey? 0)) =
        some [0xFFFF] := by
    rw [decodeSsa_eq _ (by decide +kernel), Option.map_some,
      decodeSsa_found _ (by decide) hanswers, hstored]
    rfl
  have hkey : (skaTuple (sampleCard [0xFF, 0xFF]) 0).unlockKey
      sampleKeyFromSeed 0x3949 = 0x8249 := by
    decide +kernel
  refine ⟨hfound, hkey, ?_⟩
  rintro ⟨lines, status, hrun, hlines⟩
  have hright := hlines.stored 0 (by decide) hanswers
  rw [hrun, Option.map_some, hright, hkey] at hfound
  exact absurd hfound (by decide)

end FremSoft
