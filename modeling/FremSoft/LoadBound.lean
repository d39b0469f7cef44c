/-
How large a recording can get.  The walk allocates by the sizes that the tokens
promise, but it reads each token once, and jsmn promises no more children than
it made tokens: a recording has fewer elements than its text has characters.
-/
import FremSoft.TextLoad

namespace FremSoft

/-- The children that the tokens from `i` on promise. -/
def sizesFrom (toks : List JsmnTok) (i : Nat) : Nat :=
  ((toks.drop i).map JsmnTok.size).sum

def responseCounts (exs : List RecordedExchange) : List Nat :=
  exs.map fun ex => ex.responses.length

def cellCount (exs : List RecordedExchange) : Nat :=
  exs.length + (responseCounts exs).sum

theorem sizesFrom_succ {toks : List JsmnTok} {i : Nat} {tok : JsmnTok}
    (h : toks[i]? = some tok) :
    sizesFrom toks i = tok.size + sizesFrom toks (i + 1) := by
  obtain ⟨hlt, rfl⟩ := List.getElem?_eq_some_iff.1 h
  rw [sizesFrom, List.drop_eq_getElem_cons hlt]
  rfl

theorem sizesFrom_anti (toks : List JsmnTok) {i j : Nat} (h : i ≤ j) :
    sizesFrom toks j ≤ sizesFrom toks i := by
  induction h with
  | refl => exact le_rfl
  | @step j _ ih =>
      refine le_trans ?_ ih
      cases hj : toks[j]? with
      | none =>
          rw [sizesFrom, List.drop_eq_nil_of_le
            (Nat.le_succ_of_le (List.getElem?_eq_none_iff.1 hj))]
          exact Nat.zero_le _
      | some tok =>
          rw [sizesFrom_succ hj]
          exact Nat.le_add_left _ _

theorem tokAt_ok {toks : List JsmnTok} {i : Nat} {tok : JsmnTok}
    (h : tokAt toks i = .ok tok) : toks[i]? = some tok := by
  unfold tokAt at h
  split at h
  · rename_i hat
    cases h
    exact hat
  · cases h

theorem tokAt_ends (toks : List JsmnTok) (i : Nat) :
    Ends (tokAt toks i) (fun tok => toks[i]? = some tok) fun _ => True := by
  cases h : tokAt toks i with
  | error f => trivial
  | ok tok => exact tokAt_ok h

/-- A computation of which only the value matters. -/
theorem ends_true {ε α : Type} (x : Except ε α) :
    Ends x (fun _ => True) fun _ => True := by
  cases x <;> trivial

/-- A write that leaves the responses alone. -/
theorem writeExchange_counts (exs : List RecordedExchange) (e : Nat)
    {f : RecordedExchange → RecordedExchange}
    (hf : ∀ ex, (f ex).responses.length = ex.responses.length) :
    Ends (writeExchange exs e f)
      (fun exs' => responseCounts exs' = responseCounts exs)
      fun _ => True := by
  unfold writeExchange
  split
  · rw [Ends.ok_iff, responseCounts, responseCounts]
    apply List.ext_getElem?
    intro i
    simp only [List.getElem?_map, List.getElem?_modify, Option.map_eq_map,
      Option.map_map]
    congr 1
    funext ex
    simp only [Function.comp_apply]
    split
    · exact hf ex
    · rfl
  · trivial

theorem writeResponse_counts (exs : List RecordedExchange) (e rx : Nat)
    (f : RecordedResponse → RecordedResponse) :
    Ends (writeResponse exs e rx f)
      (fun exs' => responseCounts exs' = responseCounts exs)
      fun _ => True := by
  unfold writeResponse
  split
  · trivial
  · rename_i ex hex
    split
    · have hwrite := writeExchange_counts exs e
        (f := fun ex => { ex with responses := ex.responses.modify rx f })
        fun ex => by simp
      rw [writeExchange, if_pos (List.getElem?_eq_some_iff.1 hex).1] at hwrite
      exact hwrite
    · trivial

/-- What the loops over the members of one element keep. -/
def KeepsCounts (exs : List RecordedExchange) (t : Nat)
    (r : List RecordedExchange × Nat) : Prop :=
  responseCounts r.1 = responseCounts exs ∧ t ≤ r.2

theorem KeepsCounts.trans {exs exs' : List RecordedExchange} {t t' : Nat}
    (hcounts : responseCounts exs' = responseCounts exs) (ht : t ≤ t')
    {x : Except Fault (List RecordedExchange × Nat)}
    (h : Ends x (KeepsCounts exs' t') fun _ => True) :
    Ends x (KeepsCounts exs t) fun _ => True :=
  h.mono (fun _ hr => ⟨hr.1.trans hcounts, ht.trans hr.2⟩) fun _ h => h

theorem txMembersLoop_counts (json : List Char) (toks : List JsmnTok)
    (e q : Nat) (exs : List RecordedExchange) (t : Nat) :
    Ends (txMembersLoop json toks e q exs t) (KeepsCounts exs t)
      fun _ => True := by
  induction q generalizing exs t with
  | zero => exact ⟨rfl, le_rfl⟩
  | succ q ih =>
      have hwrite : ∀ (f : RecordedExchange → RecordedExchange),
          (∀ ex, (f ex).responses.length = ex.responses.length) →
          Ends (writeExchange exs e f >>= fun exs =>
            txMembersLoop json toks e q exs (t + 2)) (KeepsCounts exs t)
            fun _ => True := fun f hf =>
        (writeExchange_counts exs e hf).bind fun exs' hcounts =>
          KeepsCounts.trans hcounts (Nat.le_add_right _ _) (ih exs' (t + 2))
      rw [txMembersLoop]
      split
      · refine (ends_true _).bind fun isId _ => ?_
        split
        · exact (ends_true _).bind fun text _ => hwrite _ fun _ => rfl
        · refine (ends_true _).bind fun isUds _ => ?_
          split
          · exact (ends_true _).bind fun text _ => hwrite _ fun _ => rfl
          · exact KeepsCounts.trans rfl (Nat.le_add_right _ _) (ih exs (t + 2))
      · exact ⟨rfl, le_rfl⟩

theorem rxMembersLoop_counts (json : List Char) (toks : List JsmnTok)
    (e rx q : Nat) (exs : List RecordedExchange) (t : Nat) :
    Ends (rxMembersLoop json toks e rx q exs t) (KeepsCounts exs t)
      fun _ => True := by
  induction q generalizing exs t with
  | zero => exact ⟨rfl, le_rfl⟩
  | succ q ih =>
      have hwrite : ∀ (f : RecordedResponse → RecordedResponse),
          Ends (writeResponse exs e rx f >>= fun exs =>
            rxMembersLoop json toks e rx q exs (t + 2)) (KeepsCounts exs t)
            fun _ => True := fun f =>
        (writeResponse_counts exs e rx f).bind fun exs' hcounts =>
          KeepsCounts.trans hcounts (Nat.le_add_right _ _) (ih exs' (t + 2))
      rw [rxMembersLoop]
      split
      · refine (ends_true _).bind fun isId _ => ?_
        split
        · exact (ends_true _).bind fun text _ => hwrite _
        · refine (ends_true _).bind fun isUds _ => ?_
          split
          · exact (ends_true _).bind fun text _ => hwrite _
          · refine (ends_true _).bind fun isDelay _ => ?_
            split
            · exact (ends_true _).bind fun text _ =>
                (ends_true _).bind fun delay _ => hwrite _
            · exact KeepsCounts.trans rfl (Nat.le_add_right _ _)
                (ih exs (t + 2))
      · exact ⟨rfl, le_rfl⟩

theorem rxLoop_counts (json : List Char) (toks : List JsmnTok)
    (e left rx : Nat) (exs : List RecordedExchange) (t : Nat) :
    Ends (rxLoop json toks e left rx exs t) (KeepsCounts exs t)
      fun _ => True := by
  induction left generalizing rx exs t with
  | zero => exact ⟨rfl, le_rfl⟩
  | succ left ih =>
      rw [rxLoop]
      split
      · refine (ends_true _).bind fun tok _ => ?_
        split
        · refine (rxMembersLoop_counts json toks e rx tok.size exs
            (t + 1)).bind ?_
          rintro ⟨exs', t'⟩ ⟨hcounts, ht⟩
          exact KeepsCounts.trans hcounts ((Nat.le_succ t).trans ht)
            (ih (rx + 1) exs' t')
        · exact KeepsCounts.trans rfl (Nat.le_succ t) (ih (rx + 1) exs (t + 1))
      · exact ⟨rfl, le_rfl⟩

/-- A write of the responses themselves. -/
theorem writeExchange_responses (exs : List RecordedExchange) (e n : Nat)
    {f : RecordedExchange → RecordedExchange}
    (hf : ∀ ex, (f ex).responses.length = n) :
    Ends (writeExchange exs e f)
      (fun exs' => cellCount exs' ≤ cellCount exs + n) fun _ => True := by
  unfold writeExchange
  split
  · rw [Ends.ok_iff, cellCount, cellCount, List.length_modify]
    refine (Nat.add_le_add_left ?_ _).trans (Nat.add_assoc _ _ _).ge
    clear * - hf
    induction exs generalizing e with
    | nil => simp [responseCounts]
    | cons ex exs ih =>
        cases e with
        | zero => simp [responseCounts, hf]; omega
        | succ e =>
            have := ih e
            simp only [responseCounts, List.modify_succ_cons, List.map_cons,
              List.sum_cons] at this ⊢
            omega
  · trivial

/-- What the loops that allocate keep: every cell was promised by a token that
is behind them. -/
def SpendsSizes (toks : List JsmnTok) (exs : List RecordedExchange) (j : Nat)
    (r : List RecordedExchange × Nat) : Prop :=
  cellCount r.1 + sizesFrom toks r.2 ≤ cellCount exs + sizesFrom toks j ∧
    j ≤ r.2

theorem SpendsSizes.trans {toks : List JsmnTok}
    {exs exs' : List RecordedExchange} {j j' : Nat}
    (hspends : SpendsSizes toks exs j (exs', j'))
    {x : Except Fault (List RecordedExchange × Nat)}
    (h : Ends x (SpendsSizes toks exs' j') fun _ => True) :
    Ends x (SpendsSizes toks exs j) fun _ => True :=
  h.mono (fun _ hr => ⟨hr.1.trans hspends.1, hspends.2.trans hr.2⟩)
    fun _ h => h

theorem SpendsSizes.skip (toks : List JsmnTok) (exs : List RecordedExchange)
    {j j' : Nat} (h : j ≤ j') : SpendsSizes toks exs j (exs, j') :=
  ⟨Nat.add_le_add_left (sizesFrom_anti toks h) _, h⟩

theorem cellCount_congr {exs exs' : List RecordedExchange}
    (h : responseCounts exs' = responseCounts exs) :
    cellCount exs' = cellCount exs := by
  have hlength := congrArg List.length h
  simp only [responseCounts, List.length_map] at hlength
  rw [cellCount, cellCount, h, hlength]

theorem exchangeMembersLoop_spends (json : List Char) (toks : List JsmnTok)
    (e k : Nat) (exs : List RecordedExchange) (j : Nat) :
    Ends (exchangeMembersLoop json toks e k exs j) (SpendsSizes toks exs j)
      fun _ => True := by
  induction k generalizing exs j with
  | zero => exact SpendsSizes.skip toks exs le_rfl
  | succ k ih =>
      rw [exchangeMembersLoop]
      split
      · refine (ends_true _).bind fun isTx _ => ?_
        split
        · refine (tokAt_ends toks (j + 1)).bind fun value _ => ?_
          refine (txMembersLoop_counts json toks e value.size exs
            (j + 2)).bind ?_
          rintro ⟨exs', t⟩ ⟨hcounts, ht⟩
          refine SpendsSizes.trans ?_ (ih exs' t)
          have hskip := SpendsSizes.skip toks exs
            ((Nat.le_add_right j 2).trans ht)
          simpa only [SpendsSizes, cellCount_congr hcounts] using hskip
        · refine (ends_true _).bind fun isRx _ => ?_
          split
          · refine (tokAt_ends toks (j + 1)).bind fun value hvalue => ?_
            refine (writeExchange_responses exs e value.size fun ex =>
              List.length_replicate).bind fun exs₁ hwrite => ?_
            refine (rxLoop_counts json toks e value.size 0 exs₁
              (j + 2)).bind ?_
            rintro ⟨exs', t⟩ ⟨hcounts, ht⟩
            refine SpendsSizes.trans ⟨?_, (Nat.le_add_right j 2).trans ht⟩
              (ih exs' t)
            -- the responses were promised by the token at `j + 1`
            have hsize : sizesFrom toks (j + 1) =
                value.size + sizesFrom toks (j + 2) := sizesFrom_succ hvalue
            have hbehind := sizesFrom_anti toks (Nat.le_add_right j 1)
            have hrest := sizesFrom_anti toks ht
            dsimp only at hcounts hrest ⊢
            rw [cellCount_congr hcounts]
            omega
          · exact SpendsSizes.trans
              (SpendsSizes.skip toks exs (Nat.le_add_right j 2)) (ih exs (j + 2))
      · exact SpendsSizes.skip toks exs le_rfl

theorem exchangesLoop_spends (json : List Char) (toks : List JsmnTok)
    (left e : Nat) (exs : List RecordedExchange) (j : Nat) :
    Ends (exchangesLoop json toks left e exs j) (SpendsSizes toks exs j)
      fun _ => True := by
  induction left generalizing e exs j with
  | zero => exact SpendsSizes.skip toks exs le_rfl
  | succ left ih =>
      rw [exchangesLoop]
      split
      · refine (tokAt_ends toks j).bind fun tok _ => ?_
        split
        · refine (exchangeMembersLoop_spends json toks e tok.size exs
            (j + 1)).bind ?_
          rintro ⟨exs', t⟩ hspends
          refine SpendsSizes.trans ?_ (ih (e + 1) exs' t)
          exact ⟨hspends.1.trans (Nat.add_le_add_left
            (sizesFrom_anti toks (Nat.le_succ j)) _),
            (Nat.le_succ j).trans hspends.2⟩
        · exact SpendsSizes.trans (SpendsSizes.skip toks exs (Nat.le_succ j))
            (ih (e + 1) exs (j + 1))
      · exact SpendsSizes.skip toks exs le_rfl

theorem cellCount_replicate (n : Nat) :
    cellCount (List.replicate n RecordedExchange.zero) = n := by
  have hsum : (List.replicate n RecordedExchange.zero.responses.length).sum =
      0 := by simp [RecordedExchange.zero]
  rw [cellCount, responseCounts, List.map_replicate, hsum,
    List.length_replicate, Nat.add_zero]

theorem topLoop_spends (json : List Char) (toks : List JsmnTok) (fuel : Nat)
    (r : Recording) (i : Nat) {total : Nat}
    (h : cellCount r.exchanges + sizesFrom toks i ≤ total) :
    Ends (topLoop json toks fuel r i)
      (fun r' => cellCount r'.exchanges ≤ total) fun _ => True := by
  induction fuel generalizing r i with
  | zero =>
      rw [topLoop]
      split
      · trivial
      · exact (Nat.le_add_right _ _).trans h
  | succ fuel ih =>
      have hskip := sizesFrom_anti toks (Nat.le_add_right i 2)
      rw [topLoop]
      split
      · refine (ends_true _).bind fun isId _ => ?_
        split
        · refine (ends_true _).bind fun text _ => ?_
          refine (ends_true _).bind fun id _ => ?_
          exact ih _ _ (by dsimp only; omega)
        · refine (ends_true _).bind fun isProfile _ => ?_
          split
          · refine (ends_true _).bind fun text _ => ?_
            refine (ends_true _).bind fun profile _ => ?_
            exact ih _ _ (by dsimp only; omega)
          · refine (ends_true _).bind fun isExchanges _ => ?_
            split
            · refine (tokAt_ends toks (i + 1)).bind fun value hvalue => ?_
              refine (exchangesLoop_spends json toks value.size 0
                (List.replicate value.size RecordedExchange.zero)
                (i + 2)).bind ?_
              rintro ⟨exs, j⟩ ⟨hspends, -⟩
              have hsize : sizesFrom toks (i + 1) =
                  value.size + sizesFrom toks (i + 2) := sizesFrom_succ hvalue
              have hbehind := sizesFrom_anti toks (Nat.le_add_right i 1)
              rw [cellCount_replicate] at hspends
              exact ih _ _ (by dsimp only at hspends ⊢; omega)
            · exact ih _ _ (by omega)
      · exact (Nat.le_add_right _ _).trans h

/-- A recording has no more elements than its tokens have children. -/
theorem recordingLoad_cells (json : List Char) (toks : List JsmnTok) :
    Ends (recordingLoad json toks)
      (fun loaded => ∀ r ∈ loaded,
        cellCount r.exchanges ≤ (toks.map JsmnTok.size).sum)
      fun _ => True := by
  unfold recordingLoad
  cases toks with
  | nil => simp
  | cons tok rest =>
      dsimp only
      split
      · simp
      · have hspends := topLoop_spends json (tok :: rest) (tok :: rest).length
          { recordingId := [], vehicleProfile := [], exchanges := [] } 1
          (by simpa [cellCount, responseCounts] using
            sizesFrom_anti (tok :: rest) (Nat.zero_le 1))
        cases hloop : topLoop json (tok :: rest) (tok :: rest).length
            { recordingId := [], vehicleProfile := [], exchanges := [] } 1 with
        | error f => trivial
        | ok r =>
            rw [hloop] at hspends
            simp only [Except.map, Ends.ok_iff, Option.mem_def,
              Option.some.injEq, forall_eq']
            exact hspends

namespace Mem

/-- The elements that the arrays of a recording were allocated for. -/
def MemRecording.cellCount (m : MemRecording) : Nat :=
  m.numExchanges + ((m.exchanges.getD []).map MemExchange.numResponses).sum

theorem MemRecording.Holds.cellCount {m : MemRecording} {r : Recording}
    (h : m.Holds r) : m.cellCount = FremSoft.cellCount r.exchanges := by
  have hcounts : (m.exchanges.getD []).map MemExchange.numResponses =
      responseCounts r.exchanges := by
    rw [responseCounts, ← List.forall₂_eq_eq_eq, List.forall₂_map_left_iff,
      List.forall₂_map_right_iff]
    exact h.exchanges.imp fun _ _ hex =>
      hex.count.symm.trans hex.responses.length_eq
  rw [MemRecording.cellCount, FremSoft.cellCount, hcounts, ← h.count,
    h.exchanges.length_eq]

end Mem

/-- What is safe about `recording_load`: a recording has all its counts right
and fewer elements than the file has characters.  The other end is a write
behind a pool whose size wraps. -/
theorem recordingLoadFile_ends (file : Option (List Char)) :
    Ends (recordingLoadFile file)
      (fun loaded => ∀ m ∈ loaded, m.WellFormed ∧
        ∃ js ∈ file, m.cellCount < js.length)
      (fun fault => ∃ js ∈ file, ∃ f, fault = .tokenizer f ∧
        WrapsPool js f ∧ 2 ^ 28 ≤ js.length) := by
  unfold recordingLoadFile
  cases hread : readFile file with
  | none => simp
  | some js =>
      have hfile : file = some js := (Option.filter_eq_some_iff.1 hread).1
      rcases recordingLoadText_cases js with
        hnull | ⟨toks, m, r, hwell, hm, hr, hholds⟩ | ⟨f, hfault, hwraps⟩
      · simp [hnull]
      · simp only [hm, Ends.ok_iff]
        rintro _ ⟨⟩
        refine ⟨hholds.wellFormed, js, hfile, ?_⟩
        have hcells : FremSoft.cellCount r.exchanges ≤
            (toks.map JsmnTok.size).sum :=
          (recordingLoad_cells js toks).of_ok hr r rfl
        have hsome : toks.length ≠ 0 := by
          intro hnil
          rw [List.length_eq_zero_iff.1 hnil] at hr
          cases hr
        have hsizes := hwell.sizes_le
        have hlength := hwell.length_le
        rw [hholds.cellCount]
        omega
      · simp only [hfault, Ends.error_iff]
        exact ⟨js, hfile, f, rfl, hwraps, hwraps.length_le⟩

/-- Whatever the file holds, `recording_load` ends without a fault unless its
text has so many tokens that the size of their pool wraps; and so many brackets
are a fault. -/
theorem recordingLoadText_safe :
    (∀ file, Ends (recordingLoadFile file)
      (fun loaded => ∀ m ∈ loaded, m.WellFormed ∧
        ∃ js ∈ file, m.cellCount < js.length)
      (fun fault => ∃ js ∈ file, ∃ f, fault = .tokenizer f ∧
        WrapsPool js f ∧ 2 ^ 28 ≤ js.length)) ∧
      ∀ n, 2 ^ 28 ≤ n → n < 2 ^ 31 →
        recordingLoadFile (some (List.replicate n '[')) =
          .error (.tokenizer (.badToken (poolRoom n))) :=
  ⟨recordingLoadFile_ends, fun _ => recordingLoadFile_brackets⟩

end FremSoft
