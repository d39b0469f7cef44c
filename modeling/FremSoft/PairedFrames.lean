/-
What `pair_exchanges` computes: one exchange for each TX frame, holding the RX
frames behind it as long as no gap between two of them is too large.
-/
import FremSoft.BuildRecording
import FremSoft.Lib.Segments

namespace FremSoft

/-! ### What an exchange is -/

def Frame.isTx (f : Frame) : Bool := decide (f.direction = .tx)

def Frame.key (f : Frame) : Nat × List UInt8 := (f.canId, f.uds)

/-- The frame comes at most `maxGapMs` after the one before. -/
def FollowsWithin (maxGapMs : Int) (prev f : Frame) : Prop :=
  f.ms - prev.ms ≤ maxGapMs

instance (maxGapMs : Int) : DecidableRel (FollowsWithin maxGapMs) :=
  fun _ _ => inferInstanceAs (Decidable (_ ≤ _))

/-- An RX frame with its delay behind the frame before. -/
def Frame.pairedRx (prev f : Frame) : PairedRx :=
  { canId := f.canId, uds := f.uds, delayMs := f.ms - prev.ms }

/-- The exchange is that of the TX frame with the RX frames `kept`: the longest
front of the RX frames behind it in which each frame comes within the gap, each
with the delay since the frame before it. -/
structure PairedExchange.Pairs (maxGapMs : Int) (tx : Frame)
    (rxs kept : List Frame) (ex : PairedExchange) : Prop where
  txMs : ex.txMs = tx.ms
  key : ex.key = tx.key
  front : kept <+: rxs
  close : (tx :: kept).IsChain (FollowsWithin maxGapMs)
  longest : ∀ longer, longer <+: rxs →
    (tx :: longer).IsChain (FollowsWithin maxGapMs) → longer <+: kept
  rxList : ex.rxList = List.zipWith Frame.pairedRx (tx :: kept) kept
  elapsed : ∀ (k : Nat) (f : Frame), kept[k]? = some f →
    ((ex.rxList.take (k + 1)).map PairedRx.delayMs).sum = f.ms - tx.ms
  lastSeenMs : ex.lastSeenMs = (kept.getLastD tx).ms

/-! ### The exchange of one TX frame -/

theorem PairedExchange.extend_txMs (maxGapMs : Int) (ex : PairedExchange)
    (frames : List Frame) : (ex.extend maxGapMs frames).txMs = ex.txMs := by
  induction frames generalizing ex with
  | nil => rfl
  | cons f rest ih =>
      rw [extend]
      split
      · rfl
      · split
        · rfl
        · exact ih (ex.add f)

theorem PairedExchange.extend_key (maxGapMs : Int) (ex : PairedExchange)
    (frames : List Frame) : (ex.extend maxGapMs frames).key = ex.key := by
  induction frames generalizing ex with
  | nil => rfl
  | cons f rest ih =>
      rw [extend]
      split
      · rfl
      · split
        · rfl
        · exact ih (ex.add f)

/-- What is added behind the frame `prev`: the frames up to the next TX, as
long as they follow within the gap. -/
theorem PairedExchange.extend_eq (maxGapMs : Int) (prev : Frame)
    (frames : List Frame) {ex : PairedExchange}
    (hlast : ex.lastSeenMs = prev.ms) :
    (ex.extend maxGapMs frames).rxList = ex.rxList ++
        List.zipWith Frame.pairedRx
          (prev :: chainFrom (FollowsWithin maxGapMs) prev
            (unopened Frame.isTx frames))
          (chainFrom (FollowsWithin maxGapMs) prev
            (unopened Frame.isTx frames)) ∧
      (ex.extend maxGapMs frames).lastSeenMs =
        ((chainFrom (FollowsWithin maxGapMs) prev
          (unopened Frame.isTx frames)).getLastD prev).ms := by
  induction frames generalizing ex prev with
  | nil => exact ⟨by simp [extend, unopened, chainFrom], hlast⟩
  | cons f rest ih =>
      rw [extend, unopened]
      cases hdirection : f.direction with
      | tx =>
          rw [List.takeWhile_cons_of_neg (by simp [Frame.isTx, hdirection])]
          exact ⟨by simp [chainFrom], hlast⟩
      | rx =>
          rw [List.takeWhile_cons_of_pos (by simp [Frame.isTx, hdirection]),
            chainFrom, hlast]
          by_cases hgap : FollowsWithin maxGapMs prev f
          · have hwithin : ¬f.ms - prev.ms > maxGapMs := Int.not_lt.2 hgap
            obtain ⟨hrx, hms⟩ := @ih f (ex.add f) rfl
            simp only [if_neg hwithin, if_pos hgap]
            refine ⟨?_, ?_⟩
            · rw [hrx]
              simp [PairedExchange.add, Frame.pairedRx, hlast, unopened]
            · rw [hms, List.getLastD_cons]
              rfl
          · have hlarge : f.ms - prev.ms > maxGapMs := Int.not_le.1 hgap
            simp only [if_pos hlarge, if_neg hgap]
            exact ⟨by simp, hlast⟩

/-- Delays from frame to frame add up to the time since the first. -/
theorem sum_delays (prev : Frame) {kept : List Frame} {k : Nat} {f : Frame}
    (hf : kept[k]? = some f) :
    (((List.zipWith Frame.pairedRx (prev :: kept) kept).take (k + 1)).map
      PairedRx.delayMs).sum = f.ms - prev.ms := by
  induction kept generalizing prev k with
  | nil => simp at hf
  | cons g rest ih =>
      rw [List.zipWith_cons_cons, List.take_succ_cons, List.map_cons,
        List.sum_cons]
      cases k with
      | zero =>
          obtain rfl : g = f := by simpa using hf
          simp [Frame.pairedRx]
      | succ k =>
          rw [ih g (by simpa using hf)]
          simp only [Frame.pairedRx]
          omega

/-- The exchange the loop builds of a TX frame and what follows it. -/
theorem Frame.exchange_pairs (maxGapMs : Int) (tx : Frame)
    (rest : List Frame) :
    (tx.exchange.extend maxGapMs rest).Pairs maxGapMs tx
      (unopened Frame.isTx rest)
      (chainFrom (FollowsWithin maxGapMs) tx (unopened Frame.isTx rest)) := by
  obtain ⟨hrx, hms⟩ :=
    @PairedExchange.extend_eq maxGapMs tx rest tx.exchange rfl
  have hrxList : (tx.exchange.extend maxGapMs rest).rxList = _ :=
    hrx.trans (List.nil_append _)
  exact {
    txMs := PairedExchange.extend_txMs maxGapMs _ rest
    key := PairedExchange.extend_key maxGapMs _ rest
    front := chainFrom_isPrefix tx _
    close := isChain_chainFrom tx _
    longest := fun longer hfront hchain => isPrefix_chainFrom hfront hchain
    rxList := hrxList
    elapsed := fun k f hf => by rw [hrxList]; exact sum_delays tx hf
    lastSeenMs := hms }

/-- `pair_exchanges` in terms of the segments of the frames. -/
theorem exchangesOf_eq_segments (maxGapMs : Int) (frames : List Frame) :
    List.Forall₂
      (fun run ex => PairedExchange.Pairs maxGapMs run.1 run.2
        (chainFrom (FollowsWithin maxGapMs) run.1 run.2) ex)
      (segments Frame.isTx frames) (exchangesOf maxGapMs frames) := by
  induction frames with
  | nil => exact .nil
  | cons f rest ih =>
      rw [segments, exchangesOf]
      cases hdirection : f.direction with
      | tx =>
          rw [if_pos (by simp [Frame.isTx, hdirection])]
          exact .cons (f.exchange_pairs maxGapMs rest) ih
      | rx =>
          rw [if_neg (by simp [Frame.isTx, hdirection])]
          exact ih

/-- `pair_exchanges` on any frames, in any order of time: the frames are those
before the first TX frame, which are dropped, and TX frames with the RX frames
that follow each; and the exchanges are those of the TX frames, in order. -/
theorem pairExchanges_pairs (frames : List Frame) (maxGapMs : Int) :
    ∃ (floating : List Frame) (runs : List (Frame × List Frame)),
      frames = floating ++ runs.flatMap (fun run => run.1 :: run.2) ∧
      (∀ f ∈ floating, f.direction = .rx) ∧
      (∀ run ∈ runs, run.1.direction = .tx ∧
        ∀ f ∈ run.2, f.direction = .rx) ∧
      (pairExchanges frames maxGapMs).map PairedExchange.key =
        (frames.filter Frame.isTx).map Frame.key ∧
      List.Forall₂
        (fun run ex => ∃ kept,
          PairedExchange.Pairs maxGapMs run.1 run.2 kept ex)
        runs (pairExchanges frames maxGapMs) := by
  have hrx : ∀ f : Frame, f.isTx = false → f.direction = .rx := by
    intro f hf
    cases hdirection : f.direction with
    | tx => simp [Frame.isTx, hdirection] at hf
    | rx => rfl
  have hpairs := exchangesOf_eq_segments maxGapMs frames
  rw [← pairExchanges_eq] at hpairs
  refine ⟨unopened Frame.isTx frames, segments Frame.isTx frames,
    (unopened_append_segments _ frames).symm,
    fun f hf => hrx f (unopened_closed f hf), fun run hrun => ?_, ?_,
    hpairs.imp fun _ _ h => ⟨_, h⟩⟩
  · obtain ⟨hopen, hclosed⟩ := segments_open hrun
    exact ⟨of_decide_eq_true hopen, fun f hf => hrx f (hclosed f hf)⟩
  · rw [← segments_map_fst, List.map_map]
    exact map_eq_of_forall₂ (fun _ _ h => h.key) hpairs

end FremSoft
