/-
The way of a delay from the stamps of the log through the text of the recording
to the `uint32_t` of the loader: it arrives unchanged exactly when no stamp the
recorder pairs goes back.
-/
import FremSoft.LogReplay
import FremSoft.RequestIndex

namespace FremSoft

/-- The exchanges `index_by_request` writes for a log. -/
def writtenExchanges (maxGapMs : Int) (text : List Char) :
    List PairedExchange :=
  keepFirst PairedExchange.key [] (pairExchanges (parseLog text) maxGapMs)

def dueTimes (a : StartArgs) (hCop : UInt32) (nowUs : UInt64)
    (responses : List RecordedResponse) : List UInt64 :=
  (responseEvents a hCop nowUs 0 responses).map SchedEvent.dueUs

/-- Every delay that is written is loaded as the same number and lies in the
range of a `uint32_t`, and no event of a reply is due more than `maxGapMs`
after the one before, the first one after the request. -/
structure DelaysSurvive (maxGapMs : Int) (text : List Char) (r : Recording) :
    Prop where
  loaded : List.Forall₂ (fun ex e => List.Forall₂
      (fun x y => (y.delayMs.toNat : Int) = x.delayMs) ex.rxList e.responses)
    (writtenExchanges maxGapMs text) r.exchanges
  inRange : ∀ ex ∈ writtenExchanges maxGapMs text, ∀ x ∈ ex.rxList,
    0 ≤ x.delayMs ∧ x.delayMs < 2 ^ 32
  due : ∀ e ∈ r.exchanges, ∀ a hCop nowUs,
    (nowUs :: dueTimes a hCop nowUs e.responses).IsChain fun prev dueUs =>
      ((dueUs - prev).toNat : Int) ≤ 1000 * maxGapMs

/-- `tx` is the first TX frame with its request, and `rest` follows it. -/
def IsFirstTx (frames : List Frame) (tx : Frame) (rest : List Frame) : Prop :=
  ∃ earlier, frames = earlier ++ tx :: rest ∧ tx.direction = .tx ∧
    ∀ f ∈ earlier, f.direction = .tx → f.key ≠ tx.key

/-- Behind the first TX frame of each request, no RX frame that follows within
the gap is stamped earlier than the frame before it. -/
def NoStampBack (maxGapMs : Int) (frames : List Frame) : Prop :=
  ∀ tx rest, IsFirstTx frames tx rest → ∀ front f, front ++ [f] <+: rest →
    (∀ g ∈ front ++ [f], g.direction = .rx) →
    (tx :: (front ++ [f])).IsChain (FollowsWithin maxGapMs) →
    (front.getLastD tx).ms ≤ f.ms

/-! ### The delays that are written -/

theorem isFirstTx_cons {f tx : Frame} {rest later : List Frame} :
    IsFirstTx (f :: rest) tx later ↔
      (f = tx ∧ rest = later ∧ tx.direction = .tx) ∨
        (IsFirstTx rest tx later ∧ (f.direction = .tx → f.key ≠ tx.key)) := by
  constructor
  · rintro ⟨earlier, hsplit, htx, hfirst⟩
    cases earlier with
    | nil =>
        obtain ⟨rfl, rfl⟩ := List.cons.inj hsplit
        exact .inl ⟨rfl, rfl, htx⟩
    | cons g earlier =>
        obtain ⟨rfl, rfl⟩ := List.cons.inj hsplit
        rw [List.forall_mem_cons] at hfirst
        exact .inr ⟨⟨earlier, rfl, htx, hfirst.2⟩, hfirst.1⟩
  · rintro (⟨rfl, rfl, htx⟩ | ⟨⟨earlier, rfl, htx, hfirst⟩, hhead⟩)
    · exact ⟨[], rfl, htx, by simp⟩
    · exact ⟨f :: earlier, rfl, htx,
        List.forall_mem_cons.2 ⟨hhead, hfirst⟩⟩

/-- The exchanges that are kept are those of the first TX frames. -/
theorem mem_keepFirst_exchangesOf {maxGapMs : Int} {frames : List Frame}
    {seen : List (Nat × List UInt8)} {ex : PairedExchange} :
    ex ∈ keepFirst PairedExchange.key seen (exchangesOf maxGapMs frames) ↔
      ∃ tx rest, IsFirstTx frames tx rest ∧ tx.key ∉ seen ∧
        ex = tx.exchange.extend maxGapMs rest := by
  induction frames generalizing seen with
  | nil => simp [exchangesOf, keepFirst, IsFirstTx]
  | cons f rest ih =>
      have hkey : (f.exchange.extend maxGapMs rest).key = f.key :=
        PairedExchange.extend_key maxGapMs _ rest
      rw [exchangesOf]
      simp only [isFirstTx_cons]
      cases hdirection : f.direction with
      | rx =>
          simp only [ih]
          constructor
          · rintro ⟨tx, later, hfirst, hseen, rfl⟩
            exact ⟨tx, later, .inr ⟨hfirst, by simp⟩, hseen, rfl⟩
          · rintro ⟨tx, later, ⟨rfl, _, htx⟩ | ⟨hfirst, _⟩, hseen, rfl⟩
            · rw [hdirection] at htx
              cases htx
            · exact ⟨tx, later, hfirst, hseen, rfl⟩
      | tx =>
          simp only [keepFirst, hkey]
          split
          · next hf =>
            rw [ih]
            constructor
            · rintro ⟨tx, later, hfirst, hseen, rfl⟩
              have hne : f.key ≠ tx.key := fun heq => hseen (heq ▸ hf)
              exact ⟨tx, later, .inr ⟨hfirst, fun _ => hne⟩, hseen, rfl⟩
            · rintro ⟨tx, later, ⟨rfl, _, _⟩ | ⟨hfirst, _⟩, hseen, rfl⟩
              · exact absurd hf hseen
              · exact ⟨tx, later, hfirst, hseen, rfl⟩
          · next hf =>
            rw [List.mem_cons, ih]
            constructor
            · rintro (rfl | ⟨tx, later, hfirst, hseen, rfl⟩)
              · exact ⟨f, rest, .inl ⟨rfl, rfl, hdirection⟩, hf, rfl⟩
              · rw [List.mem_append, List.mem_singleton, not_or] at hseen
                exact ⟨tx, later, .inr ⟨hfirst, fun _ => Ne.symm hseen.2⟩,
                  hseen.1, rfl⟩
            · rintro ⟨tx, later, ⟨rfl, rfl, _⟩ | ⟨hfirst, hne⟩, hseen, rfl⟩
              · exact .inl rfl
              · refine .inr ⟨tx, later, hfirst, ?_, rfl⟩
                rw [List.mem_append, List.mem_singleton, not_or]
                exact ⟨hseen, Ne.symm (hne trivial)⟩

/-- The responses of an exchange, each with the frames up to it. -/
theorem mem_exchange_rxList {maxGapMs : Int} {tx : Frame} {rest : List Frame}
    {x : PairedRx} :
    x ∈ (tx.exchange.extend maxGapMs rest).rxList ↔
      ∃ front f, front ++ [f] <+: rest ∧
        (∀ g ∈ front ++ [f], g.direction = .rx) ∧
        (tx :: (front ++ [f])).IsChain (FollowsWithin maxGapMs) ∧
        x = (front.getLastD tx).pairedRx f := by
  have hrx : ∀ g : Frame, g.isTx = false ↔ g.direction = .rx := by
    intro g
    cases hdirection : g.direction <;> simp [Frame.isTx, hdirection]
  rw [(tx.exchange_pairs maxGapMs rest).rxList, mem_zipWith_cons_iff]
  simp only [isPrefix_chainFrom_iff, isPrefix_unopened_iff, hrx, and_assoc]

/-- A delay is the time between two frames, and at most the gap. -/
theorem delayMs_le {maxGapMs : Int} {text : List Char} {ex : PairedExchange}
    (hex : ex ∈ writtenExchanges maxGapMs text) :
    ∀ x ∈ ex.rxList, x.delayMs ≤ maxGapMs := by
  intro x hx
  rw [writtenExchanges, pairExchanges_eq] at hex
  obtain ⟨tx, rest, _, _, rfl⟩ := mem_keepFirst_exchangesOf.1 hex
  obtain ⟨front, f, _, _, hchain, rfl⟩ := mem_exchange_rxList.1 hx
  exact rel_of_isChain_concat hchain

/-- No negative delay is written exactly when no stamp goes back. -/
theorem delays_nonneg_iff (maxGapMs : Int) (text : List Char) :
    (∀ ex ∈ writtenExchanges maxGapMs text, ∀ x ∈ ex.rxList, 0 ≤ x.delayMs) ↔
      NoStampBack maxGapMs (parseLog text) := by
  rw [writtenExchanges, pairExchanges_eq]
  constructor
  · intro hall tx rest hfirst front f hfront hrx hchain
    have hx := hall _ (mem_keepFirst_exchangesOf.2
      ⟨tx, rest, hfirst, List.not_mem_nil, rfl⟩) _
      (mem_exchange_rxList.2 ⟨front, f, hfront, hrx, hchain, rfl⟩)
    exact Int.sub_nonneg.1 hx
  · intro hback ex hex x hx
    obtain ⟨tx, rest, hfirst, _, rfl⟩ := mem_keepFirst_exchangesOf.1 hex
    obtain ⟨front, f, hfront, hrx, hchain, rfl⟩ := mem_exchange_rxList.1 hx
    exact Int.sub_nonneg.2 (hback tx rest hfirst front f hfront hrx hchain)

/-- A clock that never goes back keeps to the condition. -/
theorem noStampBack_of_ordered (maxGapMs : Int) {frames : List Frame}
    (hordered : frames.Pairwise (·.ms ≤ ·.ms)) :
    NoStampBack maxGapMs frames := by
  rintro tx rest ⟨earlier, rfl, _, _⟩ front f ⟨later, rfl⟩ _ _
  have hsame : earlier ++ tx :: (front ++ [f] ++ later) =
      (earlier ++ tx :: front) ++ f :: later := by simp
  rw [hsame, List.pairwise_append] at hordered
  refine hordered.2.2 _ (List.mem_append_right _ ?_) f List.mem_cons_self
  exact List.getLastD_mem_cons ..

/-! ### The delays that are loaded -/

/-- From one event of a reply to the next passes the delay of its response. -/
theorem dueTimes_chain {bound : Int} {responses : List RecordedResponse}
    (hbound : ∀ y ∈ responses, (y.delayMs.toNat : Int) ≤ bound)
    (a : StartArgs) (hCop : UInt32) (nowUs cumulativeUs : UInt64) :
    ((nowUs + cumulativeUs) ::
      (responseEvents a hCop nowUs cumulativeUs responses).map
        SchedEvent.dueUs).IsChain fun prev dueUs =>
          ((dueUs - prev).toNat : Int) ≤ 1000 * bound := by
  induction responses generalizing cumulativeUs with
  | nil => exact .singleton _
  | cons y rest ih =>
      rw [List.forall_mem_cons] at hbound
      rw [responseEvents, List.map_cons]
      refine .cons_cons ?_ (ih hbound.2 _)
      have hstep : nowUs + addDelay cumulativeUs y - (nowUs + cumulativeUs) =
          y.delayMs.toUInt64 * 1000 := by
        rw [addDelay, ← UInt64.add_assoc, UInt64.add_comm,
          UInt64.add_sub_cancel]
      have hlt := y.delayMs.toNat_lt
      have hvalue : (y.delayMs.toUInt64 * 1000).toNat =
          1000 * y.delayMs.toNat := by
        rw [UInt64.toNat_mul, UInt32.toNat_toUInt64]
        simp only [UInt64.reduceToNat]
        omega
      have hle := hbound.1
      simp only [responseEvent, hstep, hvalue]
      omega

/-- For every log and every gap below `2 ^ 32`: the delays survive the trip
exactly when no stamp that is paired goes back. -/
theorem delaysSurvive_iff {header : DocHeader} {maxGapMs : Int}
    {text json : List Char} {toks : List JsmnTok} (hgap : maxGapMs < 2 ^ 32)
    (htoks : Tokenises json (buildRecording header maxGapMs text) toks) :
    ∃ r, recordingLoad json toks = .ok (some r) ∧
      (DelaysSurvive maxGapMs text r ↔
        NoStampBack maxGapMs (parseLog text)) := by
  obtain ⟨r, hload, hexchanges⟩ := recordingLoad_buildRecording htoks
  rw [← pairExchanges_eq, ← writtenExchanges] at hexchanges
  refine ⟨r, hload, ?_⟩
  rw [← delays_nonneg_iff]
  constructor
  · exact fun hsurvive ex hex x hx => (hsurvive.inRange ex hex x hx).1
  · intro hnonneg
    have hrange : ∀ ex ∈ writtenExchanges maxGapMs text, ∀ x ∈ ex.rxList,
        x.delayMs < 2 ^ 32 := fun ex hex x hx =>
      Int.lt_of_le_of_lt (delayMs_le hex x hx) hgap
    have hloaded : ∀ ex ∈ writtenExchanges maxGapMs text, ∀ x ∈ ex.rxList,
        (x.entry.response.delayMs.toNat : Int) = x.delayMs :=
      fun ex hex x hx =>
        PairedRx.response_delayMs (hnonneg ex hex x hx) (hrange ex hex x hx)
    refine { loaded := ?_, inRange := ?_, due := ?_ }
    · rw [hexchanges, List.forall₂_map_right_iff, List.forall₂_same]
      exact fun ex hex => forall₂_responses_iff.2 (hloaded ex hex)
    · exact fun ex hex x hx => ⟨hnonneg ex hex x hx, hrange ex hex x hx⟩
    · intro e he a hCop nowUs
      rw [hexchanges, List.mem_map] at he
      obtain ⟨ex, hex, rfl⟩ := he
      have hbound : ∀ y ∈ ex.entry.exchange.responses,
          (y.delayMs.toNat : Int) ≤ maxGapMs := by
        intro y hy
        simp only [PairedExchange.entry, ExchangeEntry.exchange, List.map_map,
          List.mem_map] at hy
        obtain ⟨x, hx, rfl⟩ := hy
        rw [Function.comp_apply, hloaded ex hex x hx]
        exact delayMs_le hex x hx
      have hchain := dueTimes_chain hbound a hCop nowUs 0
      rwa [UInt64.add_zero] at hchain

theorem delaysSurvive_iff_sample :
    ∃ json toks r, recordingLoad json toks = .ok (some r) ∧
      DelaysSurvive 3000 (shimLogText sampleLog) r := by
  obtain ⟨toks, htoks⟩ := exists_tokenises
    (buildRecording sampleHeader 3000 (shimLogText sampleLog))
    (by decide +kernel)
  obtain ⟨r, hload, hiff⟩ := delaysSurvive_iff (by decide) htoks
  refine ⟨_, toks, r, hload, hiff.2 (noStampBack_of_ordered 3000 ?_)⟩
  rw [parseLog_shimLogText sampleLog_isZeroChannelLog.1]
  decide

/-! ### A clock that is set back -/

/-- The clock is set back by five milliseconds before the response. -/
def setBackLog : List ActivityLine :=
  [{ ms := 1000, tid := 1, tag := reqPduTag
     bytes := [0x00, 0x00, 0x07, 0xE0, 0x3E] },
    { ms := 995, tid := 1, tag := rspUdsTag
      bytes := [0x00, 0x00, 0x05, 0xE8, 0x7E] }]

/-- The delay of `-5` is loaded as one of almost fifty days. -/
theorem negative_delay_wraps :
    ∃ json toks r, Tokenises json
        (buildRecording sampleHeader 3000 (shimLogText setBackLog)) toks ∧
      recordingLoad json toks = .ok (some r) ∧
      (r.exchanges.map fun e => e.responses.map RecordedResponse.delayMs) =
        [[4294967291]] ∧
      ((writtenExchanges 3000 (shimLogText setBackLog)).map fun ex =>
        ex.rxList.map PairedRx.delayMs) = [[-5]] ∧
      ¬DelaysSurvive 3000 (shimLogText setBackLog) r := by
  obtain ⟨toks, htoks⟩ := exists_tokenises
    (buildRecording sampleHeader 3000 (shimLogText setBackLog))
    (by decide +kernel)
  obtain ⟨r, hload, hexchanges⟩ := recordingLoad_buildRecording htoks
  have hwritten : ((writtenExchanges 3000 (shimLogText setBackLog)).map
      fun ex => ex.rxList.map PairedRx.delayMs) = [[-5]] := by decide +kernel
  refine ⟨_, toks, r, htoks, hload, ?_, hwritten, fun hsurvive => ?_⟩
  · rw [hexchanges]
    decide +kernel
  · obtain ⟨ex, hex, hrx⟩ := List.map_eq_singleton_iff.1 hwritten
    obtain ⟨x, hx, hdelay⟩ := List.map_eq_singleton_iff.1 hrx
    have hnonneg := (hsurvive.inRange ex (by simp [hex]) x (by simp [hx])).1
    rw [hdelay] at hnonneg
    omega

end FremSoft
