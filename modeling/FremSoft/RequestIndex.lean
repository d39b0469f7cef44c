/-
What `index_by_request` keeps and what it reports: of each request the first
exchange, so that the lookup of the loader is a map from requests to the
responses observed first as long as their numbers fit its fields; and a count of
the later exchanges that differ, in the bytes of their responses alone.
-/
import FremSoft.LogFrames
import FremSoft.PairedFrames
import Mathlib.Data.List.Find

namespace FremSoft

/-! ### The first exchange of a request -/

/-- The map from requests to the responses observed first. -/
def firstObserved (exchanges : List PairedExchange)
    (request : Nat × List UInt8) : Option (List PairedRx) :=
  (exchanges.find? fun ex => decide (ex.key = request)).map
    PairedExchange.rxList

/-- The key of an element of `out`, as text. -/
def ExchangeEntry.key (e : ExchangeEntry) : List Char × List Char :=
  (e.canId, e.uds)

/-- The loader has the response as it was observed. -/
structure PairedRx.ReadAs (x : PairedRx) (y : RecordedResponse) : Prop where
  canId : y.canId.toNat = x.canId
  udsBytes : y.udsBytes = x.uds
  delayMs : (y.delayMs.toNat : Int) = x.delayMs

/-- The responses the loader has for a request.  There is no asking for a CAN-ID
that a `uint32_t` cannot hold. -/
def loadedResponses (r : Recording) (request : Nat × List UInt8) :
    Option (List RecordedResponse) :=
  if request.1 < 2 ^ 32 then
    (recordingLookup (some r) (UInt32.ofNat request.1) request.2).map
      RecordedExchange.responses
  else none

/-- The output of `index_by_request` has the first exchange of each request, in
the order in which the requests first occur and each of them once. -/
structure OutKeepsFirst (exchanges : List PairedExchange) : Prop where
  kept : ∃ kept : List PairedExchange,
    (indexByRequest exchanges).out = kept.map PairedExchange.entry ∧
      ((kept.map PairedExchange.key).Pairwise fun j k =>
        (exchanges.map PairedExchange.key).idxOf j <
          (exchanges.map PairedExchange.key).idxOf k) ∧
      ∀ ex ∈ kept,
        exchanges.find? (fun e => decide (e.key = ex.key)) = some ex
  once : ∀ ex ∈ exchanges, ((indexByRequest exchanges).out.map
    ExchangeEntry.key).count ex.entry.key = 1
  nodup : ((indexByRequest exchanges).out.map ExchangeEntry.key).Nodup

/-- And a lookup in what the loader makes of it is a lookup in the map from
requests to the responses observed first. -/
structure KeepsFirst (exchanges : List PairedExchange) (r : Recording) :
    Prop extends OutKeepsFirst exchanges where
  lookup : ∀ request, Option.Rel (List.Forall₂ PairedRx.ReadAs)
    (firstObserved exchanges request) (loadedResponses r request)

/-- The numbers that are kept are those of a `uint32_t`: the CAN-ID of each
request, and the CAN-ID and the delay of each response of its first exchange. -/
structure FitsUint32 (exchanges : List PairedExchange) : Prop where
  txCanId : ∀ ex ∈ exchanges, ex.txCanId < 2 ^ 32
  response : ∀ ex, exchanges.find? (fun e => decide (e.key = ex.key)) =
    some ex → ∀ x ∈ ex.rxList,
      x.canId < 2 ^ 32 ∧ 0 ≤ x.delayMs ∧ x.delayMs < 2 ^ 32

theorem canIdText_injective : Function.Injective canIdText := by
  have hread : Function.LeftInverse
      (fun text => readDigits 16 0 (text.drop 2)) canIdText :=
    readDigits_canIdDigits
  exact hread.injective

theorem hexbytes_injective : Function.Injective hexbytes :=
  Function.LeftInverse.injective parseHexBytes_hexbytes

/-- Exchanges of different requests have different texts. -/
theorem entry_key_eq_iff {ex ex' : PairedExchange} :
    ex.entry.key = ex'.entry.key ↔ ex.key = ex'.key := by
  simp only [ExchangeEntry.key, PairedExchange.entry, PairedExchange.key,
    Prod.mk.injEq, canIdText_injective.eq_iff, hexbytes_injective.eq_iff]

theorem PairedRx.response_canId {x : PairedRx} (h : x.canId < 2 ^ 32) :
    x.entry.response.canId.toNat = x.canId := by
  simp only [PairedRx.entry, RxEntry.response]
  rw [parseCanIdStr_canIdText_of_lt h, UInt32.toNat_ofNat_of_lt' h]

theorem PairedRx.response_delayMs {x : PairedRx} (hnonneg : 0 ≤ x.delayMs)
    (hlt : x.delayMs < 2 ^ 32) :
    (x.entry.response.delayMs.toNat : Int) = x.delayMs := by
  obtain ⟨n, hn⟩ := Int.eq_ofNat_of_zero_le hnonneg
  simp only [PairedRx.entry, RxEntry.response, hn]
  rw [delayOf_delayText_of_lt (by omega)]

/-- A response arrives as it was observed exactly when its numbers fit. -/
theorem PairedRx.readAs_iff (x : PairedRx) :
    x.ReadAs x.entry.response ↔
      x.canId < 2 ^ 32 ∧ 0 ≤ x.delayMs ∧ x.delayMs < 2 ^ 32 := by
  constructor
  · intro h
    have hcanId := x.entry.response.canId.toNat_lt
    have hdelay := x.entry.response.delayMs.toNat_lt
    have hcanIdEq := h.canId
    have hdelayEq := h.delayMs
    omega
  · rintro ⟨hcanId, hnonneg, hlt⟩
    exact ⟨response_canId hcanId, parseHexBytes_hexbytes x.uds,
      response_delayMs hnonneg hlt⟩

/-- The loader reads the request of an exchange. -/
theorem entry_exchange_key {ex : PairedExchange} (h : ex.txCanId < 2 ^ 32)
    (canId : UInt32) (uds : List UInt8) :
    ex.entry.exchange.key = (canId, uds) ↔ ex.key = (canId.toNat, uds) := by
  have hcanId : UInt32.ofNat ex.txCanId = canId ↔ ex.txCanId = canId.toNat := by
    rw [← UInt32.toNat_inj, UInt32.toNat_ofNat_of_lt' h]
  simp only [PairedExchange.entry, ExchangeEntry.exchange,
    RecordedExchange.key, PairedExchange.key, Prod.mk.injEq,
    parseCanIdStr_canIdText_of_lt h, parseHexBytes_hexbytes, hcanId]

/-- The loader has a response for each that was observed. -/
theorem forall₂_responses_iff {R : PairedRx → RecordedResponse → Prop}
    {ex : PairedExchange} :
    List.Forall₂ R ex.rxList ex.entry.exchange.responses ↔
      ∀ x ∈ ex.rxList, R x x.entry.response := by
  simp only [PairedExchange.entry, ExchangeEntry.exchange, List.map_map]
  rw [List.forall₂_map_right_iff, List.forall₂_same]
  rfl

/-- The scan over the loaded output finds the first exchange of the request. -/
theorem loadedResponses_indexByRequest {exchanges : List PairedExchange}
    {r : Recording} (hcanIds : ∀ ex ∈ exchanges, ex.txCanId < 2 ^ 32)
    (hexchanges : r.exchanges =
      (indexByRequest exchanges).out.map ExchangeEntry.exchange)
    (request : Nat × List UInt8) :
    loadedResponses r request =
      (exchanges.find? fun ex => decide (ex.key = request)).map
        fun ex => ex.entry.exchange.responses := by
  obtain ⟨n, uds⟩ := request
  rw [loadedResponses]
  split
  · next hlt =>
    have hn : (UInt32.ofNat n).toNat = n := UInt32.toNat_ofNat_of_lt' hlt
    have hfound : recordingLookup (some r) (UInt32.ofNat n) uds =
        (exchanges.find? fun ex => decide (ex.key = (n, uds))).map
          fun ex => ex.entry.exchange := by
      rw [recordingLookup, hexchanges, lookupScan_eq_find?, indexByRequest_out,
        List.map_map, List.find?_map]
      rw [← find?_keepFirst PairedExchange.key exchanges List.not_mem_nil]
      refine congrArg (Option.map _) ?_
      refine List.find?_congr fun ex hex => decide_eq_decide.2 ?_
      have hkey := entry_exchange_key (hcanIds ex (mem_of_mem_keepFirst hex))
        (UInt32.ofNat n) uds
      rwa [hn] at hkey
    rw [hfound, Option.map_map]
    rfl
  · next hge =>
    have hnone : (exchanges.find? fun ex => decide (ex.key = (n, uds))) =
        none := by
      refine List.find?_eq_none.2 fun ex hex hkey => hge ?_
      have hn : ex.txCanId = n := congrArg Prod.fst (of_decide_eq_true hkey)
      exact hn ▸ hcanIds ex hex
    rw [hnone]
    rfl

/-- The map and the scan agree on a request exactly when the responses of its
first exchange fit. -/
theorem lookup_agrees_iff {exchanges : List PairedExchange} {r : Recording}
    (hcanIds : ∀ ex ∈ exchanges, ex.txCanId < 2 ^ 32)
    (hexchanges : r.exchanges =
      (indexByRequest exchanges).out.map ExchangeEntry.exchange)
    (request : Nat × List UInt8) :
    Option.Rel (List.Forall₂ PairedRx.ReadAs) (firstObserved exchanges request)
        (loadedResponses r request) ↔
      ∀ ex, exchanges.find? (fun e => decide (e.key = request)) = some ex →
        ∀ x ∈ ex.rxList,
          x.canId < 2 ^ 32 ∧ 0 ≤ x.delayMs ∧ x.delayMs < 2 ^ 32 := by
  rw [firstObserved, loadedResponses_indexByRequest hcanIds hexchanges]
  cases exchanges.find? fun e => decide (e.key = request) with
  | none =>
      constructor
      · intro _ ex hex
        cases hex
      · exact fun _ => .none
  | some first =>
      constructor
      · intro hrel ex hex x hx
        obtain rfl := Option.some.inj hex
        cases hrel with
        | some hread =>
            exact x.readAs_iff.1 (forall₂_responses_iff.1 hread x hx)
      · intro hfits
        exact .some (forall₂_responses_iff.2 fun x hx =>
          x.readAs_iff.2 (hfits first rfl x hx))

/-- What is kept, of any exchanges. -/
theorem outKeepsFirst (exchanges : List PairedExchange) :
    OutKeepsFirst exchanges := by
  have hnodup : ((indexByRequest exchanges).out.map
      ExchangeEntry.key).Nodup := by
    have hkeys := nodup_map_keepFirst PairedExchange.key [] exchanges
    rw [List.Nodup, List.pairwise_map] at hkeys ⊢
    rw [indexByRequest_out, List.pairwise_map]
    exact hkeys.imp fun hne heq => hne (entry_key_eq_iff.1 heq)
  refine ⟨⟨keepFirst PairedExchange.key [] exchanges,
    indexByRequest_out exchanges, keepFirst_pairwise_idxOf _ _ _,
    fun ex hex => find?_of_mem_keepFirst hex⟩, fun ex hex => ?_, hnodup⟩
  apply List.count_eq_one_of_mem hnodup
  have hkey : ex.key ∈ (keepFirst PairedExchange.key [] exchanges).map
      PairedExchange.key :=
    mem_map_keepFirst.2 ⟨List.mem_map_of_mem hex, List.not_mem_nil⟩
  obtain ⟨first, hfirst, heq⟩ := List.mem_map.1 hkey
  rw [← entry_key_eq_iff.2 heq, indexByRequest_out, List.map_map]
  exact List.mem_map_of_mem (f := ExchangeEntry.key ∘ PairedExchange.entry)
    hfirst

/-- The map has every request that occurs, and only a CAN-ID that fits can be
asked for. -/
theorem KeepsFirst.txCanId_lt {exchanges : List PairedExchange} {r : Recording}
    (h : KeepsFirst exchanges r) :
    ∀ ex ∈ exchanges, ex.txCanId < 2 ^ 32 := by
  intro ex hex
  have hfound : (exchanges.find? fun e => decide (e.key = ex.key)).isSome :=
    List.find?_isSome.2 ⟨ex, hex, by simp⟩
  obtain ⟨first, hfirst⟩ := Option.isSome_iff_exists.1 hfound
  have hlookup := h.lookup ex.key
  rw [firstObserved, hfirst, loadedResponses] at hlookup
  by_contra hge
  have hnone : ¬ex.key.1 < 2 ^ 32 := hge
  rw [if_neg hnone] at hlookup
  cases hlookup

/-- `index_by_request` on any exchanges keeps the first of each request.  The
loader answers as the map from requests to the responses observed first exactly
when the numbers that are kept are those of a `uint32_t`. -/
theorem indexByRequest_keeps_first {exchanges : List PairedExchange}
    {header : DocHeader} {json : List Char} {toks : List JsmnTok}
    (htoks : Tokenises json
      (recordingJson header (indexByRequest exchanges).out) toks) :
    OutKeepsFirst exchanges ∧
      ∃ r, recordingLoad json toks = .ok (some r) ∧
        (KeepsFirst exchanges r ↔ FitsUint32 exchanges) := by
  obtain ⟨r, hload, hexchanges⟩ :=
    recordingLoad_of_doc (recordingJson_isRecordingDoc header _) htoks
  refine ⟨outKeepsFirst exchanges, r, hload, fun h => ?_, fun hfits => ?_⟩
  · refine ⟨h.txCanId_lt, fun ex hfirst => ?_⟩
    exact (lookup_agrees_iff h.txCanId_lt hexchanges ex.key).1
      (h.lookup ex.key) ex hfirst
  · refine ⟨outKeepsFirst exchanges, fun request => ?_⟩
    refine (lookup_agrees_iff hfits.txCanId hexchanges request).2 ?_
    intro ex hfirst
    have hfound := List.find?_some hfirst
    obtain rfl : ex.key = request := of_decide_eq_true hfound
    exact hfits.response ex hfirst

/-- The same broadcast sent twice, and answered with the same bytes by two
different control units. -/
def broadcastExchanges : List PairedExchange :=
  [{ txMs := 100, txCanId := 0x101, txUds := [0xFE, 0x1A, 0x9A]
     rxList := [{ canId := 0x641, uds := [0x5A, 0x9A, 0x01], delayMs := 20 }]
     lastSeenMs := 120 },
    { txMs := 900, txCanId := 0x101, txUds := [0xFE, 0x1A, 0x9A]
      rxList := [{ canId := 0x645, uds := [0x5A, 0x9A, 0x01], delayMs := 30 }]
      lastSeenMs := 930 }]

theorem indexByRequest_keeps_first_broadcast :
    ∃ json toks r, recordingLoad json toks = .ok (some r) ∧
      KeepsFirst broadcastExchanges r := by
  obtain ⟨toks, htoks⟩ := exists_tokenises (recordingJson
    { recordingId := [], capturedAt := [], vehicleProfile := []
      sourceLog := [] } (indexByRequest broadcastExchanges).out)
    (by decide +kernel)
  obtain ⟨-, r, hload, hiff⟩ := indexByRequest_keeps_first htoks
  refine ⟨_, toks, r, hload, hiff.2 ⟨by decide, fun ex hfirst => ?_⟩⟩
  have hex : ex ∈ broadcastExchanges := List.mem_of_find?_eq_some hfirst
  simp only [broadcastExchanges, List.mem_cons, List.not_mem_nil,
    or_false] at hex
  rcases hex with rfl | rfl <;> decide

/-- A request, and its response stamped five milliseconds before it. -/
def stampedBackExchanges : List PairedExchange :=
  pairExchanges
    [{ ms := 1000, direction := .tx, canId := 0x7E0, uds := [0x3E] },
      { ms := 995, direction := .rx, canId := 0x5E8, uds := [0x7E] }] 3000

/-- The map has the delay `-5`, and the loader answers with `4294967291`. -/
theorem indexByRequest_keeps_first_fails :
    ∃ json toks r, Tokenises json (recordingJson
        { recordingId := [], capturedAt := [], vehicleProfile := []
          sourceLog := [] } (indexByRequest stampedBackExchanges).out) toks ∧
      recordingLoad json toks = .ok (some r) ∧
      firstObserved stampedBackExchanges (0x7E0, [0x3E]) =
        some [{ canId := 0x5E8, uds := [0x7E], delayMs := -5 }] ∧
      loadedResponses r (0x7E0, [0x3E]) =
        some [{ canId := 0x5E8, udsBytes := [0x7E], delayMs := 4294967291 }] ∧
      ¬KeepsFirst stampedBackExchanges r := by
  obtain ⟨toks, htoks⟩ := exists_tokenises (recordingJson
    { recordingId := [], capturedAt := [], vehicleProfile := []
      sourceLog := [] } (indexByRequest stampedBackExchanges).out)
    (by decide +kernel)
  obtain ⟨r, hload, hexchanges⟩ :=
    recordingLoad_of_doc (recordingJson_isRecordingDoc _ _) htoks
  have hobserved : firstObserved stampedBackExchanges (0x7E0, [0x3E]) =
      some [{ canId := 0x5E8, uds := [0x7E], delayMs := -5 }] := by decide
  have hloaded : loadedResponses r (0x7E0, [0x3E]) =
      some [{ canId := 0x5E8, udsBytes := [0x7E], delayMs := 4294967291 }] := by
    rw [loadedResponses_indexByRequest (by decide) hexchanges]
    decide +kernel
  refine ⟨_, toks, r, htoks, hload, hobserved, hloaded, fun h => ?_⟩
  have hlookup := h.lookup (0x7E0, [0x3E])
  rw [hobserved, hloaded] at hlookup
  cases hlookup with
  | some hread =>
      obtain ⟨hx, -⟩ := List.forall₂_cons.1 hread
      exact absurd hx.delayMs (by decide)

/-! ### Collisions -/

def PairedExchange.responseFrames (ex : PairedExchange) :
    List (Nat × List UInt8) :=
  ex.rxList.map fun x => (x.canId, x.uds)

/-- Two exchanges are answered by different response frames. -/
def differentResponses (first ex : PairedExchange) : Bool :=
  decide (first.responseFrames ≠ ex.responseFrames)

/-- The comparison of `index_by_request`. -/
def differentUds (first ex : PairedExchange) : Bool :=
  decide (first.rxList.map PairedRx.uds ≠ ex.rxList.map PairedRx.uds)

/-- `index_by_request` reports ambiguous recordings: its count is that of the
exchanges whose request was already seen with different response frames, and it
is zero exactly when every exchange is answered as the first of its request. -/
structure ReportsAmbiguity (exchanges : List PairedExchange) : Prop where
  collisions : (indexByRequest exchanges).collisions =
    countDiffering PairedExchange.key differentResponses exchanges
  nothingLost : (indexByRequest exchanges).collisions = 0 ↔
    ∀ (i : Nat) (ex first : PairedExchange), exchanges[i]? = some ex →
      (exchanges.take i).find? (fun e => decide (e.key = ex.key)) =
        some first →
      first.responseFrames = ex.responseFrames

/-- A request that is seen again, and answered with the same UDS bytes as the
first time, is answered from the same CAN-IDs. -/
def SameSenders (exchanges : List PairedExchange) : Prop :=
  ∀ (i : Nat) (ex first : PairedExchange), exchanges[i]? = some ex →
    (exchanges.take i).find? (fun e => decide (e.key = ex.key)) = some first →
    first.rxList.map PairedRx.uds = ex.rxList.map PairedRx.uds →
    first.rxList.map PairedRx.canId = ex.rxList.map PairedRx.canId

theorem indexByRequest_concat (front : List PairedExchange)
    (ex : PairedExchange) : indexByRequest (front ++ [ex]) =
      indexStep (indexByRequest front) ex := by
  simp [indexByRequest]

/-- `seen` maps each request to the responses observed first. -/
theorem indexByRequest_seen (exchanges : List PairedExchange)
    (request : Nat × List UInt8) :
    (indexByRequest exchanges).seen.lookup request =
      firstObserved exchanges request := by
  induction exchanges using List.reverseRecOn with
  | nil => rfl
  | append_singleton front ex ih =>
      rw [indexByRequest_concat, firstObserved, List.find?_append,
        Option.map_or, ← firstObserved, ← ih, indexStep]
      cases hlookup : (indexByRequest front).seen.lookup ex.key with
      | some prev =>
          have hkeep : (if prev.map PairedRx.uds ≠ ex.rxList.map PairedRx.uds
              then { indexByRequest front with
                collisions := (indexByRequest front).collisions + 1 }
              else indexByRequest front).seen = (indexByRequest front).seen := by
            split <;> rfl
          simp only [hkeep]
          by_cases hkey : ex.key = request
          · rw [← hkey, hlookup]
            rfl
          · rw [List.find?_cons_of_neg (by simpa using hkey)]
            simp
      | none =>
          rw [List.lookup_append]
          by_cases hkey : ex.key = request
          · rw [← hkey]
            simp
          · rw [List.find?_cons_of_neg (by simpa using hkey),
              List.lookup_cons]
            simp [beq_eq_false_iff_ne.2 (Ne.symm hkey)]

/-- The count of `index_by_request`. -/
theorem indexByRequest_collisions (exchanges : List PairedExchange) :
    (indexByRequest exchanges).collisions =
      countDiffering PairedExchange.key differentUds exchanges := by
  induction exchanges using List.reverseRecOn with
  | nil => rfl
  | append_singleton front ex ih =>
      rw [indexByRequest_concat, countDiffering_concat, ← ih, indexStep,
        indexByRequest_seen, firstObserved]
      cases front.find? fun e => decide (e.key = ex.key) with
      | none => simp
      | some first =>
          by_cases hsame : first.rxList.map PairedRx.uds =
              ex.rxList.map PairedRx.uds
          · simp [differentUds, hsame]
          · simp [differentUds, hsame]

theorem responseFrames_eq_iff {first ex : PairedExchange} :
    first.responseFrames = ex.responseFrames ↔
      first.rxList.map PairedRx.canId = ex.rxList.map PairedRx.canId ∧
        first.rxList.map PairedRx.uds = ex.rxList.map PairedRx.uds := by
  have hzip : ∀ ex : PairedExchange, ex.responseFrames =
      (ex.rxList.map PairedRx.canId).zip (ex.rxList.map PairedRx.uds) :=
    fun ex => (List.zip_map' ..).symm
  constructor
  · intro hframes
    have hcanIds := congrArg (List.map Prod.fst) hframes
    have huds := congrArg (List.map Prod.snd) hframes
    simp only [PairedExchange.responseFrames, List.map_map] at hcanIds huds
    exact ⟨hcanIds, huds⟩
  · rintro ⟨hcanIds, huds⟩
    rw [hzip, hzip, hcanIds, huds]

/-- A difference is overlooked exactly when only the CAN-IDs differ. -/
theorem sameSenders_iff (exchanges : List PairedExchange) :
    SameSenders exchanges ↔
      ∀ i, differsAt PairedExchange.key differentResponses exchanges i = true →
        differsAt PairedExchange.key differentUds exchanges i = true := by
  constructor
  · intro hsame i hi
    obtain ⟨ex, first, hex, hfirst, hframes⟩ := differsAt_iff.1 hi
    refine differsAt_iff.2 ⟨ex, first, hex, hfirst, decide_eq_true ?_⟩
    intro huds
    have hcanIds := hsame i ex first hex hfirst huds
    exact of_decide_eq_true hframes (responseFrames_eq_iff.2 ⟨hcanIds, huds⟩)
  · intro hfound i ex first hex hfirst huds
    by_contra hcanIds
    have hframes : differentResponses first ex = true :=
      decide_eq_true fun heq => hcanIds (responseFrames_eq_iff.1 heq).1
    obtain ⟨ex', first', hex', hfirst', hdiffers⟩ := differsAt_iff.1
      (hfound i (differsAt_iff.2 ⟨ex, first, hex, hfirst, hframes⟩))
    obtain rfl := Option.some.inj (hex.symm.trans hex')
    obtain rfl := Option.some.inj (hfirst.symm.trans hfirst')
    exact of_decide_eq_true hdiffers huds

/-- Ambiguous recordings are reported exactly when no request that is seen
again gets the same bytes from other CAN-IDs. -/
theorem reportsAmbiguity_iff (exchanges : List PairedExchange) :
    ReportsAmbiguity exchanges ↔ SameSenders exchanges := by
  have hfiner : ∀ first ex : PairedExchange, differentUds first ex = true →
      differentResponses first ex = true := by
    intro first ex huds
    refine decide_eq_true fun hframes => of_decide_eq_true huds ?_
    exact (responseFrames_eq_iff.1 hframes).2
  have hcount := @countDiffering_eq_iff _ _ _ PairedExchange.key _ _ hfiner
    exchanges
  rw [← indexByRequest_collisions, ← sameSenders_iff] at hcount
  refine ⟨fun h => hcount.1 h.collisions, fun hsame => ?_⟩
  refine ⟨hcount.2 hsame, ?_⟩
  rw [hcount.2 hsame, countDiffering, List.countP_eq_zero]
  constructor
  · intro hnone i ex first hex hfirst
    by_contra hframes
    have hi := (List.getElem?_eq_some_iff.1 hex).1
    exact hnone i (List.mem_range.2 hi)
      (differsAt_iff.2 ⟨ex, first, hex, hfirst, decide_eq_true hframes⟩)
  · intro hall i _ hi
    obtain ⟨ex, first, hex, hfirst, hframes⟩ := differsAt_iff.1 hi
    exact of_decide_eq_true hframes (hall i ex first hex hfirst)

/-- The second answer is dropped, and nothing is reported. -/
theorem broadcast_answer_dropped :
    (indexByRequest broadcastExchanges).collisions = 0 ∧
      (indexByRequest broadcastExchanges).out.length = 1 ∧
      countDiffering PairedExchange.key differentResponses
        broadcastExchanges = 1 ∧
      ¬ReportsAmbiguity broadcastExchanges := by
  refine ⟨by decide, by decide, by decide, fun h => ?_⟩
  have hcollisions := h.collisions
  revert hcollisions
  decide

end FremSoft
