/-
The documented recording format: the texts `index_by_request` writes for a
list of exchanges, the documents that hold them with the members of every
object in any order, and what `recording_load` makes of such a document.
-/
import FremSoft.LoadTree
import FremSoft.JsonText
import FremSoft.Lib.Related
import Mathlib.Data.List.Permutation

namespace FremSoft

/-! ### Texts -/

/-- `f"0x{can_id:04X}"` -/
def canIdText (canId : Nat) : List Char :=
  '0' :: 'x' :: padLeft 4 '0' (writeDigits upperDigit 16 canId)

def hexbytes (bytes : List UInt8) : List Char := spacedHex lowerDigit bytes

/-- `json.dumps` of an `int`. -/
def delayText : Int → List Char
  | .ofNat n => writeDigits lowerDigit 10 n
  | .negSucc n => '-' :: writeDigits lowerDigit 10 (n + 1)

theorem isDigitOf_padLeft {base width : Nat} {text : List Char}
    (hbase : 0 < base) (h : ∀ c ∈ text, isDigitOf base c = true) :
    ∀ c ∈ padLeft width '0' text, isDigitOf base c = true := by
  intro c hc
  rcases List.mem_append.1 hc with hc | hc
  · have hzero : digitValue? '0' = some 0 := by decide
    rw [(List.mem_replicate.1 hc).2, isDigitOf, hzero]
    simpa using hbase
  · exact h c hc

theorem padLeft_length (width : Nat) (pad : Char) (text : List Char) :
    (padLeft width pad text).length = max width text.length := by
  rw [padLeft, List.length_append, List.length_replicate]
  omega

/-- The digits of a CAN-ID text. -/
theorem readDigits_canIdDigits (canId : Nat) :
    readDigits 16 0 (padLeft 4 '0' (writeDigits upperDigit 16 canId)) =
      canId := by
  rw [readDigits_padLeft]
  exact readDigits_writeDigits digitValue?_upperDigit (by omega) (le_refl 16)
    canId

/-- The CAN-ID text is read back. -/
theorem parseCanIdStr_canIdText (canId : UInt32) :
    parseCanIdStr (canIdText canId.toNat) = canId := by
  have hrange := canId.toNat_lt
  have hdigits := @isDigitOf_padLeft 16 4 _ (by omega)
    (isDigitOf_writeDigits digitValue?_upperDigit (by omega) (le_refl 16)
      canId.toNat)
  have hwidth : (writeDigits upperDigit 16 canId.toNat).length ≤ 8 :=
    writeDigits_length_le (by omega) (by omega) (by omega)
  have hlength := padLeft_length 4 '0' (writeDigits upperDigit 16 canId.toNat)
  have hvalue := readDigits_canIdDigits canId.toNat
  rw [canIdText]
  generalize padLeft 4 '0' (writeDigits upperDigit 16 canId.toNat) = text at *
  have hne : text ≠ [] := by
    rintro rfl
    rw [List.length_nil] at hlength
    omega
  obtain ⟨c, rest, rfl⟩ := List.exists_cons_of_ne_nil hne
  have hshort : ¬ (('0' :: 'x' :: c :: rest).length = 0 ∨
      16 ≤ ('0' :: 'x' :: c :: rest).length) := by
    simp only [List.length_cons] at hlength ⊢
    omega
  rw [parseCanIdStr, if_neg hshort]
  simp only [true_or, if_true]
  rw [strtoul_digits hne hdigits (le_refl 16) (by omega), hvalue]
  simp

theorem hexNibble?_lowerDigit :
    ∀ d, d < 16 → hexNibble? (lowerDigit d) = some d := by
  decide

theorem hexNibble?_blank : hexNibble? ' ' = none := by decide

theorem ofNat_nibbles (b : UInt8) :
    UInt8.ofNat (((b.toNat / 16) <<< 4) ||| (b.toNat % 16)) = b := by
  rw [← Nat.shiftLeft_add_eq_or_of_lt (by omega), Nat.shiftLeft_eq]
  have hvalue : b.toNat / 16 * 2 ^ 4 + b.toNat % 16 = b.toNat := by omega
  rw [hvalue, UInt8.ofNat_toNat]

theorem parseHexLoop_hexByte (b : UInt8) (rest : List Char) :
    parseHexLoop none (hexByte lowerDigit b ++ rest) =
      b :: parseHexLoop none rest := by
  have hb := b.toNat_lt
  have hhigh := hexNibble?_lowerDigit (b.toNat / 16) (by omega)
  have hlow := hexNibble?_lowerDigit (b.toNat % 16) (by omega)
  rw [hexByte, List.cons_append, List.cons_append, List.nil_append]
  simp only [parseHexLoop, hhigh, hlow, ofNat_nibbles]

/-- The byte text is read back. -/
theorem parseHexBytes_hexbytes (bytes : List UInt8) :
    parseHexBytes (hexbytes bytes) = bytes := by
  rw [parseHexBytes, hexbytes]
  induction bytes with
  | nil => rfl
  | cons b rest ih =>
      cases rest with
      | nil =>
          have h := parseHexLoop_hexByte b []
          rwa [List.append_nil] at h
      | cons c rest =>
          rw [spacedHex, parseHexLoop_hexByte, parseHexLoop, hexNibble?_blank]
          exact congrArg (List.cons b) ih

/-- The delay text is read back. -/
theorem delayOf_delayText (delayMs : UInt32) :
    delayOf (delayText delayMs.toNat) = delayMs := by
  have hrange := delayMs.toNat_lt
  have hdigits := isDigitOf_decimal delayMs.toNat
  have hwidth : (writeDigits lowerDigit 10 delayMs.toNat).length ≤ 10 :=
    writeDigits_length_le (by omega) (by omega) (by omega)
  have hvalue := readDigits_decimal delayMs.toNat
  have htext : delayText delayMs.toNat =
      writeDigits lowerDigit 10 delayMs.toNat := rfl
  rw [delayOf, htext, List.take_of_length_le (by omega),
    strtoul_digits (writeDigits_ne_nil lowerDigit) hdigits (by omega)
      (by omega), hvalue]
  simp

/-- The same for numbers in range. -/
theorem parseCanIdStr_canIdText_of_lt {canId : Nat} (h : canId < 2 ^ 32) :
    parseCanIdStr (canIdText canId) = UInt32.ofNat canId := by
  have hround := parseCanIdStr_canIdText (UInt32.ofNat canId)
  rwa [UInt32.toNat_ofNat_of_lt' h] at hround

theorem delayOf_delayText_of_lt {delayMs : Nat} (h : delayMs < 2 ^ 32) :
    (delayOf (delayText delayMs)).toNat = delayMs := by
  have hround := delayOf_delayText (UInt32.ofNat delayMs)
  rw [UInt32.toNat_ofNat_of_lt' h] at hround
  rw [hround, UInt32.toNat_ofNat_of_lt' h]

/-! ### Documents -/

structure RxEntry where
  canId : List Char
  uds : List Char
  delayMs : List Char
deriving DecidableEq, Repr

structure ExchangeEntry where
  canId : List Char
  uds : List Char
  rx : List RxEntry
deriving DecidableEq, Repr

/-- The strings in front of the exchanges. -/
structure DocHeader where
  recordingId : List Char
  capturedAt : List Char
  vehicleProfile : List Char
  sourceLog : List Char
deriving DecidableEq, Repr

/-- What the loader reads from the texts. -/
def RxEntry.response (x : RxEntry) : RecordedResponse :=
  { canId := parseCanIdStr x.canId, udsBytes := parseHexBytes x.uds
    delayMs := delayOf x.delayMs }

def ExchangeEntry.exchange (e : ExchangeEntry) : RecordedExchange :=
  { canId := parseCanIdStr e.canId, udsBytes := parseHexBytes e.uds
    responses := e.rx.map RxEntry.response }

/-- What `index_by_request` writes for a response. -/
def RecordedResponse.entry (x : RecordedResponse) : RxEntry :=
  { canId := canIdText x.canId.toNat, uds := hexbytes x.udsBytes
    delayMs := delayText x.delayMs.toNat }

def RecordedExchange.entry (e : RecordedExchange) : ExchangeEntry :=
  { canId := canIdText e.canId.toNat, uds := hexbytes e.udsBytes
    rx := e.responses.map RecordedResponse.entry }

theorem RecordedResponse.entry_response (x : RecordedResponse) :
    x.entry.response = x := by
  simp [RecordedResponse.entry, RxEntry.response, parseCanIdStr_canIdText,
    parseHexBytes_hexbytes, delayOf_delayText]

theorem RecordedExchange.entry_exchange (e : RecordedExchange) :
    e.entry.exchange = e := by
  have hresponses : RxEntry.response ∘ RecordedResponse.entry = id :=
    funext RecordedResponse.entry_response
  simp [RecordedExchange.entry, ExchangeEntry.exchange,
    parseCanIdStr_canIdText, parseHexBytes_hexbytes, hresponses]

def RxEntry.members (x : RxEntry) : List (List Char × Json) :=
  [("can_id".toList, .str x.canId), ("uds".toList, .str x.uds),
    ("delay_ms".toList, .prim x.delayMs)]

def ExchangeEntry.txMembers (e : ExchangeEntry) : List (List Char × Json) :=
  [("can_id".toList, .str e.canId), ("uds".toList, .str e.uds)]

def DocHeader.members (header : DocHeader) : List (List Char × Json) :=
  [("recording_id".toList, .str header.recordingId),
    ("captured_at".toList, .str header.capturedAt),
    ("vehicle_profile".toList, .str header.vehicleProfile),
    ("source_log".toList, .str header.sourceLog)]

/-- An `rx` element that holds these texts. -/
def RxEntry.IsWrittenAs (x : RxEntry) (value : Json) : Prop :=
  ∃ members, value = .obj members ∧ members.Perm x.members

/-- An element of `exchanges` that holds these texts. -/
def ExchangeEntry.IsWrittenAs (e : ExchangeEntry) (value : Json) : Prop :=
  ∃ members txMembers rxItems, value = .obj members ∧
    members.Perm [("tx".toList, .obj txMembers), ("rx".toList, .arr rxItems)] ∧
    txMembers.Perm e.txMembers ∧
    List.Forall₂ RxEntry.IsWrittenAs e.rx rxItems

/-- A document of the recording format. -/
def IsRecordingDoc (header : DocHeader) (entries : List ExchangeEntry)
    (doc : Json) : Prop :=
  ∃ members items, doc = .obj members ∧
    members.Perm (header.members ++ [("exchanges".toList, .arr items)]) ∧
    List.Forall₂ ExchangeEntry.IsWrittenAs entries items

/-! ### Such a document is read -/

/-- Updates of different fields may be made in any order. -/
theorem foldl_perm_of_keys {α β γ : Type} {f : β → α × γ → β}
    (hcomm : ∀ z x y, x.1 ≠ y.1 → f (f z x) y = f (f z y) x)
    {l l' : List (α × γ)} (hnodup : (l.map Prod.fst).Nodup)
    (h : l'.Perm l) (z : β) : l'.foldl f z = l.foldl f z := by
  apply h.foldl_eq'
  intro x hx y hy z
  by_cases hkey : x.1 = y.1
  · have hsame := List.inj_on_of_nodup_map hnodup (h.subset hx) (h.subset hy)
      hkey
    rw [hsame]
  · exact hcomm z x y hkey

theorem txField_comm (ex : RecordedExchange) (x y : List Char × Json)
    (h : x.1 ≠ y.1) : txField (txField ex x) y = txField (txField ex y) x := by
  unfold txField
  split_ifs <;> simp_all

theorem rxField_comm (z : RecordedResponse) (x y : List Char × Json)
    (h : x.1 ≠ y.1) : rxField (rxField z x) y = rxField (rxField z y) x := by
  unfold rxField
  split_ifs <;> simp_all

/-- The members of a `tx` object leave the responses alone. -/
theorem foldl_txField_responses (members : List (List Char × Json))
    (ex : RecordedExchange) (responses : List RecordedResponse) :
    members.foldl txField { ex with responses } =
      { members.foldl txField ex with responses } := by
  induction members generalizing ex with
  | nil => rfl
  | cons m members ih =>
      have hstep : txField { ex with responses } m =
          { txField ex m with responses } := by
        unfold txField
        split_ifs <;> rfl
      rw [List.foldl_cons, List.foldl_cons, hstep, ih]

/-- A `tx` and an `rx` member may come in either order. -/
theorem exchangeField_comm (z : RecordedExchange)
    (members : List (List Char × Json)) (items : List Json) :
    exchangeField (exchangeField z ("rx".toList, .arr items))
        ("tx".toList, .obj members) =
      exchangeField (exchangeField z ("tx".toList, .obj members))
        ("rx".toList, .arr items) := by
  simp only [exchangeField, if_true]
  exact foldl_txField_responses members z (items.map rxElement)

theorem RxEntry.rxElement_eq {x : RxEntry} {value : Json}
    (h : x.IsWrittenAs value) : rxElement value = x.response := by
  obtain ⟨members, rfl, hperm⟩ := h
  rw [rxElement, foldl_perm_of_keys rxField_comm
    (by simp [RxEntry.members]) hperm]
  simp [RxEntry.members, rxField, RxEntry.response, RecordedResponse.zero,
    Json.text]

theorem ExchangeEntry.exchangeElement_eq {e : ExchangeEntry} {value : Json}
    (h : e.IsWrittenAs value) : exchangeElement value = e.exchange := by
  obtain ⟨members, txMembers, rxItems, rfl, hperm, htx, hrx⟩ := h
  have hresponses : rxItems.map rxElement = e.rx.map RxEntry.response :=
    map_eq_of_forall₂ (g := rxElement) (fun _ _ h => RxEntry.rxElement_eq h)
      hrx
  have hinOrder : members.foldl exchangeField RecordedExchange.zero =
      [("tx".toList, .obj txMembers), ("rx".toList, .arr rxItems)].foldl
        exchangeField RecordedExchange.zero := by
    rcases List.perm_pair.1 hperm with rfl | rfl
    · rfl
    · exact exchangeField_comm _ txMembers rxItems
  rw [exchangeElement, hinOrder]
  simp only [List.foldl_cons, List.foldl_nil, exchangeField, if_true]
  rw [foldl_perm_of_keys txField_comm (by simp [ExchangeEntry.txMembers]) htx]
  simp [ExchangeEntry.txMembers, txField, ExchangeEntry.exchange,
    RecordedExchange.zero, Json.text, hresponses]

/-- The exchanges after one member of the document. -/
def exchangesAfter (exs : List RecordedExchange) (m : List Char × Json) :
    List RecordedExchange :=
  if m.1 = "exchanges".toList then
    match m.2 with
    | .arr items => items.map exchangeElement
    | _ => exs
  else exs

theorem exchangesAfter_arr (exs : List RecordedExchange) (items : List Json) :
    exchangesAfter exs ("exchanges".toList, .arr items) =
      items.map exchangeElement := by
  simp [exchangesAfter]

theorem recordingField_exchanges (r : Recording) (m : List Char × Json) :
    (recordingField r m).exchanges = exchangesAfter r.exchanges m := by
  obtain ⟨name, value⟩ := m
  by_cases hname : name = "exchanges".toList
  · subst hname
    cases value <;> simp [recordingField, exchangesAfter]
  · simp only [recordingField, exchangesAfter, hname, if_false]
    split_ifs <;> rfl

/-- Only the `exchanges` member counts for the exchanges. -/
theorem recordingOfMembers_exchanges (members : List (List Char × Json)) :
    (recordingOfMembers members).exchanges =
      members.foldl exchangesAfter [] := by
  have hfold : ∀ r : Recording,
      (members.foldl recordingField r).exchanges =
        members.foldl exchangesAfter r.exchanges := by
    induction members with
    | nil => exact fun _ => rfl
    | cons m members ih =>
        intro r
        rw [List.foldl_cons, List.foldl_cons, ih, recordingField_exchanges]
  exact hfold _

theorem exchangesAfter_comm (exs : List RecordedExchange)
    (x y : List Char × Json) (h : x.1 ≠ y.1) :
    exchangesAfter (exchangesAfter exs x) y =
      exchangesAfter (exchangesAfter exs y) x := by
  unfold exchangesAfter
  by_cases hx : x.1 = "exchanges".toList
  · have hy : y.1 ≠ "exchanges".toList := fun hy => h (hx.trans hy.symm)
    rw [if_neg hy, if_neg hy]
  · rw [if_neg hx, if_neg hx]

/-! Such a document is one that the walk steps through. -/

theorem plainMember_of_leaf {names : List (List Char)} {m : List Char × Json}
    (h : m.2.IsLeaf) : PlainMember names m := by
  obtain ⟨shape, hshape, _⟩ := h.flatten
  exact ⟨by rw [hshape]; rfl, fun _ => h⟩

theorem RxEntry.plain {x : RxEntry} {value : Json} (h : x.IsWrittenAs value) :
    PlainElement (PlainMember rxNames) value := by
  obtain ⟨members, rfl, hperm⟩ := h
  refine .object fun m hm => plainMember_of_leaf ?_
  have hmem := hperm.subset hm
  simp only [RxEntry.members, List.mem_cons, List.not_mem_nil, or_false]
    at hmem
  rcases hmem with rfl | rfl | rfl
  · exact .inl ⟨_, rfl⟩
  · exact .inl ⟨_, rfl⟩
  · exact .inr ⟨_, rfl⟩

theorem ExchangeEntry.plain_tx {e : ExchangeEntry}
    {members : List (List Char × Json)} (h : members.Perm e.txMembers) :
    ∀ m ∈ members, PlainMember txNames m := by
  intro m hm
  have hmem := h.subset hm
  simp only [ExchangeEntry.txMembers, List.mem_cons, List.not_mem_nil,
    or_false] at hmem
  rcases hmem with rfl | rfl
  · exact plainMember_of_leaf (.inl ⟨_, rfl⟩)
  · exact plainMember_of_leaf (.inl ⟨_, rfl⟩)

theorem ExchangeEntry.plain {e : ExchangeEntry} {value : Json}
    (h : e.IsWrittenAs value) : PlainElement PlainExchangeMember value := by
  obtain ⟨members, txMembers, rxItems, rfl, hperm, htx, hrx⟩ := h
  refine .object fun m hm => ?_
  have hmem := hperm.subset hm
  simp only [List.mem_cons, List.not_mem_nil, or_false] at hmem
  rcases hmem with rfl | rfl
  · exact .tx (plain_tx htx)
  · refine .rx fun item hitem => ?_
    obtain ⟨x, _, hx⟩ := forall₂_exists_left hrx hitem
    exact RxEntry.plain hx

theorem IsRecordingDoc.plain {header : DocHeader}
    {entries : List ExchangeEntry} {doc : Json}
    (h : IsRecordingDoc header entries doc) :
    ∃ members, doc = .obj members ∧ ∀ m ∈ members, PlainTopMember m := by
  obtain ⟨members, items, rfl, hperm, hitems⟩ := h
  refine ⟨members, rfl, fun m hm => ?_⟩
  have hmem := hperm.subset hm
  simp only [DocHeader.members, List.cons_append, List.nil_append,
    List.mem_cons, List.not_mem_nil, or_false] at hmem
  rcases hmem with rfl | rfl | rfl | rfl | rfl
  · exact .recordingId (.inl ⟨_, rfl⟩)
  · exact .leaf (by simp [topNames]) (.inl ⟨_, rfl⟩)
  · exact .vehicleProfile (.inl ⟨_, rfl⟩)
  · exact .leaf (by simp [topNames]) (.inl ⟨_, rfl⟩)
  · refine .exchanges fun item hitem => ?_
    obtain ⟨e, _, he⟩ := forall₂_exists_left hitems hitem
    exact ExchangeEntry.plain he

/-- The exchanges a document stands for are those whose texts it holds. -/
theorem recordingOfMembers_of_doc {header : DocHeader}
    {entries : List ExchangeEntry} {members : List (List Char × Json)}
    (h : IsRecordingDoc header entries (.obj members)) :
    (recordingOfMembers members).exchanges =
      entries.map ExchangeEntry.exchange := by
  obtain ⟨members', items, heq, hperm, hitems⟩ := h
  obtain rfl : members = members' := by simpa using heq
  have hexchanges : items.map exchangeElement =
      entries.map ExchangeEntry.exchange :=
    map_eq_of_forall₂ (g := exchangeElement)
      (fun _ _ h => ExchangeEntry.exchangeElement_eq h) hitems
  rw [recordingOfMembers_exchanges, foldl_perm_of_keys exchangesAfter_comm
    (by simp [DocHeader.members]) hperm]
  simp [DocHeader.members, exchangesAfter, hexchanges]

/-- `recording_load` on a document of the format. -/
theorem recordingLoad_of_doc {header : DocHeader}
    {entries : List ExchangeEntry} {doc : Json} {json : List Char}
    {toks : List JsmnTok} (hdoc : IsRecordingDoc header entries doc)
    (htoks : Tokenises json doc toks) :
    ∃ r, recordingLoad json toks = .ok (some r) ∧
      r.exchanges = entries.map ExchangeEntry.exchange := by
  obtain ⟨members, rfl, hplain⟩ := hdoc.plain
  exact ⟨_, recordingLoad_of_plain hplain htoks,
    recordingOfMembers_of_doc hdoc⟩

/-- The loader decodes the whole format: it returns the list of exchanges that
was written, and the lookup finds each of them under its key and nothing under
any other pair. -/
theorem recordingLoad_decodes {exchanges : List RecordedExchange}
    {header : DocHeader} {doc : Json} {json : List Char} {toks : List JsmnTok}
    (hdistinct : (exchanges.map RecordedExchange.key).Nodup)
    (hdoc : IsRecordingDoc header (exchanges.map RecordedExchange.entry) doc)
    (htoks : Tokenises json doc toks) :
    ∃ r, recordingLoad json toks = .ok (some r) ∧ r.exchanges = exchanges ∧
      (∀ (i : Nat) (e : RecordedExchange), exchanges[i]? = some e →
        recordingLookup (some r) e.canId e.udsBytes = r.exchanges[i]?) ∧
      ∀ canId uds, (canId, uds) ∉ exchanges.map RecordedExchange.key →
        recordingLookup (some r) canId uds = none := by
  obtain ⟨r, hload, hexchanges⟩ := recordingLoad_of_doc hdoc htoks
  have hentries : ExchangeEntry.exchange ∘ RecordedExchange.entry = id :=
    funext RecordedExchange.entry_exchange
  rw [List.map_map, hentries, List.map_id] at hexchanges
  refine ⟨r, hload, hexchanges, ?_, ?_⟩
  · intro i e he
    rw [recordingLookup, hexchanges, he]
    exact lookupScan_of_mem hdistinct (List.mem_of_getElem? he)
  · intro canId uds hkey
    rw [recordingLookup, hexchanges, lookupScan_eq_none_iff]
    intro e he heq
    exact hkey (heq ▸ List.mem_map_of_mem (f := RecordedExchange.key) he)

def sampleExchange : RecordedExchange :=
  { canId := 0x7E0, udsBytes := [0x1A, 0x90]
    responses := [{ canId := 0x5E8, udsBytes := [0x5A], delayMs := 7 }] }

/-- Names of the format as its strings, and every object back to front. -/
def sampleDoc : Json :=
  .obj [("exchanges".toList, .arr [.obj
      [("rx".toList, .arr [.obj [("delay_ms".toList, .prim "7".toList),
          ("uds".toList, .str "5a".toList),
          ("can_id".toList, .str "0x05E8".toList)]]),
        ("tx".toList, .obj [("uds".toList, .str "1a 90".toList),
          ("can_id".toList, .str "0x07E0".toList)])]]),
    ("source_log".toList, .str "rx".toList),
    ("vehicle_profile".toList, .str "tx".toList),
    ("captured_at".toList, .str "exchanges".toList),
    ("recording_id".toList, .str "exchanges".toList)]

theorem sampleDoc_isRecordingDoc :
    IsRecordingDoc { recordingId := "exchanges".toList
                     capturedAt := "exchanges".toList
                     vehicleProfile := "tx".toList, sourceLog := "rx".toList }
      ([sampleExchange].map RecordedExchange.entry) sampleDoc := by
  refine ⟨_, _, rfl, (List.reverse_perm _).symm.trans (.refl _), .cons ?_ .nil⟩
  refine ⟨_, _, _, rfl, .swap _ _ _, .swap _ _ _, .cons ?_ .nil⟩
  exact ⟨_, rfl, (List.reverse_perm _).symm.trans (.refl _)⟩

theorem recordingLoad_decodes_sample :
    ∃ toks r, recordingLoad sampleDoc.render toks = .ok (some r) ∧
      r.exchanges = [sampleExchange] := by
  obtain ⟨toks, htoks⟩ := exists_tokenises sampleDoc (by decide +kernel)
  obtain ⟨r, hload, hexchanges, _⟩ := recordingLoad_decodes (by decide)
    sampleDoc_isRecordingDoc htoks
  exact ⟨toks, r, hload, hexchanges⟩

end FremSoft
