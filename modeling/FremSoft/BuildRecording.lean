/-
`build_recording.py`: from the text of a shim log to the exchanges of a
recording, and what its two loops compute.
-/
import FremSoft.Lib.KeepFirst
import FremSoft.RecordingDoc
import FremSoft.ShimLog

namespace FremSoft

/-! ### `parse_log` -/

inductive Direction where
  | tx
  | rx
deriving DecidableEq, Repr

/-- What `parse_log` yields for a line. -/
structure Frame where
  ms : Int
  direction : Direction
  canId : Nat
  uds : List UInt8
deriving DecidableEq, Repr

/-- `\\s` of a regular expression. -/
def isRegexSpace (c : Char) : Bool :=
  decide ((0x09 ≤ c.toNat ∧ c.toNat ≤ 0x0D) ∨
    (0x1C ≤ c.toNat ∧ c.toNat ≤ 0x20) ∨ c.toNat ∈
      [0x85, 0xA0, 0x1680, 0x2028, 0x2029, 0x202F, 0x205F, 0x3000] ∨
    (0x2000 ≤ c.toNat ∧ c.toNat ≤ 0x200A))

/-- The `kind` group, and what follows it. -/
def matchKind (line : List Char) : Option (Direction × List Char) :=
  match matchText reqPduTag line with
  | some rest => some (.tx, rest)
  | none => (matchText rspUdsTag line).map fun rest => (.rx, rest)

/-- `LINE_RE`: the `ms`, `kind` and `hex` groups of a line that matches.  The
shim writes ASCII, where `\\d` is `0-9`. -/
def matchLine (line : List Char) : Option (Nat × Direction × List Char) := do
  let (ms, line) ← matchNumber line
  let line ← matchText ['|'] line
  let (_, line) ← matchNumber line
  let line ← matchText hexMark line
  let line ← matchText ['|'] (line.dropWhile isRegexSpace)
  let (kind, line) ← matchKind line
  let line ← matchText lenMark line
  let (_, line) ← matchNumber line
  let hex ← matchText ['|'] line
  if hex = [] then none else some (ms, kind, hex)

/-- The frame in the bytes of a line. -/
def frameOfBytes (ms : Nat) (direction : Direction) (raw : List UInt8) :
    Option Frame :=
  if raw.length < 5 then none
  else some
    { ms
      direction
      canId := ((raw.getD 2 0).toNat <<< 8) ||| (raw.getD 3 0).toNat
      uds := raw.drop 4 }

/-- The body of the `parse_log` loop. -/
def parseLine (line : List Char) : Option Frame := do
  let (ms, direction, hex) ← matchLine line
  let raw ← fromHex (hex.filter fun c => decide (c ≠ ' '))
  frameOfBytes ms direction raw

def parseLog (text : List Char) : List Frame :=
  (splitlines text).filterMap parseLine

/-! ### `pair_exchanges` -/

/-- An element of `rx_list`. -/
structure PairedRx where
  canId : Nat
  uds : List UInt8
  delayMs : Int
deriving DecidableEq, Repr

structure PairedExchange where
  txMs : Int
  txCanId : Nat
  txUds : List UInt8
  rxList : List PairedRx
  lastSeenMs : Int
deriving DecidableEq, Repr

/-- `current` right after its TX frame. -/
def Frame.exchange (f : Frame) : PairedExchange :=
  { txMs := f.ms, txCanId := f.canId, txUds := f.uds, rxList := []
    lastSeenMs := f.ms }

/-- `current` with one more RX frame. -/
def PairedExchange.add (ex : PairedExchange) (f : Frame) : PairedExchange :=
  { ex with
    rxList := ex.rxList ++
      [{ canId := f.canId, uds := f.uds, delayMs := f.ms - ex.lastSeenMs }]
    lastSeenMs := f.ms }

/-- One pass of the loop over the finished exchanges and `current`. -/
def pairStep (maxGapMs : Int)
    (st : List PairedExchange × Option PairedExchange) (f : Frame) :
    List PairedExchange × Option PairedExchange :=
  match f.direction, st.2 with
  | .tx, current => (st.1 ++ current.toList, some f.exchange)
  | .rx, none => st
  | .rx, some current =>
      if f.ms - current.lastSeenMs > maxGapMs then (st.1 ++ [current], none)
      else (st.1, some (current.add f))

def pairExchanges (frames : List Frame) (maxGapMs : Int) :
    List PairedExchange :=
  let st := frames.foldl (pairStep maxGapMs) ([], none)
  st.1 ++ st.2.toList

/-- An exchange with the RX frames that follow, up to the next TX frame or the
first gap. -/
def PairedExchange.extend (maxGapMs : Int) (ex : PairedExchange) :
    List Frame → PairedExchange
  | [] => ex
  | f :: rest =>
      match f.direction with
      | .tx => ex
      | .rx =>
          if f.ms - ex.lastSeenMs > maxGapMs then ex
          else (ex.add f).extend maxGapMs rest

/-- One exchange for each TX frame, in order. -/
def exchangesOf (maxGapMs : Int) : List Frame → List PairedExchange
  | [] => []
  | f :: rest =>
      match f.direction with
      | .tx => f.exchange.extend maxGapMs rest :: exchangesOf maxGapMs rest
      | .rx => exchangesOf maxGapMs rest

/-- What the loop ends with, from either kind of state. -/
theorem foldl_pairStep (maxGapMs : Int) (frames : List Frame)
    (done : List PairedExchange) (current : Option PairedExchange) :
    (frames.foldl (pairStep maxGapMs) (done, current)).1 ++
        (frames.foldl (pairStep maxGapMs) (done, current)).2.toList =
      done ++ (current.map fun ex => ex.extend maxGapMs frames).toList ++
        exchangesOf maxGapMs frames := by
  induction frames generalizing done current with
  | nil => cases current <;> simp [PairedExchange.extend, exchangesOf]
  | cons f rest ih =>
      rw [List.foldl_cons]
      cases hdirection : f.direction with
      | tx =>
          have hstep : pairStep maxGapMs (done, current) f =
              (done ++ current.toList, some f.exchange) := by
            simp [pairStep, hdirection]
          rw [hstep, ih]
          cases current <;>
            simp [PairedExchange.extend, exchangesOf, hdirection]
      | rx =>
          cases current with
          | none =>
              have hstep : pairStep maxGapMs (done, none) f = (done, none) := by
                simp [pairStep, hdirection]
              rw [hstep, ih]
              simp [exchangesOf, hdirection]
          | some ex =>
              by_cases hgap : f.ms - ex.lastSeenMs > maxGapMs
              · have hstep : pairStep maxGapMs (done, some ex) f =
                    (done ++ [ex], none) := by
                  simp [pairStep, hdirection, hgap]
                rw [hstep, ih]
                simp [PairedExchange.extend, exchangesOf, hdirection, hgap]
              · have hstep : pairStep maxGapMs (done, some ex) f =
                    (done, some (ex.add f)) := by
                  simp [pairStep, hdirection, hgap]
                rw [hstep, ih]
                simp [PairedExchange.extend, exchangesOf, hdirection, hgap]

/-- `pair_exchanges` makes one exchange of each TX frame. -/
theorem pairExchanges_eq (frames : List Frame) (maxGapMs : Int) :
    pairExchanges frames maxGapMs = exchangesOf maxGapMs frames := by
  have h := foldl_pairStep maxGapMs frames [] none
  simpa [pairExchanges] using h

/-! ### `index_by_request` -/

def PairedExchange.key (ex : PairedExchange) : Nat × List UInt8 :=
  (ex.txCanId, ex.txUds)

def PairedRx.entry (x : PairedRx) : RxEntry :=
  { canId := canIdText x.canId, uds := hexbytes x.uds
    delayMs := delayText x.delayMs }

/-- An element of `out`, with the texts `json.dumps` writes for it. -/
def PairedExchange.entry (ex : PairedExchange) : ExchangeEntry :=
  { canId := canIdText ex.txCanId, uds := hexbytes ex.txUds
    rx := ex.rxList.map PairedRx.entry }

/-- The variables of the loop; `seen` in insertion order. -/
structure IndexState where
  seen : List ((Nat × List UInt8) × List PairedRx)
  collisions : Nat
  out : List ExchangeEntry

def indexStep (st : IndexState) (ex : PairedExchange) : IndexState :=
  match st.seen.lookup ex.key with
  | some prev =>
      if prev.map PairedRx.uds ≠ ex.rxList.map PairedRx.uds then
        { st with collisions := st.collisions + 1 }
      else st
  | none =>
      { st with
        seen := st.seen ++ [(ex.key, ex.rxList)]
        out := st.out ++ [ex.entry] }

def indexByRequest (exchanges : List PairedExchange) : IndexState :=
  exchanges.foldl indexStep { seen := [], collisions := 0, out := [] }

theorem lookup_eq_none_iff {α β : Type} [BEq α] [LawfulBEq α]
    {l : List (α × β)} {a : α} : l.lookup a = none ↔ a ∉ l.map Prod.fst := by
  rw [List.lookup_eq_none_iff]
  simp only [List.mem_map, not_exists, not_and, bne_iff_ne]
  exact ⟨fun h p hp heq => h p hp heq.symm, fun h p hp heq => h p hp heq.symm⟩

theorem foldl_indexStep_out (exchanges : List PairedExchange)
    (st : IndexState) :
    (exchanges.foldl indexStep st).out =
      st.out ++ (keepFirst PairedExchange.key (st.seen.map Prod.fst)
        exchanges).map PairedExchange.entry := by
  induction exchanges generalizing st with
  | nil => simp [keepFirst]
  | cons ex rest ih =>
      rw [List.foldl_cons, ih]
      cases hlookup : st.seen.lookup ex.key with
      | some prev =>
          have hseen : ex.key ∈ st.seen.map Prod.fst := by
            by_contra hnot
            rw [lookup_eq_none_iff.2 hnot] at hlookup
            cases hlookup
          have hstep : (indexStep st ex).out = st.out ∧
              (indexStep st ex).seen = st.seen := by
            simp only [indexStep, hlookup]
            split <;> exact ⟨rfl, rfl⟩
          rw [hstep.1, hstep.2, keepFirst, if_pos hseen]
      | none =>
          have hseen := lookup_eq_none_iff.1 hlookup
          have hstep : indexStep st ex = { st with
              seen := st.seen ++ [(ex.key, ex.rxList)]
              out := st.out ++ [ex.entry] } := by
            simp only [indexStep, hlookup]
          rw [hstep, keepFirst, if_neg hseen]
          simp

/-- `index_by_request` writes the first exchange of each key. -/
theorem indexByRequest_out (exchanges : List PairedExchange) :
    (indexByRequest exchanges).out =
      (keepFirst PairedExchange.key [] exchanges).map PairedExchange.entry := by
  rw [indexByRequest, foldl_indexStep_out]
  rfl

/-! ### The document -/

def RxEntry.json (x : RxEntry) : Json := .obj x.members

def ExchangeEntry.json (e : ExchangeEntry) : Json :=
  .obj [("tx".toList, .obj e.txMembers),
    ("rx".toList, .arr (e.rx.map RxEntry.json))]

/-- `out` of `main`, with the strings of its header as `json.dumps` writes
them. -/
def recordingJson (header : DocHeader) (entries : List ExchangeEntry) : Json :=
  .obj (header.members ++
    [("exchanges".toList, .arr (entries.map ExchangeEntry.json))])

/-- `main`, from the text of a log to the document. -/
def buildRecording (header : DocHeader) (maxGapMs : Int) (text : List Char) :
    Json :=
  recordingJson header
    (indexByRequest (pairExchanges (parseLog text) maxGapMs)).out

theorem recordingJson_isRecordingDoc (header : DocHeader)
    (entries : List ExchangeEntry) :
    IsRecordingDoc header entries (recordingJson header entries) := by
  have hrx : ∀ rx : List RxEntry,
      List.Forall₂ RxEntry.IsWrittenAs rx (rx.map RxEntry.json) := by
    intro rx
    rw [List.forall₂_map_right_iff, List.forall₂_same]
    exact fun x _ => ⟨_, rfl, .refl _⟩
  refine ⟨_, _, rfl, .refl _, ?_⟩
  rw [List.forall₂_map_right_iff, List.forall₂_same]
  exact fun e _ => ⟨_, _, _, rfl, .refl _, .refl _, hrx e.rx⟩

/-- The loader reads the first exchange of each key of the log. -/
theorem recordingLoad_buildRecording {header : DocHeader} {maxGapMs : Int}
    {text json : List Char} {toks : List JsmnTok}
    (htoks : Tokenises json (buildRecording header maxGapMs text) toks) :
    ∃ r, recordingLoad json toks = .ok (some r) ∧
      r.exchanges = (keepFirst PairedExchange.key []
        (exchangesOf maxGapMs (parseLog text))).map
          fun ex => ex.entry.exchange := by
  obtain ⟨r, hload, hexchanges⟩ :=
    recordingLoad_of_doc (recordingJson_isRecordingDoc header _) htoks
  refine ⟨r, hload, ?_⟩
  rw [hexchanges, indexByRequest_out, pairExchanges_eq, List.map_map]
  rfl

end FremSoft
