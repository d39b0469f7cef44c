/-
`recording_load` in memory.  The blocks it allocates are lists of cells, the
counts beside them are fields of their own, and whatever it reads from the
tokens and the text, or writes into a block or a buffer, is checked: a
violation is a `MemFault`.  Allocations succeed, and the `int` counters are
natural numbers: the tokens that fit an address space keep them in range.
-/
import FremSoft.Lib.Cells
import FremSoft.RecordingLoad

namespace FremSoft

namespace Mem

/-- What C would leave undefined, and a walk that does not end. -/
inductive MemFault where
  | tokenRead (i : Nat)
  | textRead (i : Nat)
  | exchangeAccess (e : Nat)
  | responseAccess (e rx : Nat)
  | blockWrite (i : Nat)
  | blockRead (i : Nat)
  | uninitialised (i : Nat)
  | copyOverrun (size : Nat)
  | unterminated
  | outOfFuel
deriving DecidableEq, Repr

/-- What `malloc` returns for bytes: a cell is `none` until it is written. -/
abbrev ByteBlock := List (Option UInt8)

/-- `recorded_response_t`; a pointer is `none` when it is `NULL`. -/
structure MemResponse where
  canId : UInt32
  udsLen : Nat
  udsBytes : Option ByteBlock
  delayMs : UInt32
deriving DecidableEq, Repr

structure MemExchange where
  canId : UInt32
  udsLen : Nat
  udsBytes : Option ByteBlock
  numResponses : Nat
  responses : Option (List MemResponse)
deriving DecidableEq, Repr

/-- `recording_t`, with all the cells of its two texts. -/
structure MemRecording where
  recordingId : List Char
  vehicleProfile : List Char
  numExchanges : Nat
  exchanges : Option (List MemExchange)
deriving DecidableEq, Repr

def nul : Char := Char.ofNat 0

def MemResponse.zero : MemResponse :=
  { canId := 0, udsLen := 0, udsBytes := none, delayMs := 0 }

def MemExchange.zero : MemExchange :=
  { canId := 0, udsLen := 0, udsBytes := none, numResponses := 0
    responses := none }

def MemRecording.zero : MemRecording :=
  { recordingId := List.replicate 128 nul
    vehicleProfile := List.replicate 128 nul
    numExchanges := 0
    exchanges := none }

def cString (cells : List Char) : Except MemFault (List Char) :=
  if nul ∈ cells then .ok (cells.takeWhile (· != nul))
  else .error .unterminated

def tokAt (toks : List JsmnTok) (i : Nat) : Except MemFault JsmnTok :=
  readAt (.tokenRead i) toks i

/-- `len` characters at `json + start`. -/
def textAt (json : List Char) (start len : Nat) : Except MemFault (List Char) :=
  readSpan (.textRead (start + len)) json start len

/-- `json_eq`; `strncmp` may look at all `slen` characters. -/
def jsonEq (json : List Char) (tok : JsmnTok) (s : List Char) :
    Except MemFault Bool := do
  if tok.type == .string && tok.stop - tok.start == s.length then
    let text ← textAt json tok.start s.length
    return text == s
  else return false

/-- `slen > 2 && s[0] == '0' && (s[1] == 'x' || s[1] == 'X')` -/
def hasHexPrefix (json : List Char) (start slen : Nat) :
    Except MemFault Bool := do
  if 2 < slen then
    let c ← readAt (.textRead start) json start
    if c == '0' then
      let x ← readAt (.textRead (start + 1)) json (start + 1)
      return x == 'x' || x == 'X'
    else return false
  else return false

/-- `parse_can_id_str` of the `slen` characters at `json + start`. -/
def parseCanIdStr (json : List Char) (start slen : Nat) :
    Except MemFault UInt32 := do
  if slen = 0 ∨ 16 ≤ slen then return 0
  else
    let off := if ← hasHexPrefix json start slen then 2 else 0
    let text ← textAt json (start + off) (slen - off)
    let buf ← copyAt (.copyOverrun 16) (List.replicate 16 nul) text
    let digits ← cString buf
    return strtoul 16 digits

/-- The loop of `parse_hex_bytes`, with `left` characters still to come. -/
def parseHexLoop (json : List Char) (start : Nat) :
    Nat → Nat → Option Nat → ByteBlock → Nat → Except MemFault (ByteBlock × Nat)
  | 0, _, _, out, n => return (out, n)
  | left + 1, i, hi, out, n => do
      let c ← readAt (.textRead (start + i)) json (start + i)
      match hexNibble? c, hi with
      | none, hi => parseHexLoop json start left (i + 1) hi out n
      | some v, none => parseHexLoop json start left (i + 1) (some v) out n
      | some v, some h =>
          let out ← modifyAt (.blockWrite n) out n
            fun _ => some (UInt8.ofNat ((h <<< 4) ||| v))
          parseHexLoop json start left (i + 1) none out (n + 1)

/-- `parse_hex_bytes`, with its block and `*out_len`. -/
def parseHexBytes (json : List Char) (start slen : Nat) :
    Except MemFault (ByteBlock × Nat) :=
  parseHexLoop json start slen 0 none (List.replicate (slen / 2 + 4) none) 0

/-- `delay_ms`, by way of `dbuf`. -/
def parseDelay (json : List Char) (start len : Nat) :
    Except MemFault UInt32 := do
  let dl := if 15 < len then 15 else len
  let text ← textAt json start dl
  let dbuf ← copyAt (.copyOverrun 16) (List.replicate 16 nul) text
  let digits ← cString dbuf
  return strtoul 10 digits

/-- The copy of at most 127 characters into a `char[128]`. -/
def copyName (json : List Char) (cells : List Char) (start len : Nat) :
    Except MemFault (List Char) := do
  let len := if 127 < len then 127 else len
  let text ← textAt json start len
  copyAt (.copyOverrun 128) cells text

def writeExchange (exs : List MemExchange) (e : Nat)
    (f : MemExchange → MemExchange) : Except MemFault (List MemExchange) :=
  modifyAt (.exchangeAccess e) exs e f

def writeResponse (exs : List MemExchange) (e rx : Nat)
    (f : MemResponse → MemResponse) : Except MemFault (List MemExchange) := do
  let ex ← readAt (.exchangeAccess e) exs e
  match ex.responses with
  | none => .error (.responseAccess e rx)
  | some xs =>
      let xs ← modifyAt (.responseAccess e rx) xs rx f
      writeExchange exs e fun ex => { ex with responses := some xs }

/-- `json_eq(json, &tok[i], name) && i + 1 < n` -/
def isMember (json : List Char) (toks : List JsmnTok) (i : Nat)
    (name : List Char) : Except MemFault Bool := do
  let key ← tokAt toks i
  let same ← jsonEq json key name
  return same && decide (i + 1 < toks.length)

/-- `json_eq(json, &tok[i], name) && i + 1 < n && tok[i+1].type == type` -/
def isMemberOf (json : List Char) (toks : List JsmnTok) (i : Nat)
    (name : List Char) (type : JsmnType) : Except MemFault Bool := do
  if ← isMember json toks i name then
    let value ← tokAt toks (i + 1)
    return value.type == type
  else return false

/-- The `q` loop over the members of a `tx` object. -/
def txMembersLoop (json : List Char) (toks : List JsmnTok) (e : Nat) :
    Nat → List MemExchange → Nat → Except MemFault (List MemExchange × Nat)
  | 0, exs, t => return (exs, t)
  | q + 1, exs, t => do
      if t < toks.length then
        if ← isMember json toks t "can_id".toList then
          let value ← tokAt toks (t + 1)
          let canId ← parseCanIdStr json value.start (value.stop - value.start)
          let exs ← writeExchange exs e fun ex => { ex with canId }
          txMembersLoop json toks e q exs (t + 2)
        else if ← isMember json toks t "uds".toList then
          let value ← tokAt toks (t + 1)
          let (out, n) ←
            parseHexBytes json value.start (value.stop - value.start)
          let exs ← writeExchange exs e fun ex =>
            { ex with udsLen := n, udsBytes := some out }
          txMembersLoop json toks e q exs (t + 2)
        else txMembersLoop json toks e q exs (t + 2)
      else return (exs, t)

/-- The `q` loop over the members of one `rx` element. -/
def rxMembersLoop (json : List Char) (toks : List JsmnTok) (e rx : Nat) :
    Nat → List MemExchange → Nat → Except MemFault (List MemExchange × Nat)
  | 0, exs, t => return (exs, t)
  | q + 1, exs, t => do
      if t < toks.length then
        if ← isMember json toks t "can_id".toList then
          let value ← tokAt toks (t + 1)
          let canId ← parseCanIdStr json value.start (value.stop - value.start)
          let exs ← writeResponse exs e rx fun x => { x with canId }
          rxMembersLoop json toks e rx q exs (t + 2)
        else if ← isMember json toks t "uds".toList then
          let value ← tokAt toks (t + 1)
          let (out, n) ←
            parseHexBytes json value.start (value.stop - value.start)
          let exs ← writeResponse exs e rx fun x =>
            { x with udsLen := n, udsBytes := some out }
          rxMembersLoop json toks e rx q exs (t + 2)
        else if ← isMember json toks t "delay_ms".toList then
          let value ← tokAt toks (t + 1)
          let delayMs ← parseDelay json value.start (value.stop - value.start)
          let exs ← writeResponse exs e rx fun x => { x with delayMs }
          rxMembersLoop json toks e rx q exs (t + 2)
        else rxMembersLoop json toks e rx q exs (t + 2)
      else return (exs, t)

/-- The `rx` loop over the elements of an `rx` array; the first argument is
the number of elements still to come. -/
def rxLoop (json : List Char) (toks : List JsmnTok) (e : Nat) :
    Nat → Nat → List MemExchange → Nat →
      Except MemFault (List MemExchange × Nat)
  | 0, _, exs, t => return (exs, t)
  | left + 1, rx, exs, t => do
      if t < toks.length then
        let tok ← tokAt toks t
        if tok.type == .object then
          let (exs, t) ← rxMembersLoop json toks e rx tok.size exs (t + 1)
          rxLoop json toks e left (rx + 1) exs t
        else rxLoop json toks e left (rx + 1) exs (t + 1)
      else return (exs, t)

/-- The `k` loop over the members of one exchange object. -/
def exchangeMembersLoop (json : List Char) (toks : List JsmnTok) (e : Nat) :
    Nat → List MemExchange → Nat → Except MemFault (List MemExchange × Nat)
  | 0, exs, j => return (exs, j)
  | k + 1, exs, j => do
      if j < toks.length then
        if ← isMemberOf json toks j "tx".toList .object then
          let value ← tokAt toks (j + 1)
          let (exs, t) ← txMembersLoop json toks e value.size exs (j + 2)
          exchangeMembersLoop json toks e k exs t
        else if ← isMemberOf json toks j "rx".toList .array then
          let value ← tokAt toks (j + 1)
          let exs ← writeExchange exs e fun ex =>
            { ex with
              numResponses := value.size
              responses := some (List.replicate value.size MemResponse.zero) }
          let (exs, t) ← rxLoop json toks e value.size 0 exs (j + 2)
          exchangeMembersLoop json toks e k exs t
        else exchangeMembersLoop json toks e k exs (j + 2)
      else return (exs, j)

/-- The `e` loop over the elements of the `exchanges` array; the first argument
is the number of elements still to come. -/
def exchangesLoop (json : List Char) (toks : List JsmnTok) :
    Nat → Nat → List MemExchange → Nat →
      Except MemFault (List MemExchange × Nat)
  | 0, _, exs, j => return (exs, j)
  | left + 1, e, exs, j => do
      if j < toks.length then
        let tok ← tokAt toks j
        if tok.type == .object then
          let (exs, j) ← exchangeMembersLoop json toks e tok.size exs (j + 1)
          exchangesLoop json toks left (e + 1) exs j
        else exchangesLoop json toks left (e + 1) exs (j + 1)
      else return (exs, j)

/-- The outer `while` over the members of the document.  An earlier array of
exchanges is lost when another one takes its place. -/
def topLoop (json : List Char) (toks : List JsmnTok) :
    Nat → MemRecording → Nat → Except MemFault MemRecording
  | 0, r, i => if i < toks.length then .error .outOfFuel else return r
  | fuel + 1, r, i => do
      if i < toks.length then
        if ← isMember json toks i "recording_id".toList then
          let value ← tokAt toks (i + 1)
          let id ← copyName json r.recordingId value.start
            (value.stop - value.start)
          topLoop json toks fuel { r with recordingId := id } (i + 2)
        else if ← isMember json toks i "vehicle_profile".toList then
          let value ← tokAt toks (i + 1)
          let profile ← copyName json r.vehicleProfile value.start
            (value.stop - value.start)
          topLoop json toks fuel { r with vehicleProfile := profile } (i + 2)
        else if ← isMemberOf json toks i "exchanges".toList .array then
          let value ← tokAt toks (i + 1)
          let (exs, j) ← exchangesLoop json toks value.size 0
            (List.replicate value.size MemExchange.zero) (i + 2)
          topLoop json toks fuel
            { r with numExchanges := value.size, exchanges := some exs } j
        else topLoop json toks fuel r (i + 2)
      else return r

/-- `recording_load` from the point where the text has been read and tokenised;
`none` is the `NULL` returned when the document is not an object. -/
def recordingLoad (json : List Char) (toks : List JsmnTok) :
    Except MemFault (Option MemRecording) :=
  match toks with
  | [] => .ok none
  | tok :: _ =>
      if tok.type ≠ .object then .ok none
      else (topLoop json toks toks.length MemRecording.zero 1).map some

/-- A cell that was written before it is read. -/
def readCell (n : Nat) : Option UInt8 → Except MemFault UInt8
  | some b => .ok b
  | none => .error (.uninitialised n)

/-- The first `n` bytes of a block, as `memcmp` reads them. -/
def readBytes (block : Option ByteBlock) (n : Nat) :
    Except MemFault (List UInt8) := do
  let cells ← readSpan (.blockRead n) (block.getD []) 0 n
  cells.mapM (readCell n)

/-- The scan of `recording_lookup`, with `left` exchanges still to come. -/
def lookupScan (exs : List MemExchange) (canId : UInt32) (uds : List UInt8) :
    Nat → Nat → Except MemFault (Option MemExchange)
  | 0, _ => return none
  | left + 1, i => do
      let e ← readAt (.exchangeAccess i) exs i
      if e.canId ≠ canId then lookupScan exs canId uds left (i + 1)
      else if e.udsLen ≠ uds.length then lookupScan exs canId uds left (i + 1)
      else
        let bytes ← readBytes e.udsBytes uds.length
        if bytes = uds then return some e
        else lookupScan exs canId uds left (i + 1)

def recordingLookup (r : Option MemRecording) (canId : UInt32)
    (uds : List UInt8) : Except MemFault (Option MemExchange) :=
  match r with
  | none => .ok none
  | some r => lookupScan (r.exchanges.getD []) canId uds r.numExchanges 0

/-- The `j` loop of `recording_free` over the responses of `exchanges[i]`, with
`left` of them still to come; the byte blocks it frees. -/
def freeResponses (xs : List MemResponse) (i : Nat) :
    Nat → Nat → Except MemFault (List ByteBlock)
  | 0, _ => return []
  | left + 1, j => do
      let x ← readAt (.responseAccess i j) xs j
      let rest ← freeResponses xs i left (j + 1)
      return x.udsBytes.toList ++ rest

/-- The `i` loop of `recording_free`. -/
def freeExchanges (exs : List MemExchange) :
    Nat → Nat → Except MemFault (List ByteBlock)
  | 0, _ => return []
  | left + 1, i => do
      let e ← readAt (.exchangeAccess i) exs i
      let blocks ← freeResponses (e.responses.getD []) i e.numResponses 0
      let rest ← freeExchanges exs left (i + 1)
      return e.udsBytes.toList ++ blocks ++ rest

/-- `recording_free`; the byte blocks it frees, in order. -/
def recordingFree (r : Option MemRecording) :
    Except MemFault (List ByteBlock) :=
  match r with
  | none => .ok []
  | some r => freeExchanges (r.exchanges.getD []) r.numExchanges 0

end Mem

end FremSoft
