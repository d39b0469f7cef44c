/-
The token walk of `recording_load`.  The array `tok[0..n)` that jsmn produced
is an input; every read of it, every write into the arrays being filled and
every copy into a fixed buffer is checked, and a violation is a `Fault`.
-/
import FremSoft.Recording

namespace FremSoft

inductive JsmnType where
  | undefined
  | object
  | array
  | string
  | primitive
deriving DecidableEq, Repr

/-- `jsmntok_t`: a span `[start, stop)` of the text and a number of children. -/
structure JsmnTok where
  type : JsmnType
  start : Nat
  stop : Nat
  size : Nat
deriving DecidableEq, Repr

/-- What C would leave undefined, and a walk that does not end. -/
inductive Fault where
  | tokenRead (i : Nat)
  | exchangeWrite (e : Nat)
  | responseWrite (e rx : Nat)
  | bufferOverrun (size : Nat)
  | outOfFuel
deriving DecidableEq, Repr

/-- `json + tok->start`, `tok->end - tok->start` characters of it. -/
def tokText (json : List Char) (tok : JsmnTok) : List Char :=
  (json.drop tok.start).take (tok.stop - tok.start)

def jsonEq (json : List Char) (tok : JsmnTok) (s : List Char) : Bool :=
  tok.type == .string && tok.stop - tok.start == s.length &&
    (json.drop tok.start).take s.length == s

def tokAt (toks : List JsmnTok) (i : Nat) : Except Fault JsmnTok :=
  match toks[i]? with
  | some tok => .ok tok
  | none => .error (.tokenRead i)

/-- `memcpy` of a text into a zeroed `char[size]`, which keeps what a longer
earlier text left behind it. -/
def copyInto (size : Nat) (old text : List Char) : Except Fault (List Char) :=
  if text.length < size then .ok (text ++ old.drop text.length)
  else .error (.bufferOverrun size)

def writeExchange (exchanges : List RecordedExchange) (e : Nat)
    (f : RecordedExchange → RecordedExchange) :
    Except Fault (List RecordedExchange) :=
  if e < exchanges.length then .ok (exchanges.modify e f)
  else .error (.exchangeWrite e)

def writeResponse (exchanges : List RecordedExchange) (e rx : Nat)
    (f : RecordedResponse → RecordedResponse) :
    Except Fault (List RecordedExchange) :=
  match exchanges[e]? with
  | none => .error (.exchangeWrite e)
  | some ex =>
      if rx < ex.responses.length then
        .ok (exchanges.modify e fun ex =>
          { ex with responses := ex.responses.modify rx f })
      else .error (.responseWrite e rx)

/-- `json_eq(json, &tok[i], name) && i + 1 < n` -/
def isMember (json : List Char) (toks : List JsmnTok) (i : Nat)
    (name : List Char) : Except Fault Bool := do
  let key ← tokAt toks i
  return jsonEq json key name && decide (i + 1 < toks.length)

/-- `json_eq(json, &tok[i], name) && i + 1 < n && tok[i+1].type == type` -/
def isMemberOf (json : List Char) (toks : List JsmnTok) (i : Nat)
    (name : List Char) (type : JsmnType) : Except Fault Bool := do
  if ← isMember json toks i name then
    let value ← tokAt toks (i + 1)
    return value.type == type
  else return false

def memberText (json : List Char) (toks : List JsmnTok) (i : Nat) :
    Except Fault (List Char) := do
  let value ← tokAt toks (i + 1)
  return tokText json value

/-- `strtoul(dbuf, NULL, 10)` after at most 15 characters were copied. -/
def parseDelay (text : List Char) : Except Fault UInt32 := do
  let dbuf ← copyInto 16 [] (text.take 15)
  return strtoul 10 dbuf

/-- The `q` loop over the members of a `tx` object. -/
def txMembersLoop (json : List Char) (toks : List JsmnTok) (e : Nat) :
    Nat → List RecordedExchange → Nat →
      Except Fault (List RecordedExchange × Nat)
  | 0, exs, t => return (exs, t)
  | q + 1, exs, t => do
      if t < toks.length then
        if ← isMember json toks t "can_id".toList then
          let text ← memberText json toks t
          let exs ← writeExchange exs e fun ex =>
            { ex with canId := parseCanIdStr text }
          txMembersLoop json toks e q exs (t + 2)
        else if ← isMember json toks t "uds".toList then
          let text ← memberText json toks t
          let exs ← writeExchange exs e fun ex =>
            { ex with udsBytes := parseHexBytes text }
          txMembersLoop json toks e q exs (t + 2)
        else txMembersLoop json toks e q exs (t + 2)
      else return (exs, t)

/-- The `q` loop over the members of one `rx` element. -/
def rxMembersLoop (json : List Char) (toks : List JsmnTok) (e rx : Nat) :
    Nat → List RecordedExchange → Nat →
      Except Fault (List RecordedExchange × Nat)
  | 0, exs, t => return (exs, t)
  | q + 1, exs, t => do
      if t < toks.length then
        if ← isMember json toks t "can_id".toList then
          let text ← memberText json toks t
          let exs ← writeResponse exs e rx fun x =>
            { x with canId := parseCanIdStr text }
          rxMembersLoop json toks e rx q exs (t + 2)
        else if ← isMember json toks t "uds".toList then
          let text ← memberText json toks t
          let exs ← writeResponse exs e rx fun x =>
            { x with udsBytes := parseHexBytes text }
          rxMembersLoop json toks e rx q exs (t + 2)
        else if ← isMember json toks t "delay_ms".toList then
          let text ← memberText json toks t
          let delay ← parseDelay text
          let exs ← writeResponse exs e rx fun x => { x with delayMs := delay }
          rxMembersLoop json toks e rx q exs (t + 2)
        else rxMembersLoop json toks e rx q exs (t + 2)
      else return (exs, t)

/-- The `rx` loop over the elements of an `rx` array; the first argument is
the number of elements still to come. -/
def rxLoop (json : List Char) (toks : List JsmnTok) (e : Nat) :
    Nat → Nat → List RecordedExchange → Nat →
      Except Fault (List RecordedExchange × Nat)
  | 0, _, exs, t => return (exs, t)
  | left + 1, rx, exs, t => do
      if t < toks.length then
        let tok ← tokAt toks t
        if tok.type == .object then
          let (exs, t) ← rxMembersLoop json toks e rx tok.size exs (t + 1)
          rxLoop json toks e left (rx + 1) exs t
        else rxLoop json toks e left (rx + 1) exs (t + 1)
      else return (exs, t)

/-- The `k` loop over the members of one exchange object. -/
def exchangeMembersLoop (json : List Char) (toks : List JsmnTok) (e : Nat) :
    Nat → List RecordedExchange → Nat →
      Except Fault (List RecordedExchange × Nat)
  | 0, exs, j => return (exs, j)
  | k + 1, exs, j => do
      if j < toks.length then
        if ← isMemberOf json toks j "tx".toList .object then
          let value ← tokAt toks (j + 1)
          let (exs, t) ← txMembersLoop json toks e value.size exs (j + 2)
          exchangeMembersLoop json toks e k exs t
        else if ← isMemberOf json toks j "rx".toList .array then
          let value ← tokAt toks (j + 1)
          let exs ← writeExchange exs e fun ex =>
            { ex with responses :=
                List.replicate value.size RecordedResponse.zero }
          let (exs, t) ← rxLoop json toks e value.size 0 exs (j + 2)
          exchangeMembersLoop json toks e k exs t
        else exchangeMembersLoop json toks e k exs (j + 2)
      else return (exs, j)

/-- The `e` loop over the elements of the `exchanges` array; the first argument
is the number of elements still to come. -/
def exchangesLoop (json : List Char) (toks : List JsmnTok) :
    Nat → Nat → List RecordedExchange → Nat →
      Except Fault (List RecordedExchange × Nat)
  | 0, _, exs, j => return (exs, j)
  | left + 1, e, exs, j => do
      if j < toks.length then
        let tok ← tokAt toks j
        if tok.type == .object then
          let (exs, j) ← exchangeMembersLoop json toks e tok.size exs (j + 1)
          exchangesLoop json toks left (e + 1) exs j
        else exchangesLoop json toks left (e + 1) exs (j + 1)
      else return (exs, j)

/-- The outer `while` over the members of the document.  Every pass moves `i`
forward, so `n` passes are always enough. -/
def topLoop (json : List Char) (toks : List JsmnTok) :
    Nat → Recording → Nat → Except Fault Recording
  | 0, r, i => if i < toks.length then .error .outOfFuel else return r
  | fuel + 1, r, i => do
      if i < toks.length then
        if ← isMember json toks i "recording_id".toList then
          let text ← memberText json toks i
          let id ← copyInto 128 r.recordingId (text.take 127)
          topLoop json toks fuel { r with recordingId := id } (i + 2)
        else if ← isMember json toks i "vehicle_profile".toList then
          let text ← memberText json toks i
          let profile ← copyInto 128 r.vehicleProfile (text.take 127)
          topLoop json toks fuel { r with vehicleProfile := profile } (i + 2)
        else if ← isMemberOf json toks i "exchanges".toList .array then
          let value ← tokAt toks (i + 1)
          let (exs, j) ← exchangesLoop json toks value.size 0
            (List.replicate value.size RecordedExchange.zero) (i + 2)
          topLoop json toks fuel { r with exchanges := exs } j
        else topLoop json toks fuel r (i + 2)
      else return r

/-- `recording_load` from the point where the text has been read and tokenised;
`none` is the `NULL` returned when the document is not an object. -/
def recordingLoad (json : List Char) (toks : List JsmnTok) :
    Except Fault (Option Recording) :=
  match toks with
  | [] => .ok none
  | tok :: _ =>
      if tok.type ≠ .object then .ok none
      else
        (topLoop json toks toks.length
          { recordingId := [], vehicleProfile := [], exchanges := [] } 1).map
          some

end FremSoft
