/-
The tokenizer of `vendor/jsmn.h` as `recording.c` compiles it: not strict and
without parent links.  The text is the `js[0..len)` it is called with; a pool of
`none` is the `NULL` of the counting pass.
-/
import FremSoft.Lib.Downward
import FremSoft.Lib.Outcome
import FremSoft.RecordingLoad

namespace FremSoft

/-- `jsmntok_t` while the text is being parsed; `none` is `-1`. -/
structure PoolTok where
  type : JsmnType
  start : Option Nat
  stop : Option Nat
  size : Nat
deriving DecidableEq, Repr

/-- `jsmn_parser` and `tokens[0..toknext)`, the part of the pool in use. -/
structure JsmnParser where
  pos : Nat
  toksuper : Option Nat
  tokens : List PoolTok
deriving DecidableEq, Repr

/-- How a parse ends without a count: the codes of `jsmnerr`, an access outside
the used part of the pool, and a loop that does not end. -/
inductive JsmnFailure where
  | nomem
  | inval
  | part
  | badToken (i : Nat)
  | outOfFuel
deriving DecidableEq, Repr

def jsmnInit : JsmnParser := { pos := 0, toksuper := none, tokens := [] }

def JsmnParser.toknext (p : JsmnParser) : Nat := p.tokens.length

/-- `token->start != -1 && token->end == -1` -/
def PoolTok.isOpen (t : PoolTok) : Bool := t.start.isSome && t.stop.isNone

/-- `type == JSMN_ARRAY || type == JSMN_OBJECT` -/
def JsmnType.isContainer (type : JsmnType) : Bool :=
  type == .array || type == .object

/-- `js[pos]` where `pos < len && js[pos] != '\0'` -/
def peek (js : List Char) (pos : Nat) : Option Char :=
  (js[pos]?).filter (· ≠ Char.ofNat 0)

def JsmnParser.tokenAt (p : JsmnParser) (i : Nat) :
    Except JsmnFailure PoolTok :=
  match p.tokens[i]? with
  | some t => .ok t
  | none => .error (.badToken i)

def jsmnAllocToken (numTokens : Nat) (p : JsmnParser) :
    Except JsmnFailure JsmnParser :=
  if numTokens ≤ p.toknext then .error .nomem
  else .ok { p with
    tokens := p.tokens ++
      [{ type := .undefined, start := none, stop := none, size := 0 }] }

/-- `jsmn_fill_token` on the token that was allocated last. -/
def jsmnFillToken (p : JsmnParser) (type : JsmnType) (start stop : Nat) :
    JsmnParser :=
  { p with
    tokens := p.tokens.modify (p.toknext - 1) fun _ =>
      { type, start := some start, stop := some stop, size := 0 } }

/-- `tokens[parser->toksuper].size++`, if there is a superior token. -/
def countChild (p : JsmnParser) : Except JsmnFailure JsmnParser :=
  match p.toksuper with
  | none => .ok p
  | some i =>
      if i < p.toknext then
        .ok { p with
          tokens := p.tokens.modify i fun t => { t with size := t.size + 1 } }
      else .error (.badToken i)

/-! ### Leaves -/

def endsPrimitive (c : Char) : Bool :=
  c == ':' || c == '\t' || c == '\r' || c == '\n' || c == ' ' || c == ',' ||
    c == ']' || c == '}'

/-- The loop of `jsmn_parse_primitive`: where the primitive ends. -/
def primitiveEnd (js : List Char) : Nat → Nat → Except JsmnFailure Nat
  | 0, _ => .error .outOfFuel
  | fuel + 1, pos =>
      match peek js pos with
      | none => .ok pos
      | some c =>
          if endsPrimitive c then .ok pos
          else if c.toNat < 32 ∨ 127 ≤ c.toNat then .error .inval
          else primitiveEnd js fuel (pos + 1)

/-- The allocation and the filling of a leaf; `parser->pos` is left at `pos`. -/
def addLeaf (pool : Option Nat) (p : JsmnParser) (type : JsmnType)
    (start stop pos : Nat) : Except JsmnFailure JsmnParser :=
  match pool with
  | none => .ok { p with pos }
  | some numTokens => do
      let p ← jsmnAllocToken numTokens p
      return { jsmnFillToken p type start stop with pos }

def jsmnParsePrimitive (js : List Char) (pool : Option Nat) (p : JsmnParser) :
    Except JsmnFailure JsmnParser := do
  let stop ← primitiveEnd js (js.length + 1 - p.pos) p.pos
  addLeaf pool p .primitive p.pos stop (stop - 1)

def isHexDigit (c : Char) : Bool :=
  (48 ≤ c.toNat && c.toNat ≤ 57) || (65 ≤ c.toNat && c.toNat ≤ 70) ||
    (97 ≤ c.toNat && c.toNat ≤ 102)

/-- The loop over the digits of `\uXXXX`; the first argument is `4 - i`. -/
def hexDigitsEnd (js : List Char) : Nat → Nat → Except JsmnFailure Nat
  | 0, pos => .ok pos
  | left + 1, pos =>
      match peek js pos with
      | none => .ok pos
      | some c =>
          if isHexDigit c then hexDigitsEnd js left (pos + 1)
          else .error .inval

/-- The characters that may follow a backslash, `u` apart. -/
def isEscaped (c : Char) : Bool :=
  c == '"' || c == '/' || c == '\\' || c == 'b' || c == 'f' || c == 'r' ||
    c == 'n' || c == 't'

/-- The loop of `jsmn_parse_string`: where the closing quote stands. -/
def stringEnd (js : List Char) : Nat → Nat → Except JsmnFailure Nat
  | 0, _ => .error .outOfFuel
  | fuel + 1, pos =>
      match peek js pos with
      | none => .error .part
      | some c =>
          if c = '"' then .ok pos
          else if c = '\\' then
            match js[pos + 1]? with
            -- the last character of the text is not the start of an escape
            | none => stringEnd js fuel (pos + 1)
            | some e =>
                if isEscaped e then stringEnd js fuel (pos + 2)
                else if e = 'u' then do
                  let pos ← hexDigitsEnd js 4 (pos + 2)
                  stringEnd js fuel pos
                else .error .inval
          else stringEnd js fuel (pos + 1)

def jsmnParseString (js : List Char) (pool : Option Nat) (p : JsmnParser) :
    Except JsmnFailure JsmnParser := do
  let stop ← stringEnd js (js.length + 1 - p.pos) (p.pos + 1)
  addLeaf pool p .string (p.pos + 1) stop stop

/-! ### The main loop -/

/-- The greatest index below `n` of a token that is open. -/
def lastOpen (tokens : List PoolTok) (n : Nat) : Option Nat :=
  lastBelow (fun i => (tokens[i]?).any PoolTok.isOpen) n

/-- `case '{': case '[':` -/
def openContainer (numTokens : Nat) (p : JsmnParser) (c : Char) :
    Except JsmnFailure JsmnParser := do
  let p ← jsmnAllocToken numTokens p
  let p ← countChild p
  let last := p.toknext - 1
  return { p with
    tokens := p.tokens.modify last fun t =>
      { t with
        type := if c = '{' then .object else .array
        start := some p.pos }
    toksuper := some last }

/-- `case '}': case ']':` -/
def closeContainer (p : JsmnParser) (c : Char) :
    Except JsmnFailure JsmnParser :=
  match lastOpen p.tokens p.toknext with
  | none => .error .inval
  | some i => do
      let t ← p.tokenAt i
      if t.type ≠ (if c = '}' then .object else .array) then .error .inval
      else
        let tokens := p.tokens.modify i fun t =>
          { t with stop := some (p.pos + 1) }
        -- the second loop goes on from the token just closed
        return { p with tokens, toksuper := lastOpen tokens (i + 1) }

/-- `case ':':` -/
def afterColon (p : JsmnParser) : JsmnParser :=
  { p with
    toksuper := if p.toknext = 0 then none else some (p.toknext - 1) }

/-- `case ',':` -/
def afterComma (p : JsmnParser) : Except JsmnFailure JsmnParser :=
  match p.toksuper with
  | none => .ok p
  | some i => do
      let t ← p.tokenAt i
      if t.type.isContainer then return p
      else
        match lastBelow (fun j => (p.tokens[j]?).any fun t =>
            t.type.isContainer && t.isOpen) p.toknext with
        | none => return p
        | some j => return { p with toksuper := some j }

def isBlank (c : Char) : Bool :=
  c == '\t' || c == '\r' || c == '\n' || c == ' '

/-- What `jsmn_parse` does with a string or a primitive that was parsed. -/
def afterLeaf (pool : Option Nat) (p : JsmnParser) :
    Except JsmnFailure JsmnParser :=
  if pool.isSome then countChild p else .ok p

/-- The body of the loop of `jsmn_parse` at the character `c`, with `count`. -/
def jsmnStep (js : List Char) (pool : Option Nat) (p : JsmnParser)
    (count : Nat) (c : Char) : Except JsmnFailure (JsmnParser × Nat) :=
  if c = '{' ∨ c = '[' then
    match pool with
    | none => .ok (p, count + 1)
    | some numTokens => do
        let p ← openContainer numTokens p c
        return (p, count + 1)
  else if c = '}' ∨ c = ']' then
    match pool with
    | none => .ok (p, count)
    | some _ => do
        let p ← closeContainer p c
        return (p, count)
  else if c = '"' then do
    let p ← jsmnParseString js pool p
    let p ← afterLeaf pool p
    return (p, count + 1)
  else if isBlank c then .ok (p, count)
  else if c = ':' then .ok (afterColon p, count)
  else if c = ',' then
    match pool with
    | none => .ok (p, count)
    | some _ => do
        let p ← afterComma p
        return (p, count)
  else do
    let p ← jsmnParsePrimitive js pool p
    let p ← afterLeaf pool p
    return (p, count + 1)

def jsmnLoop (js : List Char) (pool : Option Nat) :
    Nat → JsmnParser → Nat → Except JsmnFailure (JsmnParser × Nat)
  | 0, _, _ => .error .outOfFuel
  | fuel + 1, p, count =>
      match peek js p.pos with
      | none => .ok (p, count)
      | some c => do
          let (p, count) ← jsmnStep js pool p count c
          jsmnLoop js pool fuel { p with pos := p.pos + 1 } count

/-- `jsmn_parse`, with the pool it leaves. -/
def jsmnParse (js : List Char) (pool : Option Nat) (p : JsmnParser) :
    Except JsmnFailure (JsmnParser × Nat) := do
  let (p, count) ← jsmnLoop js pool (js.length + 1 - p.pos) p p.toknext
  if pool.isSome && p.tokens.any PoolTok.isOpen then .error .part
  else return (p, count)

/-- A token that has been closed, as the loader reads it. -/
def PoolTok.closed (t : PoolTok) : Option JsmnTok := do
  return {
    type := t.type
    start := ← t.start
    stop := ← t.stop
    size := t.size }

/-- The tokens that `malloc((size_t)total * sizeof(jsmntok_t))` has room for:
a `size_t` has 32 bits, and a token 16 bytes. -/
def poolRoom (total : Nat) : Nat := total * 16 % 2 ^ 32 / 16

/-- The second pass of `recording_load`, which is told of `total` tokens. -/
def fillPass (js : List Char) (total : Nat) :
    Except JsmnFailure (JsmnParser × Nat) :=
  if total ≤ poolRoom total then jsmnParse js (some total) jsmnInit
  else
    match jsmnParse js (some (poolRoom total)) jsmnInit with
    -- a pass over that pool asks for one more, and gets what lies behind it
    | .error .nomem => .error (.badToken (poolRoom total))
    | r => r

/-- `recording_load` up to the walk: a first pass that counts the tokens, and a
second one into a pool for that many.  `none` is its `NULL`. -/
def tokenize (js : List Char) : Except JsmnFailure (Option (List PoolTok)) :=
  match jsmnParse js none jsmnInit with
  | .error .nomem | .error .inval | .error .part => .ok none
  | .error failure => .error failure
  | .ok (_, total) =>
      if total < 1 then .ok none
      else
        match fillPass js total with
        | .error .nomem | .error .inval | .error .part => .ok none
        | .error failure => .error failure
        | .ok (p, n) => .ok (if n < 1 then none else some p.tokens)

theorem poolRoom_of_lt {total : Nat} (h : total < 2 ^ 28) :
    poolRoom total = total := by
  unfold poolRoom
  omega

theorem poolRoom_lt {total : Nat} (h : 2 ^ 28 ≤ total) :
    poolRoom total < total := by
  unfold poolRoom
  omega

theorem fillPass_of_lt {total : Nat} (h : total < 2 ^ 28) (js : List Char) :
    fillPass js total = jsmnParse js (some total) jsmnInit := by
  rw [fillPass, if_pos (poolRoom_of_lt h).ge]

end FremSoft
