/-
The recording of `recording.c` as it stands in memory, its lookup, and the two
text decoders the loader is built from.
-/
import FremSoft.Basic
import FremSoft.Lib.Digits

namespace FremSoft

/-- `recorded_response_t`; `uds_len` is the length of the bytes. -/
structure RecordedResponse where
  canId : UInt32
  udsBytes : List UInt8
  delayMs : UInt32
deriving DecidableEq, Repr

/-- `recorded_exchange_t`; `num_responses` is the length of the list. -/
structure RecordedExchange where
  canId : UInt32
  udsBytes : List UInt8
  responses : List RecordedResponse
deriving DecidableEq, Repr

/-- What `calloc` leaves in an array of responses. -/
def RecordedResponse.zero : RecordedResponse :=
  { canId := 0, udsBytes := [], delayMs := 0 }

/-- What `calloc` leaves in an array of exchanges. -/
def RecordedExchange.zero : RecordedExchange :=
  { canId := 0, udsBytes := [], responses := [] }

structure Recording where
  recordingId : List Char
  vehicleProfile : List Char
  exchanges : List RecordedExchange
deriving DecidableEq, Repr

def RecordedExchange.key (e : RecordedExchange) : UInt32 × List UInt8 :=
  (e.canId, e.udsBytes)

/-- The scan of `recording_lookup`: first exchange with the CAN-ID, the length
and, by `memcmp`, the bytes. -/
def lookupScan (canId : UInt32) (uds : List UInt8) :
    List RecordedExchange → Option RecordedExchange
  | [] => none
  | e :: rest =>
      if e.canId ≠ canId then lookupScan canId uds rest
      else if e.udsBytes.length ≠ uds.length then lookupScan canId uds rest
      else if e.udsBytes = uds then some e
      else lookupScan canId uds rest

def recordingLookup (r : Option Recording) (canId : UInt32)
    (uds : List UInt8) : Option RecordedExchange :=
  match r with
  | none => none
  | some r => lookupScan canId uds r.exchanges

/-- The lookup is the first exchange whose key is the pair asked for. -/
theorem lookupScan_eq_find? (canId : UInt32) (uds : List UInt8)
    (exchanges : List RecordedExchange) :
    lookupScan canId uds exchanges =
      exchanges.find? fun e => decide (e.key = (canId, uds)) := by
  induction exchanges with
  | nil => rfl
  | cons e rest ih =>
      rw [lookupScan, ih, List.find?_cons, RecordedExchange.key]
      by_cases hcan : e.canId = canId
      · by_cases huds : e.udsBytes = uds
        · simp [hcan, huds]
        · simp [hcan, huds]
      · simp [hcan]

theorem lookupScan_mem {canId : UInt32} {uds : List UInt8}
    {exchanges : List RecordedExchange} {e : RecordedExchange}
    (h : lookupScan canId uds exchanges = some e) :
    e ∈ exchanges ∧ e.key = (canId, uds) := by
  rw [lookupScan_eq_find?] at h
  exact ⟨List.mem_of_find?_eq_some h, by simpa using List.find?_some h⟩

theorem lookupScan_eq_none_iff {canId : UInt32} {uds : List UInt8}
    {exchanges : List RecordedExchange} :
    lookupScan canId uds exchanges = none ↔
      ∀ e ∈ exchanges, e.key ≠ (canId, uds) := by
  rw [lookupScan_eq_find?, List.find?_eq_none]
  simp

/-- With distinct keys every exchange is the one found under its own key. -/
theorem lookupScan_of_mem {exchanges : List RecordedExchange}
    (hdistinct : (exchanges.map RecordedExchange.key).Nodup)
    {e : RecordedExchange} (he : e ∈ exchanges) :
    lookupScan e.canId e.udsBytes exchanges = some e := by
  induction exchanges with
  | nil => simp at he
  | cons head tail ih =>
      rw [List.map_cons, List.nodup_cons] at hdistinct
      rw [lookupScan_eq_find?, List.find?_cons]
      rcases List.mem_cons.1 he with rfl | htail
      · simp [RecordedExchange.key]
      · have hne : head.key ≠ (e.canId, e.udsBytes) := by
          intro heq
          apply hdistinct.1
          rw [heq]
          exact List.mem_map_of_mem (f := RecordedExchange.key) htail
        simp only [hne, decide_false]
        rw [← lookupScan_eq_find?]
        exact ih hdistinct.2 htail

/-! ### Text decoders -/

/-- `parse_can_id_str`: an optional `0x`, then `strtoul` on the 16-byte
buffer; text that does not fit the buffer is `0`. -/
def parseCanIdStr (s : List Char) : UInt32 :=
  if s.length = 0 ∨ 16 ≤ s.length then 0
  else
    match s with
    | '0' :: x :: c :: rest =>
        if x = 'x' ∨ x = 'X' then strtoul 16 (c :: rest) else strtoul 16 s
    | _ => strtoul 16 s

def hexNibble? (c : Char) : Option Nat :=
  if 48 ≤ c.toNat ∧ c.toNat ≤ 57 then some (c.toNat - 48)
  else if 97 ≤ c.toNat ∧ c.toNat ≤ 102 then some (10 + (c.toNat - 97))
  else if 65 ≤ c.toNat ∧ c.toNat ≤ 70 then some (10 + (c.toNat - 65))
  else none

/-- The loop of `parse_hex_bytes`; `hi` is the nibble still waiting for its
partner. -/
def parseHexLoop : Option Nat → List Char → List UInt8
  | _, [] => []
  | hi, c :: rest =>
      match hexNibble? c with
      | none => parseHexLoop hi rest
      | some v =>
          match hi with
          | none => parseHexLoop (some v) rest
          | some h => UInt8.ofNat ((h <<< 4) ||| v) :: parseHexLoop none rest

def parseHexBytes (s : List Char) : List UInt8 := parseHexLoop none s

theorem parseHexLoop_length (hi : Option Nat) (s : List Char) :
    2 * (parseHexLoop hi s).length ≤ s.length + hi.toList.length := by
  induction s generalizing hi with
  | nil => simp [parseHexLoop]
  | cons c rest ih =>
      unfold parseHexLoop
      cases hexNibble? c with
      | none =>
          have := ih hi
          simp only [List.length_cons]
          omega
      | some v =>
          cases hi with
          | none =>
              have := ih (some v)
              simp only [List.length_cons, Option.toList] at this ⊢
              simpa using this
          | some h =>
              have := ih none
              simp only [List.length_cons, Option.toList] at this ⊢
              simp only [List.length_nil] at this
              omega

/-- The output never outgrows half of the text, hence its `slen / 2 + 4`
buffer. -/
theorem parseHexBytes_length (s : List Char) :
    (parseHexBytes s).length ≤ s.length / 2 := by
  have h := parseHexLoop_length none s
  simp only [Option.toList, List.length_nil] at h
  unfold parseHexBytes
  omega

/-- A recording whose byte strings came out of C strings of `int` length. -/
def Recording.Sized (r : Recording) : Prop :=
  ∀ e ∈ r.exchanges, e.udsBytes.length < 2 ^ 31 ∧
    ∀ x ∈ e.responses, x.udsBytes.length < 2 ^ 31

end FremSoft
