/-
The machine types and constants the C sources share, and the four-byte
big-endian CAN-ID that every request and reply carries in front of its UDS
bytes.
-/
import Mathlib.Data.List.Basic
import Mathlib.Tactic.IntervalCases

namespace FremSoft

/-- `void*` in the 32-bit process the shim lives in. -/
abbrev VoidPtr := UInt32

/-- `T_PDU_ERROR`, with the codes of ISO 22900-2 that `fremsoft.h` defines. -/
abbrev TPduError := UInt32

def pduStatusNoError : TPduError := 0x00000000
def pduErrInvalidParameters : TPduError := 0x00000007
def pduErrFctFailed : TPduError := 0x0000000B
def pduErrEventQueueEmpty : TPduError := 0x00000018

/-- `CoPType` of the primitive that carries a diagnostic request. -/
def pduCoptSendrecv : UInt32 := 0x8010

def pduItResult : UInt32 := 0x1300

/-- `FREMSOFT_MODE_*`, in the order of the C enumeration. -/
inductive FremsoftMode where
  | passthrough
  | record
  | playback
  | standalone
deriving DecidableEq, Repr

/-- `mode >= FREMSOFT_MODE_PLAYBACK` -/
def FremsoftMode.servesReplies : FremsoftMode → Bool
  | .passthrough | .record => false
  | .playback | .standalone => true

/-- The big-endian `uint32_t` of bytes 0..3. -/
def readCanId (b0 b1 b2 b3 : UInt8) : UInt32 :=
  (b0.toUInt32 <<< 24) ||| (b1.toUInt32 <<< 16) |||
    (b2.toUInt32 <<< 8) ||| (b3.toUInt32 <<< 0)

/-- The CAN-ID prefix of a payload, `(can >> 24) & 0xFF` down to
`can & 0xFF`. -/
def canIdBytes (canId : UInt32) : List UInt8 :=
  [((canId >>> 24) &&& 0xFF).toUInt8, ((canId >>> 16) &&& 0xFF).toUInt8,
    ((canId >>> 8) &&& 0xFF).toUInt8, (canId &&& 0xFF).toUInt8]

@[simp] theorem canIdBytes_length (canId : UInt32) :
    (canIdBytes canId).length = 4 := rfl

theorem readCanId_toNat (b0 b1 b2 b3 : UInt8) :
    (readCanId b0 b1 b2 b3).toNat =
      b0.toNat * 2 ^ 24 + b1.toNat * 2 ^ 16 + b2.toNat * 2 ^ 8 + b3.toNat := by
  have h0 := b0.toNat_lt
  have h1 := b1.toNat_lt
  have h2 := b2.toNat_lt
  have h3 := b3.toNat_lt
  simp only [readCanId, UInt32.toNat_or, UInt32.toNat_shiftLeft,
    UInt8.toNat_toUInt32]
  simp only [UInt32.reduceToNat, Nat.reduceMod, Nat.shiftLeft_zero]
  -- No byte reaches past the top of the word, and the four fields are disjoint.
  rw [Nat.mod_eq_of_lt (a := b0.toNat <<< 24) (by rw [Nat.shiftLeft_eq]; omega),
    Nat.mod_eq_of_lt (a := b1.toNat <<< 16) (by rw [Nat.shiftLeft_eq]; omega),
    Nat.mod_eq_of_lt (a := b2.toNat <<< 8) (by rw [Nat.shiftLeft_eq]; omega),
    Nat.mod_eq_of_lt (a := b3.toNat) (by omega), Nat.or_assoc, Nat.or_assoc,
    ← Nat.shiftLeft_add_eq_or_of_lt (i := 8) (by omega),
    ← Nat.shiftLeft_add_eq_or_of_lt (i := 16)
      (by rw [Nat.shiftLeft_eq]; omega),
    ← Nat.shiftLeft_add_eq_or_of_lt (i := 24)
      (by simp only [Nat.shiftLeft_eq]; omega)]
  simp only [Nat.shiftLeft_eq]
  omega

/-- Splitting a CAN-ID that was read from four bytes gives the bytes back. -/
theorem canIdBytes_readCanId (b0 b1 b2 b3 : UInt8) :
    canIdBytes (readCanId b0 b1 b2 b3) = [b0, b1, b2, b3] := by
  simp only [canIdBytes, readCanId, List.cons.injEq, and_true]
  refine ⟨?_, ?_, ?_, ?_⟩ <;>
  · apply UInt8.toBitVec_inj.1
    apply BitVec.eq_of_getLsbD_eq
    intro i hi
    simp
    interval_cases i <;> simp

end FremSoft
