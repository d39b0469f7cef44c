/-
The data path of `fremsoft.c`: what each entry point does to the module state,
for any clock reading and any pattern of failing allocations.
-/
import FremSoft.Recording
import FremSoft.Scheduler

namespace FremSoft

/-- One hex line of the activity log. -/
structure ActivityLine where
  ms : UInt64
  tid : UInt32
  tag : List Char
  bytes : List UInt8
deriving DecidableEq, Repr

structure UnknownRecord where
  canId : UInt32
  uds : List UInt8
deriving DecidableEq, Repr

/-- The module-local state of `fremsoft.c`; a log that could not be opened is
`none`. -/
structure FremSoftState where
  gMode : FremsoftMode
  gRecording : Option Recording
  gScheduler : Option (Scheduler (List UInt8))
  gNextHCop : UInt32
  gActivityLog : Option (List ActivityLine)
  gUnknownLog : Option (List UnknownRecord)
deriving DecidableEq, Repr

/-- What one call reads from outside the module: the tick count, the clock of
its `k`-th log line, its thread, and which of its allocations succeed. -/
structure CallEnv where
  tickMs : UInt64
  lineMs : Nat → UInt64
  tid : UInt32
  payloadOk : Nat → Bool
  nodeOk : Nat → Bool
  blobOk : Bool

def CallEnv.AllocationsSucceed (env : CallEnv) : Prop :=
  (∀ k, env.payloadOk k = true) ∧ (∀ k, env.nodeOk k = true) ∧
    env.blobOk = true

/-- `GetTickCount64() * 1000ULL` -/
def CallEnv.nowUs (env : CallEnv) : UInt64 := env.tickMs * 1000

/-- A call at a tick, on a heap that never fails. -/
def callAt (tickMs : UInt64) : CallEnv :=
  { tickMs, lineMs := fun _ => tickMs, tid := 1, payloadOk := fun _ => true
    nodeOk := fun _ => true, blobOk := true }

/-- The arguments of `PDUStartComPrimitive` that FremSoft reads; `pCoPData` is
the buffer behind the pointer, and `phCoP` whether the handle is asked for. -/
structure StartArgs where
  hMod : UInt32
  hCll : UInt32
  coPType : UInt32
  coPDataSize : UInt32
  pCoPData : Option (List UInt8)
  pCoPTag : VoidPtr
  phCoP : Bool
deriving DecidableEq, Repr

/-- A one-byte request to `0x7E0` on link `(1, 2)`. -/
def shortRequest (sid : UInt8) : StartArgs :=
  { hMod := 1, hCll := 2, coPType := pduCoptSendrecv, coPDataSize := 5
    pCoPData := some [0x00, 0x00, 0x07, 0xE0, sid], pCoPTag := 0, phCoP := true }

structure StartResult where
  status : TPduError
  hCoP : Option UInt32
deriving DecidableEq, Repr

/-- The event item handed to the client; the result fields FremSoft leaves zero
are left out. -/
structure EventItem where
  itemType : UInt32
  hCop : UInt32
  pCoPTag : VoidPtr
  timestamp : UInt32
  numDataBytes : UInt32
  dataBytes : List UInt8
deriving DecidableEq, Repr

structure GetResult where
  status : TPduError
  item : Option EventItem
deriving DecidableEq, Repr

/-- Append one line to the activity log when it is open. -/
def FremSoftState.logLine (st : FremSoftState) (env : CallEnv) (k : Nat)
    (tag : List Char) (bytes : List UInt8) : FremSoftState :=
  { st with gActivityLog := st.gActivityLog.map fun lines =>
      lines ++ [{ ms := env.lineMs k, tid := env.tid, tag, bytes }] }

def fremsoftLogReqPdu (st : FremSoftState) (env : CallEnv) (k : Nat)
    (bytes : List UInt8) : FremSoftState :=
  st.logLine env k "REQ-PDU".toList bytes

def fremsoftLogRspUds (st : FremSoftState) (env : CallEnv) (k : Nat)
    (bytes : List UInt8) : FremSoftState :=
  st.logLine env k "RSP-UDS".toList bytes

def unknownLogRecord (st : FremSoftState) (canId : UInt32)
    (uds : List UInt8) : FremSoftState :=
  { st with gUnknownLog := st.gUnknownLog.map fun lines =>
      lines ++ [{ canId, uds }] }

def StartArgs.bytes (a : StartArgs) : List UInt8 :=
  (a.pCoPData.getD []).take a.coPDataSize.toNat

/-- The `(can_id, uds)` pair of a request: a four-byte big-endian CAN-ID, then
the UDS bytes. -/
def decodeRequest (bytes : List UInt8) : UInt32 × List UInt8 :=
  (readCanId (bytes.getD 0 0) (bytes.getD 1 0) (bytes.getD 2 0)
    (bytes.getD 3 0), bytes.drop 4)

def responseEvent (a : StartArgs) (hCop : UInt32) (dueUs : UInt64)
    (r : RecordedResponse) : SchedEvent (List UInt8) :=
  { dueUs
    hMod := a.hMod
    hCll := a.hCll
    hCop
    copTag := a.pCoPTag
    itemType := pduItResult
    numData := 4 + UInt32.ofNat r.udsBytes.length
    dataBytes := canIdBytes r.canId ++ r.udsBytes }

/-- The event of an unknown request: `7F <SID> 11` from `can_id + 0x400`, fifty
milliseconds on. -/
def nrcEvent (a : StartArgs) (hCop : UInt32) (nowUs : UInt64)
    (canId : UInt32) (uds : List UInt8) : SchedEvent (List UInt8) :=
  { dueUs := nowUs + 50000
    hMod := a.hMod
    hCll := a.hCll
    hCop
    copTag := a.pCoPTag
    itemType := pduItResult
    numData := 4 + 3
    dataBytes := canIdBytes (canId + 0x400) ++ [0x7F, uds.headD 0, 0x11] }

def addDelay (cumulativeUs : UInt64) (r : RecordedResponse) : UInt64 :=
  cumulativeUs + r.delayMs.toUInt64 * 1000

/-- The loop over the recorded responses, from the `i`-th on.  A payload that
cannot be allocated is skipped, and the status of `scheduler_push` ignored. -/
def scheduleResponses (env : CallEnv) (a : StartArgs) (hCop : UInt32)
    (nowUs : UInt64) :
    Nat → UInt64 → List RecordedResponse → FremSoftState → FremSoftState
  | _, _, [], st => st
  | i, cumulativeUs, r :: rest, st =>
      let cumulativeUs := addDelay cumulativeUs r
      if env.payloadOk i then
        let e := responseEvent a hCop (nowUs + cumulativeUs) r
        let st := { st with
          gScheduler := (schedulerPush (env.nodeOk i) st.gScheduler e).2 }
        let st := fremsoftLogRspUds st env (i + 1) e.dataBytes
        scheduleResponses env a hCop nowUs (i + 1) cumulativeUs rest st
      else scheduleResponses env a hCop nowUs (i + 1) cumulativeUs rest st

/-- The branch for a request that is not in the recording. -/
def scheduleNrc (env : CallEnv) (a : StartArgs) (hCop : UInt32)
    (canId : UInt32) (uds : List UInt8) (st : FremSoftState) :
    FremSoftState :=
  let st := unknownLogRecord st canId uds
  if env.payloadOk 0 then
    let e := nrcEvent a hCop env.nowUs canId uds
    let st := { st with
      gScheduler := (schedulerPush (env.nodeOk 0) st.gScheduler e).2 }
    fremsoftLogRspUds st env 1 e.dataBytes
  else st

def fremsoftPDUStartComPrimitive (env : CallEnv) (st : FremSoftState)
    (a : StartArgs) : FremSoftState × StartResult :=
  let hCop := st.gNextHCop + 1
  let st := { st with gNextHCop := hCop }
  let result : StartResult :=
    { status := pduStatusNoError, hCoP := if a.phCoP then some hCop else none }
  if a.coPType ≠ pduCoptSendrecv then (st, result)
  else if a.coPDataSize < 5 ∨ a.pCoPData = none then (st, result)
  else
    let (canId, uds) := decodeRequest a.bytes
    let st := fremsoftLogReqPdu st env 0 a.bytes
    match recordingLookup st.gRecording canId uds with
    | some found =>
        (scheduleResponses env a hCop env.nowUs 0 0 found.responses st, result)
    | none => (scheduleNrc env a hCop canId uds st, result)

/-- The item made of a popped event: `num_data` bytes are copied. -/
def eventItem (e : SchedEvent (List UInt8)) (nowUs : UInt64) : EventItem :=
  { itemType := e.itemType
    hCop := e.hCop
    pCoPTag := e.copTag
    timestamp := (nowUs &&& 0xFFFFFFFF).toUInt32
    numDataBytes := e.numData
    dataBytes := e.dataBytes.take e.numData.toNat }

/-- `fremsoft_PDUGetEventItem`; the flag is whether `pEventItem` is non-null.
An event whose item cannot be allocated is gone. -/
def fremsoftPDUGetEventItem (env : CallEnv) (st : FremSoftState)
    (hMod hCll : UInt32) (pEventItem : Bool) : FremSoftState × GetResult :=
  if !pEventItem then
    (st, { status := pduErrInvalidParameters, item := none })
  else
    match schedulerPopDue st.gScheduler hMod hCll env.nowUs with
    | (none, s) =>
        ({ st with gScheduler := s },
          { status := pduErrEventQueueEmpty, item := none })
    | (some e, s) =>
        if env.blobOk then
          ({ st with gScheduler := s },
            { status := pduStatusNoError, item := some (eventItem e env.nowUs) })
        else
          ({ st with gScheduler := s },
            { status := pduErrFctFailed, item := none })

/-- A poll changes the scheduler and nothing else. -/
theorem fremsoftPDUGetEventItem_fst (env : CallEnv) (st : FremSoftState)
    (hMod hCll : UInt32) (pEventItem : Bool) :
    (fremsoftPDUGetEventItem env st hMod hCll pEventItem).1 =
      { st with gScheduler :=
          if pEventItem then
            (schedulerPopDue st.gScheduler hMod hCll env.nowUs).2
          else st.gScheduler } := by
  cases pEventItem with
  | false => rfl
  | true =>
      simp only [fremsoftPDUGetEventItem, Bool.not_true, Bool.false_eq_true,
        if_false, if_true]
      cases schedulerPopDue st.gScheduler hMod hCll env.nowUs with
      | mk popped s =>
          cases popped <;> cases hblob : env.blobOk <;> simp

def fremsoftPDURegisterEventCallback (st : FremSoftState) (hMod hCll : UInt32)
    (cb : Option FremsoftEventCb) : FremSoftState × TPduError :=
  ({ st with gScheduler := schedulerSetCallback st.gScheduler hMod hCll cb },
    pduStatusNoError)

end FremSoft
