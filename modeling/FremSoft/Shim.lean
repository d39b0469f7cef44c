/-
The exported D-PDU functions of the shim.  Three of them are wrappers that
serve the data path from FremSoft when the mode says so; the others go to the
real DLL in every mode, two of them with a dump of their data in the log.  The
real DLL is not part of the repository and is a parameter.
-/
import FremSoft.Lib.Run
import FremSoft.Start

namespace FremSoft

universe u v

/-- An event item of the real DLL, as far as the wrapper reads it: whether
`pData` and the `pDataBytes` of the result are non-null, and the `RxFlag` bytes
of the result. -/
structure RealItem where
  item : EventItem
  pData : Bool
  pDataBytes : Bool
  rxFlag : List UInt8

/-- The real DLL: what its functions do to its own state `ρ`.  `κ` stands for
a call of one of its exports that are not named here. -/
structure RealDll (ρ : Type u) (κ : Type v) where
  startComPrimitive : ρ → StartArgs → ρ × StartResult
  getEventItem : ρ → UInt32 → UInt32 → Bool → ρ × TPduError × Option RealItem
  registerEventCallback :
    ρ → UInt32 → UInt32 → Option FremsoftEventCb → ρ × TPduError
  cancelComPrimitive : ρ → UInt32 → UInt32 → UInt32 → ρ × TPduError
  other : ρ → κ → ρ × TPduError

/-- What an exported call reads from outside: that of FremSoft, and the times
of its lines in the shim's own log. -/
structure ShimEnv extends CallEnv where
  shimMs : Nat → UInt64

/-- The process behind the exports: FremSoft, the hex lines of the shim's log,
and the real DLL. -/
structure ShimState (ρ : Type u) where
  frem : FremSoftState
  gLog : Option (List ActivityLine)
  real : ρ

variable {ρ : Type u} {κ : Type v}

def shimLogHex (s : ShimState ρ) (env : ShimEnv) (k : Nat) (tag : List Char)
    (bytes : List UInt8) : ShimState ρ :=
  { s with gLog := s.gLog.map fun lines =>
      lines ++ [{ ms := env.shimMs k, tid := env.tid, tag, bytes }] }

/-- The condition under which the wrapper logs a request. -/
def StartArgs.isLogged (a : StartArgs) : Bool :=
  a.pCoPData.isSome && decide (0 < a.coPDataSize) &&
    decide (a.coPDataSize ≤ 4096)

def pduStartComPrimitive (dll : RealDll ρ κ) (env : ShimEnv) (s : ShimState ρ)
    (a : StartArgs) : ShimState ρ × StartResult :=
  let s := if a.isLogged then shimLogHex s env 0 "REQ-PDU".toList a.bytes else s
  if s.frem.gMode.servesReplies then
    let (frem, result) := fremsoftPDUStartComPrimitive env.toCallEnv s.frem a
    ({ s with frem }, result)
  else
    let (real, result) := dll.startComPrimitive s.real a
    ({ s with real }, result)

/-- What the data path does is up to FremSoft when it serves replies. -/
theorem pduStartComPrimitive_frem (dll : RealDll ρ κ) (env : ShimEnv)
    {s : ShimState ρ} (hserves : s.frem.gMode.servesReplies = true)
    (a : StartArgs) :
    (pduStartComPrimitive dll env s a).1.frem =
        (fremsoftPDUStartComPrimitive env.toCallEnv s.frem a).1 ∧
      (pduStartComPrimitive dll env s a).2 = startResult s.frem a := by
  rw [← fremsoftPDUStartComPrimitive_snd env.toCallEnv]
  cases hlogged : a.isLogged <;>
    simp [pduStartComPrimitive, shimLogHex, hserves, hlogged]

/-- The lines the wrapper logs for an item of the real DLL. -/
def logRealItem (s : ShimState ρ) (env : ShimEnv) (x : RealItem) :
    ShimState ρ :=
  if x.item.itemType = pduItResult ∧ x.pData = true then
    let s :=
      if x.pDataBytes = true ∧ 0 < x.item.numDataBytes ∧
          x.item.numDataBytes ≤ 4096 then
        shimLogHex s env 0 "RSP-UDS".toList x.item.dataBytes
      else s
    if 0 < x.rxFlag.length ∧ x.rxFlag.length ≤ 64 then
      shimLogHex s env 1 "RSP-RxFlag".toList x.rxFlag
    else s
  else s

def pduGetEventItem (dll : RealDll ρ κ) (env : ShimEnv) (s : ShimState ρ)
    (hMod hCll : UInt32) (pEventItem : Bool) : ShimState ρ × GetResult :=
  if s.frem.gMode.servesReplies then
    let (frem, result) :=
      fremsoftPDUGetEventItem env.toCallEnv s.frem hMod hCll pEventItem
    ({ s with frem }, result)
  else
    let (real, status, found) := dll.getEventItem s.real hMod hCll pEventItem
    let s := { s with real }
    match found with
    | some x =>
        (if status = 0 ∧ pEventItem = true then logRealItem s env x else s,
          { status, item := some x.item })
    | none => (s, { status, item := none })

/-- `PDURegisterEventCallback`; the slots the wrapper keeps for the real DLL's
callbacks are only ever written. -/
def pduRegisterEventCallback (dll : RealDll ρ κ) (s : ShimState ρ)
    (hMod hCll : UInt32) (cb : Option FremsoftEventCb) :
    ShimState ρ × TPduError :=
  if s.frem.gMode.servesReplies then
    let (frem, status) :=
      fremsoftPDURegisterEventCallback s.frem hMod hCll cb
    ({ s with frem }, status)
  else
    let (real, status) := dll.registerEventCallback s.real hMod hCll cb
    ({ s with real }, status)

/-- `PDUCancelComPrimitive`: a naked jump to the real DLL, in every mode. -/
def pduCancelComPrimitive (dll : RealDll ρ κ) (s : ShimState ρ)
    (hMod hCll hCop : UInt32) : ShimState ρ × TPduError :=
  let (real, status) := dll.cancelComPrimitive s.real hMod hCll hCop
  ({ s with real }, status)

/-- Every other export, as far as it changes anything here. -/
def pduOther (dll : RealDll ρ κ) (s : ShimState ρ) (call : κ) :
    ShimState ρ × TPduError :=
  let (real, status) := dll.other s.real call
  ({ s with real }, status)

/-- `PDUIoCtl`: the first 32 bytes behind `pInputData` are dumped. -/
def pduIoCtl (dll : RealDll ρ κ) (env : ShimEnv) (s : ShimState ρ) (call : κ)
    (pInputData : Option (Vector UInt8 32)) : ShimState ρ × TPduError :=
  let s := match pInputData with
    | some data => shimLogHex s env 0 "IOCTL-IN".toList data.toList
    | none => s
  pduOther dll s call

/-- `T_PDU_PARAM_MIN`, as far as its data is dumped. -/
structure PduParamMin where
  pComParamData : Option (Vector UInt8 32)

/-- `PDUSetComParam`: so are those behind the data of the parameter. -/
def pduSetComParam (dll : RealDll ρ κ) (env : ShimEnv) (s : ShimState ρ)
    (call : κ) (pParam : Option PduParamMin) : ShimState ρ × TPduError :=
  let s := match pParam with
    | some param =>
        match param.pComParamData with
        | some data => shimLogHex s env 0 "PARAM-DATA".toList data.toList
        | none => s
    | none => s
  pduOther dll s call

inductive ApiCall (κ : Type v) where
  | startComPrimitive (env : ShimEnv) (a : StartArgs)
  | getEventItem (env : ShimEnv) (hMod hCll : UInt32) (pEventItem : Bool)
  | registerEventCallback (hMod hCll : UInt32) (cb : Option FremsoftEventCb)
  | cancelComPrimitive (hMod hCll hCop : UInt32)
  | ioCtl (env : ShimEnv) (call : κ) (pInputData : Option (Vector UInt8 32))
  | setComParam (env : ShimEnv) (call : κ) (pParam : Option PduParamMin)
  | other (call : κ)

inductive ApiReturn where
  | started (result : StartResult)
  | event (result : GetResult)
  | status (status : TPduError)
deriving DecidableEq, Repr

def apiCall (dll : RealDll ρ κ) (s : ShimState ρ) :
    ApiCall κ → ShimState ρ × ApiReturn
  | .startComPrimitive env a =>
      let (s, result) := pduStartComPrimitive dll env s a
      (s, .started result)
  | .getEventItem env hMod hCll pEventItem =>
      let (s, result) := pduGetEventItem dll env s hMod hCll pEventItem
      (s, .event result)
  | .registerEventCallback hMod hCll cb =>
      let (s, status) := pduRegisterEventCallback dll s hMod hCll cb
      (s, .status status)
  | .cancelComPrimitive hMod hCll hCop =>
      let (s, status) := pduCancelComPrimitive dll s hMod hCll hCop
      (s, .status status)
  | .ioCtl env call pInputData =>
      let (s, status) := pduIoCtl dll env s call pInputData
      (s, .status status)
  | .setComParam env call pParam =>
      let (s, status) := pduSetComParam dll env s call pParam
      (s, .status status)
  | .other call =>
      let (s, status) := pduOther dll s call
      (s, .status status)

@[simp] theorem pduOther_frem (dll : RealDll ρ κ) (s : ShimState ρ)
    (call : κ) : (pduOther dll s call).1.frem = s.frem := rfl

@[simp] theorem pduIoCtl_frem (dll : RealDll ρ κ) (env : ShimEnv)
    (s : ShimState ρ) (call : κ) (pInputData : Option (Vector UInt8 32)) :
    (pduIoCtl dll env s call pInputData).1.frem = s.frem := by
  cases pInputData <;> rfl

@[simp] theorem pduSetComParam_frem (dll : RealDll ρ κ) (env : ShimEnv)
    (s : ShimState ρ) (call : κ) (pParam : Option PduParamMin) :
    (pduSetComParam dll env s call pParam).1.frem = s.frem := by
  rcases pParam with _ | ⟨_ | data⟩ <;> rfl

/-- A client calling the exports one after the other. -/
def apiMachine (dll : RealDll ρ κ) :
    Machine (ShimState ρ) (ApiCall κ) ApiReturn :=
  { step := fun s call => some ((apiCall dll s call).1, [(apiCall dll s call).2]) }

/-- A real DLL that accepts every call and keeps no state. -/
def quietDll : RealDll Unit Unit where
  startComPrimitive _ _ := ((), { status := 0, hCoP := none })
  getEventItem _ _ _ _ := ((), pduErrEventQueueEmpty, none)
  registerEventCallback _ _ _ _ := ((), 0)
  cancelComPrimitive _ _ _ _ := ((), 0)
  other _ _ := ((), 0)

def shimCallAt (tickMs : UInt64) : ShimEnv :=
  { callAt tickMs with shimMs := fun _ => tickMs }

end FremSoft
