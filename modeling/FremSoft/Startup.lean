/-
From `DLL_PROCESS_ATTACH` to the data path.  The mode decides whether the real
DLL is loaded, `fremsoft_init` may change it when something is missing, and
every call is routed by what it is then: the three have to fit together.
-/
import FremSoft.Cancel

namespace FremSoft

universe u v

variable {ρ : Type u} {κ : Type v}

/-- What the process finds when it attaches: the `Mode` value of the registry,
what `recording_load` makes of the recording file, and which of the other steps
succeed. -/
structure StartupEnv where
  modeValue : Option (List Char)
  recording : Option Recording
  schedulerOk : Bool
  activityLogOk : Bool
  unknownLogOk : Bool

/-- `_stricmp(buf, name) == 0` -/
def stricmpEq (buf name : List Char) : Bool :=
  buf.map Char.toLower == name.map Char.toLower

/-- `read_mode_from_registry`: a value that is missing, too long for the buffer
or not one of the four is `RECORD`. -/
def readModeFromRegistry : Option (List Char) → FremsoftMode
  | none => .record
  | some buf =>
      if 31 ≤ buf.length then .record
      else if stricmpEq buf "passthrough".toList then .passthrough
      else if stricmpEq buf "record".toList then .record
      else if stricmpEq buf "playback".toList then .playback
      else if stricmpEq buf "standalone".toList then .standalone
      else .record

/-- The module state before `fremsoft_init`. -/
def FremSoftState.static : FremSoftState :=
  { gMode := .passthrough
    gRecording := none
    gScheduler := none
    gNextHCop := 0x10000
    gActivityLog := none
    gUnknownLog := none }

/-- `fremsoft_init`, with its return value. -/
def fremsoftInit (env : StartupEnv) (st : FremSoftState)
    (mode : FremsoftMode) : Int × FremSoftState :=
  let st := { st with gMode := mode }
  if !mode.servesReplies then (0, st)
  else
    let st := { st with
      gActivityLog := if env.activityLogOk then some [] else none
      gUnknownLog := if env.unknownLogOk then some [] else none
      gRecording := env.recording }
    if env.recording.isNone then (-1, { st with gMode := .passthrough })
    else if !env.schedulerOk then (-1, { st with gScheduler := none })
    else (0, { st with gScheduler := some schedulerNew })

/-- The process with the shim in it; `realResolved` is whether the pointers to
the real DLL's functions have been resolved. -/
structure Process (ρ : Type u) where
  shim : ShimState ρ
  realResolved : Bool

/-- `DllMain` on `DLL_PROCESS_ATTACH`; the real DLL loads whenever it is asked
for. -/
def dllProcessAttach (env : StartupEnv) (gLog : Option (List ActivityLine))
    (real : ρ) : Process ρ :=
  let mode := readModeFromRegistry env.modeValue
  { shim := { frem := (fremsoftInit env .static mode).2, gLog, real }
    realResolved := mode != .standalone }

/-- Where a call of the data path goes. -/
inductive Route where
  /-- to the real DLL; are its functions resolved? -/
  | forwarded (resolved : Bool)
  /-- to FremSoft; does it have a recording and a scheduler? -/
  | served (recording scheduler : Bool)
deriving DecidableEq, Repr

def Route.usable : Route → Bool
  | .forwarded resolved => resolved
  | .served recording scheduler => recording && scheduler

def ApiCall.isDataPath : ApiCall κ → Bool
  | .startComPrimitive _ _ => true
  | .getEventItem _ _ _ _ => true
  | .registerEventCallback _ _ _ => true
  | _ => false

/-- The mode check of the three wrappers. -/
def Process.route (s : Process ρ) : Route :=
  if s.shim.frem.gMode.servesReplies then
    .served s.shim.frem.gRecording.isSome s.shim.frem.gScheduler.isSome
  else .forwarded s.realResolved

/-- A call in a process that is alive.  A jump through an unresolved pointer is
its end. -/
def processStep (dll : RealDll ρ κ) (s : Option (Process ρ))
    (call : ApiCall κ) : Option (Option (Process ρ) × List Route) :=
  match s with
  | none => none
  | some s =>
      let out := if call.isDataPath then [s.route] else []
      let served := call.isDataPath && s.shim.frem.gMode.servesReplies
      if served || s.realResolved then
        some (some { s with shim := (apiCall dll s.shim call).1 }, out)
      else some (none, out)

def processMachine (dll : RealDll ρ κ) :
    Machine (Option (Process ρ)) (ApiCall κ) Route :=
  { step := processStep dll }

/-! ### The route never changes -/

theorem fremsoftCall_keeps (st : FremSoftState) (call : ApiCall κ) :
    (fremsoftCall st call).gRecording = st.gRecording ∧
      (fremsoftCall st call).gScheduler.isSome = st.gScheduler.isSome := by
  cases call with
  | startComPrimitive env a =>
      obtain ⟨events, lines, hstate, _⟩ :=
        fremsoftPDUStartComPrimitive_spec env.toCallEnv st a
      simp [fremsoftCall, hstate, FremSoftState.extend]
  | getEventItem env hMod hCll pEventItem =>
      rw [fremsoftCall, fremsoftPDUGetEventItem_fst]
      refine ⟨rfl, ?_⟩
      cases pEventItem with
      | false => rfl
      | true => exact schedulerPopDue_isSome ..
  | registerEventCallback hMod hCll cb =>
      cases hscheduler : st.gScheduler <;>
        simp [fremsoftCall, fremsoftPDURegisterEventCallback,
          schedulerSetCallback, hscheduler]
  | _ => exact ⟨rfl, rfl⟩

theorem logRealItem_frem (s : ShimState ρ) (env : ShimEnv) (x : RealItem) :
    (logRealItem s env x).frem = s.frem := by
  simp only [logRealItem, shimLogHex]
  split_ifs <;> rfl

/-- Without replies to serve the calls leave FremSoft alone. -/
theorem apiCall_frem_of_not_serves (dll : RealDll ρ κ) {s : ShimState ρ}
    (hserves : s.frem.gMode.servesReplies = false) (call : ApiCall κ) :
    (apiCall dll s call).1.frem = s.frem := by
  cases call with
  | startComPrimitive env a =>
      cases hlogged : a.isLogged <;>
        simp [apiCall, pduStartComPrimitive, shimLogHex, hserves, hlogged]
  | getEventItem env hMod hCll pEventItem =>
      simp only [apiCall, pduGetEventItem, hserves, Bool.false_eq_true,
        if_false]
      cases (dll.getEventItem s.real hMod hCll pEventItem).2.2 with
      | none => rfl
      | some x =>
          simp only
          split
          · exact logRealItem_frem _ env x
          · rfl
  | registerEventCallback hMod hCll cb =>
      simp [apiCall, pduRegisterEventCallback, hserves]
  | cancelComPrimitive hMod hCll hCop => rfl
  | ioCtl env call pInputData => exact pduIoCtl_frem ..
  | setComParam env call pParam => exact pduSetComParam_frem ..
  | other call => rfl

/-- A call goes where the calls before it went. -/
theorem apiCall_route (dll : RealDll ρ κ) (s : Process ρ) (call : ApiCall κ) :
    Process.route { s with shim := (apiCall dll s.shim call).1 } = s.route := by
  cases hserves : s.shim.frem.gMode.servesReplies with
  | false =>
      simp only [Process.route, apiCall_frem_of_not_serves dll hserves]
  | true =>
      obtain ⟨hrecording, hscheduler⟩ := fremsoftCall_keeps s.shim.frem call
      simp only [Process.route, apiCall_frem dll hserves, fremsoftCall_gMode,
        hrecording, hscheduler]

/-- The data path has one route, as long as the process lives. -/
theorem processRun_route (dll : RealDll ρ κ) {s : Process ρ}
    {calls : List (ApiCall κ)} {t : Option (Process ρ)} {outs : List Route}
    (hrun : (processMachine dll).run (some s) calls = some (t, outs)) :
    ∀ route ∈ outs, route = s.route := by
  have hall := Machine.run_invariant (M := processMachine dll)
    (I := fun now seen => (∀ p ∈ now, p.route = s.route) ∧
      ∀ route ∈ seen, route = s.route) ?_ hrun ⟨by simp, by simp⟩
  · exact hall.2
  · rintro (_ | p) seen call next out ⟨hnow, hseen⟩ hstep
    · cases hstep
    · have hroute : p.route = s.route := hnow p rfl
      have hout : ∀ route ∈ (if call.isDataPath then [p.route] else []),
          route = s.route := by
        intro route hmem
        split at hmem
        · rw [List.mem_singleton.1 hmem, hroute]
        · cases hmem
      simp only [processMachine, processStep] at hstep
      split at hstep
      all_goals
        simp only [Option.some.injEq, Prod.mk.injEq] at hstep
        obtain ⟨rfl, rfl⟩ := hstep
        refine ⟨?_, List.forall_mem_append.2 ⟨hseen, hout⟩⟩
      · intro q hq
        rw [← Option.mem_some_iff.1 hq, apiCall_route, hroute]
      · simp

/-- The route at the attach: what the modes and the failures come to. -/
theorem dllProcessAttach_route (env : StartupEnv)
    (gLog : Option (List ActivityLine)) (real : ρ) :
    (dllProcessAttach env gLog real).route =
      let mode := readModeFromRegistry env.modeValue
      if mode.servesReplies = true ∧ env.recording.isSome = true then
        .served true env.schedulerOk
      else .forwarded (mode != .standalone) := by
  simp only [dllProcessAttach]
  generalize readModeFromRegistry env.modeValue = mode
  cases mode <;> cases hrecording : env.recording <;>
    cases hscheduler : env.schedulerOk <;>
    simp [fremsoftInit, Process.route, FremsoftMode.servesReplies, hrecording,
      hscheduler]

/-- Neither of the two failures that the start-up does not recover from: a
recording that loads without a scheduler to serve it, and a recording that does
not load in the mode without the real DLL. -/
def StartsUsable (env : StartupEnv) : Prop :=
  ¬((readModeFromRegistry env.modeValue).servesReplies = true ∧
      env.recording.isSome = true ∧ env.schedulerOk = false) ∧
    ¬(readModeFromRegistry env.modeValue = .standalone ∧
      env.recording.isSome = false)

theorem dllProcessAttach_usable_iff (env : StartupEnv)
    (gLog : Option (List ActivityLine)) (real : ρ) :
    (dllProcessAttach env gLog real).route.usable = true ↔
      StartsUsable env := by
  rw [dllProcessAttach_route]
  unfold StartsUsable
  cases readModeFromRegistry env.modeValue <;>
    cases env.recording <;> cases env.schedulerOk <;>
    simp [Route.usable, FremsoftMode.servesReplies]

/-- In every run from the attach, every call of the data path has a usable
route, exactly if neither failure happens. -/
theorem usableRoutes_of_run_iff (dll : RealDll ρ κ) (env : StartupEnv)
    (gLog : Option (List ActivityLine)) (real : ρ) :
    (∀ calls t outs, (processMachine dll).run
        (some (dllProcessAttach env gLog real)) calls = some (t, outs) →
      ∀ route ∈ outs, route.usable = true) ↔ StartsUsable env := by
  rw [← dllProcessAttach_usable_iff env gLog real]
  constructor
  · intro hall
    let start := dllProcessAttach env gLog real
    let poll : ApiCall κ :=
      .getEventItem (shimCallAt 0) 1 2 true
    have hstep : ∃ t, (processMachine dll).step (some start) poll =
        some (t, [start.route]) := by
      simp only [processMachine, processStep]
      split
      · exact ⟨_, rfl⟩
      · exact ⟨_, rfl⟩
    obtain ⟨t, hstep⟩ := hstep
    refine hall [poll] t [start.route] ?_ _ (List.mem_singleton_self _)
    rw [Machine.run_singleton]
    exact hstep
  · intro husable calls t outs hrun route hroute
    rw [processRun_route dll hrun route hroute]
    exact husable

/-- Playback in a process that has no memory left for the scheduler. -/
def playbackWithoutScheduler : StartupEnv :=
  { modeValue := some "playback".toList
    recording := blankPlayback.frem.gRecording
    schedulerOk := false
    activityLogOk := true
    unknownLogOk := true }

/-- Standalone mode with a recording file that is not a recording. -/
def standaloneWithoutRecording : StartupEnv :=
  { modeValue := some "Standalone".toList
    recording := none
    schedulerOk := true
    activityLogOk := true
    unknownLogOk := true }

/-- The first process accepts a request it has no scheduler for; the second
falls back to a real DLL it has never loaded, and dies of it. -/
theorem failed_start_leaves_unusable_route :
    let start := ApiCall.startComPrimitive (shimCallAt 0) (shortRequest 0x3E)
    let first := dllProcessAttach playbackWithoutScheduler none ()
    let second := dllProcessAttach standaloneWithoutRecording none ()
    (∃ t, (processMachine quietDll).run (some first) [start] =
        some (t, [.served true false])) ∧
      (apiCall quietDll first.shim start).2 =
        .started { status := 0, hCoP := some 0x10001 } ∧
      (processMachine quietDll).run (some second) [start] =
        some (none, [.forwarded false]) := by
  refine ⟨⟨_, rfl⟩, rfl, rfl⟩

end FremSoft
