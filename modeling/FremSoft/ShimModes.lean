/-
What the mode decides.  Where the shim forwards, the client and the real DLL
cannot tell it from the real DLL itself, and its log shows what went over the
bus; where it serves, the data path and the real DLL know nothing of each other.
-/
import FremSoft.Lib.Unwinding
import FremSoft.Startup

namespace FremSoft

universe u v

variable {ρ : Type u} {κ : Type v}

/-! ### The real DLL alone -/

/-- A call that the real DLL has answered. -/
inductive BusEvent (κ : Type v) where
  | started (env : ShimEnv) (a : StartArgs) (result : StartResult)
  | polled (env : ShimEnv) (pEventItem : Bool) (status : TPduError)
      (found : Option RealItem)
  | answered (call : ApiCall κ) (status : TPduError)

/-- The call, made to the real DLL directly. -/
def realCall (dll : RealDll ρ κ) (real : ρ) : ApiCall κ → ρ × BusEvent κ
  | .startComPrimitive env a =>
      let (real, result) := dll.startComPrimitive real a
      (real, .started env a result)
  | .getEventItem env hMod hCll pEventItem =>
      let (real, status, found) := dll.getEventItem real hMod hCll pEventItem
      (real, .polled env pEventItem status found)
  | .registerEventCallback hMod hCll cb =>
      let (real, status) := dll.registerEventCallback real hMod hCll cb
      (real, .answered (.registerEventCallback hMod hCll cb) status)
  | .cancelComPrimitive hMod hCll hCop =>
      let (real, status) := dll.cancelComPrimitive real hMod hCll hCop
      (real, .answered (.cancelComPrimitive hMod hCll hCop) status)
  | .ioCtl env call pInputData =>
      let (real, status) := dll.other real call
      (real, .answered (.ioCtl env call pInputData) status)
  | .setComParam env call pParam =>
      let (real, status) := dll.other real call
      (real, .answered (.setComParam env call pParam) status)
  | .other call =>
      let (real, status) := dll.other real call
      (real, .answered (.other call) status)

def realMachine (dll : RealDll ρ κ) : Machine ρ (ApiCall κ) (BusEvent κ) :=
  { step := fun real call =>
      some ((realCall dll real call).1, [(realCall dll real call).2]) }

def BusEvent.result : BusEvent κ → ApiReturn
  | started _ _ result => .started result
  | polled _ _ status found =>
      .event { status, item := found.map RealItem.item }
  | answered _ status => .status status

def RealItem.lines (env : ShimEnv) (x : RealItem) : List ActivityLine :=
  if x.item.itemType = pduItResult ∧ x.pData = true then
    (if x.pDataBytes = true ∧ 0 < x.item.numDataBytes ∧
        x.item.numDataBytes ≤ 4096 then
      [{ ms := env.shimMs 0, tid := env.tid, tag := "RSP-UDS".toList
         bytes := x.item.dataBytes }]
    else []) ++
      if 0 < x.rxFlag.length ∧ x.rxFlag.length ≤ 64 then
        [{ ms := env.shimMs 1, tid := env.tid, tag := "RSP-RxFlag".toList
           bytes := x.rxFlag }]
      else []
  else []

/-- The lines for the data of a call that is only handed on. -/
def ApiCall.dumpLines : ApiCall κ → List ActivityLine
  | .ioCtl env _ (some data) =>
      [{ ms := env.shimMs 0, tid := env.tid, tag := "IOCTL-IN".toList
         bytes := data.toList }]
  | .setComParam env _ (some { pComParamData := some data }) =>
      [{ ms := env.shimMs 0, tid := env.tid, tag := "PARAM-DATA".toList
         bytes := data.toList }]
  | _ => []

/-- The lines for a call: one for each buffer that goes over to the other
side. -/
def BusEvent.lines : BusEvent κ → List ActivityLine
  | started env a _ =>
      if a.isLogged then
        [{ ms := env.shimMs 0, tid := env.tid, tag := "REQ-PDU".toList
           bytes := a.bytes }]
      else []
  | polled env pEventItem status found =>
      if status = 0 ∧ pEventItem = true then
        found.toList.flatMap (RealItem.lines env)
      else []
  | answered call _ => call.dumpLines

/-! ### The shim in front of it -/

def ShimState.logged (s : ShimState ρ) (lines : List ActivityLine) :
    ShimState ρ :=
  { s with gLog := s.gLog.map (· ++ lines) }

theorem ShimState.logged_nil (s : ShimState ρ) : s.logged [] = s := by
  obtain ⟨frem, gLog, real⟩ := s
  cases gLog <;> simp [logged]

theorem ShimState.logged_logged (s : ShimState ρ)
    (lines lines' : List ActivityLine) :
    (s.logged lines).logged lines' = s.logged (lines ++ lines') := by
  obtain ⟨frem, gLog, real⟩ := s
  cases gLog <;> simp [logged]

theorem shimLogHex_eq_logged (s : ShimState ρ) (env : ShimEnv) (k : Nat)
    (tag : List Char) (bytes : List UInt8) :
    shimLogHex s env k tag bytes =
      s.logged [{ ms := env.shimMs k, tid := env.tid, tag, bytes }] := rfl

theorem logRealItem_eq_logged (s : ShimState ρ) (env : ShimEnv)
    (x : RealItem) : logRealItem s env x = s.logged (x.lines env) := by
  unfold logRealItem RealItem.lines
  simp only [shimLogHex_eq_logged]
  split_ifs <;>
    simp only [ShimState.logged_logged, ShimState.logged_nil, List.append_nil,
      List.nil_append]

/-- A call that is forwarded: the real DLL answers it, and its lines are
logged. -/
theorem apiCall_forwarded (dll : RealDll ρ κ) {s : ShimState ρ}
    (hserves : s.frem.gMode.servesReplies = false) (call : ApiCall κ) :
    apiCall dll s call =
      ({ s with real := (realCall dll s.real call).1 }.logged
          (realCall dll s.real call).2.lines,
        (realCall dll s.real call).2.result) := by
  cases call with
  | startComPrimitive env a =>
      cases hlogged : a.isLogged <;>
        simp [apiCall, pduStartComPrimitive, hserves, hlogged, realCall,
          BusEvent.result, BusEvent.lines, shimLogHex_eq_logged,
          ShimState.logged]
  | getEventItem env hMod hCll pEventItem =>
      rcases hanswer : dll.getEventItem s.real hMod hCll pEventItem with
        ⟨real, status, found⟩
      simp only [apiCall, pduGetEventItem, hserves, Bool.false_eq_true, if_false,
        realCall, BusEvent.result, BusEvent.lines, hanswer]
      cases found with
      | none => simp [ShimState.logged_nil]
      | some x =>
          by_cases hok : status = 0 ∧ pEventItem = true
          · simp only [if_pos hok, logRealItem_eq_logged, Option.toList_some,
              List.flatMap_singleton, Option.map_some]
          · simp only [if_neg hok, ShimState.logged_nil, Option.map_some]
  | registerEventCallback hMod hCll cb =>
      simp [apiCall, pduRegisterEventCallback, hserves, realCall,
        BusEvent.result, BusEvent.lines, ApiCall.dumpLines,
        ShimState.logged_nil]
  | cancelComPrimitive hMod hCll hCop =>
      simp [apiCall, pduCancelComPrimitive, realCall, BusEvent.result,
        BusEvent.lines, ApiCall.dumpLines, ShimState.logged_nil]
  | ioCtl env call pInputData =>
      cases pInputData <;>
        simp [apiCall, pduIoCtl, pduOther, realCall, BusEvent.result,
          BusEvent.lines, ApiCall.dumpLines, shimLogHex_eq_logged,
          ShimState.logged]
  | setComParam env call pParam =>
      rcases pParam with _ | ⟨_ | data⟩ <;>
        simp [apiCall, pduSetComParam, pduOther, realCall, BusEvent.result,
          BusEvent.lines, ApiCall.dumpLines, shimLogHex_eq_logged,
          ShimState.logged]
  | other call =>
      simp [apiCall, pduOther, realCall, BusEvent.result, BusEvent.lines,
        ApiCall.dumpLines, ShimState.logged_nil]

/-- A mode that forwards is the real DLL with a log beside it: in every run the
client gets what the real DLL gives, the real DLL is where the same calls take
it, FremSoft is untouched, and the log has grown by the lines of the calls. -/
theorem apiRun_forwarded (dll : RealDll ρ κ) {s : ShimState ρ}
    (hserves : s.frem.gMode.servesReplies = false)
    (calls : List (ApiCall κ)) :
    (apiMachine dll).run s calls =
      ((realMachine dll).run s.real calls).map fun last =>
        ({ s with real := last.1 }.logged (last.2.flatMap BusEvent.lines),
          last.2.map BusEvent.result) := by
  have hrun := @Machine.run_embed _ _ _ _ _ (apiMachine dll) (realMachine dll)
    (fun real seen => { s with real }.logged (seen.flatMap BusEvent.lines))
    BusEvent.result
    (fun real seen call => by
      have hmode : ({ s with real }.logged
          (seen.flatMap BusEvent.lines)).frem.gMode.servesReplies = false :=
        hserves
      simp only [apiMachine, realMachine, apiCall_forwarded dll hmode,
        Option.map_some, List.map_cons, List.map_nil, List.flatMap_append,
        List.flatMap_singleton, ← ShimState.logged_logged]
      rfl)
    s.real [] calls
  rw [List.flatMap_nil, ShimState.logged_nil] at hrun
  exact hrun

/-- A process that has nothing to serve is transparent, however it has come up:
in a forwarding mode, or in playback without a recording. -/
theorem attached_transparent (dll : RealDll ρ κ) (env : StartupEnv)
    (gLog : Option (List ActivityLine)) (real : ρ)
    (hreal : readModeFromRegistry env.modeValue ≠ .standalone)
    (hnothing : (readModeFromRegistry env.modeValue).servesReplies = true →
      env.recording = none) (calls : List (ApiCall κ)) :
    (dllProcessAttach env gLog real).realResolved = true ∧
      (apiMachine dll).run (dllProcessAttach env gLog real).shim calls =
        ((realMachine dll).run real calls).map fun last =>
          ({ frem := (dllProcessAttach env gLog real).shim.frem
             gLog := gLog.map (· ++ last.2.flatMap BusEvent.lines)
             real := last.1 },
            last.2.map BusEvent.result) := by
  have hroute := dllProcessAttach_route env gLog real
  have hforwarded : (dllProcessAttach env gLog real).route = .forwarded true := by
    rw [hroute]
    simp only
    rw [if_neg fun h => by simp [hnothing h.1] at h]
    simpa using hreal
  have hserves :
      (dllProcessAttach env gLog real).shim.frem.gMode.servesReplies = false := by
    by_contra hmode
    rw [Process.route, if_pos (by simpa using hmode)] at hforwarded
    cases hforwarded
  refine ⟨?_, apiRun_forwarded dll hserves calls⟩
  rw [Process.route, hserves] at hforwarded
  simpa using hforwarded

/-- Playback with a recording file that is not there. -/
theorem attached_transparent_without_file :
    let env : StartupEnv :=
      { modeValue := some "playback".toList, recording := none
        schedulerOk := true, activityLogOk := true, unknownLogOk := true }
    let calls : List (ApiCall Unit) :=
      [.startComPrimitive (shimCallAt 0) (shortRequest 0x3E)]
    (dllProcessAttach env (some []) ()).realResolved = true ∧
      (apiMachine quietDll).run (dllProcessAttach env (some []) ()).shim calls =
        ((realMachine quietDll).run () calls).map fun last =>
          ({ frem := (dllProcessAttach env (some []) ()).shim.frem
             gLog := some (last.2.flatMap BusEvent.lines), real := last.1 },
            last.2.map BusEvent.result) :=
  attached_transparent quietDll _ (some []) () (by decide) (fun _ => rfl) _

/-! ### The modes that serve -/

/-- FremSoft alone, on the data path. -/
def fremsoftAnswer (st : FremSoftState) :
    ApiCall κ → Option (FremSoftState × ApiReturn)
  | .startComPrimitive env a =>
      let (st, result) := fremsoftPDUStartComPrimitive env.toCallEnv st a
      some (st, .started result)
  | .getEventItem env hMod hCll pEventItem =>
      let (st, result) :=
        fremsoftPDUGetEventItem env.toCallEnv st hMod hCll pEventItem
      some (st, .event result)
  | .registerEventCallback hMod hCll cb =>
      let (st, status) := fremsoftPDURegisterEventCallback st hMod hCll cb
      some (st, .status status)
  | _ => none

def fremsoftMachine : Machine FremSoftState (ApiCall κ) ApiReturn :=
  { step := fun st call =>
      (fremsoftAnswer st call).map fun next => (next.1, [next.2]) }

/-- A client of the real DLL that looks at the results only. -/
def realResults (dll : RealDll ρ κ) : Machine ρ (ApiCall κ) ApiReturn :=
  { step := fun real call =>
      some ((realCall dll real call).1, [(realCall dll real call).2.result]) }

/-- Each call of a serving shim goes to one side and passes the other by. -/
theorem apiMachine_parts (dll : RealDll ρ κ) :
    (apiMachine dll).Parts fremsoftMachine (realResults dll)
      ApiCall.isDataPath ShimState.frem ShimState.real
      (fun s => s.frem.gMode.servesReplies = true) where
  keeps := by
    intro s call s' out hserves hstep
    obtain ⟨rfl, -⟩ := Prod.mk.inj (Option.some.inj hstep)
    rw [apiCall_frem dll hserves, fremsoftCall_gMode, hserves]
  onLeft := by
    intro s call s' out hserves hdata hstep
    obtain ⟨rfl, rfl⟩ := Prod.mk.inj (Option.some.inj hstep)
    cases call with
    | startComPrimitive env a =>
        cases hlogged : a.isLogged <;>
          simp [fremsoftMachine, fremsoftAnswer, apiCall, pduStartComPrimitive,
            hserves, hlogged, shimLogHex]
    | getEventItem env hMod hCll pEventItem =>
        simp [fremsoftMachine, fremsoftAnswer, apiCall, pduGetEventItem,
          hserves]
    | registerEventCallback hMod hCll cb =>
        simp [fremsoftMachine, fremsoftAnswer, apiCall,
          pduRegisterEventCallback, hserves]
    | cancelComPrimitive hMod hCll hCop => cases hdata
    | ioCtl env call pInputData => cases hdata
    | setComParam env call pParam => cases hdata
    | other call => cases hdata
  onRight := by
    intro s call s' out hserves hdata hstep
    obtain ⟨rfl, rfl⟩ := Prod.mk.inj (Option.some.inj hstep)
    cases call with
    | startComPrimitive env a => cases hdata
    | getEventItem env hMod hCll pEventItem => cases hdata
    | registerEventCallback hMod hCll cb => cases hdata
    | cancelComPrimitive hMod hCll hCop => exact ⟨rfl, rfl⟩
    | ioCtl env call pInputData =>
        refine ⟨?_, pduIoCtl_frem ..⟩
        cases pInputData <;> rfl
    | setComParam env call pParam =>
        refine ⟨?_, pduSetComParam_frem ..⟩
        rcases pParam with _ | ⟨_ | data⟩ <;> rfl
    | other call => exact ⟨rfl, rfl⟩

/-- A call in a serving process: outside the data path it needs the real DLL. -/
theorem processStep_serving (dll : RealDll ρ κ) {p : Process ρ}
    (hserves : p.shim.frem.gMode.servesReplies = true) (call : ApiCall κ) :
    ∃ out, (processMachine dll).step (some p) call =
      some (if p.realResolved = true ∨ call.isDataPath = true then
          some { p with shim := (apiCall dll p.shim call).1 }
        else none, out) := by
  simp only [processMachine, processStep, hserves, Bool.and_true,
    Bool.or_eq_true, Or.comm (a := call.isDataPath = true)]
  split <;> exact ⟨_, rfl⟩

/-- A serving process survives the runs in which no call outside the data path
meets an unresolved real DLL, and its shim does in them what the calls say. -/
theorem processRun_survives_iff (dll : RealDll ρ κ) {p t : Process ρ}
    (hserves : p.shim.frem.gMode.servesReplies = true)
    (calls : List (ApiCall κ)) :
    (∃ routes, (processMachine dll).run (some p) calls =
        some (some t, routes)) ↔
      (p.realResolved = true ∨ ∀ call ∈ calls, call.isDataPath = true) ∧
        t.realResolved = p.realResolved ∧
        ∃ outs, (apiMachine dll).run p.shim calls = some (t.shim, outs) := by
  induction calls generalizing p with
  | nil =>
      constructor
      · rintro ⟨routes, hrun⟩
        obtain ⟨hsame, -⟩ := Prod.mk.inj (Option.some.inj hrun)
        obtain rfl := Option.some.inj hsame
        exact ⟨.inr (by simp), rfl, [], rfl⟩
      · rintro ⟨-, hresolved, outs, hrun⟩
        obtain ⟨hshim, -⟩ := Prod.mk.inj (Option.some.inj hrun)
        obtain rfl : p = t := by
          obtain ⟨shim, realResolved⟩ := t
          obtain rfl : realResolved = p.realResolved := hresolved
          obtain rfl : p.shim = shim := hshim
          rfl
        exact ⟨[], rfl⟩
  | cons call rest ih =>
      obtain ⟨out, hstep⟩ := processStep_serving dll hserves call
      let next : Process ρ := { p with shim := (apiCall dll p.shim call).1 }
      have hnext : next.shim.frem.gMode.servesReplies = true := by
        rw [apiCall_frem dll hserves, fremsoftCall_gMode, hserves]
      have hapi : (∃ outs, (apiMachine dll).run p.shim (call :: rest) =
          some (t.shim, outs)) ↔
          ∃ outs, (apiMachine dll).run next.shim rest =
            some (t.shim, outs) := by
        constructor
        · rintro ⟨outs, hrun⟩
          obtain ⟨s', out', tail, hfirst, hrest, -⟩ :=
            (Machine.run_cons ..).1 hrun
          obtain ⟨rfl, -⟩ := Prod.mk.inj (Option.some.inj hfirst)
          exact ⟨tail, hrest⟩
        · rintro ⟨outs, hrun⟩
          exact ⟨_, (Machine.run_cons ..).2 ⟨_, _, outs, rfl, hrun, rfl⟩⟩
      rw [hapi, List.forall_mem_cons, or_and_left]
      by_cases hgoes : p.realResolved = true ∨ call.isDataPath = true
      · rw [if_pos hgoes] at hstep
        rw [iff_true_intro hgoes, true_and, ← ih hnext]
        constructor
        · rintro ⟨routes, hrun⟩
          obtain ⟨s', out', tail, hfirst, hrest, -⟩ :=
            (Machine.run_cons ..).1 hrun
          obtain ⟨rfl, -⟩ := Prod.mk.inj
            (Option.some.inj (hstep.symm.trans hfirst))
          exact ⟨tail, hrest⟩
        · rintro ⟨routes, hrun⟩
          exact ⟨_, (Machine.run_cons ..).2 ⟨_, _, routes, hstep, hrun, rfl⟩⟩
      · rw [if_neg hgoes] at hstep
        refine iff_of_false ?_ fun h => hgoes h.1.1
        rintro ⟨routes, hrun⟩
        obtain ⟨s', out', tail, hfirst, hrest, -⟩ :=
          (Machine.run_cons ..).1 hrun
        obtain ⟨rfl, -⟩ := Prod.mk.inj
          (Option.some.inj (hstep.symm.trans hfirst))
        cases rest with
        | nil => cases hrest
        | cons second rest => cases hrest

/-- A serving process keeps the bus and the replies apart.  It survives exactly
the runs in which no call outside the data path meets an unresolved real DLL.
In each of them the real DLL goes through the calls outside the data path and no
others, FremSoft goes through those of the data path and no others, neither
depends on the other, and the client gets what the two give. -/
theorem serving_isolated (dll : RealDll ρ κ) {p : Process ρ}
    (hserves : p.shim.frem.gMode.servesReplies = true)
    (calls : List (ApiCall κ)) :
    ((∃ t routes, (processMachine dll).run (some p) calls =
        some (some t, routes)) ↔
      p.realResolved = true ∨ ∀ call ∈ calls, call.isDataPath = true) ∧
    ∀ t routes, (processMachine dll).run (some p) calls =
        some (some t, routes) →
      ∃ outs replies results,
        (apiMachine dll).run p.shim calls = some (t.shim, outs) ∧
        fremsoftMachine.run p.shim.frem (calls.filter ApiCall.isDataPath) =
          some (t.shim.frem, replies) ∧
        (realResults dll).run p.shim.real
            (calls.filter fun call => !call.isDataPath) =
          some (t.shim.real, results) ∧
        replies.Sublist outs ∧ results.Sublist outs ∧
        outs.Perm (replies ++ results) := by
  refine ⟨⟨?_, fun hgoes => ?_⟩, fun t routes hrun => ?_⟩
  · rintro ⟨t, hrun⟩
    exact ((processRun_survives_iff dll hserves calls).1 hrun).1
  · obtain ⟨shim, outs, hrun⟩ := (apiMachine dll).exists_run
      (fun s call => ⟨_, _, rfl⟩) p.shim calls
    exact ⟨{ shim, realResolved := p.realResolved },
      (processRun_survives_iff dll hserves calls).2
        ⟨hgoes, rfl, outs, hrun⟩⟩
  · obtain ⟨-, -, outs, hapi⟩ :=
      (processRun_survives_iff dll hserves calls).1 ⟨routes, hrun⟩
    obtain ⟨replies, results, hsplit⟩ :=
      (apiMachine_parts dll).run_split hserves hapi
    exact ⟨outs, replies, results, hapi, hsplit⟩

/-- A request, its cancellation and a poll: in playback with the real DLL beside
it, and in standalone without. -/
theorem serving_isolated_cancelled :
    let calls : List (ApiCall Unit) :=
      [.startComPrimitive (shimCallAt 0) (shortRequest 0x3E),
        .cancelComPrimitive 1 2 0x10001,
        .getEventItem (shimCallAt 50) 1 2 true]
    let playback : Process Unit :=
      { shim := blankPlayback, realResolved := true }
    let standalone : Process Unit :=
      { shim := { blankPlayback with
          frem := { blankPlayback.frem with gMode := .standalone } }
        realResolved := false }
    (∃ t outs replies results,
      (apiMachine quietDll).run playback.shim calls = some (t, outs) ∧
      fremsoftMachine.run playback.shim.frem [calls[0], calls[2]] =
        some (t.frem, replies) ∧
      (realResults quietDll).run () [calls[1]] = some (t.real, results) ∧
      outs.Perm (replies ++ results)) ∧
    ¬∃ t routes, (processMachine quietDll).run (some standalone) calls =
      some (some t, routes) := by
  intro calls playback standalone
  constructor
  · obtain ⟨hlives, hapart⟩ :=
      serving_isolated quietDll (p := playback) rfl calls
    obtain ⟨t, routes, hrun⟩ := hlives.2 (.inl rfl)
    obtain ⟨outs, replies, results, hapi, hfrem, hreal, -, -, hperm⟩ :=
      hapart t routes hrun
    exact ⟨_, outs, replies, results, hapi, hfrem, hreal, hperm⟩
  · obtain ⟨hlives, -⟩ := serving_isolated quietDll (p := standalone) rfl calls
    intro hlive
    rcases hlives.1 hlive with hresolved | hall
    · cases hresolved
    · exact absurd (hall calls[1] (by simp [calls])) (by decide)

end FremSoft
