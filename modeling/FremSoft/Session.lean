/-
Any interleaving of `fremsoft_PDUStartComPrimitive` calls with
`fremsoft_PDUGetEventItem` polls.  A call takes its handle in one atomic step,
then looks the request up and reads the clock, then pushes its events one by
one; a poll works with a clock reading that may already be old.  All
allocations succeed.
-/
import FremSoft.Lib.Run
import FremSoft.Start

namespace FremSoft

/-- How far a call has come; from `scheduling` on it holds the clock reading
that its due times count from. -/
inductive CallStage where
  | entered
  | scheduling (tickMs cumulativeUs : UInt64) (left : List RecordedResponse)
  | rejecting (tickMs : UInt64)
  | returned (tickMs : UInt64)

/-- One activation of `fremsoft_PDUStartComPrimitive`. -/
structure Call where
  request : DiagRequest
  hCop : UInt32
  stage : CallStage

/-- The shared state, the clock, and every call made so far. -/
structure Session where
  gScheduler : Option (Scheduler (List UInt8))
  gNextHCop : UInt32
  tickMs : UInt64
  calls : List Call

inductive SessionAction where
  | clock (tickMs : UInt64)
  | enter (q : DiagRequest)
  | advance (k : Nat)
  | poll (hMod hCll : UInt32) (readMs : UInt64)

/-- An item handed to a poll of a link at a clock reading. -/
structure Delivery where
  hMod : UInt32
  hCll : UInt32
  readMs : UInt64
  item : EventItem
deriving DecidableEq, Repr

def deliver (hMod hCll : UInt32) (readMs : UInt64)
    (e : SchedEvent (List UInt8)) : Delivery :=
  { hMod, hCll, readMs, item := eventItem e (readMs * 1000) }

/-- The state `fremsoft_init` leaves behind. -/
def Session.init : Session :=
  { gScheduler := some schedulerNew
    gNextHCop := 0x10000
    tickMs := 0
    calls := [] }

/-- The next step of a call: its stage afterwards, and the event it pushes. -/
def Call.next (r : Option Recording) (tickMs : UInt64) (c : Call) :
    Option (CallStage × Option (SchedEvent (List UInt8))) :=
  let (canId, uds) := decodeRequest c.request.args.bytes
  match c.stage with
  | .entered =>
      match recordingLookup r canId uds with
      | some found => some (.scheduling tickMs 0 found.responses, none)
      | none => some (.rejecting tickMs, none)
  | .scheduling callMs cumulativeUs (x :: rest) =>
      let cumulativeUs := addDelay cumulativeUs x
      some (.scheduling callMs cumulativeUs rest,
        some (responseEvent c.request.args c.hCop
          (callMs * 1000 + cumulativeUs) x))
  | .scheduling callMs _ [] => some (.returned callMs, none)
  | .rejecting callMs =>
      some (.returned callMs,
        some (nrcEvent c.request.args c.hCop (callMs * 1000) canId uds))
  | .returned _ => none

/-- The shared state after a call has moved on. -/
def Session.advanced (s : Session) (k : Nat) (c : Call) (stage : CallStage)
    (pushed : Option (SchedEvent (List UInt8))) : Session :=
  { s with
    gScheduler :=
      match pushed with
      | none => s.gScheduler
      | some e => (schedulerPush true s.gScheduler e).2
    calls := s.calls.set k { c with stage } }

def sessionStep (r : Option Recording) (s : Session) :
    SessionAction → Option (Session × List Delivery)
  | .clock tickMs =>
      if s.tickMs ≤ tickMs then some ({ s with tickMs }, []) else none
  | .enter q =>
      let hCop := s.gNextHCop + 1
      some ({ s with
        gNextHCop := hCop
        calls := s.calls ++ [{ request := q, hCop, stage := .entered }] }, [])
  | .advance k =>
      match s.calls[k]? with
      | none => none
      | some c =>
          match c.next r s.tickMs with
          | none => none
          | some (stage, pushed) => some (s.advanced k c stage pushed, [])
  | .poll hMod hCll readMs =>
      if readMs ≤ s.tickMs then
        match schedulerPopDue s.gScheduler hMod hCll (readMs * 1000) with
        | (none, scheduler) => some ({ s with gScheduler := scheduler }, [])
        | (some e, scheduler) =>
            some ({ s with gScheduler := scheduler },
              [deliver hMod hCll readMs e])
      else none

def sessionMachine (r : Option Recording) :
    Machine Session SessionAction Delivery :=
  { step := sessionStep r }

def Session.queue (s : Session) : List (SchedEvent (List UInt8)) :=
  schedulerQueue s.gScheduler

/-- A step of the newest call. -/
theorem sessionStep_advance_last {r : Option Recording} {s : Session}
    {front : List Call} {c : Call} (hcalls : s.calls = front ++ [c])
    {stage : CallStage} {pushed : Option (SchedEvent (List UInt8))}
    (hnext : c.next r s.tickMs = some (stage, pushed))
    (hscheduler : s.gScheduler.isSome) :
    sessionStep r s (.advance front.length) = some ({ s with
      gScheduler := s.gScheduler.map (·.append pushed.toList)
      calls := front ++ [{ c with stage }] }, []) := by
  obtain ⟨scheduler, hsome⟩ := Option.isSome_iff_exists.1 hscheduler
  have hget : s.calls[front.length]? = some c := by simp [hcalls]
  rw [sessionStep, hget]
  simp only [hnext, Session.advanced, hcalls]
  cases pushed <;> simp [hsome]

theorem run_scheduling {r : Option Recording} {s : Session} {front : List Call}
    {q : DiagRequest} {hCop : UInt32} {callMs cumulativeUs : UInt64}
    {left : List RecordedResponse} (hcalls : s.calls = front ++
      [{ request := q, hCop, stage := .scheduling callMs cumulativeUs left }])
    (hscheduler : s.gScheduler.isSome) :
    (sessionMachine r).run s
        (List.replicate (left.length + 1) (.advance front.length)) =
      some ({ s with
        gScheduler := s.gScheduler.map
          (·.append (responseEvents q.args hCop (callMs * 1000) cumulativeUs
            left))
        calls := front ++
          [{ request := q, hCop, stage := .returned callMs }] }, []) := by
  induction left generalizing s cumulativeUs with
  | nil =>
      rw [List.length_nil, List.replicate_succ, List.replicate_zero,
        Machine.run_singleton]
      exact sessionStep_advance_last hcalls rfl hscheduler
  | cons x rest ih =>
      rw [List.length_cons, List.replicate_succ, Machine.run_cons]
      refine ⟨_, [], [], sessionStep_advance_last hcalls rfl hscheduler, ?_,
        rfl⟩
      rw [ih rfl (by simpa using hscheduler)]
      obtain ⟨scheduler, hsome⟩ := Option.isSome_iff_exists.1 hscheduler
      simp [hsome, responseEvents]

/-- The interleaving in which one call runs from its first to its last step is
the sequential function. -/
theorem run_uninterrupted_call (r : Option Recording) (s : Session)
    (q : DiagRequest) (hscheduler : s.gScheduler.isSome) {env : CallEnv}
    {st : FremSoftState} (halloc : env.AllocationsSucceed)
    (htick : env.tickMs = s.tickMs) (hrecording : st.gRecording = r)
    (hshared : st.gScheduler = s.gScheduler)
    (hhandle : st.gNextHCop = s.gNextHCop) :
    ∃ n, (sessionMachine r).run s
        (.enter q :: List.replicate n (.advance s.calls.length)) =
      some ({ s with
        gScheduler := (fremsoftPDUStartComPrimitive env st q.args).1.gScheduler
        gNextHCop := (fremsoftPDUStartComPrimitive env st q.args).1.gNextHCop
        calls := s.calls ++ [{ request := q, hCop := s.gNextHCop + 1
                               stage := .returned s.tickMs }] }, []) := by
  obtain ⟨events, lines, hstate, _, hevents⟩ :=
    fremsoftPDUStartComPrimitive_spec env st q.args
  rw [hstate, hevents halloc]
  simp only [FremSoftState.extend, hshared, hhandle, hrecording, startEvents,
    q.isRequest, if_true, CallEnv.nowUs, htick, replyEvents]
  cases hlookup : recordingLookup r (decodeRequest q.args.bytes).1
      (decodeRequest q.args.bytes).2 with
  | some found =>
      refine ⟨found.responses.length + 2, ?_⟩
      rw [List.replicate_succ, Machine.run_cons]
      refine ⟨_, [], [], rfl, ?_, rfl⟩
      rw [Machine.run_cons]
      refine ⟨_, [], [], sessionStep_advance_last rfl
        (by simp only [Call.next, hlookup]; rfl) hscheduler, ?_, rfl⟩
      rw [run_scheduling rfl (by simpa using hscheduler)]
      obtain ⟨scheduler, hsome⟩ := Option.isSome_iff_exists.1 hscheduler
      simp [hsome]
  | none =>
      refine ⟨2, ?_⟩
      rw [List.replicate_succ, Machine.run_cons]
      refine ⟨_, [], [], rfl, ?_, rfl⟩
      rw [Machine.run_cons]
      refine ⟨_, [], [], sessionStep_advance_last rfl
        (by simp only [Call.next, hlookup]; rfl) hscheduler, ?_, rfl⟩
      rw [List.replicate_succ, List.replicate_zero, Machine.run_singleton]
      obtain ⟨scheduler, hsome⟩ := Option.isSome_iff_exists.1 hscheduler
      refine (sessionStep_advance_last rfl rfl (by simp [hsome])).trans ?_
      simp only [hsome, Option.map_some, Option.toList, Scheduler.append_append,
        List.nil_append]
      rfl

/-- A poll is the sequential function with the clock reading it has taken. -/
theorem sessionStep_poll (r : Option Recording) (s : Session)
    (hMod hCll : UInt32) {env : CallEnv} {st : FremSoftState}
    (hblob : env.blobOk = true) (hread : env.tickMs ≤ s.tickMs)
    (hshared : st.gScheduler = s.gScheduler) :
    sessionStep r s (.poll hMod hCll env.tickMs) =
      some ({ s with
          gScheduler :=
            (fremsoftPDUGetEventItem env st hMod hCll true).1.gScheduler },
        (fremsoftPDUGetEventItem env st hMod hCll true).2.item.toList.map
          fun item => { hMod, hCll, readMs := env.tickMs, item }) := by
  rw [sessionStep, if_pos hread, fremsoftPDUGetEventItem, hshared,
    CallEnv.nowUs]
  cases schedulerPopDue s.gScheduler hMod hCll (env.tickMs * 1000) with
  | mk popped scheduler =>
      cases popped with
      | none => rfl
      | some e => simp [hblob, deliver]

end FremSoft
