/-
The delivery thread beside the client and `scheduler_free`.  A pass of its loop
is cut where another thread can come in between: it tests the stop flag, reads
the callback slot, looks for a due event, and makes the call outside the lock.
The client may take any time in its callback, and the wait for the thread's end
may time out.
-/
import FremSoft.SchedulerRun

namespace FremSoft

universe u

variable {β : Type u}

/-- What the delivery thread does next. -/
inductive ThreadPhase where
  | testingStop
  | reading
  | peeking (call : CallbackCall)
  | invoking (call : CallbackCall)
  | inCallback (call : CallbackCall)
  | sleeping
  | ended
deriving DecidableEq, Repr

/-- How far `scheduler_free` has come. -/
inductive ShutdownPhase where
  | running
  | waiting
  | closing
  | draining
  | freeing
  | returned
deriving DecidableEq, Repr

/-- The scheduler, `none` once it has been freed, with the two fields the
threads share and where each of them stands. -/
structure DeliverySystem (β : Type u) where
  scheduler : Option (Scheduler β)
  deliveryThread : Bool
  stopFlag : Bool
  thread : ThreadPhase
  shutdown : ShutdownPhase

def DeliverySystem.init : DeliverySystem β :=
  { scheduler := some schedulerNew
    deliveryThread := false
    stopFlag := false
    thread := .ended
    shutdown := .running }

/-- The next step of a thread; `created` is whether `CreateThread` succeeds,
and the time is the one the delivery thread reads. -/
inductive DeliveryAction (β : Type u) where
  | startThread (created : Bool)
  | push (nodeOk : Bool) (e : SchedEvent β)
  | popDue (hMod hCll : UInt32) (nowUs : UInt64)
  | cancelCop (hCop : UInt32)
  | setCallback (hMod hCll : UInt32) (cb : Option FremsoftEventCb)
  | deliver (nowUs : UInt64)
  | free

inductive DeliveryObs where
  /-- `scheduler_set_callback` has returned. -/
  | registered (cb : Option FremsoftEventCb)
  /-- The delivery thread reads or locks the scheduler. -/
  | touched
  /-- The delivery thread invokes a callback. -/
  | fired (call : CallbackCall)
  /-- `scheduler_free` has returned. -/
  | freed
deriving DecidableEq, Repr

/-- A step of `delivery_thread_proc`.  Nothing is known of the thread once it
has touched a scheduler that is freed. -/
def deliveryThreadProc (s : DeliverySystem β) (nowUs : UInt64) :
    Option (ThreadPhase × List DeliveryObs) :=
  match s.thread, s.scheduler with
  | .testingStop, some _ =>
      some (if s.stopFlag then .ended else .reading, [.touched])
  | .reading, some scheduler =>
      match deliverySnapshot scheduler with
      | (none, _, _) => some (.sleeping, [.touched])
      | (some cb, hMod, hCll) =>
          some (.peeking { cb, hMod, hCll }, [.touched])
  | .peeking call, some scheduler =>
      if deliveryPeek scheduler call.hMod call.hCll nowUs then
        some (.invoking call, [.touched])
      else some (.sleeping, [.touched])
  | .testingStop, none => some (.ended, [.touched])
  | .reading, none => some (.ended, [.touched])
  | .peeking _, none => some (.ended, [.touched])
  | .invoking call, _ => some (.inCallback call, [.fired call])
  | .inCallback _, _ => some (.sleeping, [])
  | .sleeping, _ => some (.testingStop, [])
  | .ended, _ => none

def schedulerStartDeliveryThread (s : DeliverySystem β) (created : Bool) :
    DeliverySystem β :=
  if s.deliveryThread then s
  else if created then
    { s with stopFlag := false, deliveryThread := true, thread := .testingStop }
  else { s with stopFlag := false }

/-- The loop of `scheduler_free`: every node is freed with its payload. -/
def schedulerDrain (s : Option (Scheduler β)) : Option (Scheduler β) :=
  s.map fun scheduler => { scheduler with head := [] }

/-- The next step of `scheduler_free`.  The first three are
`scheduler_stop_delivery_thread`; the wait is over when the thread has ended or
200 ms have passed, and it goes on alike. -/
def schedulerFree (s : DeliverySystem β) :
    Option (DeliverySystem β × List DeliveryObs) :=
  match s.shutdown with
  | .running =>
      if s.deliveryThread then
        some ({ s with stopFlag := true, shutdown := .waiting }, [])
      else some ({ s with shutdown := .draining }, [])
  | .waiting => some ({ s with shutdown := .closing }, [])
  | .closing =>
      some ({ s with deliveryThread := false, shutdown := .draining }, [])
  | .draining =>
      some ({ s with
        scheduler := schedulerDrain s.scheduler, shutdown := .freeing }, [])
  | .freeing =>
      some ({ s with scheduler := none, shutdown := .returned }, [.freed])
  | .returned => none

def deliveryStep (s : DeliverySystem β) :
    DeliveryAction β → Option (DeliverySystem β × List DeliveryObs)
  | .startThread created =>
      if s.shutdown = .running then
        some (schedulerStartDeliveryThread s created, [])
      else none
  | .push nodeOk e =>
      some ({ s with scheduler := (schedulerPush nodeOk s.scheduler e).2 }, [])
  | .popDue hMod hCll nowUs =>
      some ({ s with
        scheduler := (schedulerPopDue s.scheduler hMod hCll nowUs).2 }, [])
  | .cancelCop hCop =>
      some ({ s with scheduler := schedulerCancelCop s.scheduler hCop }, [])
  | .setCallback hMod hCll cb =>
      some ({ s with
        scheduler := schedulerSetCallback s.scheduler hMod hCll cb },
        if s.scheduler.isSome then [.registered cb] else [])
  | .deliver nowUs =>
      (deliveryThreadProc s nowUs).map fun (thread, out) =>
        ({ s with thread }, out)
  | .free => schedulerFree s

/-- Every interleaving of the delivery thread, the client and the shutdown. -/
def deliveryMachine :
    Machine (DeliverySystem β) (DeliveryAction β) DeliveryObs :=
  { step := deliveryStep }

/-! ### What one step can do -/

/-- The callback a thread holds that has read the slot but not yet called. -/
def ThreadPhase.snapshot? : ThreadPhase → Option FremsoftEventCb
  | .peeking call | .invoking call => some call.cb
  | _ => none

/-- A step of the delivery thread touches the scheduler, and from then on holds
at most what it held or what it has just read; or it leaves the scheduler alone
and makes the call it has decided on; or it does neither. -/
theorem deliveryThreadProc_cases {s : DeliverySystem β} {nowUs : UInt64}
    {thread : ThreadPhase} {out : List DeliveryObs}
    (hstep : deliveryThreadProc s nowUs = some (thread, out)) :
    (out = [.touched] ∧ ∀ cb, thread.snapshot? = some cb →
      s.thread.snapshot? = some cb ∨
        ∃ scheduler, s.scheduler = some scheduler ∧ scheduler.cb = some cb) ∨
    (∃ call, s.thread = .invoking call ∧ thread = .inCallback call ∧
      out = [.fired call]) ∨
    (out = [] ∧ thread.snapshot? = none) := by
  simp only [deliveryThreadProc] at hstep
  split at hstep
  · -- testingStop
    simp only [Option.some.injEq, Prod.mk.injEq] at hstep
    obtain ⟨rfl, rfl⟩ := hstep
    refine .inl ⟨rfl, fun cb hcb => ?_⟩
    split at hcb <;> cases hcb
  · next scheduler hthread hscheduler =>
    -- reading: the callback held is the one in the slot
    left
    split at hstep
    · simp only [Option.some.injEq, Prod.mk.injEq] at hstep
      obtain ⟨rfl, rfl⟩ := hstep
      exact ⟨rfl, by simp [ThreadPhase.snapshot?]⟩
    · next cb hMod hCll hsnapshot =>
      simp only [Option.some.injEq, Prod.mk.injEq] at hstep
      obtain ⟨rfl, rfl⟩ := hstep
      refine ⟨rfl, fun cb' hcb => .inr ⟨scheduler, hscheduler, ?_⟩⟩
      exact (congrArg Prod.fst hsnapshot).trans hcb
  · next call scheduler hthread _ =>
    -- peeking
    left
    split at hstep
    · simp only [Option.some.injEq, Prod.mk.injEq] at hstep
      obtain ⟨rfl, rfl⟩ := hstep
      exact ⟨rfl, fun cb hcb => .inl (by rw [hthread]; exact hcb)⟩
    · simp only [Option.some.injEq, Prod.mk.injEq] at hstep
      obtain ⟨rfl, rfl⟩ := hstep
      exact ⟨rfl, by simp [ThreadPhase.snapshot?]⟩
  all_goals simp only [Option.some.injEq, Prod.mk.injEq, reduceCtorEq] at hstep
  all_goals obtain ⟨rfl, rfl⟩ := hstep
  · exact .inl ⟨rfl, by simp [ThreadPhase.snapshot?]⟩
  · exact .inl ⟨rfl, by simp [ThreadPhase.snapshot?]⟩
  · exact .inl ⟨rfl, by simp [ThreadPhase.snapshot?]⟩
  · next hthread => exact .inr (.inl ⟨_, hthread, rfl, rfl⟩)
  · exact .inr (.inr ⟨rfl, rfl⟩)
  · exact .inr (.inr ⟨rfl, rfl⟩)

def DeliveryObs.fired? : DeliveryObs → Option CallbackCall
  | .fired call => some call
  | _ => none

/-- A pass of the loop that nothing interrupts makes the calls of a tick. -/
theorem run_uninterrupted_tick {s : DeliverySystem β} {scheduler : Scheduler β}
    (hscheduler : s.scheduler = some scheduler) (hstop : s.stopFlag = false)
    (hthread : s.thread = .testingStop) (nowUs : UInt64) :
    ∃ n outs, deliveryMachine.run s (List.replicate n (.deliver nowUs)) =
        some ({ s with thread := .sleeping }, outs) ∧
      outs.filterMap DeliveryObs.fired? = deliveryTick scheduler nowUs := by
  cases s with
  | mk _ deliveryThread stopFlag thread shutdown =>
      simp only at hscheduler hstop hthread
      subst hscheduler hstop hthread
      cases hcb : scheduler.cb with
      | none =>
          refine ⟨2, [.touched, .touched], ?_, ?_⟩
          · simp [List.replicate_succ, Machine.run, deliveryMachine,
              deliveryStep, deliveryThreadProc, deliverySnapshot, hcb]
          · simp [deliveryTick, deliverySnapshot, hcb, List.filterMap_cons,
              DeliveryObs.fired?]
      | some cb =>
          cases hdue : deliveryPeek scheduler scheduler.cbHMod
              scheduler.cbHCll nowUs with
          | false =>
              refine ⟨3, [.touched, .touched, .touched], ?_, ?_⟩
              · simp [List.replicate_succ, Machine.run, deliveryMachine,
                  deliveryStep, deliveryThreadProc, deliverySnapshot, hcb, hdue]
              · simp [deliveryTick, deliverySnapshot, hcb, hdue,
                  List.filterMap_cons, DeliveryObs.fired?]
          | true =>
              refine ⟨5, [.touched, .touched, .touched,
                .fired ⟨cb, scheduler.cbHMod, scheduler.cbHCll⟩], ?_, ?_⟩
              · simp [List.replicate_succ, Machine.run, deliveryMachine,
                  deliveryStep, deliveryThreadProc, deliverySnapshot, hcb, hdue]
              · simp [deliveryTick, deliverySnapshot, hcb, hdue,
                  List.filterMap_cons, DeliveryObs.fired?]

end FremSoft
