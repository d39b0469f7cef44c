/-
The event scheduler of `scheduler.c`: one list of events behind one lock, and
one registered callback.  Every function here is one critical section.  The
representation `β` of `data_bytes` is left open: the playback model stores the
bytes, the ownership model the buffer.
-/
import FremSoft.Basic
import FremSoft.Lib.Detach

namespace FremSoft

universe u

variable {β : Type u}

structure SchedEvent (β : Type u) where
  dueUs : UInt64
  hMod : UInt32
  hCll : UInt32
  hCop : UInt32
  copTag : VoidPtr
  itemType : UInt32
  numData : UInt32
  dataBytes : β
deriving DecidableEq, Repr

/-- A link is addressed by its module and its logical-link handle. -/
def SchedEvent.onLink (hMod hCll : UInt32) (e : SchedEvent β) : Bool :=
  e.hMod == hMod && e.hCll == hCll

/-- The test both traversals make: the event is on the link and due. -/
def SchedEvent.isDue (hMod hCll : UInt32) (nowUs : UInt64)
    (e : SchedEvent β) : Bool :=
  e.hMod == hMod && e.hCll == hCll && decide (e.dueUs ≤ nowUs)

theorem SchedEvent.isDue_iff {hMod hCll : UInt32} {nowUs : UInt64}
    {e : SchedEvent β} :
    e.isDue hMod hCll nowUs = true ↔
      e.hMod = hMod ∧ e.hCll = hCll ∧ e.dueUs ≤ nowUs := by
  simp [SchedEvent.isDue, and_assoc]

theorem SchedEvent.onLink_iff {hMod hCll : UInt32} {e : SchedEvent β} :
    e.onLink hMod hCll = true ↔ e.hMod = hMod ∧ e.hCll = hCll := by
  simp [SchedEvent.onLink]

theorem SchedEvent.onLink_of_isDue {hMod hCll : UInt32} {nowUs : UInt64}
    {e : SchedEvent β} (h : e.isDue hMod hCll nowUs = true) :
    e.onLink hMod hCll = true := by
  have hdue := SchedEvent.isDue_iff.1 h
  exact SchedEvent.onLink_iff.2 ⟨hdue.1, hdue.2.1⟩

/-- `fremsoft_event_cb`, a non-null function pointer. -/
abbrev FremsoftEventCb := VoidPtr

/-- `scheduler_t` without its lock and thread handle: the list from `head`, in
insertion order, and the one callback slot. -/
structure Scheduler (β : Type u) where
  head : List (SchedEvent β)
  cb : Option FremsoftEventCb
  cbHMod : UInt32
  cbHCll : UInt32
deriving DecidableEq, Repr

/-- The events behind a scheduler pointer; a null one has none. -/
def schedulerQueue : Option (Scheduler β) → List (SchedEvent β)
  | none => []
  | some s => s.head

@[simp] theorem schedulerQueue_some (s : Scheduler β) :
    schedulerQueue (some s) = s.head := rfl

@[simp] theorem schedulerQueue_none :
    schedulerQueue (none : Option (Scheduler β)) = [] := rfl

def Scheduler.append (s : Scheduler β) (events : List (SchedEvent β)) :
    Scheduler β :=
  { s with head := s.head ++ events }

/-- `scheduler_new`: `calloc` leaves every field zero. -/
def schedulerNew : Scheduler β :=
  { head := [], cb := none, cbHMod := 0, cbHCll := 0 }

/-- `scheduler_push`: append at the tail.  `nodeOk` is whether the node could
be allocated; a null scheduler or a failed allocation is `-1`. -/
def schedulerPush (nodeOk : Bool) :
    Option (Scheduler β) → SchedEvent β → Int × Option (Scheduler β)
  | none, _ => (-1, none)
  | some s, e =>
      if nodeOk then (0, some { s with head := s.head ++ [e] })
      else (-1, some s)

/-- `scheduler_pop_due`: unlink the first event of the link that is due. -/
def schedulerPopDue (s : Option (Scheduler β)) (hMod hCll : UInt32)
    (nowUs : UInt64) : Option (SchedEvent β) × Option (Scheduler β) :=
  match s with
  | none => (none, none)
  | some s =>
      match detach (SchedEvent.isDue hMod hCll nowUs) s.head with
      | none => (none, some s)
      | some (e, rest) => (some e, some { s with head := rest })

/-- `scheduler_cancel_cop`: unlink every event of the primitive. -/
def schedulerCancelCop :
    Option (Scheduler β) → UInt32 → Option (Scheduler β)
  | none, _ => none
  | some s, hCop =>
      some { s with head := s.head.filter fun e => !(e.hCop == hCop) }

/-- `scheduler_set_callback`: the slot is overwritten. -/
def schedulerSetCallback :
    Option (Scheduler β) → UInt32 → UInt32 → Option FremsoftEventCb →
      Option (Scheduler β)
  | none, _, _, _ => none
  | some s, hMod, hCll, cb =>
      some { s with cb := cb, cbHMod := hMod, cbHCll := hCll }

/-- A call `cb(h_mod, h_cll, NULL)` made by the delivery thread. -/
structure CallbackCall where
  cb : FremsoftEventCb
  hMod : UInt32
  hCll : UInt32
deriving DecidableEq, Repr

/-- First critical section of a tick: read the callback slot. -/
def deliverySnapshot (s : Scheduler β) :
    Option FremsoftEventCb × UInt32 × UInt32 :=
  (s.cb, s.cbHMod, s.cbHCll)

/-- Second critical section of a tick: is an event of the link due? -/
def deliveryPeek (s : Scheduler β) (hMod hCll : UInt32) (nowUs : UInt64) :
    Bool :=
  s.head.any (SchedEvent.isDue hMod hCll nowUs)

/-- One pass of `delivery_thread_proc`'s loop when nothing runs in between:
the calls it makes. -/
def deliveryTick (s : Scheduler β) (nowUs : UInt64) : List CallbackCall :=
  match deliverySnapshot s with
  | (none, _, _) => []
  | (some cb, hMod, hCll) =>
      if deliveryPeek s hMod hCll nowUs then [⟨cb, hMod, hCll⟩] else []

@[simp] theorem Scheduler.append_head (s : Scheduler β)
    (events : List (SchedEvent β)) :
    (s.append events).head = s.head ++ events := rfl

@[simp] theorem Scheduler.append_nil (s : Scheduler β) : s.append [] = s := by
  simp [Scheduler.append]

@[simp] theorem Scheduler.append_append (s : Scheduler β)
    (first second : List (SchedEvent β)) :
    (s.append first).append second = s.append (first ++ second) := by
  simp [Scheduler.append]

@[simp] theorem schedulerPush_some (s : Scheduler β) (e : SchedEvent β) :
    schedulerPush true (some s) e = (0, some (s.append [e])) := rfl

/-- A push adds its event to a scheduler that exists, or nothing at all. -/
theorem schedulerPush_snd (nodeOk : Bool) (s : Option (Scheduler β))
    (e : SchedEvent β) : (schedulerPush nodeOk s e).2 =
      s.map (·.append (if nodeOk then [e] else [])) := by
  cases s with
  | none => rfl
  | some s => cases nodeOk <;> simp [schedulerPush, Scheduler.append]

/-- What a poll can do: nothing, or unlink one due event of the link that no
due event of the link precedes. -/
theorem schedulerPopDue_cases (s : Scheduler β) (hMod hCll : UInt32)
    (nowUs : UInt64) :
    (schedulerPopDue (some s) hMod hCll nowUs = (none, some s) ∧
      ∀ e ∈ s.head, e.isDue hMod hCll nowUs = false) ∨
    ∃ e rest, schedulerPopDue (some s) hMod hCll nowUs =
        (some e, some { s with head := rest }) ∧
      detach (SchedEvent.isDue hMod hCll nowUs) s.head = some (e, rest) := by
  cases hdetach : detach (SchedEvent.isDue hMod hCll nowUs) s.head with
  | none =>
      refine Or.inl ⟨by simp [schedulerPopDue, hdetach], ?_⟩
      exact detach_eq_none_iff.1 hdetach
  | some found =>
      exact Or.inr ⟨found.1, found.2, by simp [schedulerPopDue, hdetach], rfl⟩

theorem schedulerPopDue_eq_some {s : Scheduler β} {hMod hCll : UInt32}
    {nowUs : UInt64} {e : SchedEvent β} {s' : Option (Scheduler β)} :
    schedulerPopDue (some s) hMod hCll nowUs = (some e, s') ↔
      ∃ rest, s' = some { s with head := rest } ∧
        detach (SchedEvent.isDue hMod hCll nowUs) s.head = some (e, rest) := by
  rcases schedulerPopDue_cases s hMod hCll nowUs with
    ⟨hnone, hall⟩ | ⟨e₁, rest, hsome, hdetach⟩
  · rw [hnone, detach_eq_none_iff.2 hall]
    simp
  · rw [hsome, hdetach]
    simp only [Prod.mk.injEq, Option.some.injEq]
    constructor
    · rintro ⟨rfl, rfl⟩
      exact ⟨rest, rfl, rfl, rfl⟩
    · rintro ⟨rest', rfl, rfl, rfl⟩
      exact ⟨rfl, rfl⟩

/-- The same in terms of the queue, whether there is a scheduler or not. -/
theorem schedulerPopDue_queue_cases (s : Option (Scheduler β))
    (hMod hCll : UInt32) (nowUs : UInt64) :
    ((schedulerPopDue s hMod hCll nowUs).1 = none ∧
      schedulerQueue (schedulerPopDue s hMod hCll nowUs).2 =
        schedulerQueue s) ∨
    ∃ e, (schedulerPopDue s hMod hCll nowUs).1 = some e ∧
      detach (SchedEvent.isDue hMod hCll nowUs) (schedulerQueue s) =
        some (e, schedulerQueue (schedulerPopDue s hMod hCll nowUs).2) := by
  cases s with
  | none => exact .inl ⟨rfl, rfl⟩
  | some s =>
      rcases schedulerPopDue_cases s hMod hCll nowUs with
        ⟨hnone, _⟩ | ⟨e, rest, hsome, hdetach⟩
      · rw [hnone]
        exact .inl ⟨rfl, rfl⟩
      · rw [hsome]
        exact .inr ⟨e, rfl, hdetach⟩

theorem schedulerPopDue_isSome (s : Option (Scheduler β)) (hMod hCll : UInt32)
    (nowUs : UInt64) :
    (schedulerPopDue s hMod hCll nowUs).2.isSome = s.isSome := by
  cases s with
  | none => rfl
  | some s =>
      rcases schedulerPopDue_cases s hMod hCll nowUs with
        ⟨hnone, _⟩ | ⟨e, rest, hsome, _⟩
      · rw [hnone]
      · rw [hsome]
        rfl

/-- The poll and the delivery thread test the same thing. -/
theorem deliveryPeek_eq_isSome_popDue (s : Scheduler β) (hMod hCll : UInt32)
    (nowUs : UInt64) : deliveryPeek s hMod hCll nowUs =
      (schedulerPopDue (some s) hMod hCll nowUs).1.isSome := by
  rcases schedulerPopDue_cases s hMod hCll nowUs with
    ⟨hnone, hall⟩ | ⟨e, rest, hsome, hdetach⟩
  · rw [hnone, deliveryPeek, Option.isSome_none, List.any_eq_false]
    intro e he
    simp [hall e he]
  · rw [hsome, deliveryPeek, Option.isSome_some, List.any_eq_true]
    exact ⟨e, detach_mem hdetach, detach_pos hdetach⟩

end FremSoft
