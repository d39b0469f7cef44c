/-
Delivery over any run: what a call has been answered so far, what still waits
in the shared queue and what it has yet to push make up, in this order, exactly
what it is owed.
-/
import FremSoft.Session

namespace FremSoft

/-- The clock reading the due times of a call count from, once it has one. -/
def Call.callMs (c : Call) : Option UInt64 :=
  match c.stage with
  | .entered => none
  | .scheduling callMs _ _ => some callMs
  | .rejecting callMs => some callMs
  | .returned callMs => some callMs

/-- The items a call is owed; before it has read the clock, none. -/
def Call.owed (r : Option Recording) (c : Call) : List ReplyItem :=
  match c.callMs with
  | none => []
  | some callMs => replyItems r c.request.bytes (1000 * callMs.toNat)

/-- No due time of the call passes the end of the 64-bit clock. -/
def Call.Fits (r : Option Recording) (c : Call) : Prop :=
  ∀ item ∈ c.owed r, item.dueUs < 2 ^ 64

instance (r : Option Recording) (c : Call) : Decidable (c.Fits r) :=
  inferInstanceAs (Decidable (∀ item ∈ c.owed r, item.dueUs < 2 ^ 64))

def Call.events (r : Option Recording) (c : Call) :
    List (SchedEvent (List UInt8)) :=
  match c.callMs with
  | none => []
  | some callMs => replyEvents r c.request.args c.hCop (callMs * 1000)

def Call.pending (c : Call) : List (SchedEvent (List UInt8)) :=
  match c.stage with
  | .entered => []
  | .scheduling callMs cumulativeUs left =>
      responseEvents c.request.args c.hCop (callMs * 1000) cumulativeUs left
  | .rejecting callMs =>
      [nrcEvent c.request.args c.hCop (callMs * 1000)
        (decodeRequest c.request.args.bytes).1
        (decodeRequest c.request.args.bytes).2]
  | .returned _ => []

def ofCop (hCop : UInt32) (events : List (SchedEvent (List UInt8))) :
    List (SchedEvent (List UInt8)) :=
  events.filter fun e => e.hCop == hCop

def deliveriesOf (hCop : UInt32) (seen : List Delivery) : List Delivery :=
  seen.filter fun d => d.item.hCop == hCop

/-- The event was popped by the poll that made this delivery. -/
def SchedEvent.PoppedAs (e : SchedEvent (List UInt8)) (d : Delivery) : Prop :=
  e.isDue d.hMod d.hCll (d.readMs * 1000) = true ∧
    d.item = eventItem e (d.readMs * 1000)

/-- The conservation law of one call. -/
def Served (r : Option Recording) (queue : List (SchedEvent (List UInt8)))
    (seen : List Delivery) (c : Call) : Prop :=
  ∃ sent, List.Forall₂ SchedEvent.PoppedAs sent (deliveriesOf c.hCop seen) ∧
    c.events r = sent ++ ofCop c.hCop queue ++ c.pending

theorem Call.events_belong (r : Option Recording) (c : Call) :
    ∀ e ∈ c.events r, e.BelongsTo c.request.args c.hCop := by
  unfold Call.events
  split
  · simp
  · exact replyEvents_belong r c.request.args c.hCop _

theorem Call.events_pairwise {r : Option Recording} {c : Call}
    (hsized : ∀ rec ∈ r, rec.Sized) (hfits : c.Fits r) :
    (c.events r).Pairwise (·.dueUs ≤ ·.dueUs) := by
  unfold Call.Fits Call.owed at hfits
  unfold Call.events
  cases hcall : c.callMs with
  | none => exact List.Pairwise.nil
  | some callMs =>
      simp only [hcall] at hfits ⊢
      have hbytes := c.request.args_bytes
      rw [← hbytes] at hfits
      exact replyEvents_pairwise c.hCop hsized hfits

/-- A step of a call takes its events from what it has yet to push; only the
step that reads the clock adds to that, and it adds everything. -/
theorem Call.next_spec {r : Option Recording} {tickMs : UInt64} {c : Call}
    {stage : CallStage} {pushed : Option (SchedEvent (List UInt8))}
    (hnext : c.next r tickMs = some (stage, pushed)) :
    (∀ item ∈ c.owed r, item ∈ Call.owed r { c with stage }) ∧
    (∀ e ∈ pushed, e.hCop = c.hCop) ∧
    ∃ fresh, Call.events r { c with stage } = c.events r ++ fresh ∧
      c.pending ++ fresh = pushed.toList ++ Call.pending { c with stage } := by
  obtain ⟨q, hCop, old⟩ := c
  simp only [Call.next] at hnext
  cases old with
  | entered =>
      simp only at hnext
      split at hnext
      all_goals
        next hlookup =>
        rw [q.args_bytes] at hlookup
        simp only [Option.some.injEq, Prod.mk.injEq] at hnext
        obtain ⟨rfl, rfl⟩ := hnext
        refine ⟨by simp [Call.owed, Call.callMs], by simp,
          replyEvents r q.args hCop (tickMs * 1000), rfl, ?_⟩
        simp only [Call.pending, replyEvents, q.args_bytes, hlookup,
          List.nil_append, Option.toList]
  | scheduling callMs cumulativeUs left =>
      cases left with
      | nil =>
          simp only [Option.some.injEq, Prod.mk.injEq] at hnext
          obtain ⟨rfl, rfl⟩ := hnext
          refine ⟨by simp [Call.owed, Call.callMs], by simp, [], ?_, ?_⟩
          · simp [Call.events, Call.callMs]
          · simp [Call.pending, responseEvents]
      | cons x rest =>
          simp only [Option.some.injEq, Prod.mk.injEq] at hnext
          obtain ⟨rfl, rfl⟩ := hnext
          refine ⟨by simp [Call.owed, Call.callMs], ?_, [], ?_, ?_⟩
          · simp [responseEvent]
          · simp [Call.events, Call.callMs]
          · simp [Call.pending, responseEvents]
  | rejecting callMs =>
      simp only [Option.some.injEq, Prod.mk.injEq] at hnext
      obtain ⟨rfl, rfl⟩ := hnext
      refine ⟨by simp [Call.owed, Call.callMs], ?_, [], ?_, ?_⟩
      · simp [nrcEvent]
      · simp [Call.events, Call.callMs]
      · simp [Call.pending]
  | returned callMs => simp at hnext

def handleOf (k : Nat) : UInt32 := 0x10000 + UInt32.ofNat (k + 1)

theorem handleOf_inj {j k : Nat} (hj : j < 2 ^ 32) (hk : k < 2 ^ 32)
    (h : handleOf j = handleOf k) : j = k := by
  have hcancel : UInt32.ofNat (j + 1) = UInt32.ofNat (k + 1) := by
    have := congrArg (fun x => x - 0x10000) h
    simpa [handleOf, UInt32.add_comm, UInt32.add_sub_cancel] using this
  have hnat := congrArg UInt32.toNat hcancel
  simp only [UInt32.toNat_ofNat'] at hnat
  omega

/-- What holds at every point of a run. -/
structure SessionInv (r : Option Recording) (s : Session)
    (seen : List Delivery) : Prop where
  scheduler : s.gScheduler.isSome
  next : s.gNextHCop + 1 = handleOf s.calls.length
  handles : ∀ k c, s.calls[k]? = some c → c.hCop = handleOf k
  queued : ∀ e ∈ s.queue, ∃ c ∈ s.calls, c.hCop = e.hCop
  delivered : ∀ d ∈ seen, ∃ c ∈ s.calls, c.hCop = d.item.hCop
  served : ∀ c ∈ s.calls, Served r s.queue seen c

theorem SessionInv.hCop_inj {r : Option Recording} {s : Session}
    {seen : List Delivery} (hinv : SessionInv r s seen)
    (hcalls : s.calls.length < 2 ^ 32) {j k : Nat} {c d : Call}
    (hj : s.calls[j]? = some c) (hk : s.calls[k]? = some d)
    (h : c.hCop = d.hCop) : j = k := by
  have hjlt := (List.getElem?_eq_some_iff.1 hj).1
  have hklt := (List.getElem?_eq_some_iff.1 hk).1
  rw [hinv.handles j c hj, hinv.handles k d hk] at h
  exact handleOf_inj (by omega) (by omega) h

/-- A call is served in the same way as long as its part of the queue and of
the deliveries stays as it was. -/
theorem Served.congr {r : Option Recording}
    {queue queue' : List (SchedEvent (List UInt8))} {seen seen' : List Delivery}
    {c : Call} (h : Served r queue seen c)
    (hqueue : ofCop c.hCop queue' = ofCop c.hCop queue)
    (hseen : deliveriesOf c.hCop seen' = deliveriesOf c.hCop seen) :
    Served r queue' seen' c := by
  obtain ⟨sent, hsent, hevents⟩ := h
  exact ⟨sent, by rwa [hseen], by rwa [hqueue]⟩

theorem ofCop_append (hCop : UInt32)
    (front back : List (SchedEvent (List UInt8))) :
    ofCop hCop (front ++ back) = ofCop hCop front ++ ofCop hCop back :=
  List.filter_append ..

theorem ofCop_eq_self {hCop : UInt32} {events : List (SchedEvent (List UInt8))}
    (h : ∀ e ∈ events, e.hCop = hCop) : ofCop hCop events = events := by
  rw [ofCop, List.filter_eq_self]
  simpa using h

theorem ofCop_eq_nil {hCop : UInt32} {events : List (SchedEvent (List UInt8))}
    (h : ∀ e ∈ events, e.hCop ≠ hCop) : ofCop hCop events = [] := by
  rw [ofCop, List.filter_eq_nil_iff]
  simpa using h

theorem deliveriesOf_eq_nil {hCop : UInt32} {seen : List Delivery}
    (h : ∀ d ∈ seen, d.item.hCop ≠ hCop) : deliveriesOf hCop seen = [] := by
  rw [deliveriesOf, List.filter_eq_nil_iff]
  simpa using h

theorem deliveriesOf_append (hCop : UInt32) (front back : List Delivery) :
    deliveriesOf hCop (front ++ back) =
      deliveriesOf hCop front ++ deliveriesOf hCop back :=
  List.filter_append ..

/-- A new call takes a handle no other call has. -/
theorem SessionInv.enter {r : Option Recording} {s : Session}
    {seen : List Delivery} (hinv : SessionInv r s seen)
    (hcalls : s.calls.length + 1 < 2 ^ 32) (q : DiagRequest) :
    SessionInv r { s with
      gNextHCop := s.gNextHCop + 1
      calls := s.calls ++
        [{ request := q, hCop := s.gNextHCop + 1, stage := .entered }] }
      seen := by
  have hfresh : ∀ c ∈ s.calls, c.hCop ≠ s.gNextHCop + 1 := by
    intro c hc heq
    obtain ⟨k, hk⟩ := List.mem_iff_getElem?.1 hc
    have hlt := (List.getElem?_eq_some_iff.1 hk).1
    rw [hinv.handles k c hk, hinv.next] at heq
    have := handleOf_inj (by omega) (by omega) heq
    omega
  constructor
  · exact hinv.scheduler
  · simp only [List.length_append, List.length_singleton, hinv.next, handleOf]
    rw [UInt32.add_assoc]
    congr 1
    rw [UInt32.ofNat_add (s.calls.length + 1)]
    rfl
  · intro k c hk
    rw [List.getElem?_append] at hk
    split at hk
    · exact hinv.handles k c hk
    · next hge =>
      rw [List.getElem?_singleton] at hk
      split at hk
      · next hzero =>
        have hlength : k = s.calls.length := by omega
        simp only [Option.some.injEq] at hk
        rw [← hk, hlength]
        exact hinv.next
      · cases hk
  · intro e he
    obtain ⟨c, hc, heq⟩ := hinv.queued e he
    exact ⟨c, List.mem_append_left _ hc, heq⟩
  · intro d hd
    obtain ⟨c, hc, heq⟩ := hinv.delivered d hd
    exact ⟨c, List.mem_append_left _ hc, heq⟩
  · intro c hc
    rcases List.mem_append.1 hc with hc | hc
    · exact hinv.served c hc
    · rw [List.mem_singleton] at hc
      subst hc
      refine ⟨[], ?_, ?_⟩
      · rw [deliveriesOf_eq_nil]
        · exact List.Forall₂.nil
        · intro d hd heq
          obtain ⟨c, hc, hcop⟩ := hinv.delivered d hd
          exact hfresh c hc (hcop.trans heq)
      · have hqueue : ofCop (s.gNextHCop + 1) s.queue = [] := by
          apply ofCop_eq_nil
          intro e he heq
          obtain ⟨c, hc, hcop⟩ := hinv.queued e he
          exact hfresh c hc (hcop.trans heq)
        simp only [Call.events, Call.callMs, Call.pending, List.nil_append,
          List.append_nil]
        exact hqueue.symm

/-- What the queue becomes when a call moves on. -/
theorem Session.advanced_queue {s : Session} (hscheduler : s.gScheduler.isSome)
    (k : Nat) (c : Call) (stage : CallStage)
    (pushed : Option (SchedEvent (List UInt8))) :
    (s.advanced k c stage pushed).queue = s.queue ++ pushed.toList := by
  obtain ⟨scheduler, hsome⟩ := Option.isSome_iff_exists.1 hscheduler
  cases pushed <;> simp [Session.queue, Session.advanced, hsome]

theorem Session.advanced_isSome {s : Session} (hscheduler : s.gScheduler.isSome)
    (k : Nat) (c : Call) (stage : CallStage)
    (pushed : Option (SchedEvent (List UInt8))) :
    (s.advanced k c stage pushed).gScheduler.isSome := by
  obtain ⟨scheduler, hsome⟩ := Option.isSome_iff_exists.1 hscheduler
  cases pushed <;> simp [Session.advanced, hsome]

/-- A call that moves on passes its own events to the queue, in order, and
touches no other call's. -/
theorem SessionInv.advance {r : Option Recording} {s : Session}
    {seen : List Delivery} (hinv : SessionInv r s seen)
    (hcalls : s.calls.length < 2 ^ 32) {k : Nat} {c : Call}
    {stage : CallStage} {pushed : Option (SchedEvent (List UInt8))}
    (hk : s.calls[k]? = some c)
    (hnext : c.next r s.tickMs = some (stage, pushed)) :
    SessionInv r (s.advanced k c stage pushed) seen := by
  obtain ⟨_, hcop, fresh, hevents, hpending⟩ := Call.next_spec hnext
  have hklt := (List.getElem?_eq_some_iff.1 hk).1
  have hget : ∀ j d, (s.advanced k c stage pushed).calls[j]? = some d →
      (j = k ∧ d = { c with stage }) ∨ (j ≠ k ∧ s.calls[j]? = some d) := by
    intro j d hd
    simp only [Session.advanced, List.getElem?_set, hklt, if_true] at hd
    by_cases hjk : k = j
    · simp only [hjk, if_true, Option.some.injEq] at hd
      exact Or.inl ⟨hjk.symm, hd.symm⟩
    · simp only [hjk, if_false] at hd
      exact Or.inr ⟨fun h => hjk h.symm, hd⟩
  have howner : ∀ hCop : UInt32, (∃ d ∈ s.calls, d.hCop = hCop) →
      ∃ d ∈ (s.advanced k c stage pushed).calls, d.hCop = hCop := by
    rintro hCop ⟨d, hd, rfl⟩
    obtain ⟨j, hj⟩ := List.mem_iff_getElem?.1 hd
    by_cases hjk : j = k
    · subst hjk
      rw [hk, Option.some.injEq] at hj
      subst hj
      exact ⟨{ c with stage }, List.mem_iff_getElem?.2
        ⟨j, by simp [Session.advanced, hklt]⟩, rfl⟩
    · exact ⟨d, List.mem_iff_getElem?.2
        ⟨j, by simpa [Session.advanced, List.getElem?_set, Ne.symm hjk]⟩, rfl⟩
  constructor
  · exact Session.advanced_isSome hinv.scheduler k c stage pushed
  · simpa [Session.advanced] using hinv.next
  · intro j d hd
    rcases hget j d hd with ⟨rfl, rfl⟩ | ⟨_, hold⟩
    · exact hinv.handles j c hk
    · exact hinv.handles j d hold
  · intro e he
    rw [Session.advanced_queue hinv.scheduler, List.mem_append] at he
    rcases he with he | he
    · exact howner _ (hinv.queued e he)
    · rw [hcop e (by simpa using he)]
      exact howner _ ⟨c, List.mem_of_getElem? hk, rfl⟩
  · exact fun d hd => howner _ (hinv.delivered d hd)
  · intro d hd
    obtain ⟨j, hj⟩ := List.mem_iff_getElem?.1 hd
    rcases hget j d hj with ⟨rfl, rfl⟩ | ⟨hjk, hold⟩
    · -- The call itself: what it pushes moves from pending to queued.
      obtain ⟨sent, hsent, heq⟩ := hinv.served c (List.mem_of_getElem? hk)
      have hown : ofCop c.hCop pushed.toList = pushed.toList :=
        ofCop_eq_self fun e he => hcop e (by simpa using he)
      refine ⟨sent, hsent, ?_⟩
      rw [hevents, heq, Session.advanced_queue hinv.scheduler, ofCop_append,
        hown]
      simp only [List.append_assoc, hpending]
    · -- Another call: the pushed event carries a different handle.
      have hforeign : ofCop d.hCop pushed.toList = [] := by
        apply ofCop_eq_nil
        intro e he heq
        rw [hcop e (by simpa using he)] at heq
        exact hjk (hinv.hCop_inj hcalls hold hk heq.symm)
      refine (hinv.served d (List.mem_of_getElem? hold)).congr ?_ rfl
      rw [Session.advanced_queue hinv.scheduler, ofCop_append, hforeign,
        List.append_nil]

/-- A poll takes the first event of the primitive whose event it takes. -/
theorem SessionInv.poll {r : Option Recording} {s : Session}
    {seen : List Delivery} (hinv : SessionInv r s seen)
    (hsized : ∀ rec ∈ r, rec.Sized) (hfits : ∀ c ∈ s.calls, c.Fits r)
    {hMod hCll : UInt32} {readMs : UInt64} {e : SchedEvent (List UInt8)}
    {scheduler : Scheduler (List UInt8)}
    (hdetach : detach (SchedEvent.isDue hMod hCll (readMs * 1000)) s.queue =
      some (e, scheduler.head)) :
    SessionInv r { s with gScheduler := some scheduler }
      (seen ++ [deliver hMod hCll readMs e]) := by
  have hmem := detach_mem hdetach
  have hsub := detach_sublist hdetach
  constructor
  · rfl
  · exact hinv.next
  · exact hinv.handles
  · exact fun x hx => hinv.queued x (hsub.subset hx)
  · intro d hd
    rcases List.mem_append.1 hd with hd | hd
    · exact hinv.delivered d hd
    · rw [List.mem_singleton] at hd
      subst hd
      exact hinv.queued e hmem
  · intro c hc
    by_cases hcop : e.hCop = c.hCop
    · obtain ⟨sent, hsent, heq⟩ := hinv.served c hc
      have hsubset : ∀ x ∈ ofCop c.hCop s.queue, x ∈ c.events r := by
        intro x hx
        rw [heq]
        exact List.mem_append_left _ (List.mem_append_right _ hx)
      have hordered : (ofCop c.hCop s.queue).Pairwise (·.dueUs ≤ ·.dueUs) := by
        have hall := Call.events_pairwise hsized (hfits c hc)
        rw [heq, List.append_assoc, List.pairwise_append] at hall
        exact (List.pairwise_append.1 hall.2.1).1
      -- Two queued events of one primitive are on one link.
      have hlink : ∀ x ∈ ofCop c.hCop s.queue,
          x.hMod = e.hMod ∧ x.hCll = e.hCll := by
        intro x hx
        have hx' := c.events_belong r x (hsubset x hx)
        have he' := c.events_belong r e
          (hsubset e (List.mem_filter.2 ⟨hmem, by simpa using hcop⟩))
        exact ⟨hx'.hMod.trans he'.hMod.symm, hx'.hCll.trans he'.hCll.symm⟩
      have hdue := SchedEvent.isDue_iff.1 (detach_pos hdetach)
      have hfront : ofCop c.hCop s.queue = e :: ofCop c.hCop scheduler.head :=
        filter_detach_of_pos
          (q := fun x : SchedEvent (List UInt8) => x.hCop == c.hCop)
          (R := fun x y => x.dueUs ≤ y.dueUs ∧ x.hMod = e.hMod ∧
            x.hCll = e.hCll) hdetach (by simpa using hcop)
          (hordered.imp_of_mem fun hx _ hle => ⟨hle, hlink _ hx⟩)
          (fun x _ hx => SchedEvent.isDue_iff.2
            ⟨hx.2.1.trans hdue.1, hx.2.2.trans hdue.2.1,
              UInt64.le_trans hx.1 hdue.2.2⟩)
      refine ⟨sent ++ [e], ?_, ?_⟩
      · have hnew : deliveriesOf c.hCop [deliver hMod hCll readMs e] =
            [deliver hMod hCll readMs e] := by
          simp [deliveriesOf, deliver, eventItem, hcop]
        rw [deliveriesOf_append, hnew]
        exact forall₂_append hsent
          (List.Forall₂.cons ⟨detach_pos hdetach, rfl⟩ List.Forall₂.nil)
      · rw [heq, hfront]
        simp [Session.queue]
    · -- The popped event is none of this call's.
      refine (hinv.served c hc).congr ?_ ?_
      · exact filter_detach_of_neg hdetach (by simpa using hcop)
      · simp [deliveriesOf, deliver, eventItem, hcop]

end FremSoft
