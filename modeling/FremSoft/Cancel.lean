/-
Cancellation over runs of exported calls.  `PDUCancelComPrimitive` reaches only
the real DLL, so FremSoft goes on as if it had not been called: it takes effect
exactly when there is nothing left to cancel.
-/
import FremSoft.Shim

namespace FremSoft

universe u v

variable {ρ : Type u} {κ : Type v}

def FremSoftState.queue (st : FremSoftState) : List (SchedEvent (List UInt8)) :=
  schedulerQueue st.gScheduler

/-- The part of an exported call that is FremSoft's when it serves replies. -/
def fremsoftCall (st : FremSoftState) : ApiCall κ → FremSoftState
  | .startComPrimitive env a =>
      (fremsoftPDUStartComPrimitive env.toCallEnv st a).1
  | .getEventItem env hMod hCll pEventItem =>
      (fremsoftPDUGetEventItem env.toCallEnv st hMod hCll pEventItem).1
  | .registerEventCallback hMod hCll cb =>
      (fremsoftPDURegisterEventCallback st hMod hCll cb).1
  | _ => st

/-- The item an exported call hands out when FremSoft serves replies. -/
def fremsoftItem (st : FremSoftState) : ApiCall κ → Option EventItem
  | .getEventItem env hMod hCll pEventItem =>
      (fremsoftPDUGetEventItem env.toCallEnv st hMod hCll pEventItem).2.item
  | _ => none

def ApiReturn.item : ApiReturn → Option EventItem
  | .event result => result.item
  | _ => none

theorem apiCall_frem (dll : RealDll ρ κ) {s : ShimState ρ}
    (hserves : s.frem.gMode.servesReplies = true) (call : ApiCall κ) :
    (apiCall dll s call).1.frem = fremsoftCall s.frem call := by
  cases call with
  | startComPrimitive env a =>
      exact (pduStartComPrimitive_frem dll env hserves a).1
  | getEventItem env hMod hCll pEventItem =>
      simp [apiCall, pduGetEventItem, fremsoftCall, hserves]
  | registerEventCallback hMod hCll cb =>
      simp [apiCall, pduRegisterEventCallback, fremsoftCall, hserves]
  | cancelComPrimitive hMod hCll hCop => rfl
  | ioCtl env call pInputData => exact pduIoCtl_frem ..
  | setComParam env call pParam => exact pduSetComParam_frem ..
  | other call => rfl

theorem apiCall_item (dll : RealDll ρ κ) {s : ShimState ρ}
    (hserves : s.frem.gMode.servesReplies = true) (call : ApiCall κ) :
    (apiCall dll s call).2.item = fremsoftItem s.frem call := by
  cases call with
  | getEventItem env hMod hCll pEventItem =>
      simp [apiCall, pduGetEventItem, fremsoftItem, ApiReturn.item, hserves]
  | _ => rfl

/-- What a poll does to the queue: nothing, or it takes one event off it; only
the taken event is handed out. -/
theorem fremsoftPDUGetEventItem_cases (env : CallEnv) (st : FremSoftState)
    (hMod hCll : UInt32) (pEventItem : Bool) :
    (fremsoftPDUGetEventItem env st hMod hCll pEventItem).1.queue = st.queue ∧
      (fremsoftPDUGetEventItem env st hMod hCll pEventItem).2.item = none ∨
    ∃ e, detach (SchedEvent.isDue hMod hCll env.nowUs) st.queue = some (e,
        (fremsoftPDUGetEventItem env st hMod hCll pEventItem).1.queue) ∧
      (fremsoftPDUGetEventItem env st hMod hCll pEventItem).2.item =
        if env.blobOk then some (eventItem e env.nowUs) else none := by
  cases pEventItem with
  | false => exact .inl ⟨rfl, rfl⟩
  | true =>
      have hcases := schedulerPopDue_queue_cases st.gScheduler hMod hCll env.nowUs
      rw [FremSoftState.queue, FremSoftState.queue, fremsoftPDUGetEventItem_fst]
      simp only [fremsoftPDUGetEventItem, Bool.not_true, Bool.false_eq_true,
        if_false, if_true]
      cases hpop : schedulerPopDue st.gScheduler hMod hCll env.nowUs with
      | mk popped s =>
          rw [hpop] at hcases
          rcases hcases with ⟨rfl, hqueue⟩ | ⟨e, rfl, hdetach⟩
          · exact .inl ⟨hqueue, rfl⟩
          · exact .inr ⟨e, hdetach, by cases env.blobOk <;> rfl⟩

theorem fremsoftCall_gMode (st : FremSoftState) (call : ApiCall κ) :
    (fremsoftCall st call).gMode = st.gMode := by
  cases call with
  | startComPrimitive env a =>
      obtain ⟨events, lines, hstate, _⟩ :=
        fremsoftPDUStartComPrimitive_spec env.toCallEnv st a
      simp [fremsoftCall, hstate, FremSoftState.extend]
  | getEventItem env hMod hCll pEventItem =>
      rw [fremsoftCall, fremsoftPDUGetEventItem_fst]
  | _ => rfl

/-- The mode never changes once the DLL is attached. -/
theorem apiRun_servesReplies (dll : RealDll ρ κ) {s t : ShimState ρ}
    {calls : List (ApiCall κ)} {outs : List ApiReturn}
    (hrun : (apiMachine dll).run s calls = some (t, outs))
    (hserves : s.frem.gMode.servesReplies = true) :
    t.frem.gMode.servesReplies = true := by
  refine Machine.run_invariant
    (I := fun s _ => s.frem.gMode.servesReplies = true) ?_ hrun hserves
  intro s _ call s' out hs hstep
  simp only [apiMachine, Option.some.injEq, Prod.mk.injEq] at hstep
  rw [← hstep.1, apiCall_frem dll hs, fremsoftCall_gMode]
  exact hs

/-- What the calls hand out depends on FremSoft's state alone. -/
theorem apiRun_items_eq (dll : RealDll ρ κ) {s s' t : ShimState ρ}
    {calls : List (ApiCall κ)} {outs : List ApiReturn}
    (hserves : s.frem.gMode.servesReplies = true) (hsame : s'.frem = s.frem)
    (hrun : (apiMachine dll).run s calls = some (t, outs)) :
    ∃ t' outs', (apiMachine dll).run s' calls = some (t', outs') ∧
      t'.frem = t.frem ∧
      outs'.filterMap ApiReturn.item = outs.filterMap ApiReturn.item := by
  induction calls generalizing s s' outs with
  | nil =>
      simp only [Machine.run_nil, Option.some.injEq, Prod.mk.injEq] at hrun
      obtain ⟨rfl, rfl⟩ := hrun
      exact ⟨s', [], rfl, hsame, rfl⟩
  | cons call rest ih =>
      obtain ⟨m, out, tail, hstep, hrest, rfl⟩ := (Machine.run_cons ..).1 hrun
      simp only [apiMachine, Option.some.injEq, Prod.mk.injEq] at hstep
      obtain ⟨rfl, rfl⟩ := hstep
      have hserves' : s'.frem.gMode.servesReplies = true := by
        rw [hsame, hserves]
      have hnext : (apiCall dll s' call).1.frem = (apiCall dll s call).1.frem :=
        by rw [apiCall_frem dll hserves', apiCall_frem dll hserves, hsame]
      have hmode : (apiCall dll s call).1.frem.gMode.servesReplies = true := by
        rw [apiCall_frem dll hserves, fremsoftCall_gMode, hserves]
      obtain ⟨t', outs', hrun', hfrem, hitems⟩ := ih hmode hnext hrest
      refine ⟨t', (apiCall dll s' call).2 :: outs', ?_, hfrem, ?_⟩
      · exact (Machine.run_cons ..).2 ⟨_, _, outs', rfl, hrun', rfl⟩
      · simp only [List.singleton_append, List.filterMap_cons,
          apiCall_item dll hserves', apiCall_item dll hserves, hsame, hitems]

/-- A call that is given the handle `hCop` anew. -/
def NotReissued (hCop : UInt32) (s : ShimState ρ) : ApiCall κ → Prop
  | .startComPrimitive _ _ => s.frem.gNextHCop + 1 ≠ hCop
  | _ => True

instance (hCop : UInt32) (s : ShimState ρ) : (call : ApiCall κ) →
    Decidable (NotReissued hCop s call)
  | .startComPrimitive _ _ => inferInstanceAs (Decidable (_ ≠ _))
  | .getEventItem .. => .isTrue trivial
  | .registerEventCallback .. => .isTrue trivial
  | .cancelComPrimitive .. => .isTrue trivial
  | .ioCtl .. => .isTrue trivial
  | .setComParam .. => .isTrue trivial
  | .other _ => .isTrue trivial

/-- A handle that has no event queued and is not issued again stays without. -/
theorem fremsoftCall_drained {s : ShimState ρ} {hCop : UInt32}
    (hdrained : ∀ e ∈ s.frem.queue, e.hCop ≠ hCop) {call : ApiCall κ}
    (hreissue : NotReissued hCop s call) :
    (∀ e ∈ (fremsoftCall s.frem call).queue, e.hCop ≠ hCop) ∧
      ∀ item ∈ fremsoftItem s.frem call, item.hCop ≠ hCop := by
  cases call with
  | startComPrimitive env a =>
      refine ⟨?_, by simp [fremsoftItem]⟩
      obtain ⟨events, lines, hstate, hsub, _⟩ :=
        fremsoftPDUStartComPrimitive_spec env.toCallEnv s.frem a
      intro e he
      simp only [fremsoftCall, hstate, FremSoftState.queue,
        FremSoftState.extend] at he
      cases hscheduler : s.frem.gScheduler with
      | none => simp [hscheduler] at he
      | some scheduler =>
          simp only [hscheduler, Option.map_some, schedulerQueue_some,
            Scheduler.append_head, List.mem_append] at he
          rcases he with he | he
          · exact hdrained e
              (by simpa [FremSoftState.queue, hscheduler] using he)
          · have hbelongs := startEvents_belong _ _ _ _ e (hsub.subset he)
            rw [hbelongs.hCop]
            exact hreissue
  | getEventItem env hMod hCll pEventItem =>
      simp only [fremsoftCall, fremsoftItem]
      rcases fremsoftPDUGetEventItem_cases env.toCallEnv s.frem hMod hCll
        pEventItem with ⟨hqueue, hitem⟩ | ⟨e, hdetach, hitem⟩
      · rw [hqueue, hitem]
        exact ⟨hdrained, by simp⟩
      · refine ⟨fun x hx => hdrained x ((detach_sublist hdetach).subset hx), ?_⟩
        rw [hitem]
        intro item hmem
        cases hblob : env.blobOk with
        | false => simp [hblob] at hmem
        | true =>
            simp only [hblob, if_true, Option.mem_some_iff] at hmem
            subst hmem
            exact hdrained e (detach_mem hdetach)
  | registerEventCallback hMod hCll cb =>
      refine ⟨?_, by simp [fremsoftItem]⟩
      have hqueue : (fremsoftCall s.frem (.registerEventCallback (κ := κ) hMod
          hCll cb)).queue = s.frem.queue := by
        cases hscheduler : s.frem.gScheduler <;>
          simp [fremsoftCall, fremsoftPDURegisterEventCallback,
            schedulerSetCallback, FremSoftState.queue, hscheduler]
      rwa [hqueue]
  | _ => exact ⟨hdrained, by simp [fremsoftItem]⟩

theorem apiRun_drained (dll : RealDll ρ κ) {s t : ShimState ρ} {hCop : UInt32}
    {calls : List (ApiCall κ)} {outs : List ApiReturn}
    (hserves : s.frem.gMode.servesReplies = true)
    (hdrained : ∀ e ∈ s.frem.queue, e.hCop ≠ hCop)
    (hreissue : (apiMachine dll).Meets (NotReissued hCop) s calls)
    (hrun : (apiMachine dll).run s calls = some (t, outs)) :
    ∀ item ∈ outs.filterMap ApiReturn.item, item.hCop ≠ hCop := by
  have hall := Machine.run_invariant_of_meets
    (I := fun s seen => s.frem.gMode.servesReplies = true ∧
      (∀ e ∈ s.frem.queue, e.hCop ≠ hCop) ∧
      ∀ item ∈ seen.filterMap ApiReturn.item, item.hCop ≠ hCop)
    (M := apiMachine dll) (C := NotReissued hCop) ?_ hreissue hrun
    ⟨hserves, hdrained, by simp⟩
  · exact hall.2.2
  · rintro s seen call s' out ⟨hs, hqueue, hseen⟩ hC hstep
    simp only [apiMachine, Option.some.injEq, Prod.mk.injEq] at hstep
    obtain ⟨rfl, rfl⟩ := hstep
    have hnext := fremsoftCall_drained hqueue hC
    refine ⟨?_, ?_, ?_⟩
    · rw [apiCall_frem dll hs, fremsoftCall_gMode, hs]
    · rw [apiCall_frem dll hs]
      exact hnext.1
    · intro item hitem
      rw [List.filterMap_append, List.mem_append] at hitem
      rcases hitem with hitem | hitem
      · exact hseen item hitem
      · apply hnext.2 item
        rw [← apiCall_item dll hs]
        simpa using hitem

/-- A cancel takes effect when nothing of the handle is queued any more and the
counter does not issue the handle again: no later call hands out an item of it.
The other items are, in any case, those of the run without the cancel. -/
theorem cancel_of_run (dll : RealDll ρ κ) {s m m' t : ShimState ρ}
    {before after : List (ApiCall κ)} {hMod hCll hCop : UInt32}
    {outs₀ ret outs : List ApiReturn}
    (hmode : s.frem.gMode = .playback)
    (hbefore : (apiMachine dll).run s before = some (m, outs₀))
    (hdrained : ∀ e ∈ m.frem.queue, e.hCop ≠ hCop)
    (hcancel : (apiMachine dll).step m (.cancelComPrimitive hMod hCll hCop) =
      some (m', ret))
    (hreissue : (apiMachine dll).Meets (NotReissued hCop) m' after)
    (hafter : (apiMachine dll).run m' after = some (t, outs)) :
    (∀ item ∈ outs.filterMap ApiReturn.item, item.hCop ≠ hCop) ∧
      ∃ t' outs', (apiMachine dll).run m after = some (t', outs') ∧
        t'.frem = t.frem ∧
        outs'.filterMap ApiReturn.item = outs.filterMap ApiReturn.item := by
  have hserves := apiRun_servesReplies dll hbefore (by rw [hmode]; rfl)
  have hfrem : m'.frem = m.frem := by
    simp only [apiMachine, Option.some.injEq, Prod.mk.injEq] at hcancel
    rw [← hcancel.1]
    rfl
  have hserves' : m'.frem.gMode.servesReplies = true := by rw [hfrem, hserves]
  refine ⟨apiRun_drained dll hserves' (by rwa [hfrem]) hreissue hafter, ?_⟩
  exact apiRun_items_eq dll hserves' hfrem.symm hafter

/-- A poll hands out the first event of its link that is due. -/
theorem fremsoftPDUGetEventItem_of_detach {env : CallEnv} {st : FremSoftState}
    {hMod hCll : UInt32} {e : SchedEvent (List UInt8)}
    {rest : List (SchedEvent (List UInt8))} (hblob : env.blobOk = true)
    (hdetach : detach (SchedEvent.isDue hMod hCll env.nowUs) st.queue =
      some (e, rest)) :
    (fremsoftPDUGetEventItem env st hMod hCll true).1.queue = rest ∧
      (fremsoftPDUGetEventItem env st hMod hCll true).2.item =
        some (eventItem e env.nowUs) := by
  cases hscheduler : st.gScheduler with
  | none => simp [FremSoftState.queue, hscheduler] at hdetach
  | some s =>
      have hpop : schedulerPopDue (some s) hMod hCll env.nowUs =
          (some e, some { s with head := rest }) := by
        refine schedulerPopDue_eq_some.2 ⟨rest, rfl, ?_⟩
        simpa [FremSoftState.queue, hscheduler] using hdetach
      simp [fremsoftPDUGetEventItem, hscheduler, hpop, hblob,
        FremSoftState.queue]

/-- The condition is needed: what is queued and due is handed out by enough
polls of its link, cancelled or not. -/
theorem exists_polls_of_queued (dll : RealDll ρ κ) {s : ShimState ρ}
    {env : ShimEnv} {hMod hCll : UInt32} {e : SchedEvent (List UInt8)}
    {front back : List (SchedEvent (List UInt8))}
    (hserves : s.frem.gMode.servesReplies = true) (hblob : env.blobOk = true)
    (hqueue : s.frem.queue = front ++ e :: back)
    (hdue : e.isDue hMod hCll env.nowUs = true) :
    ∃ n t outs, (apiMachine dll).run s
        (List.replicate n (.getEventItem env hMod hCll true)) = some (t, outs) ∧
      ∃ item ∈ outs.filterMap ApiReturn.item, item.hCop = e.hCop := by
  induction hlength : front.length using Nat.strong_induction_on
    generalizing s front with
  | h k ih =>
      let poll : ApiCall κ := .getEventItem env hMod hCll true
      rcases detach_append_cons hdue front back with
        hdetach | ⟨x, front', hdetach, hshorter⟩
      · rw [← hqueue] at hdetach
        refine ⟨1, _, _, rfl, eventItem e env.nowUs, ?_, rfl⟩
        simp [apiCall_item dll hserves, fremsoftItem,
          (fremsoftPDUGetEventItem_of_detach hblob hdetach).2]
      · rw [← hqueue] at hdetach
        have hnext : (apiCall dll s poll).1.frem.queue =
            front' ++ e :: back := by
          rw [apiCall_frem dll hserves]
          exact (fremsoftPDUGetEventItem_of_detach hblob hdetach).1
        have hmode :
            (apiCall dll s poll).1.frem.gMode.servesReplies = true := by
          rw [apiCall_frem dll hserves, fremsoftCall_gMode, hserves]
        obtain ⟨n, t, outs, hrun, item, hitem, hcop⟩ :=
          ih front'.length (by omega) hmode hnext rfl
        refine ⟨n + 1, t, (apiCall dll s poll).2 :: outs, ?_, item, ?_, hcop⟩
        · exact (Machine.run_cons ..).2 ⟨_, _, outs, rfl, hrun, rfl⟩
        · obtain ⟨ret, hret, heq⟩ := List.mem_filterMap.1 hitem
          exact List.mem_filterMap.2
            ⟨ret, List.mem_cons_of_mem _ hret, heq⟩

/-- Playback of nothing: every request is answered by a negative response. -/
def blankPlayback : ShimState Unit :=
  { frem :=
      { gMode := .playback
        gRecording := some
          { recordingId := [], vehicleProfile := [], exchanges := [] }
        gScheduler := some schedulerNew
        gNextHCop := 0x10000
        gActivityLog := none
        gUnknownLog := none }
    gLog := none
    real := () }

/-- The primitive is cancelled while its answer is queued, and the answer is
handed out all the same. -/
theorem cancel_leaves_reply_queued :
    ∃ t item, (apiMachine quietDll).run blankPlayback
        [.startComPrimitive (shimCallAt 1000) (shortRequest 0x3E),
          .cancelComPrimitive 1 2 0x10001,
          .getEventItem (shimCallAt 1050) 1 2 true] =
      some (t, [.started { status := 0, hCoP := some 0x10001 }, .status 0,
        .event { status := 0, item := some item }]) ∧
      item.hCop = 0x10001 :=
  ⟨_, _, rfl, rfl⟩

/-- A probe and the poll that fetches its answer. -/
def answeredProbe (tickMs : UInt64) : List (ApiCall Unit) :=
  [.startComPrimitive (shimCallAt tickMs) (shortRequest 0x3E),
    .getEventItem (shimCallAt (tickMs + 50)) 1 2 true]

/-- The primitive is cancelled after its answer has been fetched. -/
theorem cancel_of_answered_probe :
    ∃ m m' t outs₀ ret outs,
      (apiMachine quietDll).run blankPlayback (answeredProbe 1000) =
        some (m, outs₀) ∧
      (apiMachine quietDll).step m (.cancelComPrimitive 1 2 0x10001) =
        some (m', ret) ∧
      (apiMachine quietDll).run m' (answeredProbe 2000) = some (t, outs) ∧
      (∀ item ∈ outs.filterMap ApiReturn.item, item.hCop ≠ 0x10001) ∧
      ∃ t' outs', (apiMachine quietDll).run m (answeredProbe 2000) =
          some (t', outs') ∧
        t'.frem = t.frem ∧
        outs'.filterMap ApiReturn.item = outs.filterMap ApiReturn.item := by
  have hruns : ((apiMachine quietDll).run blankPlayback
      (answeredProbe 1000)).isSome = true := by decide
  have hbefore := (Option.some_get hruns).symm
  refine ⟨_, _, _, _, _, _, hbefore, rfl, rfl, ?_⟩
  exact cancel_of_run quietDll rfl hbefore (by decide) rfl (by decide) rfl

end FremSoft
