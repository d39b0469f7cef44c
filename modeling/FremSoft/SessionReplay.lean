/-
A session is recorded in front of the real DLL and replayed without it: through
the log file, the recording tool, the recording file and the loader, the client
of the second session gets the bytes that the real DLL gave to the first.
-/
import FremSoft.ShimModes
import FremSoft.RecordingFile
import FremSoft.TornLog

namespace FremSoft

universe u v u' v'

variable {ρ : Type u} {κ : Type v} {ρ' : Type u'} {κ' : Type v'}

/-! ### From the log to the recording -/

/-- The lines that the recorder makes frames of. -/
def keptLines (lines : List ActivityLine) : List ActivityLine :=
  lines.filter fun line => decide (line.IsFrame ∧ 5 ≤ line.bytes.length)

theorem isFrameLog_keptLines (lines : List ActivityLine) :
    IsFrameLog (keptLines lines) := by
  intro line hline
  simpa using (List.mem_filter.1 hline).2

/-- A log of whatever records is as good as that of its frames. -/
theorem parseLog_logText_kept (records : List LogRecord) :
    parseLog (logText records) =
      parseLog (shimLogText (keptLines (records.filterMap LogRecord.line?))) := by
  have hframe : ∀ line : ActivityLine, line.frame? =
      if line.IsFrame ∧ 5 ≤ line.bytes.length then some line.frame else none := by
    intro line
    by_cases hkept : line.IsFrame ∧ 5 ≤ line.bytes.length
    · rw [← frameOfBytes_eq_frame? hkept.1, frameOfBytes_eq hkept.2,
        if_pos hkept]
    · rw [ActivityLine.frame?, if_neg hkept, if_neg hkept]
  have hlines : ∀ lines : List ActivityLine,
      lines.filterMap ActivityLine.frame? =
        (keptLines lines).map ActivityLine.frame := by
    intro lines
    induction lines with
    | nil => rfl
    | cons line rest ih =>
        rw [List.filterMap_cons, keptLines, List.filter_cons, hframe]
        by_cases hkept : line.IsFrame ∧ 5 ≤ line.bytes.length
        · rw [if_pos hkept, if_pos (decide_eq_true hkept), List.map_cons, ih]
          rfl
        · rw [if_neg hkept, if_neg (by simpa using hkept), ih]
          rfl
  rw [parseLog_records, parseLog_shimLogText (isFrameLog_keptLines _), ← hlines,
    List.filterMap_filterMap]
  rfl

theorem recordingFile_logText (nl : List Char) (header : DocHeader)
    (maxGapMs : Int) (records : List LogRecord) :
    recordingFile nl header maxGapMs (logText records) =
      recordingFile nl header maxGapMs
        (shimLogText (keptLines (records.filterMap LogRecord.line?))) := by
  simp only [recordingFile, buildRecording, parseLog_logText_kept]

/-! ### The session that was recorded -/

theorem started_of_call (dll : RealDll ρ κ) {real real' : ρ}
    {calls : List (ApiCall κ)} {events : List (BusEvent κ)}
    (hrun : (realMachine dll).run real calls = some (real', events))
    {env : ShimEnv} {a : StartArgs}
    (hcall : .startComPrimitive env a ∈ calls) :
    ∃ result, .started env a result ∈ events := by
  induction calls generalizing real events with
  | nil => cases hcall
  | cons call rest ih =>
      obtain ⟨next, out, tail, hstep, hrest, rfl⟩ :=
        (Machine.run_cons ..).1 hrun
      obtain ⟨rfl, rfl⟩ := Prod.mk.inj (Option.some.inj hstep)
      rcases List.mem_cons.1 hcall with rfl | hcall
      · exact ⟨_, List.mem_append_left _ (List.mem_singleton_self _)⟩
      · obtain ⟨result, hmem⟩ := ih hrest hcall
        exact ⟨result, List.mem_append_right _ hmem⟩

/-- A request of the session stands in its log. -/
theorem request_logged (dll : RealDll ρ κ) {s t : ShimState ρ}
    {calls : List (ApiCall κ)} {outs : List ApiReturn}
    (hserves : s.frem.gMode.servesReplies = false) (hlog : s.gLog = some [])
    (hrun : (apiMachine dll).run s calls = some (t, outs))
    {lines : List ActivityLine} (hlines : t.gLog = some lines)
    {env : ShimEnv} {q : DiagRequest} (hshort : q.bytes.length ≤ 4096)
    (hcall : .startComPrimitive env q.args ∈ calls) :
    ∃ line ∈ keptLines lines, line.tag = reqPduTag ∧ line.bytes = q.bytes := by
  rw [apiRun_forwarded dll hserves] at hrun
  obtain ⟨⟨real, events⟩, hreal, heq⟩ := Option.map_eq_some_iff.1 hrun
  obtain ⟨rfl, rfl⟩ := Prod.mk.inj heq
  obtain rfl : events.flatMap BusEvent.lines = lines := by
    simpa [ShimState.logged, hlog] using hlines
  obtain ⟨result, hmem⟩ := started_of_call dll hreal hcall
  have hge := q.size_ge
  have hsize := q.args_size
  have hlogged : q.args.isLogged = true := by
    simp only [StartArgs.isLogged, Bool.and_eq_true, decide_eq_true_eq,
      UInt32.lt_iff_toNat_lt, UInt32.le_iff_toNat_le, hsize]
    exact ⟨⟨rfl, by simp; omega⟩, by simpa using hshort⟩
  refine ⟨{ ms := env.shimMs 0, tid := env.tid, tag := reqPduTag
            bytes := q.args.bytes }, List.mem_filter.2 ⟨?_, ?_⟩, rfl,
    q.args_bytes⟩
  · refine List.mem_flatMap.2 ⟨_, hmem, ?_⟩
    rw [BusEvent.lines, if_pos hlogged]
    exact List.mem_singleton_self _
  · simpa [ActivityLine.IsFrame] using hge

/-- A dump is not taken for a response. -/
theorem ApiCall.dumpLines_tag {call : ApiCall κ} {line : ActivityLine}
    (hline : line ∈ call.dumpLines) : line.tag ≠ rspUdsTag := by
  have hioctl : "IOCTL-IN".toList ≠ rspUdsTag := by decide
  have hparam : "PARAM-DATA".toList ≠ rspUdsTag := by decide
  unfold dumpLines at hline
  split at hline
  · rw [List.mem_singleton.1 hline]
    exact hioctl
  · rw [List.mem_singleton.1 hline]
    exact hparam
  · cases hline

/-- What is logged as a response is an item that the client was given. -/
theorem response_given (dll : RealDll ρ κ) {s t : ShimState ρ}
    {calls : List (ApiCall κ)} {outs : List ApiReturn}
    (hserves : s.frem.gMode.servesReplies = false) (hlog : s.gLog = some [])
    (hrun : (apiMachine dll).run s calls = some (t, outs))
    {lines : List ActivityLine} (hlines : t.gLog = some lines)
    {line : ActivityLine} (hline : line ∈ lines) (htag : line.tag = rspUdsTag) :
    ∃ item : EventItem, item.dataBytes = line.bytes ∧
      .event { status := pduStatusNoError, item := some item } ∈ outs := by
  rw [apiRun_forwarded dll hserves] at hrun
  obtain ⟨⟨real, events⟩, -, heq⟩ := Option.map_eq_some_iff.1 hrun
  obtain ⟨rfl, rfl⟩ := Prod.mk.inj heq
  obtain rfl : events.flatMap BusEvent.lines = lines := by
    simpa [ShimState.logged, hlog] using hlines
  obtain ⟨event, hevent, hline⟩ := List.mem_flatMap.1 hline
  cases event with
  | started env a result =>
      rw [BusEvent.lines] at hline
      split at hline
      · rw [List.mem_singleton.1 hline] at htag
        exact absurd htag.symm rspUdsTag_ne
      · cases hline
  | answered call status =>
      exact absurd htag (ApiCall.dumpLines_tag hline)
  | polled env pEventItem status found =>
      rw [BusEvent.lines] at hline
      split at hline
      · rename_i hok
        obtain ⟨x, hx, hline⟩ := List.mem_flatMap.1 hline
        rw [Option.mem_toList] at hx
        refine ⟨x.item, ?_, List.mem_map.2 ⟨_, hevent, ?_⟩⟩
        · have hrxFlag : "RSP-RxFlag".toList ≠ rspUdsTag := by decide
          simp only [RealItem.lines] at hline
          split_ifs at hline <;>
            simp only [List.mem_append, List.mem_singleton, List.not_mem_nil,
              or_false, false_or] at hline
          · rcases hline with rfl | rfl
            · rfl
            · exact absurd htag hrxFlag
          · rw [hline]
          · rw [hline] at htag
            exact absurd htag hrxFlag
        · rw [BusEvent.result, hok.1, hx]
          rfl
      · cases hline

/-- The lines behind a request are no requests. -/
theorem loggedExchanges_tag {maxGapMs : Int} {lines : List ActivityLine}
    {x : ActivityLine × List ActivityLine}
    (hx : x ∈ loggedExchanges maxGapMs lines) :
    ∀ line ∈ x.2, line.tag ≠ reqPduTag := by
  induction lines with
  | nil => simp [loggedExchanges] at hx
  | cons line rest ih =>
      rw [loggedExchanges] at hx
      split at hx
      · rcases List.mem_cons.1 hx with rfl | hx
        · intro l hl
          simpa using List.mem_takeWhile_imp (cutAtGap_subset hl)
        · exact ih hx
      · exact ih hx

/-! ### The session that is served -/

/-- Polls of a link on which nothing but these events is queued, each made when
the next of them is due. -/
theorem polls_in_order (dll : RealDll ρ κ) {p : ShimState ρ}
    {hMod hCll : UInt32} {events : List (SchedEvent (List UInt8))}
    {polls : List ShimEnv} (hserves : p.frem.gMode.servesReplies = true)
    (hqueue : p.frem.queue = events)
    (hpolls : List.Forall₂ (fun (poll : ShimEnv) e => poll.blobOk = true ∧
      SchedEvent.isDue hMod hCll poll.nowUs e = true) polls events) :
    ∃ t outs, (apiMachine dll).run p
        (polls.map fun poll => .getEventItem poll hMod hCll true) =
          some (t, outs) ∧
      List.Forall₂ (fun e out => ∃ nowUs, out = ApiReturn.event
        { status := pduStatusNoError, item := some (eventItem e nowUs) })
        events outs := by
  induction hpolls generalizing p with
  | nil => exact ⟨p, [], rfl, .nil⟩
  | @cons poll e polls events hpoll hrest ih =>
      obtain ⟨hblob, hdue⟩ := hpoll
      have hdetach : detach (SchedEvent.isDue hMod hCll poll.nowUs)
          p.frem.queue = some (e, events) := by
        rw [hqueue]
        exact detach_cons_of_pos hdue events
      let call : ApiCall κ := .getEventItem poll hMod hCll true
      have hnext : (apiCall dll p call).1.frem.queue = events := by
        rw [apiCall_frem dll hserves]
        exact (fremsoftPDUGetEventItem_of_detach hblob hdetach).1
      have hmode : (apiCall dll p call).1.frem.gMode.servesReplies = true := by
        rw [apiCall_frem dll hserves, fremsoftCall_gMode, hserves]
      obtain ⟨t, outs, hrun, houts⟩ := ih hmode hnext
      refine ⟨t, (apiCall dll p call).2 :: outs,
        (Machine.run_cons ..).2 ⟨_, _, outs, rfl, hrun, rfl⟩, .cons ?_ houts⟩
      refine ⟨poll.nowUs, ?_⟩
      have hstatus : ∀ item,
          (fremsoftPDUGetEventItem poll.toCallEnv p.frem hMod hCll true).2.item =
            some item →
          (fremsoftPDUGetEventItem poll.toCallEnv p.frem hMod hCll true).2 =
            { status := pduStatusNoError, item := some item } := by
        intro item hitem
        revert hitem
        unfold fremsoftPDUGetEventItem
        simp only [Bool.not_true, Bool.false_eq_true, if_false]
        split
        · simp
        · split <;> simp
      simp only [call, apiCall, pduGetEventItem, hserves, if_true]
      rw [hstatus _ (fremsoftPDUGetEventItem_of_detach hblob hdetach).2]

/-- The shim serves this recording, and nothing is queued. -/
structure ShimState.Idle (p : ShimState ρ) (r : Recording) : Prop where
  serves : p.frem.gMode.servesReplies = true
  recording : p.frem.gRecording = some r
  scheduler : ∃ s, p.frem.gScheduler = some s ∧ s.head = []

/-- A poll that finds the recorded line due and has memory for the item, when
the request was made at `nowUs`. -/
def PollsInTime (nowUs fromMs : Nat) (poll : ShimEnv) (line : ActivityLine) :
    Prop :=
  poll.blobOk = true ∧
    nowUs + 1000 * (line.ms.toNat - fromMs) ≤ poll.nowUs.toNat

/-- What a poll gives to the client is the recorded line, for its own request. -/
def AnswersWith (a : StartArgs) (hCop : UInt32) (line : ActivityLine)
    (out : ApiReturn) : Prop :=
  ∃ item : EventItem,
    out = .event { status := pduStatusNoError, item := some item } ∧
      item.dataBytes = line.bytes ∧ item.itemType = pduItResult ∧
      item.hCop = hCop ∧ item.pCoPTag = a.pCoPTag

/-- A request and the polls behind it, answered from a recording. -/
theorem request_answered (dll : RealDll ρ κ) {p : ShimState ρ} {r : Recording}
    {q : DiagRequest} {env : ShimEnv} {polls : List ShimEnv} {fromMs : Nat}
    {found : RecordedExchange} {reply : List ActivityLine} (hidle : p.Idle r)
    (halloc : env.AllocationsSucceed)
    (hlookup : recordingLookup (some r) (decodeRequest q.bytes).1
      (decodeRequest q.bytes).2 = some found)
    (hreplays : List.Forall₂ (SchedEvent.Replays env.nowUs.toNat fromMs)
      (responseEvents q.args (p.frem.gNextHCop + 1) env.nowUs 0
        found.responses) reply)
    (hpolls : List.Forall₂ (PollsInTime env.nowUs.toNat fromMs) polls reply) :
    ∃ t outs, (apiMachine dll).run p (.startComPrimitive env q.args ::
        polls.map fun poll => .getEventItem poll q.hMod q.hCll true) =
          some (t, .started (startResult p.frem q.args) :: outs) ∧
      List.Forall₂ (AnswersWith q.args (p.frem.gNextHCop + 1)) reply outs := by
  obtain ⟨hserves, hrecording, sched, hsched, hempty⟩ := hidle
  let call : ApiCall κ := .startComPrimitive env q.args
  have hmode : (apiCall dll p call).1.frem.gMode.servesReplies = true := by
    rw [apiCall_frem dll hserves, fremsoftCall_gMode, hserves]
  have hqueue : (apiCall dll p call).1.frem.queue =
      responseEvents q.args (p.frem.gNextHCop + 1) env.nowUs 0
        found.responses := by
    obtain ⟨events, lines, hstate, -, hevents⟩ :=
      fremsoftPDUStartComPrimitive_spec env.toCallEnv p.frem q.args
    have hall := hevents halloc
    rw [startEvents, if_pos q.isRequest, replyEvents, q.args_bytes, hrecording,
      hlookup] at hall
    rw [apiCall_frem dll hserves, fremsoftCall, hstate, hall]
    simp [FremSoftState.extend, FremSoftState.queue, hsched, schedulerQueue,
      Scheduler.append, hempty]
  have hboth := (List.forall₂_and_left _ _).2
    ⟨responseEvents_belong q.args (p.frem.gNextHCop + 1) env.nowUs 0
      found.responses, hreplays⟩
  have hdue := forall₂_comp (fun poll line e hpoll h =>
    (⟨hpoll.1, SchedEvent.isDue_iff.2 ⟨h.1.hMod, h.1.hCll,
      UInt64.le_iff_toNat_le.2 (h.2.dueUs.trans_le hpoll.2)⟩⟩ :
      poll.blobOk = true ∧
        SchedEvent.isDue q.hMod q.hCll poll.nowUs e = true)) hpolls hboth.flip
  obtain ⟨t, outs, hrun, houts⟩ := polls_in_order dll hmode hqueue hdue
  refine ⟨t, outs, (Machine.run_cons ..).2 ⟨_, _, outs, rfl, hrun, ?_⟩, ?_⟩
  · have hresult := (pduStartComPrimitive_frem dll env hserves q.args).2
    exact congrArg (ApiReturn.started · :: outs) hresult.symm
  · refine forall₂_comp (fun line e out h hout => ?_) hboth.flip houts
    obtain ⟨nowUs, rfl⟩ := hout
    refine ⟨_, rfl, ?_, h.1.itemType, h.1.hCop, h.1.copTag⟩
    rw [eventItem, h.2.numData, h.2.dataBytes, List.take_length]

/-- What one session records, another one replays.  The log of a session in
front of the real DLL is made into a recording file and loaded; then a request
of that session, sent again, is answered poll by poll with the bytes that the
real DLL gave to its first sender, under the handle and the tag of the new
request. -/
theorem session_replayed (dll : RealDll ρ κ) (dll' : RealDll ρ' κ')
    {s t : ShimState ρ} {calls : List (ApiCall κ)} {outs : List ApiReturn}
    {lines : List ActivityLine} {records : List LogRecord} {nl : List Char}
    (header : DocHeader) {maxGapMs : Int}
    (hserves : s.frem.gMode.servesReplies = false) (hlog : s.gLog = some [])
    (hrun : (apiMachine dll).run s calls = some (t, outs))
    (hlines : t.gLog = some lines)
    (hfile : keptLines (records.filterMap LogRecord.line?) = keptLines lines)
    (hzero : ∀ line ∈ keptLines lines, HasZeroChannel line.bytes)
    (hordered : (keptLines lines).Pairwise (·.ms ≤ ·.ms))
    (hgap : maxGapMs < 2 ^ 32) (hnl : Blank nl)
    (hfits : (recordingFile nl header maxGapMs (logText records)).length <
      2 ^ 31) :
    ∃ m r, recordingLoadText
        (recordingFile nl header maxGapMs (logText records)) = .ok (some m) ∧
      m.Holds r ∧
      ∀ q : DiagRequest, q.bytes.length ≤ 4096 →
        (∃ env, .startComPrimitive env q.args ∈ calls) →
        ∃ request reply, loggedReply maxGapMs q.bytes (keptLines lines) =
            some (request, reply) ∧
          (∀ line ∈ reply, ∃ item : EventItem, item.dataBytes = line.bytes ∧
            .event { status := pduStatusNoError, item := some item } ∈ outs) ∧
          ∀ (p : ShimState ρ') (env : ShimEnv) (q' : DiagRequest)
            (polls : List ShimEnv), q'.bytes = q.bytes → p.Idle r →
            env.AllocationsSucceed →
            List.Forall₂ (PollsInTime env.nowUs.toNat request.ms.toNat) polls
              reply →
            ∃ t' outs', (apiMachine dll').run p
                (.startComPrimitive env q'.args :: polls.map fun poll =>
                  .getEventItem poll q'.hMod q'.hCll true) =
                some (t', .started (startResult p.frem q'.args) :: outs') ∧
              List.Forall₂ (AnswersWith q'.args (p.frem.gNextHCop + 1)) reply
                outs' := by
  rw [recordingFile_logText, hfile] at hfits ⊢
  have hframes : IsFrameLog (keptLines lines) := isFrameLog_keptLines lines
  obtain ⟨toks, m, r, htoks, hm, hr, hholds⟩ :=
    recordingLoadText_recordingFile hnl header maxGapMs
      (shimLogText (keptLines lines)) hfits
  obtain ⟨r', hr', hexchanges⟩ := recordingLoad_log hframes htoks
  obtain rfl : r' = r := by
    rw [hr, Except.ok.injEq, Option.some.injEq] at hr'
    exact hr'.symm
  refine ⟨m, r', hm, hholds, ?_⟩
  rintro q hshort ⟨env₀, hcall⟩
  obtain ⟨line, hline, htag, hbytes⟩ :=
    request_logged dll hserves hlog hrun hlines hshort hcall
  obtain ⟨⟨request, reply⟩, hfirst, hlookup⟩ :=
    recordingLookup_logged ⟨hframes, hzero⟩ hexchanges hline htag
  rw [hbytes] at hfirst hlookup
  have hmem := List.mem_of_find?_eq_some hfirst
  refine ⟨request, reply, hfirst, fun l hl => ?_, ?_⟩
  · have hkept := (loggedExchanges_mem hmem).2.2 hl
    exact response_given dll hserves hlog hrun hlines (List.mem_filter.1 hkept).1
      ((hframes l hkept).1.resolve_left (loggedExchanges_tag hmem l hl))
  intro p env q' polls hsame hidle halloc hpolls
  rw [← hsame] at hlookup
  refine request_answered dll' hidle halloc hlookup
    (responseEvents_replay q'.args _ ⟨hframes, hzero⟩ hordered hgap hmem
      (recordingLoad_sized htoks.fits hr) (lookupScan_mem hlookup).1
      fun l hl => ?_) hpolls
  -- each line is waited for, so its time fits into the clock
  obtain ⟨poll, -, hpoll⟩ := forall₂_exists_left hpolls hl
  exact lt_of_le_of_lt hpoll.2 poll.nowUs.toNat_lt

def oneAnswerDll : RealDll Unit Unit :=
  { quietDll with
    getEventItem := fun _ _ _ _ => ((), pduStatusNoError, some
      { item :=
          { itemType := pduItResult, hCop := 1, pCoPTag := 0, timestamp := 0
            numDataBytes := 5, dataBytes := [0x00, 0x00, 0x05, 0xE8, 0x7E] }
        pData := true
        pDataBytes := true
        rxFlag := [] }) }

def oneAnswerLog : List LogRecord :=
  [.header ⟨[' '], by simp [isLineBreak]⟩,
    .reqPdu 100 1 [0x00, 0x00, 0x07, 0xE0, 0x3E],
    .rspUds 130 1 [0x00, 0x00, 0x05, 0xE8, 0x7E]]

theorem session_replayed_one_answer :
    ∃ m r, recordingLoadText (recordingFile ['\n'] sampleHeader 3000
        (logText oneAnswerLog)) = .ok (some m) ∧ m.Holds r ∧
      ∀ p : ShimState Unit, p.Idle r →
        ∃ t item, (apiMachine quietDll).run p
            [.startComPrimitive (shimCallAt 7) (shortRequest 0x3E),
              .getEventItem (shimCallAt 37) 1 2 true] =
            some (t, [.started (startResult p.frem (shortRequest 0x3E)),
              .event { status := pduStatusNoError, item := some item }]) ∧
          item.dataBytes = [0x00, 0x00, 0x05, 0xE8, 0x7E] := by
  let q : DiagRequest :=
    ⟨1, 2, 0, true, [0x00, 0x00, 0x07, 0xE0, 0x3E], by decide, by decide⟩
  let session : ShimState Unit :=
    { frem := .static, gLog := some [], real := () }
  obtain ⟨m, r, hload, hholds, hreplay⟩ := @session_replayed _ _ _ _
    oneAnswerDll quietDll session _
    [.startComPrimitive (shimCallAt 100) q.args,
      .getEventItem (shimCallAt 130) 1 2 true]
    _ _ oneAnswerLog ['\n'] sampleHeader 3000 rfl rfl rfl rfl (by decide)
    (by decide) (by decide) (by decide) (by decide) (by decide +kernel)
  refine ⟨m, r, hload, hholds, fun p hidle => ?_⟩
  obtain ⟨request, reply, hfirst, -, hserved⟩ := hreplay q (by decide)
    ⟨_, List.mem_cons_self⟩
  have hsample : loggedReply 3000 q.bytes (keptLines
      (oneAnswerLog.filterMap LogRecord.line?)) = some
        (⟨100, 1, reqPduTag, [0x00, 0x00, 0x07, 0xE0, 0x3E]⟩,
          [⟨130, 1, rspUdsTag, [0x00, 0x00, 0x05, 0xE8, 0x7E]⟩]) := by
    decide +kernel
  obtain ⟨rfl, rfl⟩ := Prod.mk.inj (Option.some.inj (hfirst.symm.trans hsample))
  obtain ⟨t, outs, hrun, hanswers⟩ := hserved p (shimCallAt 7) q
    [shimCallAt 37] rfl hidle ⟨fun _ => rfl, fun _ => rfl, rfl⟩
    (.cons ⟨rfl, by decide⟩ .nil)
  obtain ⟨out, rest, ⟨item, rfl, hdata, -⟩, hrest, rfl⟩ :=
    List.forall₂_cons_left_iff.1 hanswers
  rw [List.forall₂_nil_left_iff] at hrest
  rw [hrest] at hrun
  exact ⟨t, item, hrun, hdata⟩

end FremSoft
