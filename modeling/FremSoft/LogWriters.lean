/-
The log files under several threads.  A line is written by a handful of `stdio`
calls between entering and leaving the lock of its file, and a thread may be
interrupted between any two of them.  At every moment the file is whole lines,
in the order in which their writers were inside, and the front of at most one
more.
-/
import FremSoft.Lib.Mutex
import FremSoft.TornLog

namespace FremSoft

/-! ### Lines in pieces -/

/-- A log file: its text, and the `t0` of the function that stamps its lines. -/
structure LogFile where
  text : List Char
  t0 : UInt64

/-- How the calls `κ` of a logging function write their lines: what the first
`fprintf` prints, with the milliseconds since the start and all that it reads of
the clocks, and what each call behind it prints up to `fputc('\n')`. -/
structure LineFormat (κ ι : Type) where
  wallMs : ι → UInt64
  first : κ → UInt64 → ι → List Char
  later : κ → List (List Char)

/-- A line that is in the file: its call, its stamp and what was read. -/
structure WrittenLine (κ ι : Type) where
  call : κ
  ms : UInt64
  reading : ι
deriving DecidableEq, Repr

/-- What a writer does next: the first `fprintf`, or the calls behind it. -/
inductive WriterCode (κ ι : Type) where
  | first (call : κ)
  | later (line : WrittenLine κ ι) (pieces : List (List Char))

variable {κ ι : Type}

/-- `if (t0 == 0) t0 = t` -/
def startMs (t0 now : UInt64) : UInt64 :=
  if t0 = 0 then now else t0

/-- The writers of a file, one `stdio` call at a time. -/
def lineWriters (F : LineFormat κ ι) :
    Guarded LogFile κ (WriterCode κ ι) ι (WrittenLine κ ι) where
  enter := .first
  access s code reading :=
    match code with
    | .first call =>
        let t0 := startMs s.t0 (F.wallMs reading)
        let ms := F.wallMs reading - t0
        ({ text := s.text ++ F.first call ms reading, t0 },
          .inl (.later { call, ms, reading } (F.later call)))
    | .later line (piece :: pieces) =>
        ({ s with text := s.text ++ piece }, .inl (.later line pieces))
    | .later line [] => ({ s with text := s.text ++ ['\n'] }, .inr line)

def LineFormat.text (F : LineFormat κ ι) (line : WrittenLine κ ι) : List Char :=
  F.first line.call line.ms line.reading ++ (F.later line.call).flatten

def LineFormat.lines (F : LineFormat κ ι) (ws : List (WrittenLine κ ι)) :
    List Char :=
  ws.flatMap fun w => F.text w ++ ['\n']

/-- The stamps are those that `t0`, set by the first reading, leads to. -/
def LineFormat.Stamped (F : LineFormat κ ι) :
    UInt64 → List (WrittenLine κ ι) → Prop
  | _, [] => True
  | t0, w :: rest =>
      w.ms = F.wallMs w.reading - startMs t0 (F.wallMs w.reading) ∧
        F.Stamped (startMs t0 (F.wallMs w.reading)) rest

/-! ### One line -/

section Sections

variable {F : LineFormat κ ι} {s s' : LogFile} {line : WrittenLine κ ι}
  {pieces : List (List Char)} {inputs : List ι}

/-- The pieces behind the first, as far as they are written. -/
theorem later_partly {now : WriterCode κ ι}
    (h : (lineWriters F).body s (.later line pieces) inputs =
      some (s', .inl now)) :
    ∃ part, part <+: pieces.flatten ∧ s'.text = s.text ++ part := by
  induction inputs generalizing s pieces with
  | nil =>
      simp only [Guarded.body, Option.some.injEq, Prod.mk.injEq] at h
      exact ⟨[], List.nil_prefix, by rw [← h.1, List.append_nil]⟩
  | cons reading rest ih =>
      cases pieces with
      | nil =>
          simp only [Guarded.body, lineWriters] at h
          split at h <;> simp at h
      | cons piece pieces =>
          simp only [Guarded.body, lineWriters] at h
          obtain ⟨part, hpart, htext⟩ := ih h
          refine ⟨piece ++ part, ?_, by rw [htext, List.append_assoc]⟩
          rw [List.flatten_cons]
          exact (List.prefix_append_right_inj piece).2 hpart

/-- All of them, and the end of the line. -/
theorem later_whole {w : WrittenLine κ ι}
    (h : (lineWriters F).body s (.later line pieces) inputs =
      some (s', .inr w)) :
    w = line ∧ s'.text = s.text ++ (pieces.flatten ++ ['\n']) ∧
      s'.t0 = s.t0 := by
  induction inputs generalizing s pieces with
  | nil => cases h
  | cons reading rest ih =>
      cases pieces with
      | nil =>
          simp only [Guarded.body, lineWriters] at h
          split at h
          · simp only [Option.some.injEq, Prod.mk.injEq, Sum.inr.injEq] at h
            obtain ⟨rfl, rfl⟩ := h
            exact ⟨rfl, rfl, rfl⟩
          · cases h
      | cons piece pieces =>
          simp only [Guarded.body, lineWriters] at h
          obtain ⟨hline, htext, ht0⟩ := ih h
          refine ⟨hline, ?_, ht0⟩
          rw [htext, List.flatten_cons]
          simp only [List.append_assoc]

/-- A section that is under way has written the front of its line. -/
theorem section_partly {call : κ} {now : WriterCode κ ι}
    (h : (lineWriters F).body s (.first call) inputs = some (s', .inl now)) :
    ∃ part, s'.text = s.text ++ part ∧
      (part = [] ∨ ∃ w : WrittenLine κ ι, w.call = call ∧ part <+: F.text w) := by
  cases inputs with
  | nil =>
      simp only [Guarded.body, Option.some.injEq, Prod.mk.injEq] at h
      exact ⟨[], by rw [← h.1, List.append_nil], .inl rfl⟩
  | cons reading rest =>
      simp only [Guarded.body, lineWriters] at h
      obtain ⟨part, hpart, htext⟩ := later_partly h
      let w : WrittenLine κ ι :=
        ⟨call, F.wallMs reading - startMs s.t0 (F.wallMs reading), reading⟩
      refine ⟨F.first call w.ms reading ++ part, ?_, .inr ⟨w, rfl, ?_⟩⟩
      · rw [htext, List.append_assoc]
      · exact (List.prefix_append_right_inj _).2 hpart

/-- A whole section has written its line. -/
theorem section_whole {call : κ} {w : WrittenLine κ ι}
    (h : (lineWriters F).body s (.first call) inputs = some (s', .inr w)) :
    w.call = call ∧ inputs.head? = some w.reading ∧
      s'.t0 = startMs s.t0 (F.wallMs w.reading) ∧
      w.ms = F.wallMs w.reading - s'.t0 ∧
      s'.text = s.text ++ (F.text w ++ ['\n']) := by
  cases inputs with
  | nil => cases h
  | cons reading rest =>
      simp only [Guarded.body, lineWriters] at h
      obtain ⟨rfl, htext, ht0⟩ := later_whole h
      refine ⟨rfl, rfl, ht0, by rw [ht0], ?_⟩
      rw [htext, LineFormat.text]
      simp only [List.append_assoc]

end Sections

/-! ### The file -/

section File

variable {F : LineFormat κ ι} {s s' : LogFile}

/-- One line after the other. -/
theorem serial_lines {turns : List (Turn κ ι)}
    {outs : List (GuardedObs ι (WrittenLine κ ι))}
    {ws : List (Nat × WrittenLine κ ι)}
    (hrun : (lineWriters F).serial.run s turns = some (s', outs))
    (hws : outs.filterMap GuardedObs.result? = ws) :
    s'.text = s.text ++ F.lines (ws.map Prod.snd) ∧
      ws.map (fun w => (w.1, w.2.call)) = turns.map Turn.call ∧
      F.Stamped s.t0 (ws.map Prod.snd) ∧
      (ws.map fun w => w.2.reading).Sublist
        (outs.filterMap GuardedObs.input?) := by
  subst hws
  induction turns generalizing s outs with
  | nil =>
      simp only [Machine.run_nil, Option.some.injEq, Prod.mk.injEq] at hrun
      obtain ⟨rfl, rfl⟩ := hrun
      exact ⟨(List.append_nil _).symm, rfl, trivial, List.Sublist.slnil⟩
  | cons turn rest ih =>
      obtain ⟨s₁, out, tail, hstep, hrest, rfl⟩ := (Machine.run_cons ..).1 hrun
      obtain ⟨w, hbody, rfl⟩ := Guarded.body_of_serial_step hstep
      obtain ⟨hcall, hfirst, ht0, hms, htext⟩ := section_whole hbody
      obtain ⟨htext', hcalls, hstamped, hreadings⟩ := ih hrest
      rw [@List.filterMap_append _ _ _ tail, Guarded.filterMap_result_whole,
        @List.filterMap_append _ _ _ tail, Guarded.filterMap_input_whole,
        List.singleton_append]
      simp only [List.map_cons]
      refine ⟨?_, ?_, ⟨?_, ?_⟩, ?_⟩
      · rw [htext', htext, List.append_assoc]
        rfl
      · rw [hcalls, hcall]
        rfl
      · rw [hms, ht0]
      · rw [← ht0]
        exact hstamped
      · obtain ⟨more, hmore⟩ := List.head?_eq_some_iff.1 hfirst
        rw [hmore, List.cons_append]
        exact (hreadings.trans (List.sublist_append_right _ _)).cons_cons _

/-- Once it is set, `t0` stays. -/
theorem LineFormat.Stamped.ms_eq {t0 : UInt64} {ws : List (WrittenLine κ ι)}
    (h : F.Stamped t0 ws) (hset : t0 ≠ 0) :
    ∀ w ∈ ws, w.ms = F.wallMs w.reading - t0 := by
  induction ws with
  | nil => exact List.forall_mem_nil _
  | cons w rest ih =>
      have hstart : startMs t0 (F.wallMs w.reading) = t0 := if_neg hset
      rw [Stamped, hstart] at h
      exact List.forall_mem_cons.2 ⟨h.1, ih h.2⟩

/-- A clock that never goes back stamps the lines in order. -/
theorem LineFormat.Stamped.sorted {t0 : UInt64} {ws : List (WrittenLine κ ι)}
    (h : F.Stamped t0 ws) (hstart : ∀ w ∈ ws, t0 ≤ F.wallMs w.reading)
    (hclock : ws.Pairwise fun w w' => F.wallMs w.reading ≤ F.wallMs w'.reading) :
    ws.Pairwise fun w w' => w.ms ≤ w'.ms := by
  induction ws generalizing t0 with
  | nil => exact .nil
  | cons w rest ih =>
      obtain ⟨hms, hrest⟩ := h
      obtain ⟨hafter, hclock⟩ := List.pairwise_cons.1 hclock
      have ht0 := hstart w List.mem_cons_self
      generalize ht1 : startMs t0 (F.wallMs w.reading) = t1 at hms hrest
      have hle : t1 ≤ F.wallMs w.reading := by
        rw [← ht1, startMs]
        split
        · exact UInt64.le_refl _
        · exact ht0
      refine List.pairwise_cons.2 ⟨fun w' hw' => ?_, ih hrest
        (fun w' hw' => UInt64.le_trans hle (hafter w' hw')) hclock⟩
      have hlater := hafter w' hw'
      by_cases hset : t1 = 0
      · -- the reading itself was 0
        have hzero : w.ms = 0 := by
          rw [startMs] at ht1
          split at ht1
          · rw [hms, ht1, hset, UInt64.sub_self]
          · next hne => exact absurd (ht1.trans hset) hne
        rw [hzero]
        exact UInt64.zero_le
      · rw [hms, hrest.ms_eq hset w' hw']
        have hle' := UInt64.le_trans hle hlater
        rw [UInt64.le_iff_toNat_le] at hle hle' hlater ⊢
        rw [UInt64.toNat_sub_of_le _ _ hle, UInt64.toNat_sub_of_le _ _ hle']
        omega

/-- A file under any interleaving of its writers: what was there, the lines
whose writers have been inside, in that order, and the front of the line of the
writer that is inside. -/
theorem writers_file {s₀ : LogFile}
    {t : GuardedState LogFile κ (WriterCode κ ι)}
    {acts : List (GuardedAction κ ι)}
    {outs : List (GuardedObs ι (WrittenLine κ ι))}
    {ws : List (Nat × WrittenLine κ ι)}
    (hrun : (lineWriters F).locked.run (Guarded.start s₀) acts = some (t, outs))
    (hws : outs.filterMap GuardedObs.result? = ws) :
    (∃ part, t.shared.text = s₀.text ++ F.lines (ws.map Prod.snd) ++ part ∧
      (part = [] ∨ ∃ k call line, t.lock = some k ∧ t.calls[k]? = some call ∧
        line.call = call.op ∧ part <+: F.text line)) ∧
      (ws.map Prod.fst).Nodup ∧
      (∀ k, k ∈ ws.map Prod.fst ↔
        ∃ call, t.calls[k]? = some call ∧ call.stage.ended = true) ∧
      (∀ w ∈ ws, t.calls[w.1]?.map GuardedCall.op = some w.2.call) ∧
      F.Stamped s₀.t0 (ws.map Prod.snd) ∧
      (ws.map fun w => w.2.reading).Sublist
        (outs.filterMap GuardedObs.input?) := by
  obtain ⟨-, turns, s, whole, partly, hserial, -, hturns, hstands, rfl⟩ :=
    Guarded.locked_run (Guarded.meets_true _ _ _) hrun
  rw [List.filterMap_append, hstands.results_nil, List.append_nil] at hws
  obtain ⟨htext, hcalls, hstamped, hreadings⟩ := serial_lines hserial hws
  have hk : ws.map Prod.fst = turns.map Turn.k := by
    have h := congrArg (List.map Prod.fst) hcalls
    simpa [List.map_map, Function.comp_def, Turn.call] using h
  refine ⟨?_, by rw [hk]; exact hturns.nodup, by rw [hk]; exact hturns.ended,
    fun w hw => ?_, hstamped, ?_⟩
  · cases hstands with
    | free hlock hshared =>
        exact ⟨[], by rw [hshared, htext, List.append_nil], .inl rfl⟩
    | inside hlock hcall hbody =>
        obtain ⟨part, hpart, hfront⟩ := section_partly hbody
        refine ⟨part, by rw [hpart, htext], hfront.imp id ?_⟩
        rintro ⟨line, hline, hfront⟩
        exact ⟨_, _, line, hlock, hcall, hline, hfront⟩
    | leaving hlock hcall hshared =>
        exact ⟨[], by rw [hshared, htext, List.append_nil], .inl rfl⟩
  · have hmem : (w.1, w.2.call) ∈ turns.map Turn.call := by
      rw [← hcalls]
      exact List.mem_map.2 ⟨w, hw, rfl⟩
    obtain ⟨turn, hturn, heq⟩ := List.mem_map.1 hmem
    obtain ⟨hfst, hsnd⟩ := Prod.mk.inj heq
    rw [← hfst, ← hsnd]
    exact hturns.op turn hturn
  · rw [List.filterMap_append]
    exact hreadings.trans (List.sublist_append_left _ _)

end File

/-! ### The shim's log and the activity log -/

/-- A call of `shim_log`, with its text formatted, or of one of the three
writers of hex dumps, and the thread that makes it. -/
inductive LogCall where
  | plain (tid : UInt32) (text : LineText) (hplain : ¬"HEX".toList <+: text.1)
  | hex (tid : UInt32) (tag : LineText) (bytes : List UInt8)
      (htag : '|' ∉ tag.1)
  | reqPdu (tid : UInt32) (bytes : List UInt8)
  | rspUds (tid : UInt32) (bytes : List UInt8)

/-- The loop over the bytes of a dump of `len`, call by call: `%02X` for each
byte, and `fputc` for the blank behind each but the last. -/
def hexPieces (len : Nat) : Nat → List UInt8 → List (List Char)
  | _, [] => []
  | i, b :: rest =>
      hexByte upperDigit b ::
        ((if i + 1 < len then [[' ']] else []) ++ hexPieces len (i + 1) rest)

/-- What the first `fprintf` of a dump prints. -/
def hexFirst (literal : List Char) (ms : UInt64) (tid : UInt32)
    (bytes : List UInt8) : List Char :=
  writeDigits lowerDigit 10 ms.toNat ++ '|' ::
    (writeDigits lowerDigit 10 tid.toNat ++ (literal ++
      (writeDigits lowerDigit 10 bytes.length ++ ['|'])))

def LogCall.first (ms : UInt64) : LogCall → List Char
  | plain tid _ _ =>
      writeDigits lowerDigit 10 ms.toNat ++ '|' ::
        (writeDigits lowerDigit 10 tid.toNat ++ ['|'])
  | hex tid tag bytes _ =>
      hexFirst ("|HEX  |".toList ++ (tag.1 ++ "|len=".toList)) ms tid bytes
  | reqPdu tid bytes => hexFirst "|HEX  |REQ-PDU|len=".toList ms tid bytes
  | rspUds tid bytes => hexFirst "|HEX  |RSP-UDS|len=".toList ms tid bytes

/-- What the calls behind it print: `vfprintf`, or the loop. -/
def LogCall.later : LogCall → List (List Char)
  | plain _ text _ => [text.1]
  | hex _ _ bytes _ | reqPdu _ bytes | rspUds _ bytes =>
      hexPieces bytes.length 0 bytes

/-- `now_ms` and `since_attach_ms` read the one clock once for a line. -/
def logFormat : LineFormat LogCall UInt64 :=
  { wallMs := id
    first := fun call ms _ => call.first ms
    later := LogCall.later }

def WrittenLine.record (w : WrittenLine LogCall UInt64) : LogRecord :=
  match w.call with
  | .plain tid text hplain => .plain w.ms tid text hplain
  | .hex tid tag bytes htag => .hex w.ms tid tag bytes htag
  | .reqPdu tid bytes => .reqPdu w.ms tid bytes
  | .rspUds tid bytes => .rspUds w.ms tid bytes

/-- The file as it is when it has been opened. -/
def openedLog (headers : List LineText) : LogFile :=
  { text := logText (headers.map .header), t0 := 0 }

theorem flatten_hexPieces (len i : Nat) (bytes : List UInt8) :
    (hexPieces len i bytes).flatten = hexLoop len i bytes := by
  induction bytes generalizing i with
  | nil => rfl
  | cons b rest ih =>
      rw [hexPieces, hexLoop, List.flatten_cons, List.flatten_append, ih,
        List.append_assoc]
      split <;> rfl

theorem hexFirst_append (literal : List Char) (ms : UInt64) (tid : UInt32)
    (bytes : List UInt8) :
    hexFirst literal ms tid bytes ++
        (hexPieces bytes.length 0 bytes).flatten =
      fremsoftLogHexText literal ms tid bytes := by
  simp [hexFirst, fremsoftLogHexText, flatten_hexPieces]

/-- The pieces of a line make up the text of its record. -/
theorem logFormat_text (w : WrittenLine LogCall UInt64) :
    logFormat.text w = w.record.text := by
  obtain ⟨call, ms, reading⟩ := w
  cases call with
  | plain tid text hplain =>
      simp [LineFormat.text, logFormat, LogCall.first, LogCall.later,
        WrittenLine.record, LogRecord.text, shimLogLineText]
  | hex tid tag bytes htag =>
      exact (hexFirst_append _ ms tid bytes).trans
        (fremsoftLogHexText_eq ms tid tag.1 bytes)
  | reqPdu tid bytes => exact hexFirst_append _ ms tid bytes
  | rspUds tid bytes => exact hexFirst_append _ ms tid bytes

theorem logFormat_lines (ws : List (WrittenLine LogCall UInt64)) :
    logFormat.lines ws = logText (ws.map WrittenLine.record) := by
  simp only [LineFormat.lines, logText, List.flatMap_map, logFormat_text]

theorem headers_frames (headers : List LineText) :
    (headers.map LogRecord.header).filterMap LogRecord.frame? = [] := by
  simp [List.filterMap_map, Function.comp_def, LogRecord.frame?,
    LogRecord.line?]

/-- A log file at any moment of any interleaving of its writers: the lines that
were written on opening it, the lines of the calls that have been inside, each
once and in that order, and the front of the line of the call that is inside, if
there is one.  `parse_log` finds the frames of those lines and what it makes of
the front, and a clock that never goes back stamps the lines in order. -/
theorem log_of_any_interleaving {headers : List LineText}
    {t : GuardedState LogFile LogCall (WriterCode LogCall UInt64)}
    {acts : List (GuardedAction LogCall UInt64)}
    {outs : List (GuardedObs UInt64 (WrittenLine LogCall UInt64))}
    {ws : List (Nat × WrittenLine LogCall UInt64)}
    (hrun : (lineWriters logFormat).locked.run
      (Guarded.start (openedLog headers)) acts = some (t, outs))
    (hws : outs.filterMap GuardedObs.result? = ws) :
    (∃ part,
      t.shared.text = logText (headers.map .header ++
        ws.map fun w => w.2.record) ++ part ∧
      parseLog t.shared.text = (ws.filterMap fun w => w.2.record.frame?) ++
        (parseLine part).toList ∧
      (part = [] ∨ ∃ (k : Nat) (call : GuardedCall LogCall _)
          (line : WrittenLine LogCall UInt64), t.lock = some k ∧
        t.calls[k]? = some call ∧ line.call = call.op ∧
        part <+: line.record.text)) ∧
      (ws.map Prod.fst).Nodup ∧
      (∀ k, k ∈ ws.map Prod.fst ↔
        ∃ call, t.calls[k]? = some call ∧ call.stage.ended = true) ∧
      (∀ w ∈ ws, t.calls[w.1]?.map GuardedCall.op = some w.2.call) ∧
      ((outs.filterMap GuardedObs.input?).Pairwise (· ≤ ·) →
        (ws.map fun w => w.2.ms).Pairwise (· ≤ ·)) := by
  obtain ⟨⟨part, htext, hpart⟩, hnodup, hended, hcalls, hstamped, hreadings⟩ :=
    writers_file hrun hws
  refine ⟨⟨part, ?_, ?_, ?_⟩, hnodup, hended, hcalls, fun hclock => ?_⟩
  · rw [htext, logText_append, logFormat_lines, List.map_map]
    rfl
  · have hline : ∀ c ∈ part, isLineBreak c = false := by
      rcases hpart with rfl | ⟨k, call, line, -, -, -, hfront⟩
      · exact List.forall_mem_nil _
      · rw [logFormat_text] at hfront
        exact fun c hc => line.record.text_line c (hfront.subset hc)
    rw [htext, logFormat_lines, openedLog, ← logText_append,
      parseLog_logText_append _ hline, List.filterMap_append, headers_frames,
      List.nil_append, List.filterMap_map, List.filterMap_map]
    rfl
  · refine hpart.imp id ?_
    rintro ⟨k, call, line, hlock, hcall, hop, hfront⟩
    rw [logFormat_text] at hfront
    exact ⟨k, call, line, hlock, hcall, hop, hfront⟩
  · have hordered := List.pairwise_map.1 (hclock.sublist hreadings)
    have hsorted := hstamped.sorted (fun _ _ => UInt64.zero_le)
      (List.pairwise_map.2 hordered)
    rw [← List.pairwise_map, List.map_map] at hsorted
    exact hsorted

def sampleFirstLine : LineText :=
  ⟨" cstech2win shim log".toList, List.forall_iff_forall_mem.1 (by decide)⟩

/-- A request is written; a second thread, whose call came in meanwhile, has
printed its stamp. -/
def sampleWriters : List (GuardedAction LogCall UInt64) :=
  [.call (.reqPdu 7 [0x00, 0x00, 0x07, 0xE0, 0x3E]), .enter 0,
    .access 0 5000,
    .call (.plain 8 ⟨"CALL |PDUDestruct|".toList,
      List.forall_iff_forall_mem.1 (by decide)⟩ (by decide)),
    .access 0 5001, .access 0 5001, .access 0 5001, .access 0 5001,
    .access 0 5001, .access 0 5001, .access 0 5001, .access 0 5001,
    .access 0 5001, .access 0 5001, .leave 0, .enter 1, .access 1 5004]

theorem log_of_any_interleaving_sample : ∃ t outs part,
    (lineWriters logFormat).locked.run
        (Guarded.start (openedLog [sampleFirstLine]))
        sampleWriters = some (t, outs) ∧
      t.shared.text = "# cstech2win shim log\n0|7|HEX  |REQ-PDU|len=5|".toList ++
        "00 00 07 E0 3E\n4|8|".toList ∧
      parseLog t.shared.text =
        { ms := 0, direction := .tx, canId := 0x7E0, uds := [0x3E] } ::
          (parseLine part).toList ∧
      ∃ line : WrittenLine LogCall UInt64, part <+: line.record.text := by
  have hseen : ((lineWriters logFormat).locked.run
      (Guarded.start (openedLog [sampleFirstLine]))
      sampleWriters).map (fun last => (last.1.shared.text,
        (last.2.filterMap GuardedObs.result?).filterMap
          fun w => w.2.record.frame?)) =
      some ("# cstech2win shim log\n0|7|HEX  |REQ-PDU|len=5|".toList ++
        "00 00 07 E0 3E\n4|8|".toList,
        [{ ms := 0, direction := .tx, canId := 0x7E0, uds := [0x3E] }]) := by
    decide +kernel
  obtain ⟨⟨t, outs⟩, hrun, hlast⟩ := Option.map_eq_some_iff.1 hseen
  obtain ⟨htext, hframes⟩ := Prod.mk.inj hlast
  obtain ⟨⟨part, -, hparse, hpart⟩, -⟩ := log_of_any_interleaving hrun rfl
  rw [hframes] at hparse
  refine ⟨t, outs, part, hrun, htext, hparse, ?_⟩
  rcases hpart with rfl | ⟨k, call, line, -, -, -, hfront⟩
  · exact ⟨⟨.reqPdu 0 [], 0, 0⟩, List.nil_prefix⟩
  · exact ⟨line, hfront⟩

/-! ### The unknown-request log -/

/-- A call of `unknown_log_record`, and the thread that makes it. -/
structure UnknownCall where
  tid : UInt32
  request : UnknownRecord

/-- The readings of the clock for one line: by `since_attach_ms`, and by
`wall_ms` for the line itself. -/
structure UnknownReading where
  sinceMs : UInt64
  wallMs : UInt64

/-- `%llu|%llu|%lu|UNKNOWN|can_id=0x%04X|uds=`, and then the loop. -/
def unknownFormat : LineFormat UnknownCall UnknownReading :=
  { wallMs := UnknownReading.sinceMs
    first := fun call ms reading =>
      writeDigits lowerDigit 10 ms.toNat ++ '|' ::
        (writeDigits lowerDigit 10 reading.wallMs.toNat ++ '|' ::
          (writeDigits lowerDigit 10 call.tid.toNat ++
            ("|UNKNOWN|can_id=0x".toList ++
              (padLeft 4 '0'
                (writeDigits upperDigit 16 call.request.canId.toNat) ++
                "|uds=".toList))))
    later := fun call =>
      hexPieces call.request.uds.length 0 call.request.uds }

/-- The unknown-request log at any moment of any interleaving of its writers:
one line for each request whose call has been inside, in that order. -/
theorem unknown_log_file {s₀ : LogFile}
    {t : GuardedState LogFile UnknownCall
      (WriterCode UnknownCall UnknownReading)}
    {acts : List (GuardedAction UnknownCall UnknownReading)}
    {outs : List (GuardedObs UnknownReading
      (WrittenLine UnknownCall UnknownReading))}
    {ws : List (Nat × WrittenLine UnknownCall UnknownReading)}
    (hrun : (lineWriters unknownFormat).locked.run (Guarded.start s₀) acts =
      some (t, outs))
    (hws : outs.filterMap GuardedObs.result? = ws) (hfree : t.lock = none) :
    t.shared.text = s₀.text ++ unknownFormat.lines (ws.map Prod.snd) ∧
      ∀ w ∈ ws, t.calls[w.1]?.map (fun call => call.op.request) =
        some w.2.call.request := by
  obtain ⟨⟨part, htext, hpart⟩, -, -, hcalls, -⟩ := writers_file hrun hws
  refine ⟨?_, fun w hw => ?_⟩
  · rcases hpart with rfl | ⟨k, call, line, hlock, -⟩
    · rw [htext, List.append_nil]
    · rw [hfree] at hlock
      cases hlock
  · have hcall := congrArg (Option.map UnknownCall.request) (hcalls w hw)
    rw [Option.map_map] at hcall
    exact hcall

end FremSoft
