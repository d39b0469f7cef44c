/-
A log that stops in the middle: the log is written unbuffered, so a crash
leaves its first characters.  `parse_log` then yields the frames in front, and
nothing else unless the text stops behind the fifth byte of a dump.
-/
import FremSoft.LogRecords

namespace FremSoft

/-- The first `p` characters of the log hold its first frames, among them those
of all the lines that are whole. -/
structure TornKept (records : List LogRecord) (p : Nat) : Prop where
  first : parseLog ((logText records).take p) <+: parseLog (logText records)
  whole : ∀ front, front <+: records → (logText front).length ≤ p →
    parseLog (logText front) <+: parseLog ((logText records).take p)

/-- The dump of a line stops behind its `k`-th byte, or the blank there, though
it has more bytes. -/
structure ActivityLine.StopsAt (line : ActivityLine) (q k : Nat) : Prop where
  isFrame : line.IsFrame
  enough : 5 ≤ k
  more : k < line.bytes.length
  stop : q = line.head.length + (3 * k - 1) ∨ q = line.head.length + 3 * k

/-- The log stops in the dump of a request or a response, at the end of its
fifth or a later byte but not of the last. -/
def CutsShort (records : List LogRecord) (p : Nat) : Prop :=
  ∃ front r back line q k, records = front ++ r :: back ∧
    r.line? = some line ∧ line.StopsAt q k ∧ p = (logText front).length + q

theorem logText_append (front back : List LogRecord) :
    logText (front ++ back) = logText front ++ logText back :=
  List.flatMap_append

theorem logText_cons (r : LogRecord) (back : List LogRecord) :
    logText (r :: back) = r.text ++ '\n' :: logText back := by
  simp [logText]

theorem take_logText (front back : List LogRecord) (r : LogRecord) {q : Nat}
    (hq : q ≤ r.text.length) :
    (logText (front ++ r :: back)).take ((logText front).length + q) =
      logText front ++ r.text.take q := by
  rw [logText_append, logText_cons, List.take_length_add_append,
    List.take_append_of_le_length hq]

/-- `parse_log` on a log that stops inside the line of `r`. -/
theorem parseLog_take (front : List LogRecord) (r : LogRecord) (q : Nat) :
    parseLog (logText front ++ r.text.take q) =
      front.filterMap LogRecord.frame? ++
        (parseLine (r.text.take q)).toList :=
  parseLog_logText_append front fun c hc =>
    r.text_line c (List.mem_of_mem_take hc)

theorem parseLog_records (records : List LogRecord) :
    parseLog (logText records) = records.filterMap LogRecord.frame? := by
  have h := parseLog_logText_append records (List.forall_mem_nil _)
  rw [List.append_nil] at h
  exact h.trans (List.append_nil _)

/-! ### One line -/

theorem ActivityLine.StopsAt.le_length {line : ActivityLine} {q k : Nat}
    (h : line.StopsAt q k) : q ≤ (shimLogHexText line).length := by
  rw [shimLogHexText_eq, ActivityLine.fielded_fields, List.length_append,
    length_spacedHex]
  have := h.enough
  have := h.more
  rcases h.stop with hstop | hstop <;> omega

/-- At such a point the line yields a frame of its first bytes. -/
theorem ActivityLine.StopsAt.parseLine {line : ActivityLine} {q k : Nat}
    (h : line.StopsAt q k) (htag : '|' ∉ line.tag) :
    parseLine ((shimLogHexText line).take q) = (line.cutTo k).frame? := by
  have henough := h.enough
  have hpoint : line.head.length < q ∧ (q - line.head.length) % 3 ≠ 1 ∧
      (q - line.head.length + 1) / 3 = k := by
    rcases h.stop with hstop | hstop <;> omega
  rw [parseLine_take htag h.le_length, if_pos ⟨hpoint.1, hpoint.2.1⟩,
    hpoint.2.2]

/-- A frame with fewer bytes is another frame. -/
theorem ActivityLine.StopsAt.frame?_ne {line : ActivityLine} {q k : Nat}
    (h : line.StopsAt q k) : ∃ short full, short ≠ full ∧
      (line.cutTo k).frame? = some short ∧ line.frame? = some full := by
  have henough := h.enough
  have hmore := h.more
  have hlength : (line.cutTo k).bytes.length = k := by
    rw [cutTo, List.length_take]
    omega
  refine ⟨_, _, ?_, if_pos ⟨h.isFrame, by omega⟩,
    if_pos ⟨h.isFrame, by omega⟩⟩
  intro heq
  have huds := congrArg (fun f => f.uds.length) heq
  simp only [List.length_drop] at huds
  omega

/-- At any other point the line yields nothing or its own frame. -/
theorem LogRecord.parseLine_take_cases (r : LogRecord) {q : Nat}
    (hq : q ≤ r.text.length) :
    parseLine (r.text.take q) = none ∨ parseLine (r.text.take q) = r.frame? ∨
      ∃ line k, r.line? = some line ∧ line.StopsAt q k := by
  cases hline : r.line? with
  | none =>
      exact .inl (parseLine_front_eq_none hline (List.take_prefix q _))
  | some line =>
      obtain ⟨htext, htag, -⟩ := text_of_line hline
      rw [htext] at hq ⊢
      rw [parseLine_take htag hq]
      split
      · next hpoint =>
        obtain ⟨hhead, hhalf⟩ := hpoint
        obtain ⟨m, rfl⟩ := Nat.exists_eq_add_of_le hhead.le
        rw [Nat.add_sub_cancel_left] at hhalf ⊢
        by_cases hall : line.bytes.length ≤ (m + 1) / 3
        · have hcut : line.cutTo ((m + 1) / 3) = line := by
            rw [ActivityLine.cutTo, List.take_of_length_le hall]
          rw [hcut, frame?, hline]
          exact .inr (.inl rfl)
        · by_cases hframe : line.IsFrame ∧ 5 ≤ (m + 1) / 3
          · refine .inr (.inr ⟨line, (m + 1) / 3, rfl, hframe.1, hframe.2,
              Nat.lt_of_not_le hall, ?_⟩)
            omega
          · refine .inl (if_neg fun hboth => hframe ⟨hboth.1, ?_⟩)
            have hlength := hboth.2
            rw [ActivityLine.cutTo, List.length_take] at hlength
            exact hlength.trans (Nat.min_le_left _ _)
      · exact .inl rfl

/-! ### The log -/

/-- A log cut inside the line of `r`, if the line keeps its frame or none. -/
theorem tornKept_of_line {front back : List LogRecord} {r : LogRecord} {q : Nat}
    (hq : q ≤ r.text.length)
    (hline : parseLine (r.text.take q) = none ∨
      parseLine (r.text.take q) = r.frame?) :
    TornKept (front ++ r :: back) ((logText front).length + q) := by
  have hcut : parseLog ((logText (front ++ r :: back)).take
      ((logText front).length + q)) = front.filterMap LogRecord.frame? ++
        (parseLine (r.text.take q)).toList := by
    rw [take_logText front back r hq, parseLog_take]
  refine ⟨?_, fun whole hwhole hlength => ?_⟩
  · rw [hcut, parseLog_records, List.filterMap_append, List.filterMap_cons]
    rw [List.prefix_append_right_inj]
    rcases hline with hnone | hsame
    · rw [hnone]
      exact List.nil_prefix
    · rw [hsame]
      cases r.frame? with
      | none => exact List.nil_prefix
      | some f => exact List.cons_prefix_cons.2 ⟨rfl, List.nil_prefix⟩
  · -- A longer front would hold all of the line of `r` and its line break.
    have hfront : whole <+: front := by
      refine List.prefix_of_prefix_length_le hwhole
        (List.prefix_append front (r :: back))
        (Nat.le_of_not_lt fun hlong => ?_)
      have hmore : front ++ [r] <+: whole := by
        refine List.prefix_of_prefix_length_le ?_ hwhole (by simpa using hlong)
        exact ⟨back, by simp⟩
      obtain ⟨rest, rfl⟩ := hmore
      rw [logText_append, logText_append, logText_cons] at hlength
      simp only [List.length_append, List.length_cons] at hlength
      omega
    obtain ⟨rest, rfl⟩ := hfront
    rw [hcut, parseLog_records, List.filterMap_append, List.append_assoc]
    exact List.prefix_append _ _

theorem tornKept_of_not_cutsShort {records : List LogRecord} {p : Nat}
    (h : ¬CutsShort records p) : TornKept records p := by
  by_cases hp : p < (logText records).length
  · obtain ⟨front, r, back, q, rfl, hq, rfl, -⟩ := take_flatMap _ hp
    have hlength : q ≤ r.text.length := by
      rw [List.length_append] at hq
      exact Nat.le_of_lt_succ hq
    refine tornKept_of_line hlength ?_
    rcases r.parseLine_take_cases hlength with hnone | hsame | ⟨line, k, hshort⟩
    · exact .inl hnone
    · exact .inr hsame
    · exact absurd ⟨front, r, back, line, q, k, rfl, hshort.1, hshort.2, rfl⟩ h
  · rw [Nat.not_lt] at hp
    have hall : (logText records).take p = logText records :=
      List.take_of_length_le hp
    refine ⟨by rw [hall], fun front hfront _ => ?_⟩
    obtain ⟨back, rfl⟩ := hfront
    rw [hall, parseLog_records, parseLog_records, List.filterMap_append]
    exact List.prefix_append _ _

/-- A dump cut short makes a frame that the log does not have. -/
theorem CutsShort.not_tornKept {records : List LogRecord} {p : Nat}
    (h : CutsShort records p) : ¬TornKept records p := by
  obtain ⟨front, r, back, line, q, k, rfl, hline, hstop, rfl⟩ := h
  obtain ⟨htext, htag, -⟩ := LogRecord.text_of_line hline
  have hq : q ≤ r.text.length := htext ▸ hstop.le_length
  obtain ⟨short, full, hne, hshort, hfull⟩ := hstop.frame?_ne
  intro hkept
  have hframe : r.frame? = some full := by
    rw [LogRecord.frame?, hline]
    exact hfull
  have hfirst := hkept.first
  rw [take_logText front back r hq, parseLog_take, htext,
    hstop.parseLine htag, hshort, parseLog_records, List.filterMap_append,
    List.filterMap_cons_some hframe, List.prefix_append_right_inj] at hfirst
  exact hne (List.cons_prefix_cons.1 hfirst).1

/-- A torn log yields no frame of its own unless it stops in a dump behind the
fifth byte. -/
theorem tornKept_iff (records : List LogRecord) (p : Nat) :
    TornKept records p ↔ ¬CutsShort records p :=
  ⟨fun hkept hshort => hshort.not_tornKept hkept, tornKept_of_not_cutsShort⟩

/-- The line of one request, of six bytes. -/
def tornRecords : List LogRecord :=
  [.reqPdu 1000 1 [0x00, 0x00, 0x07, 0xE0, 0x1A, 0x9A]]

/-- The line without its last byte is read as a shorter request, though it says
that there are six. -/
theorem torn_request_invented :
    (logText tornRecords).take 41 =
        "1000|1|HEX  |REQ-PDU|len=6|00 00 07 E0 1A".toList ∧
      parseLog ((logText tornRecords).take 41) =
        [{ ms := 1000, direction := .tx, canId := 0x7E0, uds := [0x1A] }] ∧
      parseLog (logText tornRecords) =
        [{ ms := 1000, direction := .tx, canId := 0x7E0
           uds := [0x1A, 0x9A] }] ∧
      ¬TornKept tornRecords 41 := by
  refine ⟨by decide, by decide, by decide, fun hkept => ?_⟩
  exact absurd hkept.first (by decide)

end FremSoft
