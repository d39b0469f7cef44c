/-
The recording as a file: what `build_recording.py` writes, byte for byte, and
what `recording_load` makes of those bytes.
-/
import FremSoft.JsmnReads
import FremSoft.JsonDump
import FremSoft.LogReplay

namespace FremSoft

/-! ### Texts of documents are loaded -/

theorem pooled_closed (toks : List JsmnTok) :
    (toks.map JsmnTok.pooled).mapM PoolTok.closed = some toks := by
  induction toks with
  | nil => rfl
  | cons tok toks ih =>
      rw [List.map_cons, List.mapM_cons, ih]
      rfl

/-- jsmn gives every text of a document the tokens of the document. -/
theorem tokenises_of_text {doc : Json} {js : List Char} (h : doc.IsText js)
    (hfits : js.length < 2 ^ 31) (hroom : doc.flatten.length < 2 ^ 28) :
    ∃ toks, tokenize js = .ok (some (toks.map JsmnTok.pooled)) ∧
      Tokenises js doc toks := by
  obtain ⟨toks, htokenize, hmatches⟩ := tokenize_of_text h hroom
  exact ⟨toks, htokenize, hfits, hmatches⟩

theorem Tokenises.inText {doc : Json} {js : List Char} {toks : List JsmnTok}
    (h : Tokenises js doc toks) : ∀ tok ∈ toks, Mem.InText js tok := by
  intro tok htok
  obtain ⟨shape, -, -, -, hle, hstop, -⟩ := forall₂_exists_left h.tokens htok
  exact ⟨hle, hstop⟩

/-- A text of an object is loaded, with the tokens of that object. -/
theorem recordingLoadText_of_text {members : List (List Char × Json)}
    {js : List Char} (h : (Json.obj members).IsText js)
    (hfits : js.length < 2 ^ 31)
    (hroom : (Json.obj members).flatten.length < 2 ^ 28) :
    ∃ toks m r, Tokenises js (.obj members) toks ∧
      recordingLoadText js = .ok (some m) ∧
      recordingLoad js toks = .ok (some r) ∧ m.Holds r := by
  obtain ⟨toks, htokenize, htoks⟩ := tokenises_of_text h hfits hroom
  have hobject : toks.head?.map JsmnTok.type = some .object := by
    obtain ⟨tok, rest, hmatches, -, rfl⟩ :=
      List.forall₂_cons_left_iff.1 htoks.tokens
    rw [List.head?_cons, Option.map_some, hmatches.1]
  obtain ⟨m, r, hm, hr, hholds⟩ :=
    Mem.recordingLoad_both hobject htoks.inText
  refine ⟨toks, m, r, htoks, ?_, hr, hholds⟩
  simp only [recordingLoadText, htokenize, pooled_closed, hm]

/-! ### The file that `main` writes -/

/-- The strings of the header as `json.dumps` writes them. -/
def DocHeader.escaped (header : DocHeader) : DocHeader :=
  { recordingId := escapeString header.recordingId
    capturedAt := escapeString header.capturedAt
    vehicleProfile := escapeString header.vehicleProfile
    sourceLog := escapeString header.sourceLog }

/-- `out_path.write_text(json.dumps(out, indent=2))` -/
def recordingFile (nl : List Char) (header : DocHeader) (maxGapMs : Int)
    (log : List Char) : List Char :=
  (buildRecording header.escaped maxGapMs log).dump nl 0

theorem isDigitOf_toNat {base : Nat} {c : Char}
    (h : isDigitOf base c = true) :
    (48 ≤ c.toNat ∧ c.toNat ≤ 57) ∨ (97 ≤ c.toNat ∧ c.toNat ≤ 122) ∨
      (65 ≤ c.toNat ∧ c.toNat ≤ 90) := by
  unfold isDigitOf digitValue? at h
  split at h
  · rename_i hvalue
    split at hvalue
    · exact .inl ‹_›
    · split at hvalue
      · exact .inr (.inl ‹_›)
      · split at hvalue
        · exact .inr (.inr ‹_›)
        · cases hvalue
  · cases h

theorem ne_of_isDigitOf {base : Nat} {c d : Char}
    (h : isDigitOf base c = true)
    (hd : d.toNat < 48 ∨ (57 < d.toNat ∧ d.toNat < 65) ∨
      (90 < d.toNat ∧ d.toNat < 97) ∨ 122 < d.toNat) : c ≠ d := by
  rintro rfl
  have := isDigitOf_toNat h
  omega

theorem rawString_of_plain {s : List Char}
    (h : ∀ c ∈ s, c ≠ '"' ∧ c ≠ '\\' ∧ c ≠ Char.ofNat 0) : RawString s := by
  induction s with
  | nil => exact .nil
  | cons c s ih =>
      obtain ⟨hquote, hescape, hnul⟩ := h c List.mem_cons_self
      exact .plain hquote hescape hnul
        (ih fun d hd => h d (List.mem_cons_of_mem c hd))

theorem rawString_hexbytes (bytes : List UInt8) :
    RawString (hexbytes bytes) :=
  rawString_of_plain (spacedHex_chars (by decide) (by decide) bytes)

theorem rawString_canIdText (canId : Nat) : RawString (canIdText canId) := by
  have hdigits := @isDigitOf_padLeft 16 4 _ (by omega)
    (isDigitOf_writeDigits digitValue?_upperDigit (by omega) (le_refl 16) canId)
  refine rawString_of_plain fun c hc => ?_
  simp only [canIdText, List.mem_cons] at hc
  rcases hc with rfl | rfl | hc
  · decide
  · decide
  · have hdigit := hdigits c hc
    exact ⟨ne_of_isDigitOf hdigit (by decide), ne_of_isDigitOf hdigit (by decide),
      ne_of_isDigitOf hdigit (by decide)⟩

theorem primitive_of_isDigitOf {base : Nat} {c : Char}
    (h : isDigitOf base c = true) :
    endsPrimitive c = false ∧ 32 ≤ c.toNat ∧ c.toNat < 127 := by
  have hrange := isDigitOf_toNat h
  have hne : ∀ d : Char, (d.toNat < 48 ∨ (57 < d.toNat ∧ d.toNat < 65) ∨
      (90 < d.toNat ∧ d.toNat < 97) ∨ 122 < d.toNat) → c ≠ d :=
    fun d hd => ne_of_isDigitOf h hd
  refine ⟨?_, by omega, by omega⟩
  simp [endsPrimitive, hne ':' (by decide), hne '\t' (by decide),
    hne '\r' (by decide), hne '\n' (by decide), hne ' ' (by decide),
    hne ',' (by decide), hne ']' (by decide), hne '}' (by decide)]

theorem rawPrimitive_decimal (n : Nat) :
    RawPrimitive (writeDigits lowerDigit 10 n) := by
  have hdigits := isDigitOf_decimal n
  refine ⟨?_, fun c hc => primitive_of_isDigitOf (hdigits c hc)⟩
  obtain ⟨c, rest, htext⟩ :=
    List.exists_cons_of_ne_nil (@writeDigits_ne_nil lowerDigit 10 n)
  have hdigit := hdigits c (by rw [htext]; exact List.mem_cons_self)
  exact ⟨c, rest, htext, ne_of_isDigitOf hdigit (by decide),
    ne_of_isDigitOf hdigit (by decide), ne_of_isDigitOf hdigit (by decide)⟩

theorem rawPrimitive_delayText (delayMs : Int) :
    RawPrimitive (delayText delayMs) := by
  cases delayMs with
  | ofNat n => exact rawPrimitive_decimal n
  | negSucc n =>
      refine ⟨⟨'-', _, rfl, by decide⟩, fun c hc => ?_⟩
      rcases List.mem_cons.1 hc with rfl | hc
      · decide
      · exact (rawPrimitive_decimal (n + 1)).inner c hc

theorem itemsWritable_map {α : Type} {f : α → Json}
    (h : ∀ a, (f a).Writable) (l : List α) : ItemsWritable (l.map f) := by
  induction l with
  | nil => trivial
  | cons a l ih => exact ⟨h a, ih⟩

theorem PairedRx.writable (x : PairedRx) : x.entry.json.Writable :=
  ⟨rawString_of_plain (by simp), rawString_canIdText _,
    rawString_of_plain (by simp), rawString_hexbytes _,
    rawString_of_plain (by simp), rawPrimitive_delayText _, trivial⟩

theorem PairedExchange.writable (ex : PairedExchange) :
    ex.entry.json.Writable := by
  refine ⟨rawString_of_plain (by simp), ⟨rawString_of_plain (by simp),
    rawString_canIdText _, rawString_of_plain (by simp),
    rawString_hexbytes _, trivial⟩, rawString_of_plain (by simp), ?_, trivial⟩
  show ItemsWritable ((ex.rxList.map PairedRx.entry).map RxEntry.json)
  rw [List.map_map]
  exact itemsWritable_map PairedRx.writable ex.rxList

theorem buildRecording_writable (header : DocHeader) (maxGapMs : Int)
    (log : List Char) :
    (buildRecording header.escaped maxGapMs log).Writable := by
  refine ⟨rawString_of_plain (by simp), rawString_escapeString _,
    rawString_of_plain (by simp), rawString_escapeString _,
    rawString_of_plain (by simp), rawString_escapeString _,
    rawString_of_plain (by simp), rawString_escapeString _,
    rawString_of_plain (by simp), ?_, trivial⟩
  rw [indexByRequest_out, List.map_map]
  exact itemsWritable_map PairedExchange.writable _

/-- The file is a text of the document. -/
theorem recordingFile_isText {nl : List Char} (hnl : Blank nl)
    (header : DocHeader) (maxGapMs : Int) (log : List Char) :
    (buildRecording header.escaped maxGapMs log).IsText
      (recordingFile nl header maxGapMs log) :=
  ⟨[], _, [], blank_nil, Json.spelled_dump hnl _ 0
    (buildRecording_writable header maxGapMs log), blank_nil,
    (List.append_nil _).symm⟩

/-! ### The tokens of the file -/

theorem length_newlineIndent (nl : List Char) (level : Nat) :
    (newlineIndent nl level).length = nl.length + 2 * level := by
  simp [newlineIndent]

theorem length_dump_str (nl : List Char) (level : Nat) (raw : List Char) :
    ((Json.str raw).dump nl level).length = raw.length + 2 := by
  simp [Json.dump]

theorem length_dump_obj (nl : List Char) (level : Nat)
    (m : List Char × Json) (rest : List (List Char × Json)) :
    ((Json.obj (m :: rest)).dump nl level).length =
      (dumpMembers nl (level + 1) (m :: rest)).length + 2 * nl.length +
        (4 * level + 4) := by
  simp only [Json.dump, List.length_cons, List.length_append,
    length_newlineIndent, List.length_nil]
  omega

theorem length_dumpMembers_singleton (nl : List Char) (level : Nat)
    (m : List Char × Json) :
    (dumpMembers nl level [m]).length =
      m.1.length + (m.2.dump nl level).length + 4 := by
  simp only [dumpMembers, List.length_cons, List.length_append]
  omega

theorem length_dumpMembers_cons (nl : List Char) (level : Nat)
    (m next : List Char × Json) (rest : List (List Char × Json)) :
    (dumpMembers nl level (m :: next :: rest)).length =
      m.1.length + (m.2.dump nl level).length + nl.length + (2 * level + 5) +
        (dumpMembers nl level (next :: rest)).length := by
  simp only [dumpMembers, List.length_cons, List.length_append,
    length_newlineIndent]
  omega

/-- Items of eight characters a token, the indentation counted in. -/
theorem dumpItems_roomy {α : Type} {f : α → Json} {nl : List Char}
    {level : Nat}
    (h : ∀ a, 8 * (f a).flatten.length ≤
      ((f a).dump nl level).length + 2 * level) (l : List α) :
    8 * (flattenItems (l.map f)).length ≤
      (dumpItems nl level (l.map f)).length + 2 * level := by
  induction l with
  | nil => exact Nat.zero_le _
  | cons a l ih =>
      have hfirst := h a
      cases l with
      | nil => simpa [flattenItems, dumpItems] using hfirst
      | cons b l =>
          simp only [List.map_cons] at ih ⊢
          rw [flattenItems, dumpItems, List.length_append, List.length_append,
            List.length_cons, List.length_append, length_newlineIndent]
          omega

theorem arr_roomy {α : Type} {f : α → Json} {nl : List Char} {level : Nat}
    (h : ∀ a, 8 * (f a).flatten.length ≤
      ((f a).dump nl (level + 1)).length + 2 * (level + 1)) (l : List α) :
    8 * (Json.arr (l.map f)).flatten.length ≤
      ((Json.arr (l.map f)).dump nl level).length + 8 := by
  have hitems := dumpItems_roomy h l
  cases l with
  | nil => simp [Json.flatten, flattenItems, Json.dump]
  | cons a l =>
      rw [List.map_cons] at hitems ⊢
      simp only [Json.flatten, Json.dump, List.length_cons, List.length_append,
        length_newlineIndent, List.length_nil]
      omega

theorem RxEntry.roomy (nl : List Char) (x : RxEntry) :
    8 * x.json.flatten.length ≤ (x.json.dump nl 4).length + 2 * 4 := by
  have hname : "can_id".toList.length = 6 ∧ "uds".toList.length = 3 ∧
      "delay_ms".toList.length = 8 := by decide
  simp only [RxEntry.json, RxEntry.members, Json.flatten, flattenMembers,
    length_dump_obj, length_dumpMembers_cons, length_dumpMembers_singleton,
    length_dump_str, List.length_cons, List.length_append, List.length_nil]
  omega

theorem ExchangeEntry.roomy (nl : List Char) (e : ExchangeEntry) :
    8 * e.json.flatten.length ≤ (e.json.dump nl 2).length + 2 * 2 := by
  have hrx := @arr_roomy _ _ nl (2 + 1) (RxEntry.roomy nl) e.rx
  have hname : "can_id".toList.length = 6 ∧ "uds".toList.length = 3 ∧
      "tx".toList.length = 2 ∧ "rx".toList.length = 2 := by decide
  simp only [Json.flatten, List.length_cons] at hrx
  simp only [ExchangeEntry.json, ExchangeEntry.txMembers, Json.flatten,
    flattenMembers, length_dump_obj, length_dumpMembers_cons,
    length_dumpMembers_singleton, length_dump_str, List.length_cons,
    List.length_append, List.length_nil]
  omega

/-- The file has eight characters a token, so below `2^31` characters its
tokens fit into the pool. -/
theorem recordingFile_roomy (nl : List Char) (header : DocHeader)
    (maxGapMs : Int) (log : List Char) :
    8 * (buildRecording header.escaped maxGapMs log).flatten.length ≤
      (recordingFile nl header maxGapMs log).length := by
  have h := @arr_roomy _ _ nl (0 + 1) (ExchangeEntry.roomy nl)
    (indexByRequest (pairExchanges (parseLog log) maxGapMs)).out
  have hname : "recording_id".toList.length = 12 ∧
      "captured_at".toList.length = 11 ∧
      "vehicle_profile".toList.length = 15 ∧
      "source_log".toList.length = 10 ∧ "exchanges".toList.length = 9 := by
    decide
  simp only [Json.flatten, List.length_cons] at h
  simp only [recordingFile, buildRecording, recordingJson, DocHeader.members,
    List.cons_append, List.nil_append, Json.flatten, flattenMembers,
    length_dump_obj, length_dumpMembers_cons, length_dumpMembers_singleton,
    length_dump_str, List.length_cons, List.length_append, List.length_nil]
  omega

/-- What `build_recording.py` writes is loaded. -/
theorem recordingLoadText_recordingFile {nl : List Char} (hnl : Blank nl)
    (header : DocHeader) (maxGapMs : Int) (log : List Char)
    (hfits : (recordingFile nl header maxGapMs log).length < 2 ^ 31) :
    ∃ toks m r, Tokenises (recordingFile nl header maxGapMs log)
        (buildRecording header.escaped maxGapMs log) toks ∧
      recordingLoadText (recordingFile nl header maxGapMs log) =
        .ok (some m) ∧
      recordingLoad (recordingFile nl header maxGapMs log) toks =
        .ok (some r) ∧ m.Holds r := by
  have hroomy := recordingFile_roomy nl header maxGapMs log
  have hroom : (buildRecording header.escaped maxGapMs log).flatten.length <
      2 ^ 28 := by omega
  exact recordingLoadText_of_text
    (recordingFile_isText hnl header maxGapMs log) hfits hroom

/-- From the lines of a log to the lookups of the player: the bytes that
`build_recording.py` writes are loaded, and a lookup in that memory finds the
first request of the log with the key, with its responses. -/
theorem recordingLookup_file {lines : List ActivityLine} {nl : List Char}
    (header : DocHeader) (maxGapMs : Int) (hlog : IsFrameLog lines)
    (hnl : Blank nl)
    (hfits : (recordingFile nl header maxGapMs (shimLogText lines)).length <
      2 ^ 31) :
    ∃ m, recordingLoadText
        (recordingFile nl header maxGapMs (shimLogText lines)) = .ok (some m) ∧
      ∀ canId uds, ∃ found, Mem.recordingLookup (some m) canId uds =
          .ok found ∧
        Option.Rel Mem.MemExchange.Holds found
          (((loggedExchanges maxGapMs lines).find? fun x =>
            decide (requestKey x.1 = (canId.toNat, uds))).map
              recordedExchange) := by
  obtain ⟨toks, m, r, htoks, hm, hr, hholds⟩ :=
    recordingLoadText_recordingFile hnl header maxGapMs (shimLogText lines)
      hfits
  obtain ⟨r', hr', hexchanges⟩ := recordingLoad_log hlog htoks
  obtain rfl : r' = r := by
    rw [hr, Except.ok.injEq, Option.some.injEq] at hr'
    exact hr'.symm
  refine ⟨m, hm, fun canId uds => ?_⟩
  obtain ⟨found, hfound, hrel⟩ := Mem.recordingLookup_both hholds canId uds
  rw [recordingLookup_log hexchanges] at hrel
  exact ⟨found, hfound, hrel⟩

/-- The request of the sample log, its response and the delay, through the
file. -/
theorem recordingLookup_file_sample :
    ∃ m, recordingLoadText (recordingFile ['\n'] sampleHeader 3000
        (shimLogText sampleLog)) = .ok (some m) ∧
      ∃ x, Mem.recordingLookup (some m) 0x7E0 [0x3E] = .ok (some x) ∧
        x.Holds
          { canId := 0x7E0, udsBytes := [0x3E]
            responses :=
              [{ canId := 0x5E8, udsBytes := [0x7E], delayMs := 30 }] } := by
  obtain ⟨m, hm, hlookup⟩ := recordingLookup_file sampleHeader 3000
    sampleLog_isZeroChannelLog.1 (by decide : Blank ['\n']) (by decide +kernel)
  obtain ⟨found, hfound, hrel⟩ := hlookup 0x7E0 [0x3E]
  have hfirst : ((loggedExchanges 3000 sampleLog).find? fun x =>
      decide (requestKey x.1 = ((0x7E0 : UInt32).toNat, [0x3E]))).map
        recordedExchange = some
          { canId := 0x7E0, udsBytes := [0x3E]
            responses :=
              [{ canId := 0x5E8, udsBytes := [0x7E], delayMs := 30 }] } := by
    decide
  rw [hfirst] at hrel
  cases hrel with
  | some hholds => exact ⟨m, hm, _, hfound, hholds⟩

end FremSoft
