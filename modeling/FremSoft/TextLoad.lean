/-
`recording_load` from the bytes of the file: the two passes of jsmn, and the
walk over the tokens they leave.
-/
import FremSoft.JsmnPasses
import FremSoft.LoadSafe

namespace FremSoft

/-! ### The tokens of an accepted text -/

theorem JsmnRun.tidy {js : List Char} {p p' : JsmnParser}
    (h : JsmnRun js p p') (hp : p.Tidy js) : p'.Tidy js := by
  obtain ⟨hmoves, -⟩ := h
  induction hmoves with
  | refl => exact hp
  | tail _ hmove ih => exact hmove.tidy ih

/-- `PoolTok.Nested` for tokens that are closed. -/
def JsmnTok.Nested (tok tok' : JsmnTok) : Prop :=
  tok.stop ≤ tok'.start ∨
    (tok.type.isContainer ∧ tok.start < tok'.start ∧ tok'.stop < tok.stop)

/-- What is known of the tokens of any text that jsmn accepts. -/
structure WellTokenized (js : List Char) (toks : List JsmnTok) : Prop where
  delimited : ∀ tok ∈ toks, tok.Delimited js
  nested : toks.Pairwise JsmnTok.Nested
  size_lt : ∀ (i : Nat) (tok : JsmnTok), toks[i]? = some tok →
    i + tok.size < toks.length
  sizes_le : (toks.map JsmnTok.size).sum ≤ toks.length - 1
  length_le : toks.length ≤ js.length

theorem JsmnTok.Delimited.inText {js : List Char} {tok : JsmnTok}
    (h : tok.Delimited js) : Mem.InText js tok := by
  obtain ⟨type, start, stop, size⟩ := tok
  cases type with
  | undefined => cases h
  | object | array =>
      obtain ⟨hlt, -, hstop⟩ := h
      have := (List.getElem?_eq_some_iff.1 hstop).1
      exact ⟨by dsimp only at *; omega, by dsimp only at *; omega⟩
  | string =>
      obtain ⟨-, hle, -, hstop⟩ := h
      exact ⟨hle, (List.getElem?_eq_some_iff.1 hstop).1.le⟩
  | primitive =>
      obtain ⟨hlt, hle, -⟩ := h
      exact ⟨hlt.le, hle⟩

/-- A token of the pool and the token that the loader reads for it. -/
structure PoolTok.ReadAs (js : List Char) (t : PoolTok) (tok : JsmnTok) :
    Prop where
  type : t.type = tok.type
  start : t.start = some tok.start
  stop : t.stop = some tok.stop
  size : t.size = tok.size
  delimited : tok.Delimited js

theorem PoolTok.ReadAs.nested {js : List Char} {t t' : PoolTok}
    {tok tok' : JsmnTok} (h : t.ReadAs js tok) (h' : t'.ReadAs js tok')
    (hnested : t.Nested t') : tok.Nested tok' := by
  simpa [PoolTok.Nested, JsmnTok.Nested, h.type, h.start, h.stop, h'.start,
    h'.stop] using hnested

/-- A token that stands in the text and is not open has been closed. -/
theorem PoolTok.Placed.readAs {js : List Char} {pos : Nat} {t : PoolTok}
    (h : t.Placed js pos) (hopen : t.isOpen = false) :
    ∃ tok, t.closed = some tok ∧ t.ReadAs js tok := by
  obtain ⟨start, hstart, -, hstop⟩ := h
  cases hs : t.stop with
  | none => simp [isOpen, hstart, hs] at hopen
  | some stop =>
      rw [hs] at hstop
      refine ⟨{ type := t.type, start, stop, size := t.size }, ?_, rfl, hstart,
        hs, rfl, hstop.2⟩
      simp [PoolTok.closed, hstart, hs]

/-- The tokens as the loader reads them. -/
theorem JsmnParser.Tidy.tokens {js : List Char} {p : JsmnParser}
    (h : p.Tidy js) (hopen : p.tokens.any PoolTok.isOpen = false) :
    ∃ toks, p.tokens.mapM PoolTok.closed = some toks ∧
      toks.length = p.toknext ∧ WellTokenized js toks := by
  obtain ⟨toks, htoks, hread⟩ := exists_mapM_eq_some fun t ht =>
    (h.placed t ht).readAs (by simpa using List.any_eq_false.1 hopen t ht)
  have hlength : p.toknext = toks.length := hread.length_eq
  refine ⟨toks, htoks, hlength.symm, ?_⟩
  exact {
    delimited := by
      intro tok htok
      obtain ⟨t, -, ht⟩ := forall₂_exists_left hread htok
      exact ht.delimited
    nested := by
      rw [List.pairwise_iff_getElem]
      intro i j hi hj hij
      obtain ⟨t, ht, hread_i⟩ :=
        forall₂_getElem? hread (List.getElem?_eq_getElem hi)
      obtain ⟨t', ht', hread_j⟩ :=
        forall₂_getElem? hread (List.getElem?_eq_getElem hj)
      exact hread_i.nested hread_j (h.nested i j t t' hij ht ht')
    size_lt := by
      intro i tok htok
      obtain ⟨t, ht, hread_i⟩ := forall₂_getElem? hread htok
      rw [← hread_i.size, ← hlength]
      exact h.size_lt i t ht
    sizes_le := by
      have hsizes : p.tokens.map PoolTok.size = toks.map JsmnTok.size := by
        rw [← List.forall₂_eq_eq_eq, List.forall₂_map_left_iff,
          List.forall₂_map_right_iff]
        exact hread.imp fun _ _ ht => ht.size
      rw [← hsizes, ← hlength]
      exact h.sizes_le
    length_le := by
      rw [← hlength]
      exact h.toknext_le.trans h.pos_le }

/-- How jsmn ends on any text and with any pool: with one of its error codes,
or with tokens that are all closed and well formed. -/
theorem jsmnParse_ends (js : List Char) (numTokens : Nat) :
    Ends (jsmnParse js (some numTokens) jsmnInit)
      (fun r => r.2 ≤ numTokens ∧
        ∃ toks, r.1.tokens.mapM PoolTok.closed = some toks ∧
          toks.length = r.2 ∧ WellTokenized js toks)
      (fun f => f.IsSyntax ∨ f = .nomem) := by
  have hpasses := jsmnParse_passes js numTokens
  cases hcount : jsmnParse js none jsmnInit with
  | error f =>
      rw [hcount] at hpasses
      exact hpasses.2.mono (fun _ => False.elim) fun _ h => h
  | ok r =>
      rw [hcount, Ends.ok_iff] at hpasses
      refine hpasses.mono (fun r' h => ?_) fun f h => h.imp_right And.left
      obtain ⟨hn, htoknext, hroom, hrun, hopen⟩ := h
      obtain ⟨toks, htoks, hlength, hwell⟩ :=
        (hrun.tidy (jsmnInit_tidy js)).tokens hopen
      exact ⟨hn.le.trans hroom, toks, htoks,
        hlength.trans (htoknext.trans hn.symm), hwell⟩

/-- The two passes over a text.  If the counting pass returns a count, the
filling pass succeeds on no smaller pool, runs short of no larger one, and fills
exactly that many tokens, well formed; if it refuses the text, so does the
filling pass. -/
theorem jsmn_passes_agree (js : List Char) :
    Ends (jsmnParse js none jsmnInit)
      (fun r => ∀ numTokens,
        Ends (jsmnParse js (some numTokens) jsmnInit)
          (fun r' => r'.2 = r.2 ∧ r.2 ≤ numTokens ∧
            ∃ toks, r'.1.tokens.mapM PoolTok.closed = some toks ∧
              toks.length = r.2 ∧ WellTokenized js toks)
          (fun f => f.IsSyntax ∨ (f = .nomem ∧ numTokens < r.2)))
      (fun f => f.IsSyntax ∧ ∀ numTokens,
        Ends (jsmnParse js (some numTokens) jsmnInit)
          (fun _ => False) (fun f => f.IsSyntax ∨ f = .nomem)) := by
  have hpasses := jsmnParse_passes js
  cases hcount : jsmnParse js none jsmnInit with
  | error f =>
      simp only [hcount, Ends.error_iff] at hpasses ⊢
      exact ⟨(hpasses 0).1, fun numTokens => (hpasses numTokens).2⟩
  | ok r =>
      simp only [hcount, Ends.ok_iff] at hpasses ⊢
      intro numTokens
      refine (hpasses numTokens).mono (fun r' h => ?_) fun _ h => h
      obtain ⟨hn, htoknext, hroom, hrun, hopen⟩ := h
      obtain ⟨toks, htoks, hlength, hwell⟩ :=
        (hrun.tidy (jsmnInit_tidy js)).tokens hopen
      exact ⟨hn, hroom, toks, htoks, hlength.trans htoknext, hwell⟩

/-! ### The pool -/

/-- The counting pass finds no more tokens than the text has characters. -/
theorem jsmnParse_none_le {js : List Char} {q : JsmnParser} {total : Nat}
    (h : jsmnParse js none jsmnInit = .ok (q, total)) : total ≤ js.length := by
  obtain ⟨r, hloop, hr⟩ := bind_eq_ok h
  cases hr
  have hcounts := (jsmnLoop_none_ends jsmnInit.toknext (Nat.zero_le _)
    (by simp [jsmnInit] :
      js.length < jsmnInit.pos + (js.length + 1 - jsmnInit.pos))).of_ok hloop
  simpa [jsmnInit, JsmnParser.toknext] using hcounts

/-- The second pass leaves the pool only where `size_t` made it too small. -/
theorem fillPass_ends (js : List Char) (total : Nat) :
    Ends (fillPass js total)
      (fun r => ∃ toks, r.1.tokens.mapM PoolTok.closed = some toks ∧
        WellTokenized js toks)
      (fun f => (f.IsSyntax ∨ f = .nomem) ∨
        (2 ^ 28 ≤ total ∧ f = .badToken (poolRoom total))) := by
  by_cases hlt : total < 2 ^ 28
  · rw [fillPass_of_lt hlt]
    refine (jsmnParse_ends js total).mono ?_ fun _ => .inl
    rintro r ⟨-, toks, htoks, -, hwell⟩
    exact ⟨toks, htoks, hwell⟩
  · have hlarge : 2 ^ 28 ≤ total := Nat.le_of_not_lt hlt
    have hends := jsmnParse_ends js (poolRoom total)
    rw [fillPass, if_neg (poolRoom_lt hlarge).not_ge]
    cases hfill : jsmnParse js (some (poolRoom total)) jsmnInit with
    | ok r =>
        rw [hfill] at hends
        obtain ⟨-, toks, htoks, -, hwell⟩ := hends
        exact ⟨toks, htoks, hwell⟩
    | error f =>
        rw [hfill] at hends
        rcases hends with (rfl | rfl) | rfl
        · exact .inl (.inl (.inl rfl))
        · exact .inl (.inl (.inr rfl))
        · exact .inr ⟨hlarge, rfl⟩

/-- A text of which the first pass counts so many tokens that the size of the
pool wraps. -/
def WrapsPool (js : List Char) (f : JsmnFailure) : Prop :=
  ∃ q total, jsmnParse js none jsmnInit = .ok (q, total) ∧ 2 ^ 28 ≤ total ∧
    f = .badToken (poolRoom total)

theorem WrapsPool.length_le {js : List Char} {f : JsmnFailure}
    (h : WrapsPool js f) : 2 ^ 28 ≤ js.length := by
  obtain ⟨q, total, hcount, hlarge, -⟩ := h
  exact hlarge.trans (jsmnParse_none_le hcount)

/-! ### A text that the pool is too small for -/

theorem peek_brackets {n pos : Nat} (h : pos < n) :
    peek (List.replicate n '[') pos = some '[' := by
  simp [peek, h, Option.filter]

/-- Every bracket is a token to the counting pass. -/
theorem count_brackets {n fuel count : Nat} {q : JsmnParser} (hle : q.pos ≤ n)
    (hfuel : n < q.pos + fuel) :
    ∃ q', jsmnLoop (List.replicate n '[') none fuel q count =
      .ok (q', count + (n - q.pos)) := by
  induction fuel generalizing q count with
  | zero => omega
  | succ fuel ih =>
      rw [jsmnLoop]
      by_cases hpos : q.pos < n
      · rw [peek_brackets hpos]
        obtain ⟨q', hrest⟩ := @ih (count + 1) { q with pos := q.pos + 1 } hpos
          (by dsimp only; omega)
        refine ⟨q', hrest.trans ?_⟩
        have hsum : count + 1 + (n - (q.pos + 1)) = count + (n - q.pos) := by
          omega
        rw [hsum]
      · have hend : peek (List.replicate n '[') q.pos = none := by
          simp [peek, hpos]
        have hsum : count + (n - q.pos) = count := by omega
        rw [hend, hsum]
        exact ⟨q, rfl⟩

/-- A filling pass over more brackets than the pool holds. -/
theorem fill_brackets {n room fuel count : Nat} {p : JsmnParser}
    (hp : p.Valid (List.replicate n '[')) (hpos : p.pos = p.toknext)
    (hle : p.toknext ≤ room) (hroom : room < n) (hfuel : room < p.pos + fuel) :
    jsmnLoop (List.replicate n '[') (some room) fuel p count =
      .error .nomem := by
  induction fuel generalizing p count with
  | zero => omega
  | succ fuel ih =>
      have hstep : jsmnStep (List.replicate n '[') (some room) p count '[' =
          openContainer room p '[' >>= fun p => pure (p, count + 1) := rfl
      rw [jsmnLoop, peek_brackets (by omega)]
      dsimp only
      rw [hstep, openContainer_eq hp]
      by_cases hfull : room ≤ p.toknext
      · rw [if_pos hfull]
        rfl
      · rw [if_neg hfull]
        refine ih ⟨?_, ?_⟩ ?_ ?_ ?_
        · simp only [List.length_replicate]
          omega
        · simp [JsmnParser.toknext]
        · simp [JsmnParser.toknext] at hpos ⊢
          omega
        · simp [JsmnParser.toknext] at hfull ⊢
          omega
        · dsimp only
          omega

/-- So many brackets are more than their pool holds. -/
theorem fillPass_brackets {n : Nat} (h : 2 ^ 28 ≤ n) :
    (∃ q, jsmnParse (List.replicate n '[') none jsmnInit = .ok (q, n)) ∧
      fillPass (List.replicate n '[') n = .error (.badToken (poolRoom n)) := by
  have hlength : (List.replicate n '[').length = n := List.length_replicate
  have hroom := poolRoom_lt h
  obtain ⟨q, hcount⟩ := @count_brackets n (n + 1) 0 jsmnInit (Nat.zero_le n)
    (by simp [jsmnInit])
  have hfill := @fill_brackets n (poolRoom n) (n + 1) 0 jsmnInit
    (jsmnInit_tidy _).toValid rfl (Nat.zero_le _) hroom
    (by simp [jsmnInit]; omega)
  constructor
  · refine ⟨q, ?_⟩
    have hloop : jsmnLoop (List.replicate n '[') none
        ((List.replicate n '[').length + 1 - jsmnInit.pos) jsmnInit
        jsmnInit.toknext = .ok (q, n) := by
      rw [hlength]
      simpa [jsmnInit, JsmnParser.toknext] using hcount
    rw [jsmnParse, hloop]
    rfl
  · have hloop : jsmnLoop (List.replicate n '[') (some (poolRoom n))
        ((List.replicate n '[').length + 1 - jsmnInit.pos) jsmnInit
        jsmnInit.toknext = .error .nomem := by
      rw [hlength]
      exact hfill
    have hparse : jsmnParse (List.replicate n '[') (some (poolRoom n))
        jsmnInit = .error .nomem := by
      rw [jsmnParse, hloop]
      rfl
    rw [fillPass, if_neg hroom.not_ge, hparse]

/-! ### The loader -/

/-- What C would leave undefined between `read_file` and the recording. -/
inductive LoadFault where
  | tokenizer (f : JsmnFailure)
  | openToken
  | walk (f : Mem.MemFault)
deriving DecidableEq, Repr

/-- `read_file` of what `fopen` opens; `ftell` knows no file of `2^31` bytes. -/
def readFile (file : Option (List Char)) : Option (List Char) :=
  file.filter fun bytes => 0 < bytes.length && bytes.length < 2 ^ 31

/-- `recording_load` on what `read_file` read; `none` is its `NULL`. -/
def recordingLoadText (js : List Char) :
    Except LoadFault (Option Mem.MemRecording) :=
  match tokenize js with
  | .error f => .error (.tokenizer f)
  | .ok none => .ok none
  | .ok (some pool) =>
      match pool.mapM PoolTok.closed with
      | none => .error .openToken
      | some toks =>
          match Mem.recordingLoad js toks with
          | .error f => .error (.walk f)
          | .ok loaded => .ok loaded

def recordingLoadFile (file : Option (List Char)) :
    Except LoadFault (Option Mem.MemRecording) :=
  match readFile file with
  | none => .ok none
  | some js => recordingLoadText js

/-- The loader writes behind the pool of so many brackets. -/
theorem recordingLoadFile_brackets {n : Nat} (h : 2 ^ 28 ≤ n)
    (hfits : n < 2 ^ 31) :
    recordingLoadFile (some (List.replicate n '[')) =
      .error (.tokenizer (.badToken (poolRoom n))) := by
  obtain ⟨⟨q, hcount⟩, hfill⟩ := fillPass_brackets h
  have hread : readFile (some (List.replicate n '[')) =
      some (List.replicate n '[') := by
    have hpos : 0 < n := by omega
    simp only [readFile, Option.filter_some, List.length_replicate, hpos,
      hfits, decide_true, Bool.and_self, if_true]
  have htokenize : tokenize (List.replicate n '[') =
      .error (.badToken (poolRoom n)) := by
    rw [tokenize, hcount]
    dsimp only
    rw [if_neg (by omega), hfill]
  rw [recordingLoadFile, hread]
  dsimp only
  rw [recordingLoadText, htokenize]

/-- What `recording_load` hands to its walk. -/
theorem tokenize_ends (js : List Char) :
    Ends (tokenize js)
      (fun pool => ∀ tokens ∈ pool, ∃ toks,
        tokens.mapM PoolTok.closed = some toks ∧ WellTokenized js toks)
      (WrapsPool js) := by
  have hpasses := jsmnParse_passes js 0
  unfold tokenize
  cases hcount : jsmnParse js none jsmnInit with
  | error f =>
      rw [hcount] at hpasses
      rcases hpasses.1 with rfl | rfl <;> simp
  | ok r =>
      obtain ⟨q, total⟩ := r
      dsimp only
      split
      · simp
      · have hends := fillPass_ends js total
        cases hfill : fillPass js total with
        | error f =>
            rw [hfill] at hends
            rcases hends with ((rfl | rfl) | rfl) | ⟨hlarge, rfl⟩
            · simp
            · simp
            · simp
            · exact ⟨q, total, hcount, hlarge, rfl⟩
        | ok r =>
            obtain ⟨p, n⟩ := r
            rw [hfill] at hends
            dsimp only
            split
            · simp
            · simpa only [Ends.ok_iff, Option.mem_def, Option.some.injEq,
                forall_eq'] using hends

/-- How `recording_load` ends on a file: with `NULL`, with what the walk leaves
in memory of well formed tokens, or behind a pool that is too small. -/
theorem recordingLoadText_cases (js : List Char) :
    recordingLoadText js = .ok none ∨
      (∃ toks m r, WellTokenized js toks ∧
        recordingLoadText js = .ok (some m) ∧
        recordingLoad js toks = .ok (some r) ∧ m.Holds r) ∨
      ∃ f, recordingLoadText js = .error (.tokenizer f) ∧ WrapsPool js f := by
  have hends := tokenize_ends js
  unfold recordingLoadText
  cases htokenize : tokenize js with
  | error f =>
      rw [htokenize] at hends
      exact .inr (.inr ⟨f, rfl, hends⟩)
  | ok pool =>
      rw [htokenize, Ends.ok_iff] at hends
      cases pool with
      | none => exact .inl rfl
      | some tokens =>
          obtain ⟨toks, htoks, hwell⟩ := hends tokens rfl
          simp only [htoks]
          by_cases hobject : toks.head?.map JsmnTok.type = some .object
          · obtain ⟨m, r, hm, hr, hholds⟩ := Mem.recordingLoad_both hobject
              fun tok htok => (hwell.delimited tok htok).inText
            exact .inr (.inl ⟨toks, m, r, hwell, by rw [hm], hr, hholds⟩)
          · refine .inl ?_
            cases toks with
            | nil => rfl
            | cons tok rest =>
                have htype : tok.type ≠ .object := by simpa using hobject
                simp [Mem.recordingLoad, htype]

end FremSoft
