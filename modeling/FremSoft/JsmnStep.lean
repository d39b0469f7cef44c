/-
What one pass of jsmn's loop can do when it fills a pool: open a container,
close the innermost open one, add a leaf, or only move on.  Every later fact
about the tokenizer is read off these four.
-/
import FremSoft.Jsmn

namespace FremSoft

/-- What the loop of `jsmn_parse` keeps of the parser's own fields. -/
structure JsmnParser.Valid (js : List Char) (p : JsmnParser) : Prop where
  pos_le : p.pos ≤ js.length
  toksuper_lt : ∀ i ∈ p.toksuper, i < p.toknext

/-- The error codes that are not for want of tokens. -/
def JsmnFailure.IsSyntax (f : JsmnFailure) : Prop := f = .inval ∨ f = .part

theorem peek_lt {js : List Char} {pos : Nat} {c : Char}
    (h : peek js pos = some c) : pos < js.length := by
  rw [peek, Option.filter_eq_some_iff] at h
  exact (List.getElem?_eq_some_iff.1 h.1).1

/-! ### Where the leaves end -/

theorem primitiveEnd_ends (js : List Char) {fuel pos : Nat}
    (hpos : pos ≤ js.length) (hfuel : js.length < pos + fuel) :
    Ends (primitiveEnd js fuel pos)
      (fun stop => pos ≤ stop ∧ stop ≤ js.length ∧
        (peek js stop).all endsPrimitive) (· = .inval) := by
  induction fuel generalizing pos with
  | zero => omega
  | succ fuel ih =>
      rw [primitiveEnd]
      cases hc : peek js pos with
      | none => exact ⟨le_rfl, hpos, by simp [hc]⟩
      | some c =>
          have hlt := peek_lt hc
          dsimp only
          split
          · rename_i hend
            exact ⟨le_rfl, hpos, by simp [hc, hend]⟩
          · split
            · rfl
            · refine (ih (by omega) (by omega)).mono ?_ fun _ he => he
              rintro stop ⟨hle, hstop⟩
              exact ⟨by omega, hstop⟩

theorem hexDigitsEnd_ends (js : List Char) {left pos : Nat}
    (hpos : pos ≤ js.length) :
    Ends (hexDigitsEnd js left pos)
      (fun stop => pos ≤ stop ∧ stop ≤ js.length) (· = .inval) := by
  induction left generalizing pos with
  | zero => exact ⟨le_rfl, hpos⟩
  | succ left ih =>
      rw [hexDigitsEnd]
      cases hc : peek js pos with
      | none => exact ⟨le_rfl, hpos⟩
      | some c =>
          have hlt := peek_lt hc
          dsimp only
          split
          · refine (ih (by omega)).mono ?_ fun _ he => he
            rintro stop ⟨hle, hstop⟩
            exact ⟨by omega, hstop⟩
          · rfl

theorem stringEnd_ends (js : List Char) {fuel pos : Nat}
    (hpos : pos ≤ js.length) (hfuel : js.length < pos + fuel) :
    Ends (stringEnd js fuel pos)
      (fun stop => pos ≤ stop ∧ js[stop]? = some '"') JsmnFailure.IsSyntax := by
  induction fuel generalizing pos with
  | zero => omega
  | succ fuel ih =>
      rw [stringEnd]
      cases hc : peek js pos with
      | none => exact .inr rfl
      | some c =>
          have hlt := peek_lt hc
          -- every branch that goes on does so from a later position
          have hnext : ∀ next, pos < next → next ≤ js.length →
              Ends (stringEnd js fuel next)
                (fun stop => pos ≤ stop ∧ js[stop]? = some '"')
                JsmnFailure.IsSyntax := by
            intro next hnext hle
            refine (ih hle (by omega)).mono ?_ fun _ he => he
            rintro stop ⟨hstop, hquote⟩
            exact ⟨by omega, hquote⟩
          dsimp only
          split
          · rename_i hquote
            rw [peek, Option.filter_eq_some_iff, hquote] at hc
            exact ⟨le_rfl, hc.1⟩
          · split
            · cases hescaped : js[pos + 1]? with
              | none => exact hnext _ (by omega) (by omega)
              | some e =>
                  have hlt' := (List.getElem?_eq_some_iff.1 hescaped).1
                  dsimp only
                  split
                  · exact hnext _ (by omega) (by omega)
                  · split
                    · have hhex := @hexDigitsEnd_ends js 4 (pos + 2) (by omega)
                      refine (hhex.mono (fun _ h => h) fun _ he =>
                        .inl he).bind ?_
                      rintro stop ⟨hstop, hle⟩
                      exact hnext _ (by omega) hle
                    · exact .inl rfl
            · exact hnext _ (by omega) (by omega)

/-! ### The tokens -/

/-- The tokens with the superior one's child counted. -/
def JsmnParser.counted (p : JsmnParser) : List PoolTok :=
  match p.toksuper with
  | none => p.tokens
  | some i => p.tokens.modify i fun t => { t with size := t.size + 1 }

@[simp] theorem JsmnParser.length_counted (p : JsmnParser) :
    p.counted.length = p.tokens.length := by
  unfold counted
  split <;> simp

theorem countChild_eq {js : List Char} {p : JsmnParser} (hp : p.Valid js) :
    countChild p = .ok { p with tokens := p.counted } := by
  obtain ⟨pos, toksuper, tokens⟩ := p
  cases toksuper with
  | none => rfl
  | some i => exact if_pos (hp.toksuper_lt i rfl)

theorem modify_concat {α : Type} (l : List α) (a : α) (f : α → α) :
    (l ++ [a]).modify l.length f = l ++ [f a] := by
  induction l with
  | nil => rfl
  | cons b l ih => simp [ih]

theorem modify_concat_of_lt {α : Type} {l : List α} {i : Nat}
    (h : i < l.length) (a : α) (f : α → α) :
    (l ++ [a]).modify i f = l.modify i f ++ [a] := by
  induction l generalizing i with
  | nil => simp at h
  | cons b l ih =>
      cases i with
      | zero => rfl
      | succ i => simp [ih (Nat.lt_of_succ_lt_succ h)]

/-- A token that is added is not its own superior. -/
theorem JsmnParser.counted_concat {js : List Char} {p : JsmnParser}
    (hp : p.Valid js) (pos : Nat) (t : PoolTok) :
    JsmnParser.counted { p with pos, tokens := p.tokens ++ [t] } =
      p.counted ++ [t] := by
  unfold counted
  cases hsuper : p.toksuper with
  | none => rfl
  | some i => exact modify_concat_of_lt (hp.toksuper_lt i hsuper) t _

theorem addLeaf_some (numTokens : Nat) (p : JsmnParser) (type : JsmnType)
    (start stop pos : Nat) :
    addLeaf (some numTokens) p type start stop pos =
      if numTokens ≤ p.toknext then .error .nomem
      else .ok { p with
        pos
        tokens := p.tokens ++
          [{ type, start := some start, stop := some stop, size := 0 }] } := by
  unfold addLeaf jsmnAllocToken
  by_cases hfull : numTokens ≤ p.toknext
  · simp only [if_pos hfull]
    rfl
  · simp only [if_neg hfull, ok_bind, pure_eq_ok]
    congr 2
    simp [jsmnFillToken, JsmnParser.toknext, modify_concat]

theorem openContainer_eq {js : List Char} {p : JsmnParser} (hp : p.Valid js)
    (numTokens : Nat) (c : Char) :
    openContainer numTokens p c =
      if numTokens ≤ p.toknext then .error .nomem
      else .ok { p with
        toksuper := some p.toknext
        tokens := p.counted ++ [{
          type := if c = '{' then .object else .array
          start := some p.pos, stop := none, size := 0 }] } := by
  unfold openContainer jsmnAllocToken
  by_cases hfull : numTokens ≤ p.toknext
  · simp only [if_pos hfull]
    rfl
  · have hvalid : JsmnParser.Valid js { p with
        tokens := p.tokens ++
          [{ type := .undefined, start := none, stop := none, size := 0 }] } :=
      { pos_le := hp.pos_le
        toksuper_lt := fun i hi => by
          have := hp.toksuper_lt i hi
          simp only [JsmnParser.toknext, List.length_append] at this ⊢
          omega }
    simp only [if_neg hfull, ok_bind, countChild_eq hvalid, pure_eq_ok]
    have hcounted := p.counted_concat hp p.pos
      { type := .undefined, start := none, stop := none, size := 0 }
    simp only [JsmnParser.toknext] at hcounted ⊢
    rw [hcounted]
    have hmodify := modify_concat p.counted
      { type := .undefined, start := none, stop := none, size := 0 }
      fun t => { t with
        type := if c = '{' then .object else .array, start := some p.pos }
    rw [JsmnParser.length_counted] at hmodify
    simp [hmodify]

theorem lastOpen_spec {tokens : List PoolTok} {n i : Nat}
    (h : lastOpen tokens n = some i) :
    i < n ∧ (∃ t, tokens[i]? = some t ∧ t.isOpen) ∧
      ∀ j t, i < j → j < n → tokens[j]? = some t → t.isOpen = false := by
  obtain ⟨hlt, hat, hafter⟩ := lastBelow_spec h
  refine ⟨hlt, by simpa [Option.any_eq_true] using hat, ?_⟩
  intro j t hij hj ht
  simpa [ht] using hafter j hij hj

/-! ### One pass -/

/-- What one pass of the loop does to the parser, `parser->pos++` included. -/
inductive JsmnMove (js : List Char) (p : JsmnParser) : JsmnParser → Prop where
  | opened {c : Char} (hc : peek js p.pos = some c)
      (hbracket : c = '{' ∨ c = '[') :
      JsmnMove js p {
        pos := p.pos + 1
        toksuper := some p.toknext
        tokens := p.counted ++ [{
          type := if c = '{' then .object else .array
          start := some p.pos, stop := none, size := 0 }] }
  | closed {c : Char} {i : Nat} {t : PoolTok} (hc : peek js p.pos = some c)
      (hbracket : c = '}' ∨ c = ']')
      (hlast : lastOpen p.tokens p.toknext = some i)
      (ht : p.tokens[i]? = some t)
      (htype : t.type = if c = '}' then .object else .array) :
      JsmnMove js p {
        pos := p.pos + 1
        toksuper := lastOpen
          (p.tokens.modify i fun t => { t with stop := some (p.pos + 1) })
          (i + 1)
        tokens :=
          p.tokens.modify i fun t => { t with stop := some (p.pos + 1) } }
  | string {stop : Nat} (hc : peek js p.pos = some '"')
      (hstop : p.pos + 1 ≤ stop) (hquote : js[stop]? = some '"') :
      JsmnMove js p {
        pos := stop + 1
        toksuper := p.toksuper
        tokens := p.counted ++ [{
          type := .string
          start := some (p.pos + 1), stop := some stop, size := 0 }] }
  | primitive {stop : Nat} (hstop : p.pos < stop) (hle : stop ≤ js.length)
      (hend : (peek js stop).all endsPrimitive) :
      JsmnMove js p {
        pos := stop
        toksuper := p.toksuper
        tokens := p.counted ++ [{
          type := .primitive
          start := some p.pos, stop := some stop, size := 0 }] }
  | idle {toksuper : Option Nat} (hlt : p.pos < js.length)
      (hsuper : ∀ i ∈ toksuper, i < p.toknext) :
      JsmnMove js p { p with pos := p.pos + 1, toksuper }

/-- How a pass with a pool of `numTokens` fails. -/
def JsmnFailure.OfPool (numTokens : Nat) (p : JsmnParser) (f : JsmnFailure) :
    Prop :=
  f.IsSyntax ∨ (f = .nomem ∧ numTokens ≤ p.toknext)

/-- A leaf is added, and counted where it belongs. -/
theorem addLeaf_afterLeaf {js : List Char} {p : JsmnParser} (hp : p.Valid js)
    (numTokens : Nat) (type : JsmnType) (start stop : Nat) {pos : Nat}
    (hpos : pos ≤ js.length) :
    (addLeaf (some numTokens) p type start stop pos >>=
        afterLeaf (some numTokens)) =
      if numTokens ≤ p.toknext then .error .nomem
      else .ok { p with
        pos
        tokens := p.counted ++
          [{ type, start := some start, stop := some stop, size := 0 }] } := by
  rw [addLeaf_some]
  by_cases hfull : numTokens ≤ p.toknext
  · simp only [if_pos hfull]
    rfl
  · have hvalid : JsmnParser.Valid js { p with
        pos
        tokens := p.tokens ++
          [{ type, start := some start, stop := some stop, size := 0 }] } :=
      { pos_le := hpos
        toksuper_lt := fun i hi => by
          have := hp.toksuper_lt i hi
          simp only [JsmnParser.toknext, List.length_append] at this ⊢
          omega }
    rw [if_neg hfull, if_neg hfull, ok_bind, afterLeaf,
      if_pos Option.isSome_some, countChild_eq hvalid, p.counted_concat hp]

theorem closeContainer_ends {js : List Char} {p : JsmnParser} {c : Char}
    (hc : peek js p.pos = some c) (hbracket : c = '}' ∨ c = ']') :
    Ends (closeContainer p c)
      (fun p' => JsmnMove js p { p' with pos := p'.pos + 1 } ∧
        p'.toknext = p.toknext) (· = .inval) := by
  unfold closeContainer
  cases hlast : lastOpen p.tokens p.toknext with
  | none => rfl
  | some i =>
      obtain ⟨-, ⟨t, ht, -⟩, -⟩ := lastOpen_spec hlast
      simp only [JsmnParser.tokenAt, ht, ok_bind]
      by_cases htype : t.type = if c = '}' then .object else .array
      · rw [if_neg (not_not.2 htype)]
        refine ⟨?_, by simp [JsmnParser.toknext]⟩
        exact .closed hc hbracket hlast ht htype
      · rw [if_pos htype]
        rfl

theorem afterComma_ends {js : List Char} {p : JsmnParser} (hp : p.Valid js) :
    Ends (afterComma p)
      (fun p' => ∃ toksuper, p' = { p with toksuper } ∧
        ∀ i ∈ toksuper, i < p.toknext) (fun _ => False) := by
  unfold afterComma
  cases hsuper : p.toksuper with
  | none => exact ⟨p.toksuper, rfl, hp.toksuper_lt⟩
  | some i =>
      have hi := hp.toksuper_lt i hsuper
      have ht := List.getElem?_eq_getElem (l := p.tokens) hi
      simp only [JsmnParser.tokenAt, ht, ok_bind]
      split
      · exact ⟨p.toksuper, rfl, hp.toksuper_lt⟩
      · split
        · exact ⟨p.toksuper, rfl, hp.toksuper_lt⟩
        · rename_i j hj
          refine ⟨some j, rfl, ?_⟩
          rintro _ ⟨⟩
          exact (lastBelow_spec hj).1

theorem endsPrimitive_eq_false {c : Char} (hclose : ¬(c = '}' ∨ c = ']'))
    (hblank : isBlank c = false) (hcolon : c ≠ ':') (hcomma : c ≠ ',') :
    endsPrimitive c = false := by
  simp only [isBlank, Bool.or_eq_false_iff, beq_eq_false_iff_ne] at hblank
  simp only [not_or] at hclose
  simp [endsPrimitive, hblank, hclose, hcolon, hcomma]

theorem jsmnStep_ends {js : List Char} {p : JsmnParser} (hp : p.Valid js)
    {c : Char} (hc : peek js p.pos = some c) (numTokens count : Nat) :
    Ends (jsmnStep js (some numTokens) p count c)
      (fun r => JsmnMove js p { r.1 with pos := r.1.pos + 1 } ∧
        r.2 + p.toknext = count + r.1.toknext ∧
        (r.1.toknext ≤ p.toknext ∨ r.1.toknext ≤ numTokens))
      (JsmnFailure.OfPool numTokens p) := by
  have hlt := peek_lt hc
  unfold jsmnStep
  split
  · rename_i hopen
    dsimp only
    rw [openContainer_eq hp]
    split
    · exact .inr ⟨rfl, ‹_›⟩
    · rename_i hroom
      refine ⟨.opened hc hopen, ?_⟩
      simp only [JsmnParser.toknext, List.length_append,
        JsmnParser.length_counted, List.length_singleton] at hroom ⊢
      omega
  split
  · rename_i hclose
    refine ((closeContainer_ends hc hclose).mono (fun _ h => h)
      fun _ he => .inl (.inl he)).bind ?_
    rintro p' ⟨hmove, htoknext⟩
    exact ⟨hmove, by simp only [htoknext], .inl htoknext.le⟩
  split
  · rename_i hquote
    subst hquote
    unfold jsmnParseString
    rw [bind_assoc]
    refine ((stringEnd_ends js (by omega) (by omega)).mono (fun _ h => h)
      fun _ he => .inl he).bind ?_
    rintro stop ⟨hstop, hquote⟩
    have hle := (List.getElem?_eq_some_iff.1 hquote).1
    rw [← bind_assoc, addLeaf_afterLeaf hp _ _ _ _ hle.le]
    split
    · exact .inr ⟨rfl, ‹_›⟩
    · rename_i hroom
      refine ⟨.string hc hstop hquote, ?_⟩
      simp only [JsmnParser.toknext, List.length_append,
        JsmnParser.length_counted, List.length_singleton] at hroom ⊢
      omega
  split
  · exact ⟨.idle hlt hp.toksuper_lt, rfl, .inl le_rfl⟩
  split
  · refine ⟨.idle hlt ?_, rfl, .inl le_rfl⟩
    intro i hi
    simp only [afterColon, Option.mem_def] at hi
    split at hi
    · cases hi
    · cases hi
      omega
  split
  · refine ((afterComma_ends hp).mono (fun _ h => h)
      fun _ => False.elim).bind ?_
    rintro _ ⟨toksuper, rfl, hsuper⟩
    exact ⟨.idle hlt hsuper, rfl, .inl le_rfl⟩
  · rename_i hclose _ hblank hcolon hcomma
    have hfirst := endsPrimitive_eq_false hclose (by simpa using hblank) hcolon
      hcomma
    unfold jsmnParsePrimitive
    rw [bind_assoc]
    refine ((primitiveEnd_ends js hlt.le (by omega)).mono (fun _ h => h)
      fun _ he => .inl (.inl he)).bind ?_
    rintro stop ⟨hle, hstop, hend⟩
    -- the character that began the primitive does not end it
    have hgrown : p.pos < stop := by
      rcases hle.lt_or_eq with h | rfl
      · exact h
      · simp [hc, hfirst] at hend
    rw [← bind_assoc, addLeaf_afterLeaf hp _ _ _ _ (by omega)]
    split
    · exact .inr ⟨rfl, ‹_›⟩
    · rename_i hroom
      have hpos : stop - 1 + 1 = stop := by omega
      refine ⟨?_, ?_⟩
      · simp only [hpos]
        exact .primitive hgrown hstop hend
      · simp only [JsmnParser.toknext, List.length_append,
          JsmnParser.length_counted, List.length_singleton] at hroom ⊢
        omega

theorem JsmnMove.valid {js : List Char} {p p' : JsmnParser}
    (h : JsmnMove js p p') (hp : p.Valid js) : p'.Valid js := by
  cases h with
  | opened hc hbracket =>
      exact ⟨peek_lt hc, by simp [JsmnParser.toknext]⟩
  | closed hc hbracket hlast ht htype =>
      refine ⟨peek_lt hc, fun j hj => ?_⟩
      have hi := (lastOpen_spec hlast).1
      have hj := (lastOpen_spec hj).1
      simp only [JsmnParser.toknext, List.length_modify] at hi ⊢
      omega
  | string hc hstop hquote =>
      refine ⟨(List.getElem?_eq_some_iff.1 hquote).1, fun j hj => ?_⟩
      have := hp.toksuper_lt j hj
      simp only [JsmnParser.toknext, List.length_append,
        JsmnParser.length_counted] at this ⊢
      omega
  | primitive hstop hle hend =>
      refine ⟨hle, fun j hj => ?_⟩
      have := hp.toksuper_lt j hj
      simp only [JsmnParser.toknext, List.length_append,
        JsmnParser.length_counted] at this ⊢
      omega
  | idle hlt hsuper => exact ⟨hlt, hsuper⟩

/-- Every pass moves on. -/
theorem JsmnMove.pos_lt {js : List Char} {p p' : JsmnParser}
    (h : JsmnMove js p p') : p.pos < p'.pos := by
  cases h with
  | string hc hstop hquote => exact Nat.lt_succ_of_lt hstop
  | primitive hstop hle hend => exact hstop
  | opened | closed | idle => exact Nat.lt_succ_self _

end FremSoft
