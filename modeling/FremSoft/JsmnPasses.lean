/-
The two passes of jsmn over one text.  The counting pass scans the same leaves
at the same positions as the pass that fills the pool, so the pool it measures
is never too small and never too large.
-/
import FremSoft.JsmnSafe

namespace FremSoft

/-! ### What a pass reads of the text -/

/-- The characters that are not the first one of a leaf. -/
def isPunctuation (c : Char) : Bool :=
  decide (c = '{' ∨ c = '[') || decide (c = '}' ∨ c = ']') || isBlank c ||
    decide (c = ':') || decide (c = ',')

/-- Where `parser->pos` is left by what starts at `pos` with `c`. -/
def scanEnd (js : List Char) (pos : Nat) (c : Char) :
    Except JsmnFailure Nat :=
  if c = '"' then stringEnd js (js.length + 1 - pos) (pos + 1)
  else if isPunctuation c then .ok pos
  else (primitiveEnd js (js.length + 1 - pos) pos).map (· - 1)

def tokensAt (c : Char) : Nat :=
  if c = '{' ∨ c = '[' ∨ isPunctuation c = false then 1 else 0

theorem scanEnd_quote (js : List Char) (pos : Nat) :
    scanEnd js pos '"' = stringEnd js (js.length + 1 - pos) (pos + 1) := rfl

theorem scanEnd_punctuation {c : Char} (hc : isPunctuation c = true)
    (js : List Char) (pos : Nat) : scanEnd js pos c = .ok pos := by
  have hquote : c ≠ '"' := by
    rintro rfl
    exact absurd hc (by decide)
  rw [scanEnd, if_neg hquote, if_pos hc]

theorem scanEnd_primitive {c : Char} (hc : isPunctuation c = false)
    (hquote : c ≠ '"') (js : List Char) (pos : Nat) :
    scanEnd js pos c =
      (primitiveEnd js (js.length + 1 - pos) pos).map (· - 1) := by
  rw [scanEnd, if_neg hquote, if_neg (by simp [hc])]

theorem endsPrimitive_of_not_punctuation {c : Char}
    (hc : isPunctuation c = false) : endsPrimitive c = false := by
  simp only [isPunctuation, Bool.or_eq_false_iff,
    decide_eq_false_iff_not] at hc
  obtain ⟨⟨⟨⟨-, hclose⟩, hblank⟩, hcolon⟩, hcomma⟩ := hc
  exact endsPrimitive_eq_false hclose hblank hcolon hcomma

theorem scanEnd_ends {js : List Char} {pos : Nat} {c : Char}
    (hc : peek js pos = some c) :
    Ends (scanEnd js pos c) (fun stop => pos ≤ stop ∧ stop < js.length)
      JsmnFailure.IsSyntax := by
  have hlt := peek_lt hc
  by_cases hquote : c = '"'
  · subst hquote
    rw [scanEnd_quote]
    refine (stringEnd_ends js (by omega) (by omega)).mono ?_ fun _ h => h
    rintro stop ⟨hle, hclosing⟩
    exact ⟨by omega, (List.getElem?_eq_some_iff.1 hclosing).1⟩
  cases hpunct : isPunctuation c with
  | true =>
      rw [scanEnd_punctuation hpunct]
      exact ⟨le_rfl, hlt⟩
  | false =>
      rw [scanEnd_primitive hpunct hquote]
      have hends := primitiveEnd_ends js hlt.le
        (by omega : js.length < pos + (js.length + 1 - pos))
      cases hprimitive : primitiveEnd js (js.length + 1 - pos) pos with
      | error f =>
          rw [hprimitive] at hends
          exact .inl hends
      | ok stop =>
          rw [hprimitive] at hends
          obtain ⟨hle, hstop, hend⟩ := hends
          have hne : pos ≠ stop := by
            rintro rfl
            rw [hc, Option.all_some,
              endsPrimitive_of_not_punctuation hpunct] at hend
            cases hend
          show pos ≤ stop - 1 ∧ stop - 1 < js.length
          omega

/-- The counting pass, leaf by leaf. -/
theorem jsmnStep_none (js : List Char) (p : JsmnParser) (count : Nat)
    (c : Char) :
    jsmnStep js none p count c =
      (scanEnd js p.pos c).map fun pos =>
        ({ p with
            pos
            toksuper := if c = ':' then (afterColon p).toksuper
              else p.toksuper }, count + tokensAt c) := by
  by_cases hquote : c = '"'
  · subst hquote
    rw [scanEnd_quote]
    simp only [jsmnStep, jsmnParseString]
    cases stringEnd js (js.length + 1 - p.pos) (p.pos + 1) <;> rfl
  cases hpunct : isPunctuation c with
  | true =>
      rw [scanEnd_punctuation hpunct]
      simp only [isPunctuation, Bool.or_eq_true, decide_eq_true_eq, isBlank,
        beq_iff_eq] at hpunct
      rcases hpunct with
        ((((rfl | rfl) | (rfl | rfl)) | (((rfl | rfl) | rfl) | rfl)) | rfl) |
          rfl <;> rfl
  | false =>
      rw [scanEnd_primitive hpunct hquote]
      have htokens : tokensAt c = 1 := by simp [tokensAt, hpunct]
      simp only [isPunctuation, Bool.or_eq_false_iff,
        decide_eq_false_iff_not] at hpunct
      obtain ⟨⟨⟨⟨hopen, hclose⟩, hblank⟩, hcolon⟩, hcomma⟩ := hpunct
      simp only [jsmnStep, hopen, hclose, hquote, hblank, hcolon, hcomma,
        if_false, Bool.false_eq_true, jsmnParsePrimitive, htokens]
      cases primitiveEnd js (js.length + 1 - p.pos) p.pos <;> rfl

/-- How a filling pass ends when the scan left `parser->pos` at `pos`. -/
def FillsAt (numTokens : Nat) (p : JsmnParser) (count : Nat) (c : Char)
    (pos : Nat) (x : Except JsmnFailure (JsmnParser × Nat)) : Prop :=
  Ends x (fun r => r.1.pos = pos ∧ r.2 = count + tokensAt c)
    (fun f => f = .inval ∨
      (f = .nomem ∧ numTokens ≤ p.toknext ∧ tokensAt c = 1))

theorem fillsAt_leaf {js : List Char} {p : JsmnParser} (hp : p.Valid js)
    (numTokens count : Nat) {c : Char} (hc : tokensAt c = 1) (type : JsmnType)
    (start stop : Nat) {pos : Nat} (hpos : pos ≤ js.length) :
    FillsAt numTokens p count c pos
      ((addLeaf (some numTokens) p type start stop pos >>=
          afterLeaf (some numTokens)) >>= fun p => pure (p, count + 1)) := by
  rw [addLeaf_afterLeaf hp _ _ _ _ hpos]
  split
  · exact .inr ⟨rfl, ‹_›, hc⟩
  · exact ⟨rfl, by rw [hc]⟩

theorem fillsAt_punctuation {js : List Char} {p : JsmnParser}
    (hp : p.Valid js) (numTokens count : Nat) {c : Char}
    (hc : isPunctuation c = true) :
    FillsAt numTokens p count c p.pos
      (jsmnStep js (some numTokens) p count c) := by
  have hclosed : ∀ c, tokensAt c = 0 →
      FillsAt numTokens p count c p.pos
        (closeContainer p c >>= fun p => pure (p, count)) := by
    intro c hc
    unfold closeContainer
    split
    · exact .inl rfl
    · rename_i i hlast
      obtain ⟨-, ⟨t, ht, -⟩, -⟩ := lastOpen_spec hlast
      simp only [JsmnParser.tokenAt, ht, ok_bind]
      by_cases htype : t.type = if c = '}' then .object else .array
      · rw [if_neg (not_not.2 htype)]
        exact ⟨rfl, by rw [hc]; rfl⟩
      · rw [if_pos htype]
        exact .inl rfl
  have hopened : ∀ c, tokensAt c = 1 →
      FillsAt numTokens p count c p.pos
        (openContainer numTokens p c >>= fun p => pure (p, count + 1)) := by
    intro c hc
    rw [openContainer_eq hp]
    split
    · exact .inr ⟨rfl, ‹_›, hc⟩
    · exact ⟨rfl, by rw [hc]⟩
  simp only [isPunctuation, Bool.or_eq_true, decide_eq_true_eq, isBlank,
    beq_iff_eq] at hc
  rcases hc with
    ((((rfl | rfl) | (rfl | rfl)) | (((rfl | rfl) | rfl) | rfl)) | rfl) | rfl
  · exact hopened '{' rfl
  · exact hopened '[' rfl
  · exact hclosed '}' rfl
  · exact hclosed ']' rfl
  · exact ⟨rfl, rfl⟩
  · exact ⟨rfl, rfl⟩
  · exact ⟨rfl, rfl⟩
  · exact ⟨rfl, rfl⟩
  · exact ⟨rfl, rfl⟩
  · refine ((afterComma_ends hp).mono (fun _ h => h)
      fun _ => False.elim).bind ?_
    rintro _ ⟨toksuper, rfl, -⟩
    exact ⟨rfl, rfl⟩

/-- The filling pass scans like the counting one. -/
theorem jsmnStep_some {js : List Char} {p : JsmnParser} (hp : p.Valid js)
    {c : Char} (hc : peek js p.pos = some c) (numTokens count : Nat) :
    Ends (scanEnd js p.pos c)
      (fun pos => FillsAt numTokens p count c pos
        (jsmnStep js (some numTokens) p count c))
      (fun f => jsmnStep js (some numTokens) p count c = .error f) := by
  have hscan := scanEnd_ends hc
  by_cases hquote : c = '"'
  · subst hquote
    rw [scanEnd_quote] at hscan ⊢
    simp only [jsmnStep, jsmnParseString, bind_assoc]
    cases hstring : stringEnd js (js.length + 1 - p.pos) (p.pos + 1) with
    | error f => rfl
    | ok stop =>
        rw [hstring] at hscan
        have hleaf := fillsAt_leaf hp numTokens count
          (by decide : tokensAt '"' = 1) .string (p.pos + 1) stop hscan.2.le
        rwa [bind_assoc] at hleaf
  cases hpunct : isPunctuation c with
  | true =>
      rw [scanEnd_punctuation hpunct]
      exact fillsAt_punctuation hp numTokens count hpunct
  | false =>
      rw [scanEnd_primitive hpunct hquote] at hscan ⊢
      have htokens : tokensAt c = 1 := by simp [tokensAt, hpunct]
      simp only [isPunctuation, Bool.or_eq_false_iff,
        decide_eq_false_iff_not] at hpunct
      obtain ⟨⟨⟨⟨hopen, hclose⟩, hblank⟩, hcolon⟩, hcomma⟩ := hpunct
      simp only [jsmnStep, hopen, hclose, hquote, hblank, hcolon, hcomma,
        if_false, Bool.false_eq_true, jsmnParsePrimitive, bind_assoc]
      cases hprimitive : primitiveEnd js (js.length + 1 - p.pos) p.pos with
      | error f => rfl
      | ok stop =>
          rw [hprimitive] at hscan
          have hleaf := fillsAt_leaf hp numTokens count htokens .primitive
            p.pos stop hscan.2.le
          rwa [bind_assoc] at hleaf

/-! ### The passes side by side -/

structure JsmnRun (js : List Char) (p p' : JsmnParser) : Prop where
  moves : Relation.ReflTransGen (JsmnMove js) p p'
  done : peek js p'.pos = none

theorem tokensAt_le_one (c : Char) : tokensAt c ≤ 1 := by
  unfold tokensAt
  split <;> omega

/-- The counting loop ends, and counts upwards, a character at most once. -/
theorem jsmnLoop_none_ends {js : List Char} {fuel : Nat} {q : JsmnParser}
    (count : Nat) (hle : q.pos ≤ js.length)
    (hfuel : js.length < q.pos + fuel) :
    Ends (jsmnLoop js none fuel q count)
      (fun r => count ≤ r.2 ∧ r.2 + q.pos ≤ count + js.length)
      JsmnFailure.IsSyntax := by
  induction fuel generalizing q count with
  | zero => omega
  | succ fuel ih =>
      rw [jsmnLoop]
      cases hc : peek js q.pos with
      | none => exact ⟨le_rfl, Nat.add_le_add_left hle count⟩
      | some c =>
          have hscan := scanEnd_ends hc
          simp only [jsmnStep_none]
          cases hstop : scanEnd js q.pos c with
          | error f =>
              rw [hstop] at hscan
              exact hscan
          | ok stop =>
              rw [hstop] at hscan
              obtain ⟨hstart, hlt⟩ := hscan
              have hfuel' : js.length < stop + 1 + fuel := by omega
              have hrest := @ih
                { q with
                  pos := stop + 1
                  toksuper := if c = ':' then (afterColon q).toksuper
                    else q.toksuper } (count + tokensAt c) hlt hfuel'
              have hone := tokensAt_le_one c
              refine hrest.mono (fun r h => ?_) fun _ h => h
              dsimp only at h
              omega

/-- The loops of the two passes from one position. -/
theorem jsmnLoop_passes {js : List Char} {fuel : Nat} {p q : JsmnParser}
    {numTokens : Nat} (hp : p.Valid js) (hroom : p.toknext ≤ numTokens)
    (hpos : q.pos = p.pos) (hfuel : js.length < p.pos + fuel) :
    Ends (jsmnLoop js none fuel q p.toknext)
      (fun r => Ends (jsmnLoop js (some numTokens) fuel p p.toknext)
          (fun r' => r'.2 = r.2 ∧ r'.1.toknext = r.2 ∧ r.2 ≤ numTokens ∧
            JsmnRun js p r'.1)
          (fun f => f = .inval ∨ (f = .nomem ∧ numTokens < r.2)))
      (fun _ => Ends (jsmnLoop js (some numTokens) fuel p p.toknext)
          (fun _ => False) (fun f => f.IsSyntax ∨ f = .nomem)) := by
  induction fuel generalizing p q with
  | zero => exact absurd hp.pos_le (by omega)
  | succ fuel ih =>
      simp only [jsmnLoop, hpos]
      cases hc : peek js p.pos with
      | none => exact ⟨rfl, rfl, hroom, .refl, hc⟩
      | some c =>
          have hscan := scanEnd_ends hc
          have hfills := jsmnStep_some hp hc numTokens p.toknext
          have hmoves := jsmnStep_ends hp hc numTokens p.toknext
          simp only [jsmnStep_none, hpos]
          cases hstop : scanEnd js p.pos c with
          | error f =>
              rw [hstop] at hscan hfills
              rw [Ends.error_iff] at hfills
              simp only [hfills]
              exact .inl hscan
          | ok stop =>
              rw [hstop] at hscan hfills
              obtain ⟨hstart, hlt⟩ := hscan
              simp only [Except.map, ok_bind]
              have hfuel' : js.length < stop + 1 + fuel := by omega
              cases hstep : jsmnStep js (some numTokens) p p.toknext c with
              | error f =>
                  -- the filling pass ends here, and the counting one goes on
                  rw [hstep] at hfills
                  have hrest := @jsmnLoop_none_ends js fuel
                    { q with
                      pos := stop + 1
                      toksuper := if c = ':' then (afterColon q).toksuper
                        else q.toksuper } (p.toknext + tokensAt c) hlt hfuel'
                  refine hrest.mono (fun r hr => ?_) fun _ _ => ?_
                  · rcases hfills with rfl | ⟨rfl, hfull, hone⟩
                    · exact .inl rfl
                    · exact .inr ⟨rfl, by omega⟩
                  · rcases hfills with rfl | ⟨rfl, -, -⟩
                    · exact .inl (.inl rfl)
                    · exact .inr rfl
              | ok r =>
                  obtain ⟨p', count⟩ := r
                  rw [hstep] at hfills hmoves
                  obtain ⟨rfl, rfl⟩ := hfills
                  obtain ⟨hmove, hcount, hmore⟩ := hmoves
                  dsimp only at hcount hmore
                  have htoknext : p.toknext + tokensAt c = p'.toknext := by
                    omega
                  have hroom' : p'.toknext ≤ numTokens := by omega
                  simp only [htoknext, ok_bind]
                  have hrest := @ih { p' with pos := p'.pos + 1 }
                    { q with
                      pos := p'.pos + 1
                      toksuper := if c = ':' then (afterColon q).toksuper
                        else q.toksuper } (hmove.valid hp) hroom' rfl hfuel'
                  refine hrest.mono (fun r hr => ?_) fun _ h => h
                  refine hr.mono (fun r' hr' => ?_) fun _ h => h
                  obtain ⟨hcount, htoknext, hroom, hrun⟩ := hr'
                  exact ⟨hcount, htoknext, hroom, .head hmove hrun.moves,
                    hrun.done⟩

/-- What the filling pass makes of a text, whatever the counting pass made of
it: it needs no more tokens than were counted and no fewer, it refuses what the
counting pass refuses, and it never reads outside the pool. -/
theorem jsmnParse_passes (js : List Char) (numTokens : Nat) :
    Ends (jsmnParse js none jsmnInit)
      (fun r => Ends (jsmnParse js (some numTokens) jsmnInit)
        (fun r' => r'.2 = r.2 ∧ r'.1.toknext = r.2 ∧ r.2 ≤ numTokens ∧
          JsmnRun js jsmnInit r'.1 ∧ r'.1.tokens.any PoolTok.isOpen = false)
        (fun f => f.IsSyntax ∨ (f = .nomem ∧ numTokens < r.2)))
      (fun f => f.IsSyntax ∧ Ends (jsmnParse js (some numTokens) jsmnInit)
        (fun _ => False) (fun f => f.IsSyntax ∨ f = .nomem)) := by
  have hfuel : js.length < jsmnInit.pos + (js.length + 1 - jsmnInit.pos) := by
    simp [jsmnInit]
  have hpasses := jsmnLoop_passes (jsmnInit_tidy js).toValid
    (Nat.zero_le numTokens) (rfl : jsmnInit.pos = jsmnInit.pos) hfuel
  have hnone := jsmnLoop_none_ends jsmnInit.toknext (Nat.zero_le _) hfuel
  unfold jsmnParse
  cases hcount : jsmnLoop js none (js.length + 1 - jsmnInit.pos) jsmnInit
      jsmnInit.toknext with
  | error f =>
      rw [hcount] at hpasses hnone
      have hfills : Ends (jsmnLoop js (some numTokens)
          (js.length + 1 - jsmnInit.pos) jsmnInit jsmnInit.toknext)
          (fun _ => False) (fun f => f.IsSyntax ∨ f = .nomem) := hpasses
      exact ⟨hnone, hfills.bind fun _ => False.elim⟩
  | ok r =>
      obtain ⟨q, total⟩ := r
      rw [hcount] at hpasses
      have hfills : Ends (jsmnLoop js (some numTokens)
          (js.length + 1 - jsmnInit.pos) jsmnInit jsmnInit.toknext)
          (fun r => r.2 = total ∧ r.1.toknext = total ∧ total ≤ numTokens ∧
            JsmnRun js jsmnInit r.1)
          (fun f => f = .inval ∨ (f = .nomem ∧ numTokens < total)) := hpasses
      refine (hfills.mono (fun _ h => h) fun f h => ?_).bind ?_
      · rcases h with rfl | h
        · exact .inl (.inl rfl)
        · exact .inr h
      · rintro ⟨p, n⟩ ⟨hn, htoknext, hroom, hrun⟩
        dsimp only
        cases hany : p.tokens.any PoolTok.isOpen with
        | true => exact .inl (.inr rfl)
        | false => exact ⟨hn, htoknext, hroom, hrun, hany⟩

end FremSoft
