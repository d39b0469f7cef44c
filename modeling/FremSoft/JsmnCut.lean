/-
A file that was cut short.  Up to the cut jsmn does what it does on the whole
text, where the outermost object is closed by the last character only: a proper
prefix of a recording is refused, however it was cut.
-/
import FremSoft.RecordingFile

namespace FremSoft

/-! ### The scanners up to the cut -/

section Scanners

variable {js : List Char} {k : Nat}

theorem peek_take {pos : Nat} (h : pos < k) :
    peek (js.take k) pos = peek js pos := by
  rw [peek, peek, List.getElem?_take_of_lt h]

theorem peek_take_eq_none {pos : Nat} (h : k ≤ pos) :
    peek (js.take k) pos = none := by
  rw [peek, List.getElem?_take_eq_none h]
  rfl

theorem lt_of_peek_take {pos : Nat} {c : Char}
    (h : peek (js.take k) pos = some c) : pos < k := by
  by_contra hge
  rw [peek_take_eq_none (Nat.le_of_not_lt hge)] at h
  cases h

theorem hexDigitsEnd_take {left pos stop : Nat}
    (h : hexDigitsEnd (js.take k) left pos = .ok stop) (hstop : stop < k) :
    hexDigitsEnd js left pos = .ok stop := by
  induction left generalizing pos with
  | zero => exact h
  | succ left ih =>
      rw [hexDigitsEnd] at h ⊢
      cases hc : peek (js.take k) pos with
      | none =>
          rw [hc] at h
          obtain rfl : pos = stop := by simpa using h
          rw [peek_take hstop] at hc
          rw [hc]
      | some c =>
          rw [hc] at h
          rw [peek_take (lt_of_peek_take hc)] at hc
          rw [hc]
          dsimp only at h ⊢
          split at h
          · rename_i hhex
            rw [if_pos hhex]
            exact ih h
          · cases h

theorem stringEnd_take {fuel fuel' pos stop : Nat}
    (h : stringEnd (js.take k) fuel pos = .ok stop) (hfuel : fuel ≤ fuel') :
    stringEnd js fuel' pos = .ok stop ∧ pos < k := by
  induction fuel generalizing fuel' pos with
  | zero => cases h
  | succ fuel ih =>
      obtain ⟨fuel', rfl⟩ := Nat.exists_eq_succ_of_ne_zero
        (Nat.ne_zero_of_lt hfuel)
      have hfuel : fuel ≤ fuel' := by omega
      rw [stringEnd] at h ⊢
      cases hc : peek (js.take k) pos with
      | none =>
          rw [hc] at h
          cases h
      | some c =>
          have hlt := lt_of_peek_take hc
          rw [hc] at h
          rw [peek_take hlt] at hc
          rw [hc]
          refine ⟨?_, hlt⟩
          dsimp only at h ⊢
          split at h
          · rename_i hquote
            rw [if_pos hquote]
            exact h
          · rename_i hquote
            rw [if_neg hquote]
            split at h
            · rename_i hescape
              rw [if_pos hescape]
              cases hat : (js.take k)[pos + 1]? with
              | none =>
                  -- an escape that was cut off has no closing quote
                  rw [hat] at h
                  have hlt' := (ih h hfuel).2
                  rw [List.getElem?_take_of_lt hlt'] at hat
                  rw [hat]
                  exact (ih h hfuel).1
              | some e =>
                  rw [hat] at h
                  have hlt' : pos + 1 < k := by
                    by_contra hge
                    rw [List.getElem?_take_eq_none (Nat.le_of_not_lt hge)]
                      at hat
                    cases hat
                  rw [List.getElem?_take_of_lt hlt'] at hat
                  rw [hat]
                  dsimp only at h ⊢
                  split at h
                  · rename_i hescaped
                    rw [if_pos hescaped]
                    exact (ih h hfuel).1
                  · rename_i hescaped
                    rw [if_neg hescaped]
                    split at h
                    · rename_i hunicode
                      rw [if_pos hunicode]
                      obtain ⟨next, hhex, hrest⟩ := bind_eq_ok h
                      obtain ⟨hrest, hnext⟩ := ih hrest hfuel
                      rw [hexDigitsEnd_take hhex hnext, ok_bind]
                      exact hrest
                    · cases h
            · rename_i hescape
              rw [if_neg hescape]
              exact (ih h hfuel).1

theorem primitiveEnd_take {fuel fuel' pos stop : Nat}
    (h : primitiveEnd (js.take k) fuel pos = .ok stop) (hfuel : fuel ≤ fuel')
    (hstop : stop < k) : primitiveEnd js fuel' pos = .ok stop := by
  induction fuel generalizing fuel' pos with
  | zero => cases h
  | succ fuel ih =>
      obtain ⟨fuel', rfl⟩ := Nat.exists_eq_succ_of_ne_zero
        (Nat.ne_zero_of_lt hfuel)
      have hfuel : fuel ≤ fuel' := by omega
      rw [primitiveEnd] at h ⊢
      cases hc : peek (js.take k) pos with
      | none =>
          rw [hc] at h
          obtain rfl : pos = stop := by simpa using h
          rw [peek_take hstop] at hc
          rw [hc]
      | some c =>
          rw [hc] at h
          rw [peek_take (lt_of_peek_take hc)] at hc
          rw [hc]
          dsimp only at h ⊢
          split at h
          · rename_i hend
            rw [if_pos hend]
            exact h
          · rename_i hend
            rw [if_neg hend]
            split at h
            · cases h
            · rename_i hrange
              rw [if_neg hrange]
              exact ih h hfuel

/-- A scan that ends before the cut is the scan of the whole text. -/
theorem scanEnd_take {pos stop : Nat} {c : Char}
    (h : scanEnd (js.take k) pos c = .ok stop) (hk : k ≤ js.length)
    (hcut : c = '"' ∨ isPunctuation c = true ∨ stop + 1 < k) :
    scanEnd js pos c = .ok stop := by
  have hlength : (js.take k).length = k := by simp [hk]
  have hfuel : (js.take k).length + 1 - pos ≤ js.length + 1 - pos := by omega
  by_cases hquote : c = '"'
  · subst hquote
    rw [scanEnd_quote] at h ⊢
    exact (stringEnd_take h hfuel).1
  cases hpunct : isPunctuation c with
  | true =>
      rw [scanEnd_punctuation hpunct] at h ⊢
      exact h
  | false =>
      have hstop : stop + 1 < k :=
        (hcut.resolve_left hquote).resolve_left (by simp [hpunct])
      rw [scanEnd_primitive hpunct hquote] at h ⊢
      cases hprimitive : primitiveEnd (js.take k)
          ((js.take k).length + 1 - pos) pos with
      | error f =>
          rw [hprimitive] at h
          cases h
      | ok last =>
          rw [hprimitive] at h
          obtain rfl : last - 1 = stop := by simpa [Except.map] using h
          rw [primitiveEnd_take hprimitive hfuel (by omega)]
          rfl

end Scanners

/-! ### A pass reads the text through its scanner only -/

/-- What a pass does once the scan has left `parser->pos` at `pos`; a
punctuation character is all that such a pass reads. -/
def jsmnAct (numTokens : Nat) (p : JsmnParser) (count : Nat) (c : Char)
    (pos : Nat) : Except JsmnFailure (JsmnParser × Nat) :=
  if c = '"' then
    (addLeaf (some numTokens) p .string (p.pos + 1) pos pos >>=
      afterLeaf (some numTokens)) >>= fun p => pure (p, count + 1)
  else if isPunctuation c then jsmnStep [] (some numTokens) p count c
  else
    (addLeaf (some numTokens) p .primitive p.pos (pos + 1) pos >>=
      afterLeaf (some numTokens)) >>= fun p => pure (p, count + 1)

theorem jsmnStep_punctuation {c : Char} (hc : isPunctuation c = true)
    (js : List Char) (pool : Option Nat) (p : JsmnParser) (count : Nat) :
    jsmnStep js pool p count c = jsmnStep [] pool p count c := by
  simp only [isPunctuation, Bool.or_eq_true, decide_eq_true_eq, isBlank,
    beq_iff_eq] at hc
  rcases hc with
    ((((rfl | rfl) | (rfl | rfl)) | (((rfl | rfl) | rfl) | rfl)) | rfl) |
      rfl <;> rfl

theorem jsmnStep_eq_act {js : List Char} {p : JsmnParser} {c : Char}
    (hc : peek js p.pos = some c) (numTokens count : Nat) :
    jsmnStep js (some numTokens) p count c =
      scanEnd js p.pos c >>= jsmnAct numTokens p count c := by
  have hlt := peek_lt hc
  by_cases hquote : c = '"'
  · subst hquote
    rw [scanEnd_quote]
    simp only [jsmnStep, jsmnParseString, bind_assoc]
    cases stringEnd js (js.length + 1 - p.pos) (p.pos + 1) with
    | error f => rfl
    | ok stop =>
        simp only [ok_bind, jsmnAct, if_true, bind_assoc]
        rfl
  cases hpunct : isPunctuation c with
  | true =>
      rw [scanEnd_punctuation hpunct, ok_bind, jsmnAct, if_neg hquote,
        if_pos hpunct]
      exact jsmnStep_punctuation hpunct js _ _ _
  | false =>
      have hends := primitiveEnd_ends js hlt.le
        (by omega : js.length < p.pos + (js.length + 1 - p.pos))
      rw [scanEnd_primitive hpunct hquote]
      have hact : jsmnAct numTokens p count c = fun pos =>
          (addLeaf (some numTokens) p .primitive p.pos (pos + 1) pos >>=
            afterLeaf (some numTokens)) >>= fun p => pure (p, count + 1) := by
        funext pos
        rw [jsmnAct, if_neg hquote, if_neg (by simp [hpunct])]
      rw [hact]
      have hfirst := endsPrimitive_of_not_punctuation hpunct
      simp only [isPunctuation, Bool.or_eq_false_iff,
        decide_eq_false_iff_not] at hpunct
      obtain ⟨⟨⟨⟨hopen, hclose⟩, hblank⟩, hcolon⟩, hcomma⟩ := hpunct
      simp only [jsmnStep, hopen, hclose, hquote, hblank, hcolon, hcomma,
        if_false, Bool.false_eq_true, jsmnParsePrimitive, bind_assoc]
      cases hprimitive : primitiveEnd js (js.length + 1 - p.pos) p.pos with
      | error f => rfl
      | ok stop =>
          rw [hprimitive] at hends
          obtain ⟨hle, -, hend⟩ := hends
          have hne : p.pos ≠ stop := by
            intro heq
            rw [← heq, hc, Option.all_some, hfirst] at hend
            cases hend
          have hstop : stop - 1 + 1 = stop := by omega
          simp only [Except.map, ok_bind, hstop]

/-- A larger pool changes nothing about a pass that succeeds. -/
theorem jsmnAct_mono {n n' : Nat} (hn : n ≤ n') {p : JsmnParser} {count : Nat}
    {c : Char} {pos : Nat} {r : JsmnParser × Nat}
    (h : jsmnAct n p count c pos = .ok r) :
    jsmnAct n' p count c pos = .ok r := by
  have halloc : ∀ q, jsmnAllocToken n p = .ok q →
      jsmnAllocToken n' p = .ok q := by
    intro q hq
    unfold jsmnAllocToken at hq ⊢
    split at hq
    · cases hq
    · rwa [if_neg (by omega)]
  have hleaf : ∀ type start stop pos q,
      addLeaf (some n) p type start stop pos = .ok q →
        addLeaf (some n') p type start stop pos = .ok q := by
    intro type start stop pos q hq
    obtain ⟨p', hp', hq⟩ := bind_eq_ok hq
    exact (congrArg (· >>= _) (halloc p' hp')).trans hq
  have hopen : ∀ c q, openContainer n p c = .ok q →
      openContainer n' p c = .ok q := by
    intro c q hq
    obtain ⟨p', hp', hq⟩ := bind_eq_ok hq
    exact (congrArg (· >>= _) (halloc p' hp')).trans hq
  unfold jsmnAct at h ⊢
  split at h
  · rename_i hquote
    rw [if_pos hquote]
    obtain ⟨q', hq', hr⟩ := bind_eq_ok h
    obtain ⟨q, hq, hq'⟩ := bind_eq_ok hq'
    rw [hleaf _ _ _ _ _ hq, ok_bind]
    exact (congrArg (· >>= _) hq').trans hr
  · rename_i hquote
    rw [if_neg hquote]
    split at h
    · rename_i hpunct
      rw [if_pos hpunct]
      simp only [isPunctuation, Bool.or_eq_true, decide_eq_true_eq, isBlank,
        beq_iff_eq] at hpunct
      rcases hpunct with
        ((((rfl | rfl) | (rfl | rfl)) | (((rfl | rfl) | rfl) | rfl)) | rfl) |
          rfl
      · obtain ⟨q, hq, hr⟩ := bind_eq_ok h
        exact (congrArg (· >>= _) (hopen '{' q hq)).trans hr
      · obtain ⟨q, hq, hr⟩ := bind_eq_ok h
        exact (congrArg (· >>= _) (hopen '[' q hq)).trans hr
      all_goals exact h
    · rename_i hpunct
      rw [if_neg hpunct]
      obtain ⟨q', hq', hr⟩ := bind_eq_ok h
      obtain ⟨q, hq, hq'⟩ := bind_eq_ok hq'
      rw [hleaf _ _ _ _ _ hq, ok_bind]
      exact (congrArg (· >>= _) hq').trans hr

/-- The count plays no part in what a pass does to the parser. -/
theorem jsmnAct_count {numTokens : Nat} {p : JsmnParser} {count : Nat}
    {c : Char} {pos : Nat} {r : JsmnParser × Nat}
    (h : jsmnAct numTokens p count c pos = .ok r) (count' : Nat) :
    ∃ total, jsmnAct numTokens p count' c pos = .ok (r.1, total) := by
  have hbind : ∀ (x : Except JsmnFailure JsmnParser) (k : Nat),
      (x >>= fun p => pure (p, k)) = .ok r → x = .ok r.1 := by
    intro x k hx
    obtain ⟨q, hq, hr⟩ := bind_eq_ok hx
    cases hr
    exact hq
  unfold jsmnAct at h ⊢
  split at h
  · rename_i hquote
    exact ⟨count' + 1, by rw [if_pos hquote, hbind _ _ h]; rfl⟩
  · rename_i hquote
    split at h
    · rename_i hpunct
      rw [if_neg hquote, if_pos hpunct]
      simp only [isPunctuation, Bool.or_eq_true, decide_eq_true_eq, isBlank,
        beq_iff_eq] at hpunct
      rcases hpunct with
        ((((rfl | rfl) | (rfl | rfl)) | (((rfl | rfl) | rfl) | rfl)) | rfl) |
          rfl
      · exact ⟨count' + 1, congrArg (· >>= _) (hbind _ _ h)⟩
      · exact ⟨count' + 1, congrArg (· >>= _) (hbind _ _ h)⟩
      · exact ⟨count', congrArg (· >>= _) (hbind _ _ h)⟩
      · exact ⟨count', congrArg (· >>= _) (hbind _ _ h)⟩
      · cases h
        exact ⟨count', rfl⟩
      · cases h
        exact ⟨count', rfl⟩
      · cases h
        exact ⟨count', rfl⟩
      · cases h
        exact ⟨count', rfl⟩
      · cases h
        exact ⟨count', rfl⟩
      · exact ⟨count', congrArg (· >>= _) (hbind _ _ h)⟩
    · rename_i hpunct
      exact ⟨count' + 1, by
        rw [if_neg hquote, if_neg hpunct, hbind _ _ h]
        rfl⟩

/-! ### Runs up to the cut -/

section Runs

variable {js : List Char} {k n n' : Nat} {p p' : JsmnParser}

theorem pass_of_step {c : Char} (hc : peek js p.pos = some c) {count : Nat}
    {r : JsmnParser × Nat}
    (h : jsmnStep js (some n) p count c = .ok r) (hn : n ≤ n') :
    JsmnPass js n' p { r.1 with pos := r.1.pos + 1 } := by
  rw [jsmnStep_eq_act hc] at h
  obtain ⟨stop, hstop, hact⟩ := bind_eq_ok h
  refine ⟨c, hc, fun count' => ?_⟩
  obtain ⟨total, hact'⟩ := jsmnAct_count (jsmnAct_mono hn hact) count'
  exact ⟨r.1, total, by rw [jsmnStep_eq_act hc, hstop, ok_bind, hact'], rfl⟩

theorem JsmnPass.mono (h : JsmnPass js n p p') (hn : n ≤ n') :
    JsmnPass js n' p p' := by
  obtain ⟨c, hc, hsteps⟩ := h
  obtain ⟨q, total, hstep, rfl⟩ := hsteps 0
  exact pass_of_step hc hstep hn

theorem JsmnPasses.mono (h : JsmnPasses js n p p') (hn : n ≤ n') :
    JsmnPasses js n' p p' := by
  induction h with
  | refl => exact .refl
  | tail _ hpass ih => exact ih.tail (hpass.mono hn)

theorem jsmnPass_rightUnique :
    Relator.RightUnique (JsmnPass js n) := by
  rintro p q q' ⟨c, hc, hsteps⟩ ⟨c', hc', hsteps'⟩
  obtain rfl : c = c' := Option.some.inj (hc.symm.trans hc')
  obtain ⟨r, total, hstep, rfl⟩ := hsteps 0
  obtain ⟨r', total', hstep', rfl⟩ := hsteps' 0
  rw [hstep, Except.ok.injEq] at hstep'
  cases hstep'
  rfl

theorem passes_of_jsmnLoop {fuel count total : Nat}
    (h : jsmnLoop js (some n) fuel p count = .ok (p', total)) :
    JsmnPasses js n p p' ∧ peek js p'.pos = none := by
  induction fuel generalizing p count with
  | zero => cases h
  | succ fuel ih =>
      rw [jsmnLoop] at h
      cases hc : peek js p.pos with
      | none =>
          rw [hc] at h
          cases h
          exact ⟨.refl, hc⟩
      | some c =>
          rw [hc] at h
          obtain ⟨r, hstep, hrest⟩ := bind_eq_ok h
          obtain ⟨hpasses, hdone⟩ := ih hrest
          exact ⟨.head (pass_of_step hc hstep le_rfl) hpasses, hdone⟩

/-- A pass over a text that was cut is a pass over the whole text, or it read
the beginning of a primitive that reaches the cut. -/
theorem JsmnPass.of_take (h : JsmnPass (js.take k) n p p') (hn : n ≤ n')
    (hk : k ≤ js.length) (hp : p.Valid (js.take k)) :
    JsmnPass js n' p p' ∨ (p'.pos = k ∧
      ∃ t, p'.tokens = p.counted ++ [t] ∧ t.type = .primitive) := by
  obtain ⟨c, hc, hsteps⟩ := h
  obtain ⟨q, total, hstep, rfl⟩ := hsteps 0
  have hlength : (js.take k).length = k := by simp [hk]
  rw [jsmnStep_eq_act hc] at hstep
  obtain ⟨stop, hstop, hact⟩ := bind_eq_ok hstep
  have hc' := hc
  rw [peek_take (lt_of_peek_take hc)] at hc'
  by_cases hcut : c = '"' ∨ isPunctuation c = true ∨ stop + 1 < k
  · refine .inl (@pass_of_step _ n n' p c hc' 0 (q, total) ?_ hn)
    rw [jsmnStep_eq_act hc', scanEnd_take hstop hk hcut, ok_bind, hact]
  · have hends := (scanEnd_ends hc).of_ok hstop
    rw [hlength] at hends
    simp only [not_or, not_lt] at hcut
    obtain ⟨hquote, hpunct, hle⟩ := hcut
    have hpos : stop ≤ (js.take k).length := by omega
    rw [jsmnAct, if_neg hquote, if_neg hpunct,
      addLeaf_afterLeaf hp _ _ _ _ hpos] at hact
    split at hact
    · cases hact
    · cases hact
      exact .inr ⟨by dsimp only; omega, _, rfl, rfl⟩

/-- Where passes over the text that was cut have got to, on the whole text. -/
theorem JsmnPasses.of_take (h : JsmnPasses (js.take k) n p p') (hn : n ≤ n')
    (hk : k ≤ js.length) (hp : p.Valid (js.take k)) :
    ∃ q, JsmnPasses js n' p q ∧ (q = p' ∨ (p'.pos = k ∧
      ∃ t, p'.tokens = q.counted ++ [t] ∧ t.type = .primitive)) := by
  induction h with
  | refl => exact ⟨p, .refl, .inl rfl⟩
  | @tail p₁ p₂ hpasses hpass ih =>
      obtain ⟨q, hq, rfl | ⟨hend, -⟩⟩ := ih
      · rcases hpass.of_take hn hk (JsmnPasses.valid hpasses hp) with
          hwhole | hcut
        · exact ⟨p₂, hq.tail hwhole, .inl rfl⟩
        · exact ⟨q, hq, .inr hcut⟩
      · -- nothing is read behind the cut
        obtain ⟨c, hc, -⟩ := hpass
        rw [hend, peek_take_eq_none le_rfl] at hc
        cases hc

/-- A token that is closed stays as it is. -/
theorem JsmnPass.stop_kept (h : JsmnPass js n p p') (hp : p.Valid js)
    {i stop : Nat} {t : PoolTok} (ht : p.tokens[i]? = some t)
    (hstop : t.stop = some stop) :
    ∃ t', p'.tokens[i]? = some t' ∧ t'.stop = some stop := by
  obtain ⟨c, hc, hsteps⟩ := h
  obtain ⟨q, total, hstep, rfl⟩ := hsteps 0
  have hmove := ((jsmnStep_ends hp hc n 0).of_ok hstep).1
  have hcounted : ∀ u : PoolTok, ∃ t', (p.counted ++ [u])[i]? = some t' ∧
      t'.stop = some stop := by
    intro u
    have hi := (List.getElem?_eq_some_iff.1 ht).1
    have hlt : i < p.counted.length := by simpa using hi
    obtain ⟨t₀, ht₀, heq⟩ :=
      p.getElem?_counted (List.getElem?_eq_getElem hlt)
    obtain rfl : t₀ = t := Option.some.inj (ht₀.symm.trans ht)
    refine ⟨_, (List.getElem?_append_left hlt).trans
      (List.getElem?_eq_getElem hlt), ?_⟩
    rw [heq]
    exact hstop
  generalize hq' : ({ q with pos := q.pos + 1 } : JsmnParser) = q' at hmove ⊢
  cases hmove with
  | opened => exact hcounted _
  | string => exact hcounted _
  | primitive => exact hcounted _
  | idle => exact ⟨t, ht, hstop⟩
  | @closed c j u hc hbracket hlast hu htype =>
      obtain ⟨-, ⟨u', hu', hopen⟩, -⟩ := lastOpen_spec hlast
      have hne : j ≠ i := by
        rintro rfl
        obtain rfl : u' = t := Option.some.inj (hu'.symm.trans ht)
        simp [PoolTok.isOpen, hstop] at hopen
      refine ⟨t, ?_, hstop⟩
      dsimp only
      rw [List.getElem?_modify_ne _ _ hne]
      exact ht

theorem JsmnPasses.stop_kept (h : JsmnPasses js n p p') (hp : p.Valid js)
    {i stop : Nat} {t : PoolTok} (ht : p.tokens[i]? = some t)
    (hstop : t.stop = some stop) :
    ∃ t', p'.tokens[i]? = some t' ∧ t'.stop = some stop := by
  induction h with
  | refl => exact ⟨t, ht, hstop⟩
  | tail hpasses hpass ih =>
      obtain ⟨t', ht', hstop'⟩ := ih
      exact hpass.stop_kept (JsmnPasses.valid hpasses hp) ht' hstop'

end Runs

/-! ### Files that were cut -/

/-- The counting pass finds no more tokens before the cut than in the whole
text. -/
theorem jsmnLoop_none_take {js : List Char} {k fuel fuel' count : Nat}
    {q q' : JsmnParser} {r r' : JsmnParser × Nat}
    (h : jsmnLoop (js.take k) none fuel q count = .ok r)
    (h' : jsmnLoop js none fuel' q' count = .ok r') (hk : k ≤ js.length)
    (hpos : q.pos = q'.pos) (hle : q'.pos ≤ js.length)
    (hfuel : js.length < q'.pos + fuel') : r.2 ≤ r'.2 := by
  induction fuel generalizing fuel' count q q' with
  | zero => cases h
  | succ fuel ih =>
      rw [jsmnLoop] at h
      cases hc : peek (js.take k) q.pos with
      | none =>
          rw [hc] at h
          cases h
          exact ((jsmnLoop_none_ends count hle hfuel).of_ok h').1
      | some c =>
          have hc' := hc
          rw [peek_take (lt_of_peek_take hc), hpos] at hc'
          obtain ⟨fuel', rfl⟩ := Nat.exists_eq_succ_of_ne_zero
            (by have := peek_lt hc'; omega : fuel' ≠ 0)
          rw [jsmnLoop, hc'] at h'
          rw [hc] at h
          simp only [jsmnStep_none] at h h'
          cases hstop : scanEnd (js.take k) q.pos c with
          | error f =>
              rw [hstop] at h
              cases h
          | ok stop =>
              cases hstop' : scanEnd js q'.pos c with
              | error f =>
                  rw [hstop'] at h'
                  cases h'
              | ok stop' =>
                  obtain ⟨hstart, hlt⟩ := (scanEnd_ends hc').of_ok hstop'
                  rw [hstop] at h
                  rw [hstop'] at h'
                  simp only [Except.map, ok_bind] at h h'
                  by_cases hcut : c = '"' ∨ isPunctuation c = true ∨
                      stop + 1 < k
                  · have hsame := scanEnd_take hstop hk hcut
                    rw [hpos, hstop', Except.ok.injEq] at hsame
                    subst hsame
                    exact ih h h' rfl hlt (by dsimp only; omega)
                  · -- the leaf reaches the cut, so nothing follows
                    simp only [not_or, not_lt] at hcut
                    have hend : peek (js.take k) (stop + 1) = none :=
                      peek_take_eq_none hcut.2.2
                    cases fuel with
                    | zero => cases h
                    | succ fuel =>
                        rw [jsmnLoop] at h
                        simp only [hend] at h
                        cases h
                        have hpos' : js.length < stop' + 1 + fuel' := by omega
                        have hcounts := @jsmnLoop_none_ends js fuel'
                          { q' with
                            pos := stop' + 1
                            toksuper := if c = ':' then (afterColon q').toksuper
                              else q'.toksuper }
                          (count + tokensAt c) hlt hpos'
                        exact (hcounts.of_ok h').1

/-- A cut text has no more tokens than the pool holds if the whole has not. -/
theorem WrapsPool.of_take {js : List Char} {k total : Nat} {q : JsmnParser}
    {f : JsmnFailure} (h : WrapsPool (js.take k) f) (hk : k ≤ js.length)
    (hcount : jsmnParse js none jsmnInit = .ok (q, total)) :
    2 ^ 28 ≤ total := by
  obtain ⟨p, n, hcut, hlarge, -⟩ := h
  obtain ⟨r, hloop, hr⟩ := bind_eq_ok hcut
  obtain ⟨r', hloop', hr'⟩ := bind_eq_ok hcount
  cases hr
  cases hr'
  exact hlarge.trans (jsmnLoop_none_take hloop hloop' hk rfl (Nat.zero_le _)
    (by simp [jsmnInit]))

/-- What `recording_load` hands to its walk was left by a filling pass. -/
theorem tokenize_some {js : List Char} {tokens : List PoolTok}
    (h : tokenize js = .ok (some tokens)) :
    ∃ n p count, jsmnParse js (some n) jsmnInit = .ok (p, count) ∧
      tokens = p.tokens := by
  unfold tokenize at h
  split at h
  · cases h
  · cases h
  · cases h
  · cases h
  · rename_i total _
    split at h
    · cases h
    · split at h
      · cases h
      · cases h
      · cases h
      · cases h
      · rename_i p n hfill
        simp only [Except.ok.injEq] at h
        split at h
        · cases h
        · cases h
          unfold fillPass at hfill
          split at hfill
          · exact ⟨total, p, n, hfill, rfl⟩
          · split at hfill
            · cases hfill
            · exact ⟨poolRoom total, p, n, hfill, rfl⟩

/-- The filling pass as a run that leaves no token open. -/
theorem passes_of_jsmnParse {js : List Char} {n count : Nat} {p : JsmnParser}
    (h : jsmnParse js (some n) jsmnInit = .ok (p, count)) :
    JsmnPasses js n jsmnInit p ∧ p.tokens.any PoolTok.isOpen = false := by
  obtain ⟨⟨p', total⟩, hloop, hrest⟩ := bind_eq_ok h
  dsimp only at hrest
  split at hrest
  · cases hrest
  · rename_i hopen
    cases hrest
    exact ⟨(passes_of_jsmnLoop hloop).1, by simpa using hopen⟩

/-- No proper prefix of a text whose outermost container ends it leaves that
container closed. -/
theorem not_closed_of_cut {js : List Char} {k n n' : Nat}
    {p pf : JsmnParser} {t tf : PoolTok}
    (hcut : JsmnPasses (js.take k) n jsmnInit p) (hk : k < js.length)
    (hfull : JsmnPasses js n' jsmnInit pf) (hdone : peek js pf.pos = none)
    (htf : pf.tokens[0]? = some tf) (hstop : tf.stop = some js.length)
    (ht : p.tokens[0]? = some t) (htype : t.type ≠ .primitive) :
    t.stop = none := by
  by_contra hclosed
  obtain ⟨stop, hstop'⟩ := Option.ne_none_iff_exists'.1 hclosed
  have hlength : (js.take k).length = k := by simp [hk.le]
  -- the token was closed inside the prefix
  have htidy : p.Tidy (js.take k) := by
    clear ht htype hclosed hstop'
    induction hcut with
    | refl => exact jsmnInit_tidy _
    | tail hpasses hpass ih =>
        obtain ⟨c, hc, hsteps⟩ := hpass
        obtain ⟨q, total, hstep, rfl⟩ := hsteps 0
        exact ((jsmnStep_ends ih.toValid hc n 0).of_ok hstep).1.tidy ih
  have hle : stop ≤ k := by
    obtain ⟨start, -, -, hplaced⟩ := htidy.placed t (List.mem_of_getElem? ht)
    rw [hstop'] at hplaced
    have := htidy.pos_le
    omega
  have hinit := (jsmnInit_tidy js).toValid
  obtain ⟨q, hq, hend⟩ := JsmnPasses.of_take hcut (Nat.le_add_right n n') hk.le
    (jsmnInit_tidy _).toValid
  have hfull' := JsmnPasses.mono hfull (Nat.le_add_left n' n)
  -- so the run over the whole text closes it there, too
  have hclosedAt : ∃ u, q.tokens[0]? = some u ∧ u.stop = some stop := by
    rcases hend with rfl | ⟨-, u, htokens, hprimitive⟩
    · exact ⟨t, ht, hstop'⟩
    · rw [htokens] at ht
      cases htokens₀ : q.tokens with
      | nil =>
          have hnil : q.counted = [] := by
            rw [← List.length_eq_zero_iff, JsmnParser.length_counted, htokens₀]
            rfl
          rw [hnil] at ht
          obtain rfl : u = t := by simpa using ht
          exact absurd hprimitive htype
      | cons v rest =>
          have hlt : 0 < q.counted.length := by simp [htokens₀]
          rw [List.getElem?_append_left hlt] at ht
          obtain ⟨t₀, ht₀, rfl⟩ := q.getElem?_counted ht
          rw [htokens₀] at ht₀
          exact ⟨t₀, ht₀, hstop'⟩
  obtain ⟨u, hu, hustop⟩ := hclosedAt
  have hkept : ∃ u', pf.tokens[0]? = some u' ∧ u'.stop = some stop := by
    rcases Relation.ReflTransGen.total_of_right_unique jsmnPass_rightUnique hq
        hfull' with hforth | hback
    · exact JsmnPasses.stop_kept hforth (JsmnPasses.valid hq hinit) hu hustop
    · -- the whole text has been read, so nothing follows
      cases hback using Relation.ReflTransGen.head_induction_on with
      | refl => exact ⟨u, hu, hustop⟩
      | head hpass _ =>
          obtain ⟨c, hc, -⟩ := hpass
          rw [hdone] at hc
          cases hc
  obtain ⟨u', hu', hustop'⟩ := hkept
  obtain rfl : u' = tf := Option.some.inj (hu'.symm.trans htf)
  rw [hstop, Option.some.injEq] at hustop'
  omega

/-- The first token that the loader reads is the first one of the pool. -/
theorem head_of_mapM_closed {tokens : List PoolTok} {tok : JsmnTok}
    {rest : List JsmnTok}
    (h : tokens.mapM PoolTok.closed = some (tok :: rest)) :
    ∃ t, tokens[0]? = some t ∧ t.type = tok.type ∧ t.stop = some tok.stop := by
  cases tokens with
  | nil => cases h
  | cons t tokens =>
      refine ⟨t, rfl, ?_⟩
      rw [List.mapM_cons] at h
      obtain ⟨tok', hclosed, h⟩ := Option.bind_eq_some_iff.1 h
      obtain ⟨tail, -, h⟩ := Option.bind_eq_some_iff.1 h
      obtain ⟨rfl, -⟩ := List.cons.inj (Option.some.inj h)
      obtain ⟨start, -, hclosed⟩ := Option.bind_eq_some_iff.1 hclosed
      obtain ⟨stop, hstop, hclosed⟩ := Option.bind_eq_some_iff.1 hclosed
      cases hclosed
      exact ⟨rfl, hstop⟩

/-- An object whose text lacks its end is not loaded. -/
theorem recordingLoadText_lacking {members : List (List Char × Json)}
    {pre body : List Char} {k : Nat} (hpre : Blank pre)
    (hbody : (Json.obj members).Spelled body)
    (hroom : (Json.obj members).flatten.length < 2 ^ 28)
    (hk : k < pre.length + body.length) :
    recordingLoadText ((pre ++ body).take k) = .ok none := by
  have hends := tokenize_ends ((pre ++ body).take k)
  unfold recordingLoadText
  cases htokenize : tokenize ((pre ++ body).take k) with
  | error f =>
      rw [htokenize] at hends
      obtain ⟨q, hcount⟩ := count_of_text (⟨pre, body, [], hpre, hbody,
        blank_nil, by simp⟩ : (Json.obj members).IsText (pre ++ body))
      have hlarge := hends.of_take (by simpa using hk.le) hcount
      omega
  | ok pool =>
      rw [htokenize, Ends.ok_iff] at hends
      cases pool with
      | none => rfl
      | some tokens =>
          obtain ⟨toks, htoks, -⟩ := hends tokens rfl
          obtain ⟨n, p, count, hparse, rfl⟩ := tokenize_some htokenize
          simp only [htoks]
          cases toks with
          | nil => rfl
          | cons tok rest =>
              have htype : tok.type ≠ .object := by
                intro htype
                obtain ⟨hpasses, -⟩ := passes_of_jsmnParse hparse
                obtain ⟨pf, toksf, hfull, hdone, htokensf, hmatches, hhead⟩ :=
                  passes_of_text hpre hbody blank_nil
                    (by simp : pre ++ body = pre ++ (body ++ []))
                obtain ⟨tokf, restf, hmatch, -, rfl⟩ :=
                  List.forall₂_cons_left_iff.1 hmatches
                obtain ⟨-, hstopf⟩ := hhead tokf rfl (by rw [hmatch.1]; rfl)
                obtain ⟨t, ht, hclosed⟩ := head_of_mapM_closed htoks
                have hopen := not_closed_of_cut hpasses
                  (by simpa using hk) hfull hdone (by rw [htokensf]; rfl)
                  (by rw [List.length_append, ← hstopf]; rfl) ht
                  (by rw [hclosed.1, htype]; simp)
                rw [hclosed.2] at hopen
                cases hopen
              simp [Mem.recordingLoad, htype]

/-- Where a recording may be cut: behind the brace that closes it, and nowhere
before. -/
theorem recordingLoadText_cut_iff {members : List (List Char × Json)}
    {pre body post : List Char} (hpre : Blank pre)
    (hbody : (Json.obj members).Spelled body) (hpost : Blank post)
    (hfits : (pre ++ (body ++ post)).length < 2 ^ 31)
    (hroom : (Json.obj members).flatten.length < 2 ^ 28) (k : Nat) :
    recordingLoadText ((pre ++ (body ++ post)).take k) = .ok none ↔
      k < pre.length + body.length := by
  constructor
  · intro hrefused
    by_contra hge
    have htake : (pre ++ (body ++ post)).take k =
        pre ++ (body ++ post.take (k - (pre.length + body.length))) := by
      rw [List.take_append, List.take_append,
        List.take_of_length_le (by omega : pre.length ≤ k),
        List.take_of_length_le (by omega : body.length ≤ k - pre.length),
        Nat.sub_sub]
    obtain ⟨-, m, -, -, hloaded, -⟩ := recordingLoadText_of_text
      (⟨pre, body, _, hpre, hbody, fun c hc => hpost c (List.mem_of_mem_take hc),
        htake⟩ : (Json.obj members).IsText _)
      (lt_of_le_of_lt (List.length_take_le' _ _) hfits) hroom
    rw [hrefused] at hloaded
    cases hloaded
  · intro hk
    rw [← List.append_assoc, List.take_append_of_le_length (by simp; omega)]
    exact recordingLoadText_lacking hpre hbody hroom hk

/-- An object with one empty array, written with white space. -/
theorem spelled_empty_member :
    (Json.obj [(['e'], .arr [])]).Spelled
      ['{', ' ', '"', 'e', '"', ':', '[', '\n', ']', '}'] :=
  ⟨[' ', '"', 'e', '"', ':', '[', '\n', ']'],
    ⟨[' '], [], [], ['[', '\n', ']'], [], [], by decide,
      rawString_of_plain (by simp), blank_nil, blank_nil,
      ⟨['\n'], (by decide : Blank ['\n']), rfl⟩, blank_nil, rfl,
      .inl ⟨rfl, rfl⟩⟩, rfl⟩

theorem recordingLoadText_cut_iff_lost_brace :
    recordingLoadText ['{', ' ', '"', 'e', '"', ':', '[', '\n', ']'] =
      .ok none :=
  (recordingLoadText_cut_iff blank_nil spelled_empty_member
    (by decide : Blank ['\n']) (by decide) (by decide) 9).2 (by decide)

end FremSoft
