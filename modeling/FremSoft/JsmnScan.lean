/-
The passes of jsmn's loop on a text they are made for: where the scanners find
the end of a leaf, and where the superior token is after each character.
-/
import FremSoft.JsonSpelling
import FremSoft.TextLoad

namespace FremSoft

/-! ### The scanners on a text they are made for -/

section Scanners

variable {js : List Char}

theorem getElem?_of_drop {pos : Nat} {c : Char} {rest : List Char}
    (h : js.drop pos = c :: rest) : js[pos]? = some c := by
  rw [← List.head?_drop, h, List.head?_cons]

theorem peek_of_drop {pos : Nat} {c : Char} {rest : List Char}
    (h : js.drop pos = c :: rest) (hc : c ≠ Char.ofNat 0) :
    peek js pos = some c := by
  rw [peek, getElem?_of_drop h, Option.filter_some, if_pos (by simpa using hc)]

theorem drop_add_length {pos : Nat} {text back : List Char}
    (h : js.drop pos = text ++ back) : js.drop (pos + text.length) = back := by
  rw [← List.drop_drop, h, List.drop_left]

theorem drop_succ_of_drop {pos : Nat} {c : Char} {rest : List Char}
    (h : js.drop pos = c :: rest) : js.drop (pos + 1) = rest :=
  @drop_add_length js pos [c] rest h

/-- A text that stands in `js` ends in it. -/
theorem add_length_le_of_drop {pos : Nat} {text back : List Char}
    (h : js.drop pos = text ++ back) (hpos : pos ≤ js.length) :
    pos + text.length ≤ js.length := by
  have hlength := congrArg List.length h
  rw [List.length_drop, List.length_append] at hlength
  omega

theorem isHexDigit_ne_nul {c : Char} (h : isHexDigit c = true) :
    c ≠ Char.ofNat 0 := by
  rintro rfl
  exact absurd h (by decide)

theorem hexDigitsEnd_digits {digits back : List Char} {pos : Nat}
    (hat : js.drop pos = digits ++ back)
    (hdigits : ∀ c ∈ digits, isHexDigit c = true) :
    hexDigitsEnd js digits.length pos = .ok (pos + digits.length) := by
  induction digits generalizing pos with
  | nil => rfl
  | cons c digits ih =>
      have hc := hdigits c List.mem_cons_self
      rw [List.length_cons, hexDigitsEnd,
        peek_of_drop hat (isHexDigit_ne_nul hc)]
      dsimp only
      rw [if_pos hc, ih (drop_succ_of_drop hat)
        fun d hd => hdigits d (List.mem_cons_of_mem c hd)]
      congr 1
      omega

/-- The end of a string is the quote behind what may stand in it. -/
theorem stringEnd_raw {raw back : List Char} (hraw : RawString raw)
    {pos fuel : Nat} (hat : js.drop pos = raw ++ '"' :: back)
    (hfuel : raw.length < fuel) :
    stringEnd js fuel pos = .ok (pos + raw.length) := by
  induction hraw generalizing pos fuel with
  | nil =>
      obtain ⟨fuel, rfl⟩ := Nat.exists_eq_succ_of_ne_zero
        (Nat.ne_zero_of_lt hfuel)
      rw [stringEnd, peek_of_drop hat (by decide)]
      rfl
  | @plain c rest hquote hescape hnul _ ih =>
      obtain ⟨fuel, rfl⟩ := Nat.exists_eq_succ_of_ne_zero
        (Nat.ne_zero_of_lt hfuel)
      rw [List.length_cons] at hfuel
      rw [stringEnd, peek_of_drop hat hnul]
      dsimp only
      rw [if_neg hquote, if_neg hescape,
        ih (drop_succ_of_drop hat) (by omega), List.length_cons]
      congr 1
      omega
  | @escape c rest hc _ ih =>
      obtain ⟨fuel, rfl⟩ := Nat.exists_eq_succ_of_ne_zero
        (Nat.ne_zero_of_lt hfuel)
      rw [List.length_cons, List.length_cons] at hfuel
      have hnext := drop_succ_of_drop hat
      rw [stringEnd, peek_of_drop hat (by decide)]
      dsimp only
      rw [if_neg (by decide), if_pos rfl, getElem?_of_drop hnext]
      dsimp only
      rw [if_pos hc, ih (drop_succ_of_drop hnext) (by omega), List.length_cons,
        List.length_cons]
      congr 1
      omega
  | @unicode a b c d rest hdigits _ ih =>
      obtain ⟨fuel, rfl⟩ := Nat.exists_eq_succ_of_ne_zero
        (Nat.ne_zero_of_lt hfuel)
      simp only [List.length_cons] at hfuel
      have hnext := drop_succ_of_drop hat
      have hhex : js.drop (pos + 2) = [a, b, c, d] ++ (rest ++ '"' :: back) :=
        drop_succ_of_drop hnext
      have hend := hexDigitsEnd_digits hhex hdigits
      rw [stringEnd, peek_of_drop hat (by decide)]
      dsimp only
      rw [if_neg (by decide), if_pos rfl, getElem?_of_drop hnext]
      dsimp only
      rw [if_neg (by decide), if_pos rfl]
      simp only [List.length_cons, List.length_nil, Nat.zero_add,
        Nat.reduceAdd] at hend
      rw [hend, ok_bind]
      have hrest := drop_add_length hhex
      simp only [List.length_cons, List.length_nil, Nat.zero_add,
        Nat.reduceAdd] at hrest
      rw [ih hrest (by omega)]
      simp only [List.length_cons]
      congr 1
      omega

def EndsPrimitive (back : List Char) : Prop :=
  ∀ c ∈ back.head?, endsPrimitive c = true ∨ c = Char.ofNat 0

theorem primitiveEnd_raw {raw back : List Char}
    (hraw : ∀ c ∈ raw,
      endsPrimitive c = false ∧ 32 ≤ c.toNat ∧ c.toNat < 127)
    (hback : EndsPrimitive back) {pos fuel : Nat}
    (hat : js.drop pos = raw ++ back) (hfuel : raw.length < fuel) :
    primitiveEnd js fuel pos = .ok (pos + raw.length) := by
  induction raw generalizing pos fuel with
  | nil =>
      obtain ⟨fuel, rfl⟩ := Nat.exists_eq_succ_of_ne_zero
        (Nat.ne_zero_of_lt hfuel)
      rw [primitiveEnd]
      cases hc : peek js pos with
      | none => rfl
      | some c =>
          have hhead : c ∈ back.head? := by
            rw [peek, Option.filter_eq_some_iff] at hc
            rw [List.nil_append] at hat
            rw [← hat, List.head?_drop]
            exact hc.1
          dsimp only
          rcases hback c hhead with hend | hnul
          · rw [if_pos hend]
            rfl
          · simp [peek, hnul, Option.filter_eq_some_iff] at hc
  | cons c raw ih =>
      obtain ⟨fuel, rfl⟩ := Nat.exists_eq_succ_of_ne_zero
        (Nat.ne_zero_of_lt hfuel)
      obtain ⟨hend, hle, hlt⟩ := hraw c List.mem_cons_self
      have hnul : c ≠ Char.ofNat 0 := by
        rintro rfl
        exact absurd hle (by decide)
      rw [List.length_cons] at hfuel
      rw [primitiveEnd, peek_of_drop hat hnul]
      dsimp only
      rw [if_neg (by simp [hend]), if_neg (by omega),
        ih (fun d hd => hraw d (List.mem_cons_of_mem c hd))
          (drop_succ_of_drop hat) (by omega), List.length_cons]
      congr 1
      omega

end Scanners

/-! ### Passes of the loop -/

/-- A token of the loader in the pool. -/
def JsmnTok.pooled (tok : JsmnTok) : PoolTok :=
  { type := tok.type, start := some tok.start, stop := some tok.stop
    size := tok.size }

@[simp] theorem JsmnTok.isOpen_pooled (tok : JsmnTok) :
    tok.pooled.isOpen = false := rfl

/-- One pass of the loop on `js` with a pool of `numTokens`. -/
def JsmnPass (js : List Char) (numTokens : Nat) (p p' : JsmnParser) : Prop :=
  ∃ c, peek js p.pos = some c ∧ ∀ count, ∃ q count',
    jsmnStep js (some numTokens) p count c = .ok (q, count') ∧
      p' = { q with pos := q.pos + 1 }

abbrev JsmnPasses (js : List Char) (numTokens : Nat) :
    JsmnParser → JsmnParser → Prop :=
  Relation.ReflTransGen (JsmnPass js numTokens)

section Passes

variable {js : List Char} {numTokens : Nat} {p : JsmnParser}

theorem JsmnPass.passes {p' : JsmnParser} (h : JsmnPass js numTokens p p') :
    JsmnPasses js numTokens p p' := .single h

theorem pass_blank {c : Char} {back : List Char}
    (hat : js.drop p.pos = c :: back) (hc : isBlank c = true) :
    JsmnPass js numTokens p { p with pos := p.pos + 1 } := by
  have hcases : c = '\t' ∨ c = '\r' ∨ c = '\n' ∨ c = ' ' := by
    simpa [isBlank, or_assoc] using hc
  refine ⟨c, peek_of_drop hat ?_, fun count => ⟨p, count, ?_, rfl⟩⟩ <;>
    rcases hcases with rfl | rfl | rfl | rfl <;> first | decide | rfl

variable (numTokens) in
theorem passes_blank {text back : List Char} (htext : Blank text)
    (hat : js.drop p.pos = text ++ back) :
    JsmnPasses js numTokens p { p with pos := p.pos + text.length } := by
  induction text generalizing p with
  | nil => exact .refl
  | cons c text ih =>
      have hpass := @pass_blank js numTokens p c _ hat
        (htext c List.mem_cons_self)
      have hrest := @ih { p with pos := p.pos + 1 }
        (fun d hd => htext d (List.mem_cons_of_mem c hd))
        (drop_succ_of_drop hat)
      rw [List.length_cons, Nat.add_comm text.length, ← Nat.add_assoc]
      exact .head hpass hrest

/-- A string, with its quotes. -/
theorem pass_string {raw back : List Char} (hp : p.Valid js)
    (hraw : RawString raw)
    (hat : js.drop p.pos = '"' :: (raw ++ '"' :: back))
    (hroom : p.toknext < numTokens) :
    JsmnPass js numTokens p {
      pos := p.pos + (raw.length + 2)
      toksuper := p.toksuper
      tokens := p.counted ++ [JsmnTok.pooled {
        type := .string, start := p.pos + 1
        stop := p.pos + 1 + raw.length, size := 0 }] } := by
  have hinner := drop_succ_of_drop hat
  have hfits : p.pos + ('"' :: (raw ++ ['"'])).length ≤ js.length :=
    add_length_le_of_drop (by simpa using hat) hp.pos_le
  simp only [List.length_cons, List.length_append, List.length_nil] at hfits
  have hstop := stringEnd_raw hraw hinner
    (by omega : raw.length < js.length + 1 - p.pos)
  have hleaf := addLeaf_afterLeaf hp numTokens .string (p.pos + 1)
    (p.pos + 1 + raw.length)
    (by omega : p.pos + 1 + raw.length ≤ js.length)
  rw [if_neg (by omega)] at hleaf
  refine ⟨'"', peek_of_drop hat (by decide), fun count =>
    ⟨{ p with
        pos := p.pos + 1 + raw.length
        tokens := p.counted ++ [JsmnTok.pooled {
          type := .string, start := p.pos + 1
          stop := p.pos + 1 + raw.length, size := 0 }] },
      count + 1, ?_, ?_⟩⟩
  · have hstep : jsmnStep js (some numTokens) p count '"' =
        (addLeaf (some numTokens) p .string (p.pos + 1)
            (p.pos + 1 + raw.length) (p.pos + 1 + raw.length) >>=
          afterLeaf (some numTokens)) >>= fun p => pure (p, count + 1) := by
      rw [bind_assoc]
      simp only [jsmnStep, jsmnParseString, hstop]
      rfl
    rw [hstep, hleaf]
    rfl
  · simp only [JsmnParser.mk.injEq, and_true]
    omega

theorem pass_primitive {raw back : List Char} (hp : p.Valid js)
    (hraw : RawPrimitive raw) (hback : EndsPrimitive back)
    (hat : js.drop p.pos = raw ++ back) (hroom : p.toknext < numTokens) :
    JsmnPass js numTokens p {
      pos := p.pos + raw.length
      toksuper := p.toksuper
      tokens := p.counted ++ [JsmnTok.pooled {
        type := .primitive, start := p.pos
        stop := p.pos + raw.length, size := 0 }] } := by
  obtain ⟨⟨c, rest, rfl, hquote, hbrace, hbracket⟩, hinner⟩ := hraw
  obtain ⟨hend, hle, -⟩ := hinner c List.mem_cons_self
  have hnul : c ≠ Char.ofNat 0 := by
    rintro rfl
    exact absurd hle (by decide)
  have hfits := add_length_le_of_drop hat hp.pos_le
  rw [List.length_cons] at hfits ⊢
  have hstop := primitiveEnd_raw hinner hback hat
    (by rw [List.length_cons]; omega :
      (c :: rest).length < js.length + 1 - p.pos)
  rw [List.length_cons] at hstop
  have hleaf := addLeaf_afterLeaf hp numTokens .primitive p.pos
    (p.pos + (rest.length + 1))
    (by omega : p.pos + (rest.length + 1) - 1 ≤ js.length)
  rw [if_neg (by omega)] at hleaf
  refine ⟨c, peek_of_drop hat hnul, fun count =>
    ⟨{ p with
        pos := p.pos + (rest.length + 1) - 1
        tokens := p.counted ++ [JsmnTok.pooled {
          type := .primitive, start := p.pos
          stop := p.pos + (rest.length + 1), size := 0 }] },
      count + 1, ?_, ?_⟩⟩
  · simp only [endsPrimitive, Bool.or_eq_false_iff,
      beq_eq_false_iff_ne] at hend
    obtain ⟨⟨⟨⟨⟨⟨⟨hcolon, htab⟩, hcr⟩, hlf⟩, hspace⟩, hcomma⟩, hclose⟩,
      hclose'⟩ := hend
    have hblank : isBlank c = false := by
      simp [isBlank, htab, hcr, hlf, hspace]
    have hstep : jsmnStep js (some numTokens) p count c =
        (addLeaf (some numTokens) p .primitive p.pos
            (p.pos + (rest.length + 1)) (p.pos + (rest.length + 1) - 1) >>=
          afterLeaf (some numTokens)) >>= fun p => pure (p, count + 1) := by
      rw [bind_assoc]
      simp only [jsmnStep, hquote, hbrace, hbracket, hblank, hcolon, hcomma,
        hclose, hclose', or_self, if_false, Bool.false_eq_true,
        jsmnParsePrimitive, hstop]
      rfl
    rw [hstep, hleaf]
    rfl
  · simp only [JsmnParser.mk.injEq, and_true]
    omega

theorem pass_open {c : Char} {back : List Char} (hp : p.Valid js)
    (hat : js.drop p.pos = c :: back) (hc : c = '{' ∨ c = '[')
    (hroom : p.toknext < numTokens) :
    JsmnPass js numTokens p {
      pos := p.pos + 1
      toksuper := some p.toknext
      tokens := p.counted ++ [{
        type := if c = '{' then .object else .array
        start := some p.pos, stop := none, size := 0 }] } := by
  have hopen := openContainer_eq hp numTokens c
  rw [if_neg (by omega)] at hopen
  have hnul : c ≠ Char.ofNat 0 := by
    rcases hc with rfl | rfl <;> decide
  refine ⟨c, peek_of_drop hat hnul, fun count =>
    ⟨{ p with
        toksuper := some p.toknext
        tokens := p.counted ++ [{
          type := if c = '{' then .object else .array
          start := some p.pos, stop := none, size := 0 }] },
      count + 1, ?_, rfl⟩⟩
  rw [jsmnStep, if_pos hc, hopen]
  rfl

theorem pass_colon {back : List Char} (hat : js.drop p.pos = ':' :: back)
    (hsome : p.toknext ≠ 0) :
    JsmnPass js numTokens p
      { p with pos := p.pos + 1, toksuper := some (p.toknext - 1) } := by
  refine ⟨':', peek_of_drop hat (by decide), fun count =>
    ⟨{ p with toksuper := some (p.toknext - 1) }, count, ?_, rfl⟩⟩
  have hcolon : jsmnStep js (some numTokens) p count ':' =
      .ok (afterColon p, count) := rfl
  rw [hcolon, afterColon, if_neg hsome]

/-! A pool in which the container `t` is the innermost one that is open. -/

variable {base : List PoolTok} {t : PoolTok} {inner : List JsmnTok}

theorem toknext_inside (hp : p.tokens = base ++ t :: inner.map JsmnTok.pooled) :
    p.toknext = base.length + (inner.length + 1) := by
  simp [JsmnParser.toknext, hp]

theorem getElem?_inside
    (hp : p.tokens = base ++ t :: inner.map JsmnTok.pooled) :
    p.tokens[base.length]? = some t := by
  simp [hp]

theorem lastOpen_inside
    (hp : p.tokens = base ++ t :: inner.map JsmnTok.pooled)
    (ht : t.isOpen = true) :
    lastOpen p.tokens p.toknext = some base.length := by
  have hlast := @lastBelow_append_cons PoolTok PoolTok.isOpen base
    (inner.map JsmnTok.pooled) t ht (by simp)
  rw [toknext_inside hp, hp]
  rwa [List.length_map] at hlast

/-- A comma goes back to the innermost container. -/
theorem pass_comma {back : List Char} (hat : js.drop p.pos = ',' :: back)
    (hp : p.tokens = base ++ t :: inner.map JsmnTok.pooled)
    (ht : t.isOpen = true) (hcontainer : t.type.isContainer = true)
    (hsuper : p.toksuper = some base.length ∨ ∃ j u, p.toksuper = some j ∧
      p.tokens[j]? = some u ∧ u.type.isContainer = false) :
    JsmnPass js numTokens p
      { p with pos := p.pos + 1, toksuper := some base.length } := by
  have hcomma : afterComma p = .ok { p with toksuper := some base.length } := by
    unfold afterComma
    rcases hsuper with hsuper | ⟨j, u, hsuper, hu, hleaf⟩
    · obtain ⟨pos, toksuper, tokens⟩ := p
      dsimp only at hsuper hp
      subst hsuper
      have hat := @getElem?_inside ⟨pos, some base.length, tokens⟩ base t
        inner hp
      simp only [JsmnParser.tokenAt, hat, ok_bind, if_pos hcontainer]
      rfl
    · have hlast := @lastBelow_append_cons PoolTok
        (fun t => t.type.isContainer && t.isOpen) base
        (inner.map JsmnTok.pooled) t (by simp [ht, hcontainer]) (by simp)
      rw [List.length_map, ← hp, ← toknext_inside hp] at hlast
      rw [hsuper]
      simp only [JsmnParser.tokenAt, hu, ok_bind, hleaf, hlast,
        Bool.false_eq_true, if_false]
      rfl
  refine ⟨',', peek_of_drop hat (by decide), fun count =>
    ⟨{ p with toksuper := some base.length }, count, ?_, rfl⟩⟩
  have hstep : jsmnStep js (some numTokens) p count ',' =
      afterComma p >>= fun p => pure (p, count) := rfl
  rw [hstep, hcomma]
  rfl

/-- A bracket closes the innermost container. -/
theorem pass_close {c : Char} {back : List Char}
    (hat : js.drop p.pos = c :: back) (hc : c = '}' ∨ c = ']')
    (hp : p.tokens = base ++ t :: inner.map JsmnTok.pooled)
    (ht : t.isOpen = true)
    (htype : t.type = if c = '}' then .object else .array) :
    JsmnPass js numTokens p {
      pos := p.pos + 1
      toksuper := lastOpen base base.length
      tokens := base ++ { t with stop := some (p.pos + 1) } ::
        inner.map JsmnTok.pooled } := by
  have hmodify : p.tokens.modify base.length
      (fun t => { t with stop := some (p.pos + 1) }) =
        base ++ { t with stop := some (p.pos + 1) } ::
          inner.map JsmnTok.pooled := by
    rw [hp]
    clear * -
    induction base with
    | nil => rfl
    | cons u base ih => simpa using ih
  have hsuper : lastOpen (p.tokens.modify base.length
      fun t => { t with stop := some (p.pos + 1) }) (base.length + 1) =
        lastOpen base base.length := by
    rw [hmodify, lastOpen, lastBelow, if_neg (by simp [PoolTok.isOpen])]
    exact lastBelow_congr fun j hj => by rw [List.getElem?_append_left hj]
  have hclose : closeContainer p c = .ok {
      pos := p.pos
      toksuper := lastOpen base base.length
      tokens := base ++ { t with stop := some (p.pos + 1) } ::
        inner.map JsmnTok.pooled } := by
    unfold closeContainer
    rw [lastOpen_inside hp ht]
    simp only [JsmnParser.tokenAt, getElem?_inside hp, ok_bind]
    rw [if_neg (not_not.2 htype), hsuper, hmodify]
    rfl
  have hnul : c ≠ Char.ofNat 0 := by
    rcases hc with rfl | rfl <;> decide
  refine ⟨c, peek_of_drop hat hnul, fun count =>
    ⟨{ pos := p.pos
       toksuper := lastOpen base base.length
       tokens := base ++ { t with stop := some (p.pos + 1) } ::
          inner.map JsmnTok.pooled }, count, ?_, rfl⟩⟩
  have hstep : jsmnStep js (some numTokens) p count c =
      closeContainer p c >>= fun p => pure (p, count) := by
    rcases hc with rfl | rfl <;> rfl
  rw [hstep, hclose]
  rfl

end Passes

end FremSoft
