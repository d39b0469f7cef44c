/-
jsmn reads a document off every one of its texts: the tokens are those of the
document in pre-order, each with the number of its children.
-/
import FremSoft.JsmnScan

namespace FremSoft

/-! ### Documents -/

section Documents

variable {js : List Char} {numTokens : Nat}

theorem JsmnPass.valid {p p' : JsmnParser} (h : JsmnPass js numTokens p p')
    (hp : p.Valid js) : p'.Valid js := by
  obtain ⟨c, hc, hsteps⟩ := h
  obtain ⟨q, count', hstep, rfl⟩ := hsteps 0
  have hmove := ((jsmnStep_ends hp hc numTokens 0).of_ok hstep).1
  exact hmove.valid hp

theorem JsmnPasses.valid {p p' : JsmnParser}
    (h : JsmnPasses js numTokens p p') (hp : p.Valid js) : p'.Valid js := by
  induction h with
  | refl => exact hp
  | tail _ hpass ih => exact hpass.valid ih

theorem matches_leaf {type : JsmnType} {size start : Nat}
    {raw back : List Char} (hat : js.drop start = raw ++ back)
    (hstart : start ≤ js.length) :
    TokShape.Matches js { type, size, text := some raw }
      { type, start, stop := start + raw.length, size } := by
  refine ⟨rfl, rfl, Nat.le_add_right _ _, add_length_le_of_drop hat hstart, ?_⟩
  rintro _ ⟨⟩
  simp [tokText, hat]

/-- What passes over the text of a value leave. -/
def ReadsValue (js : List Char) (numTokens : Nat) (p : JsmnParser)
    (text : List Char) (shapes : List TokShape) : Prop :=
  ∃ toksuper toks,
    JsmnPasses js numTokens p {
      pos := p.pos + text.length
      toksuper
      tokens := p.counted ++ toks.map JsmnTok.pooled } ∧
    (toksuper = p.toksuper ∨ toksuper = lastOpen p.tokens p.toknext) ∧
    List.Forall₂ (TokShape.Matches js) shapes toks ∧
    ∀ tok ∈ toks.head?, tok.type.isContainer →
      tok.start = p.pos ∧ tok.stop = p.pos + text.length

/-- What passes over the inside of a container leave: its children are counted
in `t` and stand behind the tokens that are there. -/
def ReadsInner (js : List Char) (numTokens : Nat) (p : JsmnParser)
    (base : List PoolTok) (t : PoolTok) (inner : List JsmnTok)
    (text : List Char) (children : Nat) (shapes : List TokShape) : Prop :=
  ∃ toksuper toks,
    JsmnPasses js numTokens p {
      pos := p.pos + text.length
      toksuper
      tokens := base ++ { t with size := t.size + children } ::
        (inner ++ toks).map JsmnTok.pooled } ∧
    List.Forall₂ (TokShape.Matches js) shapes toks

theorem lastOpen_counted (p : JsmnParser) (n : Nat) :
    lastOpen p.counted n = lastOpen p.tokens n := by
  refine lastBelow_congr fun j _ => ?_
  unfold JsmnParser.counted
  cases p.toksuper with
  | none => rfl
  | some i =>
      simp only [List.getElem?_modify]
      cases p.tokens[j]? with
      | none => rfl
      | some t =>
          simp only [Option.map_eq_map, Option.map_some, Option.any_some]
          split <;> rfl

theorem counted_inside {p : JsmnParser} {base : List PoolTok} {t : PoolTok}
    {inner : List JsmnTok}
    (hp : p.tokens = base ++ t :: inner.map JsmnTok.pooled)
    (hsuper : p.toksuper = some base.length) :
    p.counted = base ++ { t with size := t.size + 1 } ::
      inner.map JsmnTok.pooled := by
  unfold JsmnParser.counted
  rw [hsuper, hp]
  clear * -
  induction base with
  | nil => rfl
  | cons u base ih => simpa using ih

/-- A container, from its opening bracket to its closing one. -/
theorem readsValue_container {p : JsmnParser} {open' close : Char}
    {text back : List Char} {children : Nat} {shapes : List TokShape}
    {type : JsmnType}
    (hopen : open' = '{' ∨ open' = '[') (hclose : close = '}' ∨ close = ']')
    (hopening : type = if open' = '{' then .object else .array)
    (hclosing : type = if close = '}' then .object else .array)
    (hat : js.drop p.pos = open' :: (text ++ close :: back))
    (hp : p.Valid js) (hroom : p.toknext < numTokens)
    (hinner : ∀ q base t, q.Valid js → q.pos = p.pos + 1 →
      q.tokens = base ++ [t] → q.toksuper = some base.length →
      q.toknext = p.toknext + 1 → t.isOpen = true → t.type = type →
      ReadsInner js numTokens q base t [] text children shapes) :
    ReadsValue js numTokens p (open' :: (text ++ [close]))
      ({ type, size := children, text := none } :: shapes) := by
  have hpass := @pass_open js numTokens p open' _ hp hat hopen hroom
  rw [← hopening] at hpass
  obtain ⟨toksuper, toks, hpasses, hmatches⟩ := hinner _ p.counted
    { type, start := some p.pos, stop := none, size := 0 } (hpass.valid hp) rfl
    rfl (by simp [JsmnParser.toknext])
    (by simp [JsmnParser.toknext]) rfl rfl
  have hbehind := drop_succ_of_drop hat
  have hend := drop_add_length hbehind
  have hlast := @pass_close js numTokens {
      pos := p.pos + 1 + text.length
      toksuper
      tokens := p.counted ++
        { type, start := some p.pos, stop := none, size := 0 + children } ::
          ([] ++ toks).map JsmnTok.pooled } p.counted _ _ close back hend hclose
    rfl rfl hclosing
  refine ⟨lastOpen p.counted p.counted.length,
    { type, start := p.pos, stop := p.pos + 1 + text.length + 1
      size := children } :: toks, ?_, .inr ?_, .cons ?_ hmatches, ?_⟩
  · have hall := ((hpass.passes).trans hpasses).tail hlast
    have hpos : p.pos + (open' :: (text ++ [close])).length =
        p.pos + 1 + text.length + 1 := by
      simp only [List.length_cons, List.length_append, List.length_nil]
      omega
    rw [hpos]
    simpa [JsmnTok.pooled] using hall
  · rw [lastOpen_counted, JsmnParser.length_counted]
    rfl
  · have hfits : p.pos + (open' :: (text ++ [close])).length ≤ js.length :=
      add_length_le_of_drop (by simpa using hat) hp.pos_le
    simp only [List.length_cons, List.length_append, List.length_nil] at hfits
    exact ⟨rfl, rfl, by dsimp only; omega, by dsimp only; omega, by simp⟩
  · rintro tok ⟨⟩ -
    simp only [List.length_cons, List.length_append, List.length_nil, true_and]
    omega

/-- Counting a child of the last token. -/
theorem counted_last {p : JsmnParser} {l : List PoolTok} {t : PoolTok}
    (hp : p.tokens = l ++ [t]) (hsuper : p.toksuper = some l.length) :
    p.counted = l ++ [{ t with size := t.size + 1 }] := by
  unfold JsmnParser.counted
  rw [hsuper, hp]
  exact modify_concat l t _

theorem endsPrimitive_of_blank {c : Char} (h : isBlank c = true) :
    endsPrimitive c = true := by
  simp only [isBlank, Bool.or_eq_true, beq_iff_eq] at h
  rcases h with ((rfl | rfl) | rfl) | rfl <;> decide

theorem EndsPrimitive.blank_append {ws back : List Char} (hws : Blank ws)
    (hback : EndsPrimitive back) : EndsPrimitive (ws ++ back) := by
  cases ws with
  | nil => exact hback
  | cons c ws =>
      rintro _ ⟨⟩
      exact .inl (endsPrimitive_of_blank (hws c List.mem_cons_self))

theorem endsPrimitive_cons {c : Char} (hc : endsPrimitive c = true)
    (back : List Char) : EndsPrimitive (c :: back) := by
  rintro _ ⟨⟩
  exact .inl hc

/-- The token of a string whose text starts at `start`. -/
def stringTok (start length size : Nat) : JsmnTok :=
  { type := .string, start, stop := start + length, size }

variable (numTokens) in
/-- The key of a member, up to its value. -/
theorem passes_key {p : JsmnParser} {base : List PoolTok} {t : PoolTok}
    {inner : List JsmnTok} {pre name mid mid' back : List Char}
    (hpre : Blank pre) (hname : RawString name) (hmid : Blank mid)
    (hmid' : Blank mid')
    (hat : js.drop p.pos =
      pre ++ '"' :: (name ++ '"' :: (mid ++ ':' :: (mid' ++ back))))
    (hp : p.Valid js)
    (htokens : p.tokens = base ++ t :: inner.map JsmnTok.pooled)
    (hsuper : p.toksuper = some base.length)
    (hroom : p.toknext < numTokens) :
    JsmnPasses js numTokens p {
      pos := p.pos + pre.length + (name.length + 2) + mid.length + 1 +
        mid'.length
      toksuper := some (base.length + (inner.length + 1))
      tokens := base ++ { t with size := t.size + 1 } :: (inner ++
        [stringTok (p.pos + pre.length + 1) name.length 0]).map
          JsmnTok.pooled } := by
  have hblank := passes_blank numTokens hpre hat
  have hat₁ := drop_add_length hat
  have hstring := @pass_string js numTokens { p with pos := p.pos + pre.length }
    name _ (hblank.valid hp) hname hat₁ hroom
  have hcounted := @counted_inside { p with pos := p.pos + pre.length }
    base t inner htokens hsuper
  rw [hcounted] at hstring
  have hat₂ : js.drop (p.pos + pre.length + (name.length + 2)) =
      mid ++ ':' :: (mid' ++ back) := by
    have hquoted : js.drop (p.pos + pre.length) =
        ('"' :: (name ++ ['"'])) ++ (mid ++ ':' :: (mid' ++ back)) := by
      simpa using hat₁
    simpa using drop_add_length hquoted
  have hmids := (hblank.tail hstring).trans
    (passes_blank numTokens hmid hat₂)
  have hat₃ := drop_add_length hat₂
  have hcolon := hmids.tail (pass_colon hat₃ (by simp [JsmnParser.toknext]))
  have hall := hcolon.trans
    (passes_blank numTokens hmid' (drop_succ_of_drop hat₃))
  have htoknext : base.length + (inner.length + 1) =
      (base ++ { t with size := t.size + 1 } :: inner.map JsmnTok.pooled ++
        [JsmnTok.pooled {
          type := .string, start := p.pos + pre.length + 1
          stop := p.pos + pre.length + 1 + name.length
          size := 0 }]).length - 1 := by
    simp only [List.length_append, List.length_cons, List.length_map,
      List.length_nil]
    omega
  have htokens' : base ++ { t with size := t.size + 1 } :: (inner ++
      [stringTok (p.pos + pre.length + 1) name.length 0]).map JsmnTok.pooled =
        base ++ { t with size := t.size + 1 } :: inner.map JsmnTok.pooled ++
          [JsmnTok.pooled {
            type := .string, start := p.pos + pre.length + 1
            stop := p.pos + pre.length + 1 + name.length
            size := 0 }] := by
    simp [stringTok]
  rw [htokens', htoknext]
  exact hall

/-- A child has been read; then come the others. -/
theorem ReadsInner.after {p q : JsmnParser} {base : List PoolTok}
    {t : PoolTok} {inner toks : List JsmnTok} {front text : List Char}
    {children : Nat} {shapes shapes' : List TokShape}
    (hpasses : JsmnPasses js numTokens p q)
    (hpos : q.pos = p.pos + front.length)
    (hmatches : List.Forall₂ (TokShape.Matches js) shapes toks)
    (h : ReadsInner js numTokens q base { t with size := t.size + 1 }
      (inner ++ toks) text children shapes') :
    ReadsInner js numTokens p base t inner (front ++ text) (children + 1)
      (shapes ++ shapes') := by
  obtain ⟨toksuper, toks', hpasses', hmatches'⟩ := h
  refine ⟨toksuper, toks ++ toks', ?_, List.rel_append hmatches hmatches'⟩
  have hall := hpasses.trans hpasses'
  have hsize : t.size + 1 + children = t.size + (children + 1) := by omega
  rw [hpos, Nat.add_assoc, ← List.length_append, hsize] at hall
  rwa [← List.append_assoc]

/-- Behind a child stand blanks, and a comma if there are more children. -/
theorem readsInner_tail {p : JsmnParser} {base : List PoolTok} {t : PoolTok}
    {inner : List JsmnTok} {post tail back : List Char} {children : Nat}
    {shapes : List TokShape} (hpost : Blank post)
    (hat : js.drop p.pos = post ++ (tail ++ back)) (hp : p.Valid js)
    (htokens : p.tokens = base ++ t :: inner.map JsmnTok.pooled)
    (hopen : t.isOpen = true) (htype : t.type.isContainer = true)
    (hsuper : p.toksuper = some base.length ∨ ∃ j u, p.toksuper = some j ∧
      p.tokens[j]? = some u ∧ u.type.isContainer = false)
    (htail : (tail = [] ∧ children = 0 ∧ shapes = []) ∨
      ∃ more, tail = ',' :: more ∧ ∀ q : JsmnParser, q.Valid js →
        js.drop q.pos = more ++ back → q.tokens = p.tokens →
        q.toksuper = some base.length →
        ReadsInner js numTokens q base t inner more children shapes) :
    ReadsInner js numTokens p base t inner (post ++ tail) children shapes := by
  have hblank := passes_blank numTokens hpost hat
  have hbehind := drop_add_length hat
  rcases htail with ⟨rfl, rfl, rfl⟩ | ⟨more, rfl, hmore⟩
  · refine ⟨p.toksuper, [], ?_, .nil⟩
    rw [htokens] at hblank
    simpa using hblank
  · have hcomma := @pass_comma js numTokens { p with pos := p.pos + post.length }
      base t inner _ hbehind htokens hopen htype hsuper
    obtain ⟨toksuper, toks, hpasses, hmatches⟩ := hmore _
      (hcomma.valid (hblank.valid hp)) (drop_succ_of_drop hbehind) rfl rfl
    refine ⟨toksuper, toks, ?_, hmatches⟩
    have hall := (hblank.tail hcomma).trans hpasses
    have hpos : p.pos + post.length + 1 + more.length =
        p.pos + (post ++ ',' :: more).length := by
      simp only [List.length_append, List.length_cons]
      omega
    dsimp only at hall
    rwa [hpos] at hall

mutual

/-- The passes over a text of a value. -/
theorem Json.reads : ∀ (value : Json) {text back : List Char}
    {p : JsmnParser}, value.Spelled text → js.drop p.pos = text ++ back →
    EndsPrimitive back → p.Valid js →
    p.toknext + value.flatten.length ≤ numTokens →
    ReadsValue js numTokens p text value.flatten
  | .str raw, text, back, p, hspelled, hat, _, hp, hroom => by
      obtain ⟨hraw, rfl⟩ := hspelled
      have hat' : js.drop p.pos = '"' :: (raw ++ '"' :: back) := by
        simpa using hat
      have hpass := pass_string hp hraw hat'
        (by simpa [Json.flatten] using hroom : p.toknext < numTokens)
      have hpos := add_length_le_of_drop hat hp.pos_le
      refine ⟨p.toksuper, [_], ?_, .inl rfl, .cons (matches_leaf
        (drop_succ_of_drop hat') ?_) .nil, by rintro _ ⟨⟩ ⟨⟩⟩
      · have hlength : ('"' :: (raw ++ ['"'])).length = raw.length + 2 := by
          simp
        rw [hlength]
        exact hpass.passes
      · simp only [List.length_cons, List.length_append] at hpos
        omega
  | .prim raw, text, back, p, hspelled, hat, hback, hp, hroom => by
      obtain ⟨hraw, rfl⟩ := hspelled
      have hpass := pass_primitive hp hraw hback hat
        (by simpa [Json.flatten] using hroom : p.toknext < numTokens)
      exact ⟨p.toksuper, [_], hpass.passes, .inl rfl,
        .cons (matches_leaf hat hp.pos_le) .nil, by rintro _ ⟨⟩ ⟨⟩⟩
  | .arr items, text, back, p, hspelled, hat, _, hp, hroom => by
      obtain ⟨inner, hinner, rfl⟩ := hspelled
      have hat' : js.drop p.pos = '[' :: (inner ++ ']' :: back) := by
        simpa using hat
      simp only [Json.flatten, List.length_cons] at hroom
      refine readsValue_container (.inr rfl) (.inr rfl) rfl rfl hat' hp
        (by omega) ?_
      intro q base t hq hpos htokens hsuper htoknext hopen htype
      exact reads_items items hinner (by
          rw [hpos]
          exact drop_succ_of_drop hat')
        (endsPrimitive_cons rfl back) hq htokens hsuper hopen
        (by rw [htype]; rfl) (by omega)
  | .obj members, text, back, p, hspelled, hat, _, hp, hroom => by
      obtain ⟨inner, hinner, rfl⟩ := hspelled
      have hat' : js.drop p.pos = '{' :: (inner ++ '}' :: back) := by
        simpa using hat
      simp only [Json.flatten, List.length_cons] at hroom
      refine readsValue_container (.inl rfl) (.inl rfl) rfl rfl hat' hp
        (by omega) ?_
      intro q base t hq hpos htokens hsuper htoknext hopen htype
      exact reads_members members hinner (by
          rw [hpos]
          exact drop_succ_of_drop hat')
        (endsPrimitive_cons rfl back) hq htokens hsuper hopen
        (by rw [htype]; rfl) (by omega)

/-- The passes over the elements of an array. -/
theorem reads_items : ∀ (items : List Json) {text back : List Char}
    {p : JsmnParser} {base : List PoolTok} {t : PoolTok}
    {inner : List JsmnTok}, ItemsSpelled items text →
    js.drop p.pos = text ++ back → EndsPrimitive back → p.Valid js →
    p.tokens = base ++ t :: inner.map JsmnTok.pooled →
    p.toksuper = some base.length → t.isOpen = true →
    t.type.isContainer = true →
    p.toknext + (flattenItems items).length ≤ numTokens →
    ReadsInner js numTokens p base t inner text items.length
      (flattenItems items)
  | [], text, back, p, base, t, inner, hspelled, hat, _, hp, htokens, hsuper,
      hopen, htype, hroom => by
      refine ⟨p.toksuper, [], ?_, .nil⟩
      have hpasses := passes_blank numTokens hspelled hat
      simpa [htokens] using hpasses
  | item :: rest, text, back, p, base, t, inner, hspelled, hat, hback, hp,
      htokens, hsuper, hopen, htype, hroom => by
      obtain ⟨pre, body, post, tail, hpre, hbody, hpost, rfl, htail⟩ := hspelled
      simp only [List.append_assoc] at hat
      have hblank := passes_blank numTokens hpre hat
      have hat₁ := drop_add_length hat
      have hends : EndsPrimitive (post ++ (tail ++ back)) := by
        refine EndsPrimitive.blank_append hpost ?_
        rcases htail with ⟨-, rfl⟩ | ⟨-, more, -, rfl⟩
        · exact hback
        · exact endsPrimitive_cons rfl _
      have hvalid := hblank.valid hp
      simp only [flattenItems, List.length_append] at hroom
      obtain ⟨toksuper, toks, hpasses, hsuper', hmatches, -⟩ := item.reads
        (p := { p with pos := p.pos + pre.length }) hbody hat₁ hends hvalid
        (by simp only [JsmnParser.toknext] at hroom ⊢; omega)
      have hcounted := @counted_inside { p with pos := p.pos + pre.length }
        base t inner htokens hsuper
      have hlast := lastOpen_inside htokens hopen
      have htoksuper : toksuper = some base.length := by
        rcases hsuper' with h | h
        · rw [h]
          exact hsuper
        · rw [h]
          exact hlast
      have hall := hblank.trans hpasses
      rw [hcounted, htoksuper] at hall
      have hatPost : js.drop (p.pos + pre.length + body.length) =
          post ++ (tail ++ back) := drop_add_length hat₁
      have hfront : pre ++ (body ++ (post ++ tail)) =
          (pre ++ body) ++ (post ++ tail) := by simp
      rw [hfront, List.length_cons, flattenItems]
      refine ReadsInner.after hall (by simp; omega) hmatches
        (readsInner_tail hpost hatPost (JsmnPasses.valid hall hp) (by simp)
          hopen htype (.inl rfl) ?_)
      rcases htail with ⟨rfl, rfl⟩ | ⟨-, more, hmore, rfl⟩
      · exact .inl ⟨rfl, rfl, rfl⟩
      · refine .inr ⟨more, rfl, fun q hq hat' htokens' hsuper' => ?_⟩
        refine reads_items rest hmore hat' hback hq (by simp [htokens']) hsuper'
          hopen htype ?_
        have hlength := hmatches.length_eq
        simp only [JsmnParser.toknext, htokens', htokens, List.length_append,
          List.length_cons, List.length_map] at hroom ⊢
        omega

/-- The passes over the members of an object. -/
theorem reads_members : ∀ (members : List (List Char × Json))
    {text back : List Char} {p : JsmnParser} {base : List PoolTok}
    {t : PoolTok} {inner : List JsmnTok}, MembersSpelled members text →
    js.drop p.pos = text ++ back → EndsPrimitive back → p.Valid js →
    p.tokens = base ++ t :: inner.map JsmnTok.pooled →
    p.toksuper = some base.length → t.isOpen = true →
    t.type.isContainer = true →
    p.toknext + (flattenMembers members).length ≤ numTokens →
    ReadsInner js numTokens p base t inner text members.length
      (flattenMembers members)
  | [], text, back, p, base, t, inner, hspelled, hat, _, hp, htokens, hsuper,
      hopen, htype, hroom => by
      refine ⟨p.toksuper, [], ?_, .nil⟩
      have hpasses := passes_blank numTokens hspelled hat
      simpa [htokens] using hpasses
  | (name, value) :: rest, text, back, p, base, t, inner, hspelled, hat,
      hback, hp, htokens, hsuper, hopen, htype, hroom => by
      obtain ⟨pre, mid, mid', body, post, tail, hpre, hname, hmid, hmid',
        hbody, hpost, rfl, htail⟩ := hspelled
      simp only [List.append_assoc, List.cons_append] at hat
      simp only [flattenMembers, List.length_cons, List.length_append] at hroom
      have hkey := passes_key numTokens hpre hname hmid hmid' hat hp htokens
        hsuper (by omega)
      have hatKey : js.drop (p.pos + pre.length + 1) =
          name ++ '"' :: (mid ++ ':' :: (mid' ++ (body ++ (post ++
            (tail ++ back))))) :=
        drop_succ_of_drop (drop_add_length hat)
      have hatBody : js.drop (p.pos + pre.length + (name.length + 2) +
          mid.length + 1 + mid'.length) = body ++ (post ++ (tail ++ back)) := by
        have hfront : js.drop p.pos =
            (pre ++ '"' :: (name ++ '"' :: (mid ++ ':' :: mid'))) ++
              (body ++ (post ++ (tail ++ back))) := by simpa using hat
        have hend := drop_add_length hfront
        simp only [List.length_append, List.length_cons] at hend
        convert hend using 2
        omega
      have hends : EndsPrimitive (post ++ (tail ++ back)) := by
        refine EndsPrimitive.blank_append hpost ?_
        rcases htail with ⟨-, rfl⟩ | ⟨-, more, -, rfl⟩
        · exact hback
        · exact endsPrimitive_cons rfl _
      have hvalid := JsmnPasses.valid hkey hp
      obtain ⟨toksuper, toks, hpasses, hsuper', hmatches, -⟩ := value.reads
        hbody hatBody hends hvalid (by
          simp only [JsmnParser.toknext, htokens, List.length_append,
            List.length_cons, List.length_map, List.length_nil] at hroom ⊢
          omega)
      -- the value is the child of its key, and the key that of the object
      have hcounted : JsmnParser.counted
          { pos := p.pos + pre.length + (name.length + 2) + mid.length + 1 +
              mid'.length
            toksuper := some (base.length + (inner.length + 1))
            tokens := base ++ { t with size := t.size + 1 } :: (inner ++
              [stringTok (p.pos + pre.length + 1) name.length 0]).map
                JsmnTok.pooled } =
          base ++ { t with size := t.size + 1 } ::
            inner.map JsmnTok.pooled ++
              [(stringTok (p.pos + pre.length + 1) name.length 1).pooled] := by
        refine @counted_last _ _
          (stringTok (p.pos + pre.length + 1) name.length 0).pooled ?_ ?_ <;>
          simp
      have htokens' : base ++ { t with size := t.size + 1 } ::
          inner.map JsmnTok.pooled ++
            [(stringTok (p.pos + pre.length + 1) name.length 1).pooled] ++
              toks.map JsmnTok.pooled =
          base ++ { t with size := t.size + 1 } :: (inner ++
            stringTok (p.pos + pre.length + 1) name.length 1 :: toks).map
              JsmnTok.pooled := by
        simp
      rw [hcounted, htokens'] at hpasses
      have hsuper'' : toksuper = some base.length ∨
          toksuper = some (base.length + (inner.length + 1)) := by
        rcases hsuper' with h | h
        · exact .inr h
        · refine .inl (h.trans ?_)
          exact @lastOpen_inside _ base { t with size := t.size + 1 } _ rfl hopen
      have hall := hkey.trans hpasses
      have hfront : pre ++ '"' :: (name ++ '"' :: (mid ++ ':' ::
          (mid' ++ (body ++ (post ++ tail))))) =
          (pre ++ '"' :: (name ++ '"' :: (mid ++ ':' :: (mid' ++ body)))) ++
            (post ++ tail) := by simp
      have hkeyMatches : TokShape.Matches js (TokShape.key name)
          (stringTok (p.pos + pre.length + 1) name.length 1) := by
        refine matches_leaf hatKey ?_
        have hfits := add_length_le_of_drop hat hp.pos_le
        have hlt := congrArg List.length (drop_add_length hat)
        simp only [List.length_drop, List.length_cons] at hlt
        omega
      have hatPost : js.drop (p.pos + pre.length + (name.length + 2) +
          mid.length + 1 + mid'.length + body.length) =
            post ++ (tail ++ back) := drop_add_length hatBody
      rw [hfront, List.length_cons, flattenMembers]
      refine ReadsInner.after hall ?_ (.cons hkeyMatches hmatches)
        (readsInner_tail hpost hatPost (JsmnPasses.valid hall hp) rfl hopen
          htype ?_ ?_)
      · simp only [List.length_append, List.length_cons]
        omega
      · refine hsuper''.imp_right fun h => ⟨_,
          (stringTok (p.pos + pre.length + 1) name.length 1).pooled, h, ?_, rfl⟩
        simp
      · rcases htail with ⟨rfl, rfl⟩ | ⟨-, more, hmore, rfl⟩
        · exact .inl ⟨rfl, rfl, rfl⟩
        · refine .inr ⟨more, rfl, fun q hq hat' htokens' hsuper' => ?_⟩
          refine reads_members rest hmore hat' hback hq htokens' hsuper' hopen
            htype ?_
          have hlength := hmatches.length_eq
          simp only [JsmnParser.toknext, htokens', htokens, List.length_append,
            List.length_cons, List.length_map] at hroom ⊢
          omega

end

/-! ### Whole texts -/

/-- Passes up to the end of the text are what the loop does. -/
theorem jsmnLoop_of_passes {p p' : JsmnParser}
    (h : JsmnPasses js numTokens p p') (hdone : peek js p'.pos = none)
    (hp : p.Valid js) {fuel : Nat} (hfuel : js.length < p.pos + fuel)
    (count : Nat) :
    ∃ count', jsmnLoop js (some numTokens) fuel p count =
      .ok (p', count') := by
  induction h using Relation.ReflTransGen.head_induction_on generalizing fuel
    count with
  | refl =>
      cases fuel with
      | zero => exact absurd hp.pos_le (by omega)
      | succ fuel => exact ⟨count, by rw [jsmnLoop, hdone]⟩
  | @head p q hpass _ ih =>
      have hvalid := hpass.valid hp
      obtain ⟨c, hc, hsteps⟩ := hpass
      have hlt := peek_lt hc
      cases fuel with
      | zero => omega
      | succ fuel =>
          obtain ⟨r, count', hstep, rfl⟩ := hsteps count
          have hmove := ((jsmnStep_ends hp hc numTokens count).of_ok hstep).1
          have hpos := hmove.pos_lt
          have hfuel' : js.length < r.pos + 1 + fuel := by
            dsimp only at hpos
            omega
          obtain ⟨total, hrest⟩ := ih hvalid hfuel' count'
          refine ⟨total, ?_⟩
          rw [jsmnLoop, hc]
          simp only [hstep, ok_bind]
          exact hrest

/-- The passes over a whole text, up to its end. -/
theorem passes_of_text {doc : Json} {pre body post : List Char}
    (hpre : Blank pre) (hbody : doc.Spelled body) (hpost : Blank post)
    (hjs : js = pre ++ (body ++ post)) :
    ∃ p toks, JsmnPasses js doc.flatten.length jsmnInit p ∧
      peek js p.pos = none ∧ p.tokens = toks.map JsmnTok.pooled ∧
      List.Forall₂ (TokShape.Matches js) doc.flatten toks ∧
      ∀ tok ∈ toks.head?, tok.type.isContainer →
        tok.start = pre.length ∧ tok.stop = pre.length + body.length := by
  subst hjs
  have hinit := (jsmnInit_tidy (pre ++ (body ++ post))).toValid
  have hblank := @passes_blank _ doc.flatten.length jsmnInit pre _ hpre
    (List.drop_zero : _ = pre ++ (body ++ post))
  have hat : (pre ++ (body ++ post)).drop (jsmnInit.pos + pre.length) =
      body ++ post := drop_add_length List.drop_zero
  have hends : EndsPrimitive post := by
    have hnil : EndsPrimitive [] := by simp [EndsPrimitive]
    simpa using EndsPrimitive.blank_append hpost hnil
  have hreads : ReadsValue (pre ++ (body ++ post)) doc.flatten.length
      { pos := jsmnInit.pos + pre.length, toksuper := none, tokens := [] } body
      doc.flatten :=
    doc.reads hbody hat hends (hblank.valid hinit) (by simp [JsmnParser.toknext])
  obtain ⟨toksuper, toks, hpasses, -, hmatches, hhead⟩ := hreads
  have hrest := @passes_blank (pre ++ (body ++ post)) doc.flatten.length
    { pos := jsmnInit.pos + pre.length + body.length, toksuper
      tokens := toks.map JsmnTok.pooled } post [] hpost
    ((drop_add_length hat).trans (List.append_nil post).symm)
  refine ⟨{ pos := jsmnInit.pos + pre.length + body.length + post.length
            toksuper, tokens := toks.map JsmnTok.pooled }, toks,
    (hblank.trans hpasses).trans hrest, ?_, rfl, hmatches, ?_⟩
  · rw [peek, List.getElem?_eq_none (by simp [jsmnInit]; omega)]
    rfl
  · intro tok htok hcontainer
    have hspan := hhead tok htok hcontainer
    simpa [jsmnInit] using hspan

/-- The filling pass on a text of a document. -/
theorem jsmnParse_of_text {doc : Json} (h : doc.IsText js) :
    ∃ p toks count,
      jsmnParse js (some doc.flatten.length) jsmnInit = .ok (p, count) ∧
      p.tokens = toks.map JsmnTok.pooled ∧
      List.Forall₂ (TokShape.Matches js) doc.flatten toks := by
  obtain ⟨pre, body, post, hpre, hbody, hpost, hjs⟩ := h
  obtain ⟨p, toks, hpasses, hdone, htokens, hmatches, -⟩ :=
    passes_of_text hpre hbody hpost hjs
  obtain ⟨count, hloop⟩ := jsmnLoop_of_passes hpasses hdone
    (jsmnInit_tidy js).toValid
    (by simp [jsmnInit] :
      js.length < jsmnInit.pos + (js.length + 1 - jsmnInit.pos))
    jsmnInit.toknext
  refine ⟨p, toks, count, ?_, htokens, hmatches⟩
  have hopen : p.tokens.any PoolTok.isOpen = false := by simp [htokens]
  rw [jsmnParse, hloop, ok_bind]
  simp only [hopen, Bool.and_false]
  rfl

/-- The counting pass on a text of a document. -/
theorem count_of_text {doc : Json} (h : doc.IsText js) :
    ∃ q, jsmnParse js none jsmnInit = .ok (q, doc.flatten.length) := by
  obtain ⟨p, toks, count, hparse, htokens, hmatches⟩ := jsmnParse_of_text h
  have hlength : p.toknext = doc.flatten.length := by
    rw [JsmnParser.toknext, htokens, List.length_map, hmatches.length_eq]
  have hpasses := jsmnParse_passes js doc.flatten.length
  cases hcount : jsmnParse js none jsmnInit with
  | error f =>
      rw [hcount, Ends.error_iff, hparse] at hpasses
      exact hpasses.2.elim
  | ok r =>
      rw [hcount, Ends.ok_iff, hparse] at hpasses
      obtain ⟨-, htoknext, -⟩ := hpasses
      obtain ⟨q, total⟩ := r
      obtain rfl : doc.flatten.length = total := hlength.symm.trans htoknext
      exact ⟨q, rfl⟩

/-- Both passes on a text of a document that the pool has room for. -/
theorem tokenize_of_text {doc : Json} (h : doc.IsText js)
    (hroom : doc.flatten.length < 2 ^ 28) :
    ∃ toks, tokenize js = .ok (some (toks.map JsmnTok.pooled)) ∧
      List.Forall₂ (TokShape.Matches js) doc.flatten toks := by
  obtain ⟨p, toks, count, hparse, htokens, hmatches⟩ := jsmnParse_of_text h
  obtain ⟨q, hcount⟩ := count_of_text h
  have hpasses := jsmnParse_passes js doc.flatten.length
  rw [hcount, Ends.ok_iff, hparse] at hpasses
  obtain ⟨rfl, -⟩ := hpasses
  have hpos : doc.flatten.length ≠ 0 := by
    rw [ne_eq, List.length_eq_zero_iff]
    exact doc.flatten_ne_nil
  refine ⟨toks, ?_, hmatches⟩
  unfold tokenize
  rw [hcount]
  dsimp only
  rw [if_neg (by omega), fillPass_of_lt hroom, hparse]
  dsimp only
  rw [if_neg (by omega), htokens]

end Documents

end FremSoft
