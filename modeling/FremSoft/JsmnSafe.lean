/-
Whatever the text, jsmn ends, stays inside its pool, and what it accepts is
well formed: every token is closed, stands between its own delimiters, and two
tokens are apart or one is inside the other.
-/
import FremSoft.JsmnStep
import FremSoft.LoadBlocks

namespace FremSoft

/-! ### What every pass keeps -/

/-- The text of a token has the delimiters of its type. -/
def JsmnTok.Delimited (js : List Char) (tok : JsmnTok) : Prop :=
  match tok.type with
  | .object => tok.start + 1 < tok.stop ∧
      js[tok.start]? = some '{' ∧ js[tok.stop - 1]? = some '}'
  | .array => tok.start + 1 < tok.stop ∧
      js[tok.start]? = some '[' ∧ js[tok.stop - 1]? = some ']'
  | .string => 0 < tok.start ∧ tok.start ≤ tok.stop ∧
      js[tok.start - 1]? = some '"' ∧ js[tok.stop]? = some '"'
  | .primitive => tok.start < tok.stop ∧ tok.stop ≤ js.length ∧
      (peek js tok.stop).all endsPrimitive
  | .undefined => False

/-- The bracket at the start of a container. -/
def JsmnType.opening : JsmnType → Option Char
  | .object => some '{'
  | .array => some '['
  | _ => none

/-- A token that stands in the text before `pos`: open behind its bracket, or
closed. -/
def PoolTok.Placed (js : List Char) (pos : Nat) (t : PoolTok) : Prop :=
  ∃ start, t.start = some start ∧ start < pos ∧
    match t.stop with
    | none => t.type.isContainer ∧ js[start]? = t.type.opening
    | some stop => stop ≤ pos ∧
        JsmnTok.Delimited js { type := t.type, start, stop, size := t.size }

/-- The earlier token ends before the later one starts, or it is a container
around it. -/
def PoolTok.Nested (t t' : PoolTok) : Prop :=
  (∃ stop ∈ t.stop, ∃ start ∈ t'.start, stop ≤ start) ∨
    (t.type.isContainer ∧
      (∃ start ∈ t.start, ∃ start' ∈ t'.start, start < start') ∧
      ∀ stop ∈ t.stop, ∃ stop' ∈ t'.stop, stop' < stop)

/-- What every pass of the loop keeps. -/
structure JsmnParser.Tidy (js : List Char) (p : JsmnParser) : Prop
    extends p.Valid js where
  placed : ∀ t ∈ p.tokens, t.Placed js p.pos
  nested : ∀ (i j : Nat) (t t' : PoolTok), i < j → p.tokens[i]? = some t →
    p.tokens[j]? = some t' → t.Nested t'
  /-- A token has no more children than tokens behind it. -/
  size_lt : ∀ (i : Nat) (t : PoolTok), p.tokens[i]? = some t →
    i + t.size < p.toknext
  /-- A token is the child of one token, and the first one of none. -/
  sizes_le : (p.tokens.map PoolTok.size).sum ≤ p.toknext - 1
  /-- A token takes a character. -/
  toknext_le : p.toknext ≤ p.pos

theorem jsmnInit_tidy (js : List Char) : jsmnInit.Tidy js where
  pos_le := Nat.zero_le _
  toksuper_lt := by simp [jsmnInit]
  placed := by simp [jsmnInit]
  nested := by simp [jsmnInit]
  size_lt := by simp [jsmnInit]
  sizes_le := by simp [jsmnInit]
  toknext_le := le_rfl

theorem PoolTok.Placed.mono {js : List Char} {pos pos' : Nat} {t : PoolTok}
    (h : t.Placed js pos) (hle : pos ≤ pos') : t.Placed js pos' := by
  obtain ⟨start, hstart, hlt, hstop⟩ := h
  refine ⟨start, hstart, by omega, ?_⟩
  cases hs : t.stop with
  | none => simpa [hs] using hstop
  | some stop =>
      rw [hs] at hstop
      exact ⟨hstop.1.trans hle, hstop.2⟩

/-- The size of a token plays no part in where it stands. -/
theorem PoolTok.Placed.withSize {js : List Char} {pos : Nat} {t : PoolTok}
    (h : t.Placed js pos) (size : Nat) :
    PoolTok.Placed js pos { t with size } := by
  obtain ⟨start, hstart, hlt, hstop⟩ := h
  refine ⟨start, hstart, hlt, ?_⟩
  cases hs : t.stop with
  | none => simpa [hs] using hstop
  | some stop =>
      rw [hs] at hstop
      refine ⟨hstop.1, ?_⟩
      have := hstop.2
      unfold JsmnTok.Delimited at this ⊢
      exact this

/-- The tokens after a child was counted, one by one. -/
theorem JsmnParser.getElem?_counted {p : JsmnParser} {i : Nat} {t : PoolTok}
    (h : p.counted[i]? = some t) :
    ∃ t₀, p.tokens[i]? = some t₀ ∧
      t = { t₀ with size := t₀.size + if p.toksuper = some i then 1 else 0 } := by
  unfold counted at h
  cases hsuper : p.toksuper with
  | none =>
      rw [hsuper] at h
      exact ⟨t, h, by simp⟩
  | some k =>
      rw [hsuper] at h
      simp only [List.getElem?_modify, Option.map_eq_map,
        Option.map_eq_some_iff] at h
      obtain ⟨t₀, ht₀, rfl⟩ := h
      refine ⟨t₀, ht₀, ?_⟩
      by_cases hki : k = i
      · simp [hki]
      · simp [hki]

theorem sum_size_modify {l : List PoolTok} {i : Nat} (h : i < l.length) :
    ((l.modify i fun t => { t with size := t.size + 1 }).map
      PoolTok.size).sum = (l.map PoolTok.size).sum + 1 := by
  induction l generalizing i with
  | nil => simp at h
  | cons t l ih =>
      cases i with
      | zero => simp; omega
      | succ i =>
          simp only [List.modify_succ_cons, List.map_cons, List.sum_cons]
          rw [ih (Nat.lt_of_succ_lt_succ h)]
          omega

/-- Counting a child and adding it keeps all there is to keep. -/
theorem JsmnParser.Tidy.push {js : List Char} {p : JsmnParser}
    (h : p.Tidy js) {pos : Nat} {toksuper : Option Nat} {t : PoolTok}
    (hpos : p.pos < pos) (hle : pos ≤ js.length)
    (hsuper : ∀ i ∈ toksuper, i < p.toknext + 1) (hsize : t.size = 0)
    (hplaced : t.Placed js pos)
    (hstart : ∃ start ∈ t.start, p.pos ≤ start) :
    JsmnParser.Tidy js
      { pos, toksuper, tokens := p.counted ++ [t] } where
  pos_le := hle
  toksuper_lt := by simpa [toknext] using hsuper
  placed := by
    intro u hu
    rcases List.mem_append.1 hu with hu | hu
    · obtain ⟨i, hi⟩ := List.mem_iff_getElem?.1 hu
      obtain ⟨t₀, ht₀, rfl⟩ := p.getElem?_counted hi
      exact ((h.placed t₀ (List.mem_of_getElem? ht₀)).mono hpos.le).withSize _
    · rw [List.mem_singleton.1 hu]
      exact hplaced
  nested := by
    intro i j u u' hij hu hu'
    have hj := (List.getElem?_eq_some_iff.1 hu').1
    simp only [List.length_append, length_counted, List.length_singleton] at hj
    rw [List.getElem?_append_left (by simp; omega)] at hu
    obtain ⟨t₀, ht₀, rfl⟩ := p.getElem?_counted hu
    rcases Nat.lt_succ_iff_lt_or_eq.1 hj with hj | rfl
    · rw [List.getElem?_append_left (by simpa using hj)] at hu'
      obtain ⟨t₁, ht₁, rfl⟩ := p.getElem?_counted hu'
      exact h.nested i j t₀ t₁ hij ht₀ ht₁
    · rw [List.getElem?_append_right (by simp)] at hu'
      simp only [length_counted, Nat.sub_self, List.getElem?_cons_zero,
        Option.some.injEq] at hu'
      subst hu'
      -- the token that is added starts behind all the others
      obtain ⟨start, hs, hle⟩ := hstart
      obtain ⟨start₀, hs₀, hlt₀, hstop₀⟩ :=
        h.placed t₀ (List.mem_of_getElem? ht₀)
      cases hstop : t₀.stop with
      | some stop =>
          rw [hstop] at hstop₀
          exact .inl ⟨stop, rfl, start, hs, by omega⟩
      | none =>
          rw [hstop] at hstop₀
          exact .inr ⟨hstop₀.1, ⟨start₀, hs₀, start, hs, by omega⟩, by simp⟩
  size_lt := by
    intro i u hu
    simp only [toknext, List.length_append, length_counted,
      List.length_singleton]
    rcases Nat.lt_or_ge i p.tokens.length with hi | hi
    · rw [List.getElem?_append_left (by simpa using hi)] at hu
      obtain ⟨t₀, ht₀, rfl⟩ := p.getElem?_counted hu
      have := h.size_lt i t₀ ht₀
      simp only [toknext] at this ⊢
      split <;> omega
    · have hlt := (List.getElem?_eq_some_iff.1 hu).1
      rw [List.getElem?_append_right (by simpa using hi)] at hu
      obtain ⟨hk, rfl⟩ := List.getElem?_eq_some_iff.1 hu
      simp only [List.length_append, length_counted,
        List.length_singleton] at hlt
      simp only [List.getElem_singleton, hsize]
      omega
  sizes_le := by
    have hsum := h.sizes_le
    simp only [toknext, List.map_append, List.map_cons, List.map_nil,
      List.sum_append, List.sum_singleton, hsize, List.length_append,
      length_counted, List.length_singleton] at hsum ⊢
    unfold counted
    cases hs : p.toksuper with
    | none =>
        dsimp only
        omega
    | some i =>
        have hi := h.toksuper_lt i hs
        simp only [toknext] at hi
        have hmodify := sum_size_modify hi
        dsimp only
        omega
  toknext_le := by
    have := h.toknext_le
    simp only [toknext, List.length_append, length_counted,
      List.length_singleton] at this ⊢
    omega

/-- A closing bracket closes the last token that is open. -/
theorem JsmnParser.Tidy.close {js : List Char} {p : JsmnParser}
    (h : p.Tidy js) {i : Nat} {t : PoolTok} {c : Char}
    (hc : js[p.pos]? = some c) (hbracket : c = '}' ∨ c = ']')
    (hlast : lastOpen p.tokens p.toknext = some i)
    (ht : p.tokens[i]? = some t)
    (htype : t.type = if c = '}' then .object else .array)
    {toksuper : Option Nat} (hsuper : ∀ j ∈ toksuper, j < p.toknext) :
    JsmnParser.Tidy js {
      pos := p.pos + 1
      toksuper
      tokens :=
        p.tokens.modify i fun t => { t with stop := some (p.pos + 1) } } := by
  obtain ⟨hi, ⟨t₀, ht₀, hopen⟩, hafter⟩ := lastOpen_spec hlast
  obtain rfl : t₀ = t := Option.some.inj (ht₀.symm.trans ht)
  have hstop : t₀.stop = none := by
    simp only [PoolTok.isOpen, Bool.and_eq_true, Option.isNone_iff_eq_none]
      at hopen
    exact hopen.2
  have hlt := (List.getElem?_eq_some_iff.1 hc).1
  exact {
    pos_le := hlt
    toksuper_lt := by simpa [toknext] using hsuper
    placed := by
      intro u hu
      obtain ⟨j, hj⟩ := List.mem_iff_getElem?.1 hu
      simp only [List.getElem?_modify, Option.map_eq_map,
        Option.map_eq_some_iff] at hj
      obtain ⟨u₀, hu₀, rfl⟩ := hj
      have hplaced := h.placed u₀ (List.mem_of_getElem? hu₀)
      split
      · subst i
        obtain rfl : u₀ = t₀ := Option.some.inj (hu₀.symm.trans ht)
        obtain ⟨start, hstart, hlt, hbehind⟩ := hplaced
        rw [hstop] at hbehind
        refine ⟨start, hstart, Nat.lt_succ_of_lt hlt, le_rfl, ?_⟩
        rcases hbracket with rfl | rfl
        · simp only [↓reduceIte] at htype
          simpa [JsmnTok.Delimited, htype, hc, hlt, JsmnType.opening]
            using hbehind.2
        · rw [if_neg (by decide)] at htype
          simpa [JsmnTok.Delimited, htype, hc, hlt, JsmnType.opening]
            using hbehind.2
      · exact hplaced.mono (Nat.le_succ _)
    nested := by
      intro j k u u' hjk hu hu'
      simp only [List.getElem?_modify, Option.map_eq_map,
        Option.map_eq_some_iff] at hu hu'
      obtain ⟨u₀, hu₀, rfl⟩ := hu
      obtain ⟨u₁, hu₁, rfl⟩ := hu'
      have hnested := h.nested j k u₀ u₁ hjk hu₀ hu₁
      by_cases hij : i = j
      · subst hij
        obtain rfl : u₀ = t₀ := Option.some.inj (hu₀.symm.trans ht)
        -- all the tokens behind the one that is closed are closed
        have hclosed := hafter k u₁ hjk (List.getElem?_eq_some_iff.1 hu₁).1 hu₁
        obtain ⟨start₁, hstart₁, -, hbehind⟩ :=
          h.placed u₁ (List.mem_of_getElem? hu₁)
        cases hstop₁ : u₁.stop with
        | none => simp [PoolTok.isOpen, hstart₁, hstop₁] at hclosed
        | some stop₁ =>
            rw [hstop₁] at hbehind
            rcases hnested with ⟨stop, hmem, -⟩ | ⟨hcontainer, hstart, -⟩
            · rw [hstop] at hmem
              cases hmem
            · refine .inr ⟨by simpa using hcontainer, ?_, ?_⟩
              · simpa [hjk.ne] using hstart
              · simp only [↓reduceIte, hjk.ne, Option.mem_def,
                  Option.some.injEq, forall_eq']
                exact ⟨stop₁, hstop₁, by omega⟩
      · by_cases hik : i = k
        · subst hik
          obtain rfl : u₁ = t₀ := Option.some.inj (hu₁.symm.trans ht)
          rcases hnested with hbefore | ⟨hcontainer, hstart, hstops⟩
          · exact .inl (by simpa [hij] using hbefore)
          · refine .inr ⟨by simpa [hij] using hcontainer,
              by simpa [hij] using hstart, ?_⟩
            intro stop hmem
            rw [if_neg hij] at hmem
            obtain ⟨stop', hmem', -⟩ := hstops stop hmem
            rw [hstop] at hmem'
            cases hmem'
        · simpa [hij, hik] using hnested
    size_lt := by
      intro j u hu
      simp only [List.getElem?_modify, Option.map_eq_map,
        Option.map_eq_some_iff] at hu
      obtain ⟨u₀, hu₀, rfl⟩ := hu
      have := h.size_lt j u₀ hu₀
      simp only [toknext, List.length_modify] at this ⊢
      split <;> exact this
    sizes_le := by
      have hmap : (p.tokens.modify i fun t =>
          { t with stop := some (p.pos + 1) }).map PoolTok.size =
            p.tokens.map PoolTok.size := by
        apply List.ext_getElem?
        intro j
        simp only [List.getElem?_map, List.getElem?_modify, Option.map_eq_map,
          Option.map_map]
        congr 1
        funext u
        simp only [Function.comp_apply]
        split <;> rfl
      simpa [toknext, hmap] using h.sizes_le
    toknext_le := by
      simpa [toknext] using h.toknext_le.trans (Nat.le_succ p.pos) }

/-- A pass that only moves on. -/
theorem JsmnParser.Tidy.idle {js : List Char} {p : JsmnParser}
    (h : p.Tidy js) (hlt : p.pos < js.length) {toksuper : Option Nat}
    (hsuper : ∀ i ∈ toksuper, i < p.toknext) :
    JsmnParser.Tidy js { p with pos := p.pos + 1, toksuper } where
  pos_le := hlt
  toksuper_lt := hsuper
  placed := fun t ht => (h.placed t ht).mono (Nat.le_succ _)
  nested := h.nested
  size_lt := h.size_lt
  sizes_le := h.sizes_le
  toknext_le := h.toknext_le.trans (Nat.le_succ p.pos)

/-- `js[pos]` is the character that the loop sees. -/
theorem getElem?_of_peek {js : List Char} {pos : Nat} {c : Char}
    (h : peek js pos = some c) : js[pos]? = some c := by
  rw [peek, Option.filter_eq_some_iff] at h
  exact h.1

theorem JsmnMove.tidy {js : List Char} {p p' : JsmnParser}
    (hmove : JsmnMove js p p') (h : p.Tidy js) : p'.Tidy js := by
  have hvalid := hmove.valid h.toValid
  cases hmove with
  | opened hc hbracket =>
      refine h.push (Nat.lt_succ_self _) hvalid.pos_le (by simp) rfl ?_
        ⟨_, rfl, le_rfl⟩
      refine ⟨p.pos, rfl, Nat.lt_succ_self _, ?_⟩
      have hat := getElem?_of_peek hc
      rcases hbracket with rfl | rfl <;>
        exact ⟨rfl, hat⟩
  | closed hc hbracket hlast ht htype =>
      refine h.close (getElem?_of_peek hc) hbracket hlast ht htype ?_
      simpa [JsmnParser.toknext] using hvalid.toksuper_lt
  | @string stop hc hstop hquote =>
      refine h.push (by omega) hvalid.pos_le ?_ rfl ?_
        ⟨_, rfl, Nat.le_succ _⟩
      · exact fun i hi => Nat.lt_succ_of_lt (h.toksuper_lt i hi)
      · exact ⟨p.pos + 1, rfl, by omega, by omega, Nat.succ_pos _, hstop,
          getElem?_of_peek hc, hquote⟩
  | primitive hstop hle hend =>
      refine h.push hstop hle ?_ rfl ?_ ⟨_, rfl, le_rfl⟩
      · exact fun i hi => Nat.lt_succ_of_lt (h.toksuper_lt i hi)
      · exact ⟨p.pos, rfl, hstop, le_rfl, hstop, hle, hend⟩
  | idle hlt hsuper => exact h.idle hlt hsuper

end FremSoft
