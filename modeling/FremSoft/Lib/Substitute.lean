/-
Replacing every match in a text from left to right, without overlap, as
`str.replace` and `re.sub` do.  A rule says which words are replaced and by
what; where no word can begin or end in a replacement, nothing is left to
replace afterwards.
-/
import Mathlib.Data.List.Infix

namespace FremSoft

universe u

variable {α : Type u}

/-- The text with every match replaced: `scan` gives what stands for the match
in front of a text, and its length.  The first `skip` characters belong to a
match that has been replaced. -/
def substFrom (scan : List α → Option (List α × Nat)) :
    Nat → List α → List α
  | _, [] => []
  | skip + 1, _ :: text => substFrom scan skip text
  | 0, c :: text =>
      match scan (c :: text) with
      | some (chunk, n) => chunk ++ substFrom scan (n - 1) text
      | none => c :: substFrom scan 0 text

def substAll (scan : List α → Option (List α × Nat)) (text : List α) : List α :=
  substFrom scan 0 text

/-- The words that are replaced, and by what. -/
abbrev Rewriting (α : Type u) := List α → List α → Prop

/-- The scanner finds the words of the rule, whatever follows them. -/
structure Finds (scan : List α → Option (List α × Nat)) (R : Rewriting α) :
    Prop where
  sound : ∀ {text chunk : List α} {n : Nat}, scan text = some (chunk, n) →
    ∃ word rest, text = word ++ rest ∧ R word chunk ∧ n = word.length
  complete : ∀ {word chunk : List α}, R word chunk → ∀ rest : List α,
    scan (word ++ rest) = some (chunk, word.length)
  ne_nil : ∀ {word chunk : List α}, R word chunk → word ≠ []

/-- What replacing does: a character stays where no word begins. -/
inductive Substituted (R : Rewriting α) : List α → List α → Prop where
  | nil : Substituted R [] []
  | keep {c : α} {text out : List α}
      (hnone : ∀ word chunk, word <+: c :: text → ¬R word chunk)
      (hrest : Substituted R text out) : Substituted R (c :: text) (c :: out)
  | put {word chunk text out : List α} (hword : R word chunk)
      (hrest : Substituted R text out) :
      Substituted R (word ++ text) (chunk ++ out)

section Scan

variable {scan : List α → Option (List α × Nat)} {R : Rewriting α}

theorem substFrom_length (word rest : List α) :
    substFrom scan word.length (word ++ rest) = substFrom scan 0 rest := by
  induction word with
  | nil => rfl
  | cons c word ih => exact ih

theorem substAll_word (h : Finds scan R) {word chunk : List α}
    (hword : R word chunk) (rest : List α) :
    substAll scan (word ++ rest) = chunk ++ substAll scan rest := by
  obtain ⟨c, word, rfl⟩ := List.exists_cons_of_ne_nil (h.ne_nil hword)
  have hscan := h.complete hword rest
  rw [List.cons_append] at hscan ⊢
  rw [substAll, substFrom, hscan]
  simp only [List.length_cons, Nat.add_sub_cancel, substFrom_length, substAll]

theorem substAll_keep {c : α} {text : List α}
    (hscan : scan (c :: text) = none) :
    substAll scan (c :: text) = c :: substAll scan text := by
  rw [substAll, substFrom, hscan]
  rfl

/-- The scanner does what the rule says. -/
theorem substAll_substituted (h : Finds scan R) (text : List α) :
    Substituted R text (substAll scan text) := by
  induction hlength : text.length using Nat.strong_induction_on
    generalizing text with
  | _ n ih =>
      subst hlength
      cases text with
      | nil => exact .nil
      | cons c text =>
          cases hscan : scan (c :: text) with
          | none =>
              rw [substAll_keep hscan]
              refine .keep (fun word chunk hstart hword => ?_)
                (ih _ (Nat.lt_succ_self _) text rfl)
              obtain ⟨rest, hrest⟩ := hstart
              have hfound := h.complete hword rest
              rw [hrest, hscan] at hfound
              cases hfound
          | some found =>
              obtain ⟨chunk, n⟩ := found
              obtain ⟨word, rest, hsplit, hword, -⟩ := h.sound hscan
              have hpos := List.length_pos_of_ne_nil (h.ne_nil hword)
              rw [hsplit, substAll_word h hword]
              refine .put hword (ih _ ?_ rest rfl)
              rw [hsplit, List.length_append]
              omega

/-- And nothing else is what the rule says. -/
theorem Substituted.eq_substAll (hfinds : Finds scan R) {text out : List α}
    (h : Substituted R text out) : substAll scan text = out := by
  induction h with
  | nil => rfl
  | @keep c text out hnone _ ih =>
      have hscan : scan (c :: text) = none := by
        cases hfound : scan (c :: text) with
        | none => rfl
        | some found =>
            obtain ⟨word, rest, hsplit, hword, -⟩ := hfinds.sound hfound
            exact absurd hword (hnone word _ ⟨rest, hsplit.symm⟩)
      rw [substAll_keep hscan, ih]
  | put hword _ ih => rw [substAll_word hfinds hword, ih]

end Scan

/-! ### What is left to replace -/

/-- No word of the rule is left in the text. -/
def Free (R : Rewriting α) (text : List α) : Prop :=
  ∀ word chunk, word <:+: text → ¬R word chunk

/-- Every word of the rule begins with `first` and ends with `last`. -/
structure Delimited (R : Rewriting α) (first last : α) : Prop where
  head : ∀ {word chunk : List α}, R word chunk → word.head? = some first
  getLast : ∀ {word chunk : List α}, R word chunk → word.getLast? = some last

/-- No word of the rule begins or ends in the chunk: one of its characters is in
no word, no word can end in front of that and none begin behind it. -/
structure Guards (R : Rewriting α) (first last : α) (chunk : List α) :
    Prop where
  split : ∃ front c back, chunk = front ++ c :: back ∧
    (∀ word out, R word out → c ∉ word) ∧ last ∉ front ∧ first ∉ back

section Free

variable {R R' : Rewriting α} {first last : α}

theorem Free.substituted {text out : List α} (hfree : Free R text)
    (h : Substituted R text out) : out = text := by
  induction h with
  | nil => rfl
  | keep hnone _ ih =>
      rw [ih fun word chunk hinside =>
        hfree word chunk (hinside.trans (List.suffix_cons _ _).isInfix)]
  | @put word chunk text out hword _ ih =>
      exact absurd hword
        (hfree word chunk (List.prefix_append word text).isInfix)

/-- A word that begins in a text in front of `rest` begins at one of its
characters. -/
theorem infix_append_cases {word front rest : List α}
    (h : word <:+: front ++ rest) :
    word <:+: rest ∨ ∃ part, part ≠ [] ∧ part <:+ front ∧
      word <+: part ++ rest := by
  induction front with
  | nil => exact .inl h
  | cons c front ih =>
      rcases List.infix_cons_iff.1 h with hhere | hlater
      · exact .inr ⟨c :: front, List.cons_ne_nil _ _, List.suffix_rfl, hhere⟩
      · rcases ih hlater with hrest | ⟨part, hne, hpart, hword⟩
        · exact .inl hrest
        · exact .inr ⟨part, hne, hpart.trans (List.suffix_cons _ _), hword⟩

/-- What ends with `last` and does not hold `c` does not begin in front of
`c`, if there is no `last` in front of `c`. -/
theorem not_prefix_of_guard {word front rest : List α} {c : α}
    (hlast : word.getLast? = some last) (hc : c ∉ word)
    (hfront : last ∉ front) :
    ¬word <+: front ++ c :: rest := by
  intro hstart
  by_cases hlength : word.length ≤ front.length
  · have hshort : word <+: front :=
      List.prefix_of_prefix_length_le hstart (List.prefix_append _ _) hlength
    exact hfront (hshort.subset (List.mem_of_getLast? hlast))
  · have hlong : front ++ [c] <+: word := by
      refine List.prefix_of_prefix_length_le ?_ hstart ?_
      · exact ⟨rest, by simp⟩
      · rw [List.length_append, List.length_singleton]
        omega
    exact hc (hlong.subset (by simp))

/-- No word begins at a character of a chunk that guards. -/
theorem Guards.not_begins {chunk part rest word out : List α}
    (h : Guards R first last chunk) (hdelim : Delimited R first last)
    (hne : part ≠ []) (hpart : part <:+ chunk) (hword : R word out) :
    ¬word <+: part ++ rest := by
  obtain ⟨front, c, back, rfl, hc, hfront, hback⟩ := h.split
  rcases List.suffix_or_suffix_of_suffix hpart
    (List.suffix_append front (c :: back)) with hin | hover
  · rcases List.suffix_cons_iff.1 hin with rfl | hbehind
    · exact @not_prefix_of_guard _ last word [] (back ++ rest) c
        (hdelim.getLast hword) (hc word out hword) List.not_mem_nil
    · intro hstart
      obtain ⟨d, part, rfl⟩ := List.exists_cons_of_ne_nil hne
      have hhead := hdelim.head hword
      obtain ⟨tail, htail⟩ := hstart
      cases word with
      | nil => cases hhead
      | cons x word =>
          obtain rfl := Option.some.inj hhead
          obtain ⟨rfl, -⟩ := List.cons.inj htail
          exact hback (hbehind.subset List.mem_cons_self)
  · obtain ⟨front', rfl⟩ := hover
    obtain ⟨start, hstart⟩ := hpart
    rw [← List.append_assoc] at hstart
    have hsplit := List.append_cancel_right hstart
    rw [List.append_assoc, List.cons_append]
    refine not_prefix_of_guard (hdelim.getLast hword) (hc word out hword) ?_
    intro hmem
    exact hfront (hsplit ▸ List.mem_append_right _ hmem)

/-- The end of a word that comes out of replacing was there before. -/
theorem Substituted.prefix_back (hdelim : Delimited R first last)
    (hguards : ∀ word chunk, R' word chunk → Guards R first last chunk)
    {text out : List α} (h : Substituted R' text out) {word chunk done : List α}
    (hword : R (done ++ word) chunk) (hstart : word <+: out) :
    word <+: text := by
  induction h generalizing word done with
  | nil => exact hstart
  | @keep c text out _ _ ih =>
      cases word with
      | nil => exact List.nil_prefix
      | cons d word =>
          obtain ⟨rfl, hrest⟩ := List.cons_prefix_cons.1 hstart
          refine List.cons_prefix_cons.2 ⟨rfl, @ih word (done ++ [d]) ?_ hrest⟩
          rwa [List.append_assoc, List.singleton_append]
  | @put word' chunk' text out hword' _ ih =>
      obtain ⟨front, c, back, rfl, hc, hfront, -⟩ :=
        (hguards word' chunk' hword').split
      by_cases hnil : word = []
      · rw [hnil]
        exact List.nil_prefix
      · have hlast : word.getLast? = some last := by
          rw [← hdelim.getLast hword, List.getLast?_append_of_ne_nil _ hnil]
        rw [List.append_assoc, List.cons_append] at hstart
        refine absurd hstart (not_prefix_of_guard hlast (fun hmem => ?_) hfront)
        exact hc _ _ hword (List.mem_append_right _ hmem)

/-- Replacing leaves a text free of the words of a rule, if it keeps none of
them and its chunks guard against them. -/
theorem Substituted.free_of_keep (hdelim : Delimited R first last)
    (hguards : ∀ word chunk, R' word chunk → Guards R first last chunk)
    {text out : List α} (h : Substituted R' text out)
    (hkeep : ∀ c rest, c :: rest <:+ text →
      (∀ word chunk, word <+: c :: rest → ¬R' word chunk) →
      ∀ word chunk, word <+: c :: rest → ¬R word chunk) : Free R out := by
  induction h with
  | nil =>
      intro word chunk hinside hword
      obtain rfl := List.eq_nil_of_infix_nil hinside
      have hhead := hdelim.head hword
      cases hhead
  | @keep c text out hnone hrest ih =>
      have hlater := ih fun d rest hsuffix =>
        hkeep d rest (hsuffix.trans (List.suffix_cons _ _))
      intro word chunk hinside hword
      rcases List.infix_cons_iff.1 hinside with hhere | hinside
      · cases word with
        | nil =>
            have hhead := hdelim.head hword
            cases hhead
        | cons d word =>
            obtain ⟨rfl, htail⟩ := List.cons_prefix_cons.1 hhere
            have hback := @Substituted.prefix_back _ R R' first last hdelim
              hguards text out hrest word chunk [d] hword htail
            exact hkeep d text List.suffix_rfl hnone _ chunk
              (List.cons_prefix_cons.2 ⟨rfl, hback⟩) hword
      · exact hlater word chunk hinside hword
  | @put word' chunk' text out hword' _ ih =>
      have hlater := ih fun d rest hsuffix =>
        hkeep d rest (hsuffix.trans (List.suffix_append _ _))
      intro word chunk hinside hword
      rcases infix_append_cases hinside with hinside | ⟨part, hne, hpart, hstart⟩
      · exact hlater word chunk hinside hword
      · exact (hguards word' chunk' hword').not_begins hdelim hne hpart hword
          hstart

/-- Nothing is left of a rule that guards itself. -/
theorem Substituted.free (hdelim : Delimited R first last)
    (hguards : ∀ word chunk, R word chunk → Guards R first last chunk)
    {text out : List α} (h : Substituted R text out) : Free R out :=
  h.free_of_keep hdelim hguards fun _ _ _ hnone => hnone

/-- A rule that guards against another brings none of its words back. -/
theorem Free.substituted_free (hdelim : Delimited R first last)
    (hguards : ∀ word chunk, R' word chunk → Guards R first last chunk)
    {text out : List α} (hfree : Free R text) (h : Substituted R' text out) :
    Free R out :=
  h.free_of_keep hdelim hguards fun _ _ hsuffix _ word chunk hstart =>
    hfree word chunk (hstart.isInfix.trans hsuffix.isInfix)

end Free

/-! ### What is kept -/

/-- Every word of the rule holds `mark` and then `next`, and nothing but
characters of `pre` in front of them. -/
def Marked (R : Rewriting α) (pre : α → Bool) (mark next : α) : Prop :=
  pre mark = false ∧ ∀ word chunk, R word chunk →
    ∃ front back, word = front ++ mark :: next :: back ∧
      ∀ c ∈ front, pre c = true

section Keep

variable {R : Rewriting α}

/-- A part of the text that becomes another one, whatever stands behind it. -/
def Passes (R : Rewriting α) (part part' : List α) : Prop :=
  ∀ rest out, Substituted R rest out →
    Substituted R (part ++ rest) (part' ++ out)

theorem Passes.substituted {part part' : List α} (h : Passes R part part') :
    Substituted R part part' := by
  simpa using h [] [] .nil

theorem Passes.append {a a' b b' : List α} (ha : Passes R a a')
    (hb : Passes R b b') : Passes R (a ++ b) (a' ++ b') := by
  intro rest out h
  rw [List.append_assoc, List.append_assoc]
  exact ha _ _ (hb _ _ h)

theorem Passes.flatMap {β : Type*} {l : List β} {f g : β → List α}
    (h : ∀ x ∈ l, Passes R (f x) (g x)) :
    Passes R (l.flatMap f) (l.flatMap g) := by
  induction l with
  | nil => exact fun _ _ hrest => hrest
  | cons x l ih =>
      exact (h x List.mem_cons_self).append
        (ih fun y hy => h y (List.mem_cons_of_mem x hy))

theorem Passes.word {word chunk : List α} (h : R word chunk) :
    Passes R word chunk := fun _ _ hrest => .put h hrest

end Keep

section Settled

variable [DecidableEq α]

/-- The first character that is not of `pre` shows that no word begins here. -/
def settledHere (pre : α → Bool) (mark next : α) : List α → Bool
  | [] => false
  | c :: rest =>
      if pre c then settledHere pre mark next rest
      else if c = mark then
        match rest with
        | [] => false
        | d :: _ => d != next
      else true

/-- No word begins in the text, whatever stands behind it. -/
def settled (pre : α → Bool) (first mark next : α) : List α → Bool
  | [] => true
  | c :: rest =>
      (c != first || settledHere pre mark next (c :: rest)) &&
        settled pre first mark next rest

variable {R : Rewriting α} {pre : α → Bool} {first last mark next : α}

theorem not_prefix_of_settledHere (hmark : pre mark = false)
    {part rest front back : List α}
    (h : settledHere pre mark next part = true)
    (hfront : ∀ c ∈ front, pre c = true) :
    ¬front ++ mark :: next :: back <+: part ++ rest := by
  induction part generalizing front with
  | nil => cases h
  | cons c part ih =>
      intro hstart
      rw [settledHere.eq_def] at h
      simp only at h
      cases front with
      | nil =>
          obtain ⟨rfl, htail⟩ := List.cons_prefix_cons.1 hstart
          rw [if_neg (by simp [hmark]), if_pos rfl] at h
          cases part with
          | nil => cases h
          | cons d part =>
              obtain ⟨rfl, -⟩ := List.cons_prefix_cons.1 htail
              simp at h
      | cons d front =>
          obtain ⟨rfl, htail⟩ := List.cons_prefix_cons.1 hstart
          rw [if_pos (hfront d List.mem_cons_self)] at h
          exact ih h (fun c hc => hfront c (List.mem_cons_of_mem d hc)) htail

/-- No word begins in front of such a place, if there is no `mark` up to it. -/
theorem not_word_of_settledHere (hmarked : Marked R pre mark next)
    {part tail rest word chunk : List α} (hpart : mark ∉ part)
    (h : settledHere pre mark next tail = true)
    (hstart : word <+: part ++ (tail ++ rest)) : ¬R word chunk := by
  intro hword
  obtain ⟨front, back, rfl, hfront⟩ := hmarked.2 word chunk hword
  obtain ⟨behind, hbehind⟩ := hstart
  rw [List.append_assoc] at hbehind
  rcases List.append_eq_append_iff.1 hbehind with
    ⟨more, rfl, hmore⟩ | ⟨more, rfl, hmore⟩
  · cases more with
    | nil =>
        exact not_prefix_of_settledHere hmarked.1 h (List.forall_mem_nil _)
          ⟨behind, hmore⟩
    | cons d more =>
        obtain ⟨rfl, -⟩ := List.cons.inj hmore
        exact hpart (by simp)
  · have hword' : more ++ mark :: next :: back <+: tail ++ rest :=
      ⟨behind, by rw [hmore, List.append_assoc]⟩
    exact not_prefix_of_settledHere hmarked.1 h
      (fun c hc => hfront c (List.mem_append_right _ hc)) hword'

theorem Passes.of_settled (hdelim : Delimited R first last)
    (hmarked : Marked R pre mark next) {part : List α}
    (h : settled pre first mark next part = true) : Passes R part part := by
  induction part with
  | nil => exact fun _ _ hrest => hrest
  | cons c part ih =>
      rw [settled, Bool.and_eq_true, Bool.or_eq_true, bne_iff_ne] at h
      intro rest out hrest
      refine .keep (fun word chunk hstart hword => ?_) (ih h.2 rest out hrest)
      rcases h.1 with hne | hhere
      · have hhead := hdelim.head hword
        cases word with
        | nil => cases hhead
        | cons d word =>
            obtain rfl := Option.some.inj hhead
            exact hne (List.cons_prefix_cons.1 hstart).1.symm
      · exact @not_word_of_settledHere _ _ R pre mark next hmarked [] _ rest
          word chunk List.not_mem_nil hhere hstart hword

/-- Any text without `mark`, and a settled one that shows that no word begins in
the text. -/
theorem Passes.append_settled (hdelim : Delimited R first last)
    (hmarked : Marked R pre mark next) {part tail : List α}
    (hpart : mark ∉ part) (hhere : settledHere pre mark next tail = true)
    (hsettled : settled pre first mark next tail = true) :
    Passes R (part ++ tail) (part ++ tail) := by
  induction part with
  | nil => exact .of_settled hdelim hmarked hsettled
  | cons c part ih =>
      intro rest out hrest
      have hnone : ∀ word chunk, word <+: c :: part ++ (tail ++ rest) →
          ¬R word chunk := fun word chunk hstart =>
        not_word_of_settledHere hmarked hpart hhere hstart
      rw [← List.append_assoc] at hnone
      exact .keep hnone
        (ih (fun hmem => hpart (List.mem_cons_of_mem c hmem)) rest out hrest)

end Settled

/-! ### Literals -/

section Literal

variable [DecidableEq α]

def replaceScan (old new text : List α) : Option (List α × Nat) :=
  if old.isPrefixOf text then some (new, old.length) else none

def literal (old new : List α) : Rewriting α :=
  fun word chunk => word = old ∧ chunk = new

theorem replaceScan_finds {old : List α} (hne : old ≠ []) (new : List α) :
    Finds (replaceScan old new) (literal old new) where
  sound {text chunk n} h := by
    rw [replaceScan] at h
    split at h
    · next hstart =>
      obtain ⟨rest, hrest⟩ := List.isPrefixOf_iff_prefix.1 hstart
      obtain ⟨rfl, rfl⟩ := Prod.mk.inj (Option.some.inj h)
      exact ⟨old, rest, hrest.symm, ⟨rfl, rfl⟩, rfl⟩
    · cases h
  complete {word chunk} h rest := by
    obtain ⟨rfl, rfl⟩ := h
    exact if_pos (List.isPrefixOf_iff_prefix.2 (List.prefix_append _ _))
  ne_nil h := by
    rw [h.1]
    exact hne

end Literal

end FremSoft
