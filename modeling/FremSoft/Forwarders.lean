/-
The forwarders of the shim.  `gen_shim.py` writes them from the export table of
the real DLL in the syntax of one compiler, and `fix_msvc.py` rewrites the text
for another.  For every table the rewritten file is the same file with the other
syntax in each stub, and whatever a file holds, rewriting it again changes
nothing.
-/
import FremSoft.BuildRecording
import FremSoft.Lib.Substitute

namespace FremSoft

/-! ### The generator -/

structure ExportSymbol where
  ordinal : Nat
  name : Option (List Char)

/-- `INSTRUMENTED`: the functions that are wrapped by hand. -/
def instrumented : List (List Char) :=
  ["PDUStartComPrimitive".toList, "PDUGetEventItem".toList,
    "PDURegisterEventCallback".toList, "PDUIoCtl".toList,
    "PDUSetComParam".toList, "PDUConstruct".toList, "PDUDestruct".toList]

def namedExports (symbols : List ExportSymbol) : List (Nat × List Char) :=
  (symbols.filterMap fun e =>
    match e.name with
    | none | some [] => none
    | some name => some (e.ordinal, name)).mergeSort fun a b => a.1 ≤ b.1

def passthrough (symbols : List ExportSymbol) : List (Nat × List Char) :=
  (namedExports symbols).filter fun e => !instrumented.contains e.2

def forwardersHead : List Char :=
  "// Auto-generated by gen_shim.py — DO NOT EDIT BY HAND\n".toList ++
    ("// Forwarders for D-PDU exports that we don't instrument.\n".toList ++
    ("// Each stub is naked: it jumps to the resolved real-DLL function\n".toList ++
    ("// pointer with the original stack intact, so the calling convention\n".toList ++
    ("// (__stdcall, varies arg count) is preserved without our knowing it.\n".toList ++
    "\n#include \"shim.h\"\n\n".toList))))

def pointerLine (e : Nat × List Char) : List Char :=
  "FARPROC g_real_".toList ++ (e.2 ++ " = NULL;\n".toList)

def resolveLine (e : Nat × List Char) : List Char :=
  "    g_real_".toList ++ (e.2 ++ (" = GetProcAddress(hReal, \"".toList ++
    (e.2 ++ "\");\n".toList)))

/-- A stub, with what makes it naked and what it does. -/
def forwarderStub (naked : List Char) (jump : List Char → List Char)
    (e : Nat × List Char) : List Char :=
  "// ".toList ++ (e.2 ++ (" (ord ".toList ++
    (writeDigits lowerDigit 10 e.1 ++ (") — forwarder\n".toList ++
      (naked ++ (" void ".toList ++ (e.2 ++ ("(void) \x7b\n    ".toList ++
        (jump e.2 ++ "\n\x7d\n\n".toList)))))))))

/-- `forwarders.c` for the exports that are passed through. -/
def forwardersText (naked : List Char) (jump : List Char → List Char)
    (exports : List (Nat × List Char)) : List Char :=
  forwardersHead ++ (exports.flatMap pointerLine ++
    ("\nvoid resolve_passthrough_exports(HMODULE hReal) \x7b\n".toList ++
      (exports.flatMap resolveLine ++ ("\x7d\n\n".toList ++
        exports.flatMap (forwarderStub naked jump)))))

def gccNaked : List Char := "__attribute__((naked))".toList

def gccJump (name : List Char) : List Char :=
  "__asm__ __volatile__ (\n        \"jmp *%0\\n\"\n        : : \"m\" (g_real_".toList ++
    (name ++ ")\n    );".toList)

def genForwarders (symbols : List ExportSymbol) : List Char :=
  forwardersText gccNaked gccJump (passthrough symbols)

/-! ### The rewriting -/

def msvcNaked : List Char := "__declspec(naked)".toList

def msvcJump (name : List Char) : List Char :=
  "__asm \x7b jmp dword ptr [g_real_".toList ++ (name ++ "] \x7d".toList)

/-- `[a-zA-Z0-9_]` -/
def isNameChar (c : Char) : Bool :=
  decide ((0x61 ≤ c.toNat ∧ c.toNat ≤ 0x7A) ∨
    (0x41 ≤ c.toNat ∧ c.toNat ≤ 0x5A) ∨ (0x30 ≤ c.toNat ∧ c.toNat ≤ 0x39) ∨
    c.toNat = 0x5F)

/-- `\s*` and a literal, for each literal. -/
def matchBlanked : List (List Char) → List Char → Option (List Char)
  | [], text => some text
  | piece :: pieces, text =>
      (matchText piece (text.dropWhile isRegexSpace)).bind (matchBlanked pieces)

/-- The literals of `pattern` in front of its group, but the first. -/
def asmPieces : List (List Char) :=
  ["__volatile__".toList, "(".toList, "\"jmp".toList, "*%0\\n\"".toList,
    ":".toList, ":".toList, "\"m\"".toList, "(g_real_".toList]

/-- A match of `pattern`: what its group holds behind `g_real_`, and the rest of
the text. -/
def matchAsm (text : List Char) : Option (List Char × List Char) := do
  let rest ← matchText "__asm__".toList text
  let rest ← matchBlanked asmPieces rest
  let name := rest.takeWhile isNameChar
  if name = [] then none
  else
    let rest ← matchText [')'] (rest.dropWhile isNameChar)
    let rest ← matchBlanked [");".toList] rest
    return (name, rest)

def asmScan (text : List Char) : Option (List Char × Nat) :=
  (matchAsm text).map fun found =>
    (msvcJump found.1, text.length - found.2.length)

def fixMsvc (text : List Char) : List Char :=
  substAll asmScan (substAll (replaceScan gccNaked msvcNaked) text)

/-! ### The two rules -/

inductive Blanked : List (List Char) → List Char → Prop where
  | nil : Blanked [] []
  | cons {blanks piece text : List Char} {pieces : List (List Char)}
      (hblanks : ∀ c ∈ blanks, isRegexSpace c = true)
      (hrest : Blanked pieces text) :
      Blanked (piece :: pieces) (blanks ++ (piece ++ text))

/-- A text that `pattern` matches, and what replaces it. -/
def asmRule : Rewriting Char := fun word chunk =>
  ∃ gap name tail, Blanked asmPieces gap ∧ name ≠ [] ∧
    (∀ c ∈ name, isNameChar c = true) ∧ Blanked [");".toList] tail ∧
    word = "__asm__".toList ++ (gap ++ (name ++ ')' :: tail)) ∧
    chunk = msvcJump name

def nakedRule : Rewriting Char := literal gccNaked msvcNaked

theorem matchBlanked_eq_some {pieces : List (List Char)} {text rest : List Char}
    (h : matchBlanked pieces text = some rest) :
    ∃ front, Blanked pieces front ∧ text = front ++ rest := by
  induction pieces generalizing text with
  | nil => exact ⟨[], .nil, Option.some.inj h⟩
  | cons piece pieces ih =>
      obtain ⟨behind, hpiece, hmore⟩ := Option.bind_eq_some_iff.1 h
      obtain ⟨front, hfront, rfl⟩ := ih hmore
      refine ⟨text.takeWhile isRegexSpace ++ (piece ++ front),
        .cons (fun c hc => List.mem_takeWhile_imp hc) hfront, ?_⟩
      have hsplit := matchText_eq_some hpiece
      rw [List.append_assoc, List.append_assoc, ← hsplit,
        List.takeWhile_append_dropWhile]

theorem Blanked.of_match {pieces : List (List Char)} {text : List Char}
    (h : matchBlanked pieces text = some []) : Blanked pieces text := by
  obtain ⟨front, hfront, rfl⟩ := matchBlanked_eq_some h
  rwa [List.append_nil]

theorem dropWhile_blanks {p : Char → Bool} {blanks : List Char}
    (hblanks : ∀ c ∈ blanks, p c = true) {c : Char} (hc : p c = false)
    (rest : List Char) : (blanks ++ c :: rest).dropWhile p = c :: rest := by
  rw [List.dropWhile_append_of_pos hblanks, List.dropWhile_cons_of_neg]
  simp [hc]

theorem matchBlanked_append {pieces : List (List Char)} {front : List Char}
    (h : Blanked pieces front)
    (hpieces : ∀ piece ∈ pieces, ∃ c ∈ piece.head?, isRegexSpace c = false)
    (rest : List Char) : matchBlanked pieces (front ++ rest) = some rest := by
  induction h with
  | nil => rfl
  | @cons blanks piece text pieces hblanks _ ih =>
      obtain ⟨c, hc, hspace⟩ := hpieces piece List.mem_cons_self
      obtain ⟨piece', rfl⟩ := List.head?_eq_some_iff.1 hc
      rw [matchBlanked, List.append_assoc, List.append_assoc, List.cons_append,
        dropWhile_blanks hblanks hspace, ← List.cons_append, matchText_append]
      exact ih fun p hp => hpieces p (List.mem_cons_of_mem _ hp)

theorem blank_pieces : ∀ piece ∈ asmPieces,
    ∃ c ∈ piece.head?, isRegexSpace c = false := by
  simp [asmPieces, isRegexSpace]

theorem blank_last : ∀ piece ∈ [");".toList],
    ∃ c ∈ piece.head?, isRegexSpace c = false := by
  simp [isRegexSpace]

theorem matchAsm_eq_some {text name rest : List Char}
    (h : matchAsm text = some (name, rest)) :
    ∃ word, text = word ++ rest ∧ asmRule word (msvcJump name) := by
  simp only [matchAsm, Option.bind_eq_bind, Option.bind_eq_some_iff] at h
  obtain ⟨rest₁, hasm, rest₂, hgap, h⟩ := h
  split at h
  · cases h
  · next hne =>
    simp only [Option.bind_eq_some_iff] at h
    obtain ⟨rest₃, hclose, rest₄, htail, hpair⟩ := h
    obtain ⟨rfl, rfl⟩ := Prod.mk.inj (Option.some.inj hpair)
    obtain ⟨gap, hblanked, rfl⟩ := matchBlanked_eq_some hgap
    obtain ⟨tail, hlast, rfl⟩ := matchBlanked_eq_some htail
    have hname : rest₂ =
        rest₂.takeWhile isNameChar ++ ')' :: (tail ++ rest₄) := by
      conv_lhs => rw [← @List.takeWhile_append_dropWhile _ isNameChar rest₂]
      rw [matchText_eq_some hclose]
      rfl
    refine ⟨_, ?_, gap, _, tail, hblanked, hne,
      fun c hc => List.mem_takeWhile_imp hc, hlast, rfl, rfl⟩
    rw [matchText_eq_some hasm]
    simp only [List.append_assoc, List.cons_append]
    rw [← hname]

theorem matchAsm_append {word chunk : List Char} (h : asmRule word chunk)
    (rest : List Char) :
    ∃ name, chunk = msvcJump name ∧
      matchAsm (word ++ rest) = some (name, rest) := by
  obtain ⟨gap, name, tail, hgap, hne, hname, htail, rfl, rfl⟩ := h
  have hclose : isNameChar ')' = false := by decide
  have htake : (name ++ ')' :: (tail ++ rest)).takeWhile isNameChar = name := by
    rw [List.takeWhile_append_of_pos hname, List.takeWhile_cons_of_neg (by
      simp [hclose]), List.append_nil]
  refine ⟨name, rfl, ?_⟩
  simp only [matchAsm, List.append_assoc, matchText_append,
    matchBlanked_append hgap blank_pieces, List.cons_append, htake, hne,
    dropWhile_blanks hname hclose, Option.bind_eq_bind, Option.bind_some,
    if_false]
  have hparen : matchText [')'] (')' :: (tail ++ rest)) = some (tail ++ rest) :=
    matchText_append [')'] _
  simp only [hparen, Option.bind_some, matchBlanked_append htail blank_last]
  rfl

theorem asmScan_finds : Finds asmScan asmRule where
  sound {text chunk n} h := by
    obtain ⟨⟨name, rest⟩, hfound, heq⟩ := Option.map_eq_some_iff.1 h
    obtain ⟨rfl, rfl⟩ := Prod.mk.inj heq
    obtain ⟨word, rfl, hword⟩ := matchAsm_eq_some hfound
    exact ⟨word, rest, rfl, hword, by simp⟩
  complete {word chunk} h rest := by
    obtain ⟨name, rfl, hfound⟩ := matchAsm_append h rest
    simp [asmScan, hfound]
  ne_nil h := by
    obtain ⟨gap, name, tail, -, -, -, -, rfl, -⟩ := h
    exact List.append_ne_nil_of_left_ne_nil (by decide) _

/-! ### Where words begin and end -/

theorem naked_delimited : Delimited nakedRule '_' ')' where
  head h := by rw [h.1]; rfl
  getLast h := by rw [h.1]; rfl

/-- What stands in front of the two brackets of `gccNaked`. -/
def nakedPre (c : Char) : Bool :=
  ['_', 'a', 't', 'r', 'i', 'b', 'u', 'e'].contains c

theorem naked_marked : Marked nakedRule nakedPre '(' '(' := by
  refine ⟨rfl, fun word chunk h => ⟨"__attribute__".toList,
    "naked))".toList, ?_, List.forall_iff_forall_mem.1 (by decide)⟩⟩
  rw [h.1]
  rfl

theorem Blanked.chars {P : Char → Prop} {pieces : List (List Char)}
    {text : List Char} (h : Blanked pieces text)
    (hspace : ∀ c, isRegexSpace c = true → P c)
    (hpieces : ∀ piece ∈ pieces, ∀ c ∈ piece, P c) : ∀ c ∈ text, P c := by
  induction h with
  | nil => exact List.forall_mem_nil _
  | cons hblanks _ ih =>
      intro c hc
      rcases List.mem_append.1 hc with hc | hc
      · exact hspace c (hblanks c hc)
      · rcases List.mem_append.1 hc with hc | hc
        · exact hpieces _ List.mem_cons_self c hc
        · exact ih (fun p hp => hpieces p (List.mem_cons_of_mem _ hp)) c hc

/-- No word of the assembler rule holds a brace. -/
theorem asm_brace {word chunk : List Char} (h : asmRule word chunk) :
    '}' ∉ word := by
  obtain ⟨gap, name, tail, hgap, -, hname, htail, rfl, -⟩ := h
  have hspace : ∀ c, isRegexSpace c = true → c ≠ '}' := by
    rintro c hc rfl
    exact absurd hc (by decide)
  have hbrace : isNameChar '}' = false := by decide
  have hgapChars := hgap.chars hspace (by simp [asmPieces])
  have htailChars := htail.chars hspace (by simp)
  intro hmem
  simp only [List.mem_append, List.mem_cons] at hmem
  rcases hmem with hmem | hmem | hmem | hmem | hmem
  · exact absurd hmem (by decide)
  · exact hgapChars _ hmem rfl
  · simp [hname _ hmem] at hbrace
  · exact absurd hmem (by decide)
  · exact htailChars _ hmem rfl

theorem asm_delimited : Delimited asmRule '_' ';' where
  head h := by
    obtain ⟨gap, name, tail, -, -, -, -, rfl, -⟩ := h
    rfl
  getLast h := by
    obtain ⟨gap, name, tail, -, -, -, htail, rfl, -⟩ := h
    cases htail with
    | @cons blanks _ _ _ hblanks hrest =>
        cases hrest
        have hsplit : "__asm__".toList ++ (gap ++ (name ++ ')' ::
            (blanks ++ (");".toList ++ [])))) = ("__asm__".toList ++ (gap ++
              (name ++ ')' :: (blanks ++ [')'])))) ++ [';'] := by simp
        rw [hsplit, List.getLast?_concat]

/-- What stands in front of the first quotation mark of `pattern`. -/
def asmPre (c : Char) : Bool :=
  isRegexSpace c ||
    ['_', 'a', 's', 'm', 'v', 'o', 'l', 't', 'i', 'e', '('].contains c

theorem asm_marked : Marked asmRule asmPre '"' 'j' := by
  refine ⟨by decide, fun word chunk h => ?_⟩
  obtain ⟨gap, name, tail, hgap, -, -, -, rfl, -⟩ := h
  rw [asmPieces] at hgap
  cases hgap with
  | @cons b₁ _ _ _ hb₁ hgap =>
      cases hgap with
      | @cons b₂ _ _ _ hb₂ hgap =>
          cases hgap with
          | @cons b₃ _ more _ hb₃ _ =>
              refine ⟨"__asm__".toList ++ (b₁ ++ ("__volatile__".toList ++
                (b₂ ++ ("(".toList ++ b₃)))), "mp".toList ++ (more ++ (name ++
                  ')' :: tail)), ?_, fun c hc => ?_⟩
              · simp
              · simp only [List.mem_append] at hc
                rw [asmPre, Bool.or_eq_true, List.contains_iff_mem]
                rcases hc with hc | hc | hc | hc | hc | hc
                · exact .inr (by simp at hc ⊢; tauto)
                · exact .inl (hb₁ c hc)
                · exact .inr (by simp at hc ⊢; tauto)
                · exact .inl (hb₂ c hc)
                · exact .inr (by simp at hc ⊢; tauto)
                · exact .inl (hb₃ c hc)

/-- No word of a rule begins or ends in what replaces the assembler text. -/
theorem msvcJump_guards {R : Rewriting Char} {first last : Char}
    (hbrace : ∀ word chunk, R word chunk → '\x7d' ∉ word)
    (hlast : last ∉ "__asm \x7b jmp dword ptr [g_real_".toList ++ "] ".toList)
    (hother : isNameChar last = false) {name : List Char}
    (hname : ∀ c ∈ name, isNameChar c = true) :
    Guards R first last (msvcJump name) := by
  refine ⟨⟨"__asm \x7b jmp dword ptr [g_real_".toList ++ (name ++ "] ".toList),
    '\x7d', [], ?_, hbrace, ?_, List.not_mem_nil⟩⟩
  · have hend : "] \x7d".toList = "] ".toList ++ ['\x7d'] := rfl
    unfold msvcJump
    simp only [hend, List.append_assoc]
  · intro hmem
    rcases List.mem_append.1 hmem with hmem | hmem
    · exact hlast (List.mem_append_left _ hmem)
    · rcases List.mem_append.1 hmem with hmem | hmem
      · simp [hname last hmem] at hother
      · exact hlast (List.mem_append_right _ hmem)

theorem naked_guards : Guards nakedRule '_' ')' msvcNaked := by
  refine ⟨⟨"__de".toList, 'c', "lspec(naked)".toList, rfl,
    fun word chunk h => ?_, by decide, by decide⟩⟩
  rw [h.1]
  decide

/-! ### Rewriting twice -/

/-- Whatever the file holds, nothing is left to rewrite in it afterwards. -/
theorem fixMsvc_free (text : List Char) :
    Free nakedRule (fixMsvc text) ∧ Free asmRule (fixMsvc text) := by
  have hnaked : Free nakedRule
      (substAll (replaceScan gccNaked msvcNaked) text) := by
    refine (substAll_substituted (replaceScan_finds (by decide) _) text).free
      naked_delimited fun word chunk h => ?_
    rw [h.2]
    exact naked_guards
  have hasm := substAll_substituted asmScan_finds
    (substAll (replaceScan gccNaked msvcNaked) text)
  refine ⟨hnaked.substituted_free naked_delimited (fun word chunk h => ?_) hasm,
    hasm.free asm_delimited fun word chunk h => ?_⟩
  · obtain ⟨gap, name, tail, -, -, hname, -, -, rfl⟩ := h
    refine msvcJump_guards (fun word chunk h => ?_) (by decide) (by decide)
      hname
    rw [h.1]
    decide
  · obtain ⟨gap, name, tail, -, -, hname, -, -, rfl⟩ := h
    exact msvcJump_guards (fun word chunk h => asm_brace h) (by decide)
      (by decide) hname

/-- Nothing is left to rewrite, so rewriting a file a second time changes
nothing, whatever it holds. -/
theorem fixMsvc_fixMsvc (text : List Char) :
    (Free nakedRule (fixMsvc text) ∧ Free asmRule (fixMsvc text)) ∧
      fixMsvc (fixMsvc text) = fixMsvc text := by
  refine ⟨fixMsvc_free text, ?_⟩
  obtain ⟨hnaked, hasm⟩ := fixMsvc_free text
  have hfirst : substAll (replaceScan gccNaked msvcNaked) (fixMsvc text) =
      fixMsvc text :=
    hnaked.substituted (substAll_substituted
      (replaceScan_finds (by decide) _) _)
  have hsecond : substAll asmScan (fixMsvc text) = fixMsvc text :=
    hasm.substituted (substAll_substituted asmScan_finds _)
  calc fixMsvc (fixMsvc text)
      = substAll asmScan
          (substAll (replaceScan gccNaked msvcNaked) (fixMsvc text)) := rfl
    _ = substAll asmScan (fixMsvc text) := by rw [hfirst]
    _ = fixMsvc text := hsecond

/-! ### What is generated -/

/-- The fixed texts of the file that stand by themselves. -/
def textsAlone : List (List Char) :=
  [forwardersHead,
    "\nvoid resolve_passthrough_exports(HMODULE hReal) \x7b\n".toList,
    "\x7d\n\n".toList, "// ".toList, " void ".toList, "\n\x7d\n\n".toList]

/-- Those that stand behind a name or a number. -/
def textsBehind : List (List Char) :=
  [" = NULL;\n".toList, " = GetProcAddress(hReal, \"".toList, "\");\n".toList,
    " (ord ".toList, ") — forwarder\n".toList, "(void) \x7b\n    ".toList]

/-- A rule has no word in the text of the file but for its stubs. -/
structure LeavesText (R : Rewriting Char) (pre : Char → Bool)
    (first last mark next : Char) : Prop where
  delimited : Delimited R first last
  marked : Marked R pre mark next
  name : isNameChar mark = false
  fields : mark ∉ "FARPROC g_real_".toList ++ "    g_real_".toList
  alone : ∀ text ∈ textsAlone, settled pre first mark next text = true
  behind : ∀ text ∈ textsBehind, settledHere pre mark next text = true ∧
    settled pre first mark next text = true

theorem naked_leaves : LeavesText nakedRule nakedPre '_' ')' '(' '(' where
  delimited := naked_delimited
  marked := naked_marked
  name := by decide
  fields := by decide
  alone := by decide +kernel
  behind := by decide +kernel

theorem asm_leaves : LeavesText asmRule asmPre '_' ';' '"' 'j' where
  delimited := asm_delimited
  marked := asm_marked
  name := by decide
  fields := by decide
  alone := by decide +kernel
  behind := by decide +kernel

section Leaves

variable {R : Rewriting Char} {pre : Char → Bool} {first last mark next : Char}

theorem LeavesText.passes (h : LeavesText R pre first last mark next)
    {text : List Char} (htext : text ∈ textsAlone) : Passes R text text :=
  .of_settled h.delimited h.marked (h.alone text htext)

theorem LeavesText.passes_behind (h : LeavesText R pre first last mark next)
    {part text : List Char} (hpart : mark ∉ part) (htext : text ∈ textsBehind) :
    Passes R (part ++ text) (part ++ text) :=
  .append_settled h.delimited h.marked hpart (h.behind text htext).1
    (h.behind text htext).2

theorem LeavesText.not_mem_name (h : LeavesText R pre first last mark next)
    {name : List Char} (hname : ∀ c ∈ name, isNameChar c = true) :
    mark ∉ name := by
  intro hmem
  have hmark := h.name
  rw [hname mark hmem] at hmark
  cases hmark

theorem isNameChar_digit {c : Char} (h : isDigitOf 10 c = true) :
    isNameChar c = true := by
  rw [isDigitOf] at h
  split at h
  · next d hd =>
    have hlt := of_decide_eq_true h
    rw [digitValue?] at hd
    rw [isNameChar, decide_eq_true_eq]
    split_ifs at hd <;> simp only [Option.some.injEq] at hd <;> omega
  · cases h

theorem LeavesText.stub (h : LeavesText R pre first last mark next)
    {naked naked' : List Char} {jump jump' : List Char → List Char}
    {e : Nat × List Char} (hname : ∀ c ∈ e.2, isNameChar c = true)
    (hnaked : Passes R naked naked') (hjump : Passes R (jump e.2) (jump' e.2)) :
    Passes R (forwarderStub naked jump e) (forwarderStub naked' jump' e) := by
  have hfree := h.not_mem_name hname
  have hdigits : mark ∉ writeDigits lowerDigit 10 e.1 := h.not_mem_name
    fun c hc => isNameChar_digit (isDigitOf_decimal e.1 c hc)
  have hord := @LeavesText.passes_behind _ _ _ _ _ _ h e.2 " (ord ".toList hfree
    (by simp [textsBehind])
  have hforwarder := @LeavesText.passes_behind _ _ _ _ _ _ h _
    ") — forwarder\n".toList hdigits (by simp [textsBehind])
  have hopen := @LeavesText.passes_behind _ _ _ _ _ _ h e.2
    "(void) \x7b\n    ".toList hfree (by simp [textsBehind])
  have hslashes := @LeavesText.passes _ _ _ _ _ _ h "// ".toList
    (by simp [textsAlone])
  have hvoid := @LeavesText.passes _ _ _ _ _ _ h " void ".toList
    (by simp [textsAlone])
  have hclose := @LeavesText.passes _ _ _ _ _ _ h "\n\x7d\n\n".toList
    (by simp [textsAlone])
  have hall := hslashes.append (hord.append (hforwarder.append (hnaked.append
    (hvoid.append (hopen.append (hjump.append hclose))))))
  simpa only [forwarderStub, List.append_assoc] using hall

theorem LeavesText.pointer (h : LeavesText R pre first last mark next)
    {e : Nat × List Char} (hname : ∀ c ∈ e.2, isNameChar c = true) :
    Passes R (pointerLine e) (pointerLine e) := by
  have hpart : mark ∉ "FARPROC g_real_".toList ++ e.2 := by
    intro hmem
    rcases List.mem_append.1 hmem with hmem | hmem
    · exact h.fields (List.mem_append_left _ hmem)
    · exact h.not_mem_name hname hmem
  have hline := @LeavesText.passes_behind _ _ _ _ _ _ h _ " = NULL;\n".toList
    hpart (by simp [textsBehind])
  unfold pointerLine
  simpa only [List.append_assoc] using hline

theorem LeavesText.resolve (h : LeavesText R pre first last mark next)
    {e : Nat × List Char} (hname : ∀ c ∈ e.2, isNameChar c = true) :
    Passes R (resolveLine e) (resolveLine e) := by
  have hpart : mark ∉ "    g_real_".toList ++ e.2 := by
    intro hmem
    rcases List.mem_append.1 hmem with hmem | hmem
    · exact h.fields (List.mem_append_right _ hmem)
    · exact h.not_mem_name hname hmem
  have hcall := @LeavesText.passes_behind _ _ _ _ _ _ h _
    " = GetProcAddress(hReal, \"".toList hpart (by simp [textsBehind])
  have hclose := @LeavesText.passes_behind _ _ _ _ _ _ h e.2 "\");\n".toList
    (h.not_mem_name hname) (by simp [textsBehind])
  unfold resolveLine
  simpa only [List.append_assoc] using hcall.append hclose

/-- The rule turns the file into the one with what it makes of the two parts of
each stub. -/
theorem LeavesText.file (h : LeavesText R pre first last mark next)
    {naked naked' : List Char} {jump jump' : List Char → List Char}
    {exports : List (Nat × List Char)}
    (hnames : ∀ e ∈ exports, ∀ c ∈ e.2, isNameChar c = true)
    (hnaked : Passes R naked naked')
    (hjump : ∀ e ∈ exports, Passes R (jump e.2) (jump' e.2)) :
    Substituted R (forwardersText naked jump exports)
      (forwardersText naked' jump' exports) := by
  have hhead := @LeavesText.passes _ _ _ _ _ _ h forwardersHead
    (by simp [textsAlone])
  have hopen := @LeavesText.passes _ _ _ _ _ _ h
    "\nvoid resolve_passthrough_exports(HMODULE hReal) \x7b\n".toList
    (by simp [textsAlone])
  have hclose := @LeavesText.passes _ _ _ _ _ _ h "\x7d\n\n".toList
    (by simp [textsAlone])
  have hpointers : Passes R (exports.flatMap pointerLine)
      (exports.flatMap pointerLine) :=
    .flatMap fun e he => h.pointer (hnames e he)
  have hresolve : Passes R (exports.flatMap resolveLine)
      (exports.flatMap resolveLine) :=
    .flatMap fun e he => h.resolve (hnames e he)
  have hstubs : Passes R (exports.flatMap (forwarderStub naked jump))
      (exports.flatMap (forwarderStub naked' jump')) :=
    .flatMap fun e he => h.stub (hnames e he) hnaked (hjump e he)
  exact (hhead.append (hpointers.append (hopen.append (hresolve.append
    (hclose.append hstubs))))).substituted

end Leaves

/-- The jump up to the last underscore in front of the name. -/
def jumpFront : List Char :=
  "__asm__ __volatile__ (\n        \"jmp *%0\\n\"\n        : : \"m\" (g_real".toList

theorem jumpFront_underscore :
    "__asm__ __volatile__ (\n        \"jmp *%0\\n\"\n        : : \"m\" (g_real_".toList =
      jumpFront ++ ['_'] := by
  decide +kernel

/-- The first rule leaves the jump alone. -/
theorem naked_passes_gccJump {name : List Char}
    (hname : ∀ c ∈ name, isNameChar c = true) :
    Passes nakedRule (gccJump name) (gccJump name) := by
  -- the underscore in front of the name is settled by what follows the name
  have hsplit : gccJump name =
      jumpFront ++ (('_' :: name) ++ ")\n    );".toList) := by
    unfold gccJump
    rw [jumpFront_underscore, List.append_assoc]
    rfl
  have hfront : Passes nakedRule jumpFront jumpFront :=
    .of_settled naked_delimited naked_marked (by decide +kernel)
  have hmark : '(' ∉ '_' :: name := by
    intro hmem
    rcases List.mem_cons.1 hmem with hmem | hmem
    · exact absurd hmem (by decide)
    · exact naked_leaves.not_mem_name hname hmem
  have hback : Passes nakedRule (('_' :: name) ++ ")\n    );".toList)
      (('_' :: name) ++ ")\n    );".toList) :=
    .append_settled naked_delimited naked_marked hmark (by decide) (by decide)
  rw [hsplit]
  exact hfront.append hback

/-- The second rule matches the jump. -/
theorem asmRule_gccJump {name : List Char} (hne : name ≠ [])
    (hname : ∀ c ∈ name, isNameChar c = true) :
    asmRule (gccJump name) (msvcJump name) := by
  have hgap : Blanked asmPieces
      " __volatile__ (\n        \"jmp *%0\\n\"\n        : : \"m\" (g_real_".toList :=
    .of_match (by decide +kernel)
  have htail : Blanked [");".toList] "\n    );".toList :=
    .of_match (by decide)
  exact ⟨_, name, _, hgap, hne, hname, htail, rfl, rfl⟩

/-! ### Rewriting what is generated -/

theorem mem_passthrough {symbols : List ExportSymbol} {e : Nat × List Char}
    (h : e ∈ passthrough symbols) :
    e.2 ≠ [] ∧ ∃ sym ∈ symbols, sym.name = some e.2 := by
  have hmem := (List.mem_filter.1 h).1
  rw [namedExports, List.mem_mergeSort] at hmem
  obtain ⟨sym, hsym, hentry⟩ := List.mem_filterMap.1 hmem
  split at hentry
  · cases hentry
  · cases hentry
  · next name hne hname =>
    obtain rfl := Option.some.inj hentry
    exact ⟨hne, sym, hsym, hname⟩

/-- Of the file that is generated, the rewriting changes what makes each stub
naked and how it jumps, and not a character besides. -/
theorem fixMsvc_genForwarders (symbols : List ExportSymbol)
    (hnames : ∀ sym ∈ symbols, ∀ name, sym.name = some name →
      ∀ c ∈ name, isNameChar c = true) :
    fixMsvc (genForwarders symbols) =
      forwardersText msvcNaked msvcJump (passthrough symbols) := by
  have hexports : ∀ e ∈ passthrough symbols,
      ∀ c ∈ e.2, isNameChar c = true := by
    intro e he
    obtain ⟨-, sym, hsym, hname⟩ := mem_passthrough he
    exact hnames sym hsym e.2 hname
  have hnaked : Substituted nakedRule (genForwarders symbols)
      (forwardersText msvcNaked gccJump (passthrough symbols)) :=
    naked_leaves.file hexports (.word ⟨rfl, rfl⟩)
      fun e he => naked_passes_gccJump (hexports e he)
  have hasm : Substituted asmRule
      (forwardersText msvcNaked gccJump (passthrough symbols))
      (forwardersText msvcNaked msvcJump (passthrough symbols)) :=
    asm_leaves.file hexports
      (.of_settled asm_delimited asm_marked (by decide +kernel))
      fun e he => .word (asmRule_gccJump (mem_passthrough he).1 (hexports e he))
  rw [fixMsvc, hnaked.eq_substAll (replaceScan_finds (by decide) _),
    hasm.eq_substAll asmScan_finds]

def sampleSymbols : List ExportSymbol :=
  [⟨11, some "PDUGetEventItem".toList⟩, ⟨7, none⟩,
    ⟨5, some "PDUConnect".toList⟩, ⟨2, some "PDUGetVersion".toList⟩]

theorem fixMsvc_genForwarders_sample :
    passthrough sampleSymbols =
        [(2, "PDUGetVersion".toList), (5, "PDUConnect".toList)] ∧
      fixMsvc (genForwarders sampleSymbols) =
        forwardersText msvcNaked msvcJump (passthrough sampleSymbols) := by
  refine ⟨by simp [passthrough, namedExports, sampleSymbols, List.mergeSort,
    List.MergeSort.Internal.splitInTwo, instrumented],
    fixMsvc_genForwarders sampleSymbols ?_⟩
  intro sym hsym name hname
  simp only [sampleSymbols, List.mem_cons, List.not_mem_nil, or_false] at hsym
  rcases hsym with rfl | rfl | rfl | rfl <;> cases hname
  all_goals exact List.forall_iff_forall_mem.1 (by decide)

end FremSoft
