/-
`recording_load` is safe on any tokens that lie in the text: no access leaves
its array, the walk ends, and what is in memory afterwards is the recording the
walk over lists yields, with every count right.
-/
import FremSoft.LoadBlocks

namespace FremSoft

namespace Mem

/-- What a loop that started at `t` returns: the array, as long as before, and
the same position on both sides. -/
structure Walked (length t : Nat) (a : List MemExchange × Nat)
    (b : List RecordedExchange × Nat) : Prop where
  holds : HoldsAll a.1 b.1
  length : a.1.length = length
  position : a.2 = b.2
  forward : t ≤ a.2

theorem Walked.from {length t t' : Nat} {a : List MemExchange × Nat}
    {b : List RecordedExchange × Nat} (h : Walked length t' a b) (ht : t ≤ t') :
    Walked length t a b :=
  { h with forward := ht.trans h.forward }

section Loops

variable {json : List Char} {toks : List JsmnTok}
  (hspans : ∀ tok ∈ toks, InText json tok)
  {exs : List MemExchange} {l : List RecordedExchange} {e rx count t : Nat}
  {γ κ : Type}

theorem tokAt_both {i : Nat} (hi : i < toks.length) :
    BothOk (fun tok tok' => tok = tok' ∧ tok ∈ toks) (tokAt toks i)
      (FremSoft.tokAt toks i) := by
  refine ⟨toks[i], toks[i], readAt_ok _ hi, ?_, rfl, List.getElem_mem hi⟩
  simp [FremSoft.tokAt, hi]

include hspans

theorem isMember_both (ht : t < toks.length) (name : List Char) :
    BothOk (fun x y => x = y ∧ (x = true → t + 1 < toks.length))
      (isMember json toks t name) (FremSoft.isMember json toks t name) := by
  apply (tokAt_both ht).bind
  rintro key _ ⟨rfl, hkey⟩
  rw [jsonEq_ok (hspans key hkey), ok_bind]
  exact .ok ⟨rfl, by simp⟩

/-- A branch on the name of a member, with its text behind it. -/
theorem ifMember_both {S : γ → κ → Prop} (ht : t < toks.length)
    (name : List Char) {f : JsmnTok → Except MemFault γ}
    {g : List Char → Except Fault κ} {x : Except MemFault γ}
    {y : Except Fault κ}
    (hthen : ∀ value, value.start + (value.stop - value.start) ≤ json.length →
      BothOk S (f value) (g (tokText json value)))
    (helse : BothOk S x y) :
    BothOk S
      (isMember json toks t name >>= fun found =>
        if found = true then tokAt toks (t + 1) >>= f else x)
      (FremSoft.isMember json toks t name >>= fun found =>
        if found = true then FremSoft.memberText json toks t >>= g else y) := by
  apply (isMember_both hspans ht name).bind
  rintro found _ ⟨rfl, hlt⟩
  apply BothOk.ite
  · intro hfound
    obtain ⟨value, _, hmem, hlist, rfl, hvalue⟩ := tokAt_both (hlt hfound)
    obtain ⟨hle, hstop⟩ := hspans value hvalue
    rw [FremSoft.memberText, hmem, hlist, ok_bind, ok_bind]
    exact hthen value (by omega)
  · exact fun _ => helse

/-- A branch on the name and the type of a member. -/
theorem ifMemberOf_both {S : γ → κ → Prop} (ht : t < toks.length)
    (name : List Char) (type : JsmnType) {f : JsmnTok → Except MemFault γ}
    {g : JsmnTok → Except Fault κ} {x : Except MemFault γ}
    {y : Except Fault κ} (hthen : ∀ value, BothOk S (f value) (g value))
    (helse : BothOk S x y) :
    BothOk S
      (isMemberOf json toks t name type >>= fun found =>
        if found = true then tokAt toks (t + 1) >>= f else x)
      (FremSoft.isMemberOf json toks t name type >>= fun found =>
        if found = true then FremSoft.tokAt toks (t + 1) >>= g else y) := by
  unfold isMemberOf FremSoft.isMemberOf
  rw [bind_assoc, bind_assoc]
  apply (isMember_both hspans ht name).bind
  rintro found _ ⟨rfl, hlt⟩
  cases hfound : found with
  | false => exact helse
  | true =>
      obtain ⟨value, _, hmem, hlist, rfl, _⟩ := tokAt_both (hlt hfound)
      simp only [if_true, hmem, hlist, ok_bind, pure_eq_ok]
      apply BothOk.ite
      · exact fun _ => hthen value
      · exact fun _ => helse

theorem txMembersLoop_both {q : Nat} (hholds : HoldsAll exs l)
    (he : e < exs.length) :
    BothOk (Walked exs.length t) (txMembersLoop json toks e q exs t)
      (FremSoft.txMembersLoop json toks e q l t) := by
  induction q generalizing exs l t with
  | zero => exact .ok ⟨hholds, rfl, rfl, le_refl t⟩
  | succ q ih =>
      -- After a write the rest of the loop starts two tokens further on.
      have hnext : ∀ exs' l', HoldsAll exs' l' ∧ exs'.length = exs.length →
          BothOk (Walked exs.length t)
            (txMembersLoop json toks e q exs' (t + 2))
            (FremSoft.txMembersLoop json toks e q l' (t + 2)) := by
        rintro exs' l' ⟨hholds', hlength⟩
        have hrest := ih (t := t + 2) hholds' (hlength ▸ he)
        rw [hlength] at hrest
        exact hrest.mono fun a b h => h.from (by omega)
      rw [txMembersLoop, FremSoft.txMembersLoop]
      refine .ite (fun ht => ?_) fun _ => .ok ⟨hholds, rfl, rfl, le_refl t⟩
      apply ifMember_both hspans ht
      · intro value hspan
        rw [parseCanIdStr_ok hspan, ok_bind]
        refine (writeExchange_both hholds he ?_).bind hnext
        exact fun m x h => { h with canId := rfl }
      apply ifMember_both hspans ht
      · intro value hspan
        obtain ⟨out, n, hparse, hblock⟩ := parseHexBytes_ok hspan
        rw [hparse, ok_bind]
        refine (writeExchange_both hholds he ?_).bind hnext
        exact fun m x h => { h with uds := hblock }
      · exact hnext exs l ⟨hholds, rfl⟩

theorem rxMembersLoop_both {q : Nat} (hholds : HoldsAll exs l)
    (hhas : HasResponses exs e count) (hrx : rx < count) :
    BothOk (fun a b => Walked exs.length t a b ∧ HasResponses a.1 e count)
      (rxMembersLoop json toks e rx q exs t)
      (FremSoft.rxMembersLoop json toks e rx q l t) := by
  induction q generalizing exs l t with
  | zero => exact .ok ⟨⟨hholds, rfl, rfl, le_refl t⟩, hhas⟩
  | succ q ih =>
      have hnext : ∀ exs' l', HoldsAll exs' l' ∧ exs'.length = exs.length ∧
          HasResponses exs' e count →
          BothOk (fun a b => Walked exs.length t a b ∧ HasResponses a.1 e count)
            (rxMembersLoop json toks e rx q exs' (t + 2))
            (FremSoft.rxMembersLoop json toks e rx q l' (t + 2)) := by
        rintro exs' l' ⟨hholds', hlength, hhas'⟩
        have hrest := ih (t := t + 2) hholds' hhas'
        rw [hlength] at hrest
        exact hrest.mono fun a b h => ⟨h.1.from (by omega), h.2⟩
      rw [rxMembersLoop, FremSoft.rxMembersLoop]
      refine .ite (fun ht => ?_)
        fun _ => .ok ⟨⟨hholds, rfl, rfl, le_refl t⟩, hhas⟩
      apply ifMember_both hspans ht
      · intro value hspan
        rw [parseCanIdStr_ok hspan, ok_bind]
        refine (writeResponse_both hholds hhas hrx ?_).bind hnext
        exact fun m x h => { h with canId := rfl }
      apply ifMember_both hspans ht
      · intro value hspan
        obtain ⟨out, n, hparse, hblock⟩ := parseHexBytes_ok hspan
        rw [hparse, ok_bind]
        refine (writeResponse_both hholds hhas hrx ?_).bind hnext
        exact fun m x h => { h with uds := hblock }
      apply ifMember_both hspans ht
      · intro value hspan
        obtain ⟨delay, hmem, hlist⟩ := parseDelay_ok hspan
        rw [tokText, hmem, hlist, ok_bind, ok_bind]
        refine (writeResponse_both hholds hhas hrx ?_).bind hnext
        exact fun m x h => { h with delayMs := rfl }
      · exact hnext exs l ⟨hholds, rfl, hhas⟩

theorem rxLoop_both {left : Nat} (hholds : HoldsAll exs l)
    (hhas : HasResponses exs e count) (hleft : left + rx = count) :
    BothOk (Walked exs.length t) (rxLoop json toks e left rx exs t)
      (FremSoft.rxLoop json toks e left rx l t) := by
  induction left generalizing exs l t rx with
  | zero => exact .ok ⟨hholds, rfl, rfl, le_refl t⟩
  | succ left ih =>
      have hcount : left + (rx + 1) = count := by omega
      rw [rxLoop, FremSoft.rxLoop]
      refine .ite (fun ht => ?_) fun _ => .ok ⟨hholds, rfl, rfl, le_refl t⟩
      apply (tokAt_both ht).bind
      rintro tok _ ⟨rfl, _⟩
      apply BothOk.ite
      · intro _
        apply (rxMembersLoop_both hspans hholds hhas (by omega)).bind
        rintro ⟨exs', t'⟩ ⟨l', _⟩ ⟨⟨hholds', hlength, rfl, hforward⟩, hhas'⟩
        simp only at hholds' hlength hforward
        have hrest := ih (t := t') hholds' hhas' hcount
        rw [hlength] at hrest
        exact hrest.mono fun a b h => h.from (by omega)
      · intro _
        have hrest := ih (t := t + 1) hholds hhas hcount
        exact hrest.mono fun a b h => h.from (by omega)

theorem exchangeMembersLoop_both {k : Nat} (hholds : HoldsAll exs l)
    (he : e < exs.length) :
    BothOk (Walked exs.length t) (exchangeMembersLoop json toks e k exs t)
      (FremSoft.exchangeMembersLoop json toks e k l t) := by
  induction k generalizing exs l t with
  | zero => exact .ok ⟨hholds, rfl, rfl, le_refl t⟩
  | succ k ih =>
      have hnext : ∀ a b, Walked exs.length (t + 2) a b →
          BothOk (Walked exs.length t)
            (exchangeMembersLoop json toks e k a.1 a.2)
            (FremSoft.exchangeMembersLoop json toks e k b.1 b.2) := by
        rintro ⟨exs', t'⟩ ⟨l', _⟩ ⟨hholds', hlength, rfl, hforward⟩
        simp only at hholds' hlength hforward
        have hrest := ih (t := t') hholds' (hlength ▸ he)
        rw [hlength] at hrest
        exact hrest.mono fun a b h => h.from (by omega)
      rw [exchangeMembersLoop, FremSoft.exchangeMembersLoop]
      refine .ite (fun ht => ?_) fun _ => .ok ⟨hholds, rfl, rfl, le_refl t⟩
      apply ifMemberOf_both hspans ht
      · intro value
        exact (txMembersLoop_both hspans hholds he).bind hnext
      apply ifMemberOf_both hspans ht
      · intro value
        obtain ⟨exs', l', hmem, hlist, hholds', hlength⟩ :=
          writeExchange_both hholds he (f := fun ex =>
            { ex with
              numResponses := value.size
              responses := some (List.replicate value.size MemResponse.zero) })
            (g := fun ex =>
              { ex with responses :=
                  List.replicate value.size RecordedResponse.zero })
            fun m x h =>
              { h with
                count := List.length_replicate ..
                responses := forall₂_replicate MemResponse.holds_zero _ }
        have hhas := hasResponses_of_writeExchange he hmem fun _ => rfl
        rw [hmem, hlist, ok_bind, ok_bind]
        rw [← hlength] at hnext ⊢
        exact (rxLoop_both hspans hholds' hhas (by simp)).bind hnext
      · exact hnext (exs, t + 2) (l, t + 2) ⟨hholds, rfl, rfl, le_refl _⟩

theorem exchangesLoop_both {left : Nat} (hholds : HoldsAll exs l)
    (hleft : left + e = exs.length) :
    BothOk (Walked exs.length t) (exchangesLoop json toks left e exs t)
      (FremSoft.exchangesLoop json toks left e l t) := by
  induction left generalizing exs l t e with
  | zero => exact .ok ⟨hholds, rfl, rfl, le_refl t⟩
  | succ left ih =>
      rw [exchangesLoop, FremSoft.exchangesLoop]
      refine .ite (fun ht => ?_) fun _ => .ok ⟨hholds, rfl, rfl, le_refl t⟩
      apply (tokAt_both ht).bind
      rintro tok _ ⟨rfl, _⟩
      apply BothOk.ite
      · intro _
        apply (exchangeMembersLoop_both hspans hholds (by omega)).bind
        rintro ⟨exs', t'⟩ ⟨l', _⟩ ⟨hholds', hlength, rfl, hforward⟩
        simp only at hholds' hlength hforward
        have hrest := ih (t := t') (e := e + 1) hholds' (by omega)
        rw [hlength] at hrest
        exact hrest.mono fun a b h => h.from (by omega)
      · intro _
        have hrest := ih (t := t + 1) (e := e + 1) hholds (by omega)
        exact hrest.mono fun a b h => h.from (by omega)

theorem topLoop_both {fuel : Nat} {m : MemRecording} {r : Recording}
    (hholds : m.Holds r) (hfuel : toks.length ≤ t + fuel) :
    BothOk MemRecording.Holds (topLoop json toks fuel m t)
      (FremSoft.topLoop json toks fuel r t) := by
  induction fuel generalizing m r t with
  | zero =>
      rw [topLoop, FremSoft.topLoop, if_neg (by omega), if_neg (by omega)]
      exact .ok hholds
  | succ fuel ih =>
      rw [topLoop, FremSoft.topLoop]
      refine .ite (fun ht => ?_) fun _ => .ok hholds
      apply ifMember_both hspans ht
      · intro value hspan
        apply (copyName_both hholds.recordingId hspan).bind
        intro cells name hname
        exact ih { hholds with recordingId := hname } (by omega)
      apply ifMember_both hspans ht
      · intro value hspan
        apply (copyName_both hholds.vehicleProfile hspan).bind
        intro cells name hname
        exact ih { hholds with vehicleProfile := hname } (by omega)
      apply ifMemberOf_both hspans ht
      · intro value
        have hzeroed := forall₂_replicate MemExchange.holds_zero value.size
        apply (exchangesLoop_both hspans (t := t + 2) hzeroed (by simp)).bind
        rintro ⟨exs, t'⟩ ⟨l, _⟩ ⟨hall, hlength, rfl, hforward⟩
        simp only [List.length_replicate] at hlength hforward
        exact ih { hholds with count := hlength, exchanges := hall } (by omega)
      · exact ih hholds (by omega)

end Loops

/-- On tokens that lie in the text the loader fills its memory without a fault,
and with what the walk over lists yields. -/
theorem recordingLoad_both {json : List Char} {toks : List JsmnTok}
    (hobject : toks.head?.map JsmnTok.type = some .object)
    (hspans : ∀ tok ∈ toks, InText json tok) :
    ∃ m r, recordingLoad json toks = .ok (some m) ∧
      FremSoft.recordingLoad json toks = .ok (some r) ∧ m.Holds r := by
  cases toks with
  | nil => cases hobject
  | cons tok rest =>
      have htype : tok.type = .object := by simpa using hobject
      have hfuel : (tok :: rest).length ≤ 1 + (tok :: rest).length := by omega
      obtain ⟨m, r, hmem, hlist, hholds⟩ :=
        topLoop_both hspans MemRecording.holds_zero hfuel
      refine ⟨m, r, ?_, ?_, hholds⟩
      · simp only [recordingLoad, htype, ne_eq, not_true_eq_false, if_false,
          hmem]
        rfl
      · simp only [FremSoft.recordingLoad, htype, ne_eq, not_true_eq_false,
          if_false, hlist]
        rfl

/-- What the users of a recording rely on: the arrays are as long as the counts
say, and so, at least, are the blocks of bytes. -/
structure MemRecording.WellFormed (m : MemRecording) : Prop where
  exchanges : (m.exchanges.getD []).length = m.numExchanges
  uds : ∀ ex ∈ m.exchanges.getD [], ex.udsLen ≤ (ex.udsBytes.getD []).length
  responses : ∀ ex ∈ m.exchanges.getD [],
    (ex.responses.getD []).length = ex.numResponses ∧
      ∀ x ∈ ex.responses.getD [], x.udsLen ≤ (x.udsBytes.getD []).length

theorem MemRecording.Holds.wellFormed {m : MemRecording} {r : Recording}
    (h : m.Holds r) : m.WellFormed where
  exchanges := h.count
  uds := by
    intro ex hex
    obtain ⟨y, _, hy⟩ := forall₂_exists_right h.exchanges hex
    exact hy.uds.len_le
  responses := by
    intro ex hex
    obtain ⟨y, _, hy⟩ := forall₂_exists_right h.exchanges hex
    refine ⟨hy.count, fun x hx => ?_⟩
    obtain ⟨z, _, hz⟩ := forall₂_exists_right hy.responses hx
    exact hz.uds.len_le

/-- Whatever the types, the sizes and the names, `recording_load` ends without
a fault and leaves a recording with all its counts right. -/
theorem recordingLoad_safe (json : List Char) (toks : List JsmnTok)
    (hobject : toks.head?.map JsmnTok.type = some .object)
    (hspans : ∀ tok ∈ toks, InText json tok) :
    ∃ m, recordingLoad json toks = .ok (some m) ∧ m.WellFormed := by
  obtain ⟨m, r, hmem, _, hholds⟩ := recordingLoad_both hobject hspans
  exact ⟨m, hmem, hholds.wellFormed⟩

/-- Sizes that promise more elements than there are tokens. -/
def oversizedTokens : List JsmnTok :=
  [{ type := .object, start := 0, stop := 21, size := 1 },
    { type := .string, start := 0, stop := 9, size := 1 },
    { type := .array, start := 0, stop := 21, size := 5 },
    { type := .object, start := 0, stop := 21, size := 4 },
    { type := .string, start := 10, stop := 12, size := 1 },
    { type := .array, start := 3, stop := 3, size := 7 },
    { type := .object, start := 0, stop := 21, size := 9 },
    { type := .string, start := 13, stop := 16, size := 0 },
    { type := .primitive, start := 17, stop := 21, size := 2 }]

theorem recordingLoad_safe_oversized :
    ∃ m, recordingLoad "exchanges rx uds 2701".toList oversizedTokens =
      .ok (some m) ∧ m.WellFormed :=
  recordingLoad_safe _ _ rfl (by decide)

/-! ### The users of a recording -/

theorem mapM_readCell (n : Nat) (bytes : List UInt8) :
    (bytes.map some).mapM (readCell n) = .ok bytes := by
  induction bytes with
  | nil => rfl
  | cons b bytes ih =>
      rw [List.map_cons, List.mapM_cons, ih]
      rfl

theorem readBytes_ok {block : Option ByteBlock} {len : Nat}
    {bytes : List UInt8} (h : BlockHolds block len bytes) :
    readBytes block len = .ok bytes := by
  have hspan : readSpan (MemFault.blockRead len) (block.getD []) 0 len =
      .ok (bytes.map some) := by
    rw [← h.2]
    exact readSpan_ok _ (by simpa using h.len_le)
  rw [readBytes, hspan, ok_bind, mapM_readCell]

theorem lookupScan_both {exs : List MemExchange} {l : List RecordedExchange}
    (hholds : HoldsAll exs l) (canId : UInt32) (uds : List UInt8)
    {left i : Nat} (hleft : left + i = exs.length) :
    ∃ found, lookupScan exs canId uds left i = .ok found ∧
      Option.Rel MemExchange.Holds found
        (FremSoft.lookupScan canId uds (l.drop i)) := by
  induction left generalizing i with
  | zero =>
      have hlength := hholds.length_eq
      rw [List.drop_eq_nil_of_le (by omega)]
      exact ⟨none, rfl, .none⟩
  | succ left ih =>
      have hi : i < exs.length := by omega
      have hl : i < l.length := hholds.length_eq ▸ hi
      have hhead : (exs[i]).Holds l[i] := hholds.get hi hl
      obtain ⟨found, hfound, hrel⟩ := ih (i := i + 1) (by omega)
      rw [List.drop_eq_getElem_cons hl]
      simp only [lookupScan, FremSoft.lookupScan, readAt_ok _ hi, ok_bind,
        hhead.canId, hhead.uds.1]
      split
      · exact ⟨found, hfound, hrel⟩
      · split
        · exact ⟨found, hfound, hrel⟩
        · next hlength =>
          have hlen : exs[i].udsLen = uds.length :=
            hhead.uds.1.trans (not_ne_iff.1 hlength)
          rw [readBytes_ok (hlen ▸ hhead.uds), ok_bind]
          split
          · exact ⟨_, rfl, .some hhead⟩
          · exact ⟨found, hfound, hrel⟩

/-- The lookup reads within its arrays and blocks, and finds what the lookup
over lists finds. -/
theorem recordingLookup_both {m : MemRecording} {r : Recording}
    (h : m.Holds r) (canId : UInt32) (uds : List UInt8) :
    ∃ found, recordingLookup (some m) canId uds = .ok found ∧
      Option.Rel MemExchange.Holds found
        (FremSoft.recordingLookup (some r) canId uds) := by
  have hall : m.numExchanges + 0 = (m.exchanges.getD []).length := by
    simp [h.count]
  have hscan := lookupScan_both h.exchanges canId uds hall
  rwa [List.drop_zero] at hscan

theorem freeResponses_ok {xs : List MemResponse} (i : Nat) {left j : Nat}
    (hleft : left + j = xs.length) :
    freeResponses xs i left j =
      .ok ((xs.drop j).flatMap fun x => x.udsBytes.toList) := by
  induction left generalizing j with
  | zero =>
      rw [List.drop_eq_nil_of_le (by omega)]
      rfl
  | succ left ih =>
      have hj : j < xs.length := by omega
      rw [freeResponses, readAt_ok _ hj, ok_bind, ih (by omega),
        List.drop_eq_getElem_cons hj, List.flatMap_cons]
      rfl

theorem freeExchanges_ok {exs : List MemExchange}
    (hcounts : ∀ e ∈ exs, (e.responses.getD []).length = e.numResponses)
    {left i : Nat} (hleft : left + i = exs.length) :
    freeExchanges exs left i = .ok ((exs.drop i).flatMap fun e =>
      e.udsBytes.toList ++
        (e.responses.getD []).flatMap fun x => x.udsBytes.toList) := by
  induction left generalizing i with
  | zero =>
      rw [List.drop_eq_nil_of_le (by omega)]
      rfl
  | succ left ih =>
      have hi : i < exs.length := by omega
      have hcount := hcounts exs[i] (List.getElem_mem hi)
      rw [freeExchanges, readAt_ok _ hi, ok_bind,
        freeResponses_ok i (by simp [hcount]), ok_bind, ih (by omega),
        List.drop_eq_getElem_cons hi, List.flatMap_cons]
      rfl

/-- Freeing reads within the arrays, and frees the block of every exchange and
of every response once. -/
theorem recordingFree_ok {m : MemRecording} (h : m.WellFormed) :
    recordingFree (some m) = .ok ((m.exchanges.getD []).flatMap fun e =>
      e.udsBytes.toList ++
        (e.responses.getD []).flatMap fun x => x.udsBytes.toList) := by
  have hall : m.numExchanges + 0 = (m.exchanges.getD []).length := by
    simp [h.exchanges]
  have hfree := freeExchanges_ok (fun e he => (h.responses e he).1) hall
  rwa [List.drop_zero] at hfree

end Mem

end FremSoft
