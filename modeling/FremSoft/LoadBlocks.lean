/-
What one access of the loader does when it stays in bounds: the texts it reads,
the blocks it fills and the arrays it writes to, each against its counterpart
over lists.
-/
import FremSoft.Lib.Related
import FremSoft.LoadMemory

namespace FremSoft

namespace Mem

/-- `0 <= start <= end`, and the end is in the text. -/
def InText (json : List Char) (tok : JsmnTok) : Prop :=
  tok.start ≤ tok.stop ∧ tok.stop ≤ json.length

instance (json : List Char) (tok : JsmnTok) : Decidable (InText json tok) :=
  inferInstanceAs (Decidable (_ ∧ _))

/-! ### Texts -/

section Texts

variable {json : List Char}

theorem textAt_ok {start len : Nat} (h : start + len ≤ json.length) :
    textAt json start len = .ok ((json.drop start).take len) :=
  readSpan_ok _ h

theorem jsonEq_ok {tok : JsmnTok} (hspan : InText json tok) (s : List Char) :
    jsonEq json tok s = .ok (FremSoft.jsonEq json tok s) := by
  obtain ⟨hle, hstop⟩ := hspan
  unfold jsonEq FremSoft.jsonEq
  cases hfits : tok.type == .string && tok.stop - tok.start == s.length with
  | false => simp
  | true =>
      have hlength : tok.stop - tok.start = s.length := by
        simp only [Bool.and_eq_true, beq_iff_eq] at hfits
        exact hfits.2
      have htext : tok.start + s.length ≤ json.length := by omega
      simp [textAt_ok htext]

/-- A `NUL` ends the string, wherever the first one is. -/
theorem eq_takeWhile_append_nul {cells : List Char} (h : nul ∈ cells) :
    ∃ rest, cells = cells.takeWhile (· != nul) ++ nul :: rest := by
  induction cells with
  | nil => cases h
  | cons c cells ih =>
      by_cases hc : c = nul
      · exact ⟨cells, by simp [hc]⟩
      · have htail : nul ∈ cells :=
          (List.mem_cons.1 h).resolve_left fun heq => hc heq.symm
        obtain ⟨rest, hrest⟩ := ih htail
        refine ⟨rest, ?_⟩
        rw [List.takeWhile_cons_of_pos (by simpa using hc), List.cons_append,
          ← hrest]

/-- `strtoul` of a text that was copied into a zeroed buffer with room to
spare. -/
theorem strtoul_of_buffer (base : Nat) {size : Nat} {text : List Char}
    (h : text.length < size) (fault : MemFault) :
    ∃ s, (copyAt fault (List.replicate size nul) text >>= cString) = .ok s ∧
      strtoul base s = strtoul base text := by
  have hcopy : copyAt fault (List.replicate size nul) text =
      .ok (text ++ (List.replicate size nul).drop text.length) :=
    copyAt_ok fault (by simpa using h.le)
  have hpadding : (List.replicate size nul).drop text.length =
      nul :: List.replicate (size - text.length - 1) nul := by
    rw [List.drop_replicate, ← List.replicate_succ]
    congr 1
    omega
  rw [hcopy, hpadding, ok_bind]
  have hmem : nul ∈ text ++
      nul :: List.replicate (size - text.length - 1) nul := by simp
  obtain ⟨rest, hrest⟩ := eq_takeWhile_append_nul hmem
  refine ⟨_, if_pos hmem, ?_⟩
  calc strtoul base _
      = strtoul base (_ ++ nul :: rest) := (strtoul_append_nul base _ rest).symm
    _ = strtoul base text := by rw [← hrest]; exact strtoul_append_nul base _ _

theorem length_span {start len : Nat} (h : start + len ≤ json.length) :
    ((json.drop start).take len).length = len := by
  rw [List.length_take, List.length_drop]
  omega

theorem readAt_span {start len i : Nat} {c : Char}
    (h : ((json.drop start).take len)[i]? = some c) (fault : MemFault) :
    readAt fault json (start + i) = .ok c := by
  apply readAt_of_getElem?
  rw [List.getElem?_take, List.getElem?_drop] at h
  split at h
  · exact h
  · cases h

/-- The prefix that `parse_can_id_str` skips. -/
def startsHex : List Char → Bool
  | '0' :: x :: _ :: _ => x == 'x' || x == 'X'
  | _ => false

theorem startsHex_length {text : List Char} (h : startsHex text = true) :
    2 < text.length := by
  unfold startsHex at h
  split at h
  · simp
  · cases h

theorem hasHexPrefix_ok {start slen : Nat} (h : start + slen ≤ json.length) :
    hasHexPrefix json start slen =
      .ok (startsHex ((json.drop start).take slen)) := by
  have hlength := length_span h
  unfold hasHexPrefix
  cases htext : (json.drop start).take slen with
  | nil =>
      rw [htext] at hlength
      rw [if_neg (by simp [← hlength])]
      rfl
  | cons a tail =>
      rcases tail with _ | ⟨b, _ | ⟨c, rest⟩⟩
      · rw [htext] at hlength
        rw [if_neg (by simp [← hlength])]
        simp [startsHex]
      · rw [htext] at hlength
        rw [if_neg (by simp [← hlength])]
        simp [startsHex]
      · have ha := readAt_span (i := 0) (c := a) (by rw [htext]; rfl)
          (.textRead start)
        have hb := readAt_span (i := 1) (c := b) (by rw [htext]; rfl)
          (.textRead (start + 1))
        rw [Nat.add_zero] at ha
        rw [htext] at hlength
        rw [if_pos (by simp [← hlength]), ha, hb, ok_bind, ok_bind]
        by_cases hzero : a = '0'
        · subst hzero
          rfl
        · simp [startsHex, hzero]

theorem parseCanIdStr_eq (text : List Char) :
    FremSoft.parseCanIdStr text =
      if text.length = 0 ∨ 16 ≤ text.length then 0
      else strtoul 16 (text.drop (if startsHex text then 2 else 0)) := by
  unfold FremSoft.parseCanIdStr
  by_cases hfits : text.length = 0 ∨ 16 ≤ text.length
  · rw [if_pos hfits, if_pos hfits]
  · rw [if_neg hfits, if_neg hfits]
    split
    · next x c rest =>
      by_cases hx : x = 'x' ∨ x = 'X' <;> simp [startsHex, hx]
    · next hno =>
      have hplain : startsHex text = false := by
        unfold startsHex
        split
        · next x c rest => exact absurd rfl (hno x c rest)
        · rfl
      simp [hplain]

theorem parseCanIdStr_ok {start slen : Nat} (h : start + slen ≤ json.length) :
    parseCanIdStr json start slen =
      .ok (FremSoft.parseCanIdStr ((json.drop start).take slen)) := by
  have hlength := length_span h
  rw [parseCanIdStr_eq, hlength]
  unfold parseCanIdStr
  by_cases hfits : slen = 0 ∨ 16 ≤ slen
  · rw [if_pos hfits, if_pos hfits]
    rfl
  · rw [if_neg hfits, if_neg hfits, hasHexPrefix_ok h, ok_bind]
    generalize hoff :
      (if startsHex ((json.drop start).take slen) = true then 2 else 0) = off
    have hle : off ≤ slen := by
      rw [← hoff]
      split
      · next hstarts =>
        have := startsHex_length hstarts
        omega
      · omega
    dsimp only
    rw [textAt_ok (by omega), ok_bind]
    have hshort :
        ((json.drop (start + off)).take (slen - off)).length < 16 := by
      rw [length_span (by omega)]
      omega
    obtain ⟨s, hs, hvalue⟩ := strtoul_of_buffer 16 hshort (.copyOverrun 16)
    rw [← bind_assoc, hs, ok_bind, hvalue, List.drop_take, List.drop_drop]
    rfl

theorem parseDelay_ok {start len : Nat} (h : start + len ≤ json.length) :
    ∃ delay, parseDelay json start len = .ok delay ∧
      FremSoft.parseDelay ((json.drop start).take len) = .ok delay := by
  generalize hdl : (if 15 < len then 15 else len) = dl
  have hle : dl ≤ len ∧ dl ≤ 15 := by
    rw [← hdl]
    split <;> omega
  have htake : ((json.drop start).take len).take 15 =
      (json.drop start).take dl := by
    rw [List.take_take, ← hdl]
    congr 1
    split <;> omega
  have hspan : start + dl ≤ json.length := by omega
  have hshort : ((json.drop start).take dl).length < 16 := by
    rw [length_span hspan]
    omega
  obtain ⟨s, hs, hvalue⟩ := strtoul_of_buffer 10 hshort (.copyOverrun 16)
  refine ⟨strtoul 10 ((json.drop start).take dl), ?_, ?_⟩
  · simp only [parseDelay, hdl]
    rw [textAt_ok hspan, ok_bind, ← bind_assoc, hs, ok_bind, hvalue]
    rfl
  · rw [FremSoft.parseDelay, htake, copyInto, if_pos hshort, ok_bind]
    simp

end Texts

/-! ### Blocks -/

/-- The block holds these bytes, and `len` says how many. -/
def BlockHolds (block : Option ByteBlock) (len : Nat) (bytes : List UInt8) :
    Prop :=
  len = bytes.length ∧ (block.getD []).take len = bytes.map some

theorem BlockHolds.len_le {block : Option ByteBlock} {len : Nat}
    {bytes : List UInt8} (h : BlockHolds block len bytes) :
    len ≤ (block.getD []).length := by
  have hlength := congrArg List.length h.2
  rw [List.length_take, List.length_map, ← h.1] at hlength
  omega

/-- Writing the cell behind the bytes of a block. -/
theorem take_modify_append {out : ByteBlock} {n : Nat} {bytes : List UInt8}
    (hn : n < out.length) (hout : out.take n = bytes.map some) (b : UInt8) :
    (out.modify n fun _ => some b).take (n + 1) = (bytes ++ [b]).map some := by
  rw [List.take_add_one, List.map_append, ← hout]
  congr 1
  · apply List.ext_getElem?
    intro i
    rw [List.getElem?_take, List.getElem?_take]
    split
    · next hi => simp [show n ≠ i by omega]
    · rfl
  · simp [List.getElem?_eq_getElem hn]

theorem parseHexLoop_ok {json : List Char} {start left i n : Nat}
    {hi : Option Nat} {out : ByteBlock} {bytes : List UInt8}
    (htext : start + i + left ≤ json.length)
    (hroom : n + (FremSoft.parseHexLoop hi
      ((json.drop (start + i)).take left)).length ≤ out.length)
    (hout : BlockHolds (some out) n bytes) :
    ∃ out' n', parseHexLoop json start left i hi out n = .ok (out', n') ∧
      BlockHolds (some out') n' (bytes ++ FremSoft.parseHexLoop hi
        ((json.drop (start + i)).take left)) := by
  induction left generalizing i n hi out bytes with
  | zero => exact ⟨out, n, rfl, by simpa [FremSoft.parseHexLoop] using hout⟩
  | succ left ih =>
      have hlt : start + i < json.length := by omega
      have hread : readAt (.textRead (start + i) : MemFault) json (start + i) =
          .ok json[start + i] := readAt_ok _ hlt
      have hsplit : (json.drop (start + i)).take (left + 1) =
          json[start + i] ::
            (json.drop (start + (i + 1))).take left := by
        rw [List.drop_eq_getElem_cons hlt, List.take_succ_cons, Nat.add_assoc]
      have hnext : start + (i + 1) + left ≤ json.length := by omega
      rw [hsplit] at hroom ⊢
      simp only [parseHexLoop, hread, ok_bind]
      simp only [FremSoft.parseHexLoop] at hroom ⊢
      cases hnibble : hexNibble? json[start + i] with
      | none =>
          simp only [hnibble] at hroom
          exact ih hnext hroom hout
      | some v =>
          cases hi with
          | none =>
              simp only [hnibble] at hroom
              exact ih hnext hroom hout
          | some h =>
              simp only [hnibble, List.length_cons] at hroom
              dsimp only
              have hn : n < out.length := by omega
              rw [modifyAt_ok _ hn, ok_bind]
              have hwritten : BlockHolds
                  (some (out.modify n fun _ =>
                    some (UInt8.ofNat ((h <<< 4) ||| v)))) (n + 1)
                  (bytes ++ [UInt8.ofNat ((h <<< 4) ||| v)]) :=
                ⟨by simp [hout.1], take_modify_append hn hout.2 _⟩
              have hroom' : n + 1 + (FremSoft.parseHexLoop none
                  ((json.drop (start + (i + 1))).take left)).length ≤
                  (out.modify n fun _ =>
                    some (UInt8.ofNat ((h <<< 4) ||| v))).length := by
                rw [List.length_modify]
                omega
              simpa using ih hnext hroom' hwritten

/-- The block of `slen / 2 + 4` bytes is large enough. -/
theorem parseHexBytes_ok {json : List Char} {start slen : Nat}
    (h : start + slen ≤ json.length) :
    ∃ out n, parseHexBytes json start slen = .ok (out, n) ∧
      BlockHolds (some out) n
        (FremSoft.parseHexBytes ((json.drop start).take slen)) := by
  have hbytes := parseHexBytes_length ((json.drop start).take slen)
  rw [length_span h, FremSoft.parseHexBytes] at hbytes
  have hempty : BlockHolds (some (List.replicate (slen / 2 + 4) none)) 0 [] :=
    ⟨rfl, by simp⟩
  refine parseHexLoop_ok (i := 0) h ?_ hempty
  rw [List.length_replicate, Nat.zero_add]
  exact hbytes.trans (by omega)

/-! ### Arrays -/

structure MemResponse.Holds (m : MemResponse) (x : RecordedResponse) :
    Prop where
  canId : m.canId = x.canId
  uds : BlockHolds m.udsBytes m.udsLen x.udsBytes
  delayMs : m.delayMs = x.delayMs

/-- An exchange in memory is this one, and its responses are counted. -/
structure MemExchange.Holds (m : MemExchange) (x : RecordedExchange) :
    Prop where
  canId : m.canId = x.canId
  uds : BlockHolds m.udsBytes m.udsLen x.udsBytes
  count : (m.responses.getD []).length = m.numResponses
  responses : List.Forall₂ MemResponse.Holds (m.responses.getD []) x.responses

abbrev HoldsAll : List MemExchange → List RecordedExchange → Prop :=
  List.Forall₂ MemExchange.Holds

theorem MemResponse.holds_zero :
    MemResponse.zero.Holds RecordedResponse.zero :=
  ⟨rfl, ⟨rfl, rfl⟩, rfl⟩

theorem MemExchange.holds_zero :
    MemExchange.zero.Holds RecordedExchange.zero :=
  ⟨rfl, ⟨rfl, rfl⟩, rfl, List.Forall₂.nil⟩

theorem forall₂_replicate {α β : Type} {R : α → β → Prop} {a : α} {b : β}
    (h : R a b) (n : Nat) :
    List.Forall₂ R (List.replicate n a) (List.replicate n b) := by
  induction n with
  | zero => exact List.Forall₂.nil
  | succ n ih => exact List.Forall₂.cons h ih

/-- The cells of a `char[128]`: a text, and zeros behind it. -/
def NameHolds (cells text : List Char) : Prop :=
  text.length < 128 ∧
    cells = text ++ List.replicate (128 - text.length) nul

/-- A recording in memory is this one, and its exchanges are counted. -/
structure MemRecording.Holds (m : MemRecording) (r : Recording) : Prop where
  recordingId : NameHolds m.recordingId r.recordingId
  vehicleProfile : NameHolds m.vehicleProfile r.vehicleProfile
  count : (m.exchanges.getD []).length = m.numExchanges
  exchanges : HoldsAll (m.exchanges.getD []) r.exchanges

theorem MemRecording.holds_zero : MemRecording.zero.Holds
    { recordingId := [], vehicleProfile := [], exchanges := [] } :=
  ⟨⟨by simp, rfl⟩, ⟨by simp, rfl⟩, rfl, List.Forall₂.nil⟩

/-- A name is cut off in time, and its `NUL` stays. -/
theorem copyName_both {json cells old : List Char} {start len : Nat}
    (hcells : NameHolds cells old) (h : start + len ≤ json.length) :
    BothOk NameHolds (copyName json cells start len)
      (copyInto 128 old (((json.drop start).take len).take 127)) := by
  obtain ⟨hold, rfl⟩ := hcells
  generalize hcut : (if 127 < len then 127 else len) = cut
  have hle : cut ≤ len ∧ cut ≤ 127 := by
    rw [← hcut]
    split <;> omega
  have htake : ((json.drop start).take len).take 127 =
      (json.drop start).take cut := by
    rw [List.take_take, ← hcut]
    congr 1
    split <;> omega
  have hlength : ((json.drop start).take cut).length = cut :=
    length_span (by omega)
  rw [htake]
  generalize hname : (json.drop start).take cut = name at hlength
  have hmem : copyName json (old ++ List.replicate (128 - old.length) nul)
      start len = .ok (name ++ (old ++
        List.replicate (128 - old.length) nul).drop name.length) := by
    simp only [copyName, hcut]
    rw [textAt_ok (by omega), hname, ok_bind]
    apply copyAt_ok
    rw [List.length_append, List.length_replicate]
    omega
  refine ⟨_, name ++ old.drop name.length, hmem, if_pos (by omega), ?_, ?_⟩
  · rw [List.length_append, List.length_drop]
    omega
  · rw [List.drop_append, List.drop_replicate, List.append_assoc,
      List.length_append, List.length_drop]
    congr 3
    omega

section Writes

variable {exs : List MemExchange} {l : List RecordedExchange} {e rx count : Nat}

theorem writeExchange_both {f : MemExchange → MemExchange}
    {g : RecordedExchange → RecordedExchange} (hholds : HoldsAll exs l)
    (he : e < exs.length) (hfg : ∀ m x, m.Holds x → (f m).Holds (g x)) :
    BothOk (fun exs' l' => HoldsAll exs' l' ∧ exs'.length = exs.length)
      (writeExchange exs e f) (FremSoft.writeExchange l e g) := by
  have hl : e < l.length := hholds.length_eq ▸ he
  refine ⟨_, _, modifyAt_ok _ he f, if_pos hl, ?_, List.length_modify ..⟩
  exact forall₂_modify hholds fun m x _ hmx => hfg m x hmx

/-- `exchanges[e].responses` is an array of `count` responses. -/
def HasResponses (exs : List MemExchange) (e count : Nat) : Prop :=
  ∃ ex xs, exs[e]? = some ex ∧ ex.responses = some xs ∧ xs.length = count

theorem hasResponses_of_writeExchange {f : MemExchange → MemExchange}
    {exs' : List MemExchange} {xs : List MemResponse}
    (he : e < exs.length) (hwrite : writeExchange exs e f = .ok exs')
    (hf : ∀ ex, (f ex).responses = some xs) :
    HasResponses exs' e xs.length := by
  obtain rfl : exs.modify e f = exs' :=
    Except.ok.inj ((modifyAt_ok _ he f).symm.trans hwrite)
  exact ⟨f exs[e], xs, by simp [he], hf _, rfl⟩

theorem writeResponse_both {f : MemResponse → MemResponse}
    {g : RecordedResponse → RecordedResponse} (hholds : HoldsAll exs l)
    (hhas : HasResponses exs e count) (hrx : rx < count)
    (hfg : ∀ m x, m.Holds x → (f m).Holds (g x)) :
    BothOk (fun exs' l' => HoldsAll exs' l' ∧ exs'.length = exs.length ∧
        HasResponses exs' e count)
      (writeResponse exs e rx f) (FremSoft.writeResponse l e rx g) := by
  obtain ⟨ex, xs, hex, hxs, rfl⟩ := hhas
  have he := (List.getElem?_eq_some_iff.1 hex).1
  obtain ⟨x, hx, hexx⟩ := forall₂_getElem? hholds.flip hex
  have hresponses : List.Forall₂ MemResponse.Holds xs x.responses := by
    simpa [hxs] using hexx.responses
  have hmem : writeResponse exs e rx f = .ok (exs.modify e fun ex =>
      { ex with responses := some (xs.modify rx f) }) := by
    rw [writeResponse, readAt_of_getElem? _ hex, ok_bind]
    simp only [hxs]
    rw [modifyAt_ok _ hrx, ok_bind]
    exact modifyAt_ok _ he _
  have hlist : FremSoft.writeResponse l e rx g = .ok (l.modify e fun ex =>
      { ex with responses := ex.responses.modify rx g }) := by
    have hlt : rx < x.responses.length := hresponses.length_eq ▸ hrx
    simp only [FremSoft.writeResponse, hx, if_pos hlt]
  refine ⟨_, _, hmem, hlist, ?_, List.length_modify .., ?_⟩
  · refine forall₂_modify hholds fun m y hm hmy => ?_
    obtain rfl : m = ex := Option.some.inj (hm.symm.trans hex)
    have hys : List.Forall₂ MemResponse.Holds xs y.responses := by
      simpa [hxs] using hmy.responses
    exact
      { canId := hmy.canId
        uds := hmy.uds
        count := by simpa [hxs] using hmy.count
        responses := forall₂_modify hys fun m x _ hmx => hfg m x hmx }
  · refine ⟨{ ex with responses := some (xs.modify rx f) }, xs.modify rx f, ?_,
      rfl, List.length_modify ..⟩
    simp [hex]

end Writes

end Mem

end FremSoft
