/-
Whatever tokens it is given, `recording_load` fills its byte strings from
stretches of the text, so their lengths fit the C `int`s they are kept in: what
it returns is a `LoadedRecording`.
-/
import FremSoft.LoadTree

namespace FremSoft

/-- The byte strings of a response, and of an exchange with its responses. -/
def RecordedResponse.Sized (x : RecordedResponse) : Prop :=
  x.udsBytes.length < 2 ^ 31

def RecordedExchange.Sized (ex : RecordedExchange) : Prop :=
  ex.udsBytes.length < 2 ^ 31 ∧ ∀ x ∈ ex.responses, x.Sized

def SizedExchanges (exs : List RecordedExchange) : Prop := ∀ ex ∈ exs, ex.Sized

theorem forall_mem_modify {α : Type} {P : α → Prop} {f : α → α}
    (hf : ∀ a, P a → P (f a)) {l : List α} (h : ∀ a ∈ l, P a) (i : Nat) :
    ∀ a ∈ l.modify i f, P a := by
  intro a ha
  obtain ⟨j, hj⟩ := List.mem_iff_getElem?.1 ha
  rw [List.getElem?_modify] at hj
  obtain ⟨b, hb, heq⟩ := Option.map_eq_some_iff.1 hj
  have hmem := h b (List.mem_of_getElem? hb)
  subst heq
  split
  · exact hf b hmem
  · exact hmem

theorem sized_replicate_zero (n : Nat) :
    SizedExchanges (List.replicate n RecordedExchange.zero) := by
  intro ex hex
  rw [(List.mem_replicate.1 hex).2]
  simp [RecordedExchange.Sized, RecordedExchange.zero]

section Loops

variable {json : List Char} {toks : List JsmnTok} {e rx : Nat}
  {exs exs' : List RecordedExchange}

theorem parseHexBytes_memberText {i : Nat} {text : List Char}
    (hjson : json.length < 2 ^ 31) (h : memberText json toks i = .ok text) :
    (parseHexBytes text).length < 2 ^ 31 := by
  obtain ⟨tok, _, htext⟩ := bind_eq_ok h
  have hlength : text.length ≤ json.length := by
    rw [← Except.ok.inj htext, tokText, List.length_take, List.length_drop]
    omega
  have hbytes := parseHexBytes_length text
  omega

theorem writeExchange_sized {f : RecordedExchange → RecordedExchange}
    (h : writeExchange exs e f = .ok exs') (hsized : SizedExchanges exs)
    (hf : ∀ ex, ex.Sized → (f ex).Sized) : SizedExchanges exs' := by
  unfold writeExchange at h
  split at h
  · rw [← Except.ok.inj h]
    exact forall_mem_modify hf hsized e
  · cases h

theorem writeResponse_sized {f : RecordedResponse → RecordedResponse}
    (h : writeResponse exs e rx f = .ok exs') (hsized : SizedExchanges exs)
    (hf : ∀ x, x.Sized → (f x).Sized) : SizedExchanges exs' := by
  unfold writeResponse at h
  split at h
  · cases h
  · split at h
    · rw [← Except.ok.inj h]
      refine forall_mem_modify (fun ex hex => ?_) hsized e
      exact ⟨hex.1, forall_mem_modify hf hex.2 rx⟩
    · cases h

/-- A loop that is left returns what it has. -/
theorem sizedExchanges_of_return {t t' : Nat}
    (h : (Except.ok (exs, t) : Except Fault _) = .ok (exs', t'))
    (hsized : SizedExchanges exs) : SizedExchanges exs' := by
  rw [← (Prod.mk.inj (Except.ok.inj h)).1]
  exact hsized

theorem txMembersLoop_sized (hjson : json.length < 2 ^ 31) {q t t' : Nat}
    (hsized : SizedExchanges exs)
    (h : txMembersLoop json toks e q exs t = .ok (exs', t')) :
    SizedExchanges exs' := by
  induction q generalizing exs t with
  | zero => exact sizedExchanges_of_return h hsized
  | succ q ih =>
      rw [txMembersLoop] at h
      split at h
      · obtain ⟨isCan, _, h⟩ := bind_eq_ok h
        split at h
        · obtain ⟨text, _, h⟩ := bind_eq_ok h
          obtain ⟨exs₁, hwrite, h⟩ := bind_eq_ok h
          exact ih (writeExchange_sized hwrite hsized fun ex hex => hex) h
        · obtain ⟨isUds, _, h⟩ := bind_eq_ok h
          split at h
          · obtain ⟨text, htext, h⟩ := bind_eq_ok h
            obtain ⟨exs₁, hwrite, h⟩ := bind_eq_ok h
            have hbytes := parseHexBytes_memberText hjson htext
            exact ih (writeExchange_sized hwrite hsized
              fun ex hex => ⟨hbytes, hex.2⟩) h
          · exact ih hsized h
      · exact sizedExchanges_of_return h hsized

theorem rxMembersLoop_sized (hjson : json.length < 2 ^ 31) {q t t' : Nat}
    (hsized : SizedExchanges exs)
    (h : rxMembersLoop json toks e rx q exs t = .ok (exs', t')) :
    SizedExchanges exs' := by
  induction q generalizing exs t with
  | zero => exact sizedExchanges_of_return h hsized
  | succ q ih =>
      rw [rxMembersLoop] at h
      split at h
      · obtain ⟨isCan, _, h⟩ := bind_eq_ok h
        split at h
        · obtain ⟨text, _, h⟩ := bind_eq_ok h
          obtain ⟨exs₁, hwrite, h⟩ := bind_eq_ok h
          exact ih (writeResponse_sized hwrite hsized fun x hx => hx) h
        · obtain ⟨isUds, _, h⟩ := bind_eq_ok h
          split at h
          · obtain ⟨text, htext, h⟩ := bind_eq_ok h
            obtain ⟨exs₁, hwrite, h⟩ := bind_eq_ok h
            have hbytes := parseHexBytes_memberText hjson htext
            exact ih (writeResponse_sized hwrite hsized fun x _ => hbytes) h
          · obtain ⟨isDelay, _, h⟩ := bind_eq_ok h
            split at h
            · obtain ⟨text, _, h⟩ := bind_eq_ok h
              obtain ⟨delay, _, h⟩ := bind_eq_ok h
              obtain ⟨exs₁, hwrite, h⟩ := bind_eq_ok h
              exact ih (writeResponse_sized hwrite hsized fun x hx => hx) h
            · exact ih hsized h
      · exact sizedExchanges_of_return h hsized

theorem rxLoop_sized (hjson : json.length < 2 ^ 31) {left t t' : Nat}
    (hsized : SizedExchanges exs)
    (h : rxLoop json toks e left rx exs t = .ok (exs', t')) :
    SizedExchanges exs' := by
  induction left generalizing exs t rx with
  | zero => exact sizedExchanges_of_return h hsized
  | succ left ih =>
      rw [rxLoop] at h
      split at h
      · obtain ⟨tok, _, h⟩ := bind_eq_ok h
        split at h
        · obtain ⟨⟨exs₁, t₁⟩, hloop, h⟩ := bind_eq_ok h
          exact ih (rxMembersLoop_sized hjson hsized hloop) h
        · exact ih hsized h
      · exact sizedExchanges_of_return h hsized

theorem exchangeMembersLoop_sized (hjson : json.length < 2 ^ 31) {k t t' : Nat}
    (hsized : SizedExchanges exs)
    (h : exchangeMembersLoop json toks e k exs t = .ok (exs', t')) :
    SizedExchanges exs' := by
  induction k generalizing exs t with
  | zero => exact sizedExchanges_of_return h hsized
  | succ k ih =>
      rw [exchangeMembersLoop] at h
      split at h
      · obtain ⟨isTx, _, h⟩ := bind_eq_ok h
        split at h
        · obtain ⟨value, _, h⟩ := bind_eq_ok h
          obtain ⟨⟨exs₁, t₁⟩, hloop, h⟩ := bind_eq_ok h
          exact ih (txMembersLoop_sized hjson hsized hloop) h
        · obtain ⟨isRx, _, h⟩ := bind_eq_ok h
          split at h
          · obtain ⟨value, _, h⟩ := bind_eq_ok h
            obtain ⟨exs₁, hwrite, h⟩ := bind_eq_ok h
            obtain ⟨⟨exs₂, t₂⟩, hloop, h⟩ := bind_eq_ok h
            have hzeroed := writeExchange_sized hwrite hsized
              fun ex hex => ⟨hex.1, by
                intro x hx
                rw [(List.mem_replicate.1 hx).2]
                simp [RecordedResponse.Sized, RecordedResponse.zero]⟩
            exact ih (rxLoop_sized hjson hzeroed hloop) h
          · exact ih hsized h
      · exact sizedExchanges_of_return h hsized

theorem exchangesLoop_sized (hjson : json.length < 2 ^ 31) {left t t' : Nat}
    (hsized : SizedExchanges exs)
    (h : exchangesLoop json toks left e exs t = .ok (exs', t')) :
    SizedExchanges exs' := by
  induction left generalizing exs t e with
  | zero => exact sizedExchanges_of_return h hsized
  | succ left ih =>
      rw [exchangesLoop] at h
      split at h
      · obtain ⟨tok, _, h⟩ := bind_eq_ok h
        split at h
        · obtain ⟨⟨exs₁, t₁⟩, hloop, h⟩ := bind_eq_ok h
          exact ih (exchangeMembersLoop_sized hjson hsized hloop) h
        · exact ih hsized h
      · exact sizedExchanges_of_return h hsized

theorem topLoop_sized (hjson : json.length < 2 ^ 31) {fuel t : Nat}
    {r r' : Recording} (hsized : SizedExchanges r.exchanges)
    (h : topLoop json toks fuel r t = .ok r') :
    SizedExchanges r'.exchanges := by
  induction fuel generalizing r t with
  | zero =>
      rw [topLoop] at h
      split at h
      · cases h
      · rw [← Except.ok.inj h]
        exact hsized
  | succ fuel ih =>
      rw [topLoop] at h
      split at h
      · obtain ⟨isId, _, h⟩ := bind_eq_ok h
        split at h
        · obtain ⟨text, _, h⟩ := bind_eq_ok h
          obtain ⟨id, _, h⟩ := bind_eq_ok h
          exact ih (r := { r with recordingId := id }) hsized h
        · obtain ⟨isProfile, _, h⟩ := bind_eq_ok h
          split at h
          · obtain ⟨text, _, h⟩ := bind_eq_ok h
            obtain ⟨profile, _, h⟩ := bind_eq_ok h
            exact ih (r := { r with vehicleProfile := profile }) hsized h
          · obtain ⟨isExchanges, _, h⟩ := bind_eq_ok h
            split at h
            · obtain ⟨value, _, h⟩ := bind_eq_ok h
              obtain ⟨⟨exs, j⟩, hloop, h⟩ := bind_eq_ok h
              exact ih (exchangesLoop_sized hjson (sized_replicate_zero _)
                hloop) h
            · exact ih hsized h
      · rw [← Except.ok.inj h]
        exact hsized

end Loops

/-- What `recording_load` returns for a text that `int` offsets reach. -/
theorem recordingLoad_sized {json : List Char} {toks : List JsmnTok}
    {r : Recording} (hjson : json.length < 2 ^ 31)
    (h : recordingLoad json toks = .ok (some r)) : r.Sized := by
  cases toks with
  | nil => cases h
  | cons tok rest =>
      rw [recordingLoad] at h
      split at h
      · cases h
      · cases hloop : topLoop json (tok :: rest) (tok :: rest).length
            { recordingId := [], vehicleProfile := [], exchanges := [] } 1 with
        | error fault =>
            rw [hloop] at h
            cases h
        | ok r' =>
            rw [hloop] at h
            obtain rfl : r' = r := Option.some.inj (Except.ok.inj h)
            exact topLoop_sized hjson (by simp [SizedExchanges]) hloop

end FremSoft
