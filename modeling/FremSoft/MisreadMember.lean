/-
What goes wrong with a foreign member whose value is not stepped over: for each
level, a document of the format that loads differently once the member is in.
-/
import FremSoft.ForeignMember

namespace FremSoft

/-! ### The document -/

def probeHeader : DocHeader :=
  { recordingId := [], capturedAt := [], vehicleProfile := [], sourceLog := [] }

def probeEntry : ExchangeEntry :=
  { canId := "0x07E0".toList, uds := "1a".toList
    rx := [{ canId := "0x05E8".toList, uds := "5a".toList
             delayMs := "7".toList }] }

def probeExchange : RecordedExchange :=
  { canId := 0x7E0, udsBytes := [0x1A]
    responses := [{ canId := 0x5E8, udsBytes := [0x5A], delayMs := 7 }] }

def probeTx (tx : List (List Char × Json)) : List (List Char × Json) :=
  ("can_id".toList, .str "0x07E0".toList) ::
    (tx ++ [("uds".toList, .str "1a".toList)])

def probeRx (rx : List (List Char × Json)) : List (List Char × Json) :=
  [("can_id".toList, .str "0x05E8".toList), ("uds".toList, .str "5a".toList)] ++
    (rx ++ [("delay_ms".toList, .prim "7".toList)])

def probeMembers (exchange tx rx : List (List Char × Json)) :
    List (List Char × Json) :=
  ("tx".toList, .obj (probeTx tx)) ::
    (exchange ++ [("rx".toList, .arr [.obj (probeRx rx)])])

/-- The document, with room for added members at every level. -/
def probeDoc (top exchange tx rx : List (List Char × Json)) : Json :=
  .obj (probeHeader.members ++ (top ++
    [("exchanges".toList, .arr [.obj (probeMembers exchange tx rx)])]))

/-- The document with the member added at a level. -/
def probeWith (m : List Char × Json) : ObjectLevel → Json
  | .document => probeDoc [m] [] [] []
  | .exchange => probeDoc [] [m] [] []
  | .tx => probeDoc [] [] [m] []
  | .rx => probeDoc [] [] [] [m]

theorem probeDoc_isRecordingDoc :
    IsRecordingDoc probeHeader [probeEntry] (probeDoc [] [] [] []) := by
  refine ⟨_, _, rfl, .refl _, .cons ⟨_, _, _, rfl, .refl _, .refl _, ?_⟩ .nil⟩
  exact .cons ⟨_, rfl, .refl _⟩ .nil

theorem inserts_probeWith (m : List Char × Json) (level : ObjectLevel) :
    Inserts m level (probeDoc [] [] [] []) (probeWith m level) := by
  cases level with
  | document => exact ⟨probeHeader.members, _, rfl, rfl⟩
  | exchange =>
      exact ⟨probeHeader.members, [], _, _, rfl, rfl, [], [], _, _, rfl, rfl,
        [_], _, rfl, rfl⟩
  | tx =>
      exact ⟨probeHeader.members, [], _, _, rfl, rfl, [], [], _, _, rfl, rfl,
        [], _, _, _, rfl, rfl, [_], _, rfl, rfl⟩
  | rx =>
      exact ⟨probeHeader.members, [], _, _, rfl, rfl, [], [], _, _, rfl, rfl,
        [_], [], _, _, rfl, rfl, [], [], _, _, rfl, rfl, [_, _], _, rfl, rfl⟩

theorem probeEntry_exchange : probeEntry.exchange = probeExchange := by
  decide +kernel

theorem loadedExchanges_probe {json : List Char} {toks : List JsmnTok}
    (h : Tokenises json (probeDoc [] [] [] []) toks) :
    loadedExchanges json toks = .ok (some [probeExchange]) := by
  obtain ⟨r, hload, hexchanges⟩ := recordingLoad_of_doc
    probeDoc_isRecordingDoc h
  rw [loadedExchanges, hload]
  have hresult : r.exchanges = [probeExchange] := by
    rw [hexchanges, List.map_cons, probeEntry_exchange, List.map_nil]
  exact congrArg (fun exs => Except.ok (some exs)) hresult

/-! ### Steps into the value -/

section Skips

variable {json : List Char} {toks : List JsmnTok} {t e : Nat}
  {shape : TokShape} {rest : List TokShape} {exs : List RecordedExchange}

theorem Ahead.drop {shapes : List TokShape} (h : Ahead json toks t shapes)
    (k : Nat) : Ahead json toks (t + k) (shapes.drop k) := by
  rw [Ahead, ← List.drop_drop]
  exact List.forall₂_drop k h

theorem txMembersLoop_skip (h : Ahead json toks t (shape :: rest))
    (hproper : shape.Proper) (havoid : shape.Avoids txNames) (q : Nat) :
    txMembersLoop json toks e (q + 1) exs t =
      txMembersLoop json toks e q exs (t + 2) := by
  have hnot := fun name hname =>
    isMember_of_not_spells h hproper (havoid name hname)
  rw [txMembersLoop, if_pos h.lt, hnot _ (by simp [txNames]), ok_bind,
    if_neg (by simp), hnot _ (by simp [txNames]), ok_bind, if_neg (by simp)]

theorem rxMembersLoop_skip {rx : Nat} (h : Ahead json toks t (shape :: rest))
    (hproper : shape.Proper) (havoid : shape.Avoids rxNames) (q : Nat) :
    rxMembersLoop json toks e rx (q + 1) exs t =
      rxMembersLoop json toks e rx q exs (t + 2) := by
  have hnot := fun name hname =>
    isMember_of_not_spells h hproper (havoid name hname)
  rw [rxMembersLoop, if_pos h.lt, hnot _ (by simp [rxNames]), ok_bind,
    if_neg (by simp), hnot _ (by simp [rxNames]), ok_bind, if_neg (by simp),
    hnot _ (by simp [rxNames]), ok_bind, if_neg (by simp)]

def exchangeNames : List (List Char) := ["tx".toList, "rx".toList]

theorem exchangeMembersLoop_skip (h : Ahead json toks t (shape :: rest))
    (hproper : shape.Proper) (havoid : shape.Avoids exchangeNames) (k : Nat) :
    exchangeMembersLoop json toks e (k + 1) exs t =
      exchangeMembersLoop json toks e k exs (t + 2) := by
  have hnot := fun name hname =>
    isMember_of_not_spells h hproper (havoid name hname)
  rw [exchangeMembersLoop, if_pos h.lt, isMemberOf,
    hnot _ (by simp [exchangeNames]), isMemberOf,
    hnot _ (by simp [exchangeNames])]
  rfl

end Skips

/-! ### What is loaded -/

theorem plainTop_probeHeader :
    ∀ m ∈ probeHeader.members, PlainTopMember m := by
  obtain ⟨members, heq, hplain⟩ := probeDoc_isRecordingDoc.plain
  obtain rfl := Json.obj.inj heq
  exact fun m hm => hplain m (List.mem_append_left _ hm)

theorem probeHeader_exchanges (r : Recording) :
    (probeHeader.members.foldl recordingField r).exchanges = r.exchanges := by
  simp [probeHeader, DocHeader.members, recordingField]

/-- What the `k` loop reads of the only exchange is what is loaded, as long as
the outer loop finds no name behind it. -/
theorem loadedExchanges_of_loop {json : List Char} {toks : List JsmnTok}
    {members : List (List Char × Json)} {ex : RecordedExchange}
    (htoks : Tokenises json (.obj (probeHeader.members ++
      [("exchanges".toList, .arr [.obj members])])) toks)
    (havoid : ∀ shape ∈ flattenMembers members, shape.Avoids topNames)
    (hloop : ∀ t, Ahead json toks t (flattenMembers members) →
      ∃ k, exchangeMembersLoop json toks 0 members.length
        [RecordedExchange.zero] t = .ok ([ex], t + k)) :
    loadedExchanges json toks = .ok (some [ex]) := by
  have hload : recordingLoad json toks = .ok (some
      { probeHeader.members.foldl recordingField
          { recordingId := [], vehicleProfile := [], exchanges := [] } with
        exchanges := [ex] }) := by
    refine recordingLoad_of_topRuns htoks fun hahead => ?_
    rw [flattenMembers_append] at hahead
    apply topRuns_members plainTop_probeHeader hahead
    have hmember := hahead.skip
    have hitem : Ahead json toks
        (1 + (flattenMembers probeHeader.members).length + 2)
        ((Json.obj members).flatten ++ []) := by
      simpa [flattenItems, flattenMembers] using hmember.tail.tail
    have hinside : Ahead json toks
        (1 + (flattenMembers probeHeader.members).length + 3)
        (flattenMembers members) := by
      simpa using hitem.tail
    obtain ⟨k, hread⟩ := hloop _ hinside
    have hpass := exchangesLoop_object hitem hread 0
    apply topRuns_exchanges hmember hpass (by omega)
    refine topRuns_rest (hinside.drop k) (fun shape hshape => ?_)
      (everyOther_of_forall fun shape hshape => ?_)
    · exact flattenMembers_proper members shape (List.mem_of_mem_drop hshape)
    · exact havoid shape (List.mem_of_mem_drop hshape)
  rw [loadedExchanges, hload]
  rfl

theorem TokShape.Avoids.mono {names names' : List (List Char)}
    {shape : TokShape} (h : shape.Avoids names')
    (hsub : ∀ name ∈ names, name ∈ names') : shape.Avoids names :=
  fun name hname => h name (hsub name hname)

theorem ForeignMember.avoids {m : List Char × Json} (hforeign : ForeignMember m)
    {names : List (List Char)} (hsub : ∀ name ∈ names, name ∈ loaderNames) :
    ∀ shape ∈ flattenMembers [m], shape.Avoids names := by
  intro shape hshape
  rw [flattenMembers_cons, flattenMembers, List.append_nil] at hshape
  rcases List.mem_cons.1 hshape with rfl | hshape
  · exact (avoids_key hforeign.key).mono hsub
  · exact (hforeign.value shape hshape).mono hsub

theorem topNames_sub : ∀ name ∈ topNames, name ∈ loaderNames := by
  simp [topNames, loaderNames]

theorem exchangeNames_sub : ∀ name ∈ exchangeNames, name ∈ loaderNames := by
  simp [exchangeNames, loaderNames]

theorem txNames_sub : ∀ name ∈ txNames, name ∈ loaderNames := by
  simp [txNames, loaderNames]

theorem rxNames_sub : ∀ name ∈ rxNames, name ∈ loaderNames := by
  simp [rxNames, loaderNames]

/-- The token `k` places on, while it still belongs to the front. -/
theorem Ahead.get {json : List Char} {toks : List JsmnTok} {t k : Nat}
    {front rest : List TokShape} (h : Ahead json toks t (front ++ rest))
    (hk : k < front.length) :
    ∃ shape rest', Ahead json toks (t + k) (shape :: rest') ∧
      shape ∈ front := by
  have hdrop := h.drop k
  rw [List.drop_append_of_le_length (by omega), List.drop_eq_getElem_cons hk,
    List.cons_append] at hdrop
  exact ⟨_, _, hdrop, List.getElem_mem hk⟩

section Lost

variable {json : List Char} {toks : List JsmnTok} {t e : Nat}
  {m : List Char × Json} {rest : List TokShape} {exs : List RecordedExchange}

/-- A token that one of the loops steps over. -/
def SkippedAt (json : List Char) (toks : List JsmnTok) (t : Nat) : Prop :=
  ∃ shape rest, Ahead json toks t (shape :: rest) ∧ shape.Proper ∧
    shape.Avoids loaderNames

/-- The key of a foreign member, and the second token of its value. -/
theorem foreign_skippedAt (hforeign : ForeignMember m)
    (hlong : 2 ≤ m.2.flatten.length)
    (h : Ahead json toks t (flattenMembers [m] ++ rest)) :
    SkippedAt json toks t ∧ SkippedAt json toks (t + 2) := by
  have hlength : 2 < (flattenMembers [m]).length := by
    simp only [flattenMembers_cons, List.length_cons, List.length_append]
    omega
  have hskipped : ∀ k, k ≤ 2 → SkippedAt json toks (t + k) := by
    intro k hk
    obtain ⟨shape, rest', hahead, hmem⟩ := h.get (show k < _ by omega)
    exact ⟨shape, rest', hahead, flattenMembers_proper [m] shape hmem,
      hforeign.avoids (fun _ h => h) shape hmem⟩
  exact ⟨hskipped 0 (by omega), hskipped 2 (by omega)⟩

/-! Two passes are spent on a foreign member of several tokens: one on its key,
and one on the second token of its value. -/

theorem txMembersLoop_lost (hforeign : ForeignMember m)
    (hlong : 2 ≤ m.2.flatten.length)
    (h : Ahead json toks t (flattenMembers [m] ++ rest)) (q : Nat) :
    txMembersLoop json toks e (q + 2) exs t =
      txMembersLoop json toks e q exs (t + 4) := by
  obtain ⟨⟨_, _, hkey, hproper, havoid⟩, ⟨_, _, hsecond, hproper', havoid'⟩⟩ :=
    foreign_skippedAt hforeign hlong h
  rw [txMembersLoop_skip hkey hproper (havoid.mono txNames_sub),
    txMembersLoop_skip hsecond hproper' (havoid'.mono txNames_sub)]

theorem rxMembersLoop_lost {rx : Nat} (hforeign : ForeignMember m)
    (hlong : 2 ≤ m.2.flatten.length)
    (h : Ahead json toks t (flattenMembers [m] ++ rest)) (q : Nat) :
    rxMembersLoop json toks e rx (q + 2) exs t =
      rxMembersLoop json toks e rx q exs (t + 4) := by
  obtain ⟨⟨_, _, hkey, hproper, havoid⟩, ⟨_, _, hsecond, hproper', havoid'⟩⟩ :=
    foreign_skippedAt hforeign hlong h
  rw [rxMembersLoop_skip hkey hproper (havoid.mono rxNames_sub),
    rxMembersLoop_skip hsecond hproper' (havoid'.mono rxNames_sub)]

theorem exchangeMembersLoop_lost (hforeign : ForeignMember m)
    (hlong : 2 ≤ m.2.flatten.length)
    (h : Ahead json toks t (flattenMembers [m] ++ rest)) (k : Nat) :
    exchangeMembersLoop json toks e (k + 2) exs t =
      exchangeMembersLoop json toks e k exs (t + 4) := by
  obtain ⟨⟨_, _, hkey, hproper, havoid⟩, ⟨_, _, hsecond, hproper', havoid'⟩⟩ :=
    foreign_skippedAt hforeign hlong h
  rw [exchangeMembersLoop_skip hkey hproper (havoid.mono exchangeNames_sub),
    exchangeMembersLoop_skip hsecond hproper' (havoid'.mono exchangeNames_sub)]

end Lost

theorem probeMembers_avoid {exchange tx rx : List (List Char × Json)}
    (hexchange : ∀ shape ∈ flattenMembers exchange, shape.Avoids topNames)
    (htx : ∀ shape ∈ flattenMembers tx, shape.Avoids topNames)
    (hrx : ∀ shape ∈ flattenMembers rx, shape.Avoids topNames) :
    ∀ shape ∈ flattenMembers (probeMembers exchange tx rx),
      shape.Avoids topNames := by
  intro shape hshape
  simp only [probeMembers, probeTx, probeRx, flattenMembers,
    flattenMembers_append, flattenItems, Json.flatten, List.cons_append,
    List.nil_append, List.append_nil, List.append_assoc, List.mem_cons,
    List.mem_append, List.not_mem_nil, or_false] at hshape
  -- The document's own tokens are containers, keys and texts, none a top name.
  rcases hshape with rfl | rfl | rfl | rfl | hmem | rfl | rfl | hmem | rfl |
    rfl | rfl | rfl | rfl | rfl | rfl | hmem | rfl | rfl
  case inr.inr.inr.inr.inl => exact htx shape hmem
  case inr.inr.inr.inr.inr.inr.inr.inl => exact hexchange shape hmem
  case inr.inr.inr.inr.inr.inr.inr.inr.inr.inr.inr.inr.inr.inr.inr.inl =>
    exact hrx shape hmem
  all_goals simp [TokShape.Avoids, topNames, TokShape.spells, TokShape.key]

/-- What is loaded once a member that is not stepped over is in. -/
def misread : ObjectLevel → List RecordedExchange
  | .document => []
  | .exchange => [{ probeExchange with responses := [] }]
  | .tx => [{ probeExchange with udsBytes := [], responses := [] }]
  | .rx => [{ probeExchange with
      responses := [{ canId := 0x5E8, udsBytes := [0x5A], delayMs := 0 }] }]

theorem misread_ne (level : ObjectLevel) : misread level ≠ [probeExchange] := by
  cases level <;> decide

section Misread

variable {json : List Char} {toks : List JsmnTok} {m : List Char × Json}

theorem nothing_avoids {names : List (List Char)} :
    ∀ shape ∈ flattenMembers [], shape.Avoids names := by
  simp [flattenMembers]

theorem plain_probeTx :
    PlainExchangeMember ("tx".toList, .obj (probeTx [])) :=
  .tx (ExchangeEntry.plain_tx (e := probeEntry) (.refl _))

theorem zeroed :
    [RecordedExchange.zero][0]? = some RecordedExchange.zero := rfl

theorem probeTx_read :
    exchangeField RecordedExchange.zero ("tx".toList, .obj (probeTx [])) =
      { probeExchange with responses := [] } := by
  decide +kernel

/-- In an exchange object both passes behind `tx` are spent on the member. -/
theorem loadedExchanges_exchange (hforeign : ForeignMember m)
    (hlong : 2 ≤ m.2.flatten.length)
    (htoks : Tokenises json (probeWith m .exchange) toks) :
    loadedExchanges json toks = .ok (some (misread .exchange)) := by
  refine loadedExchanges_of_loop htoks (probeMembers_avoid
    (hforeign.avoids topNames_sub) nothing_avoids nothing_avoids)
    fun t hahead => ⟨10, ?_⟩
  have hpass : exchangeMembersLoop json toks 0 3 [RecordedExchange.zero] t =
      exchangeMembersLoop json toks 0 2
        [{ probeExchange with responses := [] }] (t + 6) := by
    rw [exchangeMembersLoop_pass hahead plain_probeTx zeroed, probeTx_read]
    rfl
  have hm : Ahead json toks (t + 6) (flattenMembers [m] ++
      flattenMembers [("rx".toList, .arr [.obj (probeRx [])])]) := by
    rw [← flattenMembers_append]
    exact hahead.tail.skip
  exact hpass.trans (exchangeMembersLoop_lost hforeign hlong hm 0)

theorem probeCanId_read :
    txField RecordedExchange.zero ("can_id".toList, .str "0x07E0".toList) =
      { probeExchange with udsBytes := [], responses := [] } := by
  decide +kernel

/-- In a `tx` object the two passes behind `can_id` are spent on the member,
and the one behind `tx` in the exchange on what is left of it. -/
theorem loadedExchanges_tx (hforeign : ForeignMember m)
    (hlong : 2 ≤ m.2.flatten.length)
    (htoks : Tokenises json (probeWith m .tx) toks) :
    loadedExchanges json toks = .ok (some (misread .tx)) := by
  refine loadedExchanges_of_loop htoks (probeMembers_avoid nothing_avoids
    (hforeign.avoids topNames_sub) nothing_avoids) fun t hahead => ⟨10, ?_⟩
  have hinside : Ahead json toks (t + 2) (flattenMembers (probeTx [m]) ++
      flattenMembers [("rx".toList, .arr [.obj (probeRx [])])]) :=
    hahead.tail.tail
  have hcan : txMembersLoop json toks 0 3 [RecordedExchange.zero] (t + 2) =
      txMembersLoop json toks 0 2
        [{ probeExchange with udsBytes := [], responses := [] }] (t + 4) := by
    rw [probeTx, flattenMembers_cons_append] at hinside
    rw [txMembersLoop_pass hinside (plainMember_of_leaf (.inl ⟨_, rfl⟩)) zeroed,
      probeCanId_read]
    rfl
  have hm : Ahead json toks (t + 4) (flattenMembers [m] ++
      (flattenMembers [("uds".toList, .str "1a".toList)] ++
        flattenMembers [("rx".toList, .arr [.obj (probeRx [])])])) := by
    rw [probeTx, flattenMembers_cons_append, flattenMembers_append,
      List.append_assoc] at hinside
    exact hinside.tail.tail
  have hloop := hcan.trans (txMembersLoop_lost hforeign hlong hm 0)
  have hpass := exchangeMembersLoop_tx hahead hloop 1
  -- The token the exchange loop finds next still belongs to the `tx` object.
  have hfront : ∀ shape ∈ flattenMembers [m] ++
      flattenMembers [("uds".toList, .str "1a".toList)],
      shape.Proper ∧ shape.Avoids exchangeNames := by
    intro shape hshape
    refine ⟨?_, ?_⟩
    · rw [← flattenMembers_append] at hshape
      exact flattenMembers_proper _ shape hshape
    · rcases List.mem_append.1 hshape with hshape | hshape
      · exact hforeign.avoids exchangeNames_sub shape hshape
      · simp only [flattenMembers, Json.flatten, List.cons_append,
          List.nil_append, List.mem_cons, List.not_mem_nil, or_false] at hshape
        rcases hshape with rfl | rfl
        · exact avoids_key (by simp [exchangeNames])
        · simp [TokShape.Avoids, exchangeNames, TokShape.spells]
  rw [← List.append_assoc] at hm
  obtain ⟨shape, rest, hnext, hmem⟩ := hm.get (k := 4) (by
    simp only [flattenMembers, Json.flatten, List.length_cons,
      List.length_append, List.length_nil]
    omega)
  exact hpass.trans (exchangeMembersLoop_skip hnext (hfront shape hmem).1
    (hfront shape hmem).2 0)

theorem probeRx_read :
    [("can_id".toList, Json.str "0x05E8".toList),
        ("uds".toList, .str "5a".toList)].foldl rxField
        RecordedResponse.zero =
      { canId := 0x5E8, udsBytes := [0x5A], delayMs := 0 } := by
  decide +kernel

/-- In an `rx` element the two passes behind `uds` are spent on the member. -/
theorem loadedExchanges_rx (hforeign : ForeignMember m)
    (hlong : 2 ≤ m.2.flatten.length)
    (htoks : Tokenises json (probeWith m .rx) toks) :
    loadedExchanges json toks = .ok (some (misread .rx)) := by
  refine loadedExchanges_of_loop htoks (probeMembers_avoid nothing_avoids
    nothing_avoids (hforeign.avoids topNames_sub)) fun t hahead => ⟨17, ?_⟩
  have hpass : exchangeMembersLoop json toks 0 2 [RecordedExchange.zero] t =
      exchangeMembersLoop json toks 0 1
        [{ probeExchange with responses := [] }] (t + 6) := by
    rw [exchangeMembersLoop_pass hahead plain_probeTx zeroed, probeTx_read]
    rfl
  have hrx : Ahead json toks (t + 6) (flattenMembers
      [("rx".toList, .arr [.obj (probeRx [m])])]) := hahead.tail.skip
  have hitem : Ahead json toks (t + 8)
      ((Json.obj (probeRx [m])).flatten ++ []) := by
    simpa [flattenItems, flattenMembers] using hrx.tail.tail
  have hmembers : Ahead json toks (t + 9) (flattenMembers (probeRx [m])) := by
    simpa using hitem.tail
  rw [probeRx, flattenMembers_append] at hmembers
  have hread : rxMembersLoop json toks 0 0 4
      [{ probeExchange with responses := [RecordedResponse.zero] }] (t + 9) =
      rxMembersLoop json toks 0 0 2 [{ probeExchange with
        responses := [{ canId := 0x5E8, udsBytes := [0x5A], delayMs := 0 }] }]
        (t + 13) := by
    rw [rxMembersLoop_pass (m := ("can_id".toList, .str "0x05E8".toList))
        hmembers (plainMember_of_leaf (.inl ⟨_, rfl⟩)) rfl rfl,
      rxMembersLoop_pass (m := ("uds".toList, .str "5a".toList))
        hmembers.tail.tail (plainMember_of_leaf (.inl ⟨_, rfl⟩)) rfl rfl]
    exact congrArg (fun x => rxMembersLoop json toks 0 0 2
      [{ probeExchange with responses := [x] }] (t + 13)) probeRx_read
  have hm : Ahead json toks (t + 13) (flattenMembers [m] ++
      flattenMembers [("delay_ms".toList, .prim "7".toList)]) := by
    rw [← flattenMembers_append]
    exact hmembers.skip
  have hloop := hread.trans (rxMembersLoop_lost hforeign hlong hm 0)
  have hslot : [{ probeExchange with responses := [] }][0]? =
      some { probeExchange with responses := [] } := rfl
  exact hpass.trans
    (exchangeMembersLoop_rx hrx hslot (rxLoop_object hitem hloop 0) 0)

theorem everyOther_append_of_odd {α : Type} {P : α → Prop} :
    ∀ {front back : List α}, front.length % 2 = 1 → (∀ a ∈ front, P a) →
      EveryOther P back.tail → EveryOther P (front ++ back)
  | [a], [], _, hfront, _ => hfront a List.mem_cons_self
  | [a], _ :: _, _, hfront, hback => ⟨hfront a List.mem_cons_self, hback⟩
  | a :: b :: front, _, hlength, hfront, hback => by
      rw [List.length_cons, List.length_cons] at hlength
      exact ⟨hfront a List.mem_cons_self,
        everyOther_append_of_odd (by omega) (fun c hc => hfront c
          (List.mem_cons_of_mem a (List.mem_cons_of_mem b hc))) hback⟩

/-- In the document itself an even number of tokens puts the walk on the values
instead of the keys: `exchanges` is never looked at. -/
theorem loadedExchanges_document (hforeign : ForeignMember m)
    (heven : m.2.flatten.length % 2 = 0)
    (htoks : Tokenises json (probeWith m .document) toks) :
    loadedExchanges json toks = .ok (some (misread .document)) := by
  have hload : recordingLoad json toks = .ok (some
      (probeHeader.members.foldl recordingField
        { recordingId := [], vehicleProfile := [], exchanges := [] })) := by
    refine recordingLoad_of_topRuns htoks fun hahead => ?_
    rw [flattenMembers_append] at hahead
    refine topRuns_members plainTop_probeHeader hahead
      (topRuns_rest hahead.skip (flattenMembers_proper _) ?_)
    rw [flattenMembers_append]
    refine everyOther_append_of_odd ?_ (hforeign.avoids topNames_sub)
      (everyOther_of_forall fun shape hshape => ?_)
    · simp only [flattenMembers, List.append_nil, List.length_cons]
      omega
    · simp only [flattenMembers, List.append_nil, List.tail_cons, Json.flatten,
        flattenItems, List.mem_cons] at hshape
      rcases hshape with rfl | rfl | hshape
      · simp [TokShape.Avoids, TokShape.spells]
      · simp [TokShape.Avoids, TokShape.spells]
      · exact probeMembers_avoid nothing_avoids nothing_avoids nothing_avoids
          shape hshape
  rw [loadedExchanges, hload]
  exact congrArg (fun exs => Except.ok (some exs)) (probeHeader_exchanges _)

theorem loadedExchanges_probeWith {level : ObjectLevel}
    (hforeign : ForeignMember m) (hnot : ¬ SteppedOver level m)
    (htoks : Tokenises json (probeWith m level) toks) :
    loadedExchanges json toks = .ok (some (misread level)) := by
  have hpos := List.length_pos_iff.2 m.2.flatten_ne_nil
  cases level with
  | document =>
      have heven : m.2.flatten.length % 2 ≠ 1 := hnot
      exact loadedExchanges_document hforeign (by omega) htoks
  | exchange =>
      have hsingle : m.2.flatten.length ≠ 1 := hnot
      exact loadedExchanges_exchange hforeign (by omega) htoks
  | tx =>
      have hsingle : m.2.flatten.length ≠ 1 := hnot
      exact loadedExchanges_tx hforeign (by omega) htoks
  | rx =>
      have hsingle : m.2.flatten.length ≠ 1 := hnot
      exact loadedExchanges_rx hforeign (by omega) htoks

end Misread

set_option maxRecDepth 4000 in
theorem probeWith_length (m : List Char × Json) (level : ObjectLevel) :
    (probeWith m level).render.length ≤
      m.1.length + m.2.render.length + 2 ^ 9 := by
  cases level <;>
  · simp [probeWith, probeDoc, probeHeader, DocHeader.members, probeMembers,
      probeTx, probeRx, Json.render, renderMembers, renderItems]
    omega

/-- A foreign member is ignored at a level exactly when the passes of that level
step over its value. -/
theorem ignoredAt_iff {level : ObjectLevel} {m : List Char × Json}
    (hforeign : ForeignMember m)
    (hroom : m.1.length + m.2.render.length + 2 ^ 9 < 2 ^ 31) :
    IgnoredAt level m ↔ SteppedOver level m := by
  refine ⟨fun hignored => ?_, ignoredAt_of_steppedOver hforeign⟩
  by_contra hnot
  have hlength := probeWith_length m level
  obtain ⟨toks, htoks⟩ := exists_tokenises (probeDoc [] [] [] [])
    (by decide +kernel)
  obtain ⟨toks', htoks'⟩ := exists_tokenises (probeWith m level) (by omega)
  have hsame := hignored _ _ _ _ _ _ _ _ probeDoc_isRecordingDoc
    (inserts_probeWith m level) htoks htoks'
  rw [loadedExchanges_probe htoks, loadedExchanges_probeWith hforeign hnot
    htoks'] at hsame
  exact misread_ne level (Option.some.inj (Except.ok.inj hsame))

/-- A remark on an exchange: an object with one member, three tokens. -/
def noteMember : List Char × Json :=
  ("note".toList, .obj [("by".toList, .str "bench".toList)])

theorem noteMember_foreign : ForeignMember noteMember := by
  refine ⟨by decide, ?_⟩
  simp [noteMember, Json.flatten, flattenMembers, TokShape.Avoids, loaderNames,
    TokShape.spells, TokShape.key]

/-- Three tokens are stepped over in the document. -/
theorem ignoredAt_iff_note : IgnoredAt .document noteMember :=
  (ignoredAt_iff noteMember_foreign (by decide)).2 (by decide)

/-- In an exchange object the same remark costs the exchange its responses. -/
theorem note_drops_responses :
    ∃ doc doc' toks toks', IsRecordingDoc probeHeader [probeEntry] doc ∧
      ForeignMember noteMember ∧ Inserts noteMember .exchange doc doc' ∧
      Tokenises doc.render doc toks ∧ Tokenises doc'.render doc' toks' ∧
      loadedExchanges doc.render toks = .ok (some [probeExchange]) ∧
      loadedExchanges doc'.render toks' =
        .ok (some [{ probeExchange with responses := [] }]) := by
  obtain ⟨toks, htoks⟩ := exists_tokenises (probeDoc [] [] [] [])
    (by decide +kernel)
  obtain ⟨toks', htoks'⟩ := exists_tokenises (probeWith noteMember .exchange)
    (by decide +kernel)
  exact ⟨_, _, toks, toks', probeDoc_isRecordingDoc, noteMember_foreign,
    inserts_probeWith noteMember .exchange, htoks, htoks',
    loadedExchanges_probe htoks,
    loadedExchanges_exchange noteMember_foreign (by decide) htoks'⟩

end FremSoft
