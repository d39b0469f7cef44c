/-
The event item as the bytes of its block.  `fremsoft_PDUGetEventItem` lays an
item, a result and the data out in one block; `wrappers.c` declares the two
structures once more, with their offsets, and reads the items of the real DLL
through them.  The reader finds in the block what the writer took from the
queue, and the block is large enough in every run over a loaded recording.
-/
import FremSoft.Cancel
import FremSoft.Lib.Words

namespace FremSoft

universe u v

variable {ρ : Type u} {κ : Type v}

/-! ### The two structures -/

/-- The fields of `PDU_EVENT_ITEM_MIN`, four bytes each. -/
inductive EventItemField where
  | itemType
  | hCop
  | pCoPTag
  | timestamp
  | pData
deriving DecidableEq, Repr

def EventItemField.offset : EventItemField → UInt32
  | itemType => 0
  | hCop => 4
  | pCoPTag => 8
  | timestamp => 12
  | pData => 16

def sizeofEventItem : UInt32 := 20

/-- The fields of `PDU_RESULT_DATA_MIN`, four bytes each. -/
inductive ResultDataField where
  | rxFlagNumFlagBytes
  | rxFlagPFlagData
  | uniqueRespIdentifier
  | acceptanceId
  | timestampFlagsNumBytes
  | timestampFlagsPFlagData
  | txMsgDoneTimestamp
  | startMsgTimestamp
  | pExtraInfo
  | numDataBytes
  | pDataBytes
deriving DecidableEq, Repr

def ResultDataField.offset : ResultDataField → UInt32
  | rxFlagNumFlagBytes => 0
  | rxFlagPFlagData => 4
  | uniqueRespIdentifier => 8
  | acceptanceId => 12
  | timestampFlagsNumBytes => 16
  | timestampFlagsPFlagData => 20
  | txMsgDoneTimestamp => 24
  | startMsgTimestamp => 28
  | pExtraInfo => 32
  | numDataBytes => 36
  | pDataBytes => 40

def sizeofResultData : UInt32 := 44

/-! ### The writer -/

/-- Accesses outside a block: of the item, of the payload that is copied into
it, and of a reader. -/
inductive BlobFault where
  | write
  | source
  | read (p : VoidPtr)
deriving DecidableEq, Repr

/-- The stores of `fremsoft_PDUGetEventItem`, in its order; the block is at
`blob`, the result at `rd` and the data at `db` in it. -/
def blobStores (blob : VoidPtr) (e : SchedEvent (List UInt8)) (nowUs : UInt64)
    (data : List UInt8) : List (Nat × List UInt8) :=
  let rd := sizeofEventItem
  let db := sizeofEventItem + sizeofResultData
  [(EventItemField.itemType.offset.toNat, wordBytes e.itemType),
    (EventItemField.hCop.offset.toNat, wordBytes e.hCop),
    (EventItemField.pCoPTag.offset.toNat, wordBytes e.copTag),
    (EventItemField.timestamp.offset.toNat,
      wordBytes (nowUs &&& 0xFFFFFFFF).toUInt32),
    (EventItemField.pData.offset.toNat, wordBytes (blob + rd)),
    ((rd + ResultDataField.numDataBytes.offset).toNat, wordBytes e.numData),
    ((rd + ResultDataField.pDataBytes.offset).toNat, wordBytes (blob + db)),
    (db.toNat, data)]

/-- The block of an item: `calloc` with a size that is a `size_t` of 32 bits,
the fields, and the `memcpy` of `num_data` bytes. -/
def eventItemBlob (blob : VoidPtr) (e : SchedEvent (List UInt8))
    (nowUs : UInt64) : Except BlobFault (List UInt8) := do
  let total := sizeofEventItem + sizeofResultData + e.numData
  let data ← readSpan .source e.dataBytes 0 e.numData.toNat
  storeAll .write (List.replicate total.toNat 0) (blobStores blob e nowUs data)

/-- `fremsoft_PDUGetEventItem`, down to the block that it hands out at `blob`. -/
def fremsoftPDUGetEventItemBlob (blob : VoidPtr) (env : CallEnv)
    (st : FremSoftState) (hMod hCll : UInt32) (pEventItem : Bool) :
    Except BlobFault (FremSoftState × TPduError × Option (List UInt8)) :=
  if !pEventItem then .ok (st, pduErrInvalidParameters, none)
  else
    match schedulerPopDue st.gScheduler hMod hCll env.nowUs with
    | (none, s) =>
        .ok ({ st with gScheduler := s }, pduErrEventQueueEmpty, none)
    | (some e, s) =>
        if env.blobOk then do
          let cells ← eventItemBlob blob e env.nowUs
          return ({ st with gScheduler := s }, pduStatusNoError, some cells)
        else .ok ({ st with gScheduler := s }, pduErrFctFailed, none)

/-! ### The reader -/

structure Block where
  base : VoidPtr
  cells : List UInt8

def Block.read (m : Block) (p : VoidPtr) (len : Nat) :
    Except BlobFault (List UInt8) :=
  if m.base ≤ p then
    readSpan (.read p) m.cells (p.toNat - m.base.toNat) len
  else .error (.read p)

/-- The `UNUM32` at `p`. -/
def Block.word (m : Block) (p : VoidPtr) : Except BlobFault UInt32 :=
  (m.read p 4).map wordOf

/-- The item at `ev`, through the structures as `PDUGetEventItem` of
`wrappers.c` goes through them; that it logs no more than 4096 bytes is up to
the log line. -/
def readEventItem (m : Block) (ev : VoidPtr) : Except BlobFault RealItem := do
  let itemType ← m.word (ev + EventItemField.itemType.offset)
  let hCop ← m.word (ev + EventItemField.hCop.offset)
  let pCoPTag ← m.word (ev + EventItemField.pCoPTag.offset)
  let timestamp ← m.word (ev + EventItemField.timestamp.offset)
  let rd ← m.word (ev + EventItemField.pData.offset)
  if itemType = pduItResult ∧ rd ≠ 0 then
    let n ← m.word (rd + ResultDataField.numDataBytes.offset)
    let p ← m.word (rd + ResultDataField.pDataBytes.offset)
    let dataBytes ← if p ≠ 0 then m.read p n.toNat else pure []
    let flags ← m.word (rd + ResultDataField.rxFlagPFlagData.offset)
    let numFlags ← m.word (rd + ResultDataField.rxFlagNumFlagBytes.offset)
    let rxFlag ←
      if flags ≠ 0 ∧ 0 < numFlags ∧ numFlags ≤ 64 then
        m.read flags numFlags.toNat
      else pure []
    return {
      item := { itemType, hCop, pCoPTag, timestamp, numDataBytes := n, dataBytes }
      pData := true
      pDataBytes := decide (p ≠ 0)
      rxFlag }
  else
    return {
      item :=
        { itemType, hCop, pCoPTag, timestamp, numDataBytes := 0, dataBytes := [] }
      pData := decide (rd ≠ 0)
      pDataBytes := false
      rxFlag := [] }

/-! ### What is written is read -/

theorem blobStores_fit (blob : VoidPtr) (e : SchedEvent (List UInt8))
    (nowUs : UInt64) (data : List UInt8) {total : Nat}
    (htotal : 64 + data.length ≤ total) :
    ∀ store ∈ blobStores blob e nowUs data,
      store.1 + store.2.length ≤ total := by
  simp only [blobStores, List.forall_mem_cons, length_wordBytes]
  simp only [EventItemField.offset, ResultDataField.offset, sizeofEventItem,
    sizeofResultData, UInt32.reduceAdd, UInt32.reduceToNat, List.not_mem_nil,
    false_implies, implies_true, and_true]
  omega

theorem blobStores_apart (blob : VoidPtr) (e : SchedEvent (List UInt8))
    (nowUs : UInt64) (data : List UInt8) :
    (blobStores blob e nowUs data).Pairwise fun store later =>
      Apart later store.1 store.2.length := by
  simp only [blobStores, List.pairwise_cons, List.forall_mem_cons, Apart,
    length_wordBytes]
  simp [EventItemField.offset, ResultDataField.offset, sizeofEventItem,
    sizeofResultData]

/-- The sizes for which the block holds the item and the payload the data. -/
def SchedEvent.FitsBlock (e : SchedEvent (List UInt8)) : Prop :=
  64 + e.numData.toNat < 2 ^ 32 ∧ e.numData.toNat ≤ e.dataBytes.length

theorem blobSize_toNat {numData : UInt32} (h : 64 + numData.toNat < 2 ^ 32) :
    (sizeofEventItem + sizeofResultData + numData).toNat =
      64 + numData.toNat := by
  rw [UInt32.toNat_add]
  exact Nat.mod_eq_of_lt h

/-- What stands in the block. -/
theorem eventItemBlob_ok (blob : VoidPtr) {e : SchedEvent (List UInt8)}
    (nowUs : UInt64) (h : e.FitsBlock) :
    ∃ cells, eventItemBlob blob e nowUs = .ok cells ∧
      cells.length = 64 + e.numData.toNat ∧
      (∀ store ∈ blobStores blob e nowUs (e.dataBytes.take e.numData.toNat),
        span cells store.1 store.2.length = store.2) ∧
      span cells 20 4 = wordBytes 0 ∧ span cells 24 4 = wordBytes 0 := by
  obtain ⟨hsize, hdata⟩ := h
  have hsource : readSpan BlobFault.source e.dataBytes 0 e.numData.toNat =
      .ok (e.dataBytes.take e.numData.toNat) :=
    readSpan_ok _ (by omega)
  have hlength : (e.dataBytes.take e.numData.toNat).length =
      e.numData.toNat := List.length_take_of_le hdata
  have htotal := blobSize_toNat hsize
  obtain ⟨cells, hstores, hcells, hsame, hother⟩ := storeAll_spec
    BlobFault.write (blobStores_fit blob e nowUs _ (by
      rw [List.length_replicate, htotal, hlength] :
        64 + (e.dataBytes.take e.numData.toNat).length ≤
          (List.replicate (sizeofEventItem + sizeofResultData +
            e.numData).toNat (0 : UInt8)).length))
    (blobStores_apart blob e nowUs (e.dataBytes.take e.numData.toNat))
  rw [List.length_replicate, htotal] at hcells
  refine ⟨cells, ?_, hcells, hsame, ?_, ?_⟩
  · rw [eventItemBlob, hsource, ok_bind, hstores]
  all_goals
    rw [hother _ _ (by
      simp only [blobStores, List.forall_mem_cons, Apart, length_wordBytes]
      simp [EventItemField.offset, ResultDataField.offset, sizeofEventItem,
        sizeofResultData]), htotal, span, List.drop_replicate,
      List.take_replicate, Nat.min_eq_left (by omega)]
    rfl

/-- The block is large enough for exactly these events; beyond them the size
wraps around, or the payload is shorter than it says. -/
theorem eventItemBlob_iff (blob : VoidPtr) (e : SchedEvent (List UInt8))
    (nowUs : UInt64) :
    (∃ cells, eventItemBlob blob e nowUs = .ok cells) ↔ e.FitsBlock := by
  constructor
  · rintro ⟨cells, hcells⟩
    obtain ⟨data, hsource, hstores⟩ := bind_eq_ok hcells
    have hdata : e.numData.toNat ≤ e.dataBytes.length := by
      by_contra hlt
      rw [readSpan, if_neg (by omega)] at hsource
      cases hsource
    refine ⟨?_, hdata⟩
    by_contra hge
    have hlt := e.numData.toNat_lt
    have htotal : (sizeofEventItem + sizeofResultData + e.numData).toNat =
        64 + e.numData.toNat - 2 ^ 32 := by
      rw [UInt32.toNat_add]
      have h64 : (sizeofEventItem + sizeofResultData).toNat = 64 := rfl
      rw [h64]
      omega
    -- the pointer to the data would be stored behind the end
    have hstore : (60, wordBytes (blob + (sizeofEventItem + sizeofResultData))) ∈
        blobStores blob e nowUs data := by
      simp [blobStores, sizeofEventItem, sizeofResultData,
        ResultDataField.offset]
    rw [storeAll_fault _ hstore (by
      rw [List.length_replicate, htotal, length_wordBytes]
      omega)] at hstores
    cases hstores
  · intro h
    obtain ⟨cells, hcells, -⟩ := eventItemBlob_ok blob nowUs h
    exact ⟨cells, hcells⟩

section Block

variable {m : Block} {k : UInt32}

theorem Block.read_add {len : Nat}
    (hroom : m.base.toNat + m.cells.length < 2 ^ 32)
    (h : k.toNat + len ≤ m.cells.length) :
    m.read (m.base + k) len = .ok (span m.cells k.toNat len) := by
  have hsum : (m.base + k).toNat = m.base.toNat + k.toNat := by
    rw [UInt32.toNat_add]
    exact Nat.mod_eq_of_lt (by omega)
  rw [Block.read, if_pos (UInt32.le_iff_toNat_le.2 (by omega)), hsum,
    Nat.add_sub_cancel_left, readSpan_ok _ h]
  rfl

theorem Block.word_add (hroom : m.base.toNat + m.cells.length < 2 ^ 32)
    (h : k.toNat + 4 ≤ m.cells.length) {w : UInt32}
    (hspan : span m.cells k.toNat 4 = wordBytes w) :
    m.word (m.base + k) = .ok w := by
  rw [Block.word, Block.read_add hroom h, hspan]
  exact congrArg Except.ok (wordOf_wordBytes w)

end Block

/-- The reader finds the item, its data and no flags. -/
theorem readEventItem_blob {blob : VoidPtr} {e : SchedEvent (List UInt8)}
    (nowUs : UInt64) (h : e.FitsBlock) (htype : e.itemType = pduItResult)
    (hroom : blob.toNat + (64 + e.numData.toNat) < 2 ^ 32) (hnull : blob ≠ 0) :
    ∃ cells, eventItemBlob blob e nowUs = .ok cells ∧
      readEventItem { base := blob, cells } blob =
        .ok { item := eventItem e nowUs, pData := true, pDataBytes := true
              rxFlag := [] } := by
  obtain ⟨cells, hcells, hlength, hsame, hrx, hrx'⟩ :=
    eventItemBlob_ok blob nowUs h
  refine ⟨cells, hcells, ?_⟩
  have hpos : 0 < blob.toNat := by
    rw [Nat.pos_iff_ne_zero]
    exact fun hzero => hnull (UInt32.toNat_inj.1 hzero)
  have hdata : (e.dataBytes.take e.numData.toNat).length = e.numData.toNat :=
    List.length_take_of_le h.2
  have hne : ∀ k : UInt32, k.toNat ≤ 64 → blob + k ≠ 0 := by
    intro k hk hzero
    have := congrArg UInt32.toNat hzero
    rw [UInt32.toNat_add, Nat.mod_eq_of_lt (by omega)] at this
    simp at this
    omega
  have hword : ∀ (k w : UInt32), k.toNat + 4 ≤ 64 →
      span cells k.toNat 4 = wordBytes w →
      Block.word { base := blob, cells } (blob + k) = .ok w :=
    fun k w hk hspan => @Block.word_add { base := blob, cells } k
      (by simpa only [hlength] using hroom) (by simp only [hlength]; omega) w
      hspan
  simp only [blobStores, List.forall_mem_cons, length_wordBytes] at hsame
  obtain ⟨hitemType, hhCop, hcopTag, htimestamp, hpData, hnumData, hpDataBytes,
    hbytes, -⟩ := hsame
  rw [hdata] at hbytes
  have hread : Block.read { base := blob, cells }
      (blob + (sizeofEventItem + sizeofResultData)) e.numData.toNat =
      .ok (e.dataBytes.take e.numData.toNat) := by
    rw [← hbytes]
    exact @Block.read_add { base := blob, cells }
      (sizeofEventItem + sizeofResultData) e.numData.toNat
      (by simpa only [hlength] using hroom) (by
        simp only [hlength]
        exact le_refl _)
  simp only [readEventItem, UInt32.add_assoc,
    hword _ _ (by decide) hitemType, hword _ _ (by decide) hhCop,
    hword _ _ (by decide) hcopTag, hword _ _ (by decide) htimestamp,
    hword _ _ (by decide) hpData, ok_bind, htype]
  rw [if_pos ⟨trivial, hne _ (by decide)⟩]
  simp only [hword _ _ (by decide) hnumData, hword _ _ (by decide) hpDataBytes,
    ok_bind]
  have hpNonNull := hne (sizeofEventItem + sizeofResultData) (by decide)
  rw [if_pos hpNonNull, hread, ok_bind,
    hword (sizeofEventItem + ResultDataField.rxFlagPFlagData.offset) 0
      (by decide) hrx', ok_bind,
    hword (sizeofEventItem + ResultDataField.rxFlagNumFlagBytes.offset) 0
      (by decide) hrx, ok_bind, if_neg (by simp), decide_eq_true hpNonNull]
  simp [eventItem, htype]

/-! ### Every run over a loaded recording -/

/-- An event as the replies of a loaded recording are. -/
structure SchedEvent.Whole (e : SchedEvent (List UInt8)) : Prop where
  itemType : e.itemType = pduItResult
  numData : e.numData.toNat = e.dataBytes.length
  small : e.dataBytes.length < 2 ^ 31 + 4

theorem SchedEvent.Whole.fitsBlock {e : SchedEvent (List UInt8)}
    (h : e.Whole) : e.FitsBlock := by
  have hnum := h.numData
  have hsmall := h.small
  exact ⟨by omega, by omega⟩

theorem responseEvent_whole (a : StartArgs) (hCop : UInt32) (dueUs : UInt64)
    {x : RecordedResponse} (hsized : x.udsBytes.length < 2 ^ 31) :
    (responseEvent a hCop dueUs x).Whole where
  itemType := rfl
  numData := by
    simp only [responseEvent, canIdBytes, UInt32.toNat_add, UInt32.toNat_ofNat',
      UInt32.reduceToNat, List.length_append, List.length_cons, List.length_nil]
    omega
  small := by
    simp only [responseEvent, canIdBytes, List.length_append, List.length_cons,
      List.length_nil]
    omega

theorem nrcEvent_whole (a : StartArgs) (hCop : UInt32) (nowUs : UInt64)
    (canId : UInt32) (uds : List UInt8) :
    (nrcEvent a hCop nowUs canId uds).Whole :=
  ⟨rfl, rfl, by simp [nrcEvent, canIdBytes]⟩

theorem responseEvents_whole (a : StartArgs) (hCop : UInt32)
    (nowUs cumulativeUs : UInt64) {responses : List RecordedResponse}
    (hsized : ∀ x ∈ responses, x.udsBytes.length < 2 ^ 31) :
    ∀ e ∈ responseEvents a hCop nowUs cumulativeUs responses, e.Whole := by
  induction responses generalizing cumulativeUs with
  | nil => simp [responseEvents]
  | cons x rest ih =>
      rw [List.forall_mem_cons] at hsized
      rw [responseEvents, List.forall_mem_cons]
      exact ⟨responseEvent_whole a hCop _ hsized.1, ih _ hsized.2⟩

theorem startEvents_whole {r : Option Recording}
    (hsized : ∀ rec ∈ r, rec.Sized) (a : StartArgs) (hCop : UInt32)
    (nowUs : UInt64) : ∀ e ∈ startEvents r a hCop nowUs, e.Whole := by
  unfold startEvents replyEvents
  split
  · split
    · next found hlookup =>
      cases r with
      | none => simp [recordingLookup] at hlookup
      | some rec =>
          exact responseEvents_whole a hCop nowUs 0
            (hsized rec rfl found (lookupScan_mem hlookup).1).2
    · rw [List.forall_mem_singleton]
      exact nrcEvent_whole a hCop nowUs _ _
  · simp

theorem FremSoftState.mem_queue_extend {st : FremSoftState}
    {events : List (SchedEvent (List UInt8))} {lines : List ActivityLine}
    {unknown : List UnknownRecord} {e : SchedEvent (List UInt8)}
    (h : e ∈ (st.extend events lines unknown).queue) :
    e ∈ st.queue ∨ e ∈ events := by
  cases hscheduler : st.gScheduler with
  | none => simp [queue, extend, hscheduler] at h
  | some scheduler =>
      simpa [queue, extend, hscheduler] using h

/-- What every call keeps of FremSoft: the recording, and that the queued
events are those of replies. -/
theorem fremsoftCall_whole {st : FremSoftState}
    (hsized : ∀ rec ∈ st.gRecording, rec.Sized) (hqueue : ∀ e ∈ st.queue, e.Whole)
    (call : ApiCall κ) :
    (fremsoftCall st call).gRecording = st.gRecording ∧
      ∀ e ∈ (fremsoftCall st call).queue, e.Whole := by
  cases call with
  | startComPrimitive env a =>
      obtain ⟨events, lines, hstate, hsub, -⟩ :=
        fremsoftPDUStartComPrimitive_spec env.toCallEnv st a
      rw [fremsoftCall, hstate]
      refine ⟨rfl, fun e he => ?_⟩
      rcases FremSoftState.mem_queue_extend he with he | he
      · exact hqueue e he
      · exact startEvents_whole hsized a _ _ e (hsub.subset he)
  | getEventItem env hMod hCll pEventItem =>
      rw [fremsoftCall]
      refine ⟨by rw [fremsoftPDUGetEventItem_fst], ?_⟩
      rcases fremsoftPDUGetEventItem_cases env.toCallEnv st hMod hCll
        pEventItem with ⟨hsame, -⟩ | ⟨e, hdetach, -⟩
      · rwa [hsame]
      · exact fun x hx => hqueue x ((detach_sublist hdetach).subset hx)
  | registerEventCallback hMod hCll cb =>
      refine ⟨rfl, ?_⟩
      cases hscheduler : st.gScheduler with
      | none =>
          simp [fremsoftCall, fremsoftPDURegisterEventCallback,
            schedulerSetCallback, FremSoftState.queue, hscheduler]
      | some scheduler =>
          simpa [fremsoftCall, fremsoftPDURegisterEventCallback,
            schedulerSetCallback, FremSoftState.queue, hscheduler] using hqueue
  | _ => exact ⟨rfl, hqueue⟩

theorem apiRun_whole (dll : RealDll ρ κ) {s t : ShimState ρ}
    {calls : List (ApiCall κ)} {outs : List ApiReturn}
    (hserves : s.frem.gMode.servesReplies = true)
    (hsized : ∀ rec ∈ s.frem.gRecording, rec.Sized)
    (hqueue : ∀ e ∈ s.frem.queue, e.Whole)
    (hrun : (apiMachine dll).run s calls = some (t, outs)) :
    ∀ e ∈ t.frem.queue, e.Whole := by
  have hall := Machine.run_invariant (M := apiMachine dll)
    (I := fun s _ => s.frem.gMode.servesReplies = true ∧
      (∀ rec ∈ s.frem.gRecording, rec.Sized) ∧ ∀ e ∈ s.frem.queue, e.Whole)
    ?_ hrun ⟨hserves, hsized, hqueue⟩
  · exact hall.2.2
  · rintro s seen call s' out ⟨hs, hsized, hqueue⟩ hstep
    obtain ⟨rfl, -⟩ := Prod.mk.inj (Option.some.inj hstep)
    have hnext := fremsoftCall_whole hsized hqueue call
    rw [apiCall_frem dll hs]
    refine ⟨by rw [fremsoftCall_gMode, hs], ?_, hnext.2⟩
    rw [hnext.1]
    exact hsized

/-- What a poll hands out is read back, after every run of a serving shim over
a loaded recording: wherever the block is, all stores are inside it, and a
reader of the two structures finds the item of the poll in it. -/
theorem handed_items_read (dll : RealDll ρ κ) {s t : ShimState ρ}
    {calls : List (ApiCall κ)} {outs : List ApiReturn}
    (hserves : s.frem.gMode.servesReplies = true)
    (hsized : ∀ rec ∈ s.frem.gRecording, rec.Sized)
    (hempty : s.frem.queue = [])
    (hrun : (apiMachine dll).run s calls = some (t, outs))
    (env : CallEnv) (hMod hCll : UInt32) (pEventItem : Bool) {blob : VoidPtr}
    (hnull : blob ≠ 0) (hroom : ∀ e ∈ t.frem.queue,
      blob.toNat + (64 + e.numData.toNat) < 2 ^ 32) :
    ∃ cells, fremsoftPDUGetEventItemBlob blob env t.frem hMod hCll pEventItem =
        .ok ((fremsoftPDUGetEventItem env t.frem hMod hCll pEventItem).1,
          (fremsoftPDUGetEventItem env t.frem hMod hCll pEventItem).2.status,
          cells) ∧
      Option.Rel (fun cells item =>
          readEventItem { base := blob, cells } blob =
            .ok { item, pData := true, pDataBytes := true, rxFlag := [] })
        cells
        (fremsoftPDUGetEventItem env t.frem hMod hCll pEventItem).2.item := by
  have hwhole := apiRun_whole dll hserves hsized (by simp [hempty]) hrun
  cases pEventItem with
  | false => exact ⟨none, rfl, .none⟩
  | true =>
      have hcases :=
        schedulerPopDue_queue_cases t.frem.gScheduler hMod hCll env.nowUs
      simp only [fremsoftPDUGetEventItemBlob, fremsoftPDUGetEventItem,
        Bool.not_true, Bool.false_eq_true, if_false]
      rcases hpop : schedulerPopDue t.frem.gScheduler hMod hCll env.nowUs with
        ⟨_ | e, scheduler⟩
      · exact ⟨none, rfl, .none⟩
      · rw [hpop] at hcases
        rcases hcases with ⟨hnone, -⟩ | ⟨e', hsome, hdetach⟩
        · cases hnone
        · obtain rfl := Option.some.inj hsome
          have hmem := detach_mem hdetach
          cases hblob : env.blobOk with
          | false => exact ⟨none, rfl, .none⟩
          | true =>
              obtain ⟨cells, hcells, hread⟩ := readEventItem_blob env.nowUs
                (hwhole e hmem).fitsBlock (hwhole e hmem).itemType
                (hroom e hmem) hnull
              simp only [if_true, hcells, ok_bind]
              exact ⟨some cells, rfl, .some hread⟩

/-- A rejection in its block at `0x00400000`. -/
theorem handed_items_read_rejection :
    ∃ t outs cells, (apiMachine quietDll).run blankPlayback
        [.startComPrimitive (shimCallAt 0) (shortRequest 0x3E)] =
          some (t, outs) ∧
      fremsoftPDUGetEventItemBlob 0x400000 (callAt 50) t.frem 1 2 true =
        .ok ((fremsoftPDUGetEventItem (callAt 50) t.frem 1 2 true).1,
          pduStatusNoError, some cells) ∧
      readEventItem { base := 0x400000, cells } 0x400000 = .ok
        { item :=
            { itemType := pduItResult, hCop := 0x10001, pCoPTag := 0
              timestamp := 50000, numDataBytes := 7
              dataBytes := [0x00, 0x00, 0x0B, 0xE0, 0x7F, 0x3E, 0x11] }
          pData := true
          pDataBytes := true
          rxFlag := [] } := by
  obtain ⟨cells, hblob, hread⟩ := @handed_items_read _ _ quietDll blankPlayback
    _ [.startComPrimitive (shimCallAt 0) (shortRequest 0x3E)] _ rfl
    (by simp [blankPlayback, Recording.Sized]) rfl rfl (callAt 50) 1 2 true
    0x400000 (by decide) (by decide)
  cases hread with
  | some hread =>
      next cells => exact ⟨_, _, cells, rfl, hblob, hread⟩

end FremSoft
