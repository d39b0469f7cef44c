/-
What a diagnostic request is owed: the items its recording, or the negative
response, prescribes.  The events that `fremsoft_PDUStartComPrimitive`
schedules carry exactly these items, at exactly their times as long as no due
time passes the end of the 64-bit clock.
-/
import FremSoft.Lib.Related
import FremSoft.Playback

namespace FremSoft

/-- A `PDU_COPT_SENDRECV` call with non-null data of at least five bytes. -/
structure DiagRequest where
  hMod : UInt32
  hCll : UInt32
  pCoPTag : VoidPtr
  phCoP : Bool
  bytes : List UInt8
  size_ge : 5 ≤ bytes.length
  size_lt : bytes.length < 2 ^ 32

def DiagRequest.args (q : DiagRequest) : StartArgs :=
  { hMod := q.hMod
    hCll := q.hCll
    coPType := pduCoptSendrecv
    coPDataSize := UInt32.ofNat q.bytes.length
    pCoPData := some q.bytes
    pCoPTag := q.pCoPTag
    phCoP := q.phCoP }

@[simp] theorem DiagRequest.args_size (q : DiagRequest) :
    q.args.coPDataSize.toNat = q.bytes.length := by
  have h := q.size_lt
  simp only [DiagRequest.args, UInt32.toNat_ofNat']
  omega

@[simp] theorem DiagRequest.args_bytes (q : DiagRequest) :
    q.args.bytes = q.bytes := by
  rw [StartArgs.bytes, q.args_size]
  simp [DiagRequest.args]

/-- One item of a reply: its bytes and the time it is due, in microseconds. -/
structure ReplyItem where
  data : List UInt8
  dueUs : Nat
deriving DecidableEq, Repr

/-- The items of a recorded response list whose delays count from `fromUs`. -/
def recordedItems (fromUs : Nat) : List RecordedResponse → List ReplyItem
  | [] => []
  | x :: rest =>
      { data := canIdBytes x.canId ++ x.udsBytes
        dueUs := fromUs + 1000 * x.delayMs.toNat } ::
        recordedItems (fromUs + 1000 * x.delayMs.toNat) rest

/-- Everything a request received at `callUs` is owed. -/
def replyItems (r : Option Recording) (bytes : List UInt8) (callUs : Nat) :
    List ReplyItem :=
  match recordingLookup r (decodeRequest bytes).1 (decodeRequest bytes).2 with
  | some found => recordedItems callUs found.responses
  | none =>
      [{ data := canIdBytes ((decodeRequest bytes).1 + 0x400) ++
          [0x7F, (decodeRequest bytes).2.headD 0, 0x11]
         dueUs := callUs + 50000 }]

/-- The closed form of an item: its own bytes, and the call time plus a
thousand times the delays up to and including its own. -/
theorem recordedItems_getElem? (fromUs : Nat)
    (responses : List RecordedResponse) (i : Nat) :
    (recordedItems fromUs responses)[i]? = responses[i]?.map fun x =>
      { data := canIdBytes x.canId ++ x.udsBytes
        dueUs := fromUs +
          1000 * ((responses.take (i + 1)).map (·.delayMs.toNat)).sum } := by
  induction responses generalizing fromUs i with
  | nil => simp [recordedItems]
  | cons x rest ih =>
      cases i with
      | zero => simp [recordedItems]
      | succ i =>
          rw [recordedItems, List.getElem?_cons_succ, ih]
          simp only [List.getElem?_cons_succ, List.take_succ_cons,
            List.map_cons, List.sum_cons]
          congr 1
          funext y
          congr 1
          ring

theorem recordedItems_due_ge (fromUs : Nat)
    (responses : List RecordedResponse) :
    ∀ item ∈ recordedItems fromUs responses, fromUs ≤ item.dueUs := by
  induction responses generalizing fromUs with
  | nil => simp [recordedItems]
  | cons x rest ih =>
      intro item hitem
      rw [recordedItems, List.mem_cons] at hitem
      rcases hitem with rfl | hitem
      · simp
      · exact Nat.le_trans (Nat.le_add_right ..) (ih _ item hitem)

/-- The due times of a reply never decrease along it. -/
theorem recordedItems_pairwise (fromUs : Nat)
    (responses : List RecordedResponse) :
    (recordedItems fromUs responses).Pairwise (·.dueUs ≤ ·.dueUs) := by
  induction responses generalizing fromUs with
  | nil => exact List.Pairwise.nil
  | cons x rest ih =>
      rw [recordedItems, List.pairwise_cons]
      exact ⟨recordedItems_due_ge _ rest, ih _⟩

theorem replyItems_pairwise (r : Option Recording) (bytes : List UInt8)
    (callUs : Nat) :
    (replyItems r bytes callUs).Pairwise (·.dueUs ≤ ·.dueUs) := by
  unfold replyItems
  split
  · exact recordedItems_pairwise callUs _
  · exact List.pairwise_singleton _ _

/-- The events of the responses still to be scheduled. -/
def responseEvents (a : StartArgs) (hCop : UInt32) (nowUs : UInt64) :
    UInt64 → List RecordedResponse → List (SchedEvent (List UInt8))
  | _, [] => []
  | cumulativeUs, x :: rest =>
      responseEvent a hCop (nowUs + addDelay cumulativeUs x) x ::
        responseEvents a hCop nowUs (addDelay cumulativeUs x) rest

/-- The events a request schedules when every allocation succeeds. -/
def replyEvents (r : Option Recording) (a : StartArgs) (hCop : UInt32)
    (nowUs : UInt64) : List (SchedEvent (List UInt8)) :=
  match recordingLookup r (decodeRequest a.bytes).1
      (decodeRequest a.bytes).2 with
  | some found => responseEvents a hCop nowUs 0 found.responses
  | none =>
      [nrcEvent a hCop nowUs (decodeRequest a.bytes).1
        (decodeRequest a.bytes).2]

/-- The event addresses the primitive it belongs to. -/
structure SchedEvent.BelongsTo (a : StartArgs) (hCop : UInt32)
    (e : SchedEvent (List UInt8)) : Prop where
  hMod : e.hMod = a.hMod
  hCll : e.hCll = a.hCll
  hCop : e.hCop = hCop
  copTag : e.copTag = a.pCoPTag
  itemType : e.itemType = pduItResult

theorem responseEvents_belong (a : StartArgs) (hCop : UInt32) (nowUs : UInt64)
    (cumulativeUs : UInt64) (responses : List RecordedResponse) :
    ∀ e ∈ responseEvents a hCop nowUs cumulativeUs responses,
      e.BelongsTo a hCop := by
  induction responses generalizing cumulativeUs with
  | nil => simp [responseEvents]
  | cons x rest ih =>
      intro e he
      rw [responseEvents, List.mem_cons] at he
      rcases he with rfl | he
      · exact ⟨rfl, rfl, rfl, rfl, rfl⟩
      · exact ih _ e he

theorem replyEvents_belong (r : Option Recording) (a : StartArgs)
    (hCop : UInt32) (nowUs : UInt64) :
    ∀ e ∈ replyEvents r a hCop nowUs, e.BelongsTo a hCop := by
  unfold replyEvents
  split
  · exact responseEvents_belong a hCop nowUs 0 _
  · intro e he
    rw [List.mem_singleton] at he
    subst he
    exact ⟨rfl, rfl, rfl, rfl, rfl⟩

/-- The event carries the item: the same bytes, all of them, due at the same
time. -/
structure SchedEvent.Carries (e : SchedEvent (List UInt8)) (item : ReplyItem) :
    Prop where
  dataBytes : e.dataBytes = item.data
  numData : e.numData.toNat = item.data.length
  dueUs : e.dueUs.toNat = item.dueUs

theorem responseEvents_carry (a : StartArgs) (hCop : UInt32) (nowUs : UInt64)
    {cumulativeUs : UInt64} {fromUs : Nat} {responses : List RecordedResponse}
    (hfrom : (nowUs + cumulativeUs).toNat = fromUs)
    (hsized : ∀ x ∈ responses, x.udsBytes.length < 2 ^ 31)
    (hfits : ∀ item ∈ recordedItems fromUs responses, item.dueUs < 2 ^ 64) :
    List.Forall₂ SchedEvent.Carries
      (responseEvents a hCop nowUs cumulativeUs responses)
      (recordedItems fromUs responses) := by
  induction responses generalizing cumulativeUs fromUs with
  | nil => exact List.Forall₂.nil
  | cons x rest ih =>
      rw [responseEvents, recordedItems]
      have hdue : fromUs + 1000 * x.delayMs.toNat < 2 ^ 64 :=
        hfits _ List.mem_cons_self
      have hdelay := x.delayMs.toNat_lt
      have hnext : (nowUs + addDelay cumulativeUs x).toNat =
          fromUs + 1000 * x.delayMs.toNat := by
        rw [addDelay, ← UInt64.add_assoc, UInt64.toNat_add, hfrom,
          UInt64.toNat_mul, UInt32.toNat_toUInt64]
        simp only [UInt64.reduceToNat]
        omega
      have hlength := hsized x List.mem_cons_self
      refine List.Forall₂.cons ⟨rfl, ?_, hnext⟩ (ih hnext ?_ ?_)
      · simp [responseEvent, UInt32.toNat_add, UInt32.toNat_ofNat']
        omega
      · exact fun y hy => hsized y (List.mem_cons_of_mem x hy)
      · exact fun item hitem => hfits item (List.mem_cons_of_mem _ hitem)

/-- The scheduled events are the items owed, one for one. -/
theorem replyEvents_carry {r : Option Recording} {a : StartArgs}
    (hCop : UInt32) {tickMs : UInt64}
    (hsized : ∀ rec ∈ r, rec.Sized)
    (hfits : ∀ item ∈ replyItems r a.bytes (1000 * tickMs.toNat),
      item.dueUs < 2 ^ 64) :
    List.Forall₂ SchedEvent.Carries (replyEvents r a hCop (tickMs * 1000))
      (replyItems r a.bytes (1000 * tickMs.toNat)) := by
  have hnow : 1000 * tickMs.toNat < 2 ^ 64 →
      (tickMs * 1000).toNat = 1000 * tickMs.toNat := by
    intro hlt
    rw [UInt64.toNat_mul]
    simp only [UInt64.reduceToNat]
    omega
  unfold replyItems at hfits ⊢
  unfold replyEvents
  cases hlookup : recordingLookup r (decodeRequest a.bytes).1
      (decodeRequest a.bytes).2 with
  | none =>
      simp only [hlookup] at hfits ⊢
      have hdue := hfits _ List.mem_cons_self
      simp only at hdue
      refine List.Forall₂.cons ⟨rfl, rfl, ?_⟩ List.Forall₂.nil
      simp only [nrcEvent, UInt64.toNat_add, hnow (by omega)]
      simp only [UInt64.reduceToNat]
      omega
  | some found =>
      simp only [hlookup] at hfits ⊢
      cases hresponses : found.responses with
      | nil => exact List.Forall₂.nil
      | cons x rest =>
          rw [hresponses] at hfits
          have hge := recordedItems_due_ge (1000 * tickMs.toNat) (x :: rest) _
            List.mem_cons_self
          have hlt := hfits _ List.mem_cons_self
          refine responseEvents_carry a hCop (tickMs * 1000) ?_ ?_ hfits
          · rw [UInt64.add_zero]
            exact hnow (by omega)
          · cases r with
            | none => simp [recordingLookup] at hlookup
            | some rec =>
                have hmem := (lookupScan_mem hlookup).1
                rw [← hresponses]
                exact ((hsized rec rfl) found hmem).2

/-- Dues in the machine's own order. -/
theorem replyEvents_pairwise {r : Option Recording} {a : StartArgs}
    (hCop : UInt32) {tickMs : UInt64}
    (hsized : ∀ rec ∈ r, rec.Sized)
    (hfits : ∀ item ∈ replyItems r a.bytes (1000 * tickMs.toNat),
      item.dueUs < 2 ^ 64) :
    (replyEvents r a hCop (tickMs * 1000)).Pairwise (·.dueUs ≤ ·.dueUs) := by
  refine forall₂_pairwise (replyEvents_carry hCop hsized hfits) ?_
    (replyItems_pairwise r a.bytes (1000 * tickMs.toNat))
  intro e item e' item' hcarries hcarries' hle
  rw [UInt64.le_iff_toNat_le, hcarries.dueUs, hcarries'.dueUs]
  exact hle

end FremSoft
