import LogDb.Lib.Loop
import LogDb.Format.Body

/-!
The record iterator over one segment file, run to its end. Raw files are read record by record,
with a one-byte resync on a corrupt length; framed files frame by frame. The 64 KiB read window in
front of a raw file is not modelled: it only hands out the file's bytes.

On a segment file that holds stored records, and nothing else, the iterator yields exactly those of
its range.
-/

namespace LogDb.Reader

open Lib Format List ReadView

/-- The arguments of `RecordIter::new` other than the file. -/
structure IterArgs where
  startOffset : ℕ
  fileSize : ℕ
  fromId : UInt64
  endId : UInt64
  isCompressed : Bool
  isEncrypted : Bool
  key : Option KeyRing

/-- What becomes of a record that was decoded. -/
inductive RangeCheck where
  | below
  | pastEnd
  | yield

def checkRange (fromId endId : UInt64) (record : Record) : RangeCheck :=
  if record.id.sequence < fromId then .below
  else if endId ≤ record.id.sequence then .pastEnd
  else .yield

section Raw

variable (C : Crates) (a : IterArgs) (file : Bytes)

/-- One iteration in raw mode; the state is the offset and what was yielded so far. -/
def rawIterStep (s : ℕ × List Record) : (ℕ × List Record) ⊕ List Record :=
  let offset := s.1
  let out := s.2
  if a.fileSize < offset + 4 then
    .inr out
  else
    let total := leVal (field offset 4 file)
    if total < minRecordSize then
      .inl (offset + 1, out)
    else if a.fileSize < offset + total then
      .inr out
    else
      match deserializeRecord C (field offset total file) with
      | .ok (record, _) =>
        match checkRange a.fromId a.endId record with
        | .below => .inl (offset + total, out)
        | .pastEnd => .inr out
        | .yield => .inl (offset + total, out ++ [record])
      | .error _ => .inl (offset + total, out)

def rawIterLoop : Loop (ℕ × List Record) (List Record) where
  step := rawIterStep C a file
  measure s := a.fileSize - s.1
  decreasing s s' h := by
    have hmin : 0 < minRecordSize := by decide
    unfold rawIterStep at h
    simp only at h
    split_ifs at h with hend hsmall hlong
    · cases h
      simp only
      omega
    · split at h
      · split at h <;> cases h <;> simp only <;> omega
      · cases h
        simp only
        omega

end Raw

section Frames

variable (C : Crates) (a : IterArgs)

section

variable (data : Bytes) (frameLen : ℕ)

/-- One record of a decoded frame. The flag of the result says that the range has ended. -/
def frameIterStep (s : ℕ × List Record) :
    (ℕ × List Record) ⊕ (List Record × Bool) :=
  let pos := s.1
  let out := s.2
  if ¬ (pos + minRecordSize ≤ frameLen ∧ pos + minRecordSize ≤ data.length) then
    .inr (out, false)
  else
    let total := leVal (field pos 4 data)
    if total < minRecordSize ∨ frameLen < pos + total ∨ data.length < pos + total then
      .inr (out, false)
    else
      match deserializeRecord C (field pos total data) with
      | .ok (record, _) =>
        match checkRange a.fromId a.endId record with
        | .below => .inl (pos + total, out)
        | .pastEnd => .inr (out, true)
        | .yield => .inl (pos + total, out ++ [record])
      | .error _ => .inl (pos + total, out)

def frameIterLoop : Loop (ℕ × List Record) (List Record × Bool) where
  step := frameIterStep C a data frameLen
  measure s := frameLen - s.1
  decreasing s s' h := by
    have hmin : 0 < minRecordSize := by decide
    unfold frameIterStep at h
    simp only at h
    split_ifs at h with hroom hbad
    split at h
    · split at h <;> cases h <;> simp only <;> omega
    · cases h
      simp only
      omega

end

section

variable (file : Bytes)

/-- `load_next_frame`: the decoded bytes, the length that counts and the next offset. -/
def loadNextFrame (offset : ℕ) : Option (Bytes × ℕ × ℕ) :=
  if a.fileSize < offset + frameHeaderSize then
    none
  else
    let fh := readFrameHeader (field offset frameHeaderSize file)
    if fh.1 = 0 ∨ fh.2 = 0 ∨ a.fileSize < offset + frameHeaderSize + fh.1 then
      none
    else
      match decodeFramePayload C (field (offset + frameHeaderSize) fh.1 file) a.isCompressed
        a.isEncrypted a.key with
      | .ok decoded => some (decoded, min fh.2 decoded.length, offset + frameHeaderSize + fh.1)
      | .error _ => none

def framesIterStep (s : ℕ × List Record) : (ℕ × List Record) ⊕ List Record :=
  match loadNextFrame C a file s.1 with
  | none => .inr s.2
  | some (data, frameLen, next) =>
    let r := (frameIterLoop C a data frameLen).run (0, s.2)
    if r.2 then .inr r.1 else .inl (next, r.1)

def framesIterLoop : Loop (ℕ × List Record) (List Record) where
  step := framesIterStep C a file
  measure s := a.fileSize - s.1
  decreasing s s' h := by
    have hsize : 0 < frameHeaderSize := by decide
    unfold framesIterStep at h
    cases hload : loadNextFrame C a file s.1 with
    | none =>
      rw [hload] at h
      cases h
    | some x =>
      obtain ⟨data, frameLen, next⟩ := x
      rw [hload] at h
      simp only at h
      split_ifs at h
      cases h
      unfold loadNextFrame at hload
      simp only at hload
      split_ifs at hload with hend hbad
      split at hload
      · cases hload
        simp only
        omega
      · cases hload

end

end Frames

def recordIter (C : Crates) (a : IterArgs) (file : Bytes) : List Record :=
  if a.isCompressed || a.isEncrypted then (framesIterLoop C a file).run (a.startOffset, [])
  else (rawIterLoop C a file).run (a.startOffset, [])

/-- The records of the list that an iterator over `[fromId, endId)` yields. -/
def selectRange (fromId endId : UInt64) : List Record → List Record
  | [] => []
  | r :: rs =>
    match checkRange fromId endId r with
    | .below => selectRange fromId endId rs
    | .pastEnd => []
    | .yield => r :: selectRange fromId endId rs

/-- Some record of the list ends the iteration. -/
def rangeEnds (fromId endId : UInt64) : List Record → Bool
  | [] => false
  | r :: rs =>
    match checkRange fromId endId r with
    | .pastEnd => true
    | _ => rangeEnds fromId endId rs

theorem selectRange_append (fromId endId : UInt64) (xs ys : List Record) :
    selectRange fromId endId (xs ++ ys) = selectRange fromId endId xs ++
        if rangeEnds fromId endId xs then [] else selectRange fromId endId ys := by
  induction xs with
  | nil => simp [selectRange, rangeEnds]
  | cons r rs ih =>
    cases hc : checkRange fromId endId r <;>
      simp [selectRange, rangeEnds, hc, ih]

theorem selectRange_all (records : List Record)
    (h : ∀ r ∈ records, r.id.sequence < 0xFFFFFFFFFFFFFFFF) :
    selectRange 0 0xFFFFFFFFFFFFFFFF records = records := by
  induction records with
  | nil => rfl
  | cons r rs ih =>
    have hr := h r mem_cons_self
    have hc : checkRange 0 0xFFFFFFFFFFFFFFFF r = .yield := by
      unfold checkRange
      rw [if_neg (UInt64.not_lt.mpr (UInt64.le_iff_toNat_le.mpr (Nat.zero_le _))),
        if_neg (UInt64.not_le.mpr hr)]
    simp only [selectRange, hc]
    rw [ih fun x hx => h x (mem_cons_of_mem r hx)]

section Records

variable {C : Crates} {a : IterArgs} {file data : Bytes}

/-- One record of the range: `done` is the result when the record ends the iteration. -/
def rangeStep {ρ : Type*} (a : IterArgs) (done : List Record → ρ) (out : List Record)
    (v : ReadView) : List Record ⊕ ρ :=
  match checkRange a.fromId a.endId v.toRecord with
  | .below => .inl out
  | .pastEnd => .inr (done out)
  | .yield => .inl (out ++ [v.toRecord])

theorem foldUntil_rangeStep {ρ : Type*} (done last : List Record → ρ) (views : List ReadView)
    (out : List Record) :
    foldUntil (rangeStep a done) last views out =
      (if rangeEnds a.fromId a.endId (views.map toRecord) then done else last)
        (out ++ selectRange a.fromId a.endId (views.map toRecord)) := by
  induction views generalizing out with
  | nil => simp [foldUntil, selectRange, rangeEnds]
  | cons v vs ih =>
    cases hc : checkRange a.fromId a.endId v.toRecord <;>
      simp [foldUntil, rangeStep, selectRange, rangeEnds, hc, ih]

section

variable (views : List ReadView) (hi : ∀ v ∈ views, v.Fits) (pre : Bytes)
include hi

theorem rawIterLoop_run (hfl : file = pre ++ batchBytes C views) (hs : a.fileSize = file.length)
    (out : List Record) :
    (rawIterLoop C a file).run (pre.length, out) =
      out ++ selectRange a.fromId a.endId (views.map toRecord) := by
  refine ((rawIterLoop C a file).run_items Prod.mk ?_ ?_ views hi pre hfl out).trans
    ((foldUntil_rangeStep id id views out).trans (by rw [ite_self, id]))
  · intro pre v rest out hv hfl
    have hm : minRecordSize = 60 := rfl
    obtain ⟨ht, hf, hsm, hl⟩ := storedRecord_at C hv hfl
    change rawIterStep C a file (pre.length, out) = _
    unfold rawIterStep rangeStep
    simp only [ht, hf, deserializeRecord_storedRecord C hv, length_append, storedRecord_length]
    refine (if_neg (by omega)).trans ((if_neg (by omega)).trans ((if_neg (by omega)).trans ?_))
    cases checkRange a.fromId a.endId v.toRecord <;> rfl
  · intro out
    exact if_pos (by rw [hs]; omega)

theorem frameIterLoop_run (hd : data = pre ++ batchBytes C views) (out : List Record) :
    (frameIterLoop C a data data.length).run (pre.length, out) =
      (out ++ selectRange a.fromId a.endId (views.map toRecord),
        rangeEnds a.fromId a.endId (views.map toRecord)) := by
  have hm : minRecordSize = 60 := rfl
  have hfd := foldUntil_rangeStep (a := a) (·, true) (·, false) views out
  refine ((frameIterLoop C a data data.length).run_items Prod.mk ?_ ?_ views hi pre hd
    out).trans (hfd.trans (by split_ifs with he <;> simp [he]))
  · intro pre v rest out hv hd
    obtain ⟨ht, hf, hs, hl⟩ := storedRecord_at C hv hd
    change frameIterStep C a data data.length (pre.length, out) = _
    unfold frameIterStep rangeStep
    simp only [ht, hf, deserializeRecord_storedRecord C hv, length_append, storedRecord_length]
    refine (if_neg (by omega)).trans ((if_neg (by omega)).trans ?_)
    cases checkRange a.fromId a.endId v.toRecord <;> rfl
  · intro out
    exact if_pos (by simp only; omega)

end

end Records

section Frames

variable {C : Crates} {a : IterArgs} {pre rest file data payload : Bytes}

/-- The header and the payload of a frame, as they are read from the file that holds it. -/
theorem frameBytes_fields {rawLen : ℕ} (hp : payload.length < 2 ^ 32)
    (hl : file = pre ++ (frameBytes payload rawLen ++ rest)) :
    readFrameHeader (field pre.length frameHeaderSize file) = (payload.length, rawLen % 2 ^ 32) ∧
      field (pre.length + frameHeaderSize) payload.length file = payload ∧
      file.length = pre.length + (frameHeaderSize + payload.length + rest.length) := by
  refine ⟨?_, ?_, ?_⟩
  · have hf := field_append_right pre (frameBytes payload rawLen ++ rest) 0 frameHeaderSize
    rw [add_zero, ← hl, field_zero] at hf
    rw [hf, readFrameHeader_take _ (le_refl _), readFrameHeader_frameBytes rawLen hp]
  · have ht := field_flatten [pre, writeFrameHeader payload.length rawLen] [rest] payload
      (show _ = pre.length + frameHeaderSize by simp [writeFrameHeader, frameHeaderSize]) rfl
    rw [hl, frameBytes]
    simpa using ht
  · rw [hl, length_append, length_append, frameBytes_length]

/-- A frame is read with the lengths its header can hold: the batch length is cut to 32 bits. -/
theorem loadNextFrame_frameBytes {rawLen : ℕ} (hne : payload ≠ [])
    (hp : payload.length < 2 ^ 32) (hr : rawLen % 2 ^ 32 ≠ 0)
    (hd : decodeFramePayload C payload a.isCompressed a.isEncrypted a.key = .ok data)
    (hf : file = pre ++ (frameBytes payload rawLen ++ rest)) (hs : a.fileSize = file.length) :
    loadNextFrame C a file pre.length = some (data, min (rawLen % 2 ^ 32) data.length,
        (pre ++ frameBytes payload rawLen).length) := by
  have hb := frameBytes_length payload rawLen
  have hne' : payload.length ≠ 0 := fun hz => hne (length_eq_zero_iff.mp hz)
  obtain ⟨hh, ha, hl⟩ := frameBytes_fields hp hf
  unfold loadNextFrame
  simp only [hh, ha, hd, length_append, hb]
  rw [if_neg (by omega), if_neg (by omega), add_assoc]

theorem loadNextFrame_stored {f : StoredFrame} (hv : f.Valid C a.isCompressed a.isEncrypted a.key)
    (hf : file = pre ++ (f.bytes C ++ rest)) (hs : a.fileSize = file.length) :
    loadNextFrame C a file pre.length =
      some (f.raw C, (f.raw C).length, (pre ++ f.bytes C).length) := by
  have hr : (f.raw C).length % 2 ^ 32 = (f.raw C).length := Nat.mod_eq_of_lt hv.raw_lt
  have hne : (f.raw C).length ≠ 0 := by
    intro hz
    exact batchBytes_ne_nil C hv.views_ne (length_eq_zero_iff.mp hz)
  have hl := loadNextFrame_frameBytes hv.payload_ne hv.payload_lt (by rwa [hr]) hv.decodes hf hs
  rwa [hr, Nat.min_self] at hl

def framesRangeStep (a : IterArgs) (out : List Record) (f : StoredFrame) :
    List Record ⊕ List Record :=
  let out' := out ++ selectRange a.fromId a.endId (f.views.map toRecord)
  if rangeEnds a.fromId a.endId (f.views.map toRecord) then .inr out' else .inl out'

theorem foldUntil_framesRangeStep (frames : List StoredFrame) (out : List Record) :
    foldUntil (framesRangeStep a) id frames out = out ++ selectRange a.fromId a.endId
        ((frames.flatMap StoredFrame.views).map toRecord) := by
  induction frames generalizing out with
  | nil => simp [foldUntil, selectRange]
  | cons f fs ih =>
    rw [flatMap_cons, map_append, selectRange_append]
    cases he : rangeEnds a.fromId a.endId (f.views.map toRecord) <;>
      simp [foldUntil, framesRangeStep, he, ih]

theorem framesIterLoop_run (frames : List StoredFrame)
    (hv : ∀ f ∈ frames, f.Valid C a.isCompressed a.isEncrypted a.key) (pre : Bytes)
    (hl : file = pre ++ (frames.map (StoredFrame.bytes C)).flatten)
    (hs : a.fileSize = file.length) (out : List Record) :
    (framesIterLoop C a file).run (pre.length, out) = out ++ selectRange a.fromId a.endId
        ((frames.flatMap StoredFrame.views).map toRecord) := by
  refine ((framesIterLoop C a file).run_items Prod.mk ?_ ?_ frames hv pre hl out).trans
    (foldUntil_framesRangeStep frames out)
  · intro pre f rest out hf hl
    have hr := frameIterLoop_run (a := a) (C := C) f.views hf.fits [] (nil_append _).symm out
    rw [length_nil] at hr
    change framesIterStep C a file (pre.length, out) = _
    unfold framesIterStep framesRangeStep
    simp only [loadNextFrame_stored hf hl hs]
    rw [show f.raw C = batchBytes C f.views from rfl, hr]
    split_ifs <;> rfl
  · intro out
    have hm : 0 < frameHeaderSize := by decide
    change framesIterStep C a file (file.length, out) = _
    unfold framesIterStep loadNextFrame
    simp only
    rw [if_pos (by rw [hs]; omega), id]

end Frames

/-- From the end of its header on, a stored segment is read back record by record. -/
theorem recordIter_stored {C : Crates} {a : IterArgs} {header : SegmentHeader}
    {views : List ReadView} {hd body : Bytes} (ha : a.startOffset = hd.length)
    (hc : a.isCompressed = header.isCompressed)
    (he : a.isEncrypted = header.isEncrypted) (hi : ∀ v ∈ views, v.Fits)
    (hb : StoredBody C header a.key views body) (hs : a.fileSize = (hd ++ body).length) :
    recordIter C a (hd ++ body) = selectRange a.fromId a.endId (views.map toRecord) := by
  unfold recordIter
  rw [ha, hc, he]
  cases hb with
  | raw _ hl =>
    rw [if_neg (by simp [hl]), rawIterLoop_run views hi hd rfl hs, nil_append]
  | framed frames hl hf =>
    rw [← hc, ← he] at hf
    rw [if_pos hl, framesIterLoop_run frames hf hd rfl hs, nil_append]

end LogDb.Reader
