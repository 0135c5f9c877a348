import LogDb.Format.Body
import LogDb.Recovery.Walk

/-!
What the walks keep and what they accept: the file is only cut at the last valid offset, and a
run of records with the expected ids and hashes is accepted as a whole.

The scan of a segment that holds nothing but stored records. When ids and hashes follow each other
the file is left as it is; a first record that does not fit the header makes the scan cut all
records off.
-/

namespace LogDb.Recovery

open Lib Format List ReadView ScanState StoredFrame

section

/-- `r` is the state after a walk from `st` that cut the file at `r.lastValidOffset`, if at all. -/
structure CutAt (st r : ScanState) : Prop where
  file : r.file = st.file.take r.lastValidOffset
  ge : st.lastValidOffset ≤ r.lastValidOffset
  le : r.lastValidOffset ≤ st.file.length
  count : st.count ≤ r.count

variable {st : ScanState} {a : ScanArgs} {C : Crates} {cs : List Bytes} {tail : Bytes}
  {st' : ScanState} {c : Bytes} {records : List Record}

theorem CutAt.length {r : ScanState} (h : CutAt st r) : r.file.length = r.lastValidOffset := by
  rw [h.file, length_take_of_le h.le]

theorem CutAt.of_le {r : ScanState} (h : CutAt st' r) (hf : st'.file = st.file)
    (hv : st.lastValidOffset ≤ st'.lastValidOffset) (hc : st.count ≤ st'.count) : CutAt st r :=
  ⟨hf ▸ h.file, hv.trans h.ge, hf ▸ h.le, hc.trans h.count⟩

theorem CutAt.torn (a : ScanArgs) (st : ScanState) (atOffset : ℕ)
    (h : st.lastValidOffset ≤ st.file.length) : CutAt st (st.torn a atOffset) :=
  ⟨setLen_of_le h, le_rfl, h, le_rfl⟩

/-- Where a walk stands in its file. The last clause holds because a damaged record is only
stepped over when something follows it. -/
structure Standing (st : ScanState) (cs : List Bytes) (tail : Bytes) : Prop where
  length : st.offset + (cs.flatten ++ tail).length = st.file.length
  valid : st.lastValidOffset ≤ st.offset
  done : cs = [] → tail = [] → st.lastValidOffset = st.offset

theorem Standing.le (h : Standing st cs tail) : st.lastValidOffset ≤ st.file.length := by
  have hv := h.valid
  have hl := h.length
  omega

section

variable (h : Standing st (c :: cs) tail)
include h

private theorem Standing.next_length :
    st.offset + c.length + (cs.flatten ++ tail).length = st.file.length := by
  have hl := h.length
  simp only [flatten_cons, length_append] at hl ⊢
  omega

theorem Standing.advance (hf : st'.file = st.file)
    (ho : st'.offset = st.offset) : Standing (st'.advance c.length) cs tail := by
  refine ⟨?_, le_rfl, fun _ _ => rfl⟩
  have hl := h.next_length
  simp only [ScanState.advance, hf, ho]
  exact hl

theorem Standing.skip (hm : ¬ (cs = [] ∧ tail = [])) : Standing (st.skip a c.length) cs tail := by
  refine ⟨h.next_length, ?_, fun hc ht => absurd ⟨hc, ht⟩ hm⟩
  exact le_trans h.valid (Nat.le_add_right _ _)

end

section

variable (C : Crates) (a : ScanArgs)

theorem Standing.cutAt_end (h : Standing st [] []) : CutAt st st := by
  have hl := h.length
  refine ⟨?_, le_rfl, h.le, le_rfl⟩
  simp only [flatten_nil, append_nil, length_nil, add_zero] at hl
  rw [h.done rfl rfl, hl, take_length]

theorem rawWalk_cutAt (cs : List Bytes) (tail : Bytes)
    (st : ScanState) (h : Standing st cs tail) : CutAt st (rawWalk C a st cs tail) := by
  fun_induction rawWalk C a st cs tail with
  | case1 st => exact h.cutAt_end
  | case3 st c cs tail record _ _ _ _ ih =>
    exact (ih (h.advance rfl rfl)).of_le rfl (le_trans h.valid (Nat.le_add_right _ _))
      (Nat.le_succ _)
  | case4 st c cs tail record =>
    exact (CutAt.torn a (st.breakChain C a record) _ h.le).of_le rfl le_rfl (Nat.le_succ _)
  | case7 st c cs tail _ _ he ih => exact (ih (h.skip he)).of_le rfl le_rfl le_rfl
  | _ => exact CutAt.torn a _ _ h.le

theorem recordsWalk_count (cs : List Bytes) (st : ScanState) :
    st.count ≤ (recordsWalk C a st cs).state.count := by
  fun_induction recordsWalk C a st cs with
  | case2 _ _ _ _ _ _ _ _ ih => exact le_trans (Nat.le_succ _) ih
  | case3 => exact Nat.le_succ _
  | _ => exact le_rfl

theorem recordsWalk_ne_broken (hh : a.hashEnabled = false)
    (cs : List Bytes) (st st' : ScanState) : recordsWalk C a st cs ≠ .broken st' := by
  fun_induction recordsWalk C a st cs with
  | case2 _ _ _ _ _ _ _ _ ih => exact ih
  | case3 _ _ _ _ _ _ _ hc => exact absurd (fun h => absurd h (by simp [hh])) hc
  | _ => simp

theorem frameWalk_cutAt (hh : a.hashEnabled = false) (cs : List Bytes) (tail : Bytes)
    (st : ScanState) (h : Standing st cs tail) : CutAt st (frameWalk C a st cs tail) := by
  fun_induction frameWalk C a st cs tail with
  | case1 st => exact h.cutAt_end
  | case2 | case3 => exact CutAt.torn a _ _ h.le
  | case4 st c cs tail chunks _ st' hx ih =>
    obtain ⟨hf, ho, -⟩ := recordsWalk_frame C a chunks st
    have hc := recordsWalk_count C a chunks st
    rw [hx] at hf ho hc
    refine (ih (h.advance hf ho)).of_le hf ?_ hc
    exact le_trans h.valid (ho.ge.trans (Nat.le_add_right _ _))
  | case5 st c cs tail chunks _ st' hx =>
    obtain ⟨hf, -, hv⟩ := recordsWalk_frame C a chunks st
    have hc := recordsWalk_count C a chunks st
    rw [hx] at hf hv hc
    exact (CutAt.torn a st' _ (hv.trans_le (h.le.trans (congrArg length hf).ge))).of_le hf hv.ge hc
  | case6 st c cs tail chunks _ st' hx | case7 st c cs tail chunks _ st' hx =>
    exact absurd hx (recordsWalk_ne_broken C a hh chunks st st')

end

/-- The id that the next record must have, if any: the first record of a sharded segment may have
any id. -/
def ScanState.expectation (a : ScanArgs) (st : ScanState) : Option UInt64 :=
  if st.count = 0 ∧ 0 < a.shardBits then none else some st.expectedRecordId

/-- Ids that follow each other with a stride, the first one being the expected one. -/
def IdsFollow (stride : UInt64) : Option UInt64 → List Record → Prop
  | _, [] => True
  | expected, r :: rs =>
    (expected = none ∨ expected = some r.id.sequence) ∧
      IdsFollow stride (some (r.id.sequence + stride)) rs

theorem IdsFollow.of_some {stride : UInt64} {base : UInt64}
    (h : IdsFollow stride (some base) records) (expected : Option UInt64)
    (he : expected = none ∨ expected = some base) : IdsFollow stride expected records := by
  rcases he with rfl | rfl
  · cases records with
    | nil => trivial
    | cons r rs => exact ⟨Or.inl rfl, h.2⟩
  · exact h

theorem idsFollow_encode {shardId limit : ℕ} {bits : UInt32} (h : ShardFits shardId bits limit)
    {views : List ReadView} {i : ℕ}
    (hi : ∀ j v, views[j]? = some v → v.recordId = encodeRecordId shardId (i + j) bits)
    (hle : i + views.length ≤ limit) :
    IdsFollow (idStride bits) (some (encodeRecordId shardId i bits))
      (views.map toRecord) := by
  induction views generalizing i with
  | nil => trivial
  | cons v vs ih =>
    rw [length_cons] at hle
    have hid : v.toRecord.id.sequence = encodeRecordId shardId i bits := hi 0 v rfl
    refine ⟨.inr (by rw [hid]), ?_⟩
    rw [hid, ← encodeRecordId_succ h (by omega)]
    apply ih _ (by omega)
    intro j w hw
    rw [hi (j + 1) w (by simpa using hw), Nat.add_right_comm, add_assoc]

/-- Every record carries the keyed hash of its predecessor's hash and its own content. -/
def ChainFrom (C : Crates) (key : Bytes32) : Bytes32 → List Record → Prop
  | _, [] => True
  | prev, r :: rs => blake3KeyedChain C key prev r.content = r.hashN ∧ ChainFrom C key r.hashN rs

theorem idOk_iff {r : Record} :
    IdOk a st r ↔ st.expectation a = none ∨ st.expectation a = some r.id.sequence := by
  unfold IdOk expectation
  split_ifs with hf
  · simp [hf]
  · simp only [hf, or_false, false_or, Option.some.injEq]
    exact eq_comm

theorem accept_expectation (a : ScanArgs) (st : ScanState) (r : Record) :
    (st.accept a r).expectation a = some (r.id.sequence + a.stride) := by
  simp [expectation, accept, counted]

/-- Both checks pass for all of the records, one after the other. -/
def Accepts (C : Crates) (a : ScanArgs) : ScanState → List Record → Prop
  | _, [] => True
  | st, r :: rs => IdOk a st r ∧ ChainOk C a st r ∧ Accepts C a (st.accept a r) rs

theorem accepts_of_follow (records : List Record) (st : ScanState)
    (hi : IdsFollow a.stride (st.expectation a) records)
    (hc : a.hashEnabled = true → ChainFrom C a.chainKey st.chainPrev records) :
    Accepts C a st records := by
  induction records generalizing st with
  | nil => trivial
  | cons r rs ih =>
    refine ⟨idOk_iff.mpr hi.1, fun hh => (hc hh).1, ih _ ?_ ?_⟩
    · rw [accept_expectation]
      exact hi.2
    · intro hh
      have hp : (st.accept a r).chainPrev = r.hashN := if_pos hh
      rw [hp]
      exact (hc hh).2

def ScanState.acceptAll (a : ScanArgs) (st : ScanState) (records : List Record) : ScanState :=
  records.foldl (fun st r => st.accept a r) st

theorem acceptAll_append (a : ScanArgs) (st : ScanState) (xs ys : List Record) :
    st.acceptAll a (xs ++ ys) = (st.acceptAll a xs).acceptAll a ys := by
  simp [acceptAll]

theorem accepts_append {xs ys : List Record} :
    Accepts C a st (xs ++ ys) ↔ Accepts C a st xs ∧ Accepts C a (st.acceptAll a xs) ys := by
  induction xs generalizing st with
  | nil => simp [Accepts, acceptAll]
  | cons x xs ih =>
    simp only [cons_append, Accepts, ih]
    simp only [acceptAll, foldl_cons, and_assoc]

section

variable (a : ScanArgs) (st : ScanState) (records : List Record)

theorem acceptAll_keeps :
    (st.acceptAll a records).file = st.file ∧ (st.acceptAll a records).offset = st.offset ∧
      (st.acceptAll a records).lastValidOffset = st.lastValidOffset ∧
      (st.acceptAll a records).warnings = st.warnings ∧
      (st.acceptAll a records).count = st.count + records.length := by
  induction records generalizing st with
  | nil => exact ⟨rfl, rfl, rfl, rfl, rfl⟩
  | cons r rs ih =>
    obtain ⟨hf, ho, hv, hw, hc⟩ := ih (st.accept a r)
    refine ⟨hf, ho, hv, hw, ?_⟩
    rw [length_cons, ← add_assoc, Nat.add_right_comm]
    exact hc

theorem acceptAll_advance (n : ℕ) :
    (st.acceptAll a records).advance n = (st.advance n).acceptAll a records := by
  induction records generalizing st with
  | nil => rfl
  | cons r rs ih => exact ih (st.accept a r)

end

theorem advance_advance (st : ScanState) (m n : ℕ) :
    (st.advance m).advance n = st.advance (m + n) := by
  simp [advance, add_assoc]

theorem advance_zero (h : st.lastValidOffset = st.offset) : st.advance 0 = st := by
  cases st
  simp only at h
  simp [advance, h]

theorem accepts_congr (hid : st.expectedRecordId = st'.expectedRecordId) (hc : st.count = st'.count)
    (hp : st.chainPrev = st'.chainPrev) : Accepts C a st records ↔ Accepts C a st' records := by
  induction records generalizing st st' with
  | nil => exact Iff.rfl
  | cons r rs ih =>
    have hr : Accepts C a (st.accept a r) rs ↔ Accepts C a (st'.accept a r) rs := by
      apply ih
      · rfl
      · simp [accept, counted, hc]
      · simp [accept, counted, hp]
    simp only [Accepts, IdOk, ChainOk, hid, hc, hp, hr]

theorem accepts_advance {n : ℕ} : Accepts C a (st.advance n) records ↔ Accepts C a st records :=
  accepts_congr rfl rfl rfl

theorem rawWalk_accepts (cs : List Bytes) (tail : Bytes) (views : List ReadView)
    (hf : ∀ v ∈ views, v.Fits) (st : ScanState) (hv : views = [] → st.lastValidOffset = st.offset)
    (ha : Accepts C a st (views.map toRecord)) :
    rawWalk C a st (views.map (storedRecord C) ++ cs) tail =
      rawWalk C a ((st.acceptAll a (views.map toRecord)).advance
        (batchBytes C views).length) cs tail := by
  induction views generalizing st with
  | nil =>
    rw [batchBytes_nil, length_nil]
    exact congrArg (fun s => rawWalk C a s cs tail) (advance_zero (hv rfl)).symm
  | cons v vs ih =>
    obtain ⟨hid, hc, ht⟩ := ha
    have hr := deserializeRecord_storedRecord C (hf v (by simp))
    rw [map_cons, cons_append, rawWalk, hr]
    simp only [if_pos hid, if_pos hc]
    have hn := (accepts_advance (n := (storedRecord C v).length)).mpr ht
    rw [ih (fun w hw => hf w (by simp [hw])) _ (fun _ => rfl) hn, ← acceptAll_advance,
      advance_advance, batchBytes_cons, length_append]
    rfl

theorem recordsWalk_accepts (views : List ReadView) (hf : ∀ v ∈ views, v.Fits) (st : ScanState)
    (ha : Accepts C a st (views.map toRecord)) :
    recordsWalk C a st (views.map (storedRecord C)) =
      .intact (st.acceptAll a (views.map toRecord)) := by
  induction views generalizing st with
  | nil => rfl
  | cons v vs ih =>
    obtain ⟨hid, hc, ht⟩ := ha
    have hr := deserializeRecord_storedRecord C (hf v (by simp))
    rw [map_cons, recordsWalk, hr]
    simp only [if_pos hid, if_pos hc]
    exact ih (fun w hw => hf w (by simp [hw])) _ ht

theorem decodeFrame_bytes {f : StoredFrame}
    (hf : f.Valid C a.header.isCompressed a.header.isEncrypted a.encryptionKey) :
    decodeFrame C a (f.bytes C) = some (f.views.map (storedRecord C)) := by
  have hs := recordFraming.split_flatten_chunks (isChunk_of_mem_map (C := C) hf.fits)
  rw [decodeFrame, bytes_drop, hf.decodes]
  simp only [hf.readFrameHeader, Nat.min_self, take_length]
  rw [raw, batchBytes, hs]

theorem frameWalk_accepts (cs : List Bytes) (tail : Bytes) (frames : List StoredFrame)
    (hs : ∀ f ∈ frames,
      f.Valid C a.header.isCompressed a.header.isEncrypted a.encryptionKey) (st : ScanState)
    (hv : st.lastValidOffset = st.offset)
    (ha : Accepts C a st ((frames.flatMap views).map toRecord)) :
    frameWalk C a st (frames.map (bytes C) ++ cs) tail = frameWalk C a ((st.acceptAll a
          ((frames.flatMap views).map toRecord)).advance
        (frames.map (bytes C)).flatten.length) cs tail := by
  induction frames generalizing st with
  | nil => exact congrArg (fun s => frameWalk C a s cs tail) (advance_zero hv).symm
  | cons f fs ih =>
    have hf := hs f (by simp)
    rw [flatMap_cons, map_append] at ha ⊢
    obtain ⟨ht, hr⟩ := accepts_append.mp ha
    obtain ⟨-, ho, -, -, -⟩ := acceptAll_keeps a st (f.views.map toRecord)
    rw [map_cons, cons_append, frameWalk, decodeFrame_bytes hf]
    simp only [recordsWalk_accepts f.views hf.fits st ht]
    have hn := (accepts_advance (n := (f.bytes C).length)).mpr hr
    rw [ih (fun g hg => hs g (by simp [hg])) _ rfl hn, ← acceptAll_advance,
      advance_advance, acceptAll_append, flatten_cons, length_append]

end

theorem acceptAll_last (a : ScanArgs) (st : ScanState) (views : List ReadView) :
    (st.acceptAll a (views.map toRecord)).lastSequence =
        views.getLast?.elim st.lastSequence recordId ∧
      (st.acceptAll a (views.map toRecord)).lastHash =
        views.getLast?.elim st.lastHash ReadView.hashN := by
  rcases eq_nil_or_concat views with rfl | ⟨front, v, rfl⟩
  · exact ⟨rfl, rfl⟩
  · rw [concat_eq_append, map_append, acceptAll_append, getLast?_concat]
    exact ⟨rfl, rfl⟩

section

variable (C : Crates) (a : ScanArgs) {hdr body : Bytes} {views : List ReadView}
  (hd : hdr.length = segmentHeaderSize) (ht : ∀ v ∈ views, v.Fits)

include hd ht

theorem scanLastSegment_clean (hb : StoredBody C a.header a.encryptionKey views body)
    (hi : IdsFollow a.stride ((a.initial (hdr ++ body)).expectation a) (views.map toRecord))
    (hch : a.hashEnabled = true →
      ChainFrom C a.chainKey a.header.prevLastHash (views.map toRecord)) :
    scanLastSegment C a (hdr ++ body) = .ok
      { lastSequence := views.getLast?.elim (a.header.baseSequence - 1) recordId
        lastHash := views.getLast?.elim zeros32 ReadView.hashN
        validOffset := (hdr ++ body).length
        warnings := []
        count := views.length
        file := hdr ++ body } := by
  have ha := accepts_of_follow (C := C) _ (a.initial (hdr ++ body)) hi hch
  obtain ⟨hfl, ho, -, hw, hc⟩ := acceptAll_keeps a (a.initial (hdr ++ body)) (views.map toRecord)
  obtain ⟨hq, hh⟩ := acceptAll_last a (a.initial (hdr ++ body)) views
  rw [scanLastSegment_eq C a hdr body hd]
  trans Except.ok (((a.initial (hdr ++ body)).acceptAll a (views.map toRecord)).advance
    body.length).result
  · cases hb with
    | raw _ hl =>
      have hs := recordFraming.split_flatten_chunks (isChunk_of_mem_map (C := C) ht)
      have hr := rawWalk_accepts [] [] views ht _ (fun _ => rfl) ha
      rw [append_nil] at hr
      rw [if_neg (by simp [hl]), batchBytes, hs, ← batchBytes, hr, rawWalk, if_pos rfl]
    | framed frames hl hf =>
      have hr := frameWalk_accepts [] [] frames hf _ rfl ha
      rw [append_nil] at hr
      have hs := frameFraming.split_flatten_chunks (StoredFrame.isChunk_of_mem_frames hf)
      rw [if_pos hl, hs, hr, frameWalk, if_pos rfl]
  · simp only [ScanState.result, ScanState.advance, hfl, ho, hw, hc, hq, hh]
    simp only [ScanArgs.initial, length_append, length_map, hd, zero_add]

end

section

variable (C : Crates) (a : ScanArgs) {hdr : Bytes} {v : ReadView} {vs : List ReadView}
  (hd : hdr.length = segmentHeaderSize) (ht : ∀ w ∈ v :: vs, w.Fits)
  (he : (a.header.isCompressed || a.header.isEncrypted) = false)

include hd ht he

theorem scanLastSegment_raw : scanLastSegment C a (hdr ++ batchBytes C (v :: vs)) =
      .ok (rawWalk C a (a.initial (hdr ++ batchBytes C (v :: vs)))
        (storedRecord C v :: vs.map (storedRecord C)) []).result := by
  have hs : recordFraming.split (batchBytes C (v :: vs)) = ((v :: vs).map (storedRecord C), []) :=
    recordFraming.split_flatten_chunks (isChunk_of_mem_map ht)
  rw [scanLastSegment_eq C a hdr _ hd, if_neg (by simp [he]), hs, map_cons]

end

end LogDb.Recovery
