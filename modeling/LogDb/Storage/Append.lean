import LogDb.Format.Body
import LogDb.Storage.Manager

/-!
What the operations of the segment manager do to the bytes of the active segment file.
-/

namespace LogDb.Storage

open Lib Format List Option SegmentHeader Disk ActiveSegment

namespace ActiveSegment

/-- The header bytes in front of the time range. -/
private def frontBytes (h : SegmentHeader) : Bytes :=
  [leBytes 4 magic, leBytes 2 h.formatVersion.toNat, [h.flags], [h.hashAlgo], h.hashInit.1,
    leBytes 8 h.baseSequence.toNat, leBytes 4 h.partitionId.toNat,
    leBytes 4 h.segmentId.toNat].flatten

private theorem frontBytes_length (h : SegmentHeader) : (frontBytes h).length = 56 := by
  have hit := h.hashInit.2
  simp [frontBytes, hit]

private theorem checkedBytes_eq (h : SegmentHeader) : h.checkedBytes =
      frontBytes h ++ (leBytes 8 h.minTimestampNs.toNat ++ leBytes 8 h.maxTimestampNs.toNat) := by
  simp [checkedBytes, frontBytes]

/-- Filling in the time range leaves a header that is checksummed as if it had been written with
this range. -/
theorem backfill_serialize (C : Crates) (h : SegmentHeader) (lastHash : Bytes32) (body : Bytes)
    (minTs maxTs : UInt64) :
    backfill C minTs maxTs (h.serialize C lastHash ++ body) =
      serialize C { h with minTimestampNs := minTs, maxTimestampNs := maxTs }
        lastHash ++ body := by
  set h' : SegmentHeader := { h with minTimestampNs := minTs, maxTimestampNs := maxTs } with hh'
  set oldMin := leBytes 8 h.minTimestampNs.toNat
  set oldMax := leBytes 8 h.maxTimestampNs.toNat
  set newMin := leBytes 8 minTs.toNat with hm
  set newMax := leBytes 8 maxTs.toNat with hx
  set oldCrc := leBytes 4 (C.crc32c h.checkedBytes).toNat with hr
  set rest := h.uncheckedBytes lastHash ++ body with hrt
  have hf : (frontBytes h).length = 56 := frontBytes_length h
  have hc : h'.checkedBytes = frontBytes h ++ newMin ++ newMax := by
    rw [checkedBytes_eq, append_assoc]
    rfl
  have ha : h.serialize C lastHash ++ body =
      frontBytes h ++ oldMin ++ (oldMax ++ oldCrc ++ rest) := by
    rw [serialize, ← hr, checkedBytes_eq, hrt]
    simp only [append_assoc, oldMin, oldMax]
  have hs : writeAt 56 newMin (h.serialize C lastHash ++ body) =
      frontBytes h ++ newMin ++ (oldMax ++ oldCrc ++ rest) := by
    rw [ha, ← hf]
    exact writeAt_append _ _ _ _ (by simp [oldMin, newMin])
  have hd : writeAt 64 newMax (frontBytes h ++ newMin ++ (oldMax ++ oldCrc ++ rest)) =
      frontBytes h ++ newMin ++ newMax ++ (oldCrc ++ rest) := by
    have hl : (frontBytes h ++ newMin).length = 64 := by simp [hf, newMin]
    have hw := writeAt_append (frontBytes h ++ newMin) oldMax (oldCrc ++ rest) newMax
      (by simp [oldMax, newMax])
    rw [hl] at hw
    rw [← hw]
    simp only [append_assoc]
  have hb : field 0 headerCrcEnd (h'.checkedBytes ++ (oldCrc ++ rest)) = h'.checkedBytes := by
    rw [field_zero]
    exact take_left' h'.checkedBytes_length
  have ht : writeAt headerCrcEnd (leBytes 4 (C.crc32c h'.checkedBytes).toNat)
      (h'.checkedBytes ++ (oldCrc ++ rest)) =
        h'.checkedBytes ++ leBytes 4 (C.crc32c h'.checkedBytes).toNat ++ rest := by
    have hw := writeAt_append h'.checkedBytes oldCrc rest
      (leBytes 4 (C.crc32c h'.checkedBytes).toNat) (by simp [oldCrc])
    rw [h'.checkedBytes_length] at hw
    rw [← hw, append_assoc]
    rfl
  unfold backfill
  simp only [← hm, ← hx, hs, hd]
  rw [← hc, hb, ht, serialize, append_assoc _ _ body]
  rfl

/-- Nothing but the time range differs. -/
structure SameFile (a b : ActiveSegment) : Prop where
  id_eq : a.id = b.id
  offset_eq : a.offset = b.offset
  baseSequence_eq : a.baseSequence = b.baseSequence
  compressed_eq : a.compressed = b.compressed

theorem SameFile.trans {a b c : ActiveSegment} (ha : SameFile a b) (hb : SameFile b c) :
    SameFile a c where
  id_eq := ha.id_eq.trans hb.id_eq
  offset_eq := ha.offset_eq.trans hb.offset_eq
  baseSequence_eq := ha.baseSequence_eq.trans hb.baseSequence_eq
  compressed_eq := ha.compressed_eq.trans hb.compressed_eq

theorem updateTsRange_sameFile (seg : ActiveSegment) (ts : UInt64) :
    SameFile (seg.updateTsRange ts) seg :=
  ⟨rfl, rfl, rfl, rfl⟩

end ActiveSegment

/-- The index entry of every record of a raw segment, for records stored from `offset` on. -/
def anchors (offset : ℕ) : List ReadView → List IndexEntry
  | [] => []
  | v :: vs =>
    ⟨v.recordId, offset, v.timestampNs⟩ :: anchors (offset + recordSize v.content.length) vs

theorem anchors_append (C : Crates) (offset : ℕ) (xs ys : List ReadView) :
    anchors offset (xs ++ ys) =
      anchors offset xs ++ anchors (offset + (batchBytes C xs).length) ys := by
  induction xs generalizing offset with
  | nil => simp [anchors, batchBytes_nil]
  | cons v vs ih =>
    rw [cons_append, anchors, anchors, ih, batchBytes_cons, length_append,
      storedRecord_length, add_assoc, cons_append]

variable {offset : ℕ} {views : List ReadView} {e : IndexEntry}

theorem anchor_lt {C : Crates} (he : e ∈ anchors offset views) :
    e.fileOffset < offset + (batchBytes C views).length := by
  induction views generalizing offset with
  | nil => exact absurd he not_mem_nil
  | cons v vs ih =>
    have hs := recordSize_eq v.content.length
    rw [batchBytes_cons, length_append, storedRecord_length]
    rcases mem_cons.mp he with rfl | hm
    · show offset < _
      omega
    · have hlt := ih hm
      omega

theorem exists_of_mem_anchors (C : Crates) (he : e ∈ anchors offset views) :
    ∃ pre v post, views = pre ++ v :: post ∧
      e = ⟨v.recordId, offset + (batchBytes C pre).length, v.timestampNs⟩ := by
  induction views generalizing offset with
  | nil => exact absurd he not_mem_nil
  | cons v vs ih =>
    rcases mem_cons.mp he with rfl | hm
    · exact ⟨[], v, vs, rfl, rfl⟩
    · obtain ⟨pre, w, post, rfl, rfl⟩ := ih hm
      refine ⟨v :: pre, w, post, rfl, ?_⟩
      rw [batchBytes_cons, length_append, storedRecord_length, add_assoc]

theorem anchors_sorted (hs : views.Pairwise fun v w => v.recordId < w.recordId) :
    (anchors offset views).Pairwise fun a b => a.sequence < b.sequence := by
  have hm : ∀ offset, (anchors offset views).map IndexEntry.sequence =
      views.map ReadView.recordId := by
    induction views with
    | nil => exact fun _ => rfl
    | cons v vs ih =>
      intro offset
      rw [anchors, map_cons, map_cons, ih (pairwise_cons.mp hs).2]
  have hi := pairwise_map.mpr hs
  rw [← hm offset] at hi
  exact pairwise_map.mp hi

/-- The index, if there is one, only got some of the new entries. -/
def IndexGrows (old new : Option SparseIndex) (more : List IndexEntry) : Prop :=
  match old, new with
  | none, none => True
  | some i, some j => ∃ added, added.Sublist more ∧ j.entries = i.entries ++ added
  | _, _ => False

theorem IndexGrows.trans {a b c : Option SparseIndex} {xs ys : List IndexEntry}
    (ha : IndexGrows a b xs) (hb : IndexGrows b c ys) : IndexGrows a c (xs ++ ys) := by
  cases a with
  | none =>
    cases b with
    | none =>
      cases c with
      | none => trivial
      | some k => exact hb.elim
    | some j => exact ha.elim
  | some i =>
    cases b with
    | none => exact ha.elim
    | some j =>
      cases c with
      | none => exact hb.elim
      | some k =>
        obtain ⟨us, hu, hj⟩ := ha
        obtain ⟨vs, hv, hk⟩ := hb
        exact ⟨us ++ vs, hu.append hv, by rw [hk, hj, append_assoc]⟩

theorem IndexGrows.refl (a : Option SparseIndex) : IndexGrows a a [] := by
  cases a with
  | none => trivial
  | some i => exact ⟨[], List.Sublist.refl _, (append_nil _).symm⟩

theorem IndexGrows.sublist {C : Crates} {old new : Option SparseIndex} {more : List ReadView}
    (h : IndexGrows old new (anchors (offset + (batchBytes C views).length) more))
    (ho : ∀ idx ∈ old, idx.entries.Sublist (anchors offset views)) :
    ∀ idx ∈ new, idx.entries.Sublist (anchors offset (views ++ more)) := by
  intro idx hx
  cases hx
  cases old with
  | none => exact h.elim
  | some i =>
    obtain ⟨added, hs, he⟩ := h
    rw [he, anchors_append C]
    exact (ho i rfl).append hs

namespace SegmentManager

variable {C : Crates} {m : SegmentManager}

/-- The first `k` of the records have been put into the buffer. -/
structure Filled (C : Crates) (m : SegmentManager) (seq : ℕ) (views : List ReadView)
    (old st : BatchFill) (k : ℕ) : Prop where
  le : k ≤ views.length
  buf_eq : st.buf = old.buf ++ batchBytes C (views.take k)
  next_eq : st.next = seq + k
  active_eq : SameFile st.active old.active
  index : IndexGrows old.index st.index
    (anchors (m.active.offset + old.buf.length) (views.take k))
  room : 0 < k → m.active.offset + st.buf.length ≤ m.segmentSize

theorem fillStep_index (startOffset seq : ℕ) (view : ReadView) (st : BatchFill) :
    IndexGrows st.index (fillStep C startOffset seq view st).index
      [⟨view.recordId, startOffset + st.buf.length, view.timestampNs⟩] := by
  cases hx : st.index with
  | none =>
    simp only [fillStep, hx, map_none]
    trivial
  | some idx =>
    simp only [fillStep, hx, map_some]
    split_ifs
    · exact ⟨_, List.Sublist.refl _, rfl⟩
    · exact ⟨[], nil_sublist _, (append_nil _).symm⟩

variable {st : BatchFill} {seq : ℕ} {views : List ReadView} {st' : BatchFill}

theorem Filled.zero (views : List ReadView) (hn : st.next = seq) :
    Filled C m seq views st st 0  where
  le := Nat.zero_le _
  buf_eq := by rw [take_zero, batchBytes_nil, append_nil]
  next_eq := hn
  active_eq := ⟨rfl, rfl, rfl, rfl⟩
  index := IndexGrows.refl _
  room h := absurd h (lt_irrefl 0)

theorem Filled.cons {k : ℕ} {v : ReadView} {vs : List ReadView}
    (h : Filled C m (seq + 1) vs (fillStep C m.active.offset seq v st) st' k)
    (hr : m.active.hasRoom (st.buf.length + recordSize v.content.length) m.segmentSize = true) :
    Filled C m seq (v :: vs) st st' (k + 1) := by
  have hb : st'.buf = st.buf ++ batchBytes C ((v :: vs).take (k + 1)) := by
    rw [h.buf_eq, take_succ_cons, batchBytes_cons, ← append_assoc]
    rfl
  refine ⟨Nat.succ_le_succ h.le, hb, ?_, ?_, ?_, fun _ => ?_⟩
  · rw [h.next_eq]
    omega
  · exact h.active_eq.trans (st.active.updateTsRange_sameFile v.timestampNs)
  · have hg := (fillStep_index m.active.offset seq v st).trans h.index
    rw [take_succ_cons, anchors]
    have hl : (fillStep C m.active.offset seq v st).buf.length =
        st.buf.length + recordSize v.content.length := by
      simp only [fillStep, length_append, serializeRecord_length]
    rwa [hl, ← add_assoc] at hg
  · rcases Nat.eq_zero_or_pos k with rfl | hp
    · have hle : m.active.offset + (st.buf.length + recordSize v.content.length) ≤
          m.segmentSize := by simpa [hasRoom] using hr
      rw [hb]
      simp only [take_succ_cons, take_zero, batchBytes_cons, batchBytes_nil,
        length_append, storedRecord_length, length_nil]
      omega
    · exact h.room hp

theorem fill_spec (h : fill C m seq views st = .ok st') (hx : st.next = seq) :
    ∃ k, Filled C m seq views st st' k ∧ (st.buf = [] → views ≠ [] → 0 < k) := by
  induction views generalizing seq st with
  | nil =>
    unfold fill at h
    cases h
    exact ⟨0, Filled.zero [] hx, fun _ hne => absurd rfl hne⟩
  | cons v vs ih =>
    unfold fill at h
    split_ifs at h with hr he
    · have hs : (fillStep C m.active.offset seq v st).next = seq + 1 := rfl
      obtain ⟨k, hf, -⟩ := ih h hs
      exact ⟨k + 1, hf.cons hr, fun _ _ => Nat.succ_pos k⟩
    · cases h
      refine ⟨0, Filled.zero _ hx, fun hn _ => ?_⟩
      exact absurd (length_eq_zero_iff.mpr hn) he

theorem fill_of_room (hn : st.next = seq)
    (hr : m.active.offset + (st.buf.length + (batchBytes C views).length) ≤ m.segmentSize) :
    ∃ st', fill C m seq views st = .ok st' ∧ Filled C m seq views st st' views.length := by
  induction views generalizing seq st with
  | nil => exact ⟨st, rfl, Filled.zero [] hn⟩
  | cons v vs ih =>
    rw [batchBytes_cons, length_append, storedRecord_length] at hr
    have hf : m.active.hasRoom (st.buf.length + recordSize v.content.length) m.segmentSize =
        true := by
      unfold hasRoom
      exact decide_eq_true (by omega)
    have hs : (fillStep C m.active.offset seq v st).next = seq + 1 := rfl
    obtain ⟨st', hi, hd⟩ := ih hs (by
      simp only [fillStep, length_append, serializeRecord_length]
      omega)
    refine ⟨st', ?_, hd.cons hf⟩
    unfold fill
    rw [if_pos hf]
    exact hi

theorem fill_error {e : SegmentError} (h : fill C m seq views st = .error e) : e = .full := by
  induction views generalizing seq st with
  | nil =>
    unfold fill at h
    cases h
  | cons v vs ih =>
    unfold fill at h
    split_ifs at h with hr he
    · exact ih h
    · cases h
      rfl

/-- The bytes that a batch adds to its segment file. -/
def addedBytes (C : Crates) (m : SegmentManager) (nonce : Nonce) (buf : Bytes) : Bytes :=
  if m.active.compressed || m.encryptionKeys.isSome then
    frameBytes (encodeFramePayload C m.active.compressed (m.encryptionKeys.map KeyRing.active)
      nonce buf) buf.length
  else buf

theorem writeBatch_modify (nonce : Nonce) (hne : st.buf ≠ []) (hs : SameFile st.active m.active) :
    ∃ change, (writeBatch C m d nonce st).2 = d.modify m.active.id change ∧
      (∀ file, file.length = m.active.offset → change file = file ++ addedBytes C m nonce st.buf) ∧
      (writeBatch C m d nonce st).1 = { m with
        active := { st.active with
          offset := m.active.offset + (addedBytes C m nonce st.buf).length }
        activeIndex := st.index
        activeIndexCount := st.indexCount } := by
  have hl : st.buf.length ≠ 0 := fun h => hne (length_eq_zero_iff.mp h)
  unfold writeBatch addedBytes
  simp only [hs.id_eq, hs.compressed_eq, if_neg hl]
  by_cases hr : (m.active.compressed || m.encryptionKeys.isSome) = true
  · simp only [if_pos hr]
    refine ⟨_, modify_modify _ _ _ _, ?_, ?_⟩
    · intro file hf
      have ha : m.active.offset + frameHeaderSize =
          (file ++ writeFrameHeader (encodeFramePayload C m.active.compressed
            (m.encryptionKeys.map KeyRing.active) nonce st.buf).length st.buf.length).length := by
        simp [writeFrameHeader, frameHeaderSize, hf]
      rw [Function.comp_apply, ← hf, writeAt_end, hf, ha, writeAt_end, frameBytes, append_assoc]
    · rw [frameBytes_length, add_assoc]
  · simp only [if_neg hr]
    refine ⟨_, rfl, ?_, trivial⟩
    intro file hf
    rw [← hf, writeAt_end]

theorem writeBatch_spec (C : Crates) (nonce : Nonce) {d : Disk} {front back : List (ℕ × Bytes)}
    {data : Bytes} (hne : st.buf ≠ []) (hs : d.segments = front ++ (m.active.id, data) :: back)
    (ho : m.active.offset = data.length) (hsm : SameFile st.active m.active) :
    (writeBatch C m d nonce st).1 =
        { m with
          active := { st.active with
            offset := (data ++ addedBytes C m nonce st.buf).length }
          activeIndex := st.index
          activeIndexCount := st.indexCount } ∧
      (writeBatch C m d nonce st).2.segments =
        front ++ (m.active.id, data ++ addedBytes C m nonce st.buf) :: back ∧
      (writeBatch C m d nonce st).2.indexes = d.indexes := by
  obtain ⟨change, hd, hc, hm⟩ := writeBatch_modify (C := C) (d := d) nonce hne hsm
  refine ⟨?_, ?_, ?_⟩
  · rw [hm, ho, length_append]
  · rw [hd, modify_of_split hs, hc data ho.symm]
  · rw [hd]
    rfl

/-- The added bytes are what a body in the manager's layout needs to hold the new records too. -/
theorem storedBody_added (hC : C.Lawful) {header : SegmentHeader} {more : List ReadView}
    {body : Bytes} {nonce : Nonce} (h : StoredBody C header m.encryptionKeys views body)
    (hc : header.isCompressed = m.active.compressed)
    (he : header.isEncrypted = m.encryptionKeys.isSome) (hne : more ≠ [])
    (hf : FrameFits C m.active.compressed m.encryptionKeys nonce more) :
    StoredBody C header m.encryptionKeys (views ++ more)
      (body ++ m.addedBytes C nonce (batchBytes C more)) := by
  unfold addedBytes
  have hl : (header.isCompressed || header.isEncrypted) =
      (m.active.compressed || m.encryptionKeys.isSome) := by rw [hc, he]
  by_cases hfr : (m.active.compressed || m.encryptionKeys.isSome) = true
  · rw [if_pos hfr]
    obtain ⟨hr, hp⟩ := hf hfr
    apply h.append_frame (f := ⟨more, _⟩) (hl.trans hfr)
    rw [hc, he]
    exact {
      views_ne := hne
      payload_ne := encodeFramePayload_ne_nil hC _ _ _ _ (batchBytes_ne_nil C hne)
      payload_lt := hp
      raw_lt := hr
      decodes := decodeFramePayload_encodeFramePayload hC _ _ nonce _ }
  · rw [if_neg hfr]
    cases h with
    | raw _ hr =>
      rw [← batchBytes_append]
      exact .raw _ hr
    | framed frames hh _ => exact absurd (hl.symm.trans hh) hfr

section

variable {d : Disk} (nonce : Nonce) {first k : ℕ} {views : List ReadView} {st : BatchFill}
  {front back : List (ℕ × Bytes)} {data : Bytes}

theorem appendBatch_filled (hi : fill C m first views (.start m first) = .ok st)
    (hf : Filled C m first views (.start m first) st k) (hk : 0 < k)
    (hs : d.segments = front ++ (m.active.id, data) :: back) (ho : m.active.offset = data.length) :
    ∃ d' : Disk, d'.segments = front ++ (m.active.id,
        data ++ m.addedBytes C nonce (batchBytes C (views.take k))) :: back ∧
      d'.indexes = d.indexes ∧
      m.appendBatch C d nonce first views =
        let r := maybePrepareNext C
          { m with
            active := { st.active with
              offset := (data ++ m.addedBytes C nonce (batchBytes C (views.take k))).length }
            activeIndex := st.index
            activeIndexCount := st.indexCount } d' (first + k)
        (r.1.map fun _ => first + k, r.2.1, r.2.2) := by
  have hb : st.buf = batchBytes C (views.take k) := by
    rw [hf.buf_eq, nil_append]
  have hne : st.buf ≠ [] := by
    rw [hb]
    apply batchBytes_ne_nil
    intro hn
    have hl := congrArg length hn
    rw [length_take_of_le hf.le, length_nil] at hl
    omega
  obtain ⟨hm, hg, hx⟩ := writeBatch_spec C nonce hne hs ho hf.active_eq
  rw [hb] at hm hg
  refine ⟨(writeBatch C m d nonce st).2, hg, hx, ?_⟩
  unfold appendBatch
  simp only [hi, hm, hf.next_eq]

end

end SegmentManager

end LogDb.Storage
