import LogDb.Recovery.Boundary
import LogDb.Recovery.Single

/-!
Recovery of an encrypted segment with a key ring that may lack some of its keys: a frame that cannot
be decrypted is treated as a torn one.
-/

namespace LogDb.Recovery

open Lib Format Storage List ReadView StoredFrame

variable {C : Crates} {keys : Option KeyRing} {frames : List StoredFrame}

/-- A frame that was stored with some key ring. Another ring decodes it alike or not at all. -/
structure IntactFrame (C : Crates) (header : SegmentHeader) (keys : Option KeyRing)
    (f : StoredFrame) : Prop where
  stored : ∃ own, f.Valid C header.isCompressed header.isEncrypted own
  authentic : ∀ raw, decodeFramePayload C f.payload header.isCompressed header.isEncrypted keys =
    .ok raw → raw = f.raw C

theorem IntactFrame.isChunk {header : SegmentHeader} {f : StoredFrame}
    (h : IntactFrame C header keys f) : frameFraming.IsChunk (f.bytes C) := by
  obtain ⟨own, ho⟩ := h.stored
  exact isChunk_of_mem_frames (forall_mem_singleton.mpr ho) _ mem_cons_self

theorem intactRecords_stored {vs : List ReadView} (hf : ∀ v ∈ vs, v.Fits) :
    intactRecords C (vs.map (storedRecord C)) = vs.map toRecord := by
  induction vs with
  | nil => rfl
  | cons v vs ih =>
    rw [map_cons, intactRecords, deserializeRecord_storedRecord C (hf v mem_cons_self), map_cons,
      ih fun w hw => hf w (mem_cons_of_mem v hw)]

theorem frameWalk_keeps_iff {a : ScanArgs} {st : ScanState} {front : Bytes}
    (hr : ∀ f ∈ frames, IntactFrame C a.header a.encryptionKey f)
    (h : AtEnd st front (frames.map (bytes C)).flatten) :
    (frameWalk C a st (frames.map (bytes C)) []).file = st.file ↔
      (∀ f ∈ frames, f.Valid C a.header.isCompressed a.header.isEncrypted a.encryptionKey) ∧
        Accepts C a st ((frames.flatMap views).map toRecord) := by
  induction frames generalizing st front with
  | nil => simp [frameWalk, Accepts]
  | cons f fs ih =>
    have hf := hr f mem_cons_self
    have hp := hf.isChunk.length_pos
    have hc : ∀ st' : ScanState, st'.file = st.file →
        st'.lastValidOffset = st.lastValidOffset → ∀ n, (st'.torn a n).file ≠ st.file := by
      intro st' hfl hv n
      rw [(h.torn a st' hfl hv n).1, h.file]
      intro heq
      have hl := congrArg length heq
      simp only [map_cons, flatten_cons, length_append, length_nil] at hl
      omega
    rw [map_cons, frameWalk, forall_mem_cons, flatMap_cons, map_append, accepts_append]
    by_cases hv : f.Valid C a.header.isCompressed a.header.isEncrypted a.encryptionKey
    · obtain ⟨hkf, hko, hk⟩ := recordsWalk_frame C a (f.views.map (storedRecord C)) st
      rw [decodeFrame_bytes hv]
      by_cases ha : Accepts C a st (f.views.map toRecord)
      · rw [map_cons, flatten_cons] at h
        have hn := ih (fun g hg => hr g (mem_cons_of_mem f hg))
          (h.acceptAll (a := a) (f.views.map toRecord))
        rw [accepts_advance] at hn
        simp only [recordsWalk_accepts f.views hv.fits st ha, hv, ha, true_and, ← hn]
        exact Eq.congr_right (acceptAll_keeps a st _).1.symm
      · refine iff_of_false ?_ fun hb => ha hb.2.1
        dsimp only
        cases ho : recordsWalk C a st (f.views.map (storedRecord C)) with
        | intact st' =>
          have hi := (recordsWalk_intact ho).1
          rw [intactRecords_stored hv.fits] at hi
          exact absurd hi ha
        | rejected st' =>
          rw [ho] at hkf hk
          exact hc st' hkf hk st.offset
        | broken st' =>
          rw [ho] at hkf hko hk
          have hw := h.file
          rw [← append_nil (flatten _)] at hw
          exact (broken_misdescribes hw h.offset (h.valid.trans h.offset.symm) hf.isChunk
            hkf hko hk _ rfl).1
    · have hnn : decodeFrame C a (f.bytes C) = none := by
        rw [decodeFrame, bytes_drop]
        split
        · next raw hd =>
          obtain ⟨own, he⟩ := hf.stored
          exact absurd { he with decodes := hf.authentic raw hd ▸ hd } hv
        · rfl
      rw [hnn]
      exact iff_of_false (hc st rfl rfl st.offset) fun hb => hv hb.1.1

/-- Recovery leaves a last segment of intact encrypted frames as it is if and only if every frame
decodes with the key ring that is passed, and the records are accepted with the chain key that is
found with it. -/
theorem encryptedFile_kept_iff {d e : Disk} {bits : UInt32} {size : ℕ} {hdr : Bytes}
    {retention : RetentionPolicy} {r : RecoveryState} {first last : ValidSegment}
    (hrecover : recoverShard C d bits size retention keys = .ok (r, e))
    (hfirst : (validateHeaders C d.segments).1.head? = some first)
    (hlast : (validateHeaders C d.segments).1.getLast? = some last)
    (hencrypted : last.header.isEncrypted = true) (hhdr : hdr.length = segmentHeaderSize)
    (hfile : last.file = hdr ++ (frames.map (bytes C)).flatten)
    (hframes : ∀ f ∈ frames, IntactFrame C last.header keys f) :
    e.get last.id = some last.file ↔
      (∀ f ∈ frames, f.Valid C last.header.isCompressed last.header.isEncrypted keys) ∧
        Accepts C (lastScanArgs C bits keys first last)
          ((lastScanArgs C bits keys first last).initial last.file)
          ((frames.flatMap views).map toRecord) := by
  obtain ⟨first', last', scan, hf', hl', hs, -, -, -, -, -, -, -, rfl⟩ :=
    recoverShard_cases hrecover
  obtain rfl := Option.some.inj (hf'.symm.trans hfirst)
  obtain rfl := Option.some.inj (hl'.symm.trans hlast)
  have hg := Disk.get_of_mem (mem_of_validateHeaders (mem_of_getLast? hlast)).1
  have hc : ∀ c ∈ frames.map (bytes C), frameFraming.IsChunk c := by
    simpa using fun f hf => (hframes f hf).isChunk
  rw [hfile, scanLastSegment_eq C _ hdr _ hhdr, if_pos (by simp [lastScanArgs, hencrypted]),
    frameFraming.split_flatten_chunks hc] at hs
  cases hs
  rw [Disk.get_modify hg, Option.some.injEq, hfile]
  exact frameWalk_keeps_iff hframes ⟨rfl, hhdr.symm, hhdr.symm⟩

def sealedHeader : SegmentHeader :=
  { SegmentHeader.firstSegment zeros32 0 0 1 false 0 with flags := flagEncryptedAes256Gcm }

/-- A record in a frame that was encrypted with the key of zeros. -/
def sealedFrame : StoredFrame where
  views := [⟨0, 7, [104, 105], zeros32⟩]
  payload := encodeFramePayload rawCrates false (some zeros32) zeroNonce
    (batchBytes rawCrates [⟨0, 7, [104, 105], zeros32⟩])

def sealedFile : Bytes :=
  sealedHeader.serialize rawCrates zeros32 ++ ([sealedFrame].map (bytes rawCrates)).flatten

def sealedDirectory : Disk where
  segments := [(1, sealedFile)]
  sorted := pairwise_singleton _ _
  indexes _ := none

theorem sealedFrame_valid :
    ∀ f ∈ [sealedFrame], f.Valid rawCrates false true (some ⟨1, zeros32, []⟩) :=
  forall_mem_singleton.mpr ⟨cons_ne_nil _ _, by decide, by decide, by decide, by decide +kernel⟩

theorem encryptedFile_kept_keyed : ∃ r e,
    recoverShard rawCrates sealedDirectory 0 0 .keepAll (some ⟨1, zeros32, []⟩) = .ok (r, e) ∧
      e.get 1 = some sealedFile := by
  have hs : SingleSegment rawCrates (some ⟨1, zeros32, []⟩) sealedDirectory sealedHeader
      sealedFrame.views (sealedHeader.serialize rawCrates zeros32) _ :=
    ⟨rfl, SegmentHeader.serialize_length .., SegmentHeader.deserialize_serialize .., rfl,
      .framed [sealedFrame] rfl sealedFrame_valid, (sealedFrame_valid _ mem_cons_self).fits⟩
  have hh := congrArg Prod.fst hs.validateHeaders_eq
  have hr : recoverShard rawCrates sealedDirectory 0 0 .keepAll (some ⟨1, zeros32, []⟩) = _ :=
    hs.recoverShard_eq 0 .keepAll ⟨.inr rfl, trivial⟩ nofun
  refine ⟨_, _, hr, (encryptedFile_kept_iff hr (congrArg head? hh)
    (congrArg getLast? hh) rfl hs.length rfl fun f hf => ?_).mpr
    ⟨sealedFrame_valid, .inl rfl, nofun, trivial⟩⟩
  have hv := sealedFrame_valid f hf
  exact ⟨⟨_, hv⟩, fun raw ha => Except.ok.inj (ha.symm.trans hv.decodes)⟩

set_option maxRecDepth 20000 in
theorem encryptedFile_cut :
    (∀ f ∈ [sealedFrame], f.Valid rawCrates false true (some ⟨1, zeros32, []⟩)) ∧ ∃ r e,
    recoverShard rawCrates sealedDirectory 0 0 .keepAll none = .ok (r, e) ∧
      e.get 1 = some (sealedHeader.serialize rawCrates zeros32) := by
  have hc : okAnd (recoverShard rawCrates sealedDirectory 0 0 .keepAll none) (fun r =>
    r.2.get 1 = some (sealedHeader.serialize rawCrates zeros32)) = true := by decide +kernel
  obtain ⟨⟨r, e⟩, hr, hg⟩ := exists_of_okAnd hc
  exact ⟨sealedFrame_valid, r, e, hr, of_decide_eq_true hg⟩

end LogDb.Recovery
