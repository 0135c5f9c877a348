import LogDb.Format.Crates
import LogDb.Recovery.Accept

/-!
Torn tails. Whatever bytes follow a run of stored records, the scan keeps those records.
-/

namespace LogDb.Recovery

open Lib Format List ReadView

/-- The views carry consecutive ids from `base` on; id arithmetic wraps. -/
def ConsecutiveIds (stride base : UInt64) (views : List ReadView) : Prop :=
  ∀ i v, views[i]? = some v → v.recordId = base + UInt64.ofNat i * stride

theorem ConsecutiveIds.follow {stride : UInt64} {views : List ReadView} {base : UInt64}
    (h : ConsecutiveIds stride base views) : IdsFollow stride (some base) (views.map toRecord) := by
  induction views generalizing base with
  | nil => trivial
  | cons v vs ih =>
    have hf : v.recordId = base := by simpa using h 0 v rfl
    refine ⟨Or.inr (by rw [← hf]; rfl), ?_⟩
    have hid : v.toRecord.id.sequence = base := hf
    rw [hid]
    refine ih fun i w hw => ?_
    have hn := h (i + 1) w (by simpa using hw)
    have hs : UInt64.ofNat (i + 1) = UInt64.ofNat i + 1 := by
      rw [UInt64.ofNat_add]
      rfl
    rw [hn, hs, UInt64.add_mul, UInt64.one_mul, UInt64.add_comm (UInt64.ofNat i * stride),
      UInt64.add_assoc]

private theorem keeps_of_cutAt {st r : ScanState} {front tail : Bytes} {n : ℕ} (h : CutAt st r)
    (hf : st.file = front ++ tail) (hv : st.lastValidOffset = front.length) (hc : n ≤ st.count) :
    n ≤ r.result.count ∧ front <+: r.result.file ∧ r.result.validOffset = r.result.file.length := by
  refine ⟨hc.trans h.count, ?_, h.length.symm⟩
  change front <+: r.file
  have hge := h.ge
  rw [hv] at hge
  rw [h.file, hf, take_append, take_of_length_le hge]
  exact prefix_append _ _

/-- With hashing disabled, every stored record survives the scan, whatever follows it. -/
theorem scanLastSegment_keeps_stored (C : Crates) (a : ScanArgs) (hdr body tail : Bytes)
    (views : List ReadView) (hhdr : hdr.length = segmentHeaderSize)
    (hhash : a.hashEnabled = false) (hfits : ∀ v ∈ views, v.Fits)
    (hids : ConsecutiveIds a.stride a.header.baseSequence views)
    (hbody : StoredBody C a.header a.encryptionKey views body) :
    ∃ r, scanLastSegment C a (hdr ++ body ++ tail) = .ok r ∧ views.length ≤ r.count ∧
      (hdr ++ body) <+: r.file ∧ r.validOffset = r.file.length := by
  rw [append_assoc, scanLastSegment_eq C a hdr (body ++ tail) hhdr]
  set st := a.initial (hdr ++ (body ++ tail)) with ht
  have ha : Accepts C a st (views.map toRecord) := by
    apply accepts_of_follow
    · refine hids.follow.of_some _ ?_
      unfold ScanState.expectation
      split_ifs
      · exact .inl rfl
      · exact .inr rfl
    · intro h
      rw [hhash] at h
      cases h
  obtain ⟨hfl, ho, -, -, hc⟩ := acceptAll_keeps a st (views.map toRecord)
  rw [length_map] at hc
  have hc' : views.length ≤ (st.acceptAll a (views.map toRecord)).count := by omega
  set st' := (st.acceptAll a (views.map toRecord)).advance body.length with hs'
  have hv' : st'.lastValidOffset = (hdr ++ body).length := by
    rw [length_append, hhdr]
    exact congrArg (· + body.length) ho
  have hf' : st'.file = (hdr ++ body) ++ tail := by
    rw [append_assoc]
    exact hfl
  have hg : ∀ cs tl, cs.flatten ++ tl = tail → Standing st' cs tl := by
    intro cs tl hs
    refine ⟨?_, le_rfl, fun _ _ => rfl⟩
    rw [hs, hf', length_append]
    exact congrArg (· + tail.length) hv'
  refine ⟨_, rfl, ?_⟩
  cases hbody with
  | raw _ hl =>
    have hs := recordFraming.split_append (isChunk_of_mem_map (C := C) hfits) tail
    rw [if_neg (by simp [hl]), batchBytes, hs, rawWalk_accepts _ _ views hfits st (fun _ => rfl) ha]
    exact keeps_of_cutAt (rawWalk_cutAt C a _ _ st' (hg _ _ (recordFraming.split_flatten _)))
      hf' hv' hc'
  | framed frames hl hf =>
    have hs := frameFraming.split_append (StoredFrame.isChunk_of_mem_frames hf) tail
    rw [if_pos hl, hs, frameWalk_accepts _ _ frames hf st rfl ha]
    exact keeps_of_cutAt
      (frameWalk_cutAt C a hhash _ _ st' (hg _ _ (frameFraming.split_flatten _)))
      hf' hv' hc'

/-- The arguments recovery passes for the first segment of a raw, unhashed, unsharded log. -/
def rawArgs : ScanArgs where
  segmentId := 1
  header := SegmentHeader.firstSegment zeros32 0 0 1 false hashAlgoBlake3
  hashEnabled := false
  chainKey := zeros32
  encryptionKey := none
  shardBits := 0

theorem scanLastSegment_keeps_stored_pair : ∃ r, scanLastSegment rawCrates rawArgs
        (rawArgs.header.serialize rawCrates zeros32 ++
          batchBytes rawCrates [⟨0, 7, [104, 105], zeros32⟩, ⟨1, 9, [], zeros32⟩] ++
          [62, 0, 0, 0, 2, 0]) = .ok r ∧
      2 ≤ r.count ∧
      (rawArgs.header.serialize rawCrates zeros32 ++
        batchBytes rawCrates [⟨0, 7, [104, 105], zeros32⟩, ⟨1, 9, [], zeros32⟩]) <+: r.file ∧
      r.validOffset = r.file.length := by
  refine scanLastSegment_keeps_stored rawCrates rawArgs _ _ _
    [⟨0, 7, [104, 105], zeros32⟩, ⟨1, 9, [], zeros32⟩] (by simp) rfl ?_ ?_ (.raw _ rfl)
  · simp [ReadView.Fits, recordSize]
  · rintro (_ | _ | i) v hv
    · cases hv
      rfl
    · cases hv
      rfl
    · cases hv

end LogDb.Recovery
