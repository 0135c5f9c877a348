import LogDb.Recovery.Accept
import LogDb.Pipeline.Committed

/-!
The recovery scan of a segment file of a shard. The published records follow each other in id and
hash, so a segment that begins where its header says is left alone.
-/

namespace LogDb.Pipeline

open Lib Format Recovery List ReadView

/-- The arguments that recovery scans a segment of the shard with. -/
def ShardConfig.scanArgs (cfg : ShardConfig) (header : SegmentHeader) : ScanArgs where
  segmentId := header.segmentId
  header := header
  hashEnabled := cfg.hashEnabled
  chainKey := cfg.hashInit
  encryptionKey := cfg.encryptionKeys
  shardBits := cfg.shardBits

section

variable {C : Crates} {cfg : ShardConfig} {log : Log}

namespace LogShape

theorem idsFollow (h : LogShape C cfg log) {i k : ℕ} (hi : i + k ≤ log.published.length) :
    IdsFollow (idStride cfg.shardBits) (some (cfg.recordId i))
      (((log.published.drop i).take k).map toRecord) := by
  apply idsFollow_encode h.fits
  · intro j v hv
    rw [getElem?_take] at hv
    split_ifs at hv with hj
    rw [getElem?_drop] at hv
    obtain ⟨hlt, rfl⟩ := List.getElem?_eq_some_iff.mp hv
    exact h.recordId_eq hlt
  · rw [length_take, length_drop]
    omega

theorem chainFrom (h : LogShape C cfg log) (ha : cfg.hashEnabled = true) {i k : ℕ}
    (hk : i + k ≤ log.published.length) :
    ChainFrom C cfg.hashInit (chainHash (log.published.take i))
      (((log.published.drop i).take k).map toRecord) := by
  induction k generalizing i with
  | zero =>
    rw [take_zero]
    trivial
  | succ k ih =>
    have hi : i < log.published.length := by omega
    rw [drop_eq_getElem_cons hi, take_succ_cons, map_cons]
    have hv := h.view_eq i hi
    have hh : log.published[i].hashN = blake3KeyedChain C cfg.hashInit
        (chainHash (log.published.take i)) log.published[i].content := by
      rw [hv]
      simp only [nextView, ha, if_true]
    have hn : chainHash (log.published.take (i + 1)) = log.published[i].hashN := by
      unfold chainHash
      rw [take_succ_eq_append_getElem hi, getLast?_concat]
      rfl
    refine ⟨hh.symm, ?_⟩
    rw [show log.published[i].toRecord.hashN = log.published[i].hashN from rfl, ← hn]
    exact ih (by omega)

end LogShape

/-- What the scan makes of a segment file whose records begin as the header says. -/
theorem SegmentFile.scan_clean {seg : LogSegment} {f : ℕ × Bytes} (hf : SegmentFile C cfg seg f)
    (ht : ∀ v ∈ seg.records, v.Fits)
    (hi : ∀ expected, expected = none ∧ 0 < cfg.shardBits ∨
        expected = some seg.base ∧ ¬ 0 < cfg.shardBits →
      IdsFollow (idStride cfg.shardBits) expected (seg.records.map toRecord))
    (segmentId : UInt32) {chainKey : Bytes32} (hc : cfg.hashEnabled = true →
      ChainFrom C chainKey seg.prevHash (seg.records.map toRecord)) :
    ∃ minTs maxTs, SegmentHeader.deserialize C (field 0 segmentHeaderSize f.2) =
        .ok (seg.header C cfg minTs maxTs) ∧
      scanLastSegment C
        { cfg.scanArgs (seg.header C cfg minTs maxTs) with
          segmentId := segmentId, chainKey := chainKey } f.2 = .ok
        { lastSequence := seg.records.getLast?.elim (seg.base - 1) recordId
          lastHash := seg.records.getLast?.elim zeros32 ReadView.hashN
          validOffset := f.2.length
          warnings := []
          count := seg.records.length
          file := f.2 } := by
  obtain ⟨-, minTs, maxTs, body, hfl, ho⟩ := hf
  have hl := SegmentHeader.serialize_length C (seg.header C cfg minTs maxTs) seg.prevHash
  refine ⟨minTs, maxTs, SegmentFile.deserialize hfl, ?_⟩
  rw [hfl]
  refine scanLastSegment_clean C _ hl ht ho ?_ hc
  apply hi
  unfold ScanState.expectation
  by_cases hb : 0 < cfg.shardBits
  · exact .inl ⟨if_pos ⟨rfl, hb⟩, hb⟩
  · exact .inr ⟨if_neg fun h => hb h.2, hb⟩

section

variable {st : ShardState} {front : List LogSegment} {seg : LogSegment} {v : ReadView}
  {vs : List ReadView}

/-- The file of the last segment of the log is the last file of the shard. -/
theorem Refines.last_file (h : Refines C cfg st log) (hl : log.segments = front ++ [seg]) :
    ∃ fs f, st.disk.segments = fs ++ [f] ∧ List.Forall₂ (SegmentFile C cfg) front fs ∧
      SegmentFile C cfg seg f := by
  have hfs := h.files
  rw [hl] at hfs
  obtain ⟨fs, gs, hs, hr, hls⟩ := forall₂_append_inv hfs
  obtain ⟨f, _, hf, hn, rfl⟩ := forall₂_cons_left_iff.mp hls
  cases forall₂_nil_left_iff.mp hn
  exact ⟨fs, f, hs, hr, hf⟩

/-- A raw last segment whose first record carries an unexpected id is cut back to its header. -/
theorem SegmentFile.scan_first_unexpected {f : ℕ × Bytes} (hf : SegmentFile C cfg seg f)
    (hr : cfg.framed = false) (hc : seg.records = v :: vs)
    (ht : ∀ w ∈ seg.records, w.Fits) (hb : cfg.shardBits = 0) (hid : v.recordId ≠ seg.base)
    (segmentId : UInt32) (chainKey : Bytes32) :
    ∃ minTs maxTs r, SegmentHeader.deserialize C (field 0 segmentHeaderSize f.2) =
        .ok (seg.header C cfg minTs maxTs) ∧
      scanLastSegment C
        { cfg.scanArgs (seg.header C cfg minTs maxTs) with
          segmentId := segmentId, chainKey := chainKey } f.2 = .ok r ∧
      r.file = (seg.header C cfg minTs maxTs).serialize C seg.prevHash ∧ r.count = 0 := by
  obtain ⟨minTs, maxTs, hfl⟩ := hf.eq_raw hr
  rw [hc] at hfl ht
  have hl := SegmentHeader.serialize_length C (seg.header C cfg minTs maxTs) seg.prevHash
  set a : ScanArgs := { cfg.scanArgs (seg.header C cfg minTs maxTs) with
    segmentId := segmentId, chainKey := chainKey }
  have hs := scanLastSegment_raw C a hl ht
    ((LogSegment.header_framed C cfg seg minTs maxTs).trans hr)
  have hid' : ∀ file, ¬ IdOk a (a.initial file) v.toRecord := by
    rintro file (heq | ⟨-, hp⟩)
    · exact hid heq
    · rw [show a.shardBits = 0 from hb] at hp
      exact absurd hp (UInt32.lt_irrefl _)
  rw [← hfl, rawWalk, deserializeRecord_storedRecord C (ht v mem_cons_self)] at hs
  simp only [if_neg (hid' _)] at hs
  refine ⟨minTs, maxTs, _, SegmentFile.deserialize hfl, hs, ?_, rfl⟩
  show setLen segmentHeaderSize f.2 = _
  rw [hfl, ← hl, setLen_of_le (by rw [length_append]; exact Nat.le_add_right _ _), take_left]

end

end

end LogDb.Pipeline
