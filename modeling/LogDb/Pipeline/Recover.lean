import LogDb.Recovery.Shard
import LogDb.Pipeline.LastSegment

/-!
Recovery of the directory that a run of a shard left: all headers are valid, the chain key is found
again, and everything then hangs on the scan of the last segment.
-/

namespace LogDb.Pipeline

open Lib Format Storage Recovery List ReadView SegmentHeader

variable {C : Crates} {cfg : ShardConfig} {st : ShardState} {log : Log}

/-- What header validation makes of a segment file. -/
def Validated (C : Crates) (f : ℕ × Bytes) (v : ValidSegment) : Prop :=
  v.id = f.1 ∧ v.file = f.2 ∧
    deserialize C (field 0 segmentHeaderSize f.2) = .ok v.header

theorem validateHeaders_of_files {segs : List LogSegment} {files : List (ℕ × Bytes)}
    (h : List.Forall₂ (SegmentFile C cfg) segs files) (hlt : ∀ s ∈ segs, s.id < 2 ^ 32) :
    ∃ vs, validateHeaders C files = (vs, []) ∧ List.Forall₂ (Validated C) files vs := by
  induction h with
  | nil => exact ⟨[], rfl, .nil⟩
  | @cons s f segs files hf _ ih =>
    obtain ⟨vs, hv, hvs⟩ := ih fun t ht => hlt t (mem_cons_of_mem s ht)
    obtain ⟨hid, minTs, maxTs, body, hfl, -⟩ := hf
    have hh := SegmentFile.deserialize hfl
    have hl : ¬ f.2.length < segmentHeaderSize := by
      rw [hfl, length_append, serialize_length]
      omega
    have hs : (s.header C cfg minTs maxTs).segmentId.toNat = f.1 := by
      rw [hid]
      exact UInt32.toNat_ofNat_of_lt' (hlt s mem_cons_self)
    refine ⟨⟨f.1, f.2, s.header C cfg minTs maxTs⟩ :: vs, ?_, .cons ⟨rfl, rfl, hh⟩ hvs⟩
    rw [validateHeaders, if_neg hl, hh]
    simp only
    rw [if_neg (not_not_intro hs), hv]

variable {seg : LogSegment} {f : ℕ × Bytes} {v : ValidSegment} {front : List LogSegment}

section

variable (h : Validated C f v) (hf : SegmentFile C cfg seg f)
include h hf

theorem Validated.header_eq : ∃ minTs maxTs body, v.header = seg.header C cfg minTs maxTs ∧
      v.file = (seg.header C cfg minTs maxTs).serialize C seg.prevHash ++ body ∧
      StoredBody C (seg.header C cfg minTs maxTs) cfg.encryptionKeys seg.records body := by
  obtain ⟨-, hl, hh⟩ := h
  obtain ⟨-, minTs, maxTs, body, hb, ho⟩ := hf
  rw [SegmentFile.deserialize hb] at hh
  exact ⟨minTs, maxTs, body, (Except.ok.inj hh).symm, hl.trans hb, ho⟩

/-- The chain key is found again: in plain text, or through the first record. -/
theorem Validated.chainKey_eq
    (hs : cfg.encryptionKeys = none ∨ cfg.hashEnabled = true ∧ ∃ w ws, seg.records = w :: ws ∧
      blake3KeyedChain C cfg.hashInit seg.prevHash w.content = w.hashN) :
    resolveChainKey C v.file v.header cfg.encryptionKeys = cfg.hashInit := by
  obtain ⟨minTs, maxTs, body, hh, hfl, hb⟩ := h.header_eq hf
  have hit : v.header.hashInit = cfg.headerHashInit C := by
    rw [hh]
    rfl
  unfold ShardConfig.headerHashInit at hit
  cases hk : cfg.encryptionKeys with
  | none =>
    rw [hk] at hit
    exact hit
  | some ring =>
    rcases hs with hn | ⟨ha, w, ws, hrc, hch⟩
    · rw [hk] at hn
      cases hn
    rw [hk] at hit
    simp only [ha, if_true] at hit
    have hl := serialize_length C (seg.header C cfg minTs maxTs) seg.prevHash
    have hfr := LogSegment.header_framed C cfg seg minTs maxTs
    rw [ShardConfig.framed, hk, Option.isSome_some, Bool.or_true] at hfr
    rw [hk, hrc] at hb
    have hr := decodeFirstRecord_stored hl hfr hb
    rw [← hfl, ← hh] at hr
    have hid : v.header.encryptionKeyId = ring.activeId := by
      rw [hh]
      show cfg.encryptionKeys.elim 0 KeyRing.activeId = _
      rw [hk]
      rfl
    -- the key that masked the chain key unmasks it again
    obtain ⟨rest, hc⟩ := candidateKeys_active hid
    have hcl : xor32 v.header.hashInit (deriveHashInit C ring.active) = cfg.hashInit := by
      rw [hit, xor32_cancel]
    unfold resolveChainKey
    simp only [hr, hc]
    rw [find?_cons_of_pos (by rw [hcl, hh]; exact beq_iff_eq.mpr hch)]
    exact hcl

end

section

variable (h : Refines C cfg st log) (he : LogShape C cfg log)
  (hd : log.segments = front ++ [seg])
include h he hd

/-- The outcome of recovery, given that of the scan. The chain key is right whenever there is a
record in the last segment to check against it. -/
theorem Refines.recoverShard_of_scan :
    ∃ f chainKey, SegmentFile C cfg seg f ∧ st.disk.get seg.id = some f.2 ∧
      (cfg.encryptionKeys = none ∨ front = [] ∧ cfg.hashEnabled = true ∧
        (∃ w ws, seg.records = w :: ws ∧
          blake3KeyedChain C cfg.hashInit seg.prevHash w.content = w.hashN) →
        chainKey = cfg.hashInit) ∧
      ∀ header r, deserialize C (field 0 segmentHeaderSize f.2) = .ok header → scanLastSegment C
          { cfg.scanArgs header with segmentId := UInt32.ofNat f.1, chainKey := chainKey } f.2 =
            .ok r →
        ∃ rs, recoverShard C st.disk cfg.shardBits cfg.segmentSize cfg.retention
            cfg.encryptionKeys = .ok (rs, st.disk.modify seg.id fun _ => r.file) ∧
          rs.recoveredCount = r.count ∧ rs.lastSequence = r.lastSequence ∧
          rs.warnings = r.warnings := by
  obtain ⟨fs, f, hsg, hb, hf⟩ := h.last_file hd
  obtain ⟨vs, hl, hvs⟩ := validateHeaders_of_files h.files fun s hs => he.id_lt hs
  rw [hsg] at hvs
  obtain ⟨us, ws, rfl, hu, hw⟩ := forall₂_append_inv hvs
  obtain ⟨v, _, hv, hn, rfl⟩ := forall₂_cons_left_iff.mp hw
  cases forall₂_nil_left_iff.mp hn
  obtain ⟨first, ht⟩ : ∃ first, (us ++ [v]).head? = some first := by
    cases us with
    | nil => exact ⟨v, rfl⟩
    | cons u us => exact ⟨u, rfl⟩
  obtain ⟨g, hg, hgt⟩ := exists_of_forall₂ hvs (mem_of_head? ht)
  rw [← hsg] at hg
  obtain ⟨s, -, hgs⟩ := exists_of_forall₂ h.files hg
  have hha : first.header.hashEnabled = cfg.hashEnabled := by
    obtain ⟨minTs, maxTs, -, hh, -⟩ := hgt.header_eq hgs
    rw [hh, LogSegment.header_hashEnabled]
  refine ⟨f, resolveChainKey C first.file first.header cfg.encryptionKeys, hf, ?_, ?_, ?_⟩
  · have hp : st.disk.segments = fs ++ (seg.id, f.2) :: [] := by
      rw [hsg, ← hf.1]
    exact Disk.get_of_split hp
  · rintro (hnn | ⟨rfl, hrt⟩)
    · exact hgt.chainKey_eq hgs (.inl hnn)
    · -- there is only one segment, so the first one is the last one
      cases forall₂_nil_left_iff.mp hb
      cases forall₂_nil_left_iff.mp hu
      cases ht
      exact hv.chainKey_eq hf (.inr hrt)
  · intro header r hh hc
    obtain ⟨hid, hfl, hr⟩ := hv
    rw [hh] at hr
    have ha : lastScanArgs C cfg.shardBits cfg.encryptionKeys first v =
        { cfg.scanArgs header with
          segmentId := UInt32.ofNat f.1
          chainKey := resolveChainKey C first.file first.header cfg.encryptionKeys } := by
      unfold lastScanArgs
      rw [hid, hha, ← Except.ok.inj hr]
      rfl
    have hne : st.disk.segments ≠ [] := by
      rw [hsg]
      exact append_ne_nil_of_right_ne_nil _ (cons_ne_nil _ _)
    unfold recoverShard
    rw [if_neg hne, hl]
    simp only [ht, getLast?_concat, ha, hfl, hc, continuityWarnings_eq_nil, ite_self,
      nil_append, append_nil]
    rw [hid, hf.1]
    exact ⟨_, rfl, rfl, rfl, rfl⟩

/-- Recovery leaves a directory alone whose last segment begins as its header says. -/
theorem Refines.recoverShard_clean (hi : ∀ expected, expected = none ∧ 0 < cfg.shardBits ∨
        expected = some seg.base ∧ ¬ 0 < cfg.shardBits →
      IdsFollow (idStride cfg.shardBits) expected (seg.records.map toRecord))
    (hch : cfg.hashEnabled = true → seg.records ≠ [] → front = [] ∧
      ChainFrom C cfg.hashInit seg.prevHash (seg.records.map toRecord)) :
    ∃ rs, recoverShard C st.disk cfg.shardBits cfg.segmentSize cfg.retention cfg.encryptionKeys =
        .ok (rs, st.disk) ∧
      rs.recoveredCount = seg.records.length ∧
      rs.lastSequence = seg.records.getLast?.elim (seg.base - 1) recordId ∧
      rs.warnings = [] := by
  obtain ⟨f, chainKey, hf, hg, hk, hr⟩ := h.recoverShard_of_scan he hd
  have hs : seg ∈ log.segments := by
    rw [hd]
    exact mem_append_right _ mem_cons_self
  have hc' : cfg.hashEnabled = true →
      ChainFrom C chainKey seg.prevHash (seg.records.map toRecord) := by
    intro ha
    cases hrc : seg.records with
    | nil => trivial
    | cons w ws =>
      obtain ⟨ht, hfs⟩ := hch ha (by
        rw [hrc]
        exact cons_ne_nil w ws)
      rw [hrc] at hfs
      rw [hk (.inr ⟨ht, ha, w, ws, hrc, hfs.1⟩)]
      exact hfs
  obtain ⟨minTs, maxTs, hh, hsc⟩ := hf.scan_clean
    (fun v hv => he.fits_of_mem (he.mem_published seg hs v hv)) hi (UInt32.ofNat f.1)
    hc'
  obtain ⟨rs, hrs, hc, hl, hw⟩ := hr _ _ hh hsc
  refine ⟨rs, ?_, hc, hl, hw⟩
  rw [hrs, Disk.modify_self hg]

end

end LogDb.Pipeline
