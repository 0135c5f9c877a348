import LogDb.Pipeline.LastSegment

/-!
The hash chain across segments. New headers are stamped with a hash that the manager is never told,
so the chain only holds as long as records go to the first segment.
-/

namespace LogDb.Pipeline

open Lib Format Storage Recovery List ReadView Log

/-- Every segment with records announces the last hash before them. -/
def ChainLinked (C : Crates) (keys : Option KeyRing) (d : Disk) : Prop :=
  ∀ front f back, d.segments = front ++ f :: back → segmentRecords C keys f ≠ [] →
    ∃ header, SegmentHeader.deserialize C (field 0 segmentHeaderSize f.2) = .ok header ∧
      header.prevLastHash =
        (front.flatMap (segmentRecords C keys)).getLast?.elim zeros32 Record.hashN

/-- The scan of the last segment warns of nothing and leaves the file alone. -/
def LastScanClean (C : Crates) (cfg : ShardConfig) (d : Disk) : Prop :=
  ∀ front f header, d.segments = front ++ [f] →
    SegmentHeader.deserialize C (field 0 segmentHeaderSize f.2) = .ok header →
    ∃ r, scanLastSegment C (cfg.scanArgs header) f.2 = .ok r ∧ r.warnings = [] ∧ r.file = f.2

/-- Batches are committed while the first segment is active. -/
def ShardEvent.FirstActive (st : ShardState) : ShardEvent → Prop
  | commit _ _ _ _ => st.mgr.activeId = 1
  | _ => True

/-- Only the first segment holds records, and it holds all of them unless it was deleted. -/
structure FirstOnly (log : Log) : Prop where
  closed_nil : log.active.id = 1 → log.closed = []
  first : ∀ s ∈ log.segments, s.id = 1 →
    s.base = 0 ∧ s.records = log.published.take log.committed
  empty : ∀ s ∈ log.segments, s.id ≠ 1 → s.records = []

section

variable {C : Crates} {cfg : ShardConfig} {st : ShardState} {log log' : Log} {guard : Log → Prop}
  {keepAll : Prop}

theorem firstOnly_fresh : FirstOnly Log.fresh where
  closed_nil _ := rfl
  first s hs _ := by
    rw [mem_singleton.mp hs]
    exact ⟨rfl, rfl⟩
  empty s hs _ := by
    rw [mem_singleton.mp hs]
    rfl

theorem FirstOnly.step (h : FirstOnly log) (hshape : LogShape C cfg log)
    (hf : guard log → log.active.id = 1) (hsp : LogStep C cfg guard keepAll log log') :
    FirstOnly log' := by
  have ho := hshape.active_pos
  cases hsp with
  | publish timestampNs content _ _ =>
    constructor
    · exact h.closed_nil
    · intro s hs hid
      obtain ⟨hb, hr⟩ := h.first s hs hid
      refine ⟨hb, hr.trans ?_⟩
      rw [publish, take_append_of_le_length hshape.committed_le]
    · exact h.empty
  | append k _ hle hok =>
    have hg := hf hok
    have hl := h.closed_nil hg
    constructor
    · exact h.closed_nil
    · intro s hs hid
      rcases mem_segments.mp hs with hc | rfl | hp
      · rw [show (log.append k).closed = [] from hl] at hc
        exact absurd hc not_mem_nil
      · obtain ⟨hb, hr⟩ := h.first _ active_mem hg
        refine ⟨hb, ?_⟩
        show log.active.records ++ _ = log.published.take (log.committed + k)
        rw [hr, take_add]
      · have hn := (hshape.prepared_eq s hp).1
        omega
    · exact forall_append h.empty fun hid => absurd hg hid
  | prepare _ _ =>
    obtain ⟨hid', -, hr'⟩ := hshape.prepared_getD
    exact ⟨h.closed_nil, forall_prepare h.first (by omega), forall_prepare h.empty fun _ => hr'⟩
  | roll keep _ _ =>
    obtain ⟨hid', -, hr'⟩ := hshape.prepared_getD
    refine ⟨fun hid => ?_, forall_roll h.first (by omega), forall_roll h.empty fun _ => hr'⟩
    change (log.prepared.getD (log.nextSegment cfg)).id = 1 at hid
    omega

theorem FirstOnly.of_reachable (hf : ∀ l, guard l → l.active.id = 1)
    (h : LogReachable C cfg guard keepAll log) : FirstOnly log :=
  invariant_of_reached h firstOnly_fresh fun a _ hr ho hs =>
    ho.step (.of_reachable hr) (hf a) hs

theorem Refines.chainLinked (h : Refines C cfg st log) (hshape : LogShape C cfg log)
    (ht : FirstOnly log) : ChainLinked C cfg.encryptionKeys st.disk := by
  intro front f back hsg hne
  have hfs := h.files
  rw [hsg] at hfs
  obtain ⟨us, seg, vs, hl, hu, hf, -⟩ := forall₂_split_right hfs
  have hm : ∀ s ∈ us ++ seg :: vs, s ∈ log.segments := fun s hs => by rwa [hl]
  have he := hm seg (mem_append_right _ mem_cons_self)
  rw [hshape.segmentRecords_eq he hf] at hne
  have hid : seg.id = 1 := by
    by_contra hid
    rw [ht.empty seg he hid] at hne
    exact hne rfl
  have ho := st.disk.sorted
  rw [hsg] at ho
  -- no file can come before the first segment, so there is no record to announce
  have hr : front.flatMap (segmentRecords C cfg.encryptionKeys) = [] := by
    apply flatMap_eq_nil_iff.mpr
    intro g hg
    obtain ⟨s, hs, hge⟩ := exists_of_forall₂ hu hg
    have hlt := (pairwise_append.mp ho).2.2 g hg f mem_cons_self
    have hsm := hm s (mem_append_left _ hs)
    rw [hge.1, hf.1, hid] at hlt
    rw [hshape.segmentRecords_eq hsm hge, ht.empty s hsm (by omega)]
    rfl
  obtain ⟨-, minTs, maxTs, body, hfl, -⟩ := hf
  refine ⟨_, SegmentFile.deserialize hfl, ?_⟩
  rw [hr]
  exact hshape.zero_hash seg he

/-- What a segment must meet to be left alone by the scan: it is empty, or it begins with the first
record of all. -/
theorem FirstOnly.scan_ready (h : FirstOnly log) (hshape : LogShape C cfg log) {seg : LogSegment}
    (hs : seg ∈ log.segments) :
    (∀ expected, expected = none ∧ 0 < cfg.shardBits ∨
        expected = some seg.base ∧ ¬ 0 < cfg.shardBits →
      IdsFollow (idStride cfg.shardBits) expected (seg.records.map toRecord)) ∧
    (cfg.hashEnabled = true →
      ChainFrom C cfg.hashInit seg.prevHash (seg.records.map toRecord)) := by
  by_cases hid : seg.id = 1
  · obtain ⟨hb, hr⟩ := h.first seg hs hid
    have hle : 0 + log.committed ≤ log.published.length := by
      rw [zero_add]
      exact hshape.committed_le
    have hi := hshape.idsFollow hle
    rw [drop_zero, ← hr] at hi
    constructor
    · intro expected he
      apply hi.of_some
      rcases he with ⟨hn, -⟩ | ⟨hse, ht⟩
      · exact .inl hn
      · right
        have hz : cfg.shardBits = 0 := by
          by_contra hne
          exact ht (UInt32.pos_iff_ne_zero.mpr hne)
        rw [hse, hb, ShardConfig.recordId, encodeRecordId, if_pos hz]
        rfl
    · intro hh
      have hc := hshape.chainFrom hh hle
      rw [drop_zero, ← hr] at hc
      rw [hshape.zero_hash seg hs]
      exact hc
  · rw [h.empty seg hs hid]
    exact ⟨fun _ _ => trivial, fun _ => trivial⟩

theorem Refines.lastScanClean (h : Refines C cfg st log) (hshape : LogShape C cfg log)
    (ht : FirstOnly log) : LastScanClean C cfg st.disk := by
  intro front f header hg hh
  obtain ⟨seg, hs, hf⟩ := exists_of_forall₂ h.files
    (show f ∈ st.disk.segments by
      rw [hg]
      exact mem_append_right _ mem_cons_self)
  obtain ⟨hi, hc⟩ := ht.scan_ready hshape hs
  obtain ⟨minTs, maxTs, hh', hsc⟩ := hf.scan_clean
    (fun v hv => hshape.fits_of_mem (hshape.mem_published seg hs v hv)) hi header.segmentId hc
  rw [hh'] at hh
  cases hh
  exact ⟨_, hsc, rfl, rfl⟩

end

/-- In every run that commits to the first segment only, the chain is linked and the scan of the
last segment is clean. -/
theorem chainLinked_of_reachable {C : Crates} (hC : C.Lawful) {cfg : ShardConfig} {st : ShardState}
    (h : ShardReachable C cfg
      (fun st ev => ev.Bounded cfg st ∧ ev.FramesFit C cfg st ∧ ev.FirstActive st) st) :
    ChainLinked C cfg.encryptionKeys st.disk ∧ LastScanClean C cfg st.disk := by
  obtain ⟨log, hr, hh⟩ :=
    refines_of_reachable (fun l => l.active.id = 1) False hC (fun _ _ hok => ⟨hok.1, hok.2.1⟩)
      (fun _ _ hs _ _ _ _ _ hok _ => hs.activeId_eq.symm.trans hok.2.2) (fun hk => hk.elim) h
  have hshape := LogShape.of_reachable hh
  have hf := FirstOnly.of_reachable (fun _ hid => hid) hh
  exact ⟨hr.chainLinked hshape hf, hr.lastScanClean hshape hf⟩

def hashShard : ShardConfig :=
  { rawShard with hashEnabled := true }

theorem chainLinked_of_one_record : ∃ st : ShardState, st.committed = 1 ∧
      ChainLinked rawCrates hashShard.encryptionKeys st.disk ∧
      LastScanClean rawCrates hashShard st.disk := by
  have hp : Follows rawCrates hashShard
      (fun st ev => ev.Bounded hashShard st ∧ ev.FramesFit rawCrates hashShard st ∧
        ev.FirstActive st) (fresh.publish hashShard rawCrates 7 [104, 105]) := by
    apply (Follows.fresh _ _ _).publish 7 [104, 105] (by decide) (by decide)
    intro st hs
    exact ⟨(hs.publish_inLimits 7 [104, 105] (by decide)).1, trivial, trivial⟩
  have hc := hp.commit rawCrates_lawful rfl zeroNonce 0 quietEnv one_pos
    (by decide : 0 + 1 ≤ 1) (by decide : 1 + 1 < 2 ^ 32) (by
      show fileLength _ [_] ≤ _
      rw [fileLength_singleton]
      decide) (by
      intro st hs
      obtain ⟨hb, -, hf⟩ := hs.commit_inLimits ⟨rfl, rfl⟩ (by decide : 1 + 1 < 2 ^ 32) 1
      exact ⟨hb, hf, hs.activeId_eq⟩)
  obtain ⟨-, st, hr, hs⟩ := hc
  refine ⟨st, ?_, chainLinked_of_reachable rawCrates_lawful hr⟩
  rw [hs.committed_eq, committedLog_committed]
  rfl

section TwoSegments

variable {C : Crates} {cfg : ShardConfig} {st : ShardState} {log : Log} {front : List LogSegment}
  {seg : LogSegment} {v : ReadView}

section

variable (h : Refines C cfg st log) (hshape : LogShape C cfg log)
include h hshape

/-- A segment after the first record breaks the link, unless the hash before it is all zeros. -/
theorem Refines.not_chainLinked (hl : log.segments = front ++ [seg]) (hne : seg.records ≠ [])
    (hls : (front.flatMap LogSegment.records).getLast? = some v) (hv : v.hashN ≠ zeros32) :
    ¬ ChainLinked C cfg.encryptionKeys st.disk := by
  intro hd
  obtain ⟨fs, f, hsg, ht, hf⟩ := h.last_file hl
  have hm : ∀ s ∈ front ++ [seg], s ∈ log.segments := fun s hs => by rwa [hl]
  have he := hm seg (mem_append_right _ mem_cons_self)
  have hr : segmentRecords C cfg.encryptionKeys f ≠ [] := by
    rw [hshape.segmentRecords_eq he hf]
    exact fun hn => hne (map_eq_nil_iff.mp hn)
  obtain ⟨header, hh, hp⟩ := hd fs f [] hsg hr
  have hb : fs.flatMap (segmentRecords C cfg.encryptionKeys) =
      (front.flatMap LogSegment.records).map toRecord := by
    rw [map_flatMap]
    apply flatMap_eq_of_forall₂ ht
    intro s hs g hg
    exact hshape.segmentRecords_eq (hm s (mem_append_left _ hs)) hg
  obtain ⟨-, minTs, maxTs, body, hfl, -⟩ := hf
  rw [SegmentFile.deserialize hfl] at hh
  cases hh
  rw [hb, getLast?_map, hls] at hp
  exact hv (hp.symm.trans (hshape.zero_hash seg he))

theorem Refines.not_lastScanClean (hr : cfg.framed = false) (ha : cfg.hashEnabled = true)
    (hl : log.segments = front ++ [seg]) {vs : List ReadView} (hrc : seg.records = v :: vs)
    (hid : v.recordId = seg.base)
    (hh : blake3KeyedChain C cfg.hashInit seg.prevHash v.content ≠ v.hashN) :
    ¬ LastScanClean C cfg st.disk := by
  intro hn
  obtain ⟨fs, f, hg, -, hf⟩ := h.last_file hl
  have hs : seg ∈ log.segments := by
    rw [hl]
    exact mem_append_right _ mem_cons_self
  have ht : ∀ w ∈ seg.records, w.Fits :=
    fun w hw => hshape.fits_of_mem (hshape.mem_published seg hs w hw)
  obtain ⟨minTs, maxTs, hfl⟩ := hf.eq_raw hr
  rw [hrc] at hfl ht
  have hc := scanLastSegment_raw C (cfg.scanArgs (seg.header C cfg minTs maxTs))
    (SegmentHeader.serialize_length C (seg.header C cfg minTs maxTs) seg.prevHash) ht
    ((LogSegment.header_framed C cfg seg minTs maxTs).trans hr)
  rw [rawWalk, deserializeRecord_storedRecord C (ht v mem_cons_self)] at hc
  obtain ⟨r', hs', hw', -⟩ := hn fs f _ hg (SegmentFile.deserialize hfl)
  rw [hfl, hc] at hs'
  cases hs'
  simp only at hw'
  split_ifs at hw' with hok hct
  · exact hh (hct ha)
  · exact append_ne_nil_of_right_ne_nil _ (cons_ne_nil _ _) hw'
  · exact hok (.inl hid)

end

/-- A hash that shows in its first byte that something was hashed, and what the hash before was. -/
def linkHash (data : Bytes) : Bytes32 :=
  copy32 (1 :: data)

theorem linkHash_val (prev : Bytes32) (content : Bytes) :
    (linkHash (prev.1 ++ content)).1 = 1 :: prev.1.take 31 := by
  have hl : 32 ≤ (1 :: (prev.1 ++ content)).length := by
    rw [length_cons, length_append, prev.2]
    omega
  show setLen 32 (1 :: (prev.1 ++ content)) = _
  rw [setLen_of_le hl, take_succ_cons, take_append_of_le_length (by rw [prev.2]; decide)]

def linkCrates : Crates :=
  { rawCrates with blake3KeyedHash := fun _ data => linkHash data }

theorem linkCrates_lawful : linkCrates.Lawful where
  zstd_inverse _ := rfl
  zstd_ne_nil _ := cons_ne_nil _ _
  aes_inverse _ _ _ := rfl

/-- The second of two segments announces zeros, though a record comes before it, and recovery cuts
it back to its header. -/
theorem chain_broken_by_roll :
    ∃ st, ShardReachable linkCrates hashShard (ShardEvent.InLimits linkCrates hashShard) st ∧
      ¬ ChainLinked linkCrates hashShard.encryptionKeys st.disk ∧
      ¬ LastScanClean linkCrates hashShard st.disk := by
  have hl := mediumRecord_length
  obtain ⟨hshape, st, hr, hs⟩ := follows_twoSegments linkCrates_lawful
    ⟨rfl, rfl⟩ (admits_inLimits ⟨rfl, rfl⟩) (Follows.fresh _ hashShard _)
    (by rw [hl]; decide : mediumRecord.length ≤ hashShard.maxContentSize) (fun _ _ => trivial)
    (by rw [hl]; decide) (by rw [hl]; decide)
  set v := nextView linkCrates hashShard [] 0 mediumRecord
  set w := nextView linkCrates hashShard [v] 0 mediumRecord
  have hv : v.hashN.1 = 1 :: zeros32.1.take 31 := linkHash_val zeros32 mediumRecord
  have hw : w.hashN.1 = 1 :: v.hashN.1.take 31 := linkHash_val v.hashN mediumRecord
  have ho : (twoSegments linkCrates hashShard mediumRecord).segments =
      [⟨1, 0, zeros32, [v]⟩] ++ [⟨2, 1, zeros32, [w]⟩] := rfl
  refine ⟨st, hr, ?_, ?_⟩
  · apply hs.not_chainLinked hshape ho (cons_ne_nil _ _) (v := v) rfl
    intro hz
    rw [hz] at hv
    exact absurd hv (by decide)
  · apply hs.not_lastScanClean hshape rfl rfl ho (rfl : [w] = w :: []) rfl
    intro heq
    have hb := (congrArg Subtype.val heq).symm.trans (linkHash_val zeros32 mediumRecord)
    rw [hw, hv] at hb
    exact absurd hb (by decide)

end TwoSegments

end LogDb.Pipeline
