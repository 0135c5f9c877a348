import LogDb.Reader.Stored
import LogDb.Pipeline.Order
import LogDb.Pipeline.Follow

/-!
What the segment files of a shard hold, read back with the record iterator, is what was published
and committed.
-/

namespace LogDb.Pipeline

open Lib Format Storage Reader List SegmentManager ReadView SegmentHeader

def segmentRecords (C : Crates) (keys : Option KeyRing) (file : ℕ × Bytes) : List Record :=
  match deserialize C (field 0 segmentHeaderSize file.2) with
  | .error _ => []
  | .ok header =>
    recordIter C
      { startOffset := segmentHeaderSize
        fileSize := file.2.length
        fromId := 0
        endId := 0xFFFFFFFFFFFFFFFF
        isCompressed := header.isCompressed
        isEncrypted := header.isEncrypted
        key := keys } file.2

/-- The records of all segment files in the order of their ids. -/
def diskRecords (C : Crates) (keys : Option KeyRing) (d : Disk) : List Record :=
  d.segments.flatMap (segmentRecords C keys)

section

variable {C : Crates} {cfg : ShardConfig} {st : ShardState} {log : Log}
  {seg : LogSegment} {f : ℕ × Bytes}

theorem SegmentFile.deserialize {minTs maxTs : UInt64} {body : Bytes}
    (hf : f.2 = (seg.header C cfg minTs maxTs).serialize C seg.prevHash ++ body) :
    deserialize C (field 0 segmentHeaderSize f.2) = .ok (seg.header C cfg minTs maxTs) := by
  have hl := serialize_length C (seg.header C cfg minTs maxTs) seg.prevHash
  rw [hf, field_zero, take_left' hl, deserialize_serialize]
  rfl

theorem SegmentFile.eq_raw (hf : SegmentFile C cfg seg f) (hr : cfg.framed = false) : ∃ minTs maxTs,
      f.2 = (seg.header C cfg minTs maxTs).serialize C seg.prevHash ++ batchBytes C seg.records := by
  obtain ⟨-, minTs, maxTs, body, hl, hb⟩ := hf
  refine ⟨minTs, maxTs, ?_⟩
  rw [hl, hb.eq_batchBytes ((LogSegment.header_framed C cfg seg minTs maxTs).trans hr)]

theorem segmentRecords_of_file (hf : SegmentFile C cfg seg f) (ht : ∀ v ∈ seg.records, v.Fits)
    (hi : ∀ v ∈ seg.records, v.recordId < 0xFFFFFFFFFFFFFFFF) :
    segmentRecords C cfg.encryptionKeys f = seg.records.map toRecord := by
  obtain ⟨-, minTs, maxTs, body, hfl, hb⟩ := hf
  have hl := serialize_length C (seg.header C cfg minTs maxTs) seg.prevHash
  unfold segmentRecords
  rw [SegmentFile.deserialize hfl]
  simp only [hfl]
  rw [recordIter_stored hl.symm rfl rfl ht hb rfl]
  apply selectRange_all
  intro r hr
  obtain ⟨v, hv, rfl⟩ := mem_map.mp hr
  exact hi v hv

namespace LogShape

theorem fits_of_mem (h : LogShape C cfg log) {v : ReadView} (hv : v ∈ log.published) : v.Fits := by
  have hl := h.content_le v hv
  have hx := cfg.maxContentSize_le
  unfold ReadView.Fits
  rw [recordSize_eq]
  omega

theorem recordId_lt_of_mem (h : LogShape C cfg log) {v : ReadView} (hv : v ∈ log.published) :
    v.recordId < 0xFFFFFFFFFFFFFFFF := by
  obtain ⟨i, hi, rfl⟩ := getElem_of_mem hv
  rw [h.recordId_eq hi]
  exact h.recordId_lt_max hi.le

end LogShape

theorem LogShape.segmentRecords_eq (h : LogShape C cfg log) (hs : seg ∈ log.segments)
    (hf : SegmentFile C cfg seg f) :
    segmentRecords C cfg.encryptionKeys f = seg.records.map toRecord := by
  apply segmentRecords_of_file hf
  · intro v hv
    exact h.fits_of_mem (h.mem_published seg hs v hv)
  · intro v hv
    exact h.recordId_lt_of_mem (h.mem_published seg hs v hv)

/-- Read back, the files of a shard hold the records of its log. -/
theorem Refines.diskRecords_eq (h : Refines C cfg st log) (hs : LogShape C cfg log) :
    diskRecords C cfg.encryptionKeys st.disk = log.records.map toRecord := by
  unfold diskRecords Log.records
  rw [map_flatMap]
  apply flatMap_eq_of_forall₂ h.files
  intro seg he f hf
  exact hs.segmentRecords_eq he hf

end

/-- In every run in which the counters stay in range, nothing is deleted and every frame fits its
length fields, the files hold exactly the committed records, in order. -/
theorem diskRecords_of_reachable {C : Crates} (hC : C.Lawful) {cfg : ShardConfig} {st : ShardState}
    (h : ShardReachable C cfg (ShardEvent.InLimits C cfg) st) :
    st.committed ≤ st.published.length ∧
      diskRecords C cfg.encryptionKeys st.disk =
        (st.published.take st.committed).map toRecord := by
  obtain ⟨log, hr, hh⟩ :=
    refines_of_reachable (fun _ => True) True hC (fun _ _ hok => ⟨hok.1, hok.2.2⟩)
      (fun _ _ _ _ _ _ _ _ _ _ => trivial) (fun _ _ _ hok => hok.2.1) h
  have hs := LogShape.of_reachable hh
  rw [hr.committed_eq, hr.published_eq]
  refine ⟨hs.committed_le, ?_⟩
  rw [hr.diskRecords_eq hs, Log.records_of_reachable hh]

/-- A raw single shard with the smallest segments. -/
def rawShard : ShardConfig where
  shardId := 0
  shardBits := 0
  segmentSize := 1024 * 1024
  maxContentSize := 1024 * 1024
  indexStride := 1024
  hashEnabled := false
  compressed := false
  encryptionKeys := none
  retention := .keepAll
  hashInit := zeros32
  bits_le := by decide
  shard_lt := by decide
  segmentSize_ge := le_rfl
  segmentSize_lt := by decide
  maxContentSize_le := by decide
  indexStride_ne := by decide

def oneRecord : Log :=
  Log.fresh.publish rawShard rawCrates 7 [104, 105]

theorem diskRecords_of_one_record : ∃ st : ShardState, st.committed = 1 ∧
      diskRecords rawCrates rawShard.encryptionKeys st.disk =
        [⟨⟨0, 0⟩, 7, [104, 105], zeros32⟩] := by
  have hp : Follows rawCrates rawShard (ShardEvent.InLimits rawCrates rawShard) oneRecord :=
    (Follows.fresh _ _ _).publish 7 [104, 105] (by decide) (by decide)
      fun st hs => hs.publish_inLimits 7 [104, 105] (by decide)
  have hc := hp.commit rawCrates_lawful rfl zeroNonce 0 quietEnv one_pos
    (by decide) (by decide) (by decide)
      fun st hs => hs.commit_inLimits ⟨rfl, rfl⟩ (by decide) 1
  obtain ⟨-, st, hr, hs⟩ := hc
  obtain ⟨-, hrc⟩ := diskRecords_of_reachable rawCrates_lawful hr
  have he : st.committed = 1 := hs.committed_eq
  have hq : st.published = oneRecord.published := hs.published_eq
  refine ⟨st, he, ?_⟩
  rw [hrc, he, hq]
  decide

section LargeFrame

/-- A compressed single shard with segments of 8 GiB. -/
def largeShard : ShardConfig where
  shardId := 0
  shardBits := 0
  segmentSize := 2 ^ 33
  maxContentSize := 64 * 1024 * 1024
  indexStride := 1024
  hashEnabled := false
  compressed := true
  encryptionKeys := none
  retention := .keepAll
  hashInit := zeros32
  bits_le := by decide
  shard_lt := by decide
  segmentSize_ge := by decide
  segmentSize_lt := by decide
  maxContentSize_le := le_rfl
  indexStride_ne := by decide

@[irreducible] def largeContent : Bytes :=
  List.replicate (64 * 1024 * 1024) 0

theorem largeContent_length : largeContent.length = 64 * 1024 * 1024 := by
  unfold largeContent
  exact length_replicate

def largeView (i : ℕ) : ReadView :=
  ⟨largeShard.recordId i, 0, largeContent, zeros32⟩

def largeViews (n : ℕ) : List ReadView :=
  (List.range n).map largeView

theorem largeViews_succ (n : ℕ) : largeViews (n + 1) = largeViews n ++ [largeView n] := by
  unfold largeViews
  rw [range_succ, map_append, map_singleton]

@[irreducible] def largeBatch : Bytes :=
  batchBytes rawCrates (largeViews 64)

theorem batchBytes_largeViews_length (C : Crates) (n : ℕ) :
    (batchBytes C (largeViews n)).length = n * 67108924 := by
  induction n with
  | zero => rfl
  | succ n ih =>
    have hs : recordSize (largeView n).content.length = 67108924 := by
      rw [recordSize_eq, show (largeView n).content = largeContent from rfl, largeContent_length]
    rw [largeViews_succ, batchBytes_append, length_append, ih, batchBytes_cons, batchBytes_nil,
      append_nil, storedRecord_length, hs, add_mul, one_mul]

theorem largeBatch_length : largeBatch.length = 64 * 67108924 := by
  unfold largeBatch
  exact batchBytes_largeViews_length _ _

def pack (bs : Bytes) : Bytes :=
  if bs = largeBatch then [1] else 0 :: bs

theorem pack_largeBatch : pack largeBatch = [1] := by
  unfold pack
  exact if_pos rfl

/-- Crates whose compressor packs the batch into one byte. -/
def packingCrates : Crates :=
  { rawCrates with
    zstdEncodeAll := pack
    zstdDecodeAll := fun bs =>
      match bs with
      | [] => .error "empty stream"
      | b :: rest => if b = 1 then .ok largeBatch else .ok rest }

theorem batchBytes_packingCrates (views : List ReadView) :
    batchBytes packingCrates views = batchBytes rawCrates views := rfl

theorem packingCrates_lawful : packingCrates.Lawful where
  zstd_inverse bs := by
    show packingCrates.zstdDecodeAll (pack bs) = .ok bs
    unfold pack
    split_ifs with hb
    · rw [hb]
      rfl
    · rfl
  zstd_ne_nil bs := by
    show pack bs ≠ []
    unfold pack
    split_ifs <;> exact cons_ne_nil _ _
  aes_inverse _ _ _ := rfl

def largeLog : ℕ → Log
  | 0 => Log.fresh
  | n + 1 => (largeLog n).publish largeShard packingCrates 0 largeContent

theorem largeLog_published (n : ℕ) : (largeLog n).published = largeViews n := by
  induction n with
  | zero => rfl
  | succ n ih =>
    have hl : (largeViews n).length = n := by simp [largeViews]
    show (largeLog n).published ++ [_] = _
    rw [ih, largeViews_succ]
    unfold nextView
    rw [hl]
    rfl

theorem largeLog_segments (n : ℕ) :
    (largeLog n).active = Log.fresh.active ∧ (largeLog n).prepared = none ∧
      (largeLog n).closed = [] ∧ (largeLog n).committed = 0 := by
  induction n with
  | zero => exact ⟨rfl, rfl, rfl, rfl⟩
  | succ n ih => exact ih

theorem follows_largeLog (n : ℕ) (hn : n ≤ 64) :
    Follows packingCrates largeShard (fun st ev => ev.Bounded largeShard st ∧
      ev.KeepsAll largeShard) (largeLog n) := by
  induction n with
  | zero => exact Follows.fresh _ _ _
  | succ n ih =>
    have hl : (largeLog n).published.length = n := by simp [largeLog_published, largeViews]
    have hb : ((largeLog n).published.length + 2) * 2 ^ largeShard.shardBits.toNat < 2 ^ 64 := by
      rw [hl]
      show (n + 2) * 1 < 2 ^ 64
      omega
    refine (ih (by omega)).publish 0 largeContent largeContent_length.le hb ?_
    intro st hs
    refine ⟨?_, trivial⟩
    show (st.published.length + 2) * _ < _
    rwa [hs.published_eq]

/-- The first record of the batch does not fit the length that the frame header can hold. -/
theorem recordIter_largeFrame {a : IterArgs} {hr : Bytes} (ha : a.startOffset = hr.length)
    (hc : a.isCompressed = true) (he : a.isEncrypted = false)
    (hs : a.fileSize = (hr ++ frameBytes [1] (64 * 67108924)).length) :
    recordIter packingCrates a (hr ++ frameBytes [1] (64 * 67108924)) = [] := by
  set file := hr ++ frameBytes [1] (64 * 67108924) with hfl
  have hd : decodeFramePayload packingCrates [1] a.isCompressed a.isEncrypted a.key =
      .ok largeBatch := by
    rw [hc, he]
    rfl
  have hf' : file = hr ++ (frameBytes [1] (64 * 67108924) ++ []) := by rw [append_nil]
  have hm : 64 * 67108924 % 2 ^ 32 = 3840 := by decide
  have hm' : 64 * 67108924 % 2 ^ 32 ≠ 0 := by decide
  have hl := loadNextFrame_frameBytes (cons_ne_nil _ _) (by decide) hm' hd hf' hs
  rw [largeBatch_length, ← hfl, hm, min_eq_left (by decide)] at hl
  have hfr : frameIterStep packingCrates a largeBatch 3840 (0, []) = .inr ([], false) := by
    have ht : leVal (field 0 4 largeBatch) = 67108924 := by
      have hft : (largeView 0).Fits := by
        unfold ReadView.Fits
        rw [recordSize_eq, show (largeView 0).content = largeContent from rfl, largeContent_length]
        decide
      have hb : largeBatch = [] ++ (storedRecord rawCrates (largeView 0) ++
          batchBytes rawCrates (((range 63).map Nat.succ).map largeView)) := by
        unfold largeBatch largeViews
        rw [range_succ_eq_map, map_cons, batchBytes_cons, nil_append]
      rw [hb]
      refine (leVal_field_storedRecord rawCrates hft [] _).trans ?_
      rw [recordSize_eq, show (largeView 0).content = largeContent from rfl, largeContent_length]
    unfold frameIterStep
    simp only [ht, largeBatch_length]
    rw [if_neg (by decide), if_pos (by decide)]
  have hf : framesIterStep packingCrates a file (hr.length, []) = .inl (file.length, []) := by
    unfold framesIterStep
    simp only [hl]
    rw [(frameIterLoop packingCrates a largeBatch 3840).run_of_inr hfr]
    rfl
  have hls : framesIterStep packingCrates a file (file.length, []) = .inr [] := by
    unfold framesIterStep loadNextFrame
    rw [if_pos (by rw [hs]; exact Nat.lt_add_of_pos_right (by decide))]
  unfold recordIter
  rw [hc, ha, Bool.true_or, if_pos rfl, (framesIterLoop packingCrates a file).run_of_inl hf,
    (framesIterLoop packingCrates a file).run_of_inr hls]

theorem commitBatch_large {st : ShardState}
    (ht : Refines packingCrates largeShard st (largeLog 64)) :
    (st.commitBatch packingCrates largeShard 64 zeroNonce 0 quietEnv).committed = 64 ∧
      diskRecords packingCrates none
        (st.commitBatch packingCrates largeShard 64 zeroNonce 0 quietEnv).disk = [] := by
  obtain ⟨ha, hpr, hcl, hc⟩ := largeLog_segments 64
  obtain ⟨front, back, minTs, maxTs, body, hs⟩ := ht.split
  have hf : front = [] := by
    have h := hs.closed
    rw [hcl] at h
    cases h
    rfl
  have hbk : back = [] := by
    have h := hs.prepared
    rw [hpr] at h
    cases h
    rfl
  have hbo : body = [] := hs.stored.eq_nil (by rw [ha]; rfl)
  subst hf hbk hbo
  have hg := hs.split
  have ho := hs.offset
  rw [append_nil] at hg ho
  set hdr := ((largeLog 64).active.header packingCrates largeShard minTs maxTs).serialize
    packingCrates (largeLog 64).active.prevHash with hh
  have hd : hdr.length = segmentHeaderSize := serialize_length _ _ _
  have hb : st.batch 64 = largeViews 64 := by
    unfold ShardState.batch
    rw [ht.published_eq, ht.committed_eq, hc, largeLog_published, drop_zero,
      take_of_length_le (by simp [largeViews])]
  have hl : (batchBytes packingCrates (st.batch 64)).length = 64 * 67108924 := by
    rw [hb]
    exact batchBytes_largeViews_length _ _
  have hrm : st.mgr.active.offset + (0 + (batchBytes packingCrates (st.batch 64)).length) ≤
      st.mgr.segmentSize := by
    rw [hl, ho, hd, ht.mgr.segmentSize_eq]
    decide
  obtain ⟨bf, hi, hfd⟩ : ∃ bf, fill packingCrates st.mgr st.committed
      (st.batch 64) ⟨[], st.mgr.active, st.mgr.activeIndex, st.mgr.activeIndexCount,
        st.committed⟩ = .ok bf ∧ _ :=
    fill_of_room rfl hrm
  have hu : bf.buf = largeBatch := by
    rw [hfd.buf_eq, take_length, hb, nil_append, batchBytes_packingCrates]
    unfold largeBatch
    rfl
  have he : bf.buf ≠ [] := by
    intro hn
    have hz := congrArg length (hu.symm.trans hn)
    rw [largeBatch_length] at hz
    exact absurd hz (by decide)
  have hj : st.mgr.addedBytes packingCrates zeroNonce bf.buf =
      frameBytes [1] (64 * 67108924) := by
    have hp : encodeFramePayload packingCrates true (none.map KeyRing.active) zeroNonce
        largeBatch = [1] := by
      unfold encodeFramePayload encryptIfEnabled
      rw [if_pos rfl]
      exact pack_largeBatch
    unfold addedBytes
    rw [ht.mgr.active_compressed, ht.mgr.keys_eq, hu, largeBatch_length,
      show largeShard.compressed = true from rfl, show largeShard.encryptionKeys = none from rfl,
      hp]
    rfl
  obtain ⟨hm, hk, -⟩ := writeBatch_spec packingCrates zeroNonce he hg ho hfd.active_eq
  rw [hj] at hm hk
  have hpe : maybePrepareNext packingCrates
      (st.mgr.writeBatch packingCrates st.disk zeroNonce bf).1
      (st.mgr.writeBatch packingCrates st.disk zeroNonce bf).2 bf.next =
      (.ok (), (st.mgr.writeBatch packingCrates st.disk zeroNonce bf).1,
        (st.mgr.writeBatch packingCrates st.disk zeroNonce bf).2) := by
    unfold maybePrepareNext
    rw [hm]
    simp only [ht.prepared_eq, hpr, ht.mgr.segmentSize_eq, length_append, hd, frameBytes_length]
    rfl
  have hr : st.commitBatch packingCrates largeShard 64 zeroNonce 0 quietEnv =
      { st with
        mgr := (st.mgr.writeBatch packingCrates st.disk zeroNonce bf).1
        disk := (st.mgr.writeBatch packingCrates st.disk zeroNonce bf).2
        committed := bf.next } := by
    unfold ShardState.commitBatch appendBatch
    simp only [hi, hpe]
    rfl
  rw [hr]
  constructor
  · show bf.next = 64
    rw [hfd.next_eq, ht.committed_eq, hc, hb]
    simp [largeViews]
  · show diskRecords packingCrates none (st.mgr.writeBatch packingCrates st.disk zeroNonce bf).2 = []
    unfold diskRecords segmentRecords
    rw [hk, nil_append, flatMap_singleton, SegmentFile.deserialize rfl]
    simp only
    exact recordIter_largeFrame hd.symm
      (LogSegment.header_isCompressed _ largeShard _ _ _)
      (LogSegment.header_isEncrypted _ largeShard _ _ _) rfl

/-- A batch of 64 records of the largest size is 4 GiB and 3840 bytes long, and its frame header
holds only the 3840: the iterator yields none of the committed records. -/
theorem diskRecords_lost_in_large_frame :
    ∃ (C : Crates) (cfg : ShardConfig) (st : ShardState), C.Lawful ∧
      ShardReachable C cfg (fun st ev => ev.Bounded cfg st ∧ ev.KeepsAll cfg) st ∧
      st.committed = 64 ∧
      diskRecords C cfg.encryptionKeys st.disk ≠
        (st.published.take st.committed).map toRecord := by
  obtain ⟨-, st, hr, hs⟩ := follows_largeLog 64 le_rfl
  obtain ⟨hc, hrc⟩ := commitBatch_large hs
  have hp : st.published = largeViews 64 := hs.published_eq.trans (largeLog_published 64)
  have he : (ShardEvent.commit 64 zeroNonce 0 quietEnv).Enabled largeShard st := by
    refine ⟨by decide, ?_⟩
    rw [hs.committed_eq, (largeLog_segments 64).2.2.2, hp]
    simp [largeViews]
  refine ⟨packingCrates, largeShard, _, packingCrates_lawful, hr.step he ⟨?_, rfl, rfl⟩, hc, ?_⟩
  · show st.mgr.activeId + 1 < _
    rw [hs.activeId_eq, (largeLog_segments 64).1]
    decide
  · intro heq
    have hl := congrArg length heq
    rw [show largeShard.encryptionKeys = none from rfl] at hl
    simp only [ShardEvent.apply] at hl
    rw [hrc, length_map, length_take, hc, ShardState.commitBatch_published,
      hp, largeViews, length_map, length_range] at hl
    exact absurd hl (by decide)

end LargeFrame

end LogDb.Pipeline
