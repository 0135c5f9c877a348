import LogDb.Recovery.Single
import LogDb.Recovery.Rescan
import LogDb.Storage.Layout
import LogDb.Reader.Exact
import LogDb.Database.Session

/-!
Sessions on a shard directory that has a single segment. A session finds all records of the earlier
ones and puts its own behind them.
-/

namespace LogDb.Database

open Lib Format Storage Recovery Reader List Option SegmentManager ReadView SegmentHeader Disk Session

variable {data : Bytes} {nonce : Nonce} {env : SegmentManager.RollEnv} {checkpoint : UInt64}
  {count k : ℕ}

section

variable (C : Crates) (c : Config) (freshInit : Bytes32)

/-- The header of the segment that a fresh shard starts with. -/
def Config.firstHeader : SegmentHeader :=
  { firstSegment (c.headerHashInit C freshInit) 0 0 1 c.hashEnabled hashAlgoBlake3 with
    flags := layoutFlags c.hashEnabled c.compressionEnabled c.encryptionKeys.isSome
    encryptionKeyId := c.encryptionKeys.elim 0 KeyRing.activeId }

theorem Config.firstHeader_flags : (c.firstHeader C freshInit).isCompressed = c.compressionEnabled ∧
      (c.firstHeader C freshInit).isEncrypted = c.encryptionKeys.isSome ∧
      (c.firstHeader C freshInit).hashEnabled = c.hashEnabled :=
  (layoutFlags_spec _ _ _).1

end

/-- The directory of shard `s` among `n` shards: one segment with the records of the first local
sequences in it. -/
structure KeptShard (C : Crates) (keys : Option KeyRing) (n s : ℕ) (d : Disk)
    (header : SegmentHeader) (views : List ReadView) (hdr body : Bytes) : Prop extends
    SingleSegment C keys d header views hdr body where
  base_eq : header.baseSequence = 0
  prev_eq : header.prevLastHash = zeros32
  encrypted_eq : header.isEncrypted = keys.isSome
  ids : ∀ i v, views[i]? = some v → v.recordId = encodeRecordId s i (shardBits n)
  limit : ShardFits s (shardBits n) views.length
  index : ∀ data, d.indexes 1 = some data → StoredSegment.HasIndex ⟨1, header, views⟩ data

/-- The manager goes on with the segment, at the end of its file. -/
structure Appends (m : SegmentManager) (keys : Option KeyRing) (header : SegmentHeader)
    (views : List ReadView) (length : ℕ) : Prop where
  active_id : m.active.id = 1
  activeId_eq : m.activeId = 1
  offset_eq : m.active.offset = length
  compressed_eq : header.isCompressed = m.active.compressed
  keys_eq : m.encryptionKeys = keys
  prepared_eq : m.preparedSegment = none
  hash_eq : m.hashEnabled = header.hashEnabled
  size_lt : m.segmentSize < 2 ^ 64
  index : ∀ idx ∈ m.activeIndex, (header.isCompressed || header.isEncrypted) = false ∧
    (∀ e ∈ idx.entries, e.fileOffset < 2 ^ 64) ∧
    idx.entries.Sublist (anchors segmentHeaderSize views)

/-- An open that resumes behind `views`. -/
structure Resumes (c : Config) (header : SegmentHeader) (views : List ReadView) (length : ℕ)
    (chainKey : Bytes32) (o : OpenShard) : Prop where
  appends : Appends o.mgr c.encryptionKeys header views length
  segmentSize_eq : o.mgr.segmentSize = c.segmentSize.toNat
  initialLocal_eq : o.initialLocal = views.length
  hashInit_eq : o.hashInit = chainKey
  lastHash_eq : o.lastHash = views.getLast?.elim zeros32 ReadView.hashN

section

variable {C : Crates} {keys : Option KeyRing} {c : Config} {n s : ℕ} {d : Disk}
  {header : SegmentHeader} {views : List ReadView} {hdr body : Bytes}

theorem freshIndex_entries {compressed : Bool} {idx : SparseIndex} {stride : UInt32}
    (h : idx ∈ (freshIndex compressed keys).map fun _ => SparseIndex.new stride) :
    (compressed || keys.isSome) = false ∧ idx.entries = [] := by
  unfold freshIndex at h
  split_ifs at h with hf
  · cases h
  · cases h
    exact ⟨Bool.eq_false_of_not_eq_true hf, rfl⟩

theorem openShard_fresh (C : Crates) (hc : c.Valid) (hs : s < c.shards) (freshInit : Bytes32) :
    ∃ o, openShard C c s freshInit Disk.empty = .ok o ∧
      KeptShard C c.encryptionKeys c.shards s o.disk (c.firstHeader C freshInit) []
        ((c.firstHeader C freshInit).serialize C zeros32) [] ∧
      Resumes c (c.firstHeader C freshInit) []
        ((c.firstHeader C freshInit).serialize C zeros32 ++ []).length freshInit o := by
  rw [append_nil, serialize_length]
  have ha : ∀ f ∈ Disk.empty.segments, f.1 < 1 := by simp [Disk.empty]
  obtain ⟨d', hcr, hg, hi⟩ := create_of_above ((c.firstHeader C freshInit).serialize C zeros32) ha
  obtain ⟨hm, he, hh⟩ := c.firstHeader_flags C freshInit
  have hb := (shardBits_spec hc.shards_le hs).1
  unfold openShard SegmentManager.create ActiveSegment.create
  rw [if_neg (by simp [Disk.get, Disk.empty])]
  have hc' := hcr
  unfold Config.firstHeader at hc'
  simp only [hc', map_some]
  refine ⟨_, rfl, ?_, ?_⟩
  · constructor
    · constructor
      · simpa [Disk.empty] using hg
      · exact serialize_length _ _ _
      · exact deserialize_serialize _ _ _
      · rfl
      · exact StoredBody.nil _ _ _
      · simp
    · rfl
    · rfl
    · exact he
    · simp
    · refine ⟨(shardBits_spec hc.shards_le hs).1, (shardBits_spec hc.shards_le hs).2, ?_⟩
      have hp := Nat.pow_le_pow_right (n := 2) (by decide) hb
      simp only [length_nil]
      omega
    · simp [hi, Disk.empty]
  · constructor
    · constructor
      · rfl
      · rfl
      · rfl
      · exact hm
      · rfl
      · rfl
      · exact hh.symm
      · exact c.segmentSize.toNat_lt
      · intro idx hx
        obtain ⟨hr, hes⟩ := freshIndex_entries hx
        rw [hm, he]
        refine ⟨hr, ?_⟩
        simp [hes]
    · rfl
    · rfl
    · rfl
    · rfl

/-- Opening a directory whose records fit together goes on behind the last of them. -/
theorem openShard_kept (h : KeptShard C c.encryptionKeys c.shards s d header views hdr body)
    (freshInit : Bytes32)
    (hc : header.hashEnabled = true → ChainFrom C
      (chainKeyOf C header c.encryptionKeys views.head?) zeros32 (views.map toRecord)) :
    ∃ o, openShard C c s freshInit d = .ok o ∧ o.disk = d ∧
      Resumes c header views (hdr ++ body).length
        (chainKeyOf C header c.encryptionKeys views.head?) o := by
  have hk := resolveChainKey_eq h.length h.stored h.encrypted_eq
  have hi : IdsFollow (idStride (shardBits c.shards))
      (if 0 < shardBits c.shards then none else some header.baseSequence)
      (views.map toRecord) := by
    apply (idsFollow_encode h.limit (i := 0) (by simpa using h.ids) (by omega)).of_some
    split_ifs with hb
    · exact .inl rfl
    · right
      have hz : shardBits c.shards = 0 := by
        simpa [UInt32.lt_iff_toNat_lt, ← UInt32.toNat_inj] using hb
      rw [h.base_eq, hz]
      rfl
  have hr := h.recoverShard_eq c.segmentSize.toNat c.retention hi (by rw [hk, h.prev_eq]; exact hc)
  unfold openShard
  rw [if_pos (by simp [h.get_one]), hr, hk]
  refine ⟨_, rfl, rfl, ?_, rfl, ?_, rfl, rfl⟩
  · constructor
    · rfl
    · rfl
    · rfl
    · rfl
    · rfl
    · rfl
    · rfl
    · exact c.segmentSize.toNat_lt
    · intro idx hx
      obtain ⟨ha, he⟩ := freshIndex_entries hx
      rw [h.encrypted_eq]
      refine ⟨ha, ?_⟩
      simp [he]
  · rcases eq_nil_or_concat views with rfl | ⟨vs, v, rfl⟩
    · rfl
    · have hid : v.recordId = encodeRecordId s vs.length (shardBits c.shards) :=
        h.ids vs.length v (by simp)
      have hl := h.limit
      rw [concat_eq_append, length_append, length_singleton] at hl
      have hp := Nat.two_pow_pos (shardBits c.shards).toNat
      have hlt : vs.length + 1 < 2 ^ 64 := by
        have hu := Nat.le_mul_of_pos_right (vs.length + 1 + 1) hp
        have hm := hl.limit_lt
        omega
      simp only [concat_eq_append, getLast?_append, getLast?_singleton,
        some_or, elim_some, length_append, length_singleton]
      rw [if_neg (by omega), hid, decodeRecordId_encodeRecordId hl (by omega)]
      exact Nat.mod_eq_of_lt hlt

variable {m : SegmentManager} {more : List ReadView}

section

variable (hy : d.get m.nextId = none) (hq : m.preparedSegment = none)
include hy hq

theorem roll_new_segment (base cp : UInt64) (env : SegmentManager.RollEnv) :
    ((m.roll C d base cp env).2.2.get m.nextId).isSome = true := by
  set d₀ := m.saveActiveIndex (m.active.backfillHeaderTs C d) with hd₀
  have hf : d₀.get m.nextId = none := by
    have hs := isSome_get_modify d m.active.id
      (ActiveSegment.backfill C m.active.minTs m.active.maxTs) m.nextId
    rw [hy, isSome_none, isSome_eq_false_iff, isNone_iff_eq_none] at hs
    rw [hd₀, saveActiveIndex_get]
    exact hs
  obtain ⟨d₁, hc⟩ := create_of_get ((m.nextHeader m.nextId base).serialize C m.lastHash) hf
  obtain ⟨seg, hw⟩ : ∃ seg, m.rollSwap C d base = some (m.swapActive m.nextId seg, d₁) := by
    unfold rollSwap ActiveSegment.create
    simp only [hq, ← hd₀, hc]
    exact ⟨_, rfl⟩
  rw [roll_of_swap hw]
  have hk : ((m.swapActive m.nextId seg).rollCleanup C d₁ cp env).get m.nextId =
      d₁.get m.nextId :=
    (rollCleanup_deletes d₁ cp env).get_of_le le_rfl
  rw [hk, get_create hc, if_pos rfl]
  rfl

theorem maybePrepareNext_new_segment (nextLocalSeq : ℕ) :
    m.maybePrepareNext C d nextLocalSeq = (.ok (), m, d) ∨
      (m.maybePrepareNext C d nextLocalSeq).1 = .ok () ∧
        ((m.maybePrepareNext C d nextLocalSeq).2.2.get m.nextId).isSome = true := by
  unfold maybePrepareNext ActiveSegment.create
  rw [if_neg (by simp [hq])]
  split_ifs with hr
  · exact .inl rfl
  · right
    obtain ⟨d₁, hc⟩ := create_of_get ((m.nextHeader m.nextId
      (encodeRecordId m.shardId nextLocalSeq m.shardBits)).serialize C m.lastHash) hy
    simp only [hc, map_some]
    constructor
    · trivial
    · rw [get_create hc, if_pos rfl]
      rfl

end

/-- A commit that leaves the directory with its one segment has appended records to it. -/
theorem Session.commitBatch_only {ss : Session} (hg : d.segments = [(1, data)])
    (hid : ss.mgr.active.id = 1) (ha : ss.mgr.activeId = 1)
    (ho : ss.mgr.active.offset = data.length) (hq : ss.mgr.preparedSegment = none)
    (hb : ss.batch count ≠ [])
    (hon : ∀ f ∈ (ss.commitBatch C d count nonce checkpoint env).2.segments, f.1 = 1) :
    ∃ k st d', 0 < k ∧ SegmentManager.Filled C ss.mgr ss.committed (ss.batch count)
        (.start ss.mgr ss.committed) st k ∧
      d'.segments = [(1,
        data ++ ss.mgr.addedBytes C nonce (batchBytes C ((ss.batch count).take k)))] ∧
      d'.indexes = d.indexes ∧
      ss.commitBatch C d count nonce checkpoint env =
        ({ ss with
            mgr := { ss.mgr with
              active := { st.active with
                offset := (data ++
                  ss.mgr.addedBytes C nonce (batchBytes C ((ss.batch count).take k))).length }
              activeIndex := st.index
              activeIndexCount := st.indexCount }
            committed := ss.committed + k }, d') := by
  have hnx : ss.mgr.nextId = 2 := by
    simp [nextId, ha]
  have ht : ∀ e : Disk, (∀ f ∈ e.segments, f.1 = 1) → e.get ss.mgr.nextId = none := by
    intro e he
    apply get_eq_none_iff.mpr
    intro f hf
    rw [he f hf, hnx]
    decide
  have hs : d.segments = [] ++ (ss.mgr.active.id, data) :: [] := by
    rw [hid]
    exact hg
  have hn := ht _ hon
  cases hi : fill C ss.mgr ss.committed (ss.batch count)
      (.start ss.mgr ss.committed) with
  | error e =>
    -- nothing fits, and the roll creates the next segment
    obtain rfl := fill_error hi
    have hr := roll_new_segment (C := C) (ht d (by simp [hg])) hq
      (ss.recordId ss.committed) checkpoint env
    unfold commitBatch appendBatch at hn
    simp only [hi] at hn
    rw [hn] at hr
    cases hr
  | ok st =>
    obtain ⟨k, hd, hp⟩ := fill_spec hi rfl
    have hk := hp rfl hb
    obtain ⟨d', hs', hx, hc⟩ := appendBatch_filled nonce hi hd hk hs ho
    rw [hid] at hs'
    refine ⟨k, st, d', hk, hd, hs', hx, ?_⟩
    unfold commitBatch at hn ⊢
    rw [hc] at hn ⊢
    generalize hm : ({ ss.mgr with
      active := { st.active with offset := _ }
      activeIndex := st.index
      activeIndexCount := st.indexCount } : SegmentManager) = m at hn ⊢
    have hmt : m.nextId = ss.mgr.nextId := by
      rw [← hm]
      rfl
    have hfe : d'.get m.nextId = none := by
      rw [hmt]
      exact ht d' (by simp [hs'])
    have hj : m.preparedSegment = none := by
      rw [← hm]
      exact hq
    rcases maybePrepareNext_new_segment (C := C) hfe hj (ss.committed + k) with
      hsm | ⟨hok, hse⟩
    · simp only [hsm, Except.map]
    · simp only [hok, Except.map] at hn
      rw [hmt, hn] at hse
      cases hse

theorem HasIndex.append (C : Crates) (h : StoredSegment.HasIndex ⟨1, header, views⟩ data) :
    StoredSegment.HasIndex ⟨1, header, views ++ more⟩ data := by
  obtain ⟨idx, hl, hs⟩ := h
  refine ⟨idx, hl, hs.trans ?_⟩
  show (anchors _ views).Sublist (anchors _ (views ++ more))
  rw [anchors_append C]
  exact sublist_append_left _ _

theorem KeptShard.append (hC : C.Lawful) {d' : Disk}
    (h : KeptShard C keys n s d header views hdr body)
    (ha : Appends m keys header views (hdr ++ body).length) (hne : more ≠ [])
    (ht : ∀ v ∈ more, v.Fits) (hf : FrameFits C m.active.compressed m.encryptionKeys nonce more)
    (hi : ∀ i v, (views ++ more)[i]? = some v → v.recordId = encodeRecordId s i (shardBits n))
    (hl : ShardFits s (shardBits n) (views ++ more).length)
    (hg : d'.segments = [(1, hdr ++ body ++ m.addedBytes C nonce (batchBytes C more))])
    (hx : d'.indexes = d.indexes) :
    KeptShard C keys n s d' header (views ++ more) hdr
      (body ++ m.addedBytes C nonce (batchBytes C more)) := by
  have hk := ha.keys_eq
  have hs := h.stored
  have he := h.encrypted_eq
  rw [← hk] at hs he
  constructor
  · constructor
    · rw [hg, append_assoc]
    · exact h.length
    · exact h.header_eq
    · exact h.id_eq
    · rw [← hk]
      exact storedBody_added hC hs ha.compressed_eq he hne hf
    · intro v hv
      rcases mem_append.mp hv with ho | hy
      · exact h.fits v ho
      · exact ht v hy
  · exact h.base_eq
  · exact h.prev_eq
  · exact h.encrypted_eq
  · exact hi
  · exact hl
  · intro data hd
    rw [hx] at hd
    exact HasIndex.append C (h.index data hd)

theorem Appends.filled {first : ℕ} {batch : List ReadView} {st : SegmentManager.BatchFill}
    (ht : StoredBody C header keys views body) (hh : hdr.length = segmentHeaderSize)
    (h : Appends m keys header views (hdr ++ body).length) (hk : 0 < k)
    (hf : SegmentManager.Filled C m first batch (.start m first) st k) (length : ℕ) :
    Appends { m with
        active := { st.active with offset := length }
        activeIndex := st.index
        activeIndexCount := st.indexCount } keys header (views ++ batch.take k) length := by
  constructor
  · exact hf.active_eq.id_eq.trans h.active_id
  · exact h.activeId_eq
  · rfl
  · exact h.compressed_eq.trans hf.active_eq.compressed_eq.symm
  · exact h.keys_eq
  · exact h.prepared_eq
  · exact h.hash_eq
  · exact h.size_lt
  · intro idx hx
    have hg : IndexGrows m.activeIndex st.index _ := hf.index
    have hr : (header.isCompressed || header.isEncrypted) = false := by
      cases ho : m.activeIndex with
      | none =>
        rw [ho, show st.index = some idx from hx] at hg
        exact hg.elim
      | some i => exact (h.index i ho).1
    have ha : m.active.offset = segmentHeaderSize + (batchBytes C views).length := by
      rw [h.offset_eq, length_append, hh, ht.eq_batchBytes hr]
    simp only [length_nil, add_zero, ha] at hg
    have hs := hg.sublist (fun i hi => (h.index i hi).2.2) idx hx
    refine ⟨hr, fun e he => ?_, hs⟩
    have hlt := anchor_lt (C := C) (hs.subset he)
    have hm := hf.room hk
    have hz := h.size_lt
    rw [hf.buf_eq, nil_append] at hm
    rw [batchBytes_append, length_append] at hlt
    omega

section

variable (h : KeptShard C keys n s d header views hdr body)
include h

theorem KeptShard.readHeader : readSegmentHeaderById C d 1 = some header := by
  have hl : ¬ (hdr ++ body).length < segmentHeaderSize := by
    rw [length_append, h.length]
    omega
  unfold readSegmentHeaderById
  simp only [h.get_one, bind_eq_bind, bind_some, if_neg hl, field_zero,
    take_left' h.length, h.header_eq]
  rfl

theorem KeptShard.saveIndex {length : ℕ} (ha : Appends m keys header views length) :
    KeptShard C keys n s (m.saveActiveIndex d) header views hdr body := by
  refine { h with
    segments := (saveActiveIndex_segments m d).trans h.segments
    index := ?_ }
  intro data hd
  unfold saveActiveIndex at hd
  cases hx : m.activeIndex with
  | none =>
    rw [hx] at hd
    exact h.index data hd
  | some idx =>
    obtain ⟨-, hm, hs⟩ := ha.index idx hx
    simp only [hx] at hd
    split_ifs at hd
    · exact h.index data hd
    · simp only [writeIndex, ha.active_id, if_true, some.injEq] at hd
      rw [← hd]
      exact ⟨idx, SparseIndex.load_save idx hm, hs⟩

theorem KeptShard.shardDirectory : ShardDirectory C keys n s d [⟨1, header, views⟩] where
  files := by
    rw [h.segments]
    exact .cons ⟨rfl, hdr, body, rfl, h.length, h.header_eq, h.stored⟩ .nil
  fits := by simpa using h.fits
  ascending := by
    simp only [forall_mem_singleton]
    apply pairwise_iff_getElem.mpr
    intro i j hi hj hij
    rw [h.ids i _ (getElem?_eq_getElem hi), h.ids j _ (getElem?_eq_getElem hj)]
    exact encodeRecordId_lt h.limit hij hj.le
  indexes := by simpa using h.index
  chain := .singleton _
  floor := by
    simp [StoredSegment.base, h.base_eq]
  shard := by
    simp only [forall_mem_singleton]
    intro v hv
    obtain ⟨i, hi, rfl⟩ := getElem_of_mem hv
    rw [h.ids i _ (getElem?_eq_getElem hi), decodeRecordId_encodeRecordId h.limit (by omega)]

end

end

/-- A session that found the records `old` in the directory. -/
structure SingleSession (C : Crates) (keys : Option KeyRing) (n s : ℕ) (ss : Session) (d : Disk)
    (header : SegmentHeader) (old : List ReadView) (hdr body : Bytes) : Prop where
  kept : KeptShard C keys n s d header (old ++ ss.written) hdr body
  appends : Appends ss.mgr keys header (old ++ ss.written) (hdr ++ body).length
  valid : ss.config.Valid
  shards_eq : ss.config.shards = n
  shardId_eq : ss.shardId = s
  old_length : old.length = ss.initialLocal
  committed_ge : ss.initialLocal ≤ ss.committed
  committed_le : ss.committed ≤ ss.next
  fits : ∀ v ∈ ss.published, v.Fits
  ids : ∀ i v, (old ++ ss.published)[i]? = some v → v.recordId = encodeRecordId s i (shardBits n)
  limit : ShardFits s (shardBits n) ss.next

namespace SingleSession

variable {C : Crates} {keys : Option KeyRing} {c : Config} {n s : ℕ} {ss : Session} {d : Disk}
  {header : SegmentHeader} {old : List ReadView} {hdr body : Bytes} {o : OpenShard}

theorem ofOpen {chainKey : Bytes32} (hc : c.Valid)
    (hk : KeptShard C c.encryptionKeys c.shards s o.disk header old hdr body)
    (hr : Resumes c header old (hdr ++ body).length chainKey o) :
    SingleSession C c.encryptionKeys c.shards s (Session.ofOpen c s o) o.disk header old hdr
      body where
  kept := by simpa [written_ofOpen] using hk
  appends := by
    rw [written_ofOpen, append_nil]
    exact hr.appends
  valid := hc
  shards_eq := rfl
  shardId_eq := rfl
  old_length := hr.initialLocal_eq.symm
  committed_ge := le_rfl
  committed_le := le_rfl
  fits := by simp [Session.ofOpen]
  ids := by simpa [Session.ofOpen] using hk.ids
  limit := by
    have hn : (Session.ofOpen c s o).next = old.length := hr.initialLocal_eq
    rw [hn]
    exact hk.limit

section

variable (h : SingleSession C keys n s ss d header old hdr body)
include h

theorem written_publish (ts : UInt64) (content : Bytes) :
    (ss.publish C ts content).written = ss.written := by
  have hle := h.committed_le
  unfold Session.next at hle
  show (ss.published ++ [_]).take (ss.committed - ss.initialLocal) = _
  rw [take_append_of_le_length (by omega)]
  rfl

theorem length_eq : (old ++ ss.published).length = ss.next := by
  rw [length_append, h.old_length]
  rfl

theorem publish {ts : UInt64} {content : Bytes} (he : content.length ≤ ss.config.maxContentSize)
    (hl : (ss.next + 2) * 2 ^ (shardBits n).toNat < 2 ^ 64) :
    SingleSession C keys n s (ss.publish C ts content) d header old hdr body := by
  have hr := h.written_publish ts content
  have hp : (ss.publish C ts content).published = ss.published ++ [ss.nextView C ts content] := rfl
  have hn : (ss.publish C ts content).next = ss.next + 1 := by
    simp [Session.next, Session.publish, add_assoc]
  constructor
  · rw [hr]
    exact h.kept
  · rw [hr]
    exact h.appends
  · exact h.valid
  · exact h.shards_eq
  · exact h.shardId_eq
  · exact h.old_length
  · exact h.committed_ge
  · rw [hn]
    exact Nat.le_succ_of_le h.committed_le
  · intro w hw
    rcases mem_append.mp hw with ho | hy
    · exact h.fits w ho
    · rw [mem_singleton.mp hy]
      exact nextView_fits h.valid he
  · rw [hp, ← append_assoc]
    intro i w hw
    rcases lt_trichotomy i (old ++ ss.published).length with hlt | rfl | hgt
    · rw [getElem?_append_left hlt] at hw
      exact h.ids i w hw
    · rw [getElem?_concat_length, some.injEq] at hw
      rw [← hw, h.length_eq, ← h.shardId_eq, ← h.shards_eq]
      rfl
    · rw [getElem?_eq_none (by rw [length_append, length_singleton]; omega)] at hw
      cases hw
  · rw [hn]
    exact ⟨h.limit.bits_le, h.limit.shard_lt, hl⟩

theorem prefix_written (hk : ss.committed + k ≤ ss.next) :
    old ++ ss.published.take (ss.committed + k - ss.initialLocal) <+: old ++ ss.published ∧
      (old ++ ss.published.take (ss.committed + k - ss.initialLocal)).length = ss.committed + k := by
  have hge := h.committed_ge
  have ho := h.old_length
  have hn : ss.next = ss.initialLocal + ss.published.length := rfl
  constructor
  · rw [prefix_append_right_inj]
    exact take_prefix _ _
  · rw [length_append, length_take]
    omega

end

theorem commit (hC : C.Lawful) (h : SingleSession C keys n s ss d header old hdr body)
    (hp : 0 < count) (hle : ss.committed + count ≤ ss.next) (hf : ss.FramesFit C count nonce)
    (ho : ∀ f ∈ (ss.commitBatch C d count nonce checkpoint env).2.segments, f.1 = 1) :
    ∃ body', SingleSession C keys n s (ss.commitBatch C d count nonce checkpoint env).1
        (ss.commitBatch C d count nonce checkpoint env).2 header old hdr body' ∧
      ss.written <+: (ss.commitBatch C d count nonce checkpoint env).1.written := by
  have hge := h.committed_ge
  have hnx : ss.next = ss.initialLocal + ss.published.length := rfl
  have hl : (ss.batch count).length = count := by
    rw [batch, length_take, length_drop]
    omega
  have hb : ss.batch count ≠ [] := by
    intro hn
    rw [hn, length_nil] at hl
    omega
  obtain ⟨k, st, d', hk, hi, hs, hx, hc⟩ :=
    commitBatch_only h.kept.segments h.appends.active_id h.appends.activeId_eq
      h.appends.offset_eq h.appends.prepared_eq hb ho
  have hd : k ≤ count := hl ▸ hi.le
  -- what was written and the part of the batch that was taken
  have hw : ss.published.take (ss.committed + k - ss.initialLocal) =
      ss.written ++ (ss.batch count).take k := by
    rw [written, batch, take_take, min_eq_left hd, ← take_add]
    congr 1
    omega
  obtain ⟨hr, hln⟩ := h.prefix_written (k := k) (by omega)
  rw [hw, ← append_assoc] at hr hln
  rw [hc]
  refine ⟨body ++ ss.mgr.addedBytes C nonce (batchBytes C ((ss.batch count).take k)), ?_, ?_⟩
  · have he : KeptShard C keys n s d' header (old ++ ss.written ++ (ss.batch count).take k) hdr
        (body ++ ss.mgr.addedBytes C nonce (batchBytes C ((ss.batch count).take k))) := by
      apply h.kept.append hC h.appends
      · exact ne_nil_of_length_pos (by rw [length_take]; omega)
      · intro v hv
        exact h.fits v (mem_of_mem_drop (mem_of_mem_take (mem_of_mem_take hv)))
      · exact fun hfr => hf hfr k
      · intro i v hv
        obtain ⟨rest, ht⟩ := hr
        apply h.ids i v
        rw [← ht, getElem?_append_left (List.getElem?_eq_some_iff.mp hv).1]
        exact hv
      · rw [hln]
        refine ⟨h.limit.bits_le, h.limit.shard_lt, lt_of_le_of_lt ?_ h.limit.limit_lt⟩
        exact Nat.mul_le_mul_right _ (by omega)
      · exact hs
      · exact hx
    have ha := h.appends.filled h.kept.stored h.kept.length hk hi
    rw [append_assoc, ← hw] at he
    exact { h with
      kept := he
      appends := by
        have hm := ha (hdr ++ body ++ ss.mgr.addedBytes C nonce (batchBytes C
          ((ss.batch count).take k))).length
        rw [append_assoc old, ← hw] at hm
        rw [← append_assoc hdr]
        exact hm
      committed_ge := by
        show ss.initialLocal ≤ ss.committed + k
        omega
      committed_le := by
        show ss.committed + k ≤ ss.next
        omega }
  · show ss.written <+: ss.published.take (ss.committed + k - ss.initialLocal)
    rw [hw]
    exact prefix_append _ _

theorem sync (h : SingleSession C keys n s ss d header old hdr body) :
    SingleSession C keys n s (ss.sync d).1 (ss.sync d).2 header old hdr body :=
  { h with
    kept := h.kept.saveIndex (m := ss.mgr.syncAll) { h.appends with }
    appends := { h.appends with } }

theorem written_eq (ha : ss.committed = ss.next) : ss.written = ss.published := by
  unfold written
  rw [ha, Session.next, Nat.add_sub_cancel_left, take_length]

end SingleSession

end LogDb.Database
