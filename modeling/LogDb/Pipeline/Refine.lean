import LogDb.Lib.Forall2
import LogDb.Storage.Append
import LogDb.Storage.Retention
import LogDb.Pipeline.Log

/-!
The shard refines the abstract log: its segment files hold the segments of the log, and its steps
are steps of the log.
-/

namespace LogDb.Pipeline

open Lib Format Storage List Option SegmentHeader Disk LogSegment

/-- The header of the file that holds the segment. -/
def LogSegment.header (C : Crates) (cfg : ShardConfig) (seg : LogSegment) (minTs maxTs : UInt64) :
    SegmentHeader where
  formatVersion := Format.formatVersion
  flags := (if seg.id = 1 then 0 else flagNotFirst) |||
    layoutFlags cfg.hashEnabled cfg.compressed cfg.encryptionKeys.isSome
  hashAlgo := hashAlgoBlake3
  hashInit := cfg.headerHashInit C
  baseSequence := seg.base
  partitionId := 0
  segmentId := UInt32.ofNat seg.id
  minTimestampNs := minTs
  maxTimestampNs := maxTs
  prevLastHash := seg.prevHash
  recordFormat := recordFormatV1
  encryptionKeyId := cfg.encryptionKeys.elim 0 KeyRing.activeId

section

variable (C : Crates) (cfg : ShardConfig) (seg : LogSegment) (minTs maxTs : UInt64)

theorem LogSegment.header_isCompressed :
    (seg.header C cfg minTs maxTs).isCompressed = cfg.compressed := by
  unfold isCompressed header layoutFlags
  by_cases hid : seg.id = 1 <;> cases cfg.hashEnabled <;> cases cfg.compressed <;>
    cases cfg.encryptionKeys.isSome <;> simp only [hid] <;> decide

theorem LogSegment.header_isEncrypted :
    (seg.header C cfg minTs maxTs).isEncrypted = cfg.encryptionKeys.isSome := by
  unfold isEncrypted header layoutFlags
  by_cases hid : seg.id = 1 <;> cases cfg.hashEnabled <;> cases cfg.compressed <;>
    cases cfg.encryptionKeys.isSome <;> simp only [hid] <;> decide

theorem LogSegment.header_hashEnabled :
    (seg.header C cfg minTs maxTs).hashEnabled = cfg.hashEnabled := by
  unfold hashEnabled header layoutFlags
  by_cases hid : seg.id = 1 <;> cases cfg.hashEnabled <;> cases cfg.compressed <;>
    cases cfg.encryptionKeys.isSome <;> simp only [hid] <;> decide

theorem LogSegment.header_framed :
    ((seg.header C cfg minTs maxTs).isCompressed || (seg.header C cfg minTs maxTs).isEncrypted) =
      cfg.framed := by
  rw [header_isCompressed, header_isEncrypted]
  rfl

end

/-- The bytes of a file that holds the segment, for some time range in its header. -/
def SegmentFile (C : Crates) (cfg : ShardConfig) (seg : LogSegment) (f : ℕ × Bytes) : Prop :=
  f.1 = seg.id ∧ ∃ minTs maxTs body,
    f.2 = (seg.header C cfg minTs maxTs).serialize C seg.prevHash ++ body ∧
      StoredBody C (seg.header C cfg minTs maxTs) cfg.encryptionKeys seg.records body

/-- The settings that a manager keeps as it was created with. -/
structure ManagerOf (C : Crates) (cfg : ShardConfig) (m : SegmentManager) : Prop where
  segmentSize_eq : m.segmentSize = cfg.segmentSize
  lastHash_eq : m.lastHash = zeros32
  hashInit_eq : m.hashInit = cfg.headerHashInit C
  hashEnabled_eq : m.hashEnabled = cfg.hashEnabled
  compressed_eq : m.compressed = cfg.compressed
  active_compressed : m.active.compressed = cfg.compressed
  keys_eq : m.encryptionKeys = cfg.encryptionKeys
  retention_eq : m.retention = cfg.retention
  shardId_eq : m.shardId = cfg.shardId
  shardBits_eq : m.shardBits = cfg.shardBits

/-- A segment that was created and not written to. -/
def LogSegment.freshActive (cfg : ShardConfig) (seg : LogSegment) : ActiveSegment where
  id := seg.id
  offset := segmentHeaderSize
  baseSequence := seg.base
  minTs := 0xFFFFFFFFFFFFFFFF
  maxTs := 0
  compressed := cfg.compressed

/-- Every entry of the index is the place of a record of the segment. -/
def IndexOf (seg : LogSegment) (idx : SparseIndex) : Prop :=
  idx.entries.Sublist (anchors segmentHeaderSize seg.records)

structure Refines (C : Crates) (cfg : ShardConfig) (st : ShardState) (log : Log) : Prop where
  published_eq : st.published = log.published
  committed_eq : st.committed = log.committed
  files : List.Forall₂ (SegmentFile C cfg) log.segments st.disk.segments
  mgr : ManagerOf C cfg st.mgr
  active_id : st.mgr.active.id = log.active.id
  activeId_eq : st.mgr.activeId = log.active.id
  base_eq : st.mgr.active.baseSequence = log.active.base
  offset_eq : (st.disk.get log.active.id).map List.length = some st.mgr.active.offset
  room : cfg.framed = false → st.mgr.active.offset ≤ cfg.segmentSize
  prepared_eq : st.mgr.preparedSegment = log.prepared.map fun s => (s.id, s.freshActive cfg)
  active_index : ∀ idx ∈ st.mgr.activeIndex, cfg.framed = false ∧ IndexOf log.active idx
  index_files : ∀ seg ∈ log.segments, ∀ data, st.disk.indexes seg.id = some data →
    ∃ idx, SparseIndex.load data = .ok idx ∧ IndexOf seg idx
  index_none : ∀ id, log.active.id < id → st.disk.indexes id = none

section

variable {C : Crates} {cfg : ShardConfig} {st : ShardState} {log : Log}

structure ActiveSplit (C : Crates) (cfg : ShardConfig) (st : ShardState) (log : Log)
    (front back : List (ℕ × Bytes)) (minTs maxTs : UInt64) (body : Bytes) : Prop where
  closed : List.Forall₂ (SegmentFile C cfg) log.closed front
  prepared : List.Forall₂ (SegmentFile C cfg) log.prepared.toList back
  stored : StoredBody C (log.active.header C cfg minTs maxTs) cfg.encryptionKeys log.active.records
    body
  split : st.disk.segments = front ++ (st.mgr.active.id,
    (log.active.header C cfg minTs maxTs).serialize C log.active.prevHash ++ body) :: back
  offset : st.mgr.active.offset =
    ((log.active.header C cfg minTs maxTs).serialize C log.active.prevHash ++ body).length

theorem Refines.split (h : Refines C cfg st log) :
    ∃ front back minTs maxTs body, ActiveSplit C cfg st log front back minTs maxTs body := by
  obtain ⟨front, rest, hs, hf, hr⟩ := forall₂_append_inv h.files
  obtain ⟨⟨id, data⟩, back, ha, hb, rfl⟩ := forall₂_cons_left_iff.mp hr
  obtain ⟨rfl, minTs, maxTs, body, rfl, hbo⟩ := ha
  refine ⟨front, back, minTs, maxTs, body, hf, hb, hbo, ?_, ?_⟩
  · rw [h.active_id]
    exact hs
  · have ho := h.offset_eq
    rw [get_of_split hs] at ho
    exact (some.inj ho).symm

theorem segmentFile_empty {seg : LogSegment} (he : seg.records = []) (minTs maxTs : UInt64) :
    SegmentFile C cfg seg
      (seg.id, (seg.header C cfg minTs maxTs).serialize C seg.prevHash) := by
  refine ⟨rfl, minTs, maxTs, [], (append_nil _).symm, ?_⟩
  rw [he]
  exact StoredBody.nil _ _ _

theorem indexOf_new (seg : LogSegment) (stride : UInt32) : IndexOf seg (SparseIndex.new stride) :=
  nil_sublist _

theorem refines_fresh (h : ShardState.fresh C cfg = .ok st) : Refines C cfg st Log.fresh := by
  have hh : { firstSegment (cfg.headerHashInit C) 0 0 1 cfg.hashEnabled
      hashAlgoBlake3 with
        flags := layoutFlags cfg.hashEnabled cfg.compressed cfg.encryptionKeys.isSome
        encryptionKeyId := cfg.encryptionKeys.elim 0 KeyRing.activeId } =
      Log.fresh.active.header C cfg 0xFFFFFFFFFFFFFFFF 0 := by
    unfold header
    simp only [Log.fresh, if_true, UInt8.zero_or]
    rfl
  obtain ⟨d, hc, hg, hi⟩ : ∃ d, empty.create 1
      ((Log.fresh.active.header C cfg 0xFFFFFFFFFFFFFFFF 0).serialize C zeros32) = some d ∧
      d.segments = [(1, (Log.fresh.active.header C cfg 0xFFFFFFFFFFFFFFFF 0).serialize C zeros32)] ∧
      d.indexes = fun _ => none :=
    create_of_above _ fun f hf => absurd hf not_mem_nil
  unfold ShardState.fresh SegmentManager.create ActiveSegment.create at h
  simp only [hh, hc, map_some, Except.map, Except.ok.injEq] at h
  subst h
  refine {
    published_eq := rfl
    committed_eq := rfl
    files := ?_
    mgr := ⟨rfl, rfl, rfl, rfl, rfl, rfl, rfl, rfl, rfl, rfl⟩
    active_id := rfl
    activeId_eq := rfl
    base_eq := rfl
    offset_eq := ?_
    room := fun _ => ?_
    prepared_eq := rfl
    active_index := ?_
    index_files := ?_
    index_none := fun id _ => congrFun hi id }
  · rw [hg]
    exact .cons (segmentFile_empty rfl _ _) .nil
  · show (d.get 1).map length = some segmentHeaderSize
    have hs : d.segments = [] ++ (1, _) :: [] := hg
    rw [get_of_split hs, map_some, serialize_length]
  · exact le_trans (show segmentHeaderSize ≤ 1024 * 1024 by decide) cfg.segmentSize_ge
  · intro idx hx
    obtain ⟨old, ho, rfl⟩ := map_eq_some_iff.mp hx
    refine ⟨?_, indexOf_new _ _⟩
    unfold freshIndex at ho
    split_ifs at ho with hr
    exact Bool.eq_false_iff.mpr hr
  · intro seg _ data hd
    rw [hi] at hd
    cases hd

theorem Refines.publish (h : Refines C cfg st log) (ts : UInt64) (content : Bytes) :
    Refines C cfg (st.publish C cfg ts content)
      (log.publish cfg C ts content) :=
  { h with
    published_eq := by
      rw [ShardState.publish, h.published_eq, Log.publish] }

theorem Refines.idle (h : Refines C cfg st log) : Refines C cfg st.drainPendingFsyncs log :=
  { h with mgr := { h.mgr with } }

theorem Refines.write (hC : C.Lawful) (h : Refines C cfg st log) {count k : ℕ} {nonce : Nonce}
    {bf : SegmentManager.BatchFill}
    (hfi : SegmentManager.Filled C st.mgr st.committed (st.batch count)
      (.start st.mgr st.committed) bf k)
    (hk : 0 < k)
    (hf : FrameFits C cfg.compressed cfg.encryptionKeys nonce ((st.batch count).take k)) :
    Refines C cfg
      { st with
        mgr := (st.mgr.writeBatch C st.disk nonce bf).1
        disk := (st.mgr.writeBatch C st.disk nonce bf).2
        committed := bf.next } (log.append k) := by
  obtain ⟨front, back, minTs, maxTs, body, hs⟩ := h.split
  set data := (log.active.header C cfg minTs maxTs).serialize C log.active.prevHash with hda
  set more := (log.published.drop log.committed).take k with hmo
  have ht : (st.batch count).take k = more := by
    rw [ShardState.batch_take hfi.le, h.published_eq, h.committed_eq]
  have hne : more ≠ [] := by
    intro hn
    have hl := congrArg length (ht.trans hn)
    rw [length_take_of_le hfi.le, length_nil] at hl
    omega
  have hb : bf.buf = batchBytes C more := by
    rw [hfi.buf_eq, ht, nil_append]
  have hbe : bf.buf ≠ [] := by
    rw [hb]
    exact batchBytes_ne_nil C hne
  obtain ⟨hm, hsg, hix⟩ :=
    SegmentManager.writeBatch_spec C nonce hbe hs.split hs.offset hfi.active_eq
  rw [ht, ← h.mgr.active_compressed, ← h.mgr.keys_eq] at hf
  have hq := SegmentManager.storedBody_added hC (h.mgr.keys_eq ▸ hs.stored)
    ((header_isCompressed C cfg log.active minTs maxTs).trans h.mgr.active_compressed.symm)
    (h.mgr.keys_eq ▸ header_isEncrypted C cfg log.active minTs maxTs) hne hf
  rw [h.mgr.keys_eq, ← hb] at hq
  rw [h.active_id] at hsg
  generalize st.mgr.writeBatch C st.disk nonce bf = r at hm hsg hix ⊢
  obtain ⟨m, d⟩ := r
  simp only at hm hsg hix ⊢
  subst hm
  exact {
    published_eq := h.published_eq
    committed_eq := by
      show bf.next = log.committed + k
      rw [hfi.next_eq, h.committed_eq]
    files := by
      show List.Forall₂ _ _ d.segments
      rw [hsg]
      refine rel_append hs.closed (.cons ⟨rfl, minTs, maxTs, _, ?_, hq⟩ hs.prepared)
      exact append_assoc _ _ _
    mgr := { h.mgr with
      active_compressed := hfi.active_eq.compressed_eq.trans h.mgr.active_compressed }
    active_id := hfi.active_eq.id_eq.trans h.active_id
    activeId_eq := h.activeId_eq
    base_eq := hfi.active_eq.baseSequence_eq.trans h.base_eq
    offset_eq := by
      show (d.get log.active.id).map length = _
      rw [get_of_split hsg]
      rfl
    room := by
      intro hr
      show (_ ++ st.mgr.addedBytes C nonce bf.buf).length ≤ cfg.segmentSize
      have hrm := hfi.room hk
      have ha : st.mgr.addedBytes C nonce bf.buf = bf.buf := by
        unfold SegmentManager.addedBytes
        rw [h.mgr.active_compressed, h.mgr.keys_eq]
        exact if_neg (Bool.eq_false_iff.mp hr)
      rw [ha, length_append, ← hs.offset, ← h.mgr.segmentSize_eq]
      exact hrm
    prepared_eq := h.prepared_eq
    active_index := by
      intro idx hx
      have hg : IndexGrows st.mgr.activeIndex bf.index _ := hfi.index
      rw [ht, length_nil, add_zero] at hg
      have hr : cfg.framed = false := by
        cases ho : st.mgr.activeIndex with
        | none =>
          rw [ho, show bf.index = some idx from hx] at hg
          exact hg.elim
        | some i => exact (h.active_index i ho).1
      have hbo := hs.stored.eq_batchBytes ((header_framed C cfg log.active minTs maxTs).trans hr)
      rw [hs.offset, length_append, serialize_length, hbo] at hg
      exact ⟨hr, hg.sublist (fun i hi => (h.active_index i hi).2) idx hx⟩
    index_files := by
      intro seg he content hc
      change d.indexes seg.id = some content at hc
      rw [hix] at hc
      rcases Log.mem_segments.mp he with hcl | rfl | hp
      · exact h.index_files seg (Log.mem_segments.mpr (.inl hcl)) content hc
      · obtain ⟨idx, hd, hx⟩ := h.index_files log.active Log.active_mem content hc
        refine ⟨idx, hd, List.Sublist.trans hx ?_⟩
        show (anchors _ _).Sublist (anchors _ (log.active.records ++ more))
        rw [anchors_append C]
        exact sublist_append_left _ _
      · exact h.index_files seg (Log.mem_segments.mpr (.inr (.inr hp))) content hc
    index_none := by
      intro id hid
      show d.indexes id = none
      rw [hix]
      exact h.index_none id hid }

section

variable (h : Refines C cfg st log)
include h

theorem Refines.nextHeader_eq (hj : LogShape C cfg log) (hu : st.mgr.activeId + 1 < 2 ^ 32) :
    st.mgr.nextId = (log.nextSegment cfg).id ∧
      st.mgr.nextHeader st.mgr.nextId (cfg.recordId log.committed) =
        (log.nextSegment cfg).header C cfg 0xFFFFFFFFFFFFFFFF 0 := by
  have hp := hj.active_pos
  have hid : st.mgr.nextId = (log.nextSegment cfg).id := by
    unfold SegmentManager.nextId
    rw [Nat.mod_eq_of_lt hu, h.activeId_eq]
    rfl
  have hne : ¬ (log.nextSegment cfg).id = 1 := by
    show ¬ log.active.id + 1 = 1
    omega
  refine ⟨hid, ?_⟩
  unfold SegmentManager.nextHeader header
  rw [if_neg hne, hid, h.mgr.hashEnabled_eq, h.mgr.compressed_eq, h.mgr.keys_eq, h.mgr.hashInit_eq,
    h.mgr.lastHash_eq]
  rfl

/-- Creating the next segment file succeeds, because its id is above all others. -/
theorem Refines.created (hj : LogShape C cfg log)
    (hp : log.prepared = none) (hu : st.mgr.activeId + 1 < 2 ^ 32) :
    ∃ seg d, ActiveSegment.create C st.disk st.mgr.nextId
        (st.mgr.nextHeader st.mgr.nextId (cfg.recordId log.committed)) st.mgr.lastHash
        st.mgr.compressed = some (seg, d) ∧
      Refines C cfg
        { st with
          mgr := { st.mgr with preparedSegment := some (st.mgr.nextId, seg) }
          disk := d } (log.prepare cfg) := by
  obtain ⟨hid, hh⟩ := h.nextHeader_eq hj hu
  obtain ⟨front, back, minTs, maxTs, body, hs⟩ := h.split
  have ha : ∀ f ∈ st.disk.segments, f.1 < (log.nextSegment cfg).id := by
    intro f hf
    obtain ⟨seg, he, hfl⟩ := exists_of_forall₂ h.files hf
    rw [hfl.1]
    show seg.id < log.active.id + 1
    rcases Log.mem_segments.mp he with hl | rfl | hnn
    · exact (hj.closed_lt seg hl).trans (lt_add_one _)
    · exact lt_add_one _
    · rw [hp] at hnn
      cases hnn
  obtain ⟨d, hcr, hg, hx⟩ := create_of_above
    (((log.nextSegment cfg).header C cfg 0xFFFFFFFFFFFFFFFF 0).serialize C zeros32) ha
  have hs' : d.segments = front ++ (log.active.id,
      (log.active.header C cfg minTs maxTs).serialize C log.active.prevHash ++ body) ::
      [((log.nextSegment cfg).id,
        ((log.nextSegment cfg).header C cfg 0xFFFFFFFFFFFFFFFF 0).serialize C zeros32)] := by
    have hb : back = [] := by
      have hr := hs.prepared
      rw [hp] at hr
      cases hr
      rfl
    rw [hg, hs.split, hb, h.active_id, append_assoc]
    rfl
  refine ⟨(log.nextSegment cfg).freshActive cfg, d, ?_, ?_⟩
  · unfold ActiveSegment.create
    rw [hh, hid, h.mgr.lastHash_eq, hcr, h.mgr.compressed_eq]
    rfl
  · have hr : (log.prepare cfg).prepared = some (log.nextSegment cfg) := by
      unfold Log.prepare
      rw [hp]
      rfl
    exact {
      published_eq := h.published_eq
      committed_eq := h.committed_eq
      files := by
        show List.Forall₂ _ (log.closed ++ log.active :: (log.prepare cfg).prepared.toList) d.segments
        rw [hs', hr]
        refine rel_append hs.closed
          (.cons ⟨rfl, minTs, maxTs, body, rfl, hs.stored⟩ (.cons ?_ .nil))
        exact segmentFile_empty rfl _ _
      mgr := { h.mgr with }
      active_id := h.active_id
      activeId_eq := h.activeId_eq
      base_eq := h.base_eq
      offset_eq := by
        show (d.get log.active.id).map length = _
        rw [get_of_split hs', map_some, hs.offset]
      room := h.room
      prepared_eq := by
        show some (st.mgr.nextId, _) = (log.prepare cfg).prepared.map _
        rw [hr, hid]
        rfl
      active_index := h.active_index
      index_files := by
        intro seg he content hc
        change d.indexes seg.id = some content at hc
        rw [hx] at hc
        rcases Log.mem_segments.mp he with hl | rfl | hn
        · exact h.index_files seg (Log.mem_segments.mpr (.inl hl)) content hc
        · exact h.index_files log.active Log.active_mem content hc
        · rw [hr] at hn
          cases hn
          rw [h.index_none (log.nextSegment cfg).id (lt_add_one _)] at hc
          cases hc
      index_none := by
        intro id hid
        show d.indexes id = none
        rw [hx]
        exact h.index_none id hid }

theorem Refines.backfill :
    Refines C cfg { st with disk := st.mgr.active.backfillHeaderTs C st.disk } log := by
  obtain ⟨front, back, minTs, maxTs, body, hs⟩ := h.split
  have hg := modify_of_split hs.split
    (ActiveSegment.backfill C st.mgr.active.minTs st.mgr.active.maxTs)
  rw [ActiveSegment.backfill_serialize, h.active_id] at hg
  exact {
    h with
    files := by
      show List.Forall₂ _ _ (st.disk.modify st.mgr.active.id _).segments
      rw [h.active_id, hg]
      refine rel_append hs.closed (.cons ⟨rfl, _, _, body, rfl, ?_⟩ hs.prepared)
      exact hs.stored.congr_header rfl
    offset_eq := by
      show ((st.disk.modify st.mgr.active.id _).get log.active.id).map length = _
      rw [h.active_id, get_of_split hg, hs.offset]
      simp only [map_some, length_append, serialize_length] }

theorem Refines.saveIndex (hj : LogShape C cfg log) :
    Refines C cfg { st with disk := st.mgr.saveActiveIndex st.disk } log := by
  cases hx : st.mgr.activeIndex with
  | none =>
    unfold SegmentManager.saveActiveIndex
    rw [hx]
    exact h
  | some idx =>
    obtain ⟨hr, hi⟩ := h.active_index idx hx
    obtain ⟨front, back, minTs, maxTs, body, hs⟩ := h.split
    have hb := hs.stored.eq_batchBytes ((header_framed C cfg log.active minTs maxTs).trans hr)
    have hl : SparseIndex.load idx.save = .ok idx := by
      apply SparseIndex.load_save
      intro e he
      have hlt := anchor_lt (C := C) (hi.subset he)
      have ho := hs.offset
      have hm := h.room hr
      have hz := cfg.segmentSize_lt
      rw [length_append, serialize_length, hb] at ho
      omega
    unfold SegmentManager.saveActiveIndex
    rw [hx]
    simp only
    split_ifs
    · exact h
    · exact {
        h with
        index_files := by
          intro seg hg content hc
          change (if seg.id = st.mgr.active.id then some idx.save else st.disk.indexes seg.id) = _
            at hc
          split_ifs at hc with heq
          · cases hc
            rw [hj.eq_active hg (heq.trans h.active_id)]
            exact ⟨idx, hl, hi⟩
          · exact h.index_files seg hg content hc
        index_none := by
          intro id hid
          show (if id = st.mgr.active.id then some idx.save else st.disk.indexes id) = none
          rw [h.active_id, if_neg hid.ne']
          exact h.index_none id hid }

end

theorem Refines.swap (h : Refines C cfg st log) (hj : LogShape C cfg log) {seg : LogSegment}
    (hp : log.prepared = some seg) :
    Refines C cfg { st with mgr := st.mgr.swapActive seg.id (seg.freshActive cfg) }
      (log.roll cfg fun _ => true) := by
  obtain ⟨hid, hrc⟩ := hj.prepared_eq seg hp
  have ha : (log.roll cfg fun _ => true).active = seg := by
    unfold Log.roll
    rw [hp]
    rfl
  have hc : (log.roll cfg fun _ => true).closed = log.closed ++ [log.active] :=
    filter_eq_self.mpr fun _ _ => rfl
  have hss : (log.roll cfg fun _ => true).segments = log.segments := by
    unfold Log.segments
    rw [ha, hc, hp, append_assoc]
    rfl
  obtain ⟨front, back, minTs, maxTs, body, hs⟩ := h.split
  have ho : (st.disk.get seg.id).map length = some segmentHeaderSize := by
    have hb := hs.prepared
    rw [hp] at hb
    obtain ⟨f, fs, ⟨hf, minTs', maxTs', rest, hl, ht⟩, hn, rfl⟩ := forall₂_cons_left_iff.mp hb
    cases hn
    have hg := hs.split
    rw [append_cons, show f = (seg.id, f.2) from Prod.ext hf rfl] at hg
    rw [get_of_split hg, hl, ht.eq_nil hrc, append_nil, map_some, serialize_length]
  exact {
    published_eq := h.published_eq
    committed_eq := h.committed_eq
    files := by
      rw [hss]
      exact h.files
    mgr := { h.mgr with active_compressed := rfl }
    active_id := by
      rw [ha]
      rfl
    activeId_eq := by
      rw [ha]
      rfl
    base_eq := by
      rw [ha]
      rfl
    offset_eq := by
      rw [ha]
      exact ho
    room := fun _ => le_trans (show segmentHeaderSize ≤ 1024 * 1024 by decide) cfg.segmentSize_ge
    prepared_eq := rfl
    active_index := by
      intro idx hx
      change idx ∈ freshIndex st.mgr.compressed st.mgr.encryptionKeys at hx
      rw [h.mgr.compressed_eq, h.mgr.keys_eq] at hx
      unfold freshIndex at hx
      split_ifs at hx with hr
      · cases hx
      · cases hx
        exact ⟨Bool.eq_false_iff.mpr hr, indexOf_new _ _⟩
    index_files := by
      rw [hss]
      exact h.index_files
    index_none := by
      intro id hlt
      rw [ha, hid] at hlt
      exact h.index_none id (by omega) }

theorem Refines.cleanup (h : Refines C cfg st log) {d : Disk}
    (hd : Disk.Deletes st.mgr.activeId st.disk d) (hp : log.prepared = none) :
    ∃ keep : ℕ → Bool, Refines C cfg { st with disk := d }
      { log with closed := log.closed.filter fun s => keep s.id } := by
  obtain ⟨hx, keep, hk, hg⟩ := hd
  obtain ⟨front, back, minTs, maxTs, body, hs⟩ := h.split
  have hb := hs.prepared
  rw [hp] at hb
  cases hb
  have ha : keep log.active.id = true := hk _ h.activeId_eq.le
  have hs' : d.segments = front.filter (fun f => keep f.1) ++ (log.active.id,
      (log.active.header C cfg minTs maxTs).serialize C log.active.prevHash ++ body) :: [] := by
    rw [hg, hs.split, filter_append, h.active_id]
    simp only [filter_cons, ha, if_true, filter_nil]
  refine ⟨keep, {
    h with
    files := ?_
    offset_eq := ?_
    index_files := ?_
    index_none := ?_ }⟩
  · show List.Forall₂ _ (log.closed.filter (fun s => keep s.id) ++ log.active :: log.prepared.toList)
      d.segments
    rw [hs', hp]
    refine rel_append (rel_filter ?_ hs.closed)
      (.cons ⟨rfl, minTs, maxTs, body, rfl, hs.stored⟩ .nil)
    intro seg f hf
    show keep seg.id = true ↔ keep f.1 = true
    rw [hf.1]
  · show (d.get log.active.id).map length = _
    rw [get_of_split hs', map_some, hs.offset]
  · intro seg he content hc
    change d.indexes seg.id = some content at hc
    rw [hx] at hc
    refine h.index_files seg ?_ content hc
    rcases Log.mem_segments.mp he with hl | hr
    · exact Log.mem_segments.mpr (.inl (mem_filter.mp hl).1)
    · exact Log.mem_segments.mpr (.inr hr)
  · intro id hid
    show d.indexes id = none
    rw [hx]
    exact h.index_none id hid

private theorem roll_prepare (keep : ℕ → Bool) :
    (log.prepare cfg).roll cfg keep = log.roll cfg keep := by
  unfold Log.roll Log.prepare
  cases log.prepared <;> rfl

theorem Refines.rolled (h : Refines C cfg st (log.roll cfg fun _ => true)) (cp : UInt64)
    (env : SegmentManager.RollEnv) :
    ∃ keep : ℕ → Bool, Refines C cfg { st with disk := st.mgr.rollCleanup C st.disk cp env }
        (log.roll cfg keep) ∧
      (cfg.retention = .keepAll ∧ cp = 0 → ∀ id, keep id = true) := by
  by_cases hp : cfg.retention = .keepAll ∧ cp = 0
  · obtain ⟨hr, rfl⟩ := hp
    refine ⟨fun _ => true, ?_, fun _ _ => rfl⟩
    rw [SegmentManager.rollCleanup_keepAll _ _ (h.mgr.retention_eq.trans hr)]
    exact h
  · obtain ⟨keep, he⟩ := h.cleanup (SegmentManager.rollCleanup_deletes _ cp env) rfl
    refine ⟨keep, ?_, fun hk => absurd hk hp⟩
    simpa only [Log.roll, filter_true] using he

section

variable (h : Refines C cfg st log) (hj : LogShape C cfg log)
  (hu : st.mgr.activeId + 1 < 2 ^ 32)
include h hj hu

/-- A roll up to its deletions is a roll of the log that keeps everything. -/
theorem Refines.rollSwap :
    ∃ m d, st.mgr.rollSwap C st.disk (cfg.recordId st.committed) = some (m, d) ∧
      Refines C cfg { st with mgr := m, disk := d } (log.roll cfg fun _ => true) := by
  have hs := h.backfill.saveIndex hj
  unfold SegmentManager.rollSwap
  cases hp : log.prepared with
  | some seg =>
    have hr : st.mgr.preparedSegment = some (seg.id, seg.freshActive cfg) := by
      rw [h.prepared_eq, hp]
      rfl
    simp only [hr]
    exact ⟨_, _, rfl, hs.swap hj hp⟩
  | none =>
    have hr : st.mgr.preparedSegment = none := by
      rw [h.prepared_eq, hp]
      rfl
    obtain ⟨seg, d, hcr, hc⟩ := hs.created hj hp hu
    have hb : cfg.recordId st.committed = cfg.recordId log.committed := by rw [h.committed_eq]
    simp only [hr, hb, hcr]
    have hn : (log.prepare cfg).prepared = some (log.nextSegment cfg) := by
      unfold Log.prepare
      rw [hp]
      rfl
    obtain ⟨hid, rfl⟩ : st.mgr.nextId = (log.nextSegment cfg).id ∧
        seg = (log.nextSegment cfg).freshActive cfg := by
      have heq := hc.prepared_eq
      rw [hn] at heq
      exact Prod.mk.inj (some.inj heq)
    have ho := hc.swap (hj.prepare (h.activeId_eq ▸ hu)) hn
    rw [roll_prepare, ← hid] at ho
    exact ⟨_, _, rfl, ho⟩

end

end

end LogDb.Pipeline
