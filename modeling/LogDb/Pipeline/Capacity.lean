import LogDb.Storage.Persist
import LogDb.Pipeline.Committer

/-!
How many segment files a shard needs. When every record fits into an empty segment, a segment is
only left behind with a record in it, so the committer rolls at most once at each position.
-/

namespace LogDb.Storage

open Lib Format

theorem Disk.modify_ids (d : Disk) (id : ℕ) (change : Bytes → Bytes) :
    (d.modify id change).segments.map Prod.fst = d.segments.map Prod.fst := by
  unfold modify
  rw [List.map_map]
  refine List.map_congr_left fun f _ => ?_
  by_cases hf : f.1 = id <;> simp [hf]

theorem ActiveSegment.create_of_above (C : Crates) (d : Disk) (id : ℕ) (header : SegmentHeader)
    (lastHash : Bytes32) (compressed : Bool) (ha : ∀ f ∈ d.segments, f.1 < id) :
    ∃ seg d' data, ActiveSegment.create C d id header lastHash compressed = some (seg, d') ∧
      seg.offset = segmentHeaderSize ∧ d'.segments = d.segments ++ [(id, data)] := by
  obtain ⟨d', hc, hs, -⟩ := Disk.create_of_above (header.serialize C lastHash) ha
  unfold create
  rw [hc]
  exact ⟨_, d', _, rfl, rfl, hs⟩

namespace SegmentManager

variable {C : Crates} {m : SegmentManager} {d : Disk}

theorem writeBatch_frame (nonce : Nonce) (st : BatchFill) :
    (∃ active index count, (m.writeBatch C d nonce st).1 =
      { m with active := active, activeIndex := index, activeIndexCount := count }) ∧
    (m.writeBatch C d nonce st).2.segments.map Prod.fst = d.segments.map Prod.fst := by
  unfold writeBatch Disk.pwrite
  simp only
  split_ifs
  · exact ⟨⟨_, _, _, rfl⟩, rfl⟩
  · refine ⟨⟨_, _, _, rfl⟩, ?_⟩
    rw [Disk.modify_ids, Disk.modify_ids]
  · exact ⟨⟨_, _, _, rfl⟩, Disk.modify_ids ..⟩

section

variable (hb : m.activeId + 1 < 2 ^ 32)
  (hj : m.preparedSegment = none → ∀ f ∈ d.segments, f.1 ≤ m.activeId)
include hb hj

theorem maybePrepareNext_spec (next : ℕ) : m.maybePrepareNext C d next = (.ok (), m, d) ∨
      m.preparedSegment = none ∧ ∃ seg d' data, seg.offset = segmentHeaderSize ∧
        d'.segments = d.segments ++ [(m.activeId + 1, data)] ∧
        m.maybePrepareNext C d next =
          (.ok (), { m with preparedSegment := some (m.activeId + 1, seg) }, d') := by
  have hid : m.nextId = m.activeId + 1 := Nat.mod_eq_of_lt hb
  unfold maybePrepareNext
  split_ifs with hp hr
  · exact .inl rfl
  · exact .inl rfl
  · have hn : m.preparedSegment = none := by simpa using hp
    obtain ⟨seg, d', data, hc, ho, hs⟩ := ActiveSegment.create_of_above C d
      (m.activeId + 1) (m.nextHeader (m.activeId + 1) (encodeRecordId m.shardId next m.shardBits))
      m.lastHash m.compressed fun f hf => Nat.lt_succ_of_le (hj hn f hf)
    refine .inr ⟨hn, seg, d', data, ho, hs, ?_⟩
    simp only [hid, hc]

/-- A roll goes on to an empty segment; it needs a new file when none was prepared. -/
theorem rollSwap_spec
    (hr : ∀ p ∈ m.preparedSegment, p.1 = m.activeId + 1 ∧ p.2.offset = segmentHeaderSize)
    (base : UInt64) :
    ∃ seg d', m.rollSwap C d base = some (m.swapActive (m.activeId + 1) seg, d') ∧
      seg.offset = segmentHeaderSize ∧
      (∀ f ∈ d'.segments, f.1 = m.activeId + 1 ∨ f.1 ∈ d.segments.map Prod.fst) ∧
      d'.segments.length ≤ d.segments.length + if m.preparedSegment.isSome then 0 else 1 := by
  have hid : m.nextId = m.activeId + 1 := Nat.mod_eq_of_lt hb
  set saved := m.saveActiveIndex (m.active.backfillHeaderTs C d) with hs
  have hi : saved.segments.map Prod.fst = d.segments.map Prod.fst := by
    rw [hs, saveActiveIndex_segments]
    exact Disk.modify_ids ..
  have hl : saved.segments.length = d.segments.length := by
    simpa using congrArg List.length hi
  have hm : ∀ f ∈ saved.segments, f.1 ∈ d.segments.map Prod.fst := by
    intro f hf
    rw [← hi]
    exact List.mem_map_of_mem hf
  unfold rollSwap
  cases hp : m.preparedSegment with
  | some p =>
    obtain ⟨hn, ho⟩ := hr p hp
    refine ⟨p.2, saved, ?_, ho, fun f hf => .inr (hm f hf), hl.le⟩
    rw [← hn]
  | none =>
    have ha : ∀ f ∈ saved.segments, f.1 < m.activeId + 1 := by
      intro f hf
      obtain ⟨g, hg, hgf⟩ := List.mem_map.mp (hm f hf)
      rw [← hgf]
      exact Nat.lt_succ_of_le (hj hp g hg)
    obtain ⟨seg, d', data, hc, ho, hsg⟩ := ActiveSegment.create_of_above C saved
      (m.activeId + 1) (m.nextHeader (m.activeId + 1) base) m.lastHash m.compressed ha
    refine ⟨seg, d', ?_, ho, ?_, ?_⟩
    · simp only [← hs, hid, hc, Option.map_some]
    · intro f hf
      rw [hsg] at hf
      rcases List.mem_append.mp hf with hd | hn
      · exact .inr (hm f hd)
      · rw [List.mem_singleton.mp hn]
        exact .inl rfl
    · simp [hsg, hl]

end

/-- A batch is refused as a whole exactly when its first record does not fit. -/
theorem appendBatch_full_iff (nonce : Nonce) (first : ℕ) (v : ReadView) (vs : List ReadView) :
    (m.appendBatch C d nonce first (v :: vs)).1 = .error .full ↔
      m.segmentSize < m.active.offset + recordSize v.content.length := by
  have ht : m.Fits (v :: vs) ↔ m.active.offset + recordSize v.content.length ≤ m.segmentSize := by
    simp [Fits, ActiveSegment.hasRoom]
  rw [← not_le, ← ht]
  constructor
  · intro hf
    cases hi : fill C m first (v :: vs)
      (.start m first) with
    | error e => exact not_fits_of_fill hi
    | ok st =>
      -- a filled batch can only fail to prepare the next segment
      exfalso
      unfold appendBatch maybePrepareNext at hf
      rw [hi] at hf
      simp only at hf
      split_ifs at hf
      · cases hf
      · cases hf
      · split at hf <;> cases hf
  · intro hn
    unfold appendBatch
    rw [fill_of_not_fits hn first]

end SegmentManager

end LogDb.Storage

namespace LogDb.Pipeline

open Lib Format Storage

def ShardConfig.HoldsOne (cfg : ShardConfig) (content : Bytes) : Prop :=
  segmentHeaderSize + recordSize content.length ≤ cfg.segmentSize

structure Capacity (cfg : ShardConfig) (st : ShardState) : Prop where
  segmentSize_eq : st.mgr.segmentSize = cfg.segmentSize
  contents : ∀ v ∈ st.published, cfg.HoldsOne v.content
  prepared : ∀ p ∈ st.mgr.preparedSegment,
    p.1 = st.mgr.activeId + 1 ∧ p.2.offset = segmentHeaderSize
  top : ∀ f ∈ st.disk.segments,
    f.1 ≤ st.mgr.activeId + if st.mgr.preparedSegment.isSome then 1 else 0
  files : st.disk.segments.length ≤ st.committed +
    (if st.mgr.active.offset = segmentHeaderSize then 1 else 0) +
      if st.mgr.preparedSegment.isSome then 1 else 0

section

variable {C : Crates} {cfg : ShardConfig} {st : ShardState} {count : ℕ}

theorem Capacity.offset_ne (h : Capacity cfg st) (hf : ¬ st.mgr.Fits (st.batch count)) :
    st.mgr.active.offset ≠ segmentHeaderSize := by
  intro ha
  refine hf fun v hv => ?_
  have hm : v ∈ st.published := by
    have hv' : v ∈ st.batch count := List.mem_of_mem_head? hv
    exact List.mem_of_mem_drop (List.mem_of_mem_take hv')
  have ho := h.contents v hm
  unfold ShardConfig.HoldsOne at ho
  simp only [ActiveSegment.hasRoom, decide_eq_true_eq]
  rw [h.segmentSize_eq, ha]
  exact ho

theorem Capacity.commit_full (h : Capacity cfg st) (hb : st.mgr.activeId + 1 < 2 ^ 32)
    (nonce : Nonce) (cp : UInt64) (env : SegmentManager.RollEnv)
    (ht : ¬ st.mgr.Fits (st.batch count)) :
    Capacity cfg (st.commitBatch C cfg count nonce cp env) ∧
      (st.commitBatch C cfg count nonce cp env).committed = st.committed ∧
      (st.commitBatch C cfg count nonce cp env).mgr.activeId = st.mgr.activeId + 1 ∧
      (st.commitBatch C cfg count nonce cp env).mgr.active.offset = segmentHeaderSize := by
  have hj : st.mgr.preparedSegment = none → ∀ f ∈ st.disk.segments, f.1 ≤ st.mgr.activeId := by
    intro hnn f hf
    simpa [hnn] using h.top f hf
  obtain ⟨seg, d, hw, ho, hi, hl⟩ := SegmentManager.rollSwap_spec (C := C) hb hj
    h.prepared (cfg.recordId st.committed)
  set m := st.mgr.swapActive (st.mgr.activeId + 1) seg with hm
  have hc : st.commitBatch C cfg count nonce cp env =
      { st with mgr := m, disk := m.rollCleanup C d cp env } := by
    unfold ShardState.commitBatch SegmentManager.appendBatch
    rw [SegmentManager.fill_of_not_fits ht]
    simp only [SegmentManager.roll_of_swap hw]
  have hd := SegmentManager.rollCleanup_deletes (C := C) (m := m) d cp env
  have hr : (m.rollCleanup C d cp env).segments.length ≤ d.segments.length := by
    obtain ⟨-, keep, -, hsg⟩ := hd
    rw [hsg]
    exact List.length_filter_le _ _
  have hne := h.offset_ne ht
  rw [hc]
  refine ⟨⟨h.segmentSize_eq, h.contents, nofun, ?_, ?_⟩, rfl, rfl, ho⟩
  · intro f hf
    change f.1 ≤ st.mgr.activeId + 1 + 0
    rcases hi f (hd.mem hf) with hn | ha
    · exact hn.le
    · obtain ⟨g, hg, hgf⟩ := List.mem_map.mp ha
      have := h.top g hg
      rw [← hgf]
      split_ifs at this <;> omega
  · have hs := h.files
    rw [if_neg hne] at hs
    change (m.rollCleanup C d cp env).segments.length ≤
      st.committed + (if seg.offset = _ then 1 else 0) + 0
    rw [if_pos ho]
    split_ifs at hs hl <;> omega

theorem Capacity.commit_fits (h : Capacity cfg st) (hc : 0 < count)
    (hle : st.committed + count ≤ st.published.length) (hb : st.mgr.activeId + 1 < 2 ^ 32)
    (nonce : Nonce) (cp : UInt64) (env : SegmentManager.RollEnv)
    (hft : st.mgr.Fits (st.batch count)) :
    Capacity cfg (st.commitBatch C cfg count nonce cp env) ∧
      st.committed < (st.commitBatch C cfg count nonce cp env).committed ∧
      (st.commitBatch C cfg count nonce cp env).mgr.activeId = st.mgr.activeId := by
  have hne : st.batch count ≠ [] := by
    intro hq
    have hl := ShardState.batch_length hle
    rw [hq, List.length_nil] at hl
    omega
  obtain ⟨bf, hfi⟩ : ∃ bf, SegmentManager.fill C st.mgr st.committed (st.batch count)
      (.start st.mgr st.committed) = .ok bf := by
    cases hfi : SegmentManager.fill C st.mgr st.committed (st.batch count)
      (.start st.mgr st.committed) with
    | error e => exact absurd hft (SegmentManager.not_fits_of_fill hfi)
    | ok bf => exact ⟨bf, rfl⟩
  obtain ⟨k, hd, hu⟩ := SegmentManager.fill_spec hfi rfl
  have hk := hu rfl hne
  obtain ⟨⟨active, index, indexCount, hm⟩, hi⟩ :=
    SegmentManager.writeBatch_frame (C := C) (m := st.mgr) (d := st.disk) nonce bf
  set w := st.mgr.writeBatch C st.disk nonce bf with hw
  have hln : w.2.segments.length = st.disk.segments.length := by
    simpa using congrArg List.length hi
  have hj : ∀ f ∈ w.2.segments,
      f.1 ≤ st.mgr.activeId + if st.mgr.preparedSegment.isSome then 1 else 0 := by
    intro f hf
    have he : f.1 ∈ st.disk.segments.map Prod.fst := hi ▸ List.mem_map_of_mem hf
    obtain ⟨g, hg, hgf⟩ := List.mem_map.mp he
    rw [← hgf]
    exact h.top g hg
  have hs := h.files
  have hcs := SegmentManager.maybePrepareNext_spec (C := C) (m := w.1) (d := w.2)
    (by rw [hm]; exact hb)
    (by
      rw [hm]
      intro hnn f hf
      have hn' : st.mgr.preparedSegment = none := hnn
      simpa [hn'] using hj f hf) bf.next
  rcases hcs with hsm | ⟨hnn, seg, d, data, ha, hsg, hr⟩
  · have ht : st.commitBatch C cfg count nonce cp env =
        { st with mgr := w.1, disk := w.2, committed := bf.next } := by
      unfold ShardState.commitBatch SegmentManager.appendBatch
      rw [hfi]
      simp only [← hw, hsm]
      rfl
    rw [ht, hm, hd.next_eq]
    refine ⟨⟨h.segmentSize_eq, h.contents, h.prepared, hj, ?_⟩, Nat.lt_add_of_pos_right hk, rfl⟩
    change w.2.segments.length ≤ st.committed + k + (if active.offset = _ then 1 else 0) +
      if st.mgr.preparedSegment.isSome then 1 else 0
    split_ifs at hs ⊢ <;> omega
  · have hn' : st.mgr.preparedSegment = none := by
      rw [hm] at hnn
      exact hnn
    have ht : st.commitBatch C cfg count nonce cp env =
        { st with
          mgr := { w.1 with preparedSegment := some (w.1.activeId + 1, seg) }
          disk := d
          committed := bf.next } := by
      unfold ShardState.commitBatch SegmentManager.appendBatch
      rw [hfi]
      simp only [← hw, hr]
      rfl
    rw [ht, hd.next_eq]
    rw [hm] at hsg ⊢
    refine ⟨⟨h.segmentSize_eq, h.contents, ?_, ?_, ?_⟩, Nat.lt_add_of_pos_right hk, rfl⟩
    · rintro p hp
      cases hp
      exact ⟨rfl, ha⟩
    · intro f hf
      change f.1 ≤ st.mgr.activeId + 1
      rw [hsg] at hf
      rcases List.mem_append.mp hf with ho | hn
      · have := hj f ho
        split_ifs at this <;> omega
      · rw [List.mem_singleton.mp hn]
    · change d.segments.length ≤ st.committed + k + (if active.offset = _ then 1 else 0) + 1
      rw [hsg, List.length_append, List.length_singleton, hln]
      simp only [hn', Option.isSome_none, Bool.false_eq_true, if_false] at hs
      split_ifs at hs ⊢ <;> omega

end

end LogDb.Pipeline
