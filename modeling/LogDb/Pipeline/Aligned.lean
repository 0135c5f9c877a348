import LogDb.Pipeline.Recover
import LogDb.Pipeline.ShardScan
import LogDb.Pipeline.ChainLink

/-!
Runs after which recovery changes nothing. The next segment is prepared early and announces the id
of the record that was next then; more records may still go to the active segment. With one shard
recovery insists on the announced id, so a run must only start a segment with that record.
-/

namespace LogDb.Pipeline

open Lib Format Storage Recovery List Option Log

/-- A batch that is written to an empty segment begins with the id that its header announces; this
only matters to a single shard. With the hash chain on, batches go to the first segment. -/
def ShardEvent.Aligned (cfg : ShardConfig) (st : ShardState) : ShardEvent → Prop
  | commit _ _ _ _ => st.NextFits →
    (cfg.shardBits = 0 → st.mgr.active.offset = segmentHeaderSize →
      st.mgr.active.baseSequence = cfg.recordId st.committed) ∧
    (cfg.hashEnabled = true → st.mgr.activeId = 1)
  | _ => True

def Log.Aligned (cfg : ShardConfig) (log : Log) : Prop :=
  (cfg.shardBits = 0 → log.active.records = [] → log.active.base = cfg.recordId log.committed) ∧
    (cfg.hashEnabled = true → log.active.id = 1)

/-- The first record of a segment is the one that its header announces. -/
def LogSegment.Based (seg : LogSegment) : Prop :=
  ∀ v ∈ seg.records.head?, seg.base = v.recordId

section

variable {C : Crates} {cfg : ShardConfig} {st : ShardState} {log log' : Log} {guard : Log → Prop}
  {keepAll : Prop} {seg : LogSegment}

theorem Refines.aligned (h : Refines C cfg st log) {count : ℕ} {nonce : Nonce} {cp : UInt64}
    {env : SegmentManager.RollEnv} (ht : st.NextFits)
    (ha : (ShardEvent.commit count nonce cp env).Aligned cfg st) : log.Aligned cfg := by
  obtain ⟨hba, hf⟩ := ha ht
  constructor
  · intro hb he
    obtain ⟨front, back, minTs, maxTs, body, hs⟩ := h.split
    have ho : st.mgr.active.offset = segmentHeaderSize := by
      rw [hs.offset, hs.stored.eq_nil he, append_nil, SegmentHeader.serialize_length]
    rw [← h.base_eq, hba hb ho, h.committed_eq]
  · intro hh
    rw [← h.activeId_eq]
    exact hf hh

theorem LogSegment.based_of_nil (h : seg.records = []) : seg.Based := by
  intro v hv
  rw [h] at hv
  cases hv

theorem LogShape.based_append (hs : LogShape C cfg log) (h : log.active.Based)
    (hb : log.active.records = [] → log.active.base = cfg.recordId log.committed) {k : ℕ}
    (hk : 0 < k) (hle : log.committed + k ≤ log.published.length) :
    (log.append k).active.Based := by
  intro v hv
  by_cases he : log.active.records = []
  · -- the first record of the segment is the next one to commit
    have hlt : log.committed < log.published.length := by omega
    obtain ⟨n, rfl⟩ := Nat.exists_eq_succ_of_ne_zero hk.ne'
    simp only [Log.append, he, nil_append] at hv
    rw [drop_eq_getElem_cons hlt, take_succ_cons] at hv
    cases hv
    rw [hs.recordId_eq hlt]
    exact hb he
  · have hh : (log.append k).active.records.head? = log.active.records.head? :=
      head?_append_of_ne_nil _ he
    rw [hh] at hv
    exact h v hv

theorem based_step (hs : LogShape C cfg log) (h : ∀ s ∈ log.segments, s.Based)
    (hg : guard log → log.active.records = [] → log.active.base = cfg.recordId log.committed)
    (hp : LogStep C cfg guard keepAll log log') : ∀ s ∈ log'.segments, s.Based := by
  obtain ⟨-, -, hn⟩ := hs.prepared_getD
  cases hp with
  | publish timestampNs content _ _ => exact h
  | append k hk hle hok =>
    exact forall_append h (hs.based_append (h _ active_mem) (hg hok) hk hle)
  | prepare _ _ => exact forall_prepare h (LogSegment.based_of_nil hn)
  | roll keep _ _ => exact forall_roll h (LogSegment.based_of_nil hn)

theorem LogOrder.idsFollow (ho : LogOrder cfg log) (hs : LogShape C cfg log)
    (hg : seg ∈ log.segments) (hb : cfg.shardBits = 0 → seg.Based) {expected : Option UInt64}
    (he : expected = none ∧ 0 < cfg.shardBits ∨ expected = some seg.base ∧ ¬ 0 < cfg.shardBits) :
    IdsFollow (idStride cfg.shardBits) expected (seg.records.map ReadView.toRecord) := by
  obtain ⟨i, k, hk, hsn⟩ := ho.spans seg hg
  have hle := hs.committed_le
  have hi := hs.idsFollow (i := i) (k := k) (by omega)
  rw [← hsn] at hi
  cases hr : seg.records with
  | nil => trivial
  | cons v vs =>
    rw [hr] at hi
    apply hi.of_some
    rcases he with ⟨hn, -⟩ | ⟨hse, ht⟩
    · exact .inl hn
    · right
      have hz : cfg.shardBits = 0 := by
        by_contra hne
        exact ht (UInt32.pos_iff_ne_zero.mpr hne)
      have hf : some (cfg.recordId i) = some v.recordId := hi.1.resolve_left (by simp)
      rw [hse, hb hz v (by rw [hr]; rfl), hf]

/-- The invariants of a log that is written in alignment. -/
structure AlignedLog (C : Crates) (cfg : ShardConfig) (log : Log) : Prop where
  shape : LogShape C cfg log
  order : LogOrder cfg log
  based : cfg.shardBits = 0 → ∀ s ∈ log.segments, s.Based
  first : cfg.hashEnabled = true → FirstOnly log

theorem alignedLog_of_reachable (h : LogReachable C cfg (Log.Aligned cfg) keepAll log) :
    AlignedLog C cfg log where
  shape := .of_reachable h
  order := .of_reachable h
  based ht := by
    refine invariant_of_reached h (fun s hs => ?_) fun a b hr hb hp =>
      based_step (.of_reachable hr) hb (fun hl => hl.1 ht) hp
    rw [mem_singleton.mp hs]
    exact LogSegment.based_of_nil rfl
  first hh := .of_reachable (fun _ hl => hl.2 hh) h

/-- With the chain on, a last segment with records is the only segment. -/
theorem FirstOnly.front_eq_nil (h : FirstOnly log) (hs : LogShape C cfg log)
    {front : List LogSegment} (hl : log.segments = front ++ [seg]) (hne : seg.records ≠ []) :
    front = [] ∧ seg.id = 1 := by
  have he : seg ∈ log.segments := by
    rw [hl]
    exact mem_append_right _ mem_cons_self
  have hid : seg.id = 1 := by
    by_contra hid
    exact hne (h.empty seg he hid)
  refine ⟨?_, hid⟩
  have hp := hs.active_pos
  unfold segments at hl
  cases hr : log.prepared with
  | some p =>
    rw [hr, toList_some, append_cons] at hl
    obtain ⟨-, hls⟩ := append_inj' hl rfl
    cases hls
    have hn := (hs.prepared_eq seg hr).1
    omega
  | none =>
    rw [hr, toList_none] at hl
    obtain ⟨hc, hls⟩ := append_inj' hl rfl
    cases hls
    rw [← hc]
    exact h.closed_nil hid

end

end LogDb.Pipeline
