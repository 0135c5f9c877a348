import LogDb.Pipeline.Separated
import LogDb.Pipeline.ShardScan

/-!
Truncation at the checkpoint. Which segments may go is read off the header behind each of them, so
it is safe as long as the bases separate the segments.
-/

namespace LogDb.Pipeline

open Lib Format Storage List

/-- A shard together with `checkpoint_sequence`. -/
structure CheckpointState where
  shard : ShardState
  checkpoint : UInt64

open CheckpointState

/-- `LogDb::checkpoint`: the sequence only grows. -/
def CheckpointState.raise (s : CheckpointState) (sequence : UInt64) : CheckpointState :=
  { s with checkpoint := if s.checkpoint < sequence then sequence else s.checkpoint }

/-- The Committer loads the checkpoint when it rolls. -/
def ShardEvent.Loads (checkpoint : UInt64) : ShardEvent → Prop
  | commit _ _ loaded _ => loaded = checkpoint
  | _ => True

inductive CheckpointStep (C : Crates) (cfg : ShardConfig) (ok : ShardState → ShardEvent → Prop) :
    CheckpointState → CheckpointState → Prop where
  | shard (s : CheckpointState) (ev : ShardEvent) (henabled : ev.Enabled cfg s.shard)
      (hok : ok s.shard ev) (hloads : ev.Loads s.checkpoint) :
      CheckpointStep C cfg ok s { s with shard := ev.apply C cfg s.shard }
  | checkpoint (s : CheckpointState) (sequence : UInt64) :
      CheckpointStep C cfg ok s (s.raise sequence)

section

variable (C : Crates) (cfg : ShardConfig)

/-- The states that a fresh shard reaches, whatever checkpoint was loaded when it was opened. -/
def CheckpointReachable (ok : ShardState → ShardEvent → Prop)
    (s : CheckpointState) : Prop :=
  ∃ st₀ loaded, ShardState.fresh C cfg = .ok st₀ ∧
    Relation.ReflTransGen (CheckpointStep C cfg ok) ⟨st₀, loaded⟩ s

/-- The step is in range, every frame fits, and no batch passes by a prepared segment. -/
def SeparatedStep (st : ShardState) (ev : ShardEvent) : Prop :=
  ev.Bounded cfg st ∧ ev.FramesFit C cfg st ∧ ev.Unprepared st

/-- Every committed record from the checkpoint on is in some file. -/
def CheckpointState.Kept (s : CheckpointState) : Prop :=
  ∀ i < s.shard.committed, s.checkpoint ≤ cfg.recordId i →
    ∃ v, s.shard.published[i]? = some v ∧ v.toRecord ∈ diskRecords C cfg.encryptionKeys s.shard.disk

end

section

variable {C : Crates} {cfg : ShardConfig} {ok : ShardState → ShardEvent → Prop}
  {s s' : CheckpointState} {st : ShardState} {log : Log}

theorem CheckpointReachable.shard (h : CheckpointReachable C cfg ok s) :
    ShardReachable C cfg ok s.shard := by
  obtain ⟨st₀, loaded, hf, hr⟩ := h
  refine ⟨st₀, hf, ?_⟩
  induction hr with
  | refl => exact .refl
  | tail _ hs ih =>
    cases hs with
    | shard ev he hok _ => exact ih.tail ⟨ev, he, hok, rfl⟩
    | checkpoint sequence => exact ih

theorem exists_unprepared (hC : C.Lawful) (h : ShardReachable C cfg (SeparatedStep C cfg) st) :
    ∃ log, Refines C cfg st log ∧ LogReachable C cfg (fun l => l.prepared = none) False log :=
  refines_of_reachable _ _ hC (fun _ _ hok => ⟨hok.1, hok.2.1⟩)
    (fun _ _ hs _ _ _ _ _ hok ht => hs.unprepared hok.2.2 ht) (fun hf => hf.elim) h

theorem exists_separated (hC : C.Lawful) (h : ShardReachable C cfg (SeparatedStep C cfg) st) :
    ∃ log, Refines C cfg st log ∧ LogShape C cfg log ∧ LogOrder cfg log ∧ LogSeparated log := by
  obtain ⟨log, hr, hh⟩ := exists_unprepared hC h
  exact ⟨log, hr, .of_reachable hh, .of_reachable hh, .of_reachable (fun _ hl => hl) hh⟩

section

variable (h : Refines C cfg st log)
include h

theorem Refines.readSegmentHeaderById {seg : LogSegment} (hs : seg ∈ log.segments) : ∃ minTs maxTs,
      SegmentManager.readSegmentHeaderById C st.disk seg.id = some (seg.header C cfg minTs maxTs) := by
  obtain ⟨f, hg, -, minTs, maxTs, body, hf, -⟩ := h.get_segment hs
  refine ⟨minTs, maxTs, ?_⟩
  have hl := SegmentHeader.serialize_length C (seg.header C cfg minTs maxTs) seg.prevHash
  have ho : ¬ f.2.length < segmentHeaderSize := by
    rw [hf, length_append, hl]
    omega
  unfold SegmentManager.readSegmentHeaderById
  rw [hg]
  simp only [Option.bind_eq_bind, Option.bind_some, if_neg ho, SegmentFile.deserialize hf]
  rfl

theorem Refines.exists_segment {f : ℕ × Bytes}
    (hf : f ∈ st.disk.segments) : ∃ seg ∈ log.segments, SegmentFile C cfg seg f :=
  exists_of_forall₂ h.files hf

theorem Refines.truncated (ha : LogShape C cfg log)
    (he : LogSeparated log) {d : Disk} (hd : Disk.Deletes st.mgr.activeId st.disk d)
    {checkpoint : UInt64} {ids : List ℕ} {f : ℕ × Bytes} (hf : f ∈ d.segments)
    (ho : f ∉ (st.mgr.truncateBeforeCheckpoint C checkpoint ids d).segments) :
    ∀ r ∈ segmentRecords C cfg.encryptionKeys f, r.id.sequence < checkpoint := by
  have hu := (SegmentManager.truncated_spec hf ho).2
  simp only [SegmentManager.truncates, Bool.and_eq_true, Option.any_eq_true,
    decide_eq_true_iff] at hu
  obtain ⟨-, next, hrd, hb⟩ := hu
  have hr' := SegmentManager.readSegmentHeaderById_of_deletes hd hrd
  obtain ⟨seg, hs, hl⟩ := h.exists_segment (hd.mem hf)
  -- the header that was read is the one of the segment behind the deleted one
  obtain ⟨t, ht, hid⟩ : ∃ t ∈ log.segments, t.id = f.1 + 1 := by
    obtain ⟨data, hg, -⟩ := Option.bind_eq_some_iff.mp hr'
    obtain ⟨t, ht, hte⟩ := h.exists_segment (Disk.mem_of_get hg)
    exact ⟨t, ht, hte.1.symm⟩
  obtain ⟨minTs, maxTs, hh⟩ := h.readSegmentHeaderById ht
  rw [hid, hr', Option.some.injEq] at hh
  rw [hh] at hb
  have hlt : ∀ v ∈ seg.records, v.recordId < t.base := by
    have hseg_lt : seg.id < t.id := by
      rw [hid, hl.1]
      exact lt_add_one _
    obtain ⟨i, hi, rfl⟩ := getElem_of_mem hs
    obtain ⟨j, hj, rfl⟩ := getElem_of_mem ht
    rcases lt_trichotomy i j with hij | rfl | hji
    · exact pairwise_iff_getElem.mp he.ceiling i j hi hj hij
    · exact absurd hseg_lt (lt_irrefl _)
    · exact absurd hseg_lt (pairwise_iff_getElem.mp h.ids_sorted j i hj hi hji).asymm
  rw [ha.segmentRecords_eq hs hl]
  intro r hr
  obtain ⟨v, hv, rfl⟩ := mem_map.mp hr
  exact UInt64.lt_of_lt_of_le (hlt v hv) hb

end

section

variable (h : Refines C cfg st log) (ha : LogShape C cfg log)
include h ha

theorem Refines.kept_append {cp : UInt64} (hk : Kept C cfg ⟨st, cp⟩) {k : ℕ}
    (hle : log.committed + k ≤ log.published.length) {st' : ShardState} {log' : Log}
    (hl' : log' = log.append k ∨ log' = (log.append k).prepare cfg) (h' : Refines C cfg st' log')
    (hs' : LogShape C cfg log') : Kept C cfg ⟨st', cp⟩ := by
  have hp : log'.published = log.published := by rcases hl' with rfl | rfl <;> rfl
  have hc : log'.committed = log.committed + k := by rcases hl' with rfl | rfl <;> rfl
  have hr : log'.records = log.records ++ (log.published.drop log.committed).take k := by
    rw [hs'.records_eq, ha.records_eq, append_assoc]
    rcases hl' with rfl | rfl <;> rfl
  intro i hi hcp
  simp only [h'.committed_eq, hc] at hi
  simp only [h'.published_eq, hp, h'.diskRecords_eq hs', hr, map_append]
  by_cases ho : i < log.committed
  · obtain ⟨v, hv, hm⟩ := hk i (h.committed_eq ▸ ho) hcp
    rw [h.published_eq] at hv
    rw [h.diskRecords_eq ha] at hm
    exact ⟨v, hv, mem_append_left _ hm⟩
  · have hlt : i < log.published.length := by omega
    refine ⟨log.published[i], getElem?_eq_getElem hlt, mem_append_right _ ?_⟩
    apply mem_map_of_mem
    apply mem_iff_getElem.mpr
    refine ⟨i - log.committed, ?_, ?_⟩
    · rw [length_take, length_drop]
      omega
    · rw [getElem_take, getElem_drop]
      congr 1
      omega

theorem Refines.kept_roll {cp : UInt64} (he : Kept C cfg ⟨st, cp⟩) (hr : cfg.retention = .keepAll)
    {m : SegmentManager} {d : Disk}
    (h' : Refines C cfg { st with mgr := m, disk := d } (log.roll cfg fun _ => true))
    (hs' : LogShape C cfg (log.roll cfg fun _ => true))
    (he' : LogSeparated (log.roll cfg fun _ => true)) (env : SegmentManager.RollEnv) :
    Kept C cfg ⟨{ st with mgr := m, disk := m.rollCleanup C d cp env }, cp⟩ := by
  have hrc : (log.roll cfg fun _ => true).records = log.records := by
    rw [hs'.records_eq, ha.records_eq,
      show (log.roll cfg fun _ => true).active.records = [] from ha.prepared_getD.2.2,
      append_nil]
    simp only [Log.roll, filter_true, flatMap_append, flatMap_singleton]
  intro i hi hc
  obtain ⟨v, hv, hm⟩ := he i hi hc
  refine ⟨v, hv, ?_⟩
  have hid : v.recordId = cfg.recordId i := by
    have hv' : st.published[i]? = some v := hv
    rw [h.published_eq] at hv'
    obtain ⟨hlt, rfl⟩ := List.getElem?_eq_some_iff.mp hv'
    exact ha.recordId_eq hlt
  rw [show diskRecords C cfg.encryptionKeys st.disk = diskRecords C cfg.encryptionKeys d by
    rw [h.diskRecords_eq ha, ← hrc]
    exact (h'.diskRecords_eq hs').symm] at hm
  obtain ⟨f, hf, hfv⟩ := mem_flatMap.mp hm
  apply mem_flatMap.mpr
  refine ⟨f, ?_, hfv⟩
  by_contra hgo
  have hk : m.applyRetention env d = d := by
    unfold SegmentManager.applyRetention
    rw [h'.mgr.retention_eq, hr]
  unfold SegmentManager.rollCleanup at hgo
  rw [hk] at hgo
  split_ifs at hgo with hp
  · have hlt := h'.truncated hs' he' (.refl _ _) hf hgo v.toRecord hfv
    rw [show v.toRecord.id.sequence = v.recordId from rfl, hid] at hlt
    exact absurd hlt (UInt64.not_lt.mpr hc)
  · exact hgo hf

end

theorem Refines.kept_step (hC : C.Lawful) (h : Refines C cfg st log) (ha : LogShape C cfg log)
    (ho : LogOrder cfg log) (hs : LogSeparated log) (ht : cfg.retention = .keepAll) {cp : UInt64}
    (he : Kept C cfg ⟨st, cp⟩) {ev : ShardEvent} (hn : ev.Enabled cfg st)
    (hok : SeparatedStep C cfg st ev) (hl : ev.Loads cp) : Kept C cfg ⟨ev.apply C cfg st, cp⟩ := by
  obtain ⟨hb, hf, hu⟩ := hok
  cases ev with
  | publish timestampNs content =>
    intro i hi hc
    obtain ⟨v, hv, hm⟩ := he i hi hc
    refine ⟨v, ?_, hm⟩
    have hlt : i < st.published.length := (List.getElem?_eq_some_iff.mp hv).1
    exact (getElem?_append_left hlt).trans hv
  | commit count nonce checkpoint env =>
    obtain rfl : checkpoint = cp := hl
    have hid : log.active.id + 1 < 2 ^ 32 := by
      rw [← h.activeId_eq]
      exact hb
    rcases h.commit_cases hC ha hn hb hf with
      ⟨hft, k, log', hk, hle, hl', hr⟩ | ⟨m, d, -, hr, hd⟩
    · apply h.kept_append ha he hle hl' hr
      rcases hl' with rfl | rfl
      · exact ha.append hle
      · exact (ha.append hle).prepare hid
    · show Kept C cfg ⟨st.commitBatch C cfg count nonce checkpoint env, checkpoint⟩
      rw [hd]
      exact h.kept_roll ha he ht hr (ha.roll _ hid) (hs.roll ho ha _) env
  | sync =>
    intro i hi hc
    obtain ⟨v, hv, hm⟩ := he i hi hc
    refine ⟨v, hv, ?_⟩
    have hy := (h.sync ha).diskRecords_eq ha
    rw [h.diskRecords_eq ha, ← hy] at hm
    exact hm
  | idle => exact he

theorem CheckpointReachable.kept (hC : C.Lawful)
    (h : CheckpointReachable C cfg (SeparatedStep C cfg) s) (ht : cfg.retention = .keepAll) :
    s.Kept C cfg := by
  obtain ⟨st₀, loaded, hf, hr⟩ := h
  induction hr with
  | refl =>
    intro i hi
    have hz : st₀.committed = 0 := (refines_fresh hf).committed_eq
    exact absurd hi (by simp [hz])
  | @tail s _ hr hp ih =>
    cases hp with
    | shard ev he hok hl =>
      have hh : CheckpointReachable C cfg (SeparatedStep C cfg) s := ⟨st₀, loaded, hf, hr⟩
      obtain ⟨log, hb, ha, ho, hs⟩ := exists_separated hC hh.shard
      exact hb.kept_step hC ha ho hs ht ih he hok hl
    | checkpoint sequence =>
      refine fun i hi hc => ih i hi (UInt64.le_trans ?_ hc)
      unfold raise
      simp only
      split_ifs with hlt
      · exact UInt64.le_of_lt hlt
      · exact UInt64.le_refl _

end

end LogDb.Pipeline
