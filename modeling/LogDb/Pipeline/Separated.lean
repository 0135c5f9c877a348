import LogDb.Pipeline.Order
import LogDb.Pipeline.Simulate

/-!
Runs in which the bases in the headers separate the segments. The base of a prepared segment is
fixed when it is created, so it only bounds the records before it if none of them is written later.
-/

namespace LogDb.Pipeline

open Lib Format Storage List Log

/-- No batch is written while a prepared segment waits. -/
def ShardEvent.Unprepared (st : ShardState) : ShardEvent → Prop
  | commit _ _ _ _ => st.NextFits → st.mgr.preparedSegment = none
  | _ => True

/-- The records of a segment lie between its base and the bases behind it. -/
structure LogSeparated (log : Log) : Prop where
  floor : ∀ s ∈ log.segments, ∀ v ∈ s.records, s.base ≤ v.recordId
  ceiling : log.segments.Pairwise fun s t => ∀ v ∈ s.records, v.recordId < t.base

section

variable {C : Crates} {cfg : ShardConfig} {st : ShardState} {log log' : Log} {guard : Log → Prop}
  {keepAll : Prop}

theorem Refines.unprepared (h : Refines C cfg st log) {count : ℕ} {nonce : Nonce}
    {cp : UInt64} {env : SegmentManager.RollEnv}
    (hok : (ShardEvent.commit count nonce cp env).Unprepared st) (hf : st.NextFits) :
    log.prepared = none := by
  have hn := hok hf
  rw [h.prepared_eq] at hn
  exact Option.map_eq_none_iff.mp hn

theorem logSeparated_fresh : LogSeparated Log.fresh where
  floor s hs v hv := by
    rw [mem_singleton.mp hs] at hv
    exact absurd hv not_mem_nil
  ceiling := pairwise_singleton _ _

namespace LogSeparated

section

variable (h : LogSeparated log) (hd : LogOrder cfg log) (hh : LogShape C cfg log)
include h hd hh

theorem append (hr : log.prepared = none) {k : ℕ} (hle : log.committed + k ≤ log.published.length) :
    LogSeparated (log.append k) := by
  obtain ⟨hc, ha, -, -⟩ := pairwise_segments.mp h.ceiling
  have hnn : ∀ p, p ∉ (log.append k).prepared := by
    intro p hp
    rw [show (log.append k).prepared = none from hr] at hp
    cases hp
  constructor
  · refine forall_append h.floor fun v hv => ?_
    rcases mem_append.mp hv with ho | he
    · exact h.floor log.active active_mem v ho
    · -- a new record comes at or after the committed cursor, and the base does not
      obtain ⟨n, hn, rfl⟩ := getElem_of_mem he
      rw [length_take, length_drop] at hn
      rw [getElem_take, getElem_drop, hh.recordId_eq]
      exact UInt64.le_trans (hd.base_le log.active active_mem)
        (hh.recordId_le (Nat.le_add_right _ _) (by omega))
  · apply pairwise_segments.mpr
    exact ⟨hc, ha, fun _ _ p hp => absurd hp (hnn p), fun p hp => absurd hp (hnn p)⟩

theorem next_segment : ∀ s ∈ log.closed ++ [log.active], ∀ v ∈ s.records,
      v.recordId < (log.prepared.getD (log.nextSegment cfg)).base := by
  intro s hs v hv
  cases hp : log.prepared with
  | none =>
    obtain ⟨i, k, hi, hn⟩ := hd.spans s (mem_segments_of_current hs)
    obtain ⟨j, hj, -, hlt, rfl⟩ := hn.exists_getElem hv
    rw [hh.recordId_eq hj]
    exact hh.recordId_lt (by omega) hh.committed_le
  | some p =>
    obtain ⟨-, -, hr, hl⟩ := pairwise_segments.mp h.ceiling
    rcases mem_append.mp hs with hc | ha
    · exact hr s hc p hp v hv
    · rw [mem_singleton.mp ha] at hv
      exact hl p hp v hv

theorem prepare : LogSeparated (log.prepare cfg) := by
  obtain ⟨-, -, hr⟩ := hh.prepared_getD
  exact ⟨forall_prepare h.floor (by simp [hr]), pairwise_prepare h.ceiling (h.next_segment hd hh)⟩

theorem roll (keep : ℕ → Bool) : LogSeparated (log.roll cfg keep) := by
  obtain ⟨-, -, hr⟩ := hh.prepared_getD
  exact ⟨forall_roll h.floor (by simp [hr]), pairwise_roll h.ceiling (h.next_segment hd hh)⟩

theorem step (hg : guard log → log.prepared = none) (hs : LogStep C cfg guard keepAll log log') :
    LogSeparated log' := by
  cases hs with
  | publish timestampNs content _ _ => exact ⟨h.floor, h.ceiling⟩
  | append k _ hle hok => exact h.append hd hh (hg hok) hle
  | prepare _ _ => exact h.prepare hd hh
  | roll keep _ _ => exact h.roll hd hh keep

end

theorem of_reachable (hg : ∀ l, guard l → l.prepared = none)
    (h : LogReachable C cfg guard keepAll log) : LogSeparated log :=
  invariant_of_reached h logSeparated_fresh fun a _ hr hs hp =>
    hs.step (.of_reachable hr) (.of_reachable hr) (hg a) hp

end LogSeparated

end

end LogDb.Pipeline
