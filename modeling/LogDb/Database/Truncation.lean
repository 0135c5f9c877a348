import LogDb.Pipeline.Checkpoint
import LogDb.Database.Run

/-!
What the truncation at the checkpoint deletes.
-/

namespace LogDb.Database

open Lib Format Storage Pipeline List SegmentManager

/-- In every run whose batches never pass by a prepared segment, the truncation of a roll only
deletes files whose records all lie below the checkpoint; a shard that keeps its segments otherwise
has every committed record from the checkpoint on in some file. -/
theorem truncation_safe {C : Crates} {cfg : ShardConfig} {s : CheckpointState} (hC : C.Lawful)
    (h : CheckpointReachable C cfg (SeparatedStep C cfg) s) :
    (s.shard.mgr.activeId + 1 < 2 ^ 32 → ∀ m d,
      s.shard.mgr.rollSwap C s.shard.disk (cfg.recordId s.shard.committed) = some (m, d) →
      ∀ env, ∀ f ∈ (m.applyRetention env d).segments,
        f ∉ (m.rollCleanup C d s.checkpoint env).segments →
        ∀ r ∈ segmentRecords C cfg.encryptionKeys f, r.id.sequence < s.checkpoint) ∧
    (cfg.retention = .keepAll → s.Kept C cfg) := by
  refine ⟨fun hb m d hw env f hf hg => ?_, h.kept hC⟩
  obtain ⟨log, hr, hs, ho, he⟩ := exists_separated hC h.shard
  obtain ⟨m', d', hs', hl⟩ := hr.rollSwap hs hb
  rw [hw, Option.some.injEq] at hs'
  cases hs'
  have hid : log.active.id + 1 < 2 ^ 32 := by
    rw [← hr.activeId_eq]
    exact hb
  unfold rollCleanup at hg
  simp only at hg
  split_ifs at hg with hp
  · exact hl.truncated (hs.roll _ hid) (he.roll ho hs _) (applyRetention_deletes env d) hf hg
  · exact absurd hf hg

section

variable {C : Crates} {cfg : ShardConfig} {ok : ShardState → ShardEvent → Prop} {st : ShardState}

theorem checkpointReachable_of_shard {loaded : UInt64}
    (h : ShardReachable C cfg (fun st ev => ok st ev ∧ ev.Loads loaded) st) :
    CheckpointReachable C cfg ok ⟨st, loaded⟩ := by
  obtain ⟨st₀, hf, hr⟩ := h
  refine ⟨st₀, loaded, hf, hr.lift (CheckpointState.mk · loaded) ?_⟩
  rintro a _ ⟨ev, he, ⟨hok, hl⟩, rfl⟩
  exact .shard ⟨a, loaded⟩ ev he hok hl

theorem loads_of_inLimits {ev : ShardEvent} (h : ev.InLimits C cfg st) : ev.Loads 0 := by
  cases ev with
  | commit count nonce checkpoint env => exact h.2.1.2
  | _ => trivial

end

/-- The directory is listed from the first segment on. -/
def listedEnv : SegmentManager.RollEnv :=
  ⟨[], [1, 2], fun _ => false⟩

theorem rollCleanup_records {st : ShardState} {log : Log} {first : LogSegment}
    (h : Refines rawCrates rawShard st log) (ha : log.active.id = 2) (hid : first.id = 1)
    (hs : log.segments = [first, ⟨2, rawShard.recordId 1, zeros32, []⟩]) :
    diskRecords rawCrates rawShard.encryptionKeys
      (st.mgr.rollCleanup rawCrates st.disk 1 listedEnv) = [] := by
  have hfs := h.files
  rw [hs] at hfs
  obtain ⟨f, rest, hf, hr, hd⟩ := forall₂_cons_left_iff.mp hfs
  obtain ⟨g, rest', hg, hn, rfl⟩ := forall₂_cons_left_iff.mp hr
  cases hn
  obtain ⟨minTs, maxTs, hh⟩ := h.readSegmentHeaderById (hs ▸ mem_cons_of_mem first mem_cons_self)
  have hc : st.mgr.rollCleanup rawCrates st.disk 1 listedEnv = st.disk.remove 1 := by
    unfold rollCleanup applyRetention
    rw [h.mgr.retention_eq, if_pos (by decide)]
    simp only [rawShard, listedEnv, truncateBeforeCheckpoint, h.activeId_eq, ha]
    rw [if_pos le_rfl, if_neg (by decide), hh]
    exact if_pos (by decide : rawShard.recordId 1 ≤ 1)
  have hk : (st.disk.remove 1).segments = [g] := by
    unfold Disk.remove
    simp only [hd]
    rw [filter_cons_of_neg (by simp [hf.1, hid]), filter_cons_of_pos (by simp [hg.1]), filter_nil]
  rw [hc, diskRecords, hk, flatMap_singleton]
  exact segmentRecords_of_file hg (fun v hv => absurd hv not_mem_nil)
    fun v hv => absurd hv not_mem_nil

/-- A record that does not fit makes the committer roll when the checkpoint is 1, and the truncation
deletes the first segment, since the next one announces record 1. -/
theorem exists_truncated (ok : ShardState → ShardEvent → Prop) {log : Log}
    (h : Follows rawCrates rawShard (fun st ev => ok st ev ∧ ev.Loads 0)
      (log.publish rawShard rawCrates 0 mediumRecord))
    (hw : log.committed = log.published.length) (ha : log.active.id = 1)
    (hm : rawShard.segmentSize <
      fileLength rawCrates log.active.records + recordSize mediumRecord.length)
    (hs : (log.roll rawShard fun _ => true).segments =
      [log.active, ⟨2, rawShard.recordId 1, zeros32, []⟩])
    (hok : ∀ st : ShardState, ¬ st.NextFits →
      BoundedStep rawCrates rawShard st (.commit 1 zeroNonce 1 listedEnv) →
      ok st (.commit 1 zeroNonce 1 listedEnv)) :
    ∃ st keep, CheckpointReachable rawCrates rawShard ok ⟨st, 1⟩ ∧
      diskRecords rawCrates rawShard.encryptionKeys st.disk = [] ∧
      Refines rawCrates rawShard st
        ((log.publish rawShard rawCrates 0 mediumRecord).roll rawShard keep) := by
  obtain ⟨hsh, st, hrh, ht⟩ := h
  obtain ⟨st₀, loaded, hh, hu⟩ := checkpointReachable_of_shard hrh
  have hd := hu.tail (.checkpoint ⟨st, 0⟩ 1)
  have hb : (ShardEvent.commit 1 zeroNonce 1 listedEnv).Bounded rawShard st := by
    show st.mgr.activeId + 1 < 2 ^ 32
    rw [ht.activeId_eq, show (log.publish rawShard rawCrates 0 mediumRecord).active.id = 1 from ha]
    decide
  have hf : (ShardEvent.commit 1 zeroNonce 1 listedEnv).FramesFit rawCrates rawShard st :=
    fun hfr => Bool.noConfusion hfr
  have he : (ShardEvent.commit 1 zeroNonce 1 listedEnv).Enabled rawShard st := by
    refine ⟨one_pos, ?_⟩
    rw [ht.committed_eq, ht.published_eq]
    simp [Log.publish, hw]
  have hn : ¬ st.NextFits := by
    rw [ht.nextFits_iff rfl (by simp [Log.publish, hw]), Log.fileLength_published hw]
    exact not_le.mpr hm
  have ho := hd.tail (.shard ⟨st, 1⟩ (.commit 1 zeroNonce 1 listedEnv) he (hok st hn ⟨hb, hf⟩) rfl)
  rcases ht.commit_cases rawCrates_lawful hsh he hb hf with ⟨hft, -⟩ | ⟨m, d, -, hr, hc⟩
  · exact absurd hft hn
  obtain ⟨keep, hk, -⟩ := hr.rolled 1 listedEnv
  refine ⟨_, keep, ⟨st₀, loaded, hh, ho⟩, ?_, ?_⟩
  · show diskRecords _ _ (st.commitBatch rawCrates rawShard 1 zeroNonce 1 listedEnv).disk = []
    rw [hc]
    exact rollCleanup_records hr (hsh.prepared_getD.1.trans (congrArg (· + 1) ha)) ha hs
  · show Refines _ _ (st.commitBatch rawCrates rawShard 1 zeroNonce 1 listedEnv) _
    rw [hc]
    exact hk

theorem truncation_safe_rolled : ∃ s s' : CheckpointState,
    diskRecords rawCrates rawShard.encryptionKeys s.shard.disk = [] ∧
    CheckpointStep rawCrates rawShard (SeparatedStep rawCrates rawShard) s s' ∧
    s'.checkpoint = 1 ∧ s'.shard.committed = 2 ∧ s'.Kept rawCrates rawShard := by
  have hl := mediumRecord_length
  have hm : mediumRecord.length ≤ rawShard.maxContentSize := by
    rw [hl]
    decide
  have ho := follows_oneAppended rawCrates_lawful ⟨rfl, rfl⟩ admits_unprepared
    (Follows.fresh _ _ _) hm (fun _ hn => hn) (by
      rw [hl]
      decide)
  have hp : Follows rawCrates rawShard _ ((oneAppended rawCrates rawShard mediumRecord).publish
      rawShard rawCrates 0 mediumRecord) :=
    ho.step rawCrates_lawful ⟨rfl, rfl⟩ admits_unprepared (.publish hm (by decide))
  obtain ⟨st, keep, hr, hd, ht⟩ := exists_truncated (SeparatedStep rawCrates rawShard)
    (hp.mono fun st ev h => ⟨⟨h.1.1.1, h.1.1.2.2, h.1.2⟩, loads_of_inLimits h.1.1⟩) rfl rfl (by
      rw [fileLength_oneAppended, hl]
      decide) rfl fun st hn hb => ⟨hb.1, hb.2, fun hf => absurd hf hn⟩
  have he : (ShardEvent.commit 1 zeroNonce 1 listedEnv).Enabled rawShard st := by
    refine ⟨one_pos, ?_⟩
    rw [ht.committed_eq, ht.published_eq]
    exact le_rfl
  have hb : (ShardEvent.commit 1 zeroNonce 1 listedEnv).Bounded rawShard st := by
    show st.mgr.activeId + 1 < 2 ^ 32
    rw [ht.activeId_eq]
    show 2 + 1 < 2 ^ 32
    decide
  have hs : CheckpointStep rawCrates rawShard (SeparatedStep rawCrates rawShard) ⟨st, 1⟩ _ :=
    .shard ⟨st, 1⟩ (.commit 1 zeroNonce 1 listedEnv) he ⟨hb, fun hfr => Bool.noConfusion hfr,
      fun _ => ht.preparedSegment_eq_none rfl⟩ rfl
  obtain ⟨st₀, loaded, hh, hu⟩ := hr
  refine ⟨⟨st, 1⟩, _, hd, hs, rfl, ?_, (truncation_safe rawCrates_lawful
    ⟨st₀, loaded, hh, hu.tail hs⟩).2 rfl⟩
  have hc := ht.follow_commit rawCrates_lawful (hp.1.roll keep (by decide : 1 + 1 < 2 ^ 32)) rfl
    zeroNonce 1 listedEnv one_pos (by decide : 1 + 1 ≤ 2) (by decide : 2 + 1 < 2 ^ 32) (by
      rw [ho.1.fileLength_rolled rfl, hl]
      decide)
  exact hc.committed_eq.trans (Log.committedLog_committed _ _ _ _)

/-- The second record goes to the first segment after the next one was prepared with its id as
base; the roll that the third one causes deletes it, although the checkpoint is not past it. -/
theorem truncation_loses_record : ∃ s : CheckpointState,
    CheckpointReachable rawCrates rawShard (BoundedStep rawCrates rawShard) s ∧
      s.checkpoint = 1 ∧ s.shard.committed = 2 ∧ rawShard.recordId 1 = 1 ∧
      diskRecords rawCrates rawShard.encryptionKeys s.shard.disk = [] := by
  have hl := mediumRecord_length
  have hp : Follows rawCrates rawShard (ShardEvent.InLimits rawCrates rawShard)
      ((stalePrepared rawCrates rawShard largeRecord smallRecord).publish rawShard rawCrates 0
        mediumRecord) :=
    follows_rawStale.step rawCrates_lawful ⟨rfl, rfl⟩ (admits_inLimits ⟨rfl, rfl⟩)
      (.publish (by rw [hl]; decide) (by decide))
  obtain ⟨st, keep, hr, hd, ht⟩ := exists_truncated (BoundedStep rawCrates rawShard)
    (hp.mono fun st ev h => ⟨⟨h.1, h.2.2⟩, loads_of_inLimits h⟩) rfl rfl (by
      rw [fileLength_stalePrepared, hl, largeRecord_length]
      decide) rfl fun _ _ hb => hb
  exact ⟨_, hr, rfl, ht.committed_eq, by decide, hd⟩

end LogDb.Database
