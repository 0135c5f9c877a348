import LogDb.Pipeline.Aligned
import LogDb.Pipeline.Checkpoint
import LogDb.Database.Run

/-!
The bases in the segment headers of a shard. A prepared header announces the record that was next
when it was written, and batches that still go to the active segment make it wrong.
-/

namespace LogDb.Database

open Lib Format Pipeline List Log

/-- What the headers announce when no batch passes by a prepared segment. -/
structure LogBased (cfg : ShardConfig) (log : Log) : Prop where
  based : ∀ s ∈ log.segments, s.id ≠ 1 → s.Based
  active : log.active.records = [] → log.active.id ≠ 1 →
    log.active.base = cfg.recordId log.committed
  prepared : ∀ p ∈ log.prepared, p.base = cfg.recordId log.committed

def headerBase (C : Crates) (f : ℕ × Bytes) : Option UInt64 :=
  (SegmentHeader.deserialize C (field 0 segmentHeaderSize f.2)).toOption.map (·.baseSequence)

section

variable {C : Crates} {cfg : ShardConfig} {st : ShardState} {log log' : Log}

theorem LogBased.step {keepAll : Prop} (h : LogBased cfg log) (hs : LogShape C cfg log)
    (hsp : LogStep C cfg (fun l => l.prepared = none) keepAll log log') : LogBased cfg log' := by
  obtain ⟨-, -, hn⟩ := hs.prepared_getD
  have hx : (log.prepared.getD (log.nextSegment cfg)).base = cfg.recordId log.committed := by
    cases hp : log.prepared with
    | none => rfl
    | some p => exact h.prepared p hp
  cases hsp with
  | publish timestampNs content _ _ => exact ⟨h.based, h.active, h.prepared⟩
  | append k hk hle hok =>
    refine ⟨forall_append h.based fun hid => hs.based_append (h.based _ active_mem hid)
      (fun he => h.active he hid) hk hle, fun he => ?_, fun p hp => ?_⟩
    · have hl := congrArg length he
      simp only [append, length_append, length_take, length_drop, length_nil] at hl
      omega
    · rw [show (log.append k).prepared = none from hok] at hp
      cases hp
  | prepare _ _ =>
    refine ⟨forall_prepare h.based fun _ => LogSegment.based_of_nil hn, h.active, fun p hp => ?_⟩
    cases hp
    exact hx
  | roll keep _ _ =>
    exact ⟨forall_roll h.based fun _ => LogSegment.based_of_nil hn, fun _ _ => hx,
      fun p hp => by cases hp⟩

theorem headerBase_of_file {seg : LogSegment} {f : ℕ × Bytes} (hf : SegmentFile C cfg seg f) :
    headerBase C f = some seg.base := by
  obtain ⟨-, minTs, maxTs, body, hl, -⟩ := hf
  rw [headerBase, SegmentFile.deserialize hl]
  rfl

/-- In every run whose batches never pass by a prepared segment, a header behind the first one
announces the first record of its segment, and every header lies past the records before it. -/
theorem segment_bases (hC : C.Lawful) (h : ShardReachable C cfg (SeparatedStep C cfg) st) :
    (∀ f ∈ st.disk.segments, f.1 ≠ 1 → ∀ r ∈ (segmentRecords C cfg.encryptionKeys f).head?,
      headerBase C f = some r.id.sequence) ∧
    st.disk.segments.Pairwise fun f g => ∃ base, headerBase C g = some base ∧
      ∀ r ∈ segmentRecords C cfg.encryptionKeys f, r.id.sequence < base := by
  obtain ⟨log, he, hh⟩ := exists_unprepared hC h
  have hs := LogShape.of_reachable hh
  have hb : LogBased cfg log := by
    refine invariant_of_reached hh ⟨?_, fun _ hid => absurd rfl hid, fun p hp => by cases hp⟩
      fun _ _ hr hb hsp => hb.step (.of_reachable hr) hsp
    exact fun s hs hid => absurd (by rw [mem_singleton.mp hs]; rfl) hid
  have hsep := LogSeparated.of_reachable (fun _ hl => hl) hh
  constructor
  · intro f hf hid r hr
    obtain ⟨seg, hseg, hfl⟩ := he.exists_segment hf
    rw [hs.segmentRecords_eq hseg hfl, head?_map] at hr
    obtain ⟨v, hv, rfl⟩ := Option.map_eq_some_iff.mp hr
    rw [headerBase_of_file hfl, hb.based seg hseg (hfl.1 ▸ hid) v hv]
    rfl
  · refine pairwise_of_forall₂ he.files (Pairwise.and_mem.mp hsep.ceiling) ?_
    rintro s t f g hf hg ⟨hm, -, hlt⟩
    refine ⟨t.base, headerBase_of_file hg, fun r hr => ?_⟩
    rw [hs.segmentRecords_eq hm hf] at hr
    obtain ⟨v, hv, rfl⟩ := mem_map.mp hr
    exact hlt v hv

end

theorem segment_bases_rolled : ∃ (st : ShardState) (f g : ℕ × Bytes) (v w : Record),
    st.disk.segments = [f, g] ∧ segmentRecords rawCrates none f = [v] ∧
      segmentRecords rawCrates none g = [w] ∧ headerBase rawCrates g = some w.id.sequence ∧
      v.id.sequence < w.id.sequence := by
  obtain ⟨hs, st, hr, ht⟩ := follows_rawSegments
  obtain ⟨f, _, hf, hq, hss⟩ := forall₂_cons_left_iff.mp ht.files
  obtain ⟨g, _, hg, hn, rfl⟩ := forall₂_cons_left_iff.mp hq
  obtain rfl := forall₂_nil_left_iff.mp hn
  have hv : segmentRecords rawCrates none f = [_] := hs.segmentRecords_eq mem_cons_self hf
  have hw : segmentRecords rawCrates none g = [_] := hs.segmentRecords_eq active_mem hg
  obtain ⟨hb, hp⟩ := segment_bases rawCrates_lawful
    (hr.mono fun _ _ hok => ⟨hok.1.1.1, hok.1.1.2.2, hok.1.2⟩)
  rw [hss] at hb hp
  have he := hb g (mem_cons_of_mem _ mem_cons_self) (by rw [hg.1]; decide) _ (congrArg head? hw)
  obtain ⟨base, hd, hl⟩ := pairwise_pair.mp hp
  cases he.symm.trans hd
  exact ⟨st, f, g, _, _, hss, hv, hw, he, hl _ (hv ▸ mem_cons_self)⟩

/-- The second record goes to the first segment after the next one was prepared with its id. -/
theorem segment_bases_stale : ∃ st : ShardState,
    ShardReachable rawCrates rawShard (ShardEvent.InLimits rawCrates rawShard) st ∧
    ¬ st.disk.segments.Pairwise fun f g => ∃ base, headerBase rawCrates g = some base ∧
      ∀ r ∈ segmentRecords rawCrates none f, r.id.sequence < base := by
  obtain ⟨hs, st, hr, hst⟩ := follows_rawStale
  refine ⟨st, hr, fun hp => ?_⟩
  obtain ⟨f, rest, hf, ht, hss⟩ := forall₂_cons_left_iff.mp hst.files
  obtain ⟨g, _, hg, _, rfl⟩ := forall₂_cons_left_iff.mp ht
  rw [hss] at hp
  obtain ⟨base, hb, hlt⟩ := (pairwise_cons.mp hp).1 g mem_cons_self
  rw [headerBase_of_file hg] at hb
  cases hb
  have hm := hlt (nextView rawCrates rawShard
    [nextView rawCrates rawShard [] 0 largeRecord] 0 smallRecord).toRecord (by
      rw [show none = rawShard.encryptionKeys from rfl, hs.segmentRecords_eq active_mem hf]
      exact mem_cons_of_mem _ mem_cons_self)
  exact absurd hm (by decide)

end LogDb.Database
