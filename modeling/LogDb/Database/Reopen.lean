import LogDb.Pipeline.Aligned
import LogDb.Database.Read

/-!
Reopening a database that was closed cleanly: which runs lose nothing.
-/

namespace LogDb.Database

open Lib Format Storage Recovery Reader Pipeline List ReadView

theorem mapM_eq_ok {α β ε : Type} {f : α → Except ε β} {g : α → β} {l : List α}
    (h : ∀ x ∈ l, f x = .ok (g x)) : l.mapM f = .ok (l.map g) := by
  induction l with
  | nil => rfl
  | cons x xs ih =>
    rw [mapM_cons, h x mem_cons_self, ih fun y hy => h y (mem_cons_of_mem x hy)]
    rfl

theorem openDb_eq {C : Crates} {c : Config} (hc : c.validate = .ok ())
    {freshInits : Fin c.shards → Bytes32} {disks : Fin c.shards → Disk} {o : Fin c.shards → OpenShard}
    (ho : ∀ s : Fin c.shards, openShard C c s (freshInits s) (disks s) = .ok (o s)) :
    openDb C c freshInits disks = .ok ((List.finRange c.shards).map o) := by
  unfold openDb
  rw [hc]
  exact mapM_eq_ok fun s _ => ho s

def durableRecords {n : ℕ} (db : Fin n → ShardState) : List Record :=
  (List.finRange n).flatMap fun s => ((db s).published.take (db s).durable).map toRecord

/-- Every append is durable, as after a drain that returned clean. -/
def Drained {n : ℕ} (db : Fin n → ShardState) : Prop :=
  ∀ s, (db s).durable = (db s).published.length

def AlignedStep (C : Crates) : StepCondition :=
  fun cfg st ev => ev.InLimits C cfg st ∧ ev.Aligned cfg st

section

variable {C : Crates} {c : Config} {hc : c.Valid} {inits : Fin c.shards → Bytes32}
  {s : Fin c.shards} {st : ShardState} {log : Log}

/-- Opening the directory of an aligned run with its first segment changes nothing, and the ring
resumes behind the last segment. -/
theorem openShard_aligned (h : Refines C (shardConfig hc inits s) st log)
    (ha : AlignedLog C (shardConfig hc inits s) log) (hf : ∃ t ∈ log.segments, t.id = 1)
    {front : List LogSegment} {seg : LogSegment} (hl : log.segments = front ++ [seg])
    (freshInit : Bytes32) :
    ∃ o, openShard C c s freshInit st.disk = .ok o ∧ o.disk = st.disk ∧ o.warnings = [] ∧
      o.initialLocal = if seg.records.length = 0 then 0 else
        ((decodeRecordId (seg.records.getLast?.elim (seg.base - 1) recordId)
          (shardBits c.shards)).2 + 1) % 2 ^ 64 := by
  obtain ⟨t, ht, hid⟩ := hf
  obtain ⟨f, hg, -⟩ := h.get_segment ht
  have hs : seg ∈ log.segments := by
    rw [hl]
    exact mem_append_right _ mem_cons_self
  obtain ⟨rs, hr, hn, hls, hw⟩ := h.recoverShard_clean ha.shape hl
    (fun expected he => ha.order.idsFollow ha.shape hs (fun hb => ha.based hb seg hs) he)
    fun hh hne => ⟨((ha.first hh).front_eq_nil ha.shape hl hne).1,
      ((ha.first hh).scan_ready ha.shape hs).2 hh⟩
  have hse : (st.disk.get 1).isSome = true := by
    rw [← hid, hg]
    rfl
  have hr' : recoverShard C st.disk (shardBits c.shards) c.segmentSize.toNat c.retention
      c.encryptionKeys = .ok (rs, st.disk) := hr
  unfold openShard
  simp only [hse, if_true, hr']
  refine ⟨_, rfl, rfl, hw, ?_⟩
  simp only [hn, hls]

end

/-- After every run whose steps are in the limits and aligned, closed with everything durable, the
database opens again, no file is changed, and a scan of all ids gives exactly the durable records in
the order of their ids. -/
theorem scan_after_reopen {C : Crates} (hC : C.Lawful) {c : Config} (hc : c.validate = .ok ())
    {inits : Fin c.shards → Bytes32} {db : Fin c.shards → ShardState}
    (h : DbReachable C (Config.valid_of_validate hc) inits (AlignedStep C) db) (hdrained : Drained db)
    (freshInits : Fin c.shards → Bytes32) :
    ∃ opened, openDb C c freshInits (fun s => (db s).disk) = .ok opened ∧
      opened.map OpenShard.disk = (List.finRange c.shards).map (fun s => (db s).disk) ∧
      (scan C c opened 0 0xFFFFFFFFFFFFFFFF).Perm (durableRecords db) ∧
      (scan C c opened 0 0xFFFFFFFFFFFFFFFF).Pairwise fun a b => recordKey a < recordKey b := by
  -- an aligned run is one of an aligned log
  choose logs hr hh using fun s =>
    refines_of_reachable (Log.Aligned _) True hC
      (fun _ _ hok => ⟨hok.1.1, hok.1.2.2⟩) (fun _ _ ht _ _ _ _ _ hok hft =>
        ht.aligned hft hok.2) (fun _ _ _ hok => hok.1.2.1) (h.shard s)
  have hal := fun s => alignedLog_of_reachable (hh s)
  have hop : ∀ s : Fin c.shards, ∃ o, openShard C c s (freshInits s) (db s).disk = .ok o ∧
      o.disk = (db s).disk := by
    intro s
    have hne : (logs s).segments ≠ [] := append_ne_nil_of_right_ne_nil _ (cons_ne_nil _ _)
    obtain ⟨front, seg, hl⟩ := (eq_nil_or_concat' (logs s).segments).resolve_left hne
    obtain ⟨o, ho, hk, -⟩ :=
      openShard_aligned (hr s) (hal s)
        (Log.first_of_reachable (hh s)) hl (freshInits s)
    exact ⟨o, ho, hk⟩
  choose o ho hk using hop
  have hs : ((finRange c.shards).map o).map OpenShard.disk =
      (finRange c.shards).map fun s => (db s).disk := by
    rw [map_map]
    exact map_congr_left fun s _ => hk s
  have ha : ∀ s, (logs s).records.map toRecord =
      ((db s).published.take (db s).durable).map toRecord := by
    intro s
    have hd := (h.shard s).durable_le
    have hm := (hal s).shape.committed_le
    rw [(hr s).committed_eq, hdrained s, (hr s).published_eq] at hd
    rw [Log.records_of_reachable (hh s), hdrained s, (hr s).published_eq, le_antisymm hm hd]
  have hsc : ∀ s, shardScanner C (db s).disk c.encryptionKeys 0 0xFFFFFFFFFFFFFFFF =
      ((logs s).records.map toRecord).filter (inRange 0 0xFFFFFFFFFFFFFFFF) := by
    intro s
    rw [(hal s).shape.filter_all]
    exact (hr s).shardScanner_all (hal s).shape (hal s).order
  obtain ⟨hp, hso⟩ := scanIter_of_shards (fun s => (hal s).shape) (fun s => (hal s).order) hsc
  have hf : ∀ s, ((logs s).records.map toRecord).filter
      (inRange 0 0xFFFFFFFFFFFFFFFF) = ((db s).published.take (db s).durable).map toRecord :=
    fun s => (hal s).shape.filter_all.trans (ha s)
  simp only [hf] at hp
  refine ⟨(finRange c.shards).map o, openDb_eq hc ho, hs, ?_, ?_⟩
  · unfold scan
    rw [hs]
    exact hp
  · unfold scan
    rw [hs]
    exact hso

theorem scan_after_reopen_one_record : ∃ db : Fin rawConfig.shards → ShardState, Drained db ∧
      ∃ opened, openDb rawCrates rawConfig (fun _ => zeros32) (fun s => (db s).disk) = .ok opened ∧
        scan rawCrates rawConfig opened 0 0xFFFFFFFFFFFFFFFF =
          [⟨⟨0, 0⟩, 7, [104, 105], zeros32⟩] := by
  have hp : Follows rawCrates rawShard (AlignedStep rawCrates rawShard) oneRecord :=
    (Follows.fresh _ _ _).publish 7 [104, 105] (by decide) (by decide)
      fun st ht => ⟨ht.publish_inLimits 7 [104, 105] (by decide), trivial⟩
  have ho := hp.commit rawCrates_lawful rfl zeroNonce 0 quietEnv one_pos
    (by decide) (by decide) (by decide) (by
      intro st ht
      refine ⟨ht.commit_inLimits ⟨rfl, rfl⟩ (by decide) 1, fun _ => ⟨fun _ _ => ?_, fun hh => ?_⟩⟩
      · rw [ht.base_eq, ht.committed_eq]
        rfl
      · cases hh)
  obtain ⟨hs, st, hr, ht⟩ := ho
  have hy : ShardReachable rawCrates rawShard (AlignedStep rawCrates rawShard) st.sync :=
    hr.step (show ShardEvent.sync.Enabled rawShard st from trivial)
      ⟨⟨trivial, trivial, trivial⟩, trivial⟩
  have hq : st.committed = 1 := ht.committed_eq
  have he : st.published = oneRecord.published := ht.published_eq
  have hd : Drained fun _ : Fin rawConfig.shards => st.sync := by
    intro s
    show st.committed = st.published.length
    rw [hq, he]
    rfl
  obtain ⟨opened, hop, -, hm, -⟩ := scan_after_reopen rawCrates_lawful rawConfig_validate
    (dbReachable_raw hy) hd fun _ => zeros32
  refine ⟨_, hd, opened, hop, perm_singleton.mp (hm.trans ?_)⟩
  have hrc : durableRecords (fun _ : Fin rawConfig.shards => st.sync) =
      (st.published.take st.committed).map toRecord :=
    append_nil _
  rw [hrc, hq, he]
  decide

private theorem logOrder_rawRolled :
    LogOrder rawShard (staleRolled rawCrates rawShard largeRecord smallRecord mediumRecord) where
  active_span := ⟨2, 1, rfl, rfl⟩
  spans := by
    intro s hs
    rcases mem_cons.mp hs with rfl | hs
    · exact ⟨0, 2, by decide, rfl⟩
    · rw [mem_singleton.mp hs]
      exact ⟨2, 1, le_rfl, rfl⟩
  ordered := by
    apply pairwise_pair.mpr
    intro v hv w hw
    have hw' := mem_singleton.mp hw
    rcases mem_cons.mp hv with rfl | hv
    · rw [hw']
      decide
    · rw [hw', mem_singleton.mp hv]
      decide
  base_mono := pairwise_pair.mpr ⟨by decide, fun _ => by decide⟩
  base_le := by
    intro s hs
    rcases mem_cons.mp hs with rfl | hs
    · decide
    · rw [mem_singleton.mp hs]
      decide
  prepared_ne := by
    intro s hs
    cases hs

/-- The third record begins a segment that announces the second one. Recovery cuts it off, and a scan
does not give it any more. -/
theorem reopen_loses_record : ∃ db : Fin rawConfig.shards → ShardState,
      DbReachable rawCrates rawConfig_valid (fun _ => zeros32)
        (fun cfg st ev => ev.InLimits rawCrates cfg st) db ∧ Drained db ∧
      ∃ opened, openDb rawCrates rawConfig (fun _ => zeros32) (fun s => (db s).disk) = .ok opened ∧
        opened.map OpenShard.disk ≠ (List.finRange rawConfig.shards).map (fun s => (db s).disk) ∧
        ¬ (scan rawCrates rawConfig opened 0 0xFFFFFFFFFFFFFFFF).Perm (durableRecords db) := by
  obtain ⟨hs, st, hrh, ht⟩ := follows_rawRolled
  set log := staleRolled rawCrates rawShard largeRecord smallRecord mediumRecord
  set v := nextView rawCrates rawShard [] 0 largeRecord
  set w := nextView rawCrates rawShard [v] 0 smallRecord
  set x := nextView rawCrates rawShard [v, w] 0 mediumRecord
  have hn : ShardReachable rawCrates rawShard (ShardEvent.InLimits rawCrates rawShard) st.sync :=
    hrh.step (show ShardEvent.sync.Enabled rawShard st from trivial) ⟨trivial, trivial, trivial⟩
  have hr := ht.sync hs
  have hcom : st.committed = 3 := ht.committed_eq
  have hp : st.published = [v, w, x] := ht.published_eq
  have hlog : log.segments = [⟨1, 0, zeros32, [v, w]⟩] ++ [⟨2, 1, zeros32, [x]⟩] := rfl
  obtain ⟨f, chainKey, hf, hg, -, he⟩ := hr.recoverShard_of_scan hs hlog
  obtain ⟨minTs, maxTs, r, hh, hsc, hu, hcnt⟩ :=
    hf.scan_first_unexpected rfl (rfl : [x] = x :: []) (fun y hy => hs.fits_of_mem (by
      rw [mem_singleton.mp hy]
      exact mem_cons_of_mem _ (mem_cons_of_mem _ mem_cons_self))) rfl
      (show rawShard.recordId 2 ≠ 1 by decide) (UInt32.ofNat f.1) chainKey
  obtain ⟨rs, hrs, -⟩ := he _ r hh hsc
  obtain ⟨g, hfst, -⟩ := hr.get_segment (show ⟨1, 0, zeros32, [v, w]⟩ ∈ log.segments from
    mem_cons_self)
  have hop : ∃ o, openShard rawCrates rawConfig 0 zeros32 st.sync.disk = .ok o ∧
      o.disk = st.sync.disk.modify 2 fun _ => r.file := by
    have hr' : recoverShard rawCrates st.sync.disk (shardBits rawConfig.shards)
        rawConfig.segmentSize.toNat rawConfig.retention rawConfig.encryptionKeys =
          .ok (rs, st.sync.disk.modify 2 fun _ => r.file) := hrs
    have hse : (st.sync.disk.get 1).isSome = true := by
      rw [hfst]
      rfl
    unfold openShard
    simp only [hse, if_true, hr']
    exact ⟨_, rfl, rfl⟩
  obtain ⟨o, ho, hk⟩ := hop
  refine ⟨fun _ => st.sync, dbReachable_raw hn, ?_, [o], ?_, ?_, ?_⟩
  · intro s
    show st.committed = st.published.length
    rw [hcom, hp]
    rfl
  · unfold openDb
    rw [rawConfig_validate]
    have ha : ∀ s ∈ [(0 : Fin 1)], openShard rawCrates rawConfig s zeros32 st.sync.disk = .ok o := by
      intro s _
      rw [Fin.fin_one_eq_zero s]
      exact ho
    exact mapM_eq_ok ha
  · intro heq
    have hsm : o.disk = st.sync.disk := head_eq_of_cons_eq heq
    have hct := Disk.get_modify hg fun _ => r.file
    rw [← hk, hsm, hg, hu] at hct
    have hl := congrArg length (Option.some.inj hct)
    obtain ⟨minTs', maxTs', hfl⟩ := hf.eq_raw rfl
    rw [hfl, length_append, SegmentHeader.serialize_length, SegmentHeader.serialize_length] at hl
    change segmentHeaderSize + (storedRecord rawCrates x ++ []).length = segmentHeaderSize at hl
    rw [length_append, storedRecord_length] at hl
    unfold recordSize at hl
    omega
  · intro hpm
    have hd : x.toRecord ∈ durableRecords fun _ : Fin rawConfig.shards => st.sync := by
      apply mem_append_left
      show x.toRecord ∈ (st.published.take st.committed).map toRecord
      rw [hcom, hp]
      exact mem_map_of_mem (mem_cons_of_mem v (mem_cons_of_mem w mem_cons_self))
    have hm : x.toRecord ∈ shardScanner rawCrates o.disk rawShard.encryptionKeys 0
        0xFFFFFFFFFFFFFFFF := hpm.mem_iff.mpr hd
    rw [hk, hu] at hm
    have hfnd := hr.mem_shardScanner_cut hs logOrder_rawRolled hlog rfl hm
    have hid := mem_map_of_mem (f := recordKey) hfnd
    exact absurd hid (by decide)

end LogDb.Database
