import LogDb.Pipeline.Committed
import LogDb.Pipeline.Separated
import LogDb.Database.Open

/-!
Runs of a database: the shards take their steps one at a time and share nothing, so each of them
makes a run of its own.
-/

namespace LogDb.Database

open Lib Format Pipeline Function

/-- The condition that a step of any shard meets. -/
abbrev StepCondition :=
  ShardConfig → ShardState → ShardEvent → Prop

section

variable (C : Crates) {c : Config} (hc : c.Valid) (inits : Fin c.shards → Bytes32)
  (ok : StepCondition)

def shardConfig (s : Fin c.shards) : ShardConfig :=
  c.shard hc (inits s) s

inductive DbStep : (Fin c.shards → ShardState) → (Fin c.shards → ShardState) → Prop where
  | shard (db : Fin c.shards → ShardState) (s : Fin c.shards) (st : ShardState)
      (h : ShardStep C (shardConfig hc inits s) (ok (shardConfig hc inits s)) (db s) st) :
      DbStep db (update db s st)

def DbReachable (db : Fin c.shards → ShardState) : Prop :=
  ∃ db₀, (∀ s, ShardState.fresh C (shardConfig hc inits s) = .ok (db₀ s)) ∧
    Relation.ReflTransGen (DbStep C hc inits ok) db₀ db

end

variable {C : Crates} {c : Config} {hc : c.Valid} {inits : Fin c.shards → Bytes32}
  {ok : StepCondition} {db : Fin c.shards → ShardState}

section

variable (h : DbReachable C hc inits ok db) (s : Fin c.shards)
include h

theorem DbReachable.shard :
    ShardReachable C (shardConfig hc inits s) (ok (shardConfig hc inits s)) (db s) := by
  obtain ⟨db₀, hf, hr⟩ := h
  refine ⟨db₀ s, hf s, ?_⟩
  induction hr with
  | refl => exact .refl
  | tail _ hp ih =>
    cases hp with
    | shard t st hd =>
      by_cases hs : s = t
      · subst hs
        rw [update_self]
        exact ih.tail hd
      · rw [update_of_ne hs]
        exact ih

theorem DbReachable.run_shard {st : ShardState}
    (hr : Relation.ReflTransGen (ShardStep C (shardConfig hc inits s)
      (ok (shardConfig hc inits s))) (db s) st) :
    DbReachable C hc inits ok (update db s st) := by
  obtain ⟨db₀, hf, hd⟩ := h
  refine ⟨db₀, hf, ?_⟩
  induction hr with
  | refl =>
    rw [update_eq_self]
    exact hd
  | @tail st st' _ hsp ih =>
    have hn : DbStep C hc inits ok (update db s st)
        (update (update db s st) s st') := by
      apply DbStep.shard
      rw [update_self]
      exact hsp
    rw [update_idem] at hn
    exact ih.tail hn

end

/-- The configuration of a database whose only shard is `rawShard`. -/
def rawConfig : Config where
  segmentSize := 1024 * 1024
  ringSize := 16
  shards := 1
  maxContentSize := 1024 * 1024
  hashEnabled := false
  compressionEnabled := false
  encryptionKeys := none
  indexStride := 1024
  retention := .keepAll

theorem rawConfig_validate : rawConfig.validate = .ok () := by
  decide

theorem rawConfig_valid : rawConfig.Valid :=
  Config.valid_of_validate rawConfig_validate

theorem dbReachable_raw {st : ShardState} (h : ShardReachable C rawShard (ok rawShard) st) :
    DbReachable C rawConfig_valid (fun _ => zeros32) ok fun _ => st := by
  obtain ⟨st₀, hf, hr⟩ := h
  have hz : ∀ s : Fin 1, s = 0 := Fin.fin_one_eq_zero
  have hs : DbReachable C rawConfig_valid (fun _ => zeros32) ok fun _ => st₀ :=
    ⟨_, fun s => by rw [hz s]; exact hf, .refl⟩
  convert hs.run_shard (0 : Fin 1) hr using 1
  funext s
  rw [hz s]
  exact (update_self (0 : Fin 1) st fun _ => st₀).symm

section StaleSegment

theorem follows_rawPrepared : Follows rawCrates rawShard (ShardEvent.InLimits rawCrates rawShard)
      (earlyPrepared rawCrates rawShard largeRecord) := by
  have hl := largeRecord_length
  refine follows_earlyPrepared rawCrates_lawful ⟨rfl, rfl⟩ (admits_inLimits ⟨rfl, rfl⟩)
    (Follows.fresh _ _ _) ?_ trivial ?_ ?_ <;> (rw [hl]; decide)

theorem follows_rawStale : Follows rawCrates rawShard (ShardEvent.InLimits rawCrates rawShard)
      (stalePrepared rawCrates rawShard largeRecord smallRecord) := by
  apply follows_stalePrepared rawCrates_lawful ⟨rfl, rfl⟩ (admits_inLimits ⟨rfl, rfl⟩)
    follows_rawPrepared trivial
  · decide
  · rw [largeRecord_length]
    decide

theorem logReachable_rawStale : LogReachable rawCrates rawShard (fun _ => True) True
      (stalePrepared rawCrates rawShard largeRecord smallRecord) := by
  have hl : largeRecord.length ≤ rawShard.maxContentSize := by
    rw [largeRecord_length]
    decide
  have hf : LogReachable rawCrates rawShard (fun _ => True) True Log.fresh := .refl
  have hp := ((hf.tail (.publish _ 0 largeRecord hl (by decide))).tail
    (.append _ 1 one_pos le_rfl trivial)).tail (.prepare _ (List.cons_ne_nil _ _) (by decide))
  exact (hp.tail (.publish _ 0 smallRecord (by decide) (by decide))).tail
    (.append _ 1 one_pos le_rfl trivial)

theorem follows_rawRolled : Follows rawCrates rawShard (ShardEvent.InLimits rawCrates rawShard)
      (staleRolled rawCrates rawShard largeRecord smallRecord mediumRecord) := by
  have hl := mediumRecord_length
  refine follows_rawStale.append_rolled rawCrates_lawful ⟨rfl, rfl⟩ (admits_inLimits ⟨rfl, rfl⟩)
    (by rw [hl]; decide) (by decide) rfl trivial (by decide) ?_ ?_ trivial
  · rw [fileLength_stalePrepared, hl, largeRecord_length]
    decide
  · rw [hl]
    decide

end StaleSegment

/-- The counters stay in range and every frame fits its length fields. -/
def BoundedStep (C : Crates) : StepCondition :=
  fun cfg st ev => ev.Bounded cfg st ∧ ev.FramesFit C cfg st

/-- The step is within the limits, and no batch is written while a prepared segment waits. -/
def UnpreparedStep (C : Crates) : StepCondition :=
  fun cfg st ev => ev.InLimits C cfg st ∧ ev.Unprepared st

theorem admits_unprepared : Admits rawCrates rawShard (fun log => log.prepared = none)
    (fun st _ => ShardReachable rawCrates rawShard (fun st ev =>
      UnpreparedStep rawCrates rawShard st ev ∧ ev.Appends mediumRecord) st) mediumRecord :=
  admits_of ⟨rfl, rfl⟩ (fun _ hin => ⟨⟨hin, trivial⟩, rfl⟩)
    fun _ _ hq hs hin => ⟨⟨hin, fun _ => hs.preparedSegment_eq_none hq⟩, trivial⟩

theorem follows_rawSegments : Follows rawCrates rawShard
    (fun st ev => UnpreparedStep rawCrates rawShard st ev ∧ ev.Appends mediumRecord)
    (twoSegments rawCrates rawShard mediumRecord) := by
  have hl := mediumRecord_length
  refine follows_twoSegments rawCrates_lawful ⟨rfl, rfl⟩ admits_unprepared (Follows.fresh _ _ _) ?_
    (fun _ hn => hn) ?_ ?_ <;> (rw [hl]; decide)

def twoRecords : Log :=
  ((Log.fresh.publish rawShard rawCrates 0 smallRecord).publish rawShard rawCrates 0
    smallRecord).append 2

theorem logReachable_twoRecords :
    LogReachable rawCrates rawShard (fun _ => True) True twoRecords := by
  have hf : LogReachable rawCrates rawShard (fun _ => True) True Log.fresh := .refl
  exact ((hf.tail (.publish _ 0 smallRecord (by decide) (by decide))).tail
    (.publish _ 0 smallRecord (by decide) (by decide))).tail
    (.append _ 2 two_pos le_rfl trivial)

def UnsyncedStep (C : Crates) : StepCondition :=
  fun cfg st ev => UnpreparedStep C cfg st ev ∧ ev ≠ .sync

theorem follows_twoRecords_unsynced :
    Follows rawCrates rawShard (UnsyncedStep rawCrates rawShard) twoRecords := by
  set v := nextView rawCrates rawShard [] 0 smallRecord
  set w := nextView rawCrates rawShard [v] 0 smallRecord
  have hl : fileLength rawCrates ([v] ++ [w]) = 252 := by
    rw [fileLength_snoc, fileLength_singleton]
    rfl
  have hp := ((Follows.fresh rawCrates rawShard (UnsyncedStep rawCrates rawShard)).publish
    0 smallRecord (by decide) (by decide) fun st hs =>
      ⟨⟨hs.publish_inLimits 0 smallRecord (by decide), trivial⟩, by simp⟩).publish 0 smallRecord
        (by decide) (by decide) fun st hs =>
          ⟨⟨hs.publish_inLimits 0 smallRecord (by decide), trivial⟩, by simp⟩
  have ho := hp.commit rawCrates_lawful rfl zeroNonce 0 quietEnv
    two_pos (by decide) (by decide) (by
      show fileLength rawCrates ([v] ++ [w]) ≤ _
      rw [hl]
      decide) fun st hs =>
      ⟨⟨hs.commit_inLimits ⟨rfl, rfl⟩ (by decide) 2, fun _ => hs.prepared_eq⟩, by simp⟩
  rwa [Log.committedLog, if_pos (.inr (by
    show fileLength rawCrates ([v] ++ [w]) * 100 / _ < 80
    rw [hl]
    decide))] at ho

theorem durable_of_unsynced {cfg : ShardConfig} {st : ShardState}
    (h : ShardReachable C cfg (UnsyncedStep C cfg) st) : st.durable = 0 := by
  obtain ⟨st₀, hf, hr⟩ := h
  induction hr with
  | refl => exact (ShardState.fresh_empty hf).2.2.1
  | tail _ hs ih =>
    obtain ⟨ev, -, ⟨-, hne⟩, rfl⟩ := hs
    cases ev with
    | commit count nonce checkpoint env =>
      exact (ShardState.commitBatch_durable _ _ _ count nonce checkpoint env).trans ih
    | sync => exact absurd rfl hne
    | publish timestampNs content => exact ih
    | idle => exact ih

theorem follows_twoRecords :
    Follows rawCrates rawShard (UnpreparedStep rawCrates rawShard) twoRecords :=
  follows_twoRecords_unsynced.mono fun _ _ hok => hok.1

variable {cfg : ShardConfig} {st : ShardState}

/-- Every run of a shard in the bounds is one of the log, whose records and segments it stores. -/
theorem shard_follows_log (hC : C.Lawful) (h : ShardReachable C cfg (BoundedStep C cfg) st) :
    ∃ log, LogReachable C cfg (fun _ => True) False log ∧ Refines C cfg st log := by
  obtain ⟨log, hr, hl⟩ := refines_of_reachable (fun _ => True) False hC (fun _ _ hok => hok)
    (fun _ _ _ _ _ _ _ _ _ _ => trivial) (fun hf => hf.elim) h
  exact ⟨log, hl, hr⟩

theorem shard_follows_log_rolled : ∃ st log, st.mgr.active.id = 2 ∧
    LogReachable rawCrates rawShard (fun _ => True) False log ∧ Refines rawCrates rawShard st log := by
  obtain ⟨-, st, hs, hr⟩ := follows_rawRolled
  obtain ⟨log, hl⟩ := shard_follows_log rawCrates_lawful (hs.mono fun _ _ h => ⟨h.1, h.2.2⟩)
  exact ⟨st, log, hr.active_id, hl⟩

end LogDb.Database
