import LogDb.Pipeline.Simulate

/-!
Following a run of a raw shard on the abstract log: which step the log makes is decided by the
sizes of the records alone.
-/

namespace LogDb.Pipeline

open Lib Format Storage List SegmentManager ShardState

variable {vs : List ReadView} {v : ReadView} {count : ℕ}

/-- The length of the active file when its segment holds these records. -/
def fileLength (C : Crates) (records : List ReadView) : ℕ :=
  segmentHeaderSize + (batchBytes C records).length

/-- The log after a batch was committed: the next segment is prepared from 80% on. -/
def Log.committedLog (C : Crates) (cfg : ShardConfig) (log : Log) (count : ℕ) : Log :=
  if log.prepared.isSome ∨
      fileLength C (log.append count).active.records * 100 / cfg.segmentSize < 80 then
    log.append count
  else (log.append count).prepare cfg

theorem Log.committedLog_committed (C : Crates) (cfg : ShardConfig) (log : Log) (count : ℕ) :
    (log.committedLog C cfg count).committed = log.committed + count := by
  unfold committedLog
  split_ifs <;> rfl

theorem Log.committedLog_closed (C : Crates) (cfg : ShardConfig) (log : Log) (count : ℕ) :
    (log.committedLog C cfg count).closed = log.closed := by
  unfold committedLog
  split_ifs <;> rfl

variable {C : Crates} {cfg : ShardConfig} {st : ShardState} {log : Log} {count : ℕ}

theorem LogShape.committedLog (h : LogShape C cfg log)
    (hle : log.committed + count ≤ log.published.length) (hb : log.active.id + 1 < 2 ^ 32) :
    LogShape C cfg (log.committedLog C cfg count) := by
  unfold Log.committedLog
  split_ifs
  · exact h.append hle
  · exact (h.append hle).prepare hb

theorem ShardState.fresh_ok (C : Crates) (cfg : ShardConfig) : ∃ st, fresh C cfg = .ok st :=
  ⟨_, rfl⟩

theorem Refines.offset_raw (h : Refines C cfg st log) (hr : cfg.framed = false) :
    st.mgr.active.offset = fileLength C log.active.records := by
  obtain ⟨front, back, minTs, maxTs, body, hs⟩ := h.split
  rw [hs.offset, length_append, SegmentHeader.serialize_length, hs.stored.eq_batchBytes
    ((LogSegment.header_framed C cfg log.active minTs maxTs).trans hr)]
  rfl

theorem fileLength_append (C : Crates) (xs ys : List ReadView) :
    fileLength C (xs ++ ys) = fileLength C xs + (batchBytes C ys).length := by
  unfold fileLength
  rw [batchBytes_append, length_append, add_assoc]

theorem fileLength_singleton (C : Crates) (v : ReadView) :
    fileLength C [v] = segmentHeaderSize + recordSize v.content.length := by
  unfold fileLength
  rw [batchBytes_cons, batchBytes_nil, append_nil, storedRecord_length]

theorem fileLength_snoc (C : Crates) (xs : List ReadView) (v : ReadView) :
    fileLength C (xs ++ [v]) = fileLength C xs + recordSize v.content.length := by
  rw [fileLength_append, batchBytes_cons, batchBytes_nil, append_nil, storedRecord_length]

theorem Refines.follow_commit (hC : C.Lawful) (h : Refines C cfg st log) (hs : LogShape C cfg log)
    (hr : cfg.framed = false) (nonce : Nonce) (cp : UInt64) (env : RollEnv) (hc : 0 < count)
    (hle : log.committed + count ≤ log.published.length) (hbd : log.active.id + 1 < 2 ^ 32)
    (hm : fileLength C (log.append count).active.records ≤ cfg.segmentSize) :
    Refines C cfg (st.commitBatch C cfg count nonce cp env)
      (log.committedLog C cfg count) := by
  have hl : (st.batch count).length = count := by
    apply batch_length
    rwa [h.committed_eq, h.published_eq]
  have hb : (st.batch count) = (log.published.drop log.committed).take count := by
    unfold batch
    rw [h.published_eq, h.committed_eq]
  have hr' : st.mgr.active.offset + (0 + (batchBytes C (st.batch count)).length) ≤
      st.mgr.segmentSize := by
    rw [zero_add, h.offset_raw hr, h.mgr.segmentSize_eq, hb, ← fileLength_append]
    exact hm
  obtain ⟨bf, hi, hd⟩ : ∃ bf, fill C st.mgr st.committed (st.batch count)
      (.start st.mgr st.committed) = .ok bf ∧ _ :=
    fill_of_room rfl hr'
  rw [hl] at hd
  have hf : FrameFits C cfg.compressed cfg.encryptionKeys nonce ((st.batch count).take count) :=
    fun hfr => absurd (hr.symm.trans hfr) nofun
  have hw := h.write hC hd hc hf
  have hb' : st.mgr.activeId + 1 < 2 ^ 32 := by rwa [h.activeId_eq]
  have ho := h.commit_filled hC hs cp env hi hd hc hle hb' hf
  rwa [show (st.mgr.writeBatch C st.disk nonce bf).1.active.offset = _ from hw.offset_raw hr] at ho

theorem Refines.follow_roll (h : Refines C cfg st log) (hs : LogShape C cfg log)
    (hw : cfg.framed = false) (hk : cfg.retention = .keepAll) (nonce : Nonce) (env : RollEnv)
    (hb : (log.published.drop log.committed).take count = v :: vs) (hd : log.active.id + 1 < 2 ^ 32)
    (hm : cfg.segmentSize < fileLength C (log.active.records ++ [v])) :
    Refines C cfg (st.commitBatch C cfg count nonce 0 env) (log.roll cfg fun _ => true) := by
  have hb' : st.batch count = v :: vs := by
    unfold batch
    rw [h.published_eq, h.committed_eq, hb]
  have hi : fill C st.mgr st.committed (st.batch count)
      (.start st.mgr st.committed) = .error .full := by
    have hf : ¬ st.mgr.active.hasRoom (0 + recordSize v.content.length) st.mgr.segmentSize =
        true := by
      unfold ActiveSegment.hasRoom
      rw [fileLength_append, batchBytes_cons, batchBytes_nil, append_nil, storedRecord_length] at hm
      rw [h.offset_raw hw, h.mgr.segmentSize_eq, decide_eq_true_iff]
      omega
    rw [hb']
    unfold fill
    simp only [length_nil]
    rw [if_neg hf]
    rfl
  have hd' : st.mgr.activeId + 1 < 2 ^ 32 := by rwa [h.activeId_eq]
  obtain ⟨m, d, hsw, hr⟩ := h.rollSwap hs hd'
  obtain ⟨keep, ho, ha⟩ := hr.rolled 0 env
  rw [show keep = fun _ => true from funext (ha ⟨hk, rfl⟩)] at ho
  unfold commitBatch appendBatch
  rw [hi]
  simpa only [roll_of_swap hsw] using ho

/-- Some state of which this holds has this log. -/
def FollowsBy (C : Crates) (cfg : ShardConfig) (R : ShardState → Log → Prop) (log : Log) : Prop :=
  LogShape C cfg log ∧ ∃ st, R st log ∧ Refines C cfg st log

/-- Some run by steps that meet the condition leads to a state of the shard with this log. -/
abbrev Follows (C : Crates) (cfg : ShardConfig) (ok : ShardState → ShardEvent → Prop) (log : Log) :
    Prop :=
  FollowsBy C cfg (fun st _ => ShardReachable C cfg ok st) log

namespace Follows

variable {ok : ShardState → ShardEvent → Prop}

theorem fresh (C : Crates) (cfg : ShardConfig) (ok : ShardState → ShardEvent → Prop) :
    Follows C cfg ok Log.fresh := by
  obtain ⟨st, hf⟩ := fresh_ok C cfg
  exact ⟨logShape_fresh, st, ⟨st, hf, .refl⟩, refines_fresh hf⟩

theorem mono {ok' : ShardState → ShardEvent → Prop} (h : Follows C cfg ok log)
    (hok : ∀ st ev, ok st ev → ok' st ev) : Follows C cfg ok' log := by
  obtain ⟨hs, st, hh, hr⟩ := h
  exact ⟨hs, st, hh.mono hok, hr⟩

theorem publish (h : Follows C cfg ok log) (ts : UInt64) (content : Bytes)
    (hl : content.length ≤ cfg.maxContentSize)
    (hb : (log.published.length + 2) * 2 ^ cfg.shardBits.toNat < 2 ^ 64)
    (hok : ∀ st, Refines C cfg st log → ok st (.publish ts content)) :
    Follows C cfg ok (log.publish cfg C ts content) := by
  obtain ⟨hs, st, hh, hr⟩ := h
  have he : (ShardEvent.publish ts content).Enabled cfg st := hl
  exact ⟨hs.publish hl hb, _, hh.step he (hok st hr), hr.publish ts content⟩

theorem commit (hC : C.Lawful) (h : Follows C cfg ok log) (ha : cfg.framed = false)
    (nonce : Nonce) (cp : UInt64) (env : RollEnv) (hc : 0 < count)
    (hle : log.committed + count ≤ log.published.length) (hb : log.active.id + 1 < 2 ^ 32)
    (hm : fileLength C (log.append count).active.records ≤ cfg.segmentSize)
    (hok : ∀ st, Refines C cfg st log → ok st (.commit count nonce cp env)) :
    Follows C cfg ok (log.committedLog C cfg count) := by
  obtain ⟨hs, st, hh, hr⟩ := h
  have he : (ShardEvent.commit count nonce cp env).Enabled cfg st := by
    refine ⟨hc, ?_⟩
    rwa [hr.committed_eq, hr.published_eq]
  exact ⟨hs.committedLog hle hb, _, hh.step he (hok st hr),
    hr.follow_commit hC hs ha nonce cp env hc hle hb hm⟩

end Follows

section Plain

variable {ok : ShardState → ShardEvent → Prop} {content first second third : Bytes}
  {R : ShardState → Log → Prop} {Q : Log → Prop} {ev : ShardEvent} {log' : Log}

def quietEnv : RollEnv :=
  ⟨[], [], fun _ => false⟩

structure Plain (cfg : ShardConfig) : Prop where
  raw : cfg.framed = false
  keepAll : cfg.retention = .keepAll

theorem Refines.publish_inLimits (h : Refines C cfg st log) (ts : UInt64) (content : Bytes)
    (hb : (log.published.length + 2) * 2 ^ cfg.shardBits.toNat < 2 ^ 64) :
    (ShardEvent.publish ts content).InLimits C cfg st := by
  refine ⟨?_, trivial, trivial⟩
  rw [← h.published_eq] at hb
  exact hb

theorem Refines.commit_inLimits (h : Refines C cfg st log) (hg : Plain cfg)
    (hb : log.active.id + 1 < 2 ^ 32) (count : ℕ) :
    (ShardEvent.commit count zeroNonce 0 quietEnv).InLimits C cfg st := by
  refine ⟨?_, ⟨hg.keepAll, rfl⟩, fun hf => ?_⟩
  · rw [← h.activeId_eq] at hb
    exact hb
  · rw [hg.raw] at hf
    cases hf

theorem Refines.preparedSegment_eq_none (h : Refines C cfg st log) (hn : log.prepared = none) :
    st.mgr.preparedSegment = none := by
  rw [h.prepared_eq, hn]
  rfl

theorem Log.drop_eq_cons (hle : log.committed + 1 ≤ log.published.length) :
    ∃ v vs, log.published.drop log.committed = v :: vs :=
  exists_cons_of_length_pos (by rw [length_drop]; omega)

theorem Refines.nextFits_iff (h : Refines C cfg st log) (hr : cfg.framed = false)
    (hle : log.committed + 1 ≤ log.published.length) :
    st.NextFits ↔ fileLength C (log.append 1).active.records ≤ cfg.segmentSize := by
  obtain ⟨v, vs, hv⟩ := Log.drop_eq_cons hle
  have hn : st.NextFits ↔
      st.mgr.active.hasRoom (recordSize v.content.length) st.mgr.segmentSize = true := by
    unfold NextFits
    rw [h.published_eq, h.committed_eq, hv]
    simp
  have ha : (log.append 1).active.records = log.active.records ++ [v] := by
    simp [Log.append, hv]
  rw [hn, ha, fileLength_snoc]
  unfold ActiveSegment.hasRoom
  rw [decide_eq_true_iff, h.mgr.segmentSize_eq, h.offset_raw hr]

/-- The log after the next record was committed, or its segment was found to be full. -/
def Log.commitNext (C : Crates) (cfg : ShardConfig) (log : Log) : Log :=
  if fileLength C (log.append 1).active.records ≤ cfg.segmentSize then log.committedLog C cfg 1
  else log.roll cfg fun _ => true

def ShardEvent.Appends (content : Bytes) : ShardEvent → Prop
  | publish _ c => c = content
  | _ => True

/-- The steps of a run of a single writer: the record is published, or the next one is committed
where the log meets the condition. -/
inductive PlainStep (C : Crates) (cfg : ShardConfig) (Q : Log → Prop) (content : Bytes)
    (log : Log) : ShardEvent → Log → Prop where
  | publish (hl : content.length ≤ cfg.maxContentSize)
      (hb : (log.published.length + 2) * 2 ^ cfg.shardBits.toNat < 2 ^ 64) :
      PlainStep C cfg Q content log (.publish 0 content) (log.publish cfg C 0 content)
  | commit (hq : Q log) (hle : log.committed + 1 ≤ log.published.length)
      (hd : log.active.id + 1 < 2 ^ 32) :
      PlainStep C cfg Q content log (.commit 1 zeroNonce 0 quietEnv) (log.commitNext C cfg)

/-- Such steps lead from what holds of a state and its log to what holds of the next ones. -/
def Admits (C : Crates) (cfg : ShardConfig) (Q : Log → Prop) (R : ShardState → Log → Prop)
    (content : Bytes) : Prop :=
  ∀ {st log ev log'}, PlainStep C cfg Q content log ev log' → LogShape C cfg log → R st log →
    Refines C cfg st log → Refines C cfg (ev.apply C cfg st) log' → R (ev.apply C cfg st) log'

theorem PlainStep.enabled (hp : PlainStep C cfg Q content log ev log') (h : Refines C cfg st log) :
    ev.Enabled cfg st := by
  cases hp with
  | publish hl hb => exact hl
  | commit hq hle hd =>
    rw [← h.committed_eq, ← h.published_eq] at hle
    exact ⟨one_pos, hle⟩

theorem PlainStep.shape (hp : PlainStep C cfg Q content log ev log') (hs : LogShape C cfg log) :
    LogShape C cfg log' := by
  cases hp with
  | publish hl hb => exact hs.publish hl hb
  | commit hq hle hd =>
    unfold Log.commitNext
    split_ifs
    · exact hs.committedLog hle hd
    · exact hs.roll _ hd

theorem PlainStep.refines (hp : PlainStep C cfg Q content log ev log') (hC : C.Lawful)
    (hg : Plain cfg) (hs : LogShape C cfg log) (h : Refines C cfg st log) :
    Refines C cfg (ev.apply C cfg st) log' := by
  cases hp with
  | publish hl hb => exact h.publish 0 content
  | commit hq hle hd =>
    unfold Log.commitNext
    split_ifs with hm
    · exact h.follow_commit hC hs hg.raw zeroNonce 0 quietEnv one_pos hle hd hm
    · obtain ⟨v, vs, hv⟩ := Log.drop_eq_cons hle
      have hb : (log.published.drop log.committed).take 1 = [v] := by
        rw [hv]
        rfl
      apply h.follow_roll hs hg.raw hg.keepAll zeroNonce quietEnv hb hd
      rw [Log.append, hb] at hm
      exact not_le.mp hm

theorem admits_of (hg : Plain cfg)
    (hpub : ∀ st, (ShardEvent.publish 0 content).InLimits C cfg st → ok st (.publish 0 content))
    (hcom : ∀ st log, Q log → Refines C cfg st log →
      (ShardEvent.commit 1 zeroNonce 0 quietEnv).InLimits C cfg st →
        ok st (.commit 1 zeroNonce 0 quietEnv)) :
    Admits C cfg Q (fun st _ => ShardReachable C cfg ok st) content := by
  intro st log ev log' hp _ hr h _
  refine hr.step (hp.enabled h) ?_
  cases hp with
  | publish hl hb => exact hpub st (h.publish_inLimits 0 content hb)
  | commit hq hle hd => exact hcom st log hq h (h.commit_inLimits hg hd 1)

theorem admits_inLimits (hg : Plain cfg) : Admits C cfg (fun _ => True)
    (fun st _ => ShardReachable C cfg (ShardEvent.InLimits C cfg) st) content :=
  admits_of hg (fun _ h => h) fun _ _ _ _ h => h

theorem le_of_percent {n : ℕ} (h : n * 100 / cfg.segmentSize < 80) : n ≤ cfg.segmentSize := by
  have hp : 0 < cfg.segmentSize := lt_of_lt_of_le (by decide) cfg.segmentSize_ge
  have hlt := (Nat.div_lt_iff_lt_mul hp).mp h
  omega

/-- The record begins the next segment. -/
def Log.appendRolled (C : Crates) (cfg : ShardConfig) (log : Log) (content : Bytes) : Log :=
  ((log.publish cfg C 0 content).roll cfg fun _ => true).append 1

theorem Log.fileLength_published (hw : log.committed = log.published.length) :
    fileLength C ((log.publish cfg C 0 content).append 1).active.records =
      fileLength C log.active.records + recordSize content.length := by
  have hr : ((log.publish cfg C 0 content).append 1).active.records =
      log.active.records ++ [nextView C cfg log.published 0 content] := by
    simp [publish, append, hw]
  rw [hr, fileLength_snoc]
  rfl

theorem LogShape.fileLength_rolled (h : LogShape C cfg log)
    (hw : log.committed = log.published.length) (keep : ℕ → Bool) (content : Bytes) :
    fileLength C (((log.publish cfg C 0 content).roll cfg keep).append 1).active.records =
      segmentHeaderSize + recordSize content.length := by
  change fileLength C (((log.roll cfg keep).publish cfg C 0 content).append 1).active.records = _
  rw [Log.fileLength_published (by exact hw)]
  change fileLength C (log.prepared.getD (log.nextSegment cfg)).records + _ = _
  rw [h.prepared_getD.2.2]
  rfl

section

variable (hC : C.Lawful) (hg : Plain cfg)
include hC hg

theorem FollowsBy.step (h : FollowsBy C cfg R log) (ha : Admits C cfg Q R content)
    (hp : PlainStep C cfg Q content log ev log') : FollowsBy C cfg R log' := by
  obtain ⟨hs, st, hr, ht⟩ := h
  have ht' := hp.refines hC hg hs ht
  exact ⟨hp.shape hs, _, ha hp hs hr ht ht', ht'⟩

section

variable (h : FollowsBy C cfg R log) (ha : Admits C cfg Q R content)
  (hl : content.length ≤ cfg.maxContentSize)
  (hb : (log.published.length + 2) * 2 ^ cfg.shardBits.toNat < 2 ^ 64)
  (hw : log.committed = log.published.length) (hq : Q (log.publish cfg C 0 content))
include h ha hl hb hw hq

theorem FollowsBy.commit_published (hd : log.active.id + 1 < 2 ^ 32) :
    FollowsBy C cfg R ((log.publish cfg C 0 content).commitNext C cfg) :=
  (h.step hC hg ha (.publish hl hb)).step hC hg ha (.commit hq (by simp [Log.publish, hw]) hd)

theorem FollowsBy.append_plain (hd : log.active.id + 1 < 2 ^ 32)
    (hm : fileLength C log.active.records + recordSize content.length ≤ cfg.segmentSize) :
    FollowsBy C cfg R ((log.publish cfg C 0 content).committedLog C cfg 1) := by
  have hc := h.commit_published hC hg ha hl hb hw hq hd
  rwa [Log.commitNext, Log.fileLength_published hw, if_pos hm] at hc

theorem FollowsBy.append_rolled (hd : log.active.id + 2 < 2 ^ 32)
    (hm : cfg.segmentSize < fileLength C log.active.records + recordSize content.length)
    (hs : (segmentHeaderSize + recordSize content.length) * 100 / cfg.segmentSize < 80)
    (hq' : Q ((log.publish cfg C 0 content).roll cfg fun _ => true)) :
    FollowsBy C cfg R (log.appendRolled C cfg content) := by
  have hr := h.commit_published hC hg ha hl hb hw hq (Nat.lt_of_succ_lt hd)
  rw [Log.commitNext, Log.fileLength_published hw, if_neg (not_le.mpr hm)] at hr
  have hi : ((log.publish cfg C 0 content).roll cfg fun _ => true).active.id + 1 < 2 ^ 32 := by
    change (log.prepared.getD (log.nextSegment cfg)).id + 1 < _
    rwa [h.1.prepared_getD.1]
  have hc := hr.step hC hg ha (.commit hq' (by simp [Log.publish, Log.roll, hw]) hi)
  rwa [Log.commitNext, h.1.fileLength_rolled hw, if_pos (le_of_percent hs), Log.committedLog,
    h.1.fileLength_rolled hw, if_pos (.inr hs)] at hc

end

end

theorem small_lt (cfg : ShardConfig) {n : ℕ} (hn : n ≤ 4) :
    n * 2 ^ cfg.shardBits.toNat < 2 ^ 64 := by
  calc n * 2 ^ cfg.shardBits.toNat ≤ 4 * 2 ^ 8 :=
        Nat.mul_le_mul hn (Nat.pow_le_pow_right (by decide) cfg.bits_le)
    _ < 2 ^ 64 := by decide

/-- More than 80% of a segment. -/
@[irreducible] def largeRecord : Bytes :=
  List.replicate 900000 0

theorem largeRecord_length : largeRecord.length = 900000 := by
  unfold largeRecord
  exact length_replicate

/-- More than half of a segment, and too much for what a large record leaves. -/
@[irreducible] def mediumRecord : Bytes :=
  List.replicate 600000 0

theorem mediumRecord_length : mediumRecord.length = 600000 := by
  unfold mediumRecord
  exact length_replicate

def smallRecord : Bytes :=
  [104, 105]

section

variable (C : Crates) (cfg : ShardConfig)

def oneAppended (first : Bytes) : Log :=
  (Log.fresh.publish cfg C 0 first).append 1

def twoSegments (content : Bytes) : Log :=
  (oneAppended C cfg content).appendRolled C cfg content

/-- The log of one record that fills its segment to 80%, so that the next one was prepared. -/
def earlyPrepared (first : Bytes) : Log :=
  (oneAppended C cfg first).prepare cfg

def stalePrepared (first second : Bytes) : Log :=
  ((earlyPrepared C cfg first).publish cfg C 0 second).append 1

/-- A third record does not fit any more and begins the prepared segment. -/
def staleRolled (first second third : Bytes) : Log :=
  (stalePrepared C cfg first second).appendRolled C cfg third

end

theorem fileLength_oneAppended (C : Crates) (cfg : ShardConfig) (content : Bytes) :
    fileLength C (oneAppended C cfg content).active.records =
      segmentHeaderSize + recordSize content.length := by
  rw [oneAppended, Log.fileLength_published rfl]
  rfl

theorem fileLength_stalePrepared (C : Crates) (cfg : ShardConfig) (first second : Bytes) :
    fileLength C (stalePrepared C cfg first second).active.records =
      segmentHeaderSize + recordSize first.length + recordSize second.length := by
  rw [stalePrepared, Log.fileLength_published rfl, ← fileLength_oneAppended C cfg first]
  rfl

section

variable (hC : C.Lawful) (hg : Plain cfg) (ha : Admits C cfg Q R first)
  (h : FollowsBy C cfg R .fresh) (hf : first.length ≤ cfg.maxContentSize)
include hC hg ha h hf

theorem follows_oneAppended (hq : ∀ log, log.prepared = none → Q log)
    (hl : (segmentHeaderSize + recordSize first.length) * 100 / cfg.segmentSize < 80) :
    FollowsBy C cfg R (oneAppended C cfg first) := by
  have h₁ := h.append_plain hC hg ha hf (small_lt cfg (by decide)) rfl (hq _ rfl) (by decide)
    (le_of_percent hl)
  rwa [Log.committedLog, ← oneAppended, fileLength_oneAppended, if_pos (.inr hl)] at h₁

theorem follows_twoSegments (hq : ∀ log, log.prepared = none → Q log)
    (hl : (segmentHeaderSize + recordSize first.length) * 100 / cfg.segmentSize < 80)
    (hu : cfg.segmentSize < segmentHeaderSize + recordSize first.length * 2) :
    FollowsBy C cfg R (twoSegments C cfg first) := by
  have hn := fileLength_oneAppended C cfg first
  exact (follows_oneAppended hC hg ha h hf hq hl).append_rolled hC hg ha hf
    (small_lt cfg (by decide : 1 + 2 ≤ 4)) rfl (hq _ rfl) (by decide : 1 + 2 < 2 ^ 32) (by omega)
    hl (hq _ rfl)

theorem follows_earlyPrepared (hq : Q (Log.fresh.publish cfg C 0 first))
    (ht : segmentHeaderSize + recordSize first.length ≤ cfg.segmentSize)
    (hh : 80 ≤ (segmentHeaderSize + recordSize first.length) * 100 / cfg.segmentSize) :
    FollowsBy C cfg R (earlyPrepared C cfg first) := by
  have h₁ := h.append_plain hC hg ha hf (small_lt cfg (by decide)) rfl hq (by decide) ht
  rwa [Log.committedLog, ← oneAppended, fileLength_oneAppended, if_neg] at h₁
  exact not_or_intro Bool.noConfusion (not_lt.mpr hh)

end

theorem follows_stalePrepared (hC : C.Lawful) (hg : Plain cfg) (ha : Admits C cfg Q R second)
    (h : FollowsBy C cfg R (earlyPrepared C cfg first))
    (hq : Q ((earlyPrepared C cfg first).publish cfg C 0 second))
    (hd : second.length ≤ cfg.maxContentSize)
    (hf : segmentHeaderSize + recordSize first.length + recordSize second.length ≤
      cfg.segmentSize) :
    FollowsBy C cfg R (stalePrepared C cfg first second) := by
  rw [← fileLength_oneAppended C cfg first] at hf
  have h₁ := h.append_plain hC hg ha hd (small_lt cfg (by decide : 1 + 2 ≤ 4)) rfl hq
    (by decide : 1 + 1 < 2 ^ 32) hf
  rwa [Log.committedLog, if_pos (.inl rfl)] at h₁

end Plain

end LogDb.Pipeline
