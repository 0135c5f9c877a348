import LogDb.Pipeline.DeviceCases
import LogDb.Pipeline.Follow

/-!
Without failures a shard on a device is the shard on a good one. So a run of a single shard can be
followed on the abstract log as long as nothing fails.
-/

namespace LogDb.Pipeline

open Lib Format Storage Function SegmentManager

variable {C : Crates} {cfg : ShardConfig} {s s' : DeviceShard} {log : Log}

theorem DeviceShard.commitBatch_good (s : DeviceShard) (count : ℕ) (nonce : Nonce)
    (cp : UInt64) (env : SegmentManager.RollEnv) :
    (s.commitBatch C cfg count nonce cp env .good .good).toShardState =
      s.toShardState.commitBatch C cfg count nonce cp env := by
  unfold DeviceShard.commitBatch ShardState.commitBatch
  rw [appendBatchWith_good]
  generalize s.mgr.appendBatch C s.disk nonce s.committed (s.batch count) = r
  obtain ⟨result, m, d⟩ := r
  cases result with
  | ok next => rfl
  | error e =>
    cases e with
    | io e => rfl
    | full =>
      have hr := rollWith_good C m { s.volume with disk := d } (cfg.recordId s.committed) cp env
      simp only at hr ⊢
      rw [← hr]
      generalize m.rollWith C { s.volume with disk := d } (cfg.recordId s.committed) cp env
        .good = r
      obtain ⟨result, m', vol⟩ := r
      cases result <;> rfl

section Commit

variable {count : ℕ} {nonce : Nonce} {checkpoint : UInt64} {env : SegmentManager.RollEnv}
  {append : AppendOutcomes} {roll : RollOutcomes}

section

variable (hi : CommitCase C s count nonce checkpoint env append roll s')
include hi

theorem CommitCase.unsynced (hpr : s.mgr.preparedSegment = none → s.mgr.Fits (s.batch count)) :
    s'.stable = s.stable ∧ s'.entries = s.entries := by
  cases hi with
  | failed hf st hm change hkp => exact ⟨rfl, rfl⟩
  | wrote hf st hm k hk hle chunk ha change hkp hc r hp committed hb =>
    exact ⟨rfl, rfl⟩
  | unrolled hf e m vol hr =>
    cases hr with
    | failed e change hkp d hg => exact ⟨rfl, rfl⟩
    | torn e change hkp d d' hg hn data hcr ho vol' hv =>
      exact absurd (hpr hn) hf
  | rolled hf m vol hr =>
    cases hr with
    | prepared change hkp d hg newId seg hp => exact ⟨rfl, rfl⟩
    | created change hkp d d' hg hn data hcr seg hs =>
      exact absurd (hpr hn) hf

theorem CommitCase.queue_eq
    (hf : s.mgr.Fits (s.batch count)) : s'.mgr.pendingFsync = s.mgr.pendingFsync := by
  cases hi with
  | failed hf st hs change hkp => rfl
  | wrote hf st hs k hk hle chunk ha change hkp hc r hp committed ho =>
    cases hp <;> rfl
  | unrolled hu e m vol hr => exact absurd hf hu
  | rolled hu m vol hr => exact absurd hf hu

theorem CommitCase.queue_rolled (hid : s'.mgr.activeId ≠ s.mgr.activeId) :
    s'.mgr.pendingFsync = s.mgr.pendingFsync ++ [s.mgr.active.id] := by
  cases hi with
  | failed hf st hs change hkp => exact absurd rfl hid
  | wrote hf st hs k hk hle chunk ha change hkp hc r hp committed ho =>
    cases hp <;> exact absurd rfl hid
  | unrolled hu e m vol hr =>
    cases hr <;> exact absurd rfl hid
  | rolled hu m vol hr =>
    cases hr <;> rfl

end

/-- The queue, and as long as rolls have a prepared segment: no file was synced yet, and no entry
but that of the first segment. -/
structure Unsynced (s : DeviceShard) (queue : List ℕ) (strict : Prop) : Prop where
  stable : strict → ∀ g, s.stable g = none
  entries : strict → ∀ g, s.entries g = true → g = 1
  queue_eq : s.mgr.pendingFsync = queue

namespace Unsynced

variable {queue : List ℕ} {strict : Prop}

theorem fresh (hf : DeviceShard.fresh C cfg = .ok s) : Unsynced s [] strict := by
  obtain ⟨st, hs, rfl⟩ := DeviceShard.exists_fresh hf
  exact ⟨fun _ _ => rfl, fun _ g hg => fresh_files hs hg, (ShardState.fresh_empty hs).2.2.2.1⟩

theorem publish (h : Unsynced s queue strict) (C : Crates) (cfg : ShardConfig) (ts : UInt64)
    (content : Bytes) : Unsynced (s.publish C cfg ts content) queue strict :=
  ⟨h.stable, h.entries, h.queue_eq⟩

theorem commit (h : Unsynced s queue strict)
    (hi : CommitCase C s count nonce checkpoint env append roll s')
    (hf : s.mgr.Fits (s.batch count)) : Unsynced s' queue strict := by
  obtain ⟨hs, he⟩ := hi.unsynced fun _ => hf
  exact ⟨hs ▸ h.stable, he ▸ h.entries, (hi.queue_eq hf).trans h.queue_eq⟩

theorem rolled (h : Unsynced s queue strict)
    (hi : CommitCase C s count nonce checkpoint env append roll s')
    (hp : strict → s.mgr.preparedSegment ≠ none) (hid : s'.mgr.activeId ≠ s.mgr.activeId) :
    Unsynced s' (queue ++ [s.mgr.active.id]) strict := by
  have hu : strict → s'.stable = s.stable ∧ s'.entries = s.entries :=
    fun ht => hi.unsynced fun hn => absurd hn (hp ht)
  refine ⟨fun ht => (hu ht).1 ▸ h.stable ht, fun ht => (hu ht).2 ▸ h.entries ht, ?_⟩
  rw [hi.queue_rolled hid, h.queue_eq]

end Unsynced

end Commit

section OneShard

variable {ok : (Fin 1 → DeviceShard) → DeviceEvent 1 → Prop}

theorem DeviceReachable.step {n : ℕ} {cfgs : Fin n → ShardConfig}
    {ok : (Fin n → DeviceShard) → DeviceEvent n → Prop} {db : Fin n → DeviceShard}
    (h : DeviceReachable C cfgs ok db) (ev : DeviceEvent n) (he : ev.Enabled cfgs db)
    (hok : ok db ev) : DeviceReachable C cfgs ok (ev.apply C cfgs db) := by
  obtain ⟨db₀, hf, hr⟩ := h
  exact ⟨db₀, hf, hr.tail ⟨ev, he, hok, rfl⟩⟩

theorem DeviceReachable.mono {n : ℕ} {cfgs : Fin n → ShardConfig}
    {ok ok' : (Fin n → DeviceShard) → DeviceEvent n → Prop} {db : Fin n → DeviceShard}
    (h : DeviceReachable C cfgs ok db) (hok : ∀ db ev, ok db ev → ok' db ev) :
    DeviceReachable C cfgs ok' db := by
  obtain ⟨db₀, hf, hr⟩ := h
  refine ⟨db₀, hf, Relation.ReflTransGen.mono ?_ _ _ hr⟩
  rintro a b ⟨ev, he, hv, rfl⟩
  exact ⟨ev, he, hok a ev hv, rfl⟩

theorem update_one (k : Fin 1) (s s' : DeviceShard) :
    update (fun _ : Fin 1 => s) k s' = fun _ => s' := by
  funext t
  rw [Subsingleton.elim t k, update_self]

section

variable (h : DeviceReachable C (fun _ : Fin 1 => cfg) ok fun _ => s)
include h

theorem DeviceReachable.commit_one {count : ℕ} (nonce : Nonce) (cp : UInt64)
    (env : SegmentManager.RollEnv) (append : AppendOutcomes) (roll : RollOutcomes) (hc : 0 < count)
    (hle : s.committed + count ≤ s.published.length)
    (hok : ok (fun _ => s) (.commit 0 count nonce cp env append roll)) :
    DeviceReachable C (fun _ => cfg) ok
      fun _ => s.commitBatch C cfg count nonce cp env append roll := by
  have hs := h.step (.commit 0 count nonce cp env append roll) ⟨hc, hle⟩ hok
  rwa [DeviceEvent.apply, update_one] at hs

theorem DeviceReachable.sync_one (o : SyncOutcomes) (hok : ok (fun _ => s) (.sync fun _ => o)) :
    DeviceReachable C (fun _ => cfg) ok
      fun _ => if (s.syncAll o).1 then (s.syncAll o).2.advance o else (s.syncAll o).2 := by
  have hs := h.step (.sync fun _ => o) trivial hok
  have ho : syncPass (fun _ => o) (fun _ : Fin 1 => s) = fun _ =>
      if (s.syncAll o).1 then (s.syncAll o).2.advance o else (s.syncAll o).2 := by
    unfold syncPass
    rw [show List.finRange 1 = [0] from rfl]
    unfold syncManagers
    cases s.syncAll o with
    | mk done t =>
      funext k
      rw [Subsingleton.elim k 0]
      cases done with
      | true => simp [syncManagers]
      | false => simp
  rwa [DeviceEvent.apply, ho] at hs

end

/-- When the active segment cannot be synced, the queue is gone. -/
theorem DeviceReachable.sync_failed (h : DeviceReachable C (fun _ : Fin 1 => cfg) ok fun _ => s)
    {o : SyncOutcomes} (ho : o.active = false) (hok : ok (fun _ => s) (.sync fun _ => o)) :
    DeviceReachable C (fun _ => cfg) ok fun _ => s.put { s.mgr with pendingFsync := [] }
      (syncPending o.pending s.mgr.pendingFsync s.volume).2 := by
  have hs := h.sync_one o hok
  have hf : s.mgr.syncAllWith s.volume o = (false, { s.mgr with pendingFsync := [] },
      (syncPending o.pending s.mgr.pendingFsync s.volume).2) := by
    unfold syncAllWith
    generalize syncPending o.pending s.mgr.pendingFsync s.volume = r
    obtain ⟨done, vol⟩ := r
    cases done <;> simp [ho]
  rwa [DeviceShard.syncAll, hf] at hs

def DeviceShard.syncNow (s : DeviceShard) : DeviceShard :=
  (s.syncAll .good).2.advance .good

theorem DeviceReachable.sync_good (h : DeviceReachable C (fun _ : Fin 1 => cfg) ok fun _ => s)
    (hf : ∀ id ∈ s.mgr.pendingFsync, (s.disk.get id).isSome = true)
    (hok : ok (fun _ => s) (.sync fun _ => .good)) :
    DeviceReachable C (fun _ => cfg) ok fun _ => s.syncNow := by
  have hd : (s.syncAll .good).1 = true :=
    (syncAllWith_of_files rfl fun id hid => ⟨rfl, hf id hid⟩).1
  have hs := h.sync_one .good hok
  rwa [hd, if_pos rfl] at hs

/-- Then the files of the queue and the active one may have been synced as they were. -/
theorem DeviceShard.syncNow_stable (hf : ∀ id ∈ s.mgr.pendingFsync, (s.disk.get id).isSome = true) :
    s.syncNow.entries = s.entries ∧
      ∀ g, s.syncNow.stable g = s.stable g ∨ s.syncNow.stable g = s.disk.get g := by
  have hv : (s.mgr.syncAllWith s.volume .good).2.2 = _ :=
    (syncAllWith_of_files rfl fun id hid => ⟨rfl, hf id hid⟩).2
  obtain ⟨he, hs⟩ := syncPending_stable SyncOutcomes.good.pending s.mgr.pendingFsync s.volume
  have hd := syncPending_disk SyncOutcomes.good.pending s.mgr.pendingFsync s.volume
  constructor
  · exact (congrArg Volume.entries hv).trans he
  · intro g
    have ht : s.syncNow.stable g = _ := congrFun (congrArg Volume.stable hv) g
    rw [ht]
    by_cases hg : g = s.mgr.active.id
    · subst hg
      refine .inr ((update_self _ _ _).trans ?_)
      rw [hd]
      rfl
    · simp only [Volume.fdatasync, update_of_ne hg]
      exact hs g

/-- The shard has come to this state, nothing failed, and the closed segments wait to be synced. -/
def OnDevice (C : Crates) (cfg : ShardConfig) (ok : (Fin 1 → DeviceShard) → DeviceEvent 1 → Prop)
    (strict : Prop) (st : ShardState) (log : Log) : Prop :=
  ∃ s : DeviceShard, s.toShardState = st ∧ DeviceReachable C (fun _ => cfg) ok (fun _ => s) ∧
    Unsynced s (log.closed.map (·.id)) strict

variable {strict : Prop} {Q : Log → Prop} {content : Bytes}

theorem onDevice_fresh (C : Crates) (cfg : ShardConfig)
    (ok : (Fin 1 → DeviceShard) → DeviceEvent 1 → Prop) (strict : Prop) :
    FollowsBy C cfg (OnDevice C cfg ok strict) .fresh := by
  obtain ⟨st, hs⟩ := ShardState.fresh_ok C cfg
  have hf : DeviceShard.fresh C cfg = .ok
      ⟨st, fun _ => none, fun id => (st.disk.get id).isSome, fun _ => 0⟩ := by
    unfold DeviceShard.fresh
    rw [hs]
    rfl
  exact ⟨logShape_fresh, st, ⟨_, rfl, ⟨_, fun _ => hf, .refl⟩, .fresh hf⟩, refines_fresh hs⟩

theorem admits_onDevice (hr : cfg.framed = false)
    (hpub : ∀ s, ok (fun _ => s) (.publish 0 0 content))
    (hcom : ∀ (s : DeviceShard) log, Q log → Refines C cfg s.toShardState log →
      s.mgr.activeId + 1 < 2 ^ 32 → ok (fun _ => s) (.commit 0 1 zeroNonce 0 quietEnv .good .good))
    (hst : ∀ log, Q log → strict → log.prepared = none →
      fileLength C (log.append 1).active.records ≤ cfg.segmentSize) :
    Admits C cfg Q (OnDevice C cfg ok strict) content := by
  rintro _ log ev log' hp hs ⟨s, rfl, hh, hu⟩ ht ht'
  cases hp with
  | publish hl hb =>
    have hn := hh.step (.publish 0 0 content) hl (hpub s)
    rw [DeviceEvent.apply, update_one] at hn
    exact ⟨_, rfl, hn, hu.publish C cfg 0 content⟩
  | commit hq hle hd =>
    have hle' : s.committed + 1 ≤ s.published.length := by rwa [ht.committed_eq, ht.published_eq]
    have hf := (fits_batch_iff one_pos).trans (ht.nextFits_iff hr hle)
    have hc : CommitCase C s 1 zeroNonce 0 quietEnv .good .good
      (s.commitBatch C cfg 1 zeroNonce 0 quietEnv .good .good) :=
        commitBatch_cases _ _ _ _ _ one_pos hle'
    have hg : (s.commitBatch C cfg 1 zeroNonce 0 quietEnv .good .good).toShardState = _ :=
      s.commitBatch_good 1 zeroNonce 0 quietEnv
    refine ⟨_, hg, hh.commit_one _ _ _ _ _ one_pos hle'
      (hcom s log hq ht (ht.activeId_eq ▸ hd)), ?_⟩
    rw [ShardEvent.apply, ← hg] at ht'
    unfold Log.commitNext at ht' ⊢
    split_ifs at ht' ⊢ with hm
    · rw [Log.committedLog_closed]
      exact hu.commit hc (hf.mpr hm)
    · have hv := hu.rolled hc (fun hx hn => ?_) ?_
      · simpa [Log.roll, ht.active_id] using hv
      · rw [ht.prepared_eq] at hn
        exact hm (hst log hq hx (Option.map_eq_none_iff.mp hn))
      · have hi := ht'.activeId_eq.trans hs.prepared_getD.1
        rw [← ht.activeId_eq] at hi
        exact fun he => Nat.succ_ne_self _ (hi.symm.trans he)

end OneShard

end LogDb.Pipeline
