import LogDb.Pipeline.Device
import LogDb.Pipeline.Refine
import LogDb.Storage.Journaled

/-!
What a commit can do to a shard on a device whose calls may fail, and what the manager is like in
every state.
-/

namespace LogDb.Pipeline

open Lib Format Storage Journal Option SegmentManager Disk

variable {C : Crates} {cfg : ShardConfig} {s : DeviceShard} {append : AppendOutcomes}
  {nonce : Nonce} {env : SegmentManager.RollEnv} {checkpoint : UInt64} {g : ℕ}

inductive CommitCase (C : Crates) (s : DeviceShard) (count : ℕ) (nonce : Nonce)
    (checkpoint : UInt64) (env : SegmentManager.RollEnv) (append : AppendOutcomes)
    (roll : RollOutcomes) : DeviceShard → Prop where
  | failed (hfits : s.mgr.Fits (s.batch count)) (st : SegmentManager.BatchFill)
      (hsame : ActiveSegment.SameFile st.active s.mgr.active) (change : Bytes → Bytes)
      (hkeeps : ∀ reserve, KeepsContent reserve s.mgr.active.offset change)
      (ho : ¬ append.Writes) :
      CommitCase C s count nonce checkpoint env append roll
        { s with
          mgr := s.mgr.filled st s.mgr.active.offset
          disk := s.disk.modify s.mgr.active.id change }
  | wrote (hfits : s.mgr.Fits (s.batch count)) (st : SegmentManager.BatchFill)
      (hsame : ActiveSegment.SameFile st.active s.mgr.active) (k : ℕ) (hk : 0 < k)
      (hle : k ≤ (s.batch count).length) (chunk : Bytes)
      (hadded : chunk = addedBytes C s.mgr nonce
        (batchBytes C ((s.batch count).take k)))
      (change : Bytes → Bytes)
      (hkeeps : KeepsContent segmentHeaderSize s.mgr.active.offset change)
      (hchunk : ∀ bytes, field s.mgr.active.offset chunk.length (change bytes) = chunk)
      (r : Except SegmentError Unit × SegmentManager × Disk)
      (hprep : SegmentManager.PrepareCase
        (s.mgr.filled st (s.mgr.active.offset + chunk.length))
        (s.disk.modify s.mgr.active.id change) append.prepare r)
      (committed : ℕ)
      (hcommitted : r.1 = .ok () ∧ committed = s.committed + k ∨
        r.1 ≠ .ok () ∧ committed = s.committed) :
      CommitCase C s count nonce checkpoint env append roll
        { s with mgr := r.2.1, disk := r.2.2, committed := committed }
  | unrolled (hfits : ¬ s.mgr.Fits (s.batch count)) (e : SegmentError) (m : SegmentManager)
      (vol : Volume) (hroll : SegmentManager.RollCase s.mgr s.volume roll (.error e, m, vol)) :
      CommitCase C s count nonce checkpoint env append roll (s.put m vol)
  | rolled (hfits : ¬ s.mgr.Fits (s.batch count)) (m : SegmentManager) (vol : Volume)
      (hroll : SegmentManager.RollCase s.mgr s.volume roll (.ok (), m, vol)) :
      CommitCase C s count nonce checkpoint env append roll
        { s.put m { vol with disk := m.rollCleanup C vol.disk checkpoint env } with
          sealedAt := Function.update s.sealedAt s.mgr.active.id s.mgr.active.offset }

variable {count : ℕ} {st : ShardState}

theorem batch_ne_nil (hc : 0 < count) (hle : st.committed + count ≤ st.published.length) :
    st.batch count ≠ [] := by
  intro hn
  have hl := ShardState.batch_length hle
  rw [hn, List.length_nil] at hl
  omega

theorem commitBatch_cases (nonce : Nonce) (cp : UInt64) (env : SegmentManager.RollEnv)
    (append : AppendOutcomes) (roll : RollOutcomes) (ht : 0 < count)
    (hle : s.committed + count ≤ s.published.length) :
    CommitCase C s count nonce cp env append roll
      (s.commitBatch C cfg count nonce cp env append roll) := by
  have hcs := appendBatch_cases (C := C) (m := s.mgr) (d := s.disk) nonce
    s.committed append (batch_ne_nil ht hle)
  unfold DeviceShard.commitBatch
  generalize s.mgr.appendBatchWith C s.disk nonce s.committed (s.batch count) append = r at hcs
  cases hcs with
  | full hf =>
    have hr := rollSwap_cases (C := C) (m := s.mgr) s.volume (cfg.recordId s.committed) roll
    unfold rollWith
    simp only
    generalize hw : s.mgr.rollSwapWith C s.volume (cfg.recordId s.committed) roll = r at hr
    rw [show ({ s.volume with disk := s.disk } : Volume) = s.volume from rfl, hw]
    obtain ⟨result, m, vol⟩ := r
    cases result with
    | error e => exact .unrolled hf e m vol hr
    | ok _ => exact .rolled hf m vol hr
  | failed hf st hm e change hp ho => exact .failed hf st hm change hp ho
  | wrote hf st hm k hk hle chunk ha change hp hc r hpr =>
    cases hpr with
    | skipped h =>
      exact .wrote hf st hm k hk hle chunk ha change hp hc _ (.skipped h) _ (.inl ⟨rfl, rfl⟩)
    | refused e hn h =>
      exact .wrote hf st hm k hk hle chunk ha change hp hc _ (.refused e hn h) _ (.inr ⟨nofun, rfl⟩)
    | torn e d' data hn ho h =>
      exact .wrote hf st hm k hk hle chunk ha change hp hc _
        (.torn e d' data hn ho h) _ (.inr ⟨nofun, rfl⟩)
    | created seg d' data hn hs h ho =>
      exact .wrote hf st hm k hk hle chunk ha change hp hc _
        (.created seg d' data hn hs h ho) _ (.inl ⟨rfl, rfl⟩)

theorem CommitCase.files {roll : RollOutcomes} {s' : DeviceShard}
    (hcs : CommitCase C s count nonce checkpoint env append roll s')
    (hg : (s'.disk.get g).isSome = true) : (s.disk.get g).isSome = true ∨ g = s.mgr.nextId := by
  cases hcs with
  | failed hf st hs change hkp => exact .inl (isSome_get_modify _ _ _ _ ▸ hg)
  | wrote hf st hs k hk hle chunk ha change hkp hc r hp committed ho =>
    exact (hp.files hg).imp_left fun h => isSome_get_modify _ _ _ _ ▸ h
  | unrolled hf e m vol hr => exact hr.files hg
  | rolled hf m vol hr =>
    apply hr.files
    obtain ⟨data, he⟩ := isSome_iff_exists.mp hg
    have hd : Disk.Deletes m.activeId vol.disk (m.rollCleanup C vol.disk checkpoint env) :=
      rollCleanup_deletes _ _ _
    exact isSome_iff_exists.mpr ⟨data, get_of_mem (hd.mem (mem_of_get he))⟩

theorem fits_batch_iff (hc : 0 < count) : st.mgr.Fits (st.batch count) ↔ st.NextFits := by
  unfold SegmentManager.Fits ShardState.NextFits ShardState.batch
  rw [List.head?_take, if_neg hc.ne']

section Managers

variable {m m' : SegmentManager} {d d' : Disk}

theorem ManagerOf.filled (h : ManagerOf C cfg m) {st : SegmentManager.BatchFill}
    (hs : ActiveSegment.SameFile st.active m.active) (offset : ℕ) :
    ManagerOf C cfg (m.filled st offset) :=
  { h with active_compressed := hs.compressed_eq.trans h.active_compressed }

variable {seg : ActiveSegment}

theorem ManagerOf.swapActive (h : ManagerOf C cfg m) {newId : ℕ}
    (hs : seg.Fresh newId m.compressed) : ManagerOf C cfg (m.swapActive newId seg) :=
  { h with active_compressed := hs.compressed_eq.trans h.compressed_eq }

theorem OnDisk.mono (h : m.OnDisk d) (ha : m'.active.id = m.active.id)
    (hid : m'.activeId = m.activeId) (hr : m'.preparedSegment = m.preparedSegment)
    (hc : m'.compressed = m.compressed)
    (hf : ∀ g, (d.get g).isSome = true → (d'.get g).isSome = true) : m'.OnDisk d' where
  active_id := by rw [ha, hid, h.active_id]
  file := by
    rw [ha]
    exact hf _ h.file
  prepared := by
    intro p hp
    rw [hr] at hp
    obtain ⟨hn, hs, hl⟩ := h.prepared p hp
    unfold nextId
    rw [hid, hc]
    exact ⟨hn, hs, hf p.1 hl⟩

theorem PrepareCase.manager {o : FileOutcome} {r : Except SegmentError Unit × SegmentManager × Disk}
    (h : SegmentManager.PrepareCase m d o r) (hm : ManagerOf C cfg m) (hd : m.OnDisk d) :
    ManagerOf C cfg r.2.1 ∧ r.2.1.OnDisk r.2.2 := by
  cases h with
  | torn e d' data hn ho h =>
    refine ⟨hm, hd.active_id, ?_, ?_⟩
    · rw [get_create h]
      split_ifs
      · rfl
      · exact hd.file
    · intro p hp
      rw [show m.preparedSegment = none from hn] at hp
      cases hp
  | created seg d' data hn hs h =>
    refine ⟨{ hm with }, hd.active_id, ?_, ?_⟩
    · rw [get_create h]
      split_ifs
      · rfl
      · exact hd.file
    · intro p hp
      cases hp
      refine ⟨rfl, hs, ?_⟩
      rw [get_create h, if_pos rfl, isSome_some]
  | _ => exact ⟨hm, hd⟩

theorem OnDisk.swapActive (hs : seg.Fresh m.nextId m.compressed)
    (hf : (d.get m.nextId).isSome = true) : (m.swapActive m.nextId seg).OnDisk d  where
  active_id := hs.id_eq
  file := (congrArg (fun id => (d.get id).isSome) hs.id_eq).trans hf
  prepared _ hp := by cases hp

end Managers

/-- The manager is that of the configuration, and its files are there. -/
structure Mounted (C : Crates) (cfg : ShardConfig) (s : DeviceShard) : Prop where
  mgr : ManagerOf C cfg s.mgr
  disk : s.mgr.OnDisk s.disk

namespace Mounted

variable {s' : DeviceShard} {roll : RollOutcomes}

section

variable (h : Mounted C cfg s)
include h

theorem rolled (hb : s.mgr.activeId + 1 < 2 ^ 32) {m : SegmentManager}
    {vol : Volume} (hr : SegmentManager.RollCase s.mgr s.volume roll (.ok (), m, vol))
    (cp : UInt64) (env : SegmentManager.RollEnv) :
    ManagerOf C cfg m ∧ m.OnDisk (m.rollCleanup C vol.disk cp env) := by
  obtain ⟨seg, hm, hs, hf, -⟩ := hr.of_ok (h.disk.lt_nextId hb) rfl h.disk
  obtain rfl : m = s.mgr.swapActive s.mgr.nextId seg := hm
  have hk : ((s.mgr.swapActive s.mgr.nextId seg).rollCleanup C vol.disk cp env).get
      s.mgr.nextId = vol.disk.get s.mgr.nextId :=
    (rollCleanup_deletes vol.disk cp env).get_of_le le_rfl
  refine ⟨h.mgr.swapActive hs, OnDisk.swapActive hs ?_⟩
  rw [hk]
  exact hf

theorem commit {count : ℕ} (hb : s.mgr.activeId + 1 < 2 ^ 32)
    (hcs : CommitCase C s count nonce checkpoint env append roll s') : Mounted C cfg s' := by
  have hn := h.disk.lt_nextId hb
  cases hcs with
  | failed hf st hs change hkp =>
    have hr := rests_failed s.volume hs hkp
    exact ⟨h.mgr.filled hs _, OnDisk.mono h.disk hs.id_eq rfl rfl rfl hr.files⟩
  | wrote hf st hs k hk hle chunk ha change hkp hc r hp committed he =>
    have hw := appends_wrote s.volume hs hkp hc
    have hi : (s.mgr.filled st (s.mgr.active.offset + chunk.length)).OnDisk _ :=
      OnDisk.mono h.disk hs.id_eq rfl rfl rfl hw.files
    obtain ⟨hg, hd⟩ := PrepareCase.manager hp (h.mgr.filled hs _) hi
    exact ⟨hg, hd⟩
  | unrolled hf e m vol ho =>
    obtain ⟨hm, hr⟩ := ho.of_error hn rfl
    obtain rfl : m = s.mgr := hm
    exact ⟨h.mgr, OnDisk.mono h.disk rfl rfl rfl rfl hr.files⟩
  | rolled hf m vol ho =>
    obtain ⟨hg, hd⟩ := h.rolled hb ho checkpoint env
    exact ⟨hg, hd⟩

theorem publish (ts : UInt64) (content : Bytes) : Mounted C cfg (s.publish C cfg ts content) :=
  ⟨h.mgr, h.disk⟩

theorem syncAll (o : SyncOutcomes) : Mounted C cfg (s.syncAll o).2 := by
  obtain ⟨hm, hd⟩ := s.mgr.syncAllWith_eq s.volume o
  constructor
  · show ManagerOf C cfg (s.mgr.syncAllWith s.volume o).2.1
    rw [hm]
    exact { h.mgr with }
  · show (s.mgr.syncAllWith s.volume o).2.1.OnDisk (s.mgr.syncAllWith s.volume o).2.2.disk
    rw [hm, hd]
    exact { h.disk with }

theorem advance (o : SyncOutcomes) : Mounted C cfg (s.advance o) := by
  have hs : (s.advance o).disk.segments = s.disk.segments := saveActiveIndexWith_segments _ _
  refine ⟨h.mgr, OnDisk.mono h.disk rfl rfl rfl rfl fun g hg => ?_⟩
  rw [get_congr hs]
  exact hg

theorem drain (ok : ℕ → Bool) : Mounted C cfg (s.drainPendingFsyncs ok) := by
  have hd : (s.drainPendingFsyncs ok).disk = s.disk :=
    drainPending_disk ok s.mgr.pendingFsync s.volume
  refine ⟨{ h.mgr with }, ?_⟩
  rw [hd]
  exact { h.disk with }

end

theorem fresh {st : ShardState} (hf : ShardState.fresh C cfg = .ok st) :
    ManagerOf C cfg st.mgr ∧ st.mgr.OnDisk st.disk := by
  have hs := refines_fresh hf
  have hr : st.mgr.preparedSegment = none := hs.prepared_eq
  obtain ⟨data, hg, -⟩ := map_eq_some_iff.mp hs.offset_eq
  refine ⟨hs.mgr, hs.active_id.trans hs.activeId_eq.symm, ?_, ?_⟩
  · rw [hs.active_id, hg, isSome_some]
  · intro p hp
    rw [hr] at hp
    cases hp

end Mounted

namespace DeviceEvent

variable {n : ℕ}

/-- The next segment id has 32 bits. -/
def Bounded (db : Fin n → DeviceShard) : DeviceEvent n → Prop
  | commit k _ _ _ _ _ _ => (db k).mgr.activeId + 1 < 2 ^ 32
  | _ => True

end DeviceEvent

theorem DeviceShard.exists_fresh (h : DeviceShard.fresh C cfg = .ok s) :
    ∃ st, ShardState.fresh C cfg = .ok st ∧
      s = ⟨st, fun _ => none, fun id => (st.disk.get id).isSome, fun _ => 0⟩ := by
  unfold DeviceShard.fresh at h
  cases hs : ShardState.fresh C cfg with
  | error e =>
    rw [hs] at h
    cases h
  | ok st =>
    rw [hs] at h
    cases h
    exact ⟨st, rfl, rfl⟩

theorem fresh_files (h : ShardState.fresh C cfg = .ok st)
    (hg : (st.disk.get g).isSome = true) : g = 1 := by
  obtain ⟨data, he⟩ := isSome_iff_exists.mp hg
  obtain ⟨seg, hs, hf⟩ := exists_of_forall₂ (refines_fresh h).files (mem_of_get he)
  obtain rfl := List.mem_singleton.mp hs
  exact hf.1

end LogDb.Pipeline
