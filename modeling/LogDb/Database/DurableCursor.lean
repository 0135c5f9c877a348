import LogDb.Database.Run
import LogDb.Pipeline.DeviceRun
import LogDb.Pipeline.Durable
import LogDb.Pipeline.ShardScan

/-!
What the durable cursor of a shard promises when calls of the device may fail: that the records
below it are synced, and that the entries of their files are.
-/

namespace LogDb.Database

open Lib Format Storage Pipeline List Function Option

section Conditions

variable {n : ℕ}

/-- Every file that waits in the queue of a shard for its last sync can be synced then. -/
def SyncsQueued (db : Fin n → DeviceShard) : DeviceEvent n → Prop
  | .sync o => ∀ k, ∀ id ∈ (db k).mgr.pendingFsync,
      (o k).pending id = true ∧ ((db k).disk.get id).isSome = true
  | .idle ok => ∀ k, ∀ id ∈ (db k).mgr.pendingFsync,
      ok k id = true ∧ ((db k).disk.get id).isSome = true
  | _ => True

/-- A roll has to create its segment. -/
def RollsInline (db : Fin n → DeviceShard) : DeviceEvent n → Prop
  | .commit k count _ _ _ _ _ =>
    ¬ (db k).mgr.Fits ((db k).batch count) → (db k).mgr.preparedSegment = none
  | _ => True

/-- The creation of the next segment ahead of its use does not fail. -/
def Prepares : DeviceEvent n → Prop
  | .commit _ _ _ _ _ append _ => append.prepare = .done
  | _ => True

def FaultFree : DeviceEvent n → Prop
  | .publish _ _ _ => True
  | .commit _ _ _ _ _ append roll => append = .good ∧ roll = .good
  | .sync o => ∀ k, o k = .good
  | .idle ok => ∀ k id, ok k id = true

end Conditions

/-- Nothing fails that the durable cursor or the committed one rests on. -/
structure Undisturbed {n : ℕ} (db : Fin n → DeviceShard) (ev : DeviceEvent n) : Prop where
  bounded : ev.Bounded db
  syncs : SyncsQueued db ev
  inline : RollsInline db ev
  prepares : Prepares ev

/-- Two records in two segments. The first pass cannot sync the active one, and the next pass goes
on from there. -/
theorem deviceReachable_rolled : ∃ s, DeviceReachable rawCrates (fun _ : Fin 1 => rawShard)
    Undisturbed (fun _ => s) ∧ s.mgr.active.id = 2 ∧ s.durable = 2 ∧ s.committed = 2 := by
  have hl := mediumRecord_length
  have ha : Admits rawCrates rawShard (fun log => log.prepared = none)
      (OnDevice rawCrates rawShard Undisturbed False) mediumRecord :=
    admits_onDevice rfl (fun _ => ⟨trivial, trivial, trivial, trivial⟩)
      (fun _ _ hn ht hb => ⟨hb, trivial, fun _ => ht.preparedSegment_eq_none hn, rfl⟩)
      fun _ _ => False.elim
  obtain ⟨-, _, ⟨s, rfl, hs, hq⟩, ht⟩ := follows_twoSegments rawCrates_lawful ⟨rfl, rfl⟩ ha
    (onDevice_fresh _ _ _ _) (by rw [hl]; decide) (fun _ hn => hn) (by rw [hl]; decide)
    (by rw [hl]; decide)
  have hf : ∀ id ∈ s.mgr.pendingFsync, (s.disk.get id).isSome = true := by
    intro id hid
    rw [hq.queue_eq] at hid
    obtain ⟨header, -, he⟩ := ht.get_raw (mem_cons_self : (oneAppended rawCrates rawShard
      mediumRecord).active ∈ (twoSegments rawCrates rawShard mediumRecord).segments) rfl
    rw [mem_singleton.mp hid]
    exact isSome_iff_exists.mpr ⟨_, he⟩
  have hr := hs.sync_failed (o := ⟨fun _ => true, false, .done⟩) rfl
    ⟨trivial, fun _ id hid => ⟨rfl, hf id hid⟩, trivial, trivial⟩
  have hg := hr.sync_good nofun
    ⟨trivial, nofun, trivial, trivial⟩
  have hc := ht.committed_eq
  exact ⟨_, hg, ht.active_id, hc, hc⟩

section PreparedRoll

def firstView : ReadView :=
  nextView rawCrates rawShard [] 0 largeRecord

def secondView : ReadView :=
  nextView rawCrates rawShard [firstView] 0 mediumRecord

theorem firstView_ne_secondView : firstView ≠ secondView := by
  intro h
  have hc := congrArg (fun v : ReadView => v.content.length) h
  have hl : firstView.content.length = 900000 := largeRecord_length
  have hm : secondView.content.length = 600000 := mediumRecord_length
  simp only [hl, hm] at hc
  cases hc

theorem firstView_length : (batchBytes rawCrates [firstView]).length = 900060 := by
  have hl : firstView.content.length = 900000 := largeRecord_length
  rw [batchBytes_cons, batchBytes_nil, append_nil, storedRecord_length, hl]
  rfl

theorem fileLength_firstView : fileLength rawCrates [firstView] = 900188 := by
  rw [fileLength, firstView_length, segmentHeaderSize]

theorem secondView_length : (batchBytes rawCrates [secondView]).length = 600060 := by
  have hm : secondView.content.length = 600000 := mediumRecord_length
  rw [batchBytes_cons, batchBytes_nil, append_nil, storedRecord_length, hm]
  rfl

/-- A record that goes to the segment which was prepared behind the first one. -/
def rolledLog : Log :=
  (earlyPrepared rawCrates rawShard largeRecord).appendRolled rawCrates rawShard mediumRecord

theorem active_mem_rolledLog : rolledLog.active ∈ rolledLog.segments :=
  mem_append_right _ mem_cons_self

theorem firstSegment_mem_rolledLog :
    (⟨1, 0, zeros32, [firstView]⟩ : LogSegment) ∈ rolledLog.segments :=
  mem_cons_self

/-- A run without failures leads there, in which only the first file has a synced entry, no file
has been synced, and the first one is queued. -/
theorem follows_rolledLog : FollowsBy rawCrates rawShard
    (OnDevice rawCrates rawShard (fun _ ev => FaultFree ev) True) rolledLog := by
  have hl := largeRecord_length
  have hm := mediumRecord_length
  have ha : ∀ content, Admits rawCrates rawShard (fun log => log.prepared = none →
      fileLength rawCrates (log.append 1).active.records ≤ rawShard.segmentSize)
      (OnDevice rawCrates rawShard (fun _ ev => FaultFree ev) True) content := fun _ =>
    admits_onDevice rfl (fun _ => trivial) (fun _ _ _ _ _ => ⟨rfl, rfl⟩) fun _ hq _ => hq
  have hp : FollowsBy rawCrates rawShard (OnDevice rawCrates rawShard (fun _ ev => FaultFree ev)
      True) (earlyPrepared rawCrates rawShard largeRecord) := by
    refine follows_earlyPrepared rawCrates_lawful ⟨rfl, rfl⟩ (ha _) (onDevice_fresh _ _ _ _) ?_
      (fun _ => ?_) ?_ ?_
    on_goal 2 => rw [Log.fileLength_published rfl]
    all_goals
      rw [hl]
      decide
  refine hp.append_rolled rawCrates_lawful ⟨rfl, rfl⟩ (ha _) ?_ (by decide) rfl nofun (by decide) ?_
    ?_ fun _ => ?_
  · rw [hm]
    decide
  · have hn : fileLength rawCrates (earlyPrepared rawCrates rawShard largeRecord).active.records =
        _ := fileLength_oneAppended rawCrates rawShard largeRecord
    rw [hn, hl, hm]
    decide
  · rw [hm]
    decide
  · rw [hp.1.fileLength_rolled rfl, hm]
    decide

end PreparedRoll

section Runs

variable {n : ℕ} {C : Crates} {cfgs : Fin n → ShardConfig} {db : Fin n → DeviceShard}

theorem deviceInv_of_reachable {strict : Prop} (h : DeviceReachable C cfgs (fun db ev =>
    ev.Bounded db ∧ SyncsQueued db ev ∧ (strict → RollsInline db ev)) db) (k : Fin n) :
    DeviceInv C (cfgs k) strict (db k) := by
  apply h.invariant
  · intro k s hs
    exact DeviceInv.fresh hs
  · rintro db ev k s' hi he ⟨hb, hq, hie⟩ hc
    have hk := hi k
    cases hc with
    | stays => exact hk
    | publish timestampNs content => exact hk.publish timestampNs content
    | commit count nonce checkpoint env append roll =>
      exact hk.commit hb (commitBatch_cases nonce checkpoint env append roll he.1 he.2) hie
    | synced o => exact hk.syncAll (hq k)
    | advanced o hd => exact hk.advance (hq k) hd
    | drained ok => exact hk.drain (hq k)

def SyncedIn (C : Crates) (cfg : ShardConfig) (s : DeviceShard) (g : ℕ) (v : ReadView) : Prop :=
  ∃ bytes, s.stable g = some bytes ∧ HoldsRecord C cfg bytes v

theorem synced_of_inv {cfg : ShardConfig} {strict : Prop} {s : DeviceShard}
    (h : DeviceInv C cfg strict s) {i : ℕ} (hi : i < s.durable) :
    ∃ v, s.published[i]? = some v ∧ ∃ g, SyncedIn C cfg s g v ∧
      (∀ now, s.disk.get g = some now → HoldsRecord C cfg now v) ∧
      (strict → s.entries g = true) := by
  obtain ⟨v, hv, g, views, body, hw, hm, hp, ⟨bytes, hs, hf⟩, he⟩ := h.durable i hi
  refine ⟨v, hv, g, ⟨bytes, hs, views, body, hw, hm, hf⟩, ?_, he⟩
  intro now hn
  exact ⟨views, body, hw, hm, hp.file now hn⟩

/-- As long as no sync of a queued file fails, every record below the durable cursor is in a file
that was synced with the record in it, and stays there as long as the file does. -/
theorem durable_is_synced (h : DeviceReachable C cfgs (fun db ev =>
    ev.Bounded db ∧ SyncsQueued db ev) db) (k : Fin n) {i : ℕ} (hi : i < (db k).durable) :
    ∃ v, (db k).published[i]? = some v ∧ ∃ g, SyncedIn C (cfgs k) (db k) g v ∧
      ∀ now, (db k).disk.get g = some now → HoldsRecord C (cfgs k) now v := by
  have hinv : DeviceInv C (cfgs k) False (db k) :=
    deviceInv_of_reachable (h.mono fun _ _ hok => ⟨hok.1, hok.2, False.elim⟩) k
  obtain ⟨v, hv, g, hy, hn, -⟩ := synced_of_inv hinv hi
  exact ⟨v, hv, g, hy, hn⟩

theorem durable_is_synced_rolled : ∃ s : DeviceShard, s.mgr.active.id = 2 ∧ 0 < s.durable ∧
    ∃ v, s.published[0]? = some v ∧ ∃ g, SyncedIn rawCrates rawShard s g v := by
  obtain ⟨s, hr, hid, hd, -⟩ := deviceReachable_rolled
  have hp : 0 < s.durable := hd ▸ two_pos
  obtain ⟨v, hv, g, hy, -⟩ :=
    durable_is_synced (hr.mono fun _ _ hok => ⟨hok.bounded, hok.syncs⟩) 0 hp
  exact ⟨s, hid, hp, v, hv, g, hy⟩

/-- When the sync of a queued file fails, the queue is gone, the next pass succeeds, and the cursor
moves over a record that is in no synced file. -/
theorem failed_sync_is_forgotten : ∃ db : Fin 1 → DeviceShard,
      DeviceReachable rawCrates (fun _ => rawShard) (fun _ _ => True) db ∧
      0 < (db 0).durable ∧ ∃ v, (db 0).published[0]? = some v ∧
        ∀ g, ¬ SyncedIn rawCrates rawShard (db 0) g v := by
  obtain ⟨-, _, ⟨s, rfl, hs, hu⟩, ht⟩ := follows_rolledLog
  -- the sync of the first segment fails
  have hrh := (hs.mono fun _ _ _ => trivial).sync_failed (o := ⟨fun _ => false, false, .done⟩)
    rfl trivial
  rw [hu.queue_eq] at hrh
  set t := s.put { s.mgr with pendingFsync := [] } s.volume
  -- the next pass does not know of it any more
  have hp : DeviceReachable rawCrates (fun _ : Fin 1 => rawShard) (fun _ _ => True)
      fun _ => t.syncNow :=
    DeviceReachable.sync_good hrh nofun trivial
  have hsb : t.syncNow.stable = update s.stable s.mgr.active.id (s.disk.get s.mgr.active.id) :=
    congrArg Volume.stable
      (SegmentManager.syncAllWith_of_files rfl fun id (hid : id ∈ []) => nomatch hid).2
  have hc : t.syncNow.durable = 2 := ht.committed_eq
  refine ⟨_, hp, hc ▸ two_pos, firstView, ?_, ?_⟩
  · show s.published[0]? = _
    rw [ht.published_eq]
    rfl
  · rintro g ⟨bytes, hb, hl⟩
    rw [hsb] at hb
    by_cases hg : g = s.mgr.active.id
    · rw [hg, update_self, ht.active_id] at hb
      obtain ⟨header, hh, he⟩ := ht.get_raw active_mem_rolledLog rfl
      rw [he] at hb
      obtain rfl := some.inj hb
      have hm := hl.mem_of_raw rfl hh (secondView_length.trans_lt (by decide))
      exact firstView_ne_secondView (mem_singleton.mp hm)
    · rw [update_of_ne hg, hu.stable trivial] at hb
      cases hb

/-- When besides every roll has to create its segment, the entry of the file is synced too. -/
theorem durable_is_entered (h : DeviceReachable C cfgs (fun db ev =>
    ev.Bounded db ∧ SyncsQueued db ev ∧ RollsInline db ev) db) (k : Fin n) {i : ℕ}
    (hi : i < (db k).durable) :
    ∃ v, (db k).published[i]? = some v ∧ ∃ g, SyncedIn C (cfgs k) (db k) g v ∧
      (db k).entries g = true ∧
      ∀ now, (db k).disk.get g = some now → HoldsRecord C (cfgs k) now v := by
  have hinv : DeviceInv C (cfgs k) True (db k) :=
    deviceInv_of_reachable (h.mono fun _ _ hok => ⟨hok.1, hok.2.1, fun _ => hok.2.2⟩) k
  obtain ⟨v, hv, g, hy, hn, he⟩ := synced_of_inv hinv hi
  exact ⟨v, hv, g, hy, he trivial, hn⟩

theorem durable_is_entered_rolled : ∃ s : DeviceShard, s.mgr.active.id = 2 ∧ 1 < s.durable ∧
    ∃ v, s.published[1]? = some v ∧ ∃ g, SyncedIn rawCrates rawShard s g v ∧
      s.entries g = true := by
  obtain ⟨s, hr, hid, hd, -⟩ := deviceReachable_rolled
  have hp : 1 < s.durable := hd ▸ one_lt_two
  obtain ⟨v, hv, g, hy, he, -⟩ :=
    durable_is_entered (hr.mono fun _ _ hok => ⟨hok.bounded, hok.syncs, hok.inline⟩) 0 hp
  exact ⟨s, hid, hp, v, hv, g, hy, he⟩

/-- The entry of a prepared segment is never synced, so a record in it may be lost with its file,
though nothing failed and the cursor is behind it. -/
theorem prepared_entry_is_unsynced : ∃ db : Fin 1 → DeviceShard,
      DeviceReachable rawCrates (fun _ => rawShard) (fun _ ev => FaultFree ev) db ∧
      1 < (db 0).durable ∧ ∃ v, (db 0).published[1]? = some v ∧
        ∀ g, (db 0).entries g = true → ¬ SyncedIn rawCrates rawShard (db 0) g v := by
  obtain ⟨-, _, ⟨s, rfl, hs, hu⟩, ht⟩ := follows_rolledLog
  obtain ⟨header, hh, he⟩ := ht.get_raw firstSegment_mem_rolledLog rfl
  have hf : ∀ id ∈ s.mgr.pendingFsync, (s.disk.get id).isSome = true := by
    intro id hid
    rw [hu.queue_eq] at hid
    rw [mem_singleton.mp hid]
    exact isSome_iff_exists.mpr ⟨_, he⟩
  have hp := hs.sync_good hf fun _ => rfl
  obtain ⟨hes, hsb⟩ := DeviceShard.syncNow_stable hf
  have hd : s.syncNow.durable = 2 := ht.committed_eq
  refine ⟨_, hp, hd ▸ one_lt_two, secondView, ?_, ?_⟩
  · show s.published[1]? = _
    rw [ht.published_eq]
    rfl
  · rintro g hg ⟨bytes, hb, hl⟩
    obtain rfl : g = 1 := hu.entries trivial g (hes ▸ hg)
    rcases hsb 1 with ho | hn
    · rw [ho, hu.stable trivial] at hb
      cases hb
    · rw [hn, he] at hb
      obtain rfl := some.inj hb
      have hm := hl.mem_of_raw rfl hh (firstView_length.trans_lt (by decide))
      exact firstView_ne_secondView (mem_singleton.mp hm).symm

end Runs

end LogDb.Database
