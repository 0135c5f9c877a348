import LogDb.Storage.Persist

/-!
The segment files of a manager are a journal, and the operations of the manager are steps of it,
whichever of their calls fail.
-/

namespace LogDb.Storage

open Lib Format Journal List Function Option Disk

namespace SegmentManager

variable {m : SegmentManager} {vol : Volume}

def journal (m : SegmentManager) (vol : Volume) : Journal where
  files := vol.disk.get
  stable := vol.stable
  entries := vol.entries
  current := m.active.id
  limit := m.active.offset
  queue := m.pendingFsync

theorem journal_modify (m : SegmentManager) (vol : Volume) (change : Bytes → Bytes) :
    m.journal { vol with disk := vol.disk.modify m.active.id change } =
      (m.journal vol).modify change := by
  unfold journal Journal.modify
  simp only [get_modify_eq]

variable {d : Disk} {st : BatchFill} {change : Bytes → Bytes}
  {r : Except SegmentError Unit × SegmentManager × Volume} {o : RollOutcomes} {e : SegmentError}

theorem journal_create (m : SegmentManager) (vol : Volume) {d' : Disk} {id : ℕ} {data : Bytes}
    (h : d.create id data = some d') :
    m.journal { vol with disk := d' } = (m.journal { vol with disk := d }).create id data := by
  unfold journal Journal.create
  simp only [get_create_eq h]

theorem journal_congr (m : SegmentManager) (vol : Volume) {d' : Disk}
    (h : d'.segments = d.segments) :
    m.journal { vol with disk := d' } = m.journal { vol with disk := d } := by
  unfold journal
  simp only [get_congr h]

theorem journal_filled (hm : ActiveSegment.SameFile st.active m.active) (vol : Volume)
    (offset : ℕ) : (m.filled st offset).journal vol = { m.journal vol with limit := offset } := by
  unfold journal filled
  simp only [hm.id_eq]

section

variable (vol : Volume) (hm : ActiveSegment.SameFile st.active m.active)
include hm

theorem rests_failed (hk : ∀ reserve, KeepsContent reserve m.active.offset change) :
    Rests segmentHeaderSize (m.journal vol) ((m.filled st m.active.offset).journal
      { vol with disk := vol.disk.modify m.active.id change }) := by
  rw [journal_filled hm, journal_modify]
  exact rests_modify (hk _)

theorem appends_wrote {chunk : Bytes} (hk : KeepsContent segmentHeaderSize m.active.offset change)
    (hc : ∀ bytes, field m.active.offset chunk.length (change bytes) = chunk) :
    Appends segmentHeaderSize (m.journal vol)
      ((m.filled st (m.active.offset + chunk.length)).journal
        { vol with disk := vol.disk.modify m.active.id change }) chunk := by
  have hr : Rests segmentHeaderSize (m.journal vol) ((m.journal vol).modify change) :=
    rests_modify hk
  rw [journal_filled hm, journal_modify]
  apply hr.appends
  intro bytes hg
  simp only [Journal.modify, update_self] at hg
  obtain ⟨old, -, rfl⟩ := map_eq_some_iff.mp hg
  exact hc old

end

/-- The active segment is there, and one that waits to be used is the next one, is there, and holds
nothing yet. -/
structure OnDisk (m : SegmentManager) (d : Disk) : Prop where
  active_id : m.active.id = m.activeId
  file : (d.get m.active.id).isSome = true
  prepared : ∀ p ∈ m.preparedSegment,
    p.1 = m.nextId ∧ p.2.Fresh p.1 m.compressed ∧ (d.get p.1).isSome = true

theorem OnDisk.lt_nextId (h : m.OnDisk d) (hb : m.activeId + 1 < 2 ^ 32) :
    m.active.id < m.nextId := by
  unfold nextId
  rw [h.active_id, Nat.mod_eq_of_lt hb]
  exact lt_add_one _

theorem PrepareCase.rests {o : FileOutcome} {r : Except SegmentError Unit × SegmentManager × Disk}
    (h : PrepareCase m d o r) (hn : m.active.id < m.nextId) (vol : Volume) :
    Rests segmentHeaderSize (m.journal { vol with disk := d })
      (r.2.1.journal { vol with disk := r.2.2 }) := by
  cases h with
  | skipped => exact .refl _ _
  | refused e hnn h => exact .refl _ _
  | torn e d' data hnn ho h =>
    rw [journal_create m vol h]
    exact rests_create data hn
  | created seg d' data hnn hs h =>
    have hc : Rests segmentHeaderSize (m.journal { vol with disk := d })
        ((m.journal { vol with disk := d }).create m.nextId data) := rests_create data hn
    rw [← journal_create m vol h] at hc
    exact hc

theorem rests_backfilled (m : SegmentManager) (vol : Volume)
    (hk : ∀ limit, KeepsContent segmentHeaderSize limit change)
    (hs : d.segments = (vol.disk.modify m.active.id change).segments) :
    Rests segmentHeaderSize (m.journal vol) (m.journal { vol with disk := d }) := by
  rw [journal_congr m vol hs, journal_modify]
  exact rests_modify (hk _)

theorem RollCase.of_error (h : RollCase m vol o r) (hn : m.active.id < m.nextId)
    (hr : r.1 = .error e) :
    r.2.1 = m ∧ Rests segmentHeaderSize (m.journal vol) (m.journal r.2.2) := by
  cases h with
  | failed e change hk d hs =>
    exact ⟨rfl, rests_backfilled m vol hk hs⟩
  | torn e change hk d d' hs hnn data hcr ho vol' hv =>
    refine ⟨rfl, ?_⟩
    have hc := (rests_backfilled m vol hk hs).trans (rests_create data hn)
    rw [← journal_create m vol hcr] at hc
    rcases hv with rfl | rfl
    · exact hc
    · apply hc.trans
      apply rests_sync
      show (d'.get m.nextId).isSome = true
      rw [get_create hcr, if_pos rfl, isSome_some]
  | _ => cases hr

/-- Without failures only a file in its way stops a roll. -/
theorem RollCase.of_good (h : RollCase m vol .good r) (hr : r.1 = .error e) :
    m.preparedSegment = none ∧ (vol.disk.get m.nextId).isSome = true := by
  cases h with
  | failed e change hk d hg ho =>
    rcases ho with hne | hi
    · exact absurd rfl hne
    · exact hi
  | torn e change hk d d' hg hn data hc ho vol' hv =>
    rcases ho with ⟨written, hw⟩ | hs | hd | hd
    · cases hw
    · cases hs
    · cases hd
    · cases hd
  | _ => cases hr

theorem journal_swapActive {newId : ℕ} {seg : ActiveSegment} (hs : seg.Fresh newId m.compressed)
    (vol : Volume) :
    (m.swapActive newId seg).journal vol = (m.journal vol).switch segmentHeaderSize newId := by
  unfold journal swapActive switch
  simp only [hs.id_eq, hs.offset_eq]

/-- A roll that succeeds goes on to a fresh segment. If it had to create it, the entry of the new
file is synced. -/
theorem RollCase.of_ok (h : RollCase m vol o r) (hn : m.active.id < m.nextId) (hr : r.1 = .ok ())
    (hd : m.OnDisk vol.disk) :
    ∃ seg, r.2.1 = m.swapActive m.nextId seg ∧ seg.Fresh m.nextId m.compressed ∧
      (r.2.2.disk.get m.nextId).isSome = true ∧
      (∀ g, (vol.disk.get g).isSome = true → (r.2.2.disk.get g).isSome = true) ∧
      Evolves segmentHeaderSize (m.journal vol) (r.2.1.journal r.2.2) ∧
      Remembers segmentHeaderSize (m.journal vol) (r.2.1.journal r.2.2) ∧
      (m.preparedSegment = none → r.2.2.entries m.nextId = true) := by
  cases h with
  | prepared change hk d hg newId seg hp =>
    obtain ⟨rfl, hs, hi⟩ := hd.prepared (newId, seg) hp
    have hrs := rests_backfilled m vol hk hg
    refine ⟨seg, rfl, hs, hrs.files m.nextId hi, hrs.files, ?_, ?_, ?_⟩
    · rw [journal_swapActive hs]
      exact hrs.evolves.trans (evolves_switch hn)
    · rw [journal_swapActive hs]
      exact hrs.remembers.trans hrs.evolves (remembers_switch m.nextId)
    · intro hnn
      rw [hp] at hnn
      cases hnn
  | created change hk d d' hg hnn data hcr seg hs =>
    have hi : (d'.get m.nextId).isSome = true := by
      rw [get_create hcr, if_pos rfl, isSome_some]
    -- the new file is created, synced and entered before the switch
    have hc := (rests_backfilled m vol hk hg).trans (rests_create data hn)
    rw [← journal_create m vol hcr] at hc
    have hy := (hc.trans (rests_sync hi)).trans rests_syncDir
    refine ⟨seg, rfl, hs, hi, hy.files, ?_, ?_, ?_⟩
    · rw [journal_swapActive hs]
      exact hy.evolves.trans (evolves_switch hn)
    · rw [journal_swapActive hs]
      exact hy.remembers.trans hy.evolves (remembers_switch m.nextId)
    · intro _
      simp only [Volume.syncDir, Volume.fdatasync, hi, Bool.or_true]
  | _ => cases hr

theorem evolves_deletes {bound : ℕ} (h : Disk.Deletes bound vol.disk d) :
    Evolves segmentHeaderSize (m.journal vol) (m.journal { vol with disk := d }) where
  placed _ _ hp :=
    ⟨fun bytes hg => hp.file bytes (get_of_mem (h.mem (mem_of_get hg))), hp.le, hp.below⟩
  synced _ _ _ hs := hs
  entries _ he := he

section Sync

variable {ok : ℕ → Bool} {ids : List ℕ} {g : ℕ} {body : Bytes}

theorem rests_fsyncPath (m : SegmentManager) (vol : Volume) (id : ℕ) (ok : Bool) :
    Rests segmentHeaderSize (m.journal vol) (m.journal (vol.fsyncPath id ok).2) := by
  unfold Volume.fsyncPath
  split_ifs
  · rename_i hok
    exact rests_sync (Bool.and_eq_true_iff.mp hok).2
  · exact .refl _ _

theorem fsyncPath_synced {ok : Bool} (hd : (vol.fsyncPath g ok).1 = true)
    (hp : (m.journal vol).Placed segmentHeaderSize g body) :
    (m.journal (vol.fsyncPath g ok).2).Synced segmentHeaderSize g body := by
  unfold Volume.fsyncPath at hd ⊢
  split_ifs at hd ⊢ with hok
  exact hp.synced (Bool.and_eq_true_iff.mp hok).2

theorem fsyncPath_disk (vol : Volume) (id : ℕ) (ok : Bool) :
    (vol.fsyncPath id ok).2.disk = vol.disk := by
  unfold Volume.fsyncPath
  split_ifs <;> rfl

theorem fsyncPath_of_file {id : ℕ} {ok : Bool} (hok : ok = true)
    (hi : (vol.disk.get id).isSome = true) : vol.fsyncPath id ok = (true, vol.fdatasync id) := by
  unfold Volume.fsyncPath
  rw [hok, hi]
  rfl

theorem rests_syncPending (m : SegmentManager) (ok : ℕ → Bool) (ids : List ℕ) (vol : Volume) :
    Rests segmentHeaderSize (m.journal vol) (m.journal (syncPending ok ids vol).2) := by
  induction ids generalizing vol with
  | nil => exact .refl _ _
  | cons id ids ih =>
    have hf := rests_fsyncPath m vol id (ok id)
    unfold syncPending
    split
    · rename_i vol' hsp
      rw [hsp] at hf
      exact hf.trans (ih vol')
    · rename_i vol' hsp
      rw [hsp] at hf
      exact hf

theorem syncPending_synced (hd : (syncPending ok ids vol).1 = true)
    (hp : (m.journal vol).Placed segmentHeaderSize g body) (hg : g ∈ ids) :
    (m.journal (syncPending ok ids vol).2).Synced segmentHeaderSize g body := by
  induction ids generalizing vol with
  | nil => exact absurd hg not_mem_nil
  | cons id ids ih =>
    have hrs := rests_fsyncPath m vol id (ok id)
    unfold syncPending at hd ⊢
    cases hs : vol.fsyncPath id (ok id) with
    | mk done vol' =>
      rw [hs] at hrs hd
      cases done with
      | false => cases hd
      | true =>
        have hp' := hrs.evolves.placed g body hp
        by_cases hr : g ∈ ids
        · exact ih hd hp' hr
        · obtain rfl : g = id := (mem_cons.mp hg).resolve_right hr
          have hy := fsyncPath_synced (congrArg Prod.fst hs) hp
          rw [hs] at hy
          exact (rests_syncPending m ok ids vol').evolves.synced g body hp' hy

theorem syncPending_of_files (hok : ∀ id ∈ ids, ok id = true ∧ (vol.disk.get id).isSome = true) :
    (syncPending ok ids vol).1 = true := by
  induction ids generalizing vol with
  | nil => rfl
  | cons id ids ih =>
    obtain ⟨hid, hi⟩ := hok id mem_cons_self
    unfold syncPending
    rw [fsyncPath_of_file hid hi]
    exact ih fun id' hid' => hok id' (mem_cons_of_mem id hid')

theorem evolves_dropped (m : SegmentManager) (vol : Volume) :
    Evolves segmentHeaderSize (m.journal vol)
      (({ m with pendingFsync := [] } : SegmentManager).journal vol) :=
  ⟨fun _ _ hp => ⟨hp.file, hp.le, hp.below⟩, fun _ _ _ hs => hs, fun _ he => he⟩

theorem syncPending_disk (ok : ℕ → Bool) (ids : List ℕ) (vol : Volume) :
    (syncPending ok ids vol).2.disk = vol.disk := by
  induction ids generalizing vol with
  | nil => rfl
  | cons id ids ih =>
    have hf := fsyncPath_disk vol id (ok id)
    unfold syncPending
    split
    · rename_i vol' hsp
      rw [hsp] at hf
      exact (ih vol').trans hf
    · rename_i vol' hsp
      rw [hsp] at hf
      exact hf

theorem syncAllWith_eq (m : SegmentManager) (vol : Volume) (o : SyncOutcomes) :
    (m.syncAllWith vol o).2.1 = { m with pendingFsync := [] } ∧
      (m.syncAllWith vol o).2.2.disk = vol.disk := by
  have hd := syncPending_disk o.pending m.pendingFsync vol
  unfold syncAllWith
  split
  · rename_i vol' hsp
    rw [hsp] at hd
    exact ⟨rfl, hd⟩
  · rename_i vol' hsp
    rw [hsp] at hd
    split_ifs
    · exact ⟨rfl, hd⟩
    · exact ⟨rfl, hd⟩

theorem syncPending_stable (ok : ℕ → Bool) (ids : List ℕ) (vol : Volume) :
    (syncPending ok ids vol).2.entries = vol.entries ∧
      ∀ g, (syncPending ok ids vol).2.stable g = vol.stable g ∨
        (syncPending ok ids vol).2.stable g = vol.disk.get g := by
  induction ids generalizing vol with
  | nil => exact ⟨rfl, fun _ => .inl rfl⟩
  | cons id ids ih =>
    unfold syncPending Volume.fsyncPath
    split_ifs
    · obtain ⟨he, hs⟩ := ih (vol.fdatasync id)
      refine ⟨he, fun g => ?_⟩
      rcases hs g with heq | heq
      · simp only [heq]
        by_cases hg : g = id
        · subst hg
          exact .inr (update_self _ _ _)
        · exact .inl (update_of_ne hg _ _)
      · exact .inr heq
    · exact ⟨rfl, fun _ => .inl rfl⟩

variable {o : SyncOutcomes}

theorem syncAllWith_of_files (ho : o.active = true)
    (hok : ∀ id ∈ m.pendingFsync, o.pending id = true ∧ (vol.disk.get id).isSome = true) :
    (m.syncAllWith vol o).1 = true ∧ (m.syncAllWith vol o).2.2 =
      (syncPending o.pending m.pendingFsync vol).2.fdatasync m.active.id := by
  have hd := syncPending_of_files hok
  unfold syncAllWith
  cases hs : syncPending o.pending m.pendingFsync vol with
  | mk done vol' =>
    rw [hs] at hd
    obtain rfl : done = true := hd
    simp only [ho, if_true]
    exact ⟨trivial, trivial⟩

theorem drainPending_disk (ok : ℕ → Bool) (ids : List ℕ) (vol : Volume) :
    (drainPending ok ids vol).disk = vol.disk := by
  induction ids generalizing vol with
  | nil => rfl
  | cons id ids ih => exact (ih _).trans (fsyncPath_disk vol id (ok id))

section

variable (hi : (vol.disk.get m.active.id).isSome = true)
include hi

theorem evolves_syncAll (o : SyncOutcomes) : Evolves segmentHeaderSize (m.journal vol)
      ((m.syncAllWith vol o).2.1.journal (m.syncAllWith vol o).2.2) := by
  have hr := rests_syncPending m o.pending m.pendingFsync vol
  have hf' := hr.files m.active.id hi
  unfold syncAllWith
  split
  · rename_i vol' hsp
    rw [hsp] at hr
    exact hr.evolves.trans (evolves_dropped m vol')
  · rename_i vol' hsp
    rw [hsp] at hr hf'
    split_ifs
    · exact (hr.trans (rests_sync hf')).evolves.trans
        (evolves_dropped m (vol'.fdatasync m.active.id))
    · exact hr.evolves.trans (evolves_dropped m vol')

theorem syncAll_synced
    (hd : (m.syncAllWith vol o).1 = true) (hp : (m.journal vol).Placed segmentHeaderSize g body)
    (ha : (m.journal vol).Accounted segmentHeaderSize g body) :
    ((m.syncAllWith vol o).2.1.journal (m.syncAllWith vol o).2.2).Synced segmentHeaderSize g
      body := by
  have hr := rests_syncPending m o.pending m.pendingFsync vol
  have hf' := hr.files m.active.id hi
  have hq : (syncPending o.pending m.pendingFsync vol).1 = true → g ∈ m.pendingFsync →
      (m.journal (syncPending o.pending m.pendingFsync vol).2).Synced segmentHeaderSize g body :=
    fun h hg => syncPending_synced h hp hg
  unfold syncAllWith at hd ⊢
  cases hsp : syncPending o.pending m.pendingFsync vol with
  | mk done vol' =>
    rw [hsp] at hr hf' hd hq
    cases done with
    | false => cases hd
    | true =>
      have hp' := hr.evolves.placed g body hp
      have hy : Evolves segmentHeaderSize (m.journal vol') ((m.journal vol').sync m.active.id) :=
        (rests_sync hf').evolves
      simp only at hd ⊢
      split_ifs at hd ⊢
      rcases ha with rfl | hg | hs
      · exact hp'.synced hf'
      · exact hy.synced g body hp' (hq rfl hg)
      · exact hy.synced g body hp' (hr.evolves.synced g body hp hs)

/-- When no sync of a queued file fails, no file is forgotten. -/
theorem remembers_syncAll
    (hok : ∀ id ∈ m.pendingFsync, o.pending id = true ∧ (vol.disk.get id).isSome = true) :
    Remembers segmentHeaderSize (m.journal vol)
      ((m.syncAllWith vol o).2.1.journal (m.syncAllWith vol o).2.2) := by
  intro g body hp ha
  by_cases hd : (m.syncAllWith vol o).1 = true
  · exact .inr (.inr (syncAll_synced hi hd hp ha))
  · have hn := syncPending_of_files hok
    have hr := rests_syncPending m o.pending m.pendingFsync vol
    have hq := fun hg => syncPending_synced hn hp hg
    unfold syncAllWith at hd ⊢
    cases hsp : syncPending o.pending m.pendingFsync vol with
    | mk done vol' =>
      rw [hsp] at hr hd hq hn
      obtain rfl : done = true := hn
      simp only at hd ⊢
      split_ifs at hd ⊢
      · exact absurd rfl hd
      · rcases ha with rfl | hg | hs
        · exact .inl rfl
        · exact .inr (.inr (hq hg))
        · exact .inr (.inr (hr.evolves.synced g body hp hs))

end

theorem rests_drainPending (m : SegmentManager) (ok : ℕ → Bool) (ids : List ℕ) (vol : Volume) :
    Rests segmentHeaderSize (m.journal vol) (m.journal (drainPending ok ids vol)) := by
  induction ids generalizing vol with
  | nil => exact .refl _ _
  | cons id ids ih => exact (rests_fsyncPath m vol id (ok id)).trans (ih _)

theorem drainPending_synced (hok : ∀ id ∈ ids, ok id = true ∧ (vol.disk.get id).isSome = true)
    (hp : (m.journal vol).Placed segmentHeaderSize g body) (hg : g ∈ ids) :
    (m.journal (drainPending ok ids vol)).Synced segmentHeaderSize g body := by
  induction ids generalizing vol with
  | nil => exact absurd hg not_mem_nil
  | cons id ids ih =>
    have hp' := (rests_fsyncPath m vol id (ok id)).evolves.placed g body hp
    have hk := fsyncPath_disk vol id (ok id)
    unfold drainPending
    by_cases hr : g ∈ ids
    · apply ih (fun id' hid' => ?_) hp' hr
      rw [hk]
      exact hok id' (mem_cons_of_mem id hid')
    · obtain rfl : g = id := (mem_cons.mp hg).resolve_right hr
      obtain ⟨hid, hi⟩ := hok g mem_cons_self
      have hd : (vol.fsyncPath g (ok g)).1 = true := by rw [fsyncPath_of_file hid hi]
      exact (rests_drainPending m ok ids _).evolves.synced g body hp' (fsyncPath_synced hd hp)

theorem evolves_drain (m : SegmentManager) (vol : Volume) (ok : ℕ → Bool) :
    Evolves segmentHeaderSize (m.journal vol)
      ((m.drainPendingFsyncsWith vol ok).1.journal (m.drainPendingFsyncsWith vol ok).2) :=
  (rests_drainPending m ok m.pendingFsync vol).evolves.trans (evolves_dropped m _)

end Sync

end SegmentManager

end LogDb.Storage
