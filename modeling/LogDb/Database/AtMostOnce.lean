import LogDb.Database.DurableCursor
import LogDb.Pipeline.Spans

/-!
How often a record gets into the segment files when the loop tries failed batches again: once, as
long as the next segment can be prepared.
-/

namespace LogDb.Database

open Lib Format Storage Pipeline List Function Option

/-- The bytes of a file in which its records are. -/
def validRegion (s : DeviceShard) (g : ℕ) : Option Bytes :=
  (s.disk.get g).map (field segmentHeaderSize (s.validEnd g - segmentHeaderSize))

section Runs

variable {n : ℕ} {C : Crates} {cfgs : Fin n → ShardConfig} {db : Fin n → DeviceShard}

theorem spanInv_of_reachable
    (h : DeviceReachable C cfgs (fun db ev => ev.Bounded db ∧ Prepares ev) db) (k : Fin n) :
    SpanInv C (cfgs k) (db k) := by
  apply h.invariant
  · intro k s hs
    exact SpanInv.fresh hs
  · rintro db ev k s' hi he ⟨hb, hp⟩ hc
    have hk := hi k
    cases hc with
    | stays => exact hk
    | publish timestampNs content => exact hk.publish timestampNs content
    | commit count nonce checkpoint env append roll =>
      exact hk.commit hb he.1 he.2 hp (commitBatch_cases nonce checkpoint env append roll he.1 he.2)
    | synced o => exact hk.syncAll (o k)
    | advanced o hd => exact (hk.syncAll (o k)).advance (o k)
    | drained ok => exact hk.drain (ok k)

/-- A placed content that reaches to the end of the records is what the region has. -/
theorem validRegion_of_placed {s : DeviceShard} {g : ℕ} {body bytes : Bytes}
    (hp : s.journal.Placed segmentHeaderSize g body)
    (hl : segmentHeaderSize + body.length = s.validEnd g) (hg : s.disk.get g = some bytes) :
    validRegion s g = some body := by
  unfold validRegion
  rw [hg, map_some, ← hl, Nat.add_sub_cancel_left, hp.file bytes hg]

/-- As long as the next segment can be prepared, the files up to the active one hold consecutive
spans of the sequences, each record once, and a batch that fails leaves what is valid. -/
theorem committed_at_most_once
    (h : DeviceReachable C cfgs (fun db ev => ev.Bounded db ∧ Prepares ev) db) (k : Fin n) :
    (∃ cut : ℕ → ℕ, Monotone cut ∧ cut ((db k).mgr.active.id + 1) = (db k).committed ∧
      ∀ g region, g ≤ (db k).mgr.active.id → validRegion (db k) g = some region →
        Written C (cfgs k) (((db k).published.take (cut (g + 1))).drop (cut g)) region) ∧
    ∀ (count : ℕ) (nonce : Nonce) (append : AppendOutcomes) (e : SegmentError) (m : SegmentManager)
      (d : Disk), 0 < count → (db k).committed + count ≤ (db k).published.length →
      append.prepare = .done →
      (db k).mgr.appendBatchWith C (db k).disk nonce (db k).committed ((db k).batch count) append =
        (.error e, m, d) →
      m.active.id = (db k).mgr.active.id ∧ m.active.offset = (db k).mgr.active.offset ∧
        ∀ bytes, (db k).disk.get (db k).mgr.active.id = some bytes → ∃ bytes',
          d.get (db k).mgr.active.id = some bytes' ∧
            bytes.take (db k).mgr.active.offset <+: bytes' := by
  have hi := spanInv_of_reachable h k
  obtain ⟨cut, hc⟩ := hi.spans
  refine ⟨⟨cut, hc.mono, hc.above _ (lt_add_one _), ?_⟩, ?_⟩
  · intro g region hg hr
    obtain ⟨bytes, he, -⟩ := map_eq_some_iff.mp hr
    have ho := (hi.files g (isSome_iff_exists.mpr ⟨bytes, he⟩)).1
    obtain ⟨body, hw, hp, hl⟩ := hc.region g ho hg
    rw [validRegion_of_placed hp hl he] at hr
    obtain rfl := some.inj hr
    exact hw
  · intro count nonce append e m d hn hle hd herr
    exact hi.append_error hn hle hd herr

theorem committed_at_most_once_rolled : ∃ s : DeviceShard, s.mgr.active.id = 2 ∧ s.committed = 2 ∧
    ∃ cut : ℕ → ℕ, Monotone cut ∧ cut 3 = 2 ∧
      ∀ g region, g ≤ 2 → validRegion s g = some region →
        Written rawCrates rawShard ((s.published.take (cut (g + 1))).drop (cut g)) region := by
  obtain ⟨s, hr, hid, -, hc⟩ := deviceReachable_rolled
  obtain ⟨⟨cut, hm, hu, hv⟩, -⟩ :=
    committed_at_most_once (hr.mono fun _ _ hok => ⟨hok.bounded, hok.prepares⟩) 0
  simp only [hid, hc] at hu hv
  exact ⟨s, hid, hc, cut, hm, hu, hv⟩

end Runs

section FailedPreparation

/-- The only record is in the first segment, but not committed. -/
structure Orphaned (s : DeviceShard) : Prop where
  mounted : Mounted rawCrates rawShard s
  activeId_eq : s.mgr.activeId = 1
  offset_eq : s.mgr.active.offset = 900188
  prepared_eq : s.mgr.preparedSegment = none
  published_eq : s.published = [firstView]
  committed_eq : s.committed = 0
  files : ∀ g, (s.disk.get g).isSome = true → g = 1
  placed : s.journal.Placed segmentHeaderSize 1 (batchBytes rawCrates [firstView])

theorem exists_orphaned : ∃ s, DeviceReachable rawCrates (fun _ : Fin 1 => rawShard)
    (fun _ _ => True) (fun _ => s) ∧ Orphaned s := by
  have ha : Admits rawCrates rawShard (fun _ => True) (OnDevice rawCrates rawShard
      (fun db ev => ev.Bounded db ∧ Prepares ev) False) largeRecord :=
    admits_onDevice rfl (fun _ => ⟨trivial, trivial⟩) (fun _ _ _ _ hb => ⟨hb, rfl⟩)
      fun _ _ => False.elim
  obtain ⟨-, _, ⟨s, rfl, hh, -⟩, hs⟩ := (onDevice_fresh _ _ _ _).step rawCrates_lawful ⟨rfl, rfl⟩ ha
    (.publish (by rw [largeRecord_length]; decide) (by decide))
  have hi := spanInv_of_reachable hh 0
  have hf : s.mgr.Fits (s.batch 1) := by
    rw [fits_batch_iff one_pos, hs.nextFits_iff rfl (by decide)]
    show fileLength rawCrates [firstView] ≤ _
    rw [fileLength_firstView]
    decide
  have hle : s.committed + 1 ≤ s.published.length := by
    rw [hs.committed_eq, hs.published_eq]
    decide
  have hd : s.mgr.activeId + 1 < 2 ^ 32 := by
    rw [hs.activeId_eq]
    decide
  have hb : s.batch 1 = [firstView] := by
    unfold ShardState.batch
    rw [hs.committed_eq, hs.published_eq]
    rfl
  have ho₀ : s.mgr.active.offset = 128 := hs.offset_raw rfl
  have hid : s.mgr.active.id = 1 := hs.active_id
  have hfs : ∀ g, (s.disk.get g).isSome = true → g = 1 := by
    intro g hg
    obtain ⟨data, ht⟩ := isSome_iff_exists.mp hg
    obtain ⟨seg, hj, hfl⟩ := exists_of_forall₂ hs.files (Disk.mem_of_get ht)
    obtain rfl := mem_singleton.mp hj
    exact hfl.1
  have hr := (hh.mono fun _ _ _ => trivial).commit_one zeroNonce 0 quietEnv
    ⟨true, .done, .done, .refused⟩ .good one_pos hle trivial
  have hcs : CommitCase rawCrates s 1 zeroNonce 0 quietEnv ⟨true, .done, .done, .refused⟩ .good
      (s.commitBatch rawCrates rawShard 1 zeroNonce 0 quietEnv ⟨true, .done, .done, .refused⟩
        .good) := commitBatch_cases _ _ _ _ _ one_pos hle
  have hm := hi.mounted.commit hd hcs
  generalize s.commitBatch rawCrates rawShard 1 zeroNonce 0 quietEnv
    ⟨true, .done, .done, .refused⟩ .good = t at hr hcs hm
  refine ⟨t, hr, ?_⟩
  cases hcs with
  | failed hf st hsm change hkp ho => exact absurd ⟨rfl, rfl, rfl⟩ ho
  | wrote hf st hsm k hk hkn chunk ha change hkp hc r hpr committed hv =>
    obtain rfl : k = 1 := by
      rw [hb, length_singleton] at hkn
      omega
    have hap := hi.mounted.appends_wrote hd hsm ha hkp hc hpr
    rw [hi.mounted.mgr.addedBytes_eq, batchChunk_raw rfl, hb] at ha
    rw [batchChunk_raw rfl, hb] at hap
    obtain rfl : chunk = batchBytes rawCrates [firstView] := ha
    have hq : s.mgr.active.offset + (batchBytes rawCrates [firstView]).length = 900188 := by
      rw [ho₀, firstView_length]
    cases hpr with
    | skipped h =>
      rcases h with he | hl
      · change s.mgr.preparedSegment.isSome = true at he
        rw [hs.prepared_eq] at he
        cases he
      · change (s.mgr.active.offset + (batchBytes rawCrates [firstView]).length) * 100 /
          s.mgr.segmentSize < 80 at hl
        rw [hq, hs.mgr.segmentSize_eq] at hl
        exact absurd hl (by decide)
    | refused e hn h =>
      refine ⟨hm, hs.activeId_eq, hq, hn, hs.published_eq, ?_, ?_, ?_⟩
      · rcases hv with ⟨hok, -⟩ | ⟨-, rfl⟩
        · cases hok
        · exact hs.committed_eq
      · intro g hg
        apply hfs
        exact Disk.isSome_get_modify _ _ _ _ ▸ hg
      · have hp := hap.placed [] ⟨fun _ _ => rfl, le_rfl, fun _ => ho₀.ge⟩ ho₀.symm
        rw [nil_append] at hp
        exact hid ▸ hp
    | torn e d' data hn ho h =>
      obtain ⟨written, hw⟩ := ho
      cases hw
    | created seg d' data hn hj h ho => cases ho
  | unrolled hu e m vol hro => exact absurd hf hu
  | rolled hu m vol hro => exact absurd hf hu

/-- The record is to be written again, to the next segment. -/
structure Repeated (s : DeviceShard) : Prop where
  mounted : Mounted rawCrates rawShard s
  activeId_eq : s.mgr.activeId = 2
  offset_eq : s.mgr.active.offset = 128
  published_eq : s.published = [firstView]
  committed_eq : s.committed = 0
  sealed_eq : s.sealedAt 1 = 900188
  file : (s.disk.get 1).isSome = true
  placed : s.journal.Placed segmentHeaderSize 1 (batchBytes rawCrates [firstView])

private theorem batch_of_uncommitted {s : DeviceShard} (hp : s.published = [firstView])
    (hc : s.committed = 0) : s.committed + 1 ≤ s.published.length ∧ s.batch 1 = [firstView] := by
  unfold ShardState.batch
  rw [hp, hc]
  exact ⟨le_rfl, rfl⟩

private theorem fits_iff_of_uncommitted {s : DeviceShard} (h : Mounted rawCrates rawShard s)
    (hp : s.published = [firstView]) (hc : s.committed = 0) :
    s.mgr.Fits (s.batch 1) ↔ s.mgr.active.offset + 900060 ≤ 1048576 := by
  have hl : firstView.content.length = 900000 := largeRecord_length
  have hs : s.mgr.segmentSize = 1048576 := h.mgr.segmentSize_eq
  rw [(batch_of_uncommitted hp hc).2]
  unfold SegmentManager.Fits ActiveSegment.hasRoom
  simp only [head?_cons, mem_def, some.injEq, forall_eq', decide_eq_true_eq, hs, hl, recordSize_eq]

theorem Orphaned.roll {s : DeviceShard} (h : Orphaned s)
    (hr : DeviceReachable rawCrates (fun _ : Fin 1 => rawShard) (fun _ _ => True) fun _ => s) :
    ∃ t, DeviceReachable rawCrates (fun _ : Fin 1 => rawShard) (fun _ _ => True) (fun _ => t) ∧
      Repeated t := by
  obtain ⟨hle, hb⟩ := batch_of_uncommitted h.published_eq h.committed_eq
  have hu : ¬ s.mgr.Fits (s.batch 1) := by
    rw [fits_iff_of_uncommitted h.mounted h.published_eq h.committed_eq, h.offset_eq]
    omega
  have hd : s.mgr.activeId + 1 < 2 ^ 32 := by
    rw [h.activeId_eq]
    decide
  have hn : s.mgr.nextId = 2 := by
    unfold SegmentManager.nextId
    rw [h.activeId_eq]
    decide
  have hid : s.mgr.active.id = 1 := h.mounted.disk.active_id.trans h.activeId_eq
  have hx := h.mounted.disk.lt_nextId hd
  have hr' := hr.commit_one zeroNonce 0 quietEnv .good .good one_pos hle trivial
  have hc : CommitCase rawCrates s 1 zeroNonce 0 quietEnv .good .good
      (s.commitBatch rawCrates rawShard 1 zeroNonce 0 quietEnv .good .good) :=
    commitBatch_cases _ _ _ _ _ one_pos hle
  have ht := h.mounted.commit hd hc
  generalize s.commitBatch rawCrates rawShard 1 zeroNonce 0 quietEnv .good .good = t
    at hr' hc ht
  refine ⟨t, hr', ?_⟩
  cases hc with
  | failed hf => exact absurd hf hu
  | wrote hf => exact absurd hf hu
  | unrolled hf e m vol hro =>
    obtain ⟨-, hl⟩ := hro.of_good rfl
    have ho := h.files _ hl
    omega
  | rolled hf m vol hro =>
    obtain ⟨seg, hm, hs, -, hfs, he, -, -⟩ := hro.of_ok hx rfl h.mounted.disk
    obtain rfl : m = s.mgr.swapActive s.mgr.nextId seg := hm
    have hcn := SegmentManager.rollCleanup_keepAll (C := rawCrates) vol.disk quietEnv
      (show (s.mgr.swapActive s.mgr.nextId seg).retention = .keepAll from
        h.mounted.mgr.retention_eq)
    have hl : (s.disk.get 1).isSome = true := hid ▸ h.mounted.disk.file
    refine ⟨ht, hn, hs.offset_eq, h.published_eq, h.committed_eq, ?_, ?_, ?_⟩
    · show update s.sealedAt s.mgr.active.id s.mgr.active.offset 1 = _
      rw [hid, update_self, h.offset_eq]
    · simp only [DeviceShard.put, hcn]
      exact hfs 1 hl
    · rw [hcn]
      exact he.placed _ _ h.placed

/-- When the next segment cannot be prepared, a batch that is in the file already is written once
more. -/
theorem failed_preparation_commits_twice : ∃ db : Fin 1 → DeviceShard,
      DeviceReachable rawCrates (fun _ => rawShard) (fun _ _ => True) db ∧
      ∃ v, (db 0).published = [v] ∧ (db 0).mgr.active.id = 2 ∧
        validRegion (db 0) 1 = some (batchBytes rawCrates [v]) ∧
        validRegion (db 0) 2 = some (batchBytes rawCrates [v]) := by
  obtain ⟨s₀, hr₀, hs₀⟩ := exists_orphaned
  obtain ⟨s, hr, h⟩ := hs₀.roll hr₀
  obtain ⟨hle, hb⟩ := batch_of_uncommitted h.published_eq h.committed_eq
  have ht : s.mgr.Fits (s.batch 1) := by
    rw [fits_iff_of_uncommitted h.mounted h.published_eq h.committed_eq, h.offset_eq]
    omega
  have hbd : s.mgr.activeId + 1 < 2 ^ 32 := by
    rw [h.activeId_eq]
    decide
  have hid : s.mgr.active.id = 2 := h.mounted.disk.active_id.trans h.activeId_eq
  have hr' := hr.commit_one zeroNonce 0 quietEnv .good .good one_pos hle trivial
  have hs : CommitCase rawCrates s 1 zeroNonce 0 quietEnv .good .good
      (s.commitBatch rawCrates rawShard 1 zeroNonce 0 quietEnv .good .good) :=
    commitBatch_cases _ _ _ _ _ one_pos hle
  generalize s.commitBatch rawCrates rawShard 1 zeroNonce 0 quietEnv .good .good = t
    at hr' hs
  obtain ⟨k, hk, hn, hap, hp, hsl⟩ : ∃ k, 0 < k ∧
      k ≤ (s.batch 1).length ∧ Journal.Appends segmentHeaderSize s.journal t.journal
        (batchChunk rawCrates rawShard zeroNonce ((s.batch 1).take k)) ∧
      t.published = s.published ∧ t.sealedAt = s.sealedAt := by
    cases hs with
    | failed ht st hm change hkp ho => exact absurd ⟨rfl, rfl, rfl⟩ ho
    | wrote ht st hm k hk hn chunk hadd change hkp hc r hpr =>
      exact ⟨k, hk, hn, h.mounted.appends_wrote hbd hm hadd hkp hc hpr, rfl, rfl⟩
    | unrolled hu => exact absurd ht hu
    | rolled hu => exact absurd ht hu
  obtain rfl : k = 1 := by
    rw [hb, length_singleton] at hn
    omega
  rw [batchChunk_raw rfl, hb] at hap
  change Journal.Appends segmentHeaderSize s.journal t.journal (batchBytes rawCrates [firstView])
    at hap
  have ha : t.mgr.active.id = 2 := hap.current_eq.trans hid
  have hoff : t.mgr.active.offset = s.mgr.active.offset + 900060 := by
    rw [← firstView_length]
    exact hap.limit_eq
  have hd := hap.placed [] ⟨fun _ _ => rfl, le_rfl, fun _ => h.offset_eq.ge⟩ h.offset_eq.symm
  rw [nil_append] at hd
  have hf := hap.evolves.placed _ _ h.placed
  obtain ⟨bytes, hbs⟩ := isSome_iff_exists.mp (hap.files 1 h.file)
  obtain ⟨bytes', hb'⟩ := isSome_iff_exists.mp (hap.files s.mgr.active.id h.mounted.disk.file)
  have he : t.validEnd 1 = 900188 := by
    unfold DeviceShard.validEnd
    rw [ha, if_neg (by decide), hsl, h.sealed_eq]
  have he' : t.validEnd s.mgr.active.id = 900188 := by
    unfold DeviceShard.validEnd
    rw [hid, ha, if_pos rfl, hoff, h.offset_eq]
  have hl : segmentHeaderSize + (batchBytes rawCrates [firstView]).length = 900188 := by
    rw [firstView_length, segmentHeaderSize]
  have hone := validRegion_of_placed hf (hl.trans he.symm) hbs
  have hw := validRegion_of_placed hd (hl.trans he'.symm) hb'
  rw [show s.journal.current = 2 from hid] at hw
  exact ⟨fun _ => t, hr', firstView, hp.trans h.published_eq, ha, hone, hw⟩

end FailedPreparation

end LogDb.Database
