import LogDb.Format.Crates
import LogDb.Storage.Manager

/-!
The deletions at the end of a roll remove whole segment files, and never the active one or a later
one. Eviction by size removes no more than it has to. What the other two remove depends on the order
in which the directory is listed.
-/

namespace LogDb.Storage

open Lib Format Option Disk

/-- `d'` is `d` without some of the files with an id below `bound`. -/
def Disk.Deletes (bound : ℕ) (d d' : Disk) : Prop :=
  d'.indexes = d.indexes ∧ ∃ keep : ℕ → Bool, (∀ id, bound ≤ id → keep id = true) ∧
    d'.segments = d.segments.filter fun f => keep f.1

theorem Disk.get_remove (d : Disk) (id j : ℕ) :
    (d.remove id).get j = if j = id then none else d.get j := by
  unfold get remove
  rw [List.find?_filter]
  split_ifs with hj
  · simp [hj]
  · congr 2
    funext f
    by_cases hf : f.1 = j <;> simp [hf, hj]

theorem Disk.mem_remove {d : Disk} {f : ℕ × Bytes} {id : ℕ} :
    f ∈ (d.remove id).segments ↔ f ∈ d.segments ∧ f.1 ≠ id := by
  simp [remove]

namespace Disk.Deletes

variable {bound : ℕ} {d d' d'' : Disk}

theorem refl (bound : ℕ) (d : Disk) : Deletes bound d d :=
  ⟨rfl, fun _ => true, fun _ _ => rfl, (List.filter_eq_self.mpr fun _ _ => rfl).symm⟩

theorem trans (h : Deletes bound d d') (h' : Deletes bound d' d'') : Deletes bound d d'' := by
  obtain ⟨hx, keep, hk, hs⟩ := h
  obtain ⟨hx', keep', hk', hs'⟩ := h'
  refine ⟨hx'.trans hx, fun id => keep' id && keep id, ?_, ?_⟩
  · intro id hid
    simp only [hk id hid, hk' id hid, Bool.and_true]
  · rw [hs', hs, List.filter_filter]

theorem remove {id : ℕ} (hid : id < bound) : Deletes bound d (d.remove id) := by
  refine ⟨rfl, fun i => i ≠ id, ?_, rfl⟩
  intro i hi
  exact decide_eq_true (by omega)

theorem mem (h : Deletes bound d d') {f : ℕ × Bytes} (hf : f ∈ d'.segments) : f ∈ d.segments := by
  obtain ⟨-, keep, -, hs⟩ := h
  rw [hs] at hf
  exact (List.mem_filter.mp hf).1

theorem get_of_le (h : Deletes bound d d') {id : ℕ} (hid : bound ≤ id) : d'.get id = d.get id := by
  obtain ⟨-, keep, hk, hs⟩ := h
  unfold get
  rw [hs, List.find?_filter]
  congr 2
  funext f
  by_cases hf : f.1 = id
  · simp [hf, hk id hid]
  · simp [hf]

end Disk.Deletes

namespace SegmentManager

variable {C : Crates} {m : SegmentManager}

private theorem evictUntilUnder_go_deletes (limit : ℕ) (fs : List (ℕ × Bytes)) (total : ℕ)
    (d : Disk) : Deletes m.activeId d (evictUntilUnder.go m limit fs total d) := by
  induction fs generalizing total d with
  | nil => exact .refl _ _
  | cons f fs ih =>
    unfold evictUntilUnder.go
    split_ifs with ha hu
    · exact .refl _ _
    · exact .refl _ _
    · exact (Deletes.remove (by omega)).trans (ih _ _)

theorem evictOlderThan_deletes (expired : ℕ → Bool) (ids : List ℕ) (d : Disk) :
    Deletes m.activeId d (m.evictOlderThan expired ids d) := by
  induction ids generalizing d with
  | nil => exact .refl _ _
  | cons id ids ih =>
    unfold evictOlderThan
    split_ifs with ha he
    · exact .refl _ _
    · exact (Deletes.remove (by omega)).trans (ih _)
    · exact ih _

section

variable {cp : UInt64} {d : Disk} {ids : List ℕ} {f : ℕ × Bytes} (C m cp d) in
/-- The segments that `truncate_before_checkpoint` is to delete. -/
def truncates (id : ℕ) : Bool :=
  decide (id < m.activeId) &&
    (readSegmentHeaderById C d (id + 1)).any fun next => next.baseSequence ≤ cp

theorem truncateBeforeCheckpoint_cons (id : ℕ) : m.truncateBeforeCheckpoint C cp (id :: ids) d =
      m.truncateBeforeCheckpoint C cp ids (if m.truncates C cp d id then d.remove id else d) := by
  rw [truncateBeforeCheckpoint]
  congr 1
  unfold truncates
  by_cases ha : m.activeId ≤ id
  · simp [ha, not_lt.mpr ha]
  · cases readSegmentHeaderById C d (id + 1) <;> simp [ha, not_le.mp ha]

theorem truncateBeforeCheckpoint_deletes (cp : UInt64) (ids : List ℕ) (d : Disk) :
    Deletes m.activeId d (m.truncateBeforeCheckpoint C cp ids d) := by
  induction ids generalizing d with
  | nil => exact .refl _ _
  | cons id ids ih =>
    rw [truncateBeforeCheckpoint_cons]
    refine Deletes.trans ?_ (ih _)
    split_ifs with ht
    · rw [truncates, Bool.and_eq_true, decide_eq_true_iff] at ht
      exact .remove ht.1
    · exact .refl _ _

/-- A deletion takes the header away that the segment before it is judged by. -/
theorem truncates_remove (id j : ℕ) :
    m.truncates C cp (d.remove id) j = (decide (j + 1 ≠ id) && m.truncates C cp d j) := by
  unfold truncates readSegmentHeaderById
  rw [get_remove]
  split_ifs with hj <;> simp [hj]

theorem truncates_of_deleted {id j : ℕ}
    (h : m.truncates C cp (if m.truncates C cp d id then d.remove id else d) j = true) :
    m.truncates C cp d j = true := by
  split_ifs at h
  · rw [truncates_remove, Bool.and_eq_true] at h
    exact h.2
  · exact h

theorem truncated_spec (hf : f ∈ d.segments)
    (hg : f ∉ (m.truncateBeforeCheckpoint C cp ids d).segments) :
    f.1 ∈ ids ∧ m.truncates C cp d f.1 = true := by
  induction ids generalizing d with
  | nil => exact absurd hf hg
  | cons id ids ih =>
    rw [truncateBeforeCheckpoint_cons] at hg
    by_cases hd : f.1 = id ∧ m.truncates C cp d id = true
    · obtain ⟨rfl, ht⟩ := hd
      exact ⟨List.mem_cons_self, ht⟩
    · obtain ⟨hm, ht⟩ := ih (by split_ifs <;> grind [mem_remove]) hg
      exact ⟨List.mem_cons_of_mem _ hm, truncates_of_deleted ht⟩

end

theorem readSegmentHeaderById_of_deletes {bound : ℕ} {d d' : Disk} (h : Deletes bound d d')
    {id : ℕ} {header : SegmentHeader} (hr : readSegmentHeaderById C d' id = some header) :
    readSegmentHeaderById C d id = some header := by
  unfold readSegmentHeaderById at hr ⊢
  obtain ⟨data, hg, ht⟩ := bind_eq_some_iff.mp hr
  have hm := h.mem (mem_of_get hg)
  exact bind_eq_some_iff.mpr ⟨data, get_of_mem hm, ht⟩

theorem applyRetention_deletes (env : RollEnv) (d : Disk) :
    Deletes m.activeId d (m.applyRetention env d) := by
  unfold applyRetention
  split
  · exact .refl _ _
  · exact evictUntilUnder_go_deletes _ _ _ _
  · exact evictOlderThan_deletes _ _ _

theorem rollCleanup_deletes (d : Disk) (cp : UInt64) (env : RollEnv) :
    Deletes m.activeId d (m.rollCleanup C d cp env) := by
  unfold rollCleanup
  simp only
  split_ifs
  · exact (applyRetention_deletes env d).trans (truncateBeforeCheckpoint_deletes _ _ _)
  · exact applyRetention_deletes env d

theorem rollCleanup_keepAll (d : Disk) (env : RollEnv) (hr : m.retention = .keepAll) :
    m.rollCleanup C d 0 env = d := by
  unfold rollCleanup applyRetention
  rw [hr]
  exact if_neg (by decide)

/-- A roll up to its deletions. -/
def rollSwap (C : Crates) (m : SegmentManager) (d : Disk) (nextBaseSequence : UInt64) :
    Option (SegmentManager × Disk) :=
  let d := m.active.backfillHeaderTs C d
  let d := m.saveActiveIndex d
  match m.preparedSegment with
  | some (newId, seg) => some (m.swapActive newId seg, d)
  | none =>
    (ActiveSegment.create C d m.nextId (m.nextHeader m.nextId nextBaseSequence) m.lastHash
      m.compressed).map fun r => (m.swapActive m.nextId r.1, r.2)

theorem roll_of_swap {d d' : Disk} {m' : SegmentManager} {nextBase : UInt64}
    (h : m.rollSwap C d nextBase = some (m', d')) (cp : UInt64) (env : RollEnv) :
    m.roll C d nextBase cp env =
      (.ok (), m', m'.rollCleanup C d' cp env) := by
  unfold rollSwap at h
  unfold roll
  cases hp : m.preparedSegment with
  | some p =>
    simp only [hp, some.injEq, Prod.mk.injEq] at h
    obtain ⟨rfl, rfl⟩ := h
    rfl
  | none =>
    simp only [hp] at h
    obtain ⟨r, hc, hr⟩ := map_eq_some_iff.mp h
    simp only [hc]
    cases hr
    rfl

/-- What `evict_until_under` is to reach: the files fit the limit, or only the active one and later
ones are left. -/
def UnderLimit (m : SegmentManager) (maxBytes : ℕ) (fs : List (ℕ × Bytes)) : Prop :=
  (fs.map fun f => f.2.length).sum ≤ maxBytes ∨ ∀ f ∈ fs, m.activeId ≤ f.1

private theorem evictUntilUnder_go_exact (limit : ℕ) (fs : List (ℕ × Bytes)) (d : Disk)
    (hd : d.segments = fs) :
    ∃ k, (evictUntilUnder.go m limit fs (fs.map fun f => f.2.length).sum d).segments = fs.drop k ∧
      (∀ f ∈ fs.take k, f.1 < m.activeId) ∧ m.UnderLimit limit (fs.drop k) ∧
      ∀ j < k, ¬ m.UnderLimit limit (fs.drop j) := by
  induction fs generalizing d with
  | nil => exact ⟨0, hd, nofun, .inl (Nat.zero_le _), nofun⟩
  | cons f fs ih =>
    obtain ⟨hf, -⟩ := List.pairwise_cons.mp (hd ▸ d.sorted)
    unfold evictUntilUnder.go
    split_ifs with ha hu
    · refine ⟨0, hd, nofun, .inr ?_, nofun⟩
      exact List.forall_mem_cons.mpr ⟨ha, fun g hg => ha.trans (hf g hg).le⟩
    · exact ⟨0, hd, nofun, .inl hu, nofun⟩
    · have ht : (d.remove f.1).segments = fs := by
        have hk : ∀ g ∈ fs, g.1 ≠ f.1 := fun g hg => (hf g hg).ne'
        simpa [remove, hd] using hk
      obtain ⟨k, hs, hb, hr, hl⟩ := ih _ ht
      rw [List.map_cons, List.sum_cons, Nat.add_sub_cancel_left]
      refine ⟨k + 1, hs, List.forall_mem_cons.mpr ⟨not_le.mp ha, hb⟩, hr, ?_⟩
      rintro (_ | j) hj
      · rintro (hle | hc)
        · exact hu hle
        · exact ha (hc f List.mem_cons_self)
      · exact hl j (Nat.lt_of_succ_lt_succ hj)

/-- Eviction deletes the shortest run of oldest files below the active one that is enough. -/
theorem evictUntilUnder_exact (m : SegmentManager) (d : Disk) (maxBytes : ℕ) :
    ∃ k, (m.evictUntilUnder d maxBytes).segments = d.segments.drop k ∧
      (∀ f ∈ d.segments.take k, f.1 < m.activeId) ∧ m.UnderLimit maxBytes (d.segments.drop k) ∧
      ∀ j < k, ¬ m.UnderLimit maxBytes (d.segments.drop j) :=
  evictUntilUnder_go_exact maxBytes d.segments d rfl

section

variable {cp : UInt64} {d : Disk} {ids : List ℕ} {f : ℕ × Bytes}

/-- Both are to be deleted, but the one listed first is the one the other is judged by. -/
def Crossed (m : SegmentManager) (C : Crates) (cp : UInt64) (d : Disk) (a b : ℕ) : Prop :=
  a = b + 1 ∧ m.truncates C cp d a = true ∧ m.truncates C cp d b = true

theorem not_mem_truncated (h : ids.Pairwise fun a b => ¬ m.Crossed C cp d a b)
    (hf : f.1 ∈ ids) (ht : m.truncates C cp d f.1 = true) :
    f ∉ (m.truncateBeforeCheckpoint C cp ids d).segments := by
  induction ids generalizing d with
  | nil => exact absurd hf List.not_mem_nil
  | cons id ids ih =>
    obtain ⟨hs, hr⟩ := List.pairwise_cons.mp h
    rw [truncateBeforeCheckpoint_cons]
    rcases List.mem_cons.mp hf with rfl | hm
    · rw [if_pos ht]
      intro hk
      exact (mem_remove.mp ((truncateBeforeCheckpoint_deletes cp ids _).mem hk)).2 rfl
    · refine ih (hr.imp fun hab ⟨heq, ha, hb⟩ => hab
        ⟨heq, truncates_of_deleted ha, truncates_of_deleted hb⟩) hm ?_
      have hid := hs f.1 hm
      split_ifs with hd
      · rw [truncates_remove, ht, Bool.and_true, decide_eq_true_iff]
        exact fun heq => hid ⟨heq.symm, hd, ht⟩
      · exact ht

theorem not_crossed_of_truncated (hd : ids.Nodup) (hi : ∀ id ∈ ids, ∃ f ∈ d.segments, f.1 = id)
    (h : ∀ f : ℕ × Bytes, f.1 ∈ ids → m.truncates C cp d f.1 = true →
      f ∉ (m.truncateBeforeCheckpoint C cp ids d).segments) :
    ids.Pairwise fun a b => ¬ m.Crossed C cp d a b := by
  induction ids generalizing d with
  | nil => exact .nil
  | cons id ids ih =>
    obtain ⟨hn, hd⟩ := List.nodup_cons.mp hd
    rw [truncateBeforeCheckpoint_cons] at h
    set d' := if m.truncates C cp d id then d.remove id else d with hd'
    have hk : ∀ b ∈ ids, ∃ f ∈ d'.segments, f.1 = b := by
      intro b hb
      obtain ⟨f, hf, rfl⟩ := hi b (List.mem_cons_of_mem _ hb)
      refine ⟨f, ?_, rfl⟩
      rw [hd']
      split_ifs
      · exact mem_remove.mpr ⟨hf, fun heq => hn (heq ▸ hb)⟩
      · exact hf
    -- what is deleted later is judged as at the start
    have hs : ∀ b ∈ ids, m.truncates C cp d b = true → m.truncates C cp d' b = true := by
      intro b hb ht
      obtain ⟨f, hf, rfl⟩ := hk b hb
      exact (truncated_spec hf (h f (List.mem_cons_of_mem _ hb) ht)).2
    refine List.pairwise_cons.mpr ⟨fun b hb ⟨heq, ha, hbt⟩ => ?_, ?_⟩
    · have hb' := hs b hb hbt
      rw [hd', if_pos ha, truncates_remove, heq] at hb'
      simp at hb'
    · refine (@ih d' hd hk fun f hm ht => ?_).imp_of_mem ?_
      · exact h f (List.mem_cons_of_mem _ hm) (truncates_of_deleted ht)
      · exact fun {a b} ha hb hab ⟨heq, hat, hbt⟩ => hab ⟨heq, hs a ha hat, hs b hb hbt⟩

/-- The loop of `evict_older_than` ends at the first id that is not below the active one. -/
theorem mem_evictOlderThan (expired : ℕ → Bool) :
    f ∈ (m.evictOlderThan expired ids d).segments ↔ f ∈ d.segments ∧
      ¬ (f.1 ∈ ids.takeWhile (· < m.activeId) ∧ expired f.1 = true) := by
  induction ids generalizing d with
  | nil => simp [evictOlderThan]
  | cons id ids ih =>
    unfold evictOlderThan
    by_cases ha : m.activeId ≤ id
    · simp [ha, not_lt.mpr ha]
    · rw [if_neg ha, ih, List.takeWhile_cons_of_pos (by simpa using ha)]
      split_ifs with he <;> grind [mem_remove]

end

/-- The two deletions remove exactly what they should if the directory is listed so that no segment to
be truncated comes before one that is judged by it, and no expired one behind the active or a later
one. -/
theorem deletions_exact_iff (C : Crates) (m : SegmentManager) (cp : UInt64) (expired : ℕ → Bool)
    (d : Disk) (ids : List ℕ) (hlist : ids.Perm (d.segments.map Prod.fst)) :
    ((∀ f ∈ d.segments, f ∉ (m.truncateBeforeCheckpoint C cp ids d).segments ↔
        m.truncates C cp d f.1 = true) ∧
      ∀ f ∈ d.segments, f ∉ (m.evictOlderThan expired ids d).segments ↔
        f.1 < m.activeId ∧ expired f.1 = true) ↔
    (ids.Pairwise fun a b => ¬ m.Crossed C cp d a b) ∧
      ∀ id ∈ ids.dropWhile (· < m.activeId), id < m.activeId → expired id = false := by
  have hn : ids.Nodup := hlist.nodup_iff.mpr (List.pairwise_map.mpr (d.sorted.imp fun h => h.ne))
  have hm : ∀ id, id ∈ ids ↔ ∃ f ∈ d.segments, f.1 = id := fun id => by
    rw [hlist.mem_iff, List.mem_map]
  apply and_congr
  · constructor
    · intro h
      refine not_crossed_of_truncated hn (fun id hid => (hm id).mp hid) fun f _ ht hf => ?_
      exact (h f ((truncateBeforeCheckpoint_deletes cp ids d).mem hf)).mpr ht hf
    · intro h f hf
      refine ⟨fun hg => (truncated_spec hf hg).2, ?_⟩
      exact not_mem_truncated h ((hm _).mpr ⟨f, hf, rfl⟩)
  · have hs := List.takeWhile_append_dropWhile (p := fun id => decide (id < m.activeId)) (l := ids)
    rw [← hs, List.nodup_append] at hn
    simp only [mem_evictOlderThan]
    constructor
    · intro h id hid hlt
      obtain ⟨f, hf, rfl⟩ := (hm id).mp (hs ▸ List.mem_append_right _ hid)
      by_contra he
      have hg := (h f hf).mpr ⟨hlt, by simpa using he⟩
      have htk := (not_not.mp fun hk => hg ⟨hf, hk⟩).1
      exact hn.2.2 _ htk _ hid rfl
    · intro h f hf
      have hl := (hm f.1).mpr ⟨f, hf, rfl⟩
      rw [← hs, List.mem_append] at hl
      constructor
      · intro hg
        have htk := not_not.mp fun hk => hg ⟨hf, hk⟩
        exact ⟨by simpa using List.mem_takeWhile_imp htk.1, htk.2⟩
      · rintro ⟨hlt, he⟩ ⟨-, hk⟩
        refine hk ⟨hl.resolve_right fun hd => ?_, he⟩
        simp [h f.1 hd hlt] at he

def emptyHeader (id : UInt32) : SegmentHeader :=
  .firstSegment zeros32 0 0 id false hashAlgoBlake3

def thirdActive : SegmentManager :=
  .openExisting 3 segmentHeaderSize (emptyHeader 3) 4096 zeros32 zeros32 false none .keepAll

def threeFiles : Disk where
  segments := [1, 2, 3].map fun id => (id, (emptyHeader (.ofNat id)).serialize rawCrates zeros32)
  sorted := by simp
  indexes _ := none

theorem deletions_exact_ascending : [1, 2, 3].Perm (threeFiles.segments.map Prod.fst) ∧
    ∀ f ∈ threeFiles.segments,
      f ∉ (thirdActive.truncateBeforeCheckpoint rawCrates 1 [1, 2, 3] threeFiles).segments ↔
        thirdActive.truncates rawCrates 1 threeFiles f.1 = true :=
  ⟨by decide, ((deletions_exact_iff rawCrates thirdActive 1 (fun _ => true) threeFiles [1, 2, 3]
    (by decide)).mpr ⟨by simp [Crossed], by decide⟩).1⟩

set_option maxRecDepth 20000 in
/-- Listed from the last on: segment 1 stays because segment 2 is gone, and what is listed behind the
active segment is not looked at. -/
theorem deletions_follow_listing : [3, 2, 1].Perm (threeFiles.segments.map Prod.fst) ∧
    thirdActive.truncates rawCrates 1 threeFiles 1 = true ∧
    (thirdActive.truncateBeforeCheckpoint rawCrates 1 [3, 2, 1] threeFiles).segments.map Prod.fst =
      [1, 3] ∧
    (thirdActive.evictOlderThan (fun _ => true) [3, 2, 1] threeFiles).segments.map Prod.fst =
      [1, 2, 3] := by
  decide +kernel

end SegmentManager

end LogDb.Storage
