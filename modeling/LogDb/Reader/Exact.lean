import LogDb.Format.Crates
import LogDb.Reader.Directory

/-!
Scans and point reads over the shard directories of a database are exact when the bases separate
the segments of every shard.
-/

namespace LogDb.Reader

open Lib Format Storage List SegmentHeader

/-- The next segment starts behind the segment and all of its records. -/
def StoredSegment.Before (s t : StoredSegment) : Prop :=
  s.base < t.base ∧ ∀ v ∈ s.records, v.recordId < t.base

instance : Trans StoredSegment.Before StoredSegment.Before StoredSegment.Before where
  trans hst htu := ⟨UInt64.lt_trans hst.1 htu.1, fun v hv => UInt64.lt_trans (hst.2 v hv) htu.1⟩

/-- A well-formed directory of shard `s` among `n` shards. -/
structure ShardDirectory (C : Crates) (keys : Option KeyRing) (n s : ℕ) (d : Disk)
    (segs : List StoredSegment) : Prop extends Holds C keys d segs where
  chain : segs.IsChain StoredSegment.Before
  floor : ∀ a ∈ segs, ∀ v ∈ a.records, a.base ≤ v.recordId
  shard : ∀ a ∈ segs, ∀ v ∈ a.records, (decodeRecordId v.recordId (shardBits n)).1 = s

namespace ShardDirectory

variable {C : Crates} {keys : Option KeyRing} {n s : ℕ} {d : Disk} {segs : List StoredSegment}

section

variable (h : ShardDirectory C keys n s d segs)
include h

theorem ceiling : segs.Pairwise fun s t => ∀ v ∈ s.records, v.recordId < t.base :=
  h.chain.pairwise.imp fun hs => hs.2

theorem base_mono : segs.Pairwise fun s t => s.base ≤ t.base :=
  h.chain.pairwise.imp fun hs => UInt64.le_of_lt hs.1

theorem recordsOf_sorted : (recordsOf segs).Pairwise fun a b => recordKey a < recordKey b := by
  apply pairwise_toRecord
  refine pairwise_flatMap.mpr ⟨h.ascending, ?_⟩
  refine h.ceiling.imp_of_mem ?_
  intro a b _ hb ha v hv w hw
  exact UInt64.lt_of_lt_of_le (ha v hv) (h.floor b hb w hw)

theorem shardScanner_eq (fromId toId : UInt64) :
    shardScanner C d keys fromId toId = (recordsOf segs).filter (inRange fromId toId) := by
  apply h.toHolds.shardScanner_eq h.base_mono
  · apply h.ceiling.imp
    intro a b hab hb v hv
    exact UInt64.lt_of_lt_of_le (hab v hv) hb
  · intro a ha hb v hv
    exact UInt64.le_trans hb (h.floor a ha v hv)

theorem read_eq (recordId : UInt64) : ∃ found, read C d keys recordId = .ok found ∧
      ∀ r, found = some r ↔ r.id.sequence = recordId ∧ r ∈ recordsOf segs :=
  h.toHolds.read_eq h.base_mono h.floor h.ceiling recordId

theorem shard_of_mem {r : Record} (hr : r ∈ recordsOf segs) :
    (decodeRecordId r.id.sequence (shardBits n)).1 = s := by
  obtain ⟨a, ha, v, hv, rfl⟩ := mem_recordsOf.mp hr
  exact h.shard a ha v hv

end

end ShardDirectory

section

variable {C : Crates} {keys : Option KeyRing} {n : ℕ} {disks : Fin n → Disk}
  {segs : Fin n → List StoredSegment}

theorem scanIter_exact (h : ∀ s : Fin n, ShardDirectory C keys n s (disks s) (segs s))
    (fromId toId : UInt64) :
    (∀ r, r ∈ scanIter C keys (List.ofFn disks) fromId toId ↔
      (fromId ≤ r.id.sequence ∧ r.id.sequence < toId) ∧ ∃ s, r ∈ recordsOf (segs s)) ∧
    (scanIter C keys (List.ofFn disks) fromId toId).Pairwise
      fun a b => a.id.sequence < b.id.sequence := by
  obtain ⟨hp, ho⟩ := scanIter_spec C keys (ofFn disks) fromId toId (by
      intro d hd
      obtain ⟨s, rfl⟩ := mem_ofFn.mp hd
      rw [(h s).shardScanner_eq]
      exact (h s).recordsOf_sorted.filter _) (by
      apply pairwise_ofFn.mpr
      intro s t hst a ha b hb heq
      rw [(h s).shardScanner_eq] at ha
      rw [(h t).shardScanner_eq] at hb
      -- the shard can be read off the id
      have hs := (h s).shard_of_mem (mem_filter.mp ha).1
      have ht := (h t).shard_of_mem (mem_filter.mp hb).1
      rw [UInt64.toNat_inj.mp heq, ht] at hs
      exact absurd (Fin.ext hs) hst.ne')
  constructor
  · intro r
    rw [hp.mem_iff, mem_flatMap]
    constructor
    · rintro ⟨d, hd, hr⟩
      obtain ⟨s, rfl⟩ := mem_ofFn.mp hd
      rw [(h s).shardScanner_eq] at hr
      obtain ⟨hm, hi⟩ := mem_filter.mp hr
      exact ⟨of_decide_eq_true hi, s, hm⟩
    · rintro ⟨hi, s, hm⟩
      refine ⟨disks s, mem_ofFn.mpr ⟨s, rfl⟩, ?_⟩
      rw [(h s).shardScanner_eq]
      exact mem_filter.mpr ⟨hm, decide_eq_true hi⟩
  · exact ho.imp fun hlt => UInt64.lt_iff_toNat_lt.mpr hlt

/-- Scans are exact, and a point read finds a record if and only if the scan of its id does. -/
theorem scan_read_exact (h : ∀ s : Fin n, ShardDirectory C keys n s (disks s) (segs s)) :
    (∀ fromId toId : UInt64, fromId ≤ toId →
      (∀ r, r ∈ scanIter C keys (List.ofFn disks) fromId toId ↔
        (fromId ≤ r.id.sequence ∧ r.id.sequence < toId) ∧ ∃ s, r ∈ recordsOf (segs s)) ∧
      (scanIter C keys (List.ofFn disks) fromId toId).Pairwise
        fun a b => a.id.sequence < b.id.sequence) ∧
    ∀ (s : Fin n) (id : UInt64), id ≠ 0xFFFFFFFFFFFFFFFF →
      (decodeRecordId id (shardBits n)).1 = s →
      ∀ r, read C (disks s) keys id = .ok (some r) ↔
        scanIter C keys (List.ofFn disks) id (id + 1) = [r] := by
  refine ⟨fun fromId toId _ => scanIter_exact h fromId toId, ?_⟩
  intro s id hid hsd r
  obtain ⟨hm, hso⟩ := scanIter_exact h id (id + 1)
  obtain ⟨found, hd, hf⟩ := (h s).read_eq id
  have hn : (id + 1).toNat = id.toNat + 1 := by
    have ha : id.toNat ≠ 2 ^ 64 - 1 := fun heq => hid (UInt64.toNat_inj.mp heq)
    have hlt := id.toNat_lt
    rw [UInt64.toNat_add, UInt64.toNat_one]
    omega
  have hg : ∀ x : UInt64, id ≤ x ∧ x < id + 1 ↔ x = id := by
    intro x
    rw [UInt64.le_iff_toNat_le, UInt64.lt_iff_toNat_lt, hn, ← UInt64.toNat_inj]
    omega
  have ho : ∀ x ∈ scanIter C keys (ofFn disks) id (id + 1), x.id.sequence = id :=
    fun x hx => (hg _).mp ((hm x).mp hx).1
  have hh : r ∈ scanIter C keys (ofFn disks) id (id + 1) ↔
      r.id.sequence = id ∧ r ∈ recordsOf (segs s) := by
    rw [hm r, hg]
    constructor
    · rintro ⟨hr, t, ht⟩
      have hst : (t : ℕ) = s := by
        rw [← (h t).shard_of_mem ht, hr, hsd]
      exact ⟨hr, Fin.ext hst ▸ ht⟩
    · rintro ⟨hr, hs⟩
      exact ⟨hr, s, hs⟩
  rw [hd, Except.ok.injEq, hf r, ← hh]
  constructor
  · intro hr
    -- ascending ids that are all the same
    generalize scanIter C keys (ofFn disks) id (id + 1) = records at *
    cases records with
    | nil => exact absurd hr not_mem_nil
    | cons x xs =>
      cases xs with
      | nil => rw [mem_singleton.mp hr]
      | cons y ys =>
        have hlt := rel_of_pairwise_cons hso (mem_cons_self (a := y) (l := ys))
        rw [ho x mem_cons_self, ho y (mem_cons_of_mem x mem_cons_self)] at hlt
        exact absurd hlt (UInt64.lt_irrefl _)
  · intro heq
    rw [heq]
    exact mem_cons_self

end

def pairView (s : Fin 2) : ReadView :=
  ⟨UInt64.ofNat s, 7, [104, 105], zeros32⟩

def pairSegment (s : Fin 2) : StoredSegment where
  id := 1
  header := firstSegment zeros32 0 0 1 false hashAlgoBlake3
  records := [pairView s]

def pairDisk (s : Fin 2) : Disk where
  segments := [(1, (pairSegment s).header.serialize rawCrates zeros32 ++
    batchBytes rawCrates [pairView s])]
  sorted := pairwise_singleton _ _
  indexes _ := none

theorem shardDirectory_pair (s : Fin 2) :
    ShardDirectory rawCrates none 2 s (pairDisk s) [pairSegment s] where
  files := by
    have hr : ((pairSegment s).header.isCompressed || (pairSegment s).header.isEncrypted) =
        false := by
      revert s
      decide
    exact .cons ⟨rfl, _, _, rfl, serialize_length _ _ _,
      deserialize_serialize _ _ _, .raw _ hr⟩ .nil
  fits := by
    simp only [forall_mem_singleton, pairSegment]
    exact show recordSize 2 < 2 ^ 32 by decide
  ascending := by
    simp only [forall_mem_singleton, pairSegment]
    exact pairwise_singleton _ _
  indexes _ _ _ h := by cases h
  chain := .singleton _
  floor := by
    simp only [forall_mem_singleton, pairSegment]
    revert s
    decide
  shard := by
    simp only [forall_mem_singleton, pairSegment]
    revert s
    decide

theorem scan_read_exact_pair :
    read rawCrates (pairDisk 1) none 1 = .ok (some (pairView 1).toRecord) ↔
      scanIter rawCrates none (List.ofFn pairDisk) 1 2 = [(pairView 1).toRecord] :=
  (scan_read_exact shardDirectory_pair).2 1 1 (by decide) (by decide) _

end LogDb.Reader
