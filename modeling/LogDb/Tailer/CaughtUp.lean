import LogDb.Reader.Exact
import LogDb.Tailer.Batch

/-!
When a tailer reports that it has caught up. The window of a shard is as wide as the batch, so a
range of deleted records of that width hides what lies behind it.
-/

namespace LogDb.Tailer

open Lib Format Storage Reader List SegmentHeader

def localSeq (n : ℕ) (r : Record) : ℕ :=
  (decodeRecordId r.id.sequence (shardBits n)).2

section

variable {C : Crates} {keys : Option KeyRing} {n : ℕ} {disks : Fin n → Disk}
  {durable positions : Fin n → ℕ} {maxCount : ℕ} {segs : Fin n → List StoredSegment}

/-- Some shard has a record between its position and `limit`. -/
def Waiting (segs : Fin n → List StoredSegment) (positions limit : Fin n → ℕ) : Prop :=
  ∃ s, ∃ r ∈ recordsOf (segs s), positions s ≤ localSeq n r ∧ localSeq n r < limit s

/-- Where the window of a shard ends, its `to_local`. -/
def toLocal (durable positions : Fin n → ℕ) (maxCount : ℕ) (s : Fin n) : ℕ :=
  min ((positions s + maxCount) % 2 ^ 64) (durable s)

variable (hn : n ≤ 256) (hdirs : ∀ s : Fin n, ShardDirectory C keys n s (disks s) (segs s))
  (hroom : ∀ s, (durable s + 1) * 2 ^ (shardBits n).toNat < 2 ^ 64)
include hn hdirs hroom

theorem mem_shardRecords {s : Fin n} {r : Record} :
    r ∈ shardRecords C keys disks durable positions maxCount s ↔ r ∈ recordsOf (segs s) ∧
      positions s ≤ localSeq n r ∧ localSeq n r < toLocal durable positions maxCount s := by
  have hf : ShardFits s (shardBits n) (durable s) :=
    ⟨(shardBits_spec hn s.2).1, (shardBits_spec hn s.2).2, hroom s⟩
  have hle : toLocal durable positions maxCount s ≤ durable s := min_le_right _ _
  unfold shardRecords
  split_ifs with hd
  · simp only [not_mem_nil, false_iff]
    omega
  · change r ∈ shardScanner C (disks s) keys (encodeRecordId s (positions s) (shardBits n))
      (encodeRecordId s (toLocal durable positions maxCount s) (shardBits n)) ↔ _
    rw [(hdirs s).shardScanner_eq, mem_filter]
    refine and_congr_right fun hr => ?_
    -- an id of the shard is the local sequence followed by the shard
    have hid : r.id.sequence.toNat = localSeq n r * 2 ^ (shardBits n).toNat + s := by
      have hs := (hdirs s).shard_of_mem hr
      unfold localSeq
      rw [decodeRecordId_eq hf.bits_le] at hs ⊢
      rw [← hs]
      exact (Nat.div_add_mod' _ _).symm
    rw [inRange, decide_eq_true_iff, UInt64.le_iff_toNat_le, UInt64.lt_iff_toNat_lt,
      encodeRecordId_toNat hf (n := positions s) (by omega), encodeRecordId_toNat hf hle, hid,
      Nat.add_le_add_iff_right, Nat.add_lt_add_iff_right,
      Nat.mul_le_mul_right_iff (Nat.two_pow_pos _), Nat.mul_lt_mul_right (Nat.two_pow_pos _)]

theorem nextBatch_none_iff :
    (∃ moved, nextBatch C keys disks durable positions maxCount = some (none, moved)) ↔
      ¬ Waiting segs positions (toLocal durable positions maxCount) := by
  have ha : (finRange n).flatMap (shardRecords C keys disks durable positions maxCount) =
      [] ↔ ¬ Waiting segs positions (toLocal durable positions maxCount) := by
    simp only [eq_nil_iff_forall_not_mem, mem_flatMap, mem_finRange, true_and,
      mem_shardRecords hn hdirs hroom, Waiting, not_exists]
    exact forall_comm
  rw [← ha]
  unfold nextBatch
  by_cases hi : (finRange n).flatMap
      (shardRecords C keys disks durable positions maxCount) = []
  · simp [hi]
  · simp [hi]

/-- A tailer reports only when nothing is waiting that it has caught up, if and only if something
waits in the window of a shard whenever something waits. -/
theorem caughtUp_truthful_iff :
    ((∃ moved, nextBatch C keys disks durable positions maxCount = some (none, moved)) →
        ¬ Waiting segs positions durable) ↔
      (Waiting segs positions durable →
        Waiting segs positions (toLocal durable positions maxCount)) := by
  rw [nextBatch_none_iff hn hdirs hroom]
  exact not_imp_not

end

theorem caughtUp_truthful_iff_pair :
    ¬ ∃ moved, nextBatch rawCrates none pairDisk (fun _ : Fin 2 => 1) (fun _ => 0) 1 =
      some (none, moved) :=
  fun h => (caughtUp_truthful_iff (by decide) shardDirectory_pair (by decide)).mpr id h
    ⟨0, (pairView 0).toRecord, mem_singleton_self _, by decide, by decide⟩

def lateView : ReadView :=
  ⟨2, 7, [104, 105], zeros32⟩

/-- The only segment that retention has left, from local sequence 2 on. -/
def lateSegment : StoredSegment :=
  ⟨2, firstSegment zeros32 2 0 2 false hashAlgoBlake3, [lateView]⟩

def lateDisk : Disk where
  segments := [(2, lateSegment.header.serialize rawCrates zeros32 ++
    batchBytes rawCrates [lateView])]
  sorted := pairwise_singleton _ _
  indexes _ := none

theorem shardDirectory_late (s : Fin 1) :
    ShardDirectory rawCrates none 1 s lateDisk [lateSegment] where
  files := .cons ⟨rfl, _, _, rfl, serialize_length _ _ _,
    deserialize_serialize _ _ _, .raw _ (by decide)⟩ .nil
  fits := by simpa [lateSegment, ReadView.Fits, lateView] using show recordSize 2 < 2 ^ 32 by decide
  ascending := by simp [lateSegment]
  indexes _ _ _ h := by cases h
  chain := .singleton _
  floor := by simp [lateSegment, StoredSegment.base, firstSegment, lateView]
  shard := by revert s; simp [lateSegment]; decide

/-- A tailer at the start that asks for one record is told that there is none. -/
theorem caughtUp_before_retained :
    (∀ s : Fin 1, ShardDirectory rawCrates none 1 s lateDisk [lateSegment]) ∧
      (∃ moved, nextBatch rawCrates none (fun _ : Fin 1 => lateDisk) (fun _ => 3) (fun _ => 0) 1 =
        some (none, moved)) ∧
      Waiting (fun _ : Fin 1 => [lateSegment]) (fun _ => 0) fun _ => 3 := by
  refine ⟨shardDirectory_late, (nextBatch_none_iff (by decide) shardDirectory_late
    (by decide)).mpr ?_, 0, lateView.toRecord, mem_singleton_self _, by decide, by decide⟩
  rintro ⟨s, r, hr, -, hlt⟩
  obtain rfl := mem_singleton.mp hr
  revert s
  decide

end LogDb.Tailer
