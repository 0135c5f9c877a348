import LogDb.Daemon.Record
import LogDb.Lib.MaxMap

/-!
Deleted streams: a tombstone record deletes what its stream holds up to the tombstone's number.

The usage of every stream: how many live records it has and how many bytes they hold.
-/

namespace LogDb.Daemon

open Lib List

def streamDeletedEvent : String := "logdb.stream_deleted"

/-- The number of the last tombstone of each stream. -/
structure TombstoneTracker where
  cutoffs : MaxMap UInt64

namespace TombstoneTracker

def new : TombstoneTracker := ⟨∅⟩

variable (t : TombstoneTracker)

def record (stream : UInt64) (seq : ℕ) : TombstoneTracker :=
  ⟨t.cutoffs.record (stream, seq)⟩

def recordAll (records : List DecodedRecord) : TombstoneTracker :=
  records.foldl (fun t r =>
    if r.eventType = streamDeletedEvent then t.record r.streamId r.seq.toNat else t) t

def rebuildFromRecords (records : List DecodedRecord) : TombstoneTracker :=
  new.recordAll records

def cutoff (stream : UInt64) : ℕ :=
  (t.cutoffs.lookup stream).getD 0

def isLive (stream : UInt64) (seq : ℕ) : Bool :=
  t.cutoff stream < seq

/-! ## Cutoffs -/

def tombstonesOf (records : List DecodedRecord) : List (UInt64 × ℕ) :=
  (records.filter fun r => r.eventType = streamDeletedEvent).map fun r => (r.streamId, r.seq.toNat)

variable {records : List DecodedRecord} {stream : UInt64}

theorem mem_tombstonesOf {seq : ℕ} : (stream, seq) ∈ tombstonesOf records ↔
      ∃ r ∈ records, r.eventType = streamDeletedEvent ∧ r.streamId = stream ∧ r.seq.toNat = seq := by
  simp [tombstonesOf, and_assoc]

theorem cutoffs_recordAll (records : List DecodedRecord) :
    (t.recordAll records).cutoffs = t.cutoffs.recordAll (tombstonesOf records) := by
  unfold recordAll
  induction records generalizing t with
  | nil => rfl
  | cons r records ih =>
    rw [List.foldl_cons, ih]
    by_cases hr : r.eventType = streamDeletedEvent
    · simp [tombstonesOf, MaxMap.recordAll, hr, record]
    · simp [tombstonesOf, hr]

theorem cutoff_rebuildFromRecords (records : List DecodedRecord) (stream : UInt64) :
    ((rebuildFromRecords records).cutoff stream = 0 ∨
      (stream, (rebuildFromRecords records).cutoff stream) ∈ tombstonesOf records) ∧
    ∀ seq, (stream, seq) ∈ tombstonesOf records →
      seq ≤ (rebuildFromRecords records).cutoff stream := by
  have hc : (rebuildFromRecords records).cutoffs =
      MaxMap.recordAll ∅ (tombstonesOf records) := cutoffs_recordAll new records
  unfold cutoff
  rw [hc, MaxMap.lookup_recordAll_empty]
  cases hx : MaxMap.maxOf (tombstonesOf records) stream with
  | none => exact ⟨.inl rfl, fun seq hq => absurd hq (MaxMap.maxOf_eq_none_iff.mp hx seq)⟩
  | some top =>
    obtain ⟨hm, hle⟩ := MaxMap.maxOf_eq_some_iff.mp hx
    exact ⟨.inr hm, hle⟩

theorem cutoff_rebuildFromRecords_eq {c : ℕ} (hc : c = 0 ∨ (stream, c) ∈ tombstonesOf records)
    (hle : ∀ seq, (stream, seq) ∈ tombstonesOf records → seq ≤ c) :
    (rebuildFromRecords records).cutoff stream = c := by
  obtain ⟨hu, hx⟩ := cutoff_rebuildFromRecords records stream
  apply le_antisymm
  · rcases hu with hz | hm
    · omega
    · exact hle _ hm
  · rcases hc with rfl | hm
    · exact Nat.zero_le _
    · exact hx c hm

theorem cutoff_record (stream stream' : UInt64) (seq : ℕ) : (t.record stream seq).cutoff stream' =
      if stream = stream' then max (t.cutoff stream') seq else t.cutoff stream' := by
  unfold cutoff record
  rw [MaxMap.lookup_record]
  split_ifs
  · cases t.cutoffs.lookup stream' <;> simp
  · rfl

/-- Tombstones up to the cutoffs change nothing. -/
theorem cutoff_recordAll_of_le
    (h : ∀ stream seq, (stream, seq) ∈ tombstonesOf records → seq ≤ t.cutoff stream)
    (stream : UInt64) : (t.recordAll records).cutoff stream = t.cutoff stream := by
  unfold recordAll
  induction records generalizing t with
  | nil => rfl
  | cons r records ih =>
    have ht : ∀ stream seq, (stream, seq) ∈ tombstonesOf records → seq ≤ t.cutoff stream := by
      intro stream seq hm
      obtain ⟨r', hr', hq⟩ := mem_tombstonesOf.mp hm
      exact h stream seq (mem_tombstonesOf.mpr ⟨r', List.mem_cons_of_mem _ hr', hq⟩)
    rw [List.foldl_cons]
    split_ifs with hr
    · have hle : r.seq.toNat ≤ t.cutoff r.streamId :=
        h _ _ (mem_tombstonesOf.mpr ⟨r, List.mem_cons_self, hr, rfl, rfl⟩)
      have hsm : ∀ stream, (t.record r.streamId r.seq.toNat).cutoff stream = t.cutoff stream := by
        intro stream
        rw [cutoff_record]
        split_ifs with hs
        · subst hs
          exact max_eq_left hle
        · rfl
      rw [ih _ (by simpa only [hsm] using ht), hsm]
    · exact ih _ ht

theorem isLive_congr {t t' : TombstoneTracker} (h : ∀ stream, t.cutoff stream = t'.cutoff stream) :
    t.isLive = t'.isLive := by
  funext stream seq
  unfold isLive
  rw [h stream]

end TombstoneTracker

structure Usage where
  records : ℕ
  bytes : ℕ
  deriving DecidableEq, Repr

def Usage.plus (u : Usage) (bytes : ℕ) : Usage :=
  ⟨u.records + 1, u.bytes + bytes⟩

structure QuotaTracker where
  usages : AList fun _ : UInt32 × UInt64 => Usage

namespace QuotaTracker

def new : QuotaTracker := ⟨∅⟩

variable (q : QuotaTracker)

section

variable (ns : UInt32) (stream : UInt64)

def usage : Usage :=
  (q.usages.lookup (ns, stream)).getD ⟨0, 0⟩

def add (bytes : ℕ) : QuotaTracker :=
  ⟨q.usages.insert (ns, stream) ((q.usage ns stream).plus bytes)⟩

def reset : QuotaTracker :=
  ⟨q.usages.insert (ns, stream) ⟨0, 0⟩⟩

end

def seedFromRecords (records : List DecodedRecord) (isLive : UInt64 → ℕ → Bool) : QuotaTracker :=
  records.foldl (fun q r =>
    if r.eventType = streamDeletedEvent then q
    else if isLive r.streamId r.seq.toNat then
      q.add r.namespaceId r.streamId r.userContent.length
    else q) new

section

variable (ns ns' : UInt32) (stream stream' : UInt64)

theorem usage_add (bytes : ℕ) : (q.add ns stream bytes).usage ns' stream' =
      if (ns', stream') = (ns, stream) then (q.usage ns stream).plus bytes
      else q.usage ns' stream' := by
  split_ifs with hk
  · obtain ⟨rfl, rfl⟩ := Prod.mk.inj hk
    simp [add, usage]
  · simp [add, usage, AList.lookup_insert_ne hk]

theorem usage_reset : (q.reset ns stream).usage ns' stream' =
      if (ns', stream') = (ns, stream) then ⟨0, 0⟩ else q.usage ns' stream' := by
  split_ifs with hk
  · obtain ⟨rfl, rfl⟩ := Prod.mk.inj hk
    simp [reset, usage]
  · simp [reset, usage, AList.lookup_insert_ne hk]

end

end QuotaTracker

/-! ## Counting -/

def totalUsage (records : List DecodedRecord) : Usage :=
  ⟨records.length, (records.map fun r => r.userContent.length).sum⟩

theorem totalUsage_cons (r : DecodedRecord) (records : List DecodedRecord) :
    totalUsage (r :: records) = (totalUsage records).plus r.userContent.length := by
  simp [totalUsage, Usage.plus, add_comm]

theorem totalUsage_perm {records records' : List DecodedRecord} (h : records.Perm records') :
    totalUsage records = totalUsage records' := by
  unfold totalUsage
  rw [h.length_eq, (h.map _).sum_eq]

def countsFor (isLive : UInt64 → ℕ → Bool) (ns : UInt32) (stream : UInt64) (r : DecodedRecord) :
    Bool :=
  r.eventType ≠ streamDeletedEvent ∧ isLive r.streamId r.seq.toNat ∧ r.namespaceId = ns ∧
    r.streamId = stream

end LogDb.Daemon
