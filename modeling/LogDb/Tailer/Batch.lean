import LogDb.Reader.Manifest
import LogDb.Format.ShardId
import LogDb.Tailer.Progress

/-!
`Tailer::next_batch`: what is new and durable on every shard is merged by id and cut to the size
that was asked for, and each shard moves past what was delivered of it.
-/

namespace LogDb.Tailer

open Lib Format Storage Reader List Function Option

section

variable (C : Crates) (keys : Option KeyRing) {n : ℕ}

/-- The records that one shard may contribute; sums wrap as in release builds. -/
def shardRecords (disks : Fin n → Disk) (durable positions : Fin n → ℕ) (maxCount : ℕ)
    (s : Fin n) : List Record :=
  if durable s ≤ positions s then []
  else
    let toLocal := min ((positions s + maxCount) % 2 ^ 64) (durable s)
    scanIter C keys [disks s] (encodeRecordId s (positions s) (shardBits n))
      (encodeRecordId s toLocal (shardBits n))

/-- Move the position of its shard past a delivered record; an id of no shard is an index out of
range, where the source panics. -/
def advance (positions : Fin n → ℕ) (r : Record) : Option (Fin n → ℕ) :=
  let id := decodeRecordId r.id.sequence (shardBits n)
  if h : id.1 < n then
    let next := (id.2 + 1) % 2 ^ 64
    some (if positions ⟨id.1, h⟩ < next then update positions ⟨id.1, h⟩ next
      else positions)
  else none

/-- The batch, if there is anything new, and the positions after it. -/
def nextBatch (disks : Fin n → Disk) (durable positions : Fin n → ℕ) (maxCount : ℕ) :
    Option (Option (List Record) × (Fin n → ℕ)) :=
  let all := (List.finRange n).flatMap (shardRecords C keys disks durable positions maxCount)
  if all.isEmpty then some (none, positions)
  else
    let batch := (all.mergeSort fun a b => a.id.sequence ≤ b.id.sequence).take maxCount
    (batch.foldlM advance positions).map fun moved => (some batch, moved)

end

def inShard {n : ℕ} (s : Fin n) (r : Record) : Bool :=
  (decodeRecordId r.id.sequence (shardBits n)).1 == s

def logSlice {n : ℕ} (log : Fin n → ℕ → Record) (s : Fin n) (start count : ℕ) : List Record :=
  (List.range' start count).map (log s)

/-- The shard logs can be scanned exactly up to their durable cursors, which leave room in `u64`. -/
structure ScanExact (C : Crates) (keys : Option KeyRing) {n : ℕ} (log : Fin n → ℕ → Record)
    (disks : Fin n → Disk) (durable : Fin n → ℕ) : Prop where
  room : ∀ s, (durable s + 1) * 2 ^ (shardBits n).toNat < 2 ^ 64
  ids : ∀ s i, i < durable s →
    (log s i).id.sequence = encodeRecordId s i (shardBits n)
  scan : ∀ s i j, i ≤ j → j ≤ durable s →
    scanIter C keys [disks s] (encodeRecordId s i (shardBits n))
      (encodeRecordId s j (shardBits n)) = logSlice log s i (j - i)

section

variable {C : Crates} {keys : Option KeyRing} {n : ℕ} {log : Fin n → ℕ → Record}
  {disks : Fin n → Disk} {durable positions : Fin n → ℕ} {maxCount : ℕ}

theorem logSlice_append (log : Fin n → ℕ → Record) (s : Fin n) (start a b : ℕ) :
    logSlice log s start a ++ logSlice log s (start + a) b = logSlice log s start (a + b) := by
  rw [logSlice, logSlice, ← map_append, range'_append_1]
  rfl

variable {s : Fin n} {start : ℕ} {slice : Fin n → List Record}

theorem mem_logSlice {count : ℕ} {r : Record} (h : r ∈ logSlice log s start count) :
    ∃ i, start ≤ i ∧ i < start + count ∧ log s i = r := by
  obtain ⟨i, hi, rfl⟩ := mem_map.mp h
  obtain ⟨hge, hlt⟩ := mem_range'_1.mp hi
  exact ⟨i, hge, hlt, rfl⟩

theorem logSlice_length (s : Fin n) (start count : ℕ) :
    (logSlice log s start count).length = count := by
  simp [logSlice]

theorem eq_logSlice_of_isPrefix {count : ℕ} {records : List Record}
    (h : records <+: logSlice log s start count) :
    records.length ≤ count ∧ records = logSlice log s start records.length := by
  have hle := h.length_le
  rw [logSlice_length] at hle
  refine ⟨hle, ?_⟩
  have hs := logSlice_append log s start records.length (count - records.length)
  rw [Nat.add_sub_cancel' hle] at hs
  rw [← hs] at h
  have hf := prefix_of_prefix_length_le h (prefix_append _ _) (by rw [logSlice_length])
  exact hf.eq_of_length (logSlice_length _ _ _).symm

namespace ScanExact

section

variable (h : ScanExact C keys log disks durable)
include h

theorem fits (hn : n ≤ 256) (s : Fin n) : ShardFits s (shardBits n) (durable s) :=
  ⟨(shardBits_spec hn s.2).1, (shardBits_spec hn s.2).2, h.room s⟩

theorem decode_eq (hn : n ≤ 256) {s : Fin n} {i : ℕ} (hi : i < durable s) :
    decodeRecordId (log s i).id.sequence (shardBits n) = ((s : ℕ), i) := by
  rw [h.ids s i hi]
  exact decodeRecordId_encodeRecordId (h.fits hn s) hi.le

end

end ScanExact

private theorem filter_collected
    (hg : ∀ t, ∀ r ∈ slice t, (decodeRecordId r.id.sequence (shardBits n)).1 = t) (s : Fin n) :
    ((List.finRange n).flatMap slice).filter (inShard s) = slice s := by
  have hp : ∀ (shards : List (Fin n)), shards.Nodup → s ∈ shards →
      (shards.flatMap slice).filter (inShard s) = slice s := by
    intro shards hn hs
    have hsf : (slice s).filter (inShard s) = slice s := by
      apply filter_eq_self.mpr
      intro r hr
      exact beq_iff_eq.mpr (hg s r hr)
    have ho : ∀ t, t ≠ s → (slice t).filter (inShard s) = [] := by
      intro t ht
      apply filter_eq_nil_iff.mpr
      intro r hr hi
      exact ht (Fin.ext ((hg t r hr).symm.trans (beq_iff_eq.mp hi)))
    obtain ⟨front, back, rfl⟩ := append_of_mem hs
    rw [nodup_append'] at hn
    obtain ⟨-, hb, hd⟩ := hn
    have hf : (front.flatMap slice).filter (inShard s) = [] := by
      rw [filter_flatMap, flatMap_eq_nil_iff]
      intro t ht
      apply ho
      rintro rfl
      exact hd ht mem_cons_self
    have hb' : (back.flatMap slice).filter (inShard s) = [] := by
      rw [filter_flatMap, flatMap_eq_nil_iff]
      intro t ht
      apply ho
      rintro rfl
      exact (nodup_cons.mp hb).1 ht
    rw [flatMap_append, flatMap_cons, filter_append, filter_append, hf,
      hsf, hb', nil_append, append_nil]
  exact hp _ (nodup_finRange n) (mem_finRange s)

/-- Every delivered record moves the position of its shard and no other. -/
private theorem foldlM_advance (batch : List Record)
    (hb : ∀ r ∈ batch, (decodeRecordId r.id.sequence (shardBits n)).1 < n ∧
      (decodeRecordId r.id.sequence (shardBits n)).2 + 1 < 2 ^ 64) (positions : Fin n → ℕ) :
    batch.foldlM advance positions = some fun s => (batch.filter (inShard s)).foldl
      (fun p r => max p ((decodeRecordId r.id.sequence (shardBits n)).2 + 1)) (positions s) := by
  induction batch generalizing positions with
  | nil => rfl
  | cons r rs ih =>
    obtain ⟨hd, hnx⟩ := hb r mem_cons_self
    set t : Fin n := ⟨(decodeRecordId r.id.sequence (shardBits n)).1, hd⟩ with ht
    set next := (decodeRecordId r.id.sequence (shardBits n)).2 + 1 with hn
    have hp : advance positions r = some (update positions t (max (positions t) next)) := by
      unfold advance
      rw [dif_pos hd]
      simp only [← hn, Nat.mod_eq_of_lt hnx, ← ht]
      split_ifs with hlt
      · rw [max_eq_right hlt.le]
      · rw [max_eq_left (not_lt.mp hlt), update_eq_self]
    rw [foldlM_cons, hp]
    simp only [bind_eq_bind, bind_some]
    rw [ih fun x hx => hb x (mem_cons_of_mem r hx)]
    congr 1
    funext s
    by_cases hs : s = t
    · have hi : inShard s r = true := by
        rw [hs]
        exact beq_iff_eq.mpr rfl
      rw [filter_cons_of_pos hi, foldl_cons, hs, update_self]
    · have ho : ¬ inShard s r = true := fun hi =>
        hs (Fin.ext (beq_iff_eq.mp hi).symm)
      rw [filter_cons_of_neg ho, update_of_ne hs]

/-- How many durable records no batch has had yet. -/
def waiting (durable positions : Fin n → ℕ) : ℕ :=
  ((List.finRange n).map fun s => durable s - positions s).sum

theorem waiting_eq_zero_iff : waiting durable positions = 0 ↔ ∀ s, durable s ≤ positions s := by
  simp [waiting, sum_eq_zero_iff, Nat.sub_eq_zero_iff_le]

/-- What one call delivers: as many records as wait or fit, an ascending batch that continues every
shard at its position. -/
structure Delivers (log : Fin n → ℕ → Record) (durable positions : Fin n → ℕ) (maxCount : ℕ)
    (batch : List Record) (moved : Fin n → ℕ) : Prop where
  count : batch.length = min maxCount (waiting durable positions)
  owned : ∀ r ∈ batch, ∃ s : Fin n, inShard s r = true
  ascending : batch.Pairwise fun a b => a.id.sequence < b.id.sequence
  forward : ∀ s, positions s ≤ moved s
  within : ∀ s, moved s ≤ max (positions s) (durable s)
  run : ∀ s, batch.filter (inShard s) = logSlice log s (positions s) (moved s - positions s)

section

variable (hg : ∀ t, ∀ r ∈ slice t, (decodeRecordId r.id.sequence (shardBits n)).1 = t)
  (hk : ∀ t, (slice t).Pairwise fun a b => a.id.sequence < b.id.sequence)
include hg hk

private theorem collected_distinct :
    ((List.finRange n).flatMap slice).Pairwise fun a b => a.id.sequence ≠ b.id.sequence := by
  rw [pairwise_flatMap]
  constructor
  · intro t _
    exact (hk t).imp fun hlt => UInt64.ne_of_lt hlt
  · refine (nodup_finRange n).imp ?_
    intro s t hne a ha b hb heq
    apply hne
    ext
    rw [← hg s a ha, ← hg t b hb, heq]

/-- Sorting by id leaves the records of one shard in their order. -/
private theorem filter_mergeSort : let all := (finRange n).flatMap slice
    let sorted := all.mergeSort fun a b => a.id.sequence ≤ b.id.sequence
    (sorted.Pairwise fun a b => a.id.sequence < b.id.sequence) ∧
      ∀ s, sorted.filter (inShard s) = slice s := by
  intro all sorted
  have hp : sorted.Perm all := mergeSort_perm _ _
  have hle : sorted.Pairwise fun a b => a.id.sequence ≤ b.id.sequence := by
    have hm : sorted.Pairwise fun a b => decide (a.id.sequence ≤ b.id.sequence) = true := by
      apply pairwise_mergeSort
      · intro a b c ha hb
        exact decide_eq_true (UInt64.le_trans (of_decide_eq_true ha) (of_decide_eq_true hb))
      · intro a b
        simpa using UInt64.le_total a.id.sequence b.id.sequence
    exact hm.imp fun ha => of_decide_eq_true ha
  have hne : sorted.Pairwise fun a b => a.id.sequence ≠ b.id.sequence :=
    (hp.pairwise_iff fun h => h.symm).mpr (collected_distinct hg hk)
  have hlt : sorted.Pairwise fun a b => a.id.sequence < b.id.sequence :=
    (hle.and hne).imp fun h => UInt64.lt_of_le_of_ne h.1 h.2
  refine ⟨hlt, fun s => ?_⟩
  have hf : (sorted.filter (inShard s)).Perm (slice s) := by
    rw [← filter_collected hg s]
    exact hp.filter _
  refine hf.eq_of_pairwise ?_ (hlt.filter _) (hk s)
  intro a b _ _ ha hba
  exact absurd (UInt64.lt_trans ha hba) (UInt64.lt_irrefl _)

end

/-- What a shard contributes to a batch. -/
def contribution (log : Fin n → ℕ → Record) (durable positions : Fin n → ℕ) (maxCount : ℕ)
    (s : Fin n) : List Record :=
  logSlice log s (positions s) (min maxCount (durable s - positions s))

theorem length_contributions (log : Fin n → ℕ → Record) (durable positions : Fin n → ℕ)
    (maxCount : ℕ) :
    min maxCount ((finRange n).flatMap (contribution log durable positions maxCount)).length =
      min maxCount (waiting durable positions) := by
  rw [waiting, length_flatMap]
  simp only [contribution, logSlice_length]
  induction finRange n with
  | nil => rfl
  | cons s shards ih =>
    rw [map_cons, map_cons, sum_cons, sum_cons]
    omega

section

variable (h : ScanExact C keys log disks durable)
include h

theorem shardRecords_eq (hm : ∀ s, positions s + maxCount < 2 ^ 64) :
    shardRecords C keys disks durable positions maxCount =
      contribution log durable positions maxCount := by
  funext s
  unfold shardRecords contribution
  split_ifs with hd
  · simp [logSlice, Nat.sub_eq_zero_of_le hd]
  · simp only [Nat.mod_eq_of_lt (hm s)]
    rw [h.scan s (positions s) _ (by omega) (min_le_right _ _)]
    congr 1
    omega

variable (hn : n ≤ 256)
include hn

theorem decode_contribution {r : Record} (hr : r ∈ contribution log durable positions maxCount s) :
    ∃ i < durable s, decodeRecordId r.id.sequence (shardBits n) = ((s : ℕ), i) := by
  obtain ⟨i, hge, hlt, rfl⟩ := mem_logSlice hr
  have hi : i < durable s := by omega
  exact ⟨i, hi, h.decode_eq hn hi⟩

theorem contribution_ascending (s : Fin n) : (contribution log durable positions maxCount s).Pairwise
    fun a b => a.id.sequence < b.id.sequence := by
  refine pairwise_map.mpr (List.Pairwise.imp_of_mem ?_ pairwise_lt_range')
  intro i j hi hj hij
  have hj' := mem_range'_1.mp hj
  rw [h.ids s i (by omega), h.ids s j (by omega)]
  exact encodeRecordId_lt (h.fits hn s) hij (by omega)

/-- The records of a shard in a batch move it past all of them. -/
theorem foldl_position {taken : List Record}
    (ht : taken <+: contribution log durable positions maxCount s) :
    taken.foldl (fun p r => max p ((decodeRecordId r.id.sequence (shardBits n)).2 + 1))
      (positions s) = positions s + taken.length := by
  obtain ⟨hl, hu⟩ := eq_logSlice_of_isPrefix ht
  rw [hu, logSlice_length]
  generalize taken.length = count at hl
  induction count with
  | zero => rfl
  | succ count ih =>
    rw [← logSlice_append, foldl_append, ih (by omega)]
    show max _ ((decodeRecordId (log s (positions s + count)).id.sequence _).2 + 1) = _
    rw [h.decode_eq hn (by omega)]
    omega

end

theorem nextBatch_spec (h : ScanExact C keys log disks durable) (hn : n ≤ 256)
    (hm : ∀ s, positions s + maxCount < 2 ^ 64) (hp : 0 < maxCount) :
    ∃ result moved, nextBatch C keys disks durable positions maxCount = some (result, moved) ∧
      Delivers log durable positions maxCount (result.getD []) moved ∧
      (result = none ↔ ∀ s, durable s ≤ positions s) := by
  have hsd : ∀ t, ∀ r ∈ contribution log durable positions maxCount t,
      (decodeRecordId r.id.sequence (shardBits n)).1 = t := by
    intro t r hr
    obtain ⟨i, -, heq⟩ := decode_contribution h hn hr
    rw [heq]
  obtain ⟨hx, hf⟩ := filter_mergeSort hsd (contribution_ascending h hn)
  have hl := length_contributions log durable positions maxCount
  unfold nextBatch
  rw [shardRecords_eq h hm]
  set all := (finRange n).flatMap (contribution log durable positions maxCount) with ha
  have he : all = [] ↔ waiting durable positions = 0 := by
    rw [← length_eq_zero_iff]
    omega
  rw [← waiting_eq_zero_iff]
  by_cases hq : all = []
  · -- nothing is new, and no position moves
    have hw := he.mp hq
    simp only [hq, isEmpty_nil, if_true]
    refine ⟨none, positions, rfl, ⟨?_, nofun, .nil, fun s => le_rfl, fun s => le_max_left _ _,
      fun s => ?_⟩, by simpa using hw⟩
    · rw [hw, Nat.min_zero]
      rfl
    · rw [Nat.sub_self]
      rfl
  · have hy : all.isEmpty = false := by simp [hq]
    simp only [hy]
    set batch := (all.mergeSort fun a b => a.id.sequence ≤ b.id.sequence).take maxCount with hb
    -- cutting the sorted records cuts every shard at the front of what it contributed
    have hc : ∀ s, batch.filter (inShard s) <+: contribution log durable positions maxCount s :=
      fun s => hf s ▸ (List.take_prefix _ _).filter _
    have ho : ∀ r ∈ batch, ∃ s, r ∈ contribution log durable positions maxCount s := by
      intro r hr
      have hr' := (mergeSort_perm _ _).mem_iff.mp (mem_of_mem_take hr)
      obtain ⟨s, -, hs⟩ := mem_flatMap.mp hr'
      exact ⟨s, hs⟩
    have hae := foldlM_advance batch (by
      intro r hr
      obtain ⟨s, hs⟩ := ho r hr
      obtain ⟨i, hi, heq⟩ := decode_contribution h hn hs
      rw [heq]
      have hm := (h.fits hn s).limit_lt
      have hw : 1 ≤ 2 ^ (shardBits n).toNat := Nat.one_le_two_pow
      have hz := Nat.le_mul_of_pos_right (durable s + 1) hw
      exact ⟨s.2, by omega⟩) positions
    rw [hae]
    simp only [fun s => foldl_position h hn (hc s)]
    refine ⟨some batch, fun s => positions s + (batch.filter (inShard s)).length, rfl,
      ⟨?_, ?_, hx.sublist (take_sublist _ _), ?_, ?_, ?_⟩, ?_⟩
    · rw [getD_some, hb, length_take, length_mergeSort, hl]
    · intro r hr
      obtain ⟨s, hs⟩ := ho r hr
      exact ⟨s, beq_iff_eq.mpr (hsd s r hs)⟩
    · intro s
      exact Nat.le_add_right _ _
    · intro s
      have hl := (eq_logSlice_of_isPrefix (hc s)).1
      omega
    · intro s
      simp only [getD_some, Nat.add_sub_cancel_left]
      exact (eq_logSlice_of_isPrefix (hc s)).2
    · simpa using fun hw => hq (he.mpr hw)

end

end LogDb.Tailer
