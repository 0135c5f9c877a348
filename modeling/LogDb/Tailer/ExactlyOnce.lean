import LogDb.Lib.Transition
import LogDb.Reader.Exact
import LogDb.Tailer.Batch

/-!
A tailer over whole runs: the durable cursors move forward, batches are taken, and the tailer is
committed and opened again. Each shard is delivered from its first position on, every record once.
-/

namespace LogDb.Tailer

open Lib Format Storage Reader List

section

variable (C : Crates) {n : ℕ}

/-- `commit` followed by a new tailer of the same name. -/
def reopen (positions : Fin n → ℕ) : Fin n → ℕ :=
  fun s => (loadProgress C (some (saveProgress C (List.ofFn positions))) n).get
    ⟨s, (loadProgress_length C _ n).symm ▸ s.2⟩

theorem reopen_eq (hn : n ≤ 256) {positions : Fin n → ℕ} (hlt : ∀ s, positions s < 2 ^ 64) :
    reopen C positions = positions := by
  have hl := loadProgress_saveProgress C (forall_mem_ofFn_iff.mpr hlt) (by rw [length_ofFn]; omega)
  rw [length_ofFn] at hl
  funext s
  simp [reopen, hl]

end

/-- A tailer over the shards of a database, with the size and the records of every batch so far. -/
structure TailState (n : ℕ) where
  disks : Fin n → Disk
  durable : Fin n → ℕ
  positions : Fin n → ℕ
  delivered : List (ℕ × List Record)

/-- What can happen while a tailer runs over logs from which nothing is deleted. -/
inductive TailStep (C : Crates) (keys : Option KeyRing) {n : ℕ} (log : Fin n → ℕ → Record) :
    TailState n → TailState n → Prop
  | progress (st : TailState n) (disks : Fin n → Disk) (durable : Fin n → ℕ)
      (hmono : ∀ s, st.durable s ≤ durable s) (hexact : ScanExact C keys log disks durable) :
      TailStep C keys log st { st with disks := disks, durable := durable }
  | nextBatch (st : TailState n) (maxCount : ℕ) (result : Option (List Record))
      (moved : Fin n → ℕ) (hpos : 1 ≤ maxCount)
      (hroom : ∀ s, st.positions s + maxCount < 2 ^ 64)
      (hcall : nextBatch C keys st.disks st.durable st.positions maxCount =
        some (result, moved)) :
      TailStep C keys log st { st with
        positions := moved
        delivered := st.delivered ++ [(maxCount, result.getD [])] }
  | reopen (st : TailState n) :
      TailStep C keys log st { st with positions := reopen C st.positions }

section

variable {C : Crates} {keys : Option KeyRing} {n : ℕ} {log : Fin n → ℕ → Record}

def TailState.records (st : TailState n) : List Record :=
  st.delivered.flatMap Prod.snd

/-- What every run from the given positions keeps. -/
structure TailInv (C : Crates) (keys : Option KeyRing) (log : Fin n → ℕ → Record)
    (start : Fin n → ℕ) (st : TailState n) : Prop where
  exact : ScanExact C keys log st.disks st.durable
  bounded : ∀ s, st.positions s < 2 ^ 64
  calls : ∀ call ∈ st.delivered, call.2.length ≤ call.1 ∧
    call.2.Pairwise fun a b => a.id.sequence < b.id.sequence
  owned : ∀ r ∈ st.records, ∃ s : Fin n, inShard s r = true
  forward : ∀ s, start s ≤ st.positions s
  run : ∀ s, st.records.filter (inShard s) =
    logSlice log s (start s) (st.positions s - start s)

variable {disks : Fin n → Disk} {durable start : Fin n → ℕ} {st : TailState n}

theorem ScanExact.durable_lt (h : ScanExact C keys log disks durable) (s : Fin n) :
    durable s < 2 ^ 64 := by
  have ho : 1 ≤ 2 ^ (shardBits n).toNat := Nat.one_le_two_pow
  have hm := Nat.le_mul_of_pos_right (durable s + 1) ho
  have hr := h.room s
  omega

/-- A batch appends to every shard what follows the records it already delivered. -/
theorem TailInv.deliver (h : TailInv C keys log start st) {maxCount : ℕ} {batch : List Record}
    {moved : Fin n → ℕ} (hb : Delivers log st.durable st.positions maxCount batch moved) :
    TailInv C keys log start { st with
      positions := moved, delivered := st.delivered ++ [(maxCount, batch)] } := by
  have hc : (TailState.records { st with
      positions := moved, delivered := st.delivered ++ [(maxCount, batch)] }) =
      st.records ++ batch := by
    simp [TailState.records]
  constructor
  · exact h.exact
  · intro s
    have hle := hb.within s
    have hd := h.exact.durable_lt s
    have hp := h.bounded s
    show moved s < 2 ^ 64
    omega
  · intro call hl
    rcases mem_append.mp hl with ho | hn
    · exact h.calls call ho
    · rw [mem_singleton.mp hn]
      exact ⟨hb.count.trans_le (min_le_left _ _), hb.ascending⟩
  · intro r hr
    rw [hc] at hr
    rcases mem_append.mp hr with ho | hn
    · exact h.owned r ho
    · exact hb.owned r hn
  · intro s
    exact (h.forward s).trans (hb.forward s)
  · intro s
    have hs := h.forward s
    have hm := hb.forward s
    rw [hc, filter_append, h.run s, hb.run s]
    have ha := logSlice_append log s (start s) (st.positions s - start s) (moved s - st.positions s)
    rw [Nat.add_sub_cancel' hs] at ha
    rw [ha]
    congr 1
    show st.positions s - start s + (moved s - st.positions s) = moved s - start s
    omega

theorem TailInv.step (hn : n ≤ 256) {st' : TailState n} (h : TailInv C keys log start st)
    (hsp : TailStep C keys log st st') : TailInv C keys log start st' := by
  cases hsp with
  | progress disks durable hm hex =>
    exact ⟨hex, h.bounded, h.calls, h.owned, h.forward, h.run⟩
  | nextBatch maxCount result moved hp hr hc =>
    obtain ⟨result', moved', hs, hd, -⟩ := nextBatch_spec h.exact hn hr hp
    rw [hc] at hs
    cases hs
    exact h.deliver hd
  | reopen =>
    rw [reopen_eq C hn h.bounded]
    exact h

/-- In every run each batch ascends and has at most the size asked for, and what has been delivered
of a shard is the run of its records from the first position to the current one. No call fails, each
one delivers all that waits or as much as was asked for, one that finds nothing has everything
durable behind it, and saved positions are read back. -/
theorem tailer_exactly_once (hn : n ≤ 256) {st₀ st : TailState n}
    (hexact : ScanExact C keys log st₀.disks st₀.durable)
    (hstart : ∀ s, st₀.positions s < 2 ^ 64) (hnone : st₀.delivered = [])
    (hrun : Relation.ReflTransGen (TailStep C keys log) st₀ st) :
    (∀ call ∈ st.delivered, call.2.length ≤ call.1 ∧
      call.2.Pairwise fun a b => a.id.sequence < b.id.sequence) ∧
    (∀ r ∈ st.records, ∃ s : Fin n, inShard s r = true) ∧
    (∀ s, st₀.positions s ≤ st.positions s ∧
      st.records.filter (inShard s) =
        logSlice log s (st₀.positions s) (st.positions s - st₀.positions s)) ∧
    (∀ maxCount, 1 ≤ maxCount → (∀ s, st.positions s + maxCount < 2 ^ 64) →
      ∃ result moved,
        nextBatch C keys st.disks st.durable st.positions maxCount = some (result, moved) ∧
        (result.getD []).length = min maxCount (waiting st.durable st.positions) ∧
        (result = none ↔ ∀ s, st.durable s ≤ st.positions s)) ∧
    (∀ positions : Fin n → ℕ, (∀ s, positions s < 2 ^ 64) →
      loadProgress C (some (saveProgress C (List.ofFn positions))) n = List.ofFn positions) := by
  have hit : TailInv C keys log st₀.positions st₀ := by
    refine ⟨hexact, hstart, ?_, ?_, fun s => le_rfl, fun s => ?_⟩
    · simp [hnone]
    · simp [TailState.records, hnone]
    · simp [TailState.records, hnone, logSlice]
  have hi := invariant_of_steps hrun hit fun a b ha hb => ha.step hn hb
  refine ⟨hi.calls, hi.owned, fun s => ⟨hi.forward s, hi.run s⟩, ?_, ?_⟩
  · intro maxCount hp hr
    obtain ⟨result, moved, hc, hd, hg⟩ := nextBatch_spec hi.exact hn hr hp
    exact ⟨result, moved, hc, hd.count, hg⟩
  · intro positions hlt
    have hl := loadProgress_saveProgress C (forall_mem_ofFn_iff.mpr hlt)
      (by rw [length_ofFn]; omega)
    rwa [length_ofFn] at hl

/-- Directories that hold the logs from their first records on are scanned exactly. -/
theorem scanExact_of_directories {segs : Fin n → List StoredSegment} (hn : n ≤ 256)
    (hds : ∀ s : Fin n, ShardDirectory C keys n s (disks s) (segs s)) (count : Fin n → ℕ)
    (hl : ∀ s, recordsOf (segs s) = logSlice log s 0 (count s))
    (ho : ∀ s i, i < count s → (log s i).id.sequence = encodeRecordId s i (shardBits n))
    (hm : ∀ s, (count s + 1) * 2 ^ (shardBits n).toNat < 2 ^ 64)
    (hd : ∀ s, durable s ≤ count s) : ScanExact C keys log disks durable  where
  room s := lt_of_le_of_lt (Nat.mul_le_mul_right _ (Nat.succ_le_succ (hd s))) (hm s)
  ids s i hi := ho s i (hi.trans_le (hd s))
  scan s i j hij hj := by
    have hf : ShardFits s (shardBits n) (count s) :=
      ⟨(shardBits_spec hn s.2).1, (shardBits_spec hn s.2).2, hm s⟩
    have hc := hd s
    have hsc : scanIter C keys [disks s] (encodeRecordId s i (shardBits n))
        (encodeRecordId s j (shardBits n)) = (recordsOf (segs s)).filter
          (inRange (encodeRecordId s i (shardBits n)) (encodeRecordId s j (shardBits n))) :=
      (hds s).shardScanner_eq _ _
    have hin : ∀ k, k < count s → (inRange (encodeRecordId s i (shardBits n))
        (encodeRecordId s j (shardBits n)) (log s k) = true ↔ i ≤ k ∧ k < j) := by
      intro k hk
      rw [inRange, decide_eq_true_iff, ho s k hk, UInt64.le_iff_toNat_le,
        UInt64.lt_iff_toNat_lt, encodeRecordId_toNat hf hk.le,
        encodeRecordId_toNat hf (n := i) (by omega),
        encodeRecordId_toNat hf (n := j) (by omega),
        Nat.add_le_add_iff_right, Nat.add_lt_add_iff_right,
        Nat.mul_le_mul_right_iff (Nat.two_pow_pos _), Nat.mul_lt_mul_right (Nat.two_pow_pos _)]
    have hs : logSlice log s 0 (count s) =
        logSlice log s 0 i ++ (logSlice log s i (j - i) ++ logSlice log s j (count s - j)) := by
      have hb := logSlice_append log s i (j - i) (count s - j)
      rw [Nat.add_sub_cancel' hij] at hb
      have ha := logSlice_append log s 0 i (j - i + (count s - j))
      rw [zero_add] at ha
      rw [hb, ha]
      congr 1
      omega
    have he : (logSlice log s 0 i).filter (inRange (encodeRecordId s i (shardBits n))
        (encodeRecordId s j (shardBits n))) = [] := by
      apply filter_eq_nil_iff.mpr
      intro r hr hg
      obtain ⟨k, -, hlt, rfl⟩ := mem_logSlice hr
      have hg := (hin k (by omega)).mp hg
      omega
    have har : (logSlice log s j (count s - j)).filter
        (inRange (encodeRecordId s i (shardBits n)) (encodeRecordId s j (shardBits n))) = [] := by
      apply filter_eq_nil_iff.mpr
      intro r hr hg
      obtain ⟨k, hge, hlt, rfl⟩ := mem_logSlice hr
      have hg := (hin k (by omega)).mp hg
      omega
    have hw : (logSlice log s i (j - i)).filter (inRange (encodeRecordId s i (shardBits n))
        (encodeRecordId s j (shardBits n))) = logSlice log s i (j - i) := by
      apply filter_eq_self.mpr
      intro r hr
      obtain ⟨k, hge, hlt, rfl⟩ := mem_logSlice hr
      exact (hin k (by omega)).mpr ⟨hge, by omega⟩
    rw [hsc, hl s, hs, filter_append, filter_append, he, har, hw, nil_append, append_nil]

end

/-- A tailer at the start of two shards with one durable record each. -/
def pairTail : TailState 2 where
  disks := pairDisk
  durable _ := 1
  positions _ := 0
  delivered := []

private theorem scanExact_pair :
    ScanExact rawCrates none (fun s _ => (pairView s).toRecord) pairTail.disks pairTail.durable := by
  apply scanExact_of_directories (by decide) shardDirectory_pair (fun _ => 1)
  · intro s
    rfl
  · intro s i hi
    obtain rfl : i = 0 := by omega
    revert s
    decide
  · decide
  · intro s
    exact le_rfl

theorem tailer_exactly_once_pair :
    ∃ st, Relation.ReflTransGen (TailStep rawCrates none fun s _ => (pairView s).toRecord)
        pairTail st ∧
      (∃ batch, st.delivered = [(2, batch)] ∧ batch.length = 2) ∧
      ∀ s, st.records.filter (inShard s) =
        logSlice (fun s _ => (pairView s).toRecord) s 0 (st.positions s) := by
  obtain ⟨result, moved, hc, hl, -⟩ :=
    (tailer_exactly_once (by decide) scanExact_pair (by decide) rfl .refl).2.2.2.1 2 (by decide)
      (by decide)
  have hr : Relation.ReflTransGen (TailStep rawCrates none fun s _ => (pairView s).toRecord)
      pairTail _ := .single (.nextBatch pairTail 2 result moved (by decide) (by decide) hc)
  refine ⟨_, hr, ⟨_, rfl, hl⟩, fun s => ?_⟩
  exact ((tailer_exactly_once (by decide) scanExact_pair (by decide) rfl hr).2.2.1 s).2

end LogDb.Tailer
