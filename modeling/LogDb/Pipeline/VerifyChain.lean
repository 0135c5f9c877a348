import LogDb.Format.Header
import LogDb.Pipeline.RingSafe

/-!
`verify_chain` against the sealer. It takes one value for the key and for the hash before the first
record, where the sealer of a fresh shard starts from zeros.
-/

namespace LogDb.Pipeline

open Lib Format List

structure ChainRecord where
  recordId : UInt64
  content : Bytes
  storedHash : Bytes32

/-- The loop of `verify_chain`, for either algorithm. -/
def verifyLinks (hash : Bytes32 → Bytes → Bytes32) : Bytes32 → List ChainRecord → Bool
  | _, [] => true
  | expected, r :: rs =>
    if hash expected r.content ≠ r.storedHash then false
    else verifyLinks hash (hash expected r.content) rs

def verifyChain (C : Crates) (sha256 : Bytes → Bytes32) (records : List ChainRecord)
    (initHash : Bytes32) (hashAlgo : UInt8) : Bool :=
  if hashAlgo = hashAlgoBlake3 then verifyLinks (blake3KeyedChain C initHash) initHash records
  else verifyLinks (fun prev content => sha256 (prev.1 ++ content)) initHash records

theorem verifyLinks_append (hash : Bytes32 → Bytes → Bytes32) (init : Bytes32)
    (rs rs' : List ChainRecord) : verifyLinks hash init (rs ++ rs') =
      (verifyLinks hash init rs && verifyLinks hash (rs.foldl (fun _ r => r.storedHash) init) rs') := by
  induction rs generalizing init with
  | nil => rfl
  | cons r rs ih =>
    by_cases h : hash init r.content = r.storedHash
    · simp [verifyLinks, h, ih]
    · simp [verifyLinks, h]

section

variable (C : Crates) (cfg : RingConfig) (written : ℕ → Option Payload)

/-- The record at `i` with the hash that the sealer stores in its slot. -/
def sealedRecord (i : ℕ) : ChainRecord where
  recordId := cfg.idOf (cfg.initial + i)
  content := (written (cfg.initial + i)).elim [] Payload.content
  storedHash := cfg.chainAfter C written (i + 1)

def sealedRecords (n : ℕ) : List ChainRecord :=
  (range n).map (sealedRecord C cfg written)

variable {C cfg written} {n i : ℕ}

theorem foldl_sealedRecords :
    (sealedRecords C cfg written n).foldl (fun _ r => r.storedHash) cfg.lastHash =
      cfg.chainAfter C written n := by
  cases n with
  | zero => rfl
  | succ n => simp [sealedRecords, range_succ, sealedRecord]

theorem verifyLinks_sealedRecords :
    verifyLinks (blake3KeyedChain C cfg.hashInit) cfg.lastHash (sealedRecords C cfg written n) =
      true := by
  induction n with
  | zero => rfl
  | succ n ih =>
    rw [sealedRecords, range_succ, map_append, ← sealedRecords, verifyLinks_append, ih,
      foldl_sealedRecords]
    simp [verifyLinks, sealedRecord, RingConfig.chainAfter]

theorem verifyLinks_set {r : ChainRecord} (hi : i < n)
    (hr : blake3KeyedChain C cfg.hashInit (cfg.chainAfter C written i) r.content ≠ r.storedHash) :
    verifyLinks (blake3KeyedChain C cfg.hashInit) cfg.lastHash
      ((sealedRecords C cfg written n).set i r) = false := by
  have ht : (sealedRecords C cfg written n).take i = sealedRecords C cfg written i := by
    rw [sealedRecords, ← map_take, take_range, min_eq_left hi.le, sealedRecords]
  rw [set_eq_take_append_cons_drop, if_pos (by simpa [sealedRecords] using hi), ht,
    verifyLinks_append, foldl_sealedRecords]
  simp [verifyLinks, hr]

end

/-- Where the keyed hash does not collide on the hashes `P` and the contents `D`: the check accepts
what the sealer of a fresh shard wrote and nothing with one field changed, if the chain key is zero. -/
theorem verifyChain_exact_iff (C : Crates) (sha256 : Bytes → Bytes32) (cfg : RingConfig)
    (hfresh : cfg.lastHash = zeros32) (written : ℕ → Option Payload) (n : ℕ) (P : Set Bytes32)
    (D : Set Bytes) (hinj : (P ×ˢ D).InjOn fun p => blake3KeyedChain C cfg.hashInit p.1 p.2)
    (hkey : cfg.hashInit ∈ P) (hprev : ∀ i < n, cfg.chainAfter C written i ∈ P)
    (hcontent : ∀ i < n, (sealedRecord C cfg written i).content ∈ D) :
    (verifyChain C sha256 (sealedRecords C cfg written n) cfg.hashInit hashAlgoBlake3 = true ∧
      ∀ i < n,
        (∀ content ∈ D, content ≠ (sealedRecord C cfg written i).content →
          verifyChain C sha256 ((sealedRecords C cfg written n).set i
            { sealedRecord C cfg written i with content }) cfg.hashInit hashAlgoBlake3 = false) ∧
        ∀ storedHash ≠ (sealedRecord C cfg written i).storedHash,
          verifyChain C sha256 ((sealedRecords C cfg written n).set i
            { sealedRecord C cfg written i with storedHash }) cfg.hashInit hashAlgoBlake3 = false) ↔
      n = 0 ∨ cfg.hashInit = zeros32 := by
  unfold verifyChain
  simp only [if_pos]
  constructor
  · rintro ⟨ha, -⟩
    refine or_iff_not_imp_left.mpr fun hn => ?_
    obtain ⟨m, rfl⟩ := Nat.exists_eq_succ_of_ne_zero hn
    rw [sealedRecords, range_succ_eq_map, map_cons, verifyLinks] at ha
    have hf : blake3KeyedChain C cfg.hashInit cfg.hashInit (sealedRecord C cfg written 0).content =
        (sealedRecord C cfg written 0).storedHash := by
      by_contra hne
      simp [hne] at ha
    have hm := hcontent 0 (Nat.succ_pos m)
    have hp := hinj (Set.mk_mem_prod hkey hm) (Set.mk_mem_prod (hprev 0 (Nat.succ_pos m)) hm) hf
    exact (Prod.mk.inj hp).1.trans hfresh
  · rintro (rfl | hz)
    · exact ⟨rfl, nofun⟩
    · have hs : verifyLinks (blake3KeyedChain C cfg.hashInit) cfg.hashInit =
          verifyLinks (blake3KeyedChain C cfg.hashInit) cfg.lastHash := by rw [hz, hfresh]
      rw [hs]
      refine ⟨verifyLinks_sealedRecords, fun i hi => ⟨fun content hD hne => ?_, fun hash hne => ?_⟩⟩
      · refine verifyLinks_set hi fun heq => hne ?_
        have hp := hinj (Set.mk_mem_prod (hprev i hi) hD)
          (Set.mk_mem_prod (hprev i hi) (hcontent i hi)) heq
        exact (Prod.mk.inj hp).2
      · exact verifyLinks_set hi fun heq => hne heq.symm

theorem verifyChain_exact_iff_zero :
    verifyChain rawCrates copy32 (sealedRecords rawCrates smallRing (fun _ => some ⟨0, 0, [1]⟩) 1)
      zeros32 hashAlgoBlake3 = true := by
  refine ((verifyChain_exact_iff rawCrates copy32 smallRing rfl _ 1 {zeros32} {[1], [2]} ?_ rfl
    (fun i hi => ?_) fun i hi => .inl rfl).mpr (.inr rfl)).1
  · rintro ⟨p, c⟩ ⟨rfl, rfl | rfl⟩ ⟨p', c'⟩ ⟨rfl, rfl | rfl⟩ heq
    · rfl
    · exact absurd heq (by decide +kernel)
    · exact absurd heq (by decide +kernel)
    · rfl
  · obtain rfl : i = 0 := by omega
    rfl

/-- With any other key, what the sealer wrote is rejected. -/
theorem verifyChain_rejects_sealed : verifyChain rawCrates copy32
      (sealedRecords rawCrates { smallRing with hashInit := copy32 [1] }
        (fun _ => some ⟨0, 0, [1]⟩) 1) (copy32 [1]) hashAlgoBlake3 = false := by
  decide +kernel

end LogDb.Pipeline
