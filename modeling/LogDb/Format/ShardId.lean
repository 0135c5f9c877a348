import LogDb.Format.Record

/-!
Record ids under sharding: the local sequence in the high bits, the shard in the low ones.
-/

namespace LogDb.Format

/-- The number of bits needed to represent `numShards - 1`. -/
def shardBits (numShards : ℕ) : UInt32 :=
  if numShards ≤ 1 then 0 else UInt32.ofNat (Nat.log2 (numShards - 1) + 1)

def encodeRecordId (shardId localSeq : ℕ) (shardBits : UInt32) : UInt64 :=
  if shardBits = 0 then UInt64.ofNat localSeq
  else (UInt64.ofNat localSeq <<< shardBits.toUInt64) ||| UInt64.ofNat shardId

def decodeRecordId (globalId : UInt64) (shardBits : UInt32) : ℕ × ℕ :=
  if shardBits = 0 then (0, globalId.toNat)
  else
    ((globalId &&& ((1 <<< shardBits.toUInt64) - 1)).toNat,
      (globalId >>> shardBits.toUInt64).toNat)

/-- The distance of consecutive ids of one shard; the shift amount wraps as in release builds. -/
def idStride (shardBits : UInt32) : UInt64 :=
  1 <<< shardBits.toUInt64

/-- A shard whose ids up to `limit` fit into 64 bits. -/
structure ShardFits (shardId : ℕ) (shardBits : UInt32) (limit : ℕ) : Prop where
  bits_le : shardBits.toNat ≤ 8
  shard_lt : shardId < 2 ^ shardBits.toNat
  limit_lt : (limit + 1) * 2 ^ shardBits.toNat < 2 ^ 64

theorem shardBits_spec {numShards s : ℕ} (hx : numShards ≤ 256) (hs : s < numShards) :
    (shardBits numShards).toNat ≤ 8 ∧ s < 2 ^ (shardBits numShards).toNat := by
  unfold shardBits
  split_ifs with ho
  · exact ⟨by decide, by simp; omega⟩
  · have hl : Nat.log2 (numShards - 1) < 8 := (Nat.log2_lt (by omega)).mpr (by omega)
    have hv : (UInt32.ofNat (Nat.log2 (numShards - 1) + 1)).toNat =
        Nat.log2 (numShards - 1) + 1 := by
      rw [UInt32.toNat_ofNat']
      exact Nat.mod_eq_of_lt (by omega)
    rw [hv]
    have hlt : numShards - 1 < 2 ^ (Nat.log2 (numShards - 1) + 1) := Nat.lt_log2_self
    exact ⟨by omega, by omega⟩

section

variable {shardId : ℕ} {bits : UInt32} (hb : bits.toNat ≤ 8)

include hb

private theorem toUInt64_mod : bits.toUInt64.toNat % 64 = bits.toNat := by
  rw [UInt32.toNat_toUInt64]
  exact Nat.mod_eq_of_lt (by omega)

theorem toNat_encodeRecordId {n : ℕ} (hs : shardId < 2 ^ bits.toNat)
    (hn : n * 2 ^ bits.toNat < 2 ^ 64) :
    (encodeRecordId shardId n bits).toNat = n * 2 ^ bits.toNat + shardId := by
  have hf : n ≤ n * 2 ^ bits.toNat := Nat.le_mul_of_pos_right n (Nat.two_pow_pos _)
  have hle : 2 ^ bits.toNat ≤ 2 ^ 8 := Nat.pow_le_pow_right (by decide) hb
  unfold encodeRecordId
  split_ifs with hz
  · subst hz
    simp only [UInt32.toNat_zero, pow_zero, mul_one] at hs hn ⊢
    rw [UInt64.toNat_ofNat_of_lt' hn]
    omega
  · rw [UInt64.toNat_or, UInt64.toNat_shiftLeft, toUInt64_mod hb,
      UInt64.toNat_ofNat_of_lt' (hf.trans_lt hn),
      UInt64.toNat_ofNat_of_lt' (show shardId < 2 ^ 64 by omega),
      Nat.shiftLeft_eq, Nat.mod_eq_of_lt hn, ← Nat.shiftLeft_eq,
      ← Nat.shiftLeft_add_eq_or_of_lt hs]

theorem idStride_toNat : (idStride bits).toNat = 2 ^ bits.toNat := by
  unfold idStride
  rw [UInt64.toNat_shiftLeft, toUInt64_mod hb, UInt64.toNat_one, Nat.shiftLeft_eq, one_mul]
  exact Nat.mod_eq_of_lt (Nat.pow_lt_pow_right (by omega) (by omega))

theorem decodeRecordId_eq (id : UInt64) :
    decodeRecordId id bits = (id.toNat % 2 ^ bits.toNat, id.toNat / 2 ^ bits.toNat) := by
  unfold decodeRecordId
  split_ifs with hz
  · subst hz
    simp only [UInt32.toNat_zero, pow_zero, Nat.mod_one, Nat.div_one]
  · have hm : ((1 <<< bits.toUInt64) - 1 : UInt64).toNat = 2 ^ bits.toNat - 1 := by
      have hs := idStride_toNat hb
      unfold idStride at hs
      rw [UInt64.toNat_sub_of_le, hs, UInt64.toNat_one]
      rw [UInt64.le_iff_toNat_le, hs, UInt64.toNat_one]
      exact Nat.two_pow_pos _
    rw [UInt64.toNat_and, hm, Nat.and_two_pow_sub_one_eq_mod, UInt64.toNat_shiftRight,
      toUInt64_mod hb, Nat.shiftRight_eq_div_pow]

theorem encodeRecordId_decodeRecordId (id : UInt64) :
    encodeRecordId (decodeRecordId id bits).1 (decodeRecordId id bits).2 bits = id := by
  rw [decodeRecordId_eq hb]
  apply UInt64.toNat_inj.mp
  rw [toNat_encodeRecordId hb (Nat.mod_lt _ (Nat.two_pow_pos _))
    ((Nat.div_mul_le_self _ _).trans_lt id.toNat_lt), Nat.div_add_mod']

end

section

variable {shardId limit : ℕ} {bits : UInt32} (h : ShardFits shardId bits limit)

include h

theorem encodeRecordId_toNat {n : ℕ} (hn : n ≤ limit) :
    (encodeRecordId shardId n bits).toNat = n * 2 ^ bits.toNat + shardId :=
  toNat_encodeRecordId h.bits_le h.shard_lt
    ((Nat.mul_le_mul_right _ (by omega)).trans_lt h.limit_lt)

theorem encodeRecordId_succ {n : ℕ} (hn : n + 1 ≤ limit) :
    encodeRecordId shardId (n + 1) bits = encodeRecordId shardId n bits + idStride bits := by
  have hl := h.limit_lt
  have hle : (n + 1) * 2 ^ bits.toNat + shardId < 2 ^ 64 := by
    have hm := Nat.mul_le_mul_right (2 ^ bits.toNat) (Nat.add_le_add_right hn 1)
    have hs := h.shard_lt
    rw [add_mul (n + 1), one_mul] at hm
    omega
  apply UInt64.toNat_inj.mp
  rw [UInt64.toNat_add, encodeRecordId_toNat h hn, encodeRecordId_toNat h (by omega),
    idStride_toNat h.bits_le, Nat.mod_eq_of_lt]
  · rw [add_mul, one_mul]
    omega
  · rw [add_mul, one_mul] at hle
    omega

theorem encodeRecordId_lt {m n : ℕ} (hm : m < n) (hn : n ≤ limit) :
    encodeRecordId shardId m bits < encodeRecordId shardId n bits := by
  rw [UInt64.lt_iff_toNat_lt, encodeRecordId_toNat h hn, encodeRecordId_toNat h (by omega)]
  exact Nat.add_lt_add_right (Nat.mul_lt_mul_of_pos_right hm (Nat.two_pow_pos _)) _

theorem decodeRecordId_encodeRecordId {n : ℕ} (hn : n ≤ limit) :
    decodeRecordId (encodeRecordId shardId n bits) bits = (shardId, n) := by
  have hs := h.shard_lt
  rw [decodeRecordId_eq h.bits_le, encodeRecordId_toNat h hn, Nat.mul_add_mod_self_right,
    Nat.mod_eq_of_lt hs, mul_comm, Nat.mul_add_div (Nat.two_pow_pos _),
    Nat.div_eq_of_lt hs, add_zero]

theorem decodeRecordId_inj {id id' : UInt64} (heq : decodeRecordId id bits = decodeRecordId id' bits) :
    id = id' := by
  rw [← encodeRecordId_decodeRecordId h.bits_le id, heq, encodeRecordId_decodeRecordId h.bits_le]

end

end LogDb.Format
