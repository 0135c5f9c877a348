import LogDb.Format.Crates

/-!
The progress file of a tailer: one position per shard. A single shard keeps the old format of
12 bytes; several shards store their number in front. Both end with a checksum.
-/

namespace LogDb.Tailer

open Lib Format List

def legacyProgressSize : ℕ := 12

/-- The bytes in front of the checksum, when there is not exactly one shard. -/
def progressBody (positions : List ℕ) : Bytes :=
  leBytes 4 positions.length ++ (positions.map (leBytes 8)).flatten

def withChecksum (C : Crates) (body : Bytes) : Bytes :=
  body ++ leBytes 4 (C.crc32c body).toNat

def saveProgress (C : Crates) : List ℕ → Bytes
  | [p] => withChecksum C (leBytes 8 p)
  | positions => withChecksum C (progressBody positions)

/-- A file that is missing or damaged gives all zeros. -/
def loadProgress (C : Crates) (file : Option Bytes) (numShards : ℕ) : List ℕ :=
  match file with
  | none => List.replicate numShards 0
  | some data =>
    if numShards = 1 then
      if data.length ≠ legacyProgressSize then List.replicate numShards 0
      else if (C.crc32c (field 0 8 data)).toNat ≠ leVal (field 8 4 data) then
        List.replicate numShards 0
      else [leVal (field 0 8 data)]
    else if data.length < 4 then List.replicate numShards 0
    else
      let count := leVal (field 0 4 data)
      if data.length ≠ 4 + count * 8 + 4 ∨ count ≠ numShards then List.replicate numShards 0
      else if (C.crc32c (field 0 (4 + count * 8) data)).toNat ≠
          leVal (field (4 + count * 8) 4 data) then List.replicate numShards 0
      else (List.range count).map fun i => leVal (field (4 + i * 8) 8 data)

theorem loadProgress_length (C : Crates) (file : Option Bytes) (numShards : ℕ) :
    (loadProgress C file numShards).length = numShards := by
  unfold loadProgress
  cases file with
  | none => exact length_replicate
  | some data =>
    simp only
    split_ifs with ho hl hr hs hc hu
    · exact length_replicate
    · exact length_replicate
    · exact ho.symm
    · exact length_replicate
    · exact length_replicate
    · exact length_replicate
    · rw [length_map, length_range]
      tauto

section

variable (C : Crates)

theorem withChecksum_fields (body : Bytes) : (withChecksum C body).length = body.length + 4 ∧
      field 0 body.length (withChecksum C body) = body ∧
      leVal (field body.length 4 (withChecksum C body)) = (C.crc32c body).toNat := by
  have hl : (leBytes 4 (C.crc32c body).toNat).length = 4 := leBytes_length _ _
  refine ⟨by rw [withChecksum, length_append, hl], ?_, ?_⟩
  · rw [withChecksum, field_zero, take_left]
  · have hf : field body.length 4 (withChecksum C body) = leBytes 4 (C.crc32c body).toNat := by
      rw [withChecksum, field, drop_left, take_of_length_le hl.le]
    rw [hf]
    exact leVal_leBytes_of_lt (C.crc32c body).toNat_lt

private theorem positions_length (positions : List ℕ) :
    (positions.map (leBytes 8)).flatten.length = positions.length * 8 := by
  induction positions with
  | nil => rfl
  | cons p ps ih =>
    rw [map_cons, flatten_cons, length_append, leBytes_length, ih, length_cons]
    omega

theorem progressBody_length (positions : List ℕ) :
    (progressBody positions).length = 4 + positions.length * 8 := by
  rw [progressBody, length_append, leBytes_length, positions_length]

private theorem field_progressBody {positions : List ℕ} {i : ℕ} (hi : i < positions.length)
    (rest : Bytes) : field (4 + i * 8) 8 (progressBody positions ++ rest) =
      leBytes 8 positions[i] := by
  have hp : progressBody positions ++ rest =
      ((leBytes 4 positions.length :: (positions.take i).map (leBytes 8)) ++
        leBytes 8 positions[i] :: ((positions.drop (i + 1)).map (leBytes 8) ++ [rest])).flatten := by
    have hs : positions.map (leBytes 8) = (positions.take i).map (leBytes 8) ++
        leBytes 8 positions[i] :: (positions.drop (i + 1)).map (leBytes 8) := by
      rw [← map_cons, ← map_append, ← drop_eq_getElem_cons hi, take_append_drop]
    rw [progressBody, hs]
    simp
  rw [hp]
  apply field_flatten
  · rw [flatten_cons, length_append, leBytes_length, positions_length, length_take_of_le hi.le]
  · exact leBytes_length _ _

theorem loadProgress_saveProgress {positions : List ℕ} (hlt : ∀ p ∈ positions, p < 2 ^ 64)
    (hl : positions.length < 2 ^ 32) :
    loadProgress C (some (saveProgress C positions)) positions.length = positions := by
  by_cases ho : positions.length = 1
  · obtain ⟨p, rfl⟩ := length_eq_one_iff.mp ho
    obtain ⟨hz, hb, hr⟩ := withChecksum_fields C (leBytes 8 p)
    have hp : leVal (leBytes 8 p) = p :=
      leVal_leBytes_of_lt ((hlt p mem_cons_self).trans_eq (by norm_num))
    rw [leBytes_length] at hz hb hr
    simp only [loadProgress, saveProgress, hz, hb, hr, hp]
    simp [legacyProgressSize]
  · have hs : saveProgress C positions = withChecksum C (progressBody positions) := by
      unfold saveProgress
      split
      · exact absurd rfl ho
      · rfl
    obtain ⟨hz, hb, hr⟩ := withChecksum_fields C (progressBody positions)
    rw [progressBody_length] at hz hb hr
    have hc : leVal (field 0 4 (withChecksum C (progressBody positions))) = positions.length := by
      have hf : field 0 4 (withChecksum C (progressBody positions)) =
          leBytes 4 positions.length := by
        rw [field_zero, withChecksum, progressBody, append_assoc, take_left' (leBytes_length _ _)]
      rw [hf]
      exact leVal_leBytes_of_lt (hl.trans_eq (by norm_num))
    simp only [loadProgress, hs, hc, hz, hb, hr]
    rw [if_neg ho, if_neg (by omega), if_neg (by simp), if_neg (by simp)]
    apply ext_getElem
    · rw [length_map, length_range]
    · intro i hi hi'
      rw [getElem_map, getElem_range, withChecksum, field_progressBody hi']
      exact leVal_leBytes_of_lt ((hlt _ (getElem_mem hi')).trans_eq (by norm_num))

end

end LogDb.Tailer
