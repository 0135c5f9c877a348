import LogDb.Lib.BinarySearch
import LogDb.Format.Record

/-!
The sparse index of a raw segment: every so many records the id, the file offset and the time
stamp of one record, stored beside the segment.
-/

namespace LogDb.Storage

open Lib Format List

structure IndexEntry where
  sequence : UInt64
  fileOffset : ℕ
  timestampNs : UInt64
  deriving DecidableEq

open IndexEntry

def IndexEntry.serializedSize : ℕ := 24

def IndexEntry.serialize (e : IndexEntry) : Bytes :=
  leBytes 8 e.sequence.toNat ++ leBytes 8 e.fileOffset ++ leBytes 8 e.timestampNs.toNat

def IndexEntry.deserialize (buf : Bytes) : IndexEntry where
  sequence := UInt64.ofNat (leVal (field 0 8 buf))
  fileOffset := leVal (field 8 8 buf)
  timestampNs := UInt64.ofNat (leVal (field 16 8 buf))

structure SparseIndex where
  entries : List IndexEntry
  stride : UInt32
  deriving DecidableEq

namespace SparseIndex

def defaultStride : UInt32 := 1024

def new (stride : UInt32) : SparseIndex :=
  ⟨[], stride⟩

section

variable (idx : SparseIndex)

def add (sequence : UInt64) (fileOffset : ℕ) (timestampNs : UInt64) :
    SparseIndex :=
  { idx with entries := idx.entries ++ [⟨sequence, fileOffset, timestampNs⟩] }

def shouldIndex (recordCount : ℕ) : Bool :=
  recordCount % idx.stride.toNat == 0

/-- The last entry at or before `recordId`, with its position. -/
def findAnchor (recordId : UInt64) : Option (IndexEntry × ℕ) :=
  match binarySearchBy (fun e => compare e.sequence.toNat recordId.toNat) idx.entries with
  | .ok pos => (idx.entries[pos]?).map (·, pos)
  | .error pos => if 0 < pos then (idx.entries[pos - 1]?).map (·, pos - 1) else none

def save : Bytes :=
  leBytes 4 idx.stride.toNat ++ (idx.entries.map serialize).flatten

end

def load (data : Bytes) : Except String SparseIndex :=
  if data.length < 4 then
    .error "index file too short"
  else
    let numEntries := (data.length - 4) / serializedSize
    .ok {
      entries := (List.range numEntries).map fun i =>
        deserialize
          (field (4 + i * serializedSize) serializedSize data)
      stride := UInt32.ofNat (leVal (field 0 4 data)) }

end SparseIndex

theorem IndexEntry.serialize_length (e : IndexEntry) : e.serialize.length = serializedSize := by
  simp [serialize, serializedSize]

theorem IndexEntry.deserialize_serialize (e : IndexEntry) (h : e.fileOffset < 2 ^ 64) :
    deserialize e.serialize = e := by
  have hp : e.serialize = [leBytes 8 e.sequence.toNat, leBytes 8 e.fileOffset,
        leBytes 8 e.timestampNs.toNat].flatten := by
    simp [serialize]
  have hq : field 0 8 e.serialize = leBytes 8 e.sequence.toNat := by
    rw [hp]
    exact field_flatten [] _ _ rfl (by simp)
  have ho : field 8 8 e.serialize = leBytes 8 e.fileOffset := by
    rw [hp]
    exact field_flatten [_] _ _ (by simp) (by simp)
  have ht : field 16 8 e.serialize = leBytes 8 e.timestampNs.toNat := by
    rw [hp]
    exact field_flatten [_, _] _ _ (by simp) (by simp)
  unfold deserialize
  rw [hq, ho, ht, leVal_leBytes_of_lt (h.trans_le (by norm_num))]
  simp only [ofNat_leVal_leBytes_toNat]

namespace SparseIndex

private theorem serialized_length (es : List IndexEntry) :
    (es.map serialize).flatten.length = es.length * serializedSize := by
  induction es with
  | nil => simp
  | cons e es ih =>
    rw [map_cons, flatten_cons, length_append, e.serialize_length, ih,
      length_cons, add_mul, one_mul, add_comm]

section

variable (idx : SparseIndex)

theorem save_length : idx.save.length = 4 + idx.entries.length * serializedSize := by
  rw [save, length_append, leBytes_length, serialized_length]

section

variable (h : ∀ e ∈ idx.entries, e.fileOffset < 2 ^ 64)
include h

/-- What is left of a saved index that was cut short: the entries that are still whole. -/
theorem load_take_save {n : ℕ} (hn : 4 ≤ n) : load (idx.save.take n) =
      .ok { idx with entries := idx.entries.take ((n - 4) / serializedSize) } := by
  have hl := idx.save_length
  have ht : field 0 4 (idx.save.take n) = leBytes 4 idx.stride.toNat := by
    rw [field_take _ hn, save, field_zero]
    exact take_left' (leBytes_length _ _)
  have hv : leVal (leBytes 4 idx.stride.toNat) = idx.stride.toNat :=
    leVal_leBytes_of_lt idx.stride.toNat_lt
  unfold load
  rw [if_neg (by rw [length_take]; omega)]
  simp only [ht, hv, UInt32.ofNat_toNat]
  congr 2
  apply ext_getElem
  · simp only [length_map, length_range, length_take, hl, serializedSize]
    omega
  · intro i hi hi'
    simp only [length_map, length_range, length_take] at hi hi'
    have hf : 4 + i * serializedSize + serializedSize ≤ n := by
      simp only [serializedSize] at hi hi' ⊢
      omega
    have hlt : i < idx.entries.length := by omega
    have hs : idx.save = ((leBytes 4 idx.stride.toNat ::
        (idx.entries.take i).map serialize) ++ idx.entries[i].serialize ::
        (idx.entries.drop (i + 1)).map serialize).flatten := by
      rw [cons_append, ← map_cons, ← map_append, ← drop_eq_getElem_cons hlt, take_append_drop]
      rfl
    rw [getElem_map, getElem_range, getElem_take, field_take _ hf, hs,
      field_flatten _ _ _ _ (serialize_length _)]
    · exact deserialize_serialize _ (h _ (getElem_mem _))
    · rw [flatten_cons, length_append, leBytes_length, serialized_length, length_take_of_le hlt.le]

theorem load_save : load idx.save = .ok idx := by
  have hl := idx.save_length
  have hd := idx.load_take_save h (n := idx.save.length) (by omega)
  have ha : (idx.save.length - 4) / serializedSize = idx.entries.length := by
    rw [hl, Nat.add_sub_cancel_left, Nat.mul_div_cancel _ (by decide)]
  rwa [ha, take_length, take_length] at hd

/-- However much of an index file was written, it loads as a front of the index. -/
theorem load_torn (n : ℕ) :
    load (idx.save.take n) = if n < 4 then .error "index file too short" else
      .ok { idx with entries := idx.entries.take ((n - 4) / serializedSize) } := by
  split_ifs with hn
  · rw [load, if_pos]
    simp [hn]
  · exact idx.load_take_save h (not_lt.mp hn)

omit idx h in
theorem load_torn_pair : load ((⟨[⟨0, 128, 7⟩, ⟨1, 200, 7⟩], 1⟩ : SparseIndex).save.take 30) =
    .ok ⟨[⟨0, 128, 7⟩], 1⟩ :=
  load_torn _ (by decide) 30

end

end

/-- On entries in ascending order the anchor is the last one not beyond the id. -/
theorem findAnchor_append (stride : UInt32) {xs ys : List IndexEntry} {recordId : UInt64}
    (hx : ∀ e ∈ xs, e.sequence ≤ recordId) (hy : ∀ e ∈ ys, recordId < e.sequence) :
    ((SparseIndex.mk (xs ++ ys) stride).findAnchor recordId).map Prod.fst = xs.getLast? := by
  have hs : SplitAt (fun e : IndexEntry => compare e.sequence.toNat recordId.toNat)
      (xs ++ ys) xs.length := by
    apply splitAt_append
    · intro e he
      exact Nat.compare_ne_gt.mpr (UInt64.le_iff_toNat_le.mp (hx e he))
    · intro e he
      exact Nat.compare_eq_gt.mpr (UInt64.lt_iff_toNat_lt.mp (hy e he))
  unfold findAnchor
  simp only [binarySearchBy_of_split hs]
  by_cases hz : xs.length = 0
  · obtain rfl := length_eq_zero_iff.mp hz
    simp
  · have hp : xs.length - 1 < xs.length := by omega
    have hl : (xs ++ ys)[xs.length - 1]? = xs.getLast? := by
      rw [getElem?_append_left hp, getLast?_eq_getElem?]
    rw [if_neg hz]
    split_ifs with heq
    · simp only [hl]
      cases xs.getLast? <;> rfl
    · simp only [hl, pos_of_ne_zero hz, if_true]
      cases xs.getLast? <;> rfl

end SparseIndex

end LogDb.Storage
