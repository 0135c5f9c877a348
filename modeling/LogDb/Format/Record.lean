import LogDb.Lib.Framing
import LogDb.Format.Crates

/-!
The record layout: serialization, validating deserialization and the framing given by the
length field at the front of every record.
-/

namespace LogDb.Format

open Lib Option

/-- Logical position of a record; the partition is always 0 in this version. -/
structure RecordId where
  partitionId : UInt32
  sequence : UInt64
  deriving DecidableEq, Repr

structure Record where
  id : RecordId
  timestampNs : UInt64
  content : Bytes
  hashN : Bytes32
  deriving DecidableEq

/-- The committer's view of a ring slot. -/
structure ReadView where
  recordId : UInt64
  timestampNs : UInt64
  content : Bytes
  hashN : Bytes32
  deriving DecidableEq

def ReadView.toRecord (view : ReadView) : Record where
  id := ⟨0, view.recordId⟩
  timestampNs := view.timestampNs
  content := view.content
  hashN := view.hashN

def minRecordSize : ℕ := 60

def recordSize (contentLen : ℕ) : ℕ :=
  4 + 8 + 8 + 4 + contentLen + 32 + 4

/-- The part of a record between its length field and its checksum. -/
def recordBody (sequence : UInt64) (view : ReadView) : Bytes :=
  leBytes 8 sequence.toNat ++ leBytes 8 view.timestampNs.toNat ++
    leBytes 4 view.content.length ++ view.content ++ view.hashN.1

/-- The bytes that `serialize_record` writes; lengths are stored as `u32`. -/
def serializeRecord (C : Crates) (sequence : UInt64) (view : ReadView) : Bytes :=
  let body := recordBody sequence view
  let crc := C.crc32c (leBytes 4 0 ++ body)
  leBytes 4 (recordSize view.content.length) ++ body ++ leBytes 4 crc.toNat

/-- Eight upper-case hexadecimal digits, as `0x{:08X}` prints them. -/
def hex8 (n : ℕ) : String :=
  let digits := (Nat.toDigits 16 n).map Char.toUpper
  "0x" ++ String.ofList (List.replicate (8 - digits.length) '0' ++ digits)

/-- Validate and decode the record at the front of a buffer. -/
def deserializeRecord (C : Crates) (buf : Bytes) : Except String (Record × ℕ) :=
  if buf.length < minRecordSize then
    .error s!"buffer too short: {buf.length} bytes"
  else
    let total := leVal (field 0 4 buf)
    if total < minRecordSize then
      .error s!"record len too small: {total}"
    else if buf.length < total then
      .error s!"record len {total} exceeds buffer size {buf.length}"
    else
      let sequence := UInt64.ofNat (leVal (field 4 8 buf))
      let timestampNs := UInt64.ofNat (leVal (field 12 8 buf))
      let contentLen := leVal (field 20 4 buf)
      let expectedTotal := recordSize contentLen
      if total ≠ expectedTotal then
        .error (s!"record size mismatch: len field says {total}, " ++
          s!"content_len implies {expectedTotal}")
      else
        let content := field 24 contentLen buf
        let hashN := copy32 (field (24 + contentLen) 32 buf)
        let crcStart := 24 + contentLen + 32
        let storedCrc := leVal (field crcStart 4 buf)
        let computedCrc := C.crc32c (leBytes 4 0 ++ field 4 (crcStart - 4) buf)
        if storedCrc ≠ computedCrc.toNat then
          .error (s!"CRC mismatch at sequence {sequence}: stored={hex8 storedCrc}, " ++
            s!"computed={hex8 computedCrc.toNat}")
        else
          .ok (⟨⟨0, sequence⟩, timestampNs, content, hashN⟩, total)

@[simp] theorem recordBody_length (sequence : UInt64) (view : ReadView) :
    (recordBody sequence view).length = view.content.length + 52 := by
  simp only [recordBody, List.length_append, leBytes_length, view.hashN.2]
  omega

@[simp] theorem serializeRecord_length (C : Crates) (sequence : UInt64) (view : ReadView) :
    (serializeRecord C sequence view).length = recordSize view.content.length := by
  simp only [serializeRecord, List.length_append, leBytes_length, recordBody_length, recordSize]
  omega

theorem recordSize_eq (n : ℕ) : recordSize n = n + 60 := by
  unfold recordSize
  omega

private theorem serializeRecord_parts (C : Crates) (sequence : UInt64) (view : ReadView)
    (rest : Bytes) :
    serializeRecord C sequence view ++ rest =
      [leBytes 4 (recordSize view.content.length), leBytes 8 sequence.toNat,
        leBytes 8 view.timestampNs.toNat, leBytes 4 view.content.length, view.content,
        view.hashN.1, leBytes 4 (C.crc32c (leBytes 4 0 ++ recordBody sequence view)).toNat,
        rest].flatten := by
  simp [serializeRecord, recordBody]

theorem ofNat_leVal_leBytes_toNat (n : UInt64) : UInt64.ofNat (leVal (leBytes 8 n.toNat)) = n := by
  rw [leVal_leBytes_of_lt n.toNat_lt, UInt64.ofNat_toNat]

theorem deserializeRecord_serializeRecord (C : Crates) (sequence : UInt64) (view : ReadView)
    (rest : Bytes) (hl : recordSize view.content.length < 2 ^ 32) :
    deserializeRecord C (serializeRecord C sequence view ++ rest) =
      .ok (⟨⟨0, sequence⟩, view.timestampNs, view.content, view.hashN⟩,
        recordSize view.content.length) := by
  have hz := recordSize_eq view.content.length
  have ha := view.hashN.2
  have hb : (serializeRecord C sequence view ++ rest).length =
      recordSize view.content.length + rest.length := by simp
  have hp := serializeRecord_parts C sequence view rest
  set buf := serializeRecord C sequence view ++ rest with hd
  set crc := C.crc32c (leBytes 4 0 ++ recordBody sequence view) with hc
  have ht : field 0 4 buf = leBytes 4 (recordSize view.content.length) := by
    rw [hp]
    exact field_flatten [] _ _ rfl (by simp)
  have hq : field 4 8 buf = leBytes 8 sequence.toNat := by
    rw [hp]
    exact field_flatten [_] _ _ (by simp) (by simp)
  have hts : field 12 8 buf = leBytes 8 view.timestampNs.toNat := by
    rw [hp]
    exact field_flatten [_, _] _ _ (by simp) (by simp)
  have hcl : field 20 4 buf = leBytes 4 view.content.length := by
    rw [hp]
    exact field_flatten [_, _, _] _ _ (by simp) (by simp)
  have hct : field 24 view.content.length buf = view.content := by
    rw [hp]
    exact field_flatten [_, _, _, _] _ _ (by simp) rfl
  have hh : field (24 + view.content.length) 32 buf = view.hashN.1 := by
    rw [hp]
    exact field_flatten [_, _, _, _, _] _ _ (by simp; omega) ha
  have ho : field (24 + view.content.length + 32) 4 buf = leBytes 4 crc.toNat := by
    rw [hp]
    exact field_flatten [_, _, _, _, _, _] _ _ (by simp; omega) (by simp)
  have hbo : field 4 (24 + view.content.length + 32 - 4) buf = recordBody sequence view := by
    have hs : buf = [leBytes 4 (recordSize view.content.length), recordBody sequence view,
        leBytes 4 crc.toNat ++ rest].flatten := by simp [hd, hc, serializeRecord]
    rw [hs]
    exact field_flatten [_] _ _ (by simp) (by simp; omega)
  have hv := leVal_leBytes_of_lt (w := 4) hl
  have hn : leVal (leBytes 4 view.content.length) = view.content.length :=
    leVal_leBytes_of_lt (by omega)
  have hvc : leVal (leBytes 4 crc.toNat) = crc.toNat := leVal_leBytes_of_lt crc.toNat_lt
  simp only [deserializeRecord, ht, hv, hq, hts, hcl, hn, hct, hh,
    ho, hvc, hbo, ofNat_leVal_leBytes_toNat, copy32_val, minRecordSize]
  rw [if_neg (by omega), if_neg (by omega), if_neg (by omega), if_neg (by simp),
    if_neg (by simp [hc])]

theorem serializeRecord_of_deserialize {C : Crates} {buf : Bytes} {r : Record} {n : ℕ}
    (h : deserializeRecord C buf = .ok (r, n)) : n ≤ buf.length ∧
      serializeRecord C r.id.sequence ⟨r.id.sequence, r.timestampNs, r.content, r.hashN⟩ =
        buf.take n := by
  unfold deserializeRecord at h
  dsimp only at h
  split_ifs at h with hst hm hl hs hr
  cases h
  set c := leVal (field 20 4 buf)
  have ht := not_not.mp hs
  have hle : recordSize c ≤ buf.length := by omega
  have hc := recordSize_eq c
  have hct : (field 24 c buf).length = c := field_length (by omega)
  have hh : (copy32 (field (24 + c) 32 buf)).1 = field (24 + c) 32 buf := by
    have hf := setLen_self (field (24 + c) 32 buf)
    rwa [field_length (by omega)] at hf
  have hw {off : ℕ} (h : off + 8 ≤ buf.length) :
      leBytes 8 (UInt64.ofNat (leVal (field off 8 buf))).toNat = field off 8 buf := by
    have hlt := leVal_lt (field off 8 buf)
    rw [field_length h] at hlt
    rw [UInt64.toNat_ofNat_of_lt' hlt, leBytes_leVal_field h]
  have hb : recordBody (UInt64.ofNat (leVal (field 4 8 buf)))
      ⟨UInt64.ofNat (leVal (field 4 8 buf)), UInt64.ofNat (leVal (field 12 8 buf)),
        field 24 c buf, copy32 (field (24 + c) 32 buf)⟩ = field 4 (8 + 8 + 4 + c + 32) buf := by
    simp only [recordBody, hct, hh, field_add]
    rw [hw (by omega), hw (by omega), leBytes_leVal_field (by omega),
      show 4 + (8 + 8 + 4 + c) = 24 + c by omega]
  refine ⟨not_lt.mp hl, ?_⟩
  unfold serializeRecord
  simp only [hb, hct]
  rw [show 24 + c + 32 - 4 = 8 + 8 + 4 + c + 32 by omega] at hr
  rw [← not_not.mp hr, ← ht, leBytes_leVal_field (by omega), leBytes_leVal_field (by omega),
    ← field_zero, ht, show recordSize c = 4 + (8 + 8 + 4 + c + 32) + 4 by omega,
    field_add 0 (4 + _) 4, field_add 0 4, show 0 + (4 + (8 + 8 + 4 + c + 32)) = 24 + c + 32 by omega]

/-- Records and their encodings correspond: a record is read back whatever follows it, and a buffer
is only accepted if it begins with the encoding of the record that it decodes to. -/
theorem record_codec (C : Crates) :
    (∀ (sequence ts : UInt64) (hashN : Bytes32) (content rest : Bytes),
      content.length < 2 ^ 32 - 60 →
      deserializeRecord C
          (serializeRecord C sequence ⟨sequence, ts, content, hashN⟩ ++ rest) =
        .ok (⟨⟨0, sequence⟩, ts, content, hashN⟩, recordSize content.length)) ∧
    (∀ buf r n, deserializeRecord C buf = .ok (r, n) → n ≤ buf.length ∧
      serializeRecord C r.id.sequence ⟨r.id.sequence, r.timestampNs, r.content, r.hashN⟩ =
        buf.take n) ∧
    ∀ buf buf' r n n', deserializeRecord C buf = .ok (r, n) →
      deserializeRecord C buf' = .ok (r, n') → buf.take n = buf'.take n' := by
  refine ⟨fun sequence ts hashN content rest hl => ?_,
    fun buf r n h => serializeRecord_of_deserialize h, fun buf buf' r n n' h h' => ?_⟩
  · apply deserializeRecord_serializeRecord
    rw [recordSize_eq]
    exact Nat.add_lt_of_lt_sub hl
  · rw [← (serializeRecord_of_deserialize h).2, ← (serializeRecord_of_deserialize h').2]

/-- Records delimit themselves by their length field. -/
def recordFraming : Framing where
  next bs :=
    let total := leVal (field 0 4 bs)
    if minRecordSize ≤ total ∧ total ≤ bs.length then some total else none
  next_pos := by
    intro bs n h
    simp only [ite_none_right_eq_some, some.injEq] at h
    obtain ⟨⟨hmin, -⟩, rfl⟩ := h
    exact lt_of_lt_of_le (by decide) hmin
  next_le := by
    intro bs n h
    simp only [ite_none_right_eq_some, some.injEq] at h
    exact h.2 ▸ h.1.2
  next_local := by
    intro bs n h rest
    simp only [ite_none_right_eq_some, some.injEq] at h ⊢
    obtain ⟨⟨hmin, hle⟩, rfl⟩ := h
    rw [field_take_append rest hle (le_trans (by decide) hmin)]
    refine ⟨⟨hmin, ?_⟩, rfl⟩
    rw [List.length_append, List.length_take_of_le hle]
    exact Nat.le_add_right _ _

theorem recordFraming_next_eq_some {bs : Bytes} {n : ℕ} : recordFraming.next bs = some n ↔
      leVal (field 0 4 bs) = n ∧ minRecordSize ≤ n ∧ n ≤ bs.length := by
  simp only [recordFraming, ite_none_right_eq_some, some.injEq]
  constructor
  · rintro ⟨⟨hm, hle⟩, rfl⟩
    exact ⟨rfl, hm, hle⟩
  · rintro ⟨rfl, hm, hle⟩
    exact ⟨⟨hm, hle⟩, rfl⟩

theorem recordFraming_next_eq_none {bs : Bytes} : recordFraming.next bs = none ↔
      (leVal (field 0 4 bs) < minRecordSize ∨ bs.length < leVal (field 0 4 bs)) := by
  simp only [recordFraming, ite_eq_right_iff, reduceCtorEq, imp_false]
  omega

theorem isChunk_serializeRecord (C : Crates) (sequence : UInt64) (view : ReadView)
    (hl : recordSize view.content.length < 2 ^ 32) :
    recordFraming.IsChunk (serializeRecord C sequence view) := by
  have hs := recordSize_eq view.content.length
  have hp := serializeRecord_parts C sequence view []
  rw [List.append_nil] at hp
  have ht : field 0 4 (serializeRecord C sequence view) =
      leBytes 4 (recordSize view.content.length) := by
    rw [hp]
    exact field_flatten [] _ _ rfl (by simp)
  rw [Framing.IsChunk, recordFraming_next_eq_some, ht, leVal_leBytes_of_lt hl,
    serializeRecord_length]
  refine ⟨rfl, ?_, le_rfl⟩
  rw [hs]
  exact Nat.le_add_left _ _

end LogDb.Format
