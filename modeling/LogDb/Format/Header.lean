import LogDb.Format.Record

/-!
The 128-byte segment header. Its checksum covers the first 72 bytes only; the previous hash, the
record format and the key id behind it are not protected.
-/

namespace LogDb.Format

open Lib

def magic : ℕ := 0x4C474442

def formatVersion : UInt16 := 0x0001

def hashAlgoBlake3 : UInt8 := 2

def recordFormatV1 : UInt8 := 1

def segmentHeaderSize : ℕ := 128

def headerCrcEnd : ℕ := 72

def flagNotFirst : UInt8 := 0x01

def flagHashEnabled : UInt8 := 0x02

def flagCompressedZstd : UInt8 := 0x04

def flagEncryptedAes256Gcm : UInt8 := 0x08

structure SegmentHeader where
  formatVersion : UInt16
  flags : UInt8
  hashAlgo : UInt8
  hashInit : Bytes32
  baseSequence : UInt64
  partitionId : UInt32
  segmentId : UInt32
  minTimestampNs : UInt64
  maxTimestampNs : UInt64
  prevLastHash : Bytes32
  recordFormat : UInt8
  /-- The id of the key that encrypted the segment; 0 when none was recorded. -/
  encryptionKeyId : BitVec 128
  deriving DecidableEq

namespace SegmentHeader

section

variable (h : SegmentHeader)
include h

def hashEnabled : Bool :=
  h.flags &&& flagHashEnabled != 0

def isCompressed : Bool :=
  h.flags &&& flagCompressedZstd != 0

def isEncrypted : Bool :=
  h.flags &&& flagEncryptedAes256Gcm != 0

/-- The 72 bytes that the header checksum covers. -/
def checkedBytes : Bytes :=
  [leBytes 4 magic, leBytes 2 h.formatVersion.toNat, [h.flags], [h.hashAlgo], h.hashInit.1,
    leBytes 8 h.baseSequence.toNat, leBytes 4 h.partitionId.toNat, leBytes 4 h.segmentId.toNat,
    leBytes 8 h.minTimestampNs.toNat, leBytes 8 h.maxTimestampNs.toNat].flatten

/-- The bytes behind the checksum, with the last hash of the previous segment passed in. -/
def uncheckedBytes (lastHash : Bytes32) : Bytes :=
  [lastHash.1, [h.recordFormat], leBytes 16 h.encryptionKeyId.toNat, [0, 0, 0]].flatten

end

def serialize (C : Crates) (h : SegmentHeader) (lastHash : Bytes32) : Bytes :=
  h.checkedBytes ++ leBytes 4 (C.crc32c h.checkedBytes).toNat ++ h.uncheckedBytes lastHash

def deserialize (C : Crates) (buf : Bytes) : Except String SegmentHeader :=
  let magicRead := leVal (field 0 4 buf)
  if magicRead ≠ magic then
    .error s!"bad magic: {hex8 magicRead}, expected {hex8 magic}"
  else
    let storedCrc := leVal (field 72 4 buf)
    let computedCrc := C.crc32c (field 0 headerCrcEnd buf)
    if storedCrc ≠ computedCrc.toNat then
      .error (s!"header CRC mismatch: stored={hex8 storedCrc}, " ++
        s!"computed={hex8 computedCrc.toNat}")
    else
      .ok {
        formatVersion := UInt16.ofNat (leVal (field 4 2 buf))
        flags := UInt8.ofNat (leVal (field 6 1 buf))
        hashAlgo := UInt8.ofNat (leVal (field 7 1 buf))
        hashInit := copy32 (field 8 32 buf)
        baseSequence := UInt64.ofNat (leVal (field 40 8 buf))
        partitionId := UInt32.ofNat (leVal (field 48 4 buf))
        segmentId := UInt32.ofNat (leVal (field 52 4 buf))
        minTimestampNs := UInt64.ofNat (leVal (field 56 8 buf))
        maxTimestampNs := UInt64.ofNat (leVal (field 64 8 buf))
        prevLastHash := copy32 (field 76 32 buf)
        recordFormat := UInt8.ofNat (leVal (field 108 1 buf))
        encryptionKeyId := BitVec.ofNat 128 (leVal (field 109 16 buf)) }

/-- The header of the very first segment of a shard. -/
def firstSegment (hashInit : Bytes32) (baseSequence : UInt64) (partitionId segmentId : UInt32)
    (hashEnabled : Bool) (hashAlgo : UInt8) : SegmentHeader where
  formatVersion := Format.formatVersion
  flags := if hashEnabled then flagHashEnabled else 0
  hashAlgo := hashAlgo
  hashInit := hashInit
  baseSequence := baseSequence
  partitionId := partitionId
  segmentId := segmentId
  minTimestampNs := 0xFFFFFFFFFFFFFFFF
  maxTimestampNs := 0
  prevLastHash := zeros32
  recordFormat := recordFormatV1
  encryptionKeyId := 0

@[simp] theorem checkedBytes_length (h : SegmentHeader) : h.checkedBytes.length = 72 := by
  have hit := h.hashInit.2
  simp [checkedBytes, hit]

@[simp] theorem uncheckedBytes_length (h : SegmentHeader) (lastHash : Bytes32) :
    (h.uncheckedBytes lastHash).length = 52 := by
  have hl := lastHash.2
  simp [uncheckedBytes, hl]

section

variable (C : Crates) (h : SegmentHeader) (lastHash : Bytes32)
include h

@[simp] theorem serialize_length : (h.serialize C lastHash).length = segmentHeaderSize := by
  simp [serialize, segmentHeaderSize]

/-- The parts of a serialized header, in file order. -/
private def parts : List Bytes :=
  [leBytes 4 magic, leBytes 2 h.formatVersion.toNat, [h.flags], [h.hashAlgo], h.hashInit.1,
    leBytes 8 h.baseSequence.toNat, leBytes 4 h.partitionId.toNat,
    leBytes 4 h.segmentId.toNat, leBytes 8 h.minTimestampNs.toNat,
    leBytes 8 h.maxTimestampNs.toNat, leBytes 4 (C.crc32c h.checkedBytes).toNat, lastHash.1,
    [h.recordFormat], leBytes 16 h.encryptionKeyId.toNat, [0, 0, 0]]

private theorem serialize_parts : h.serialize C lastHash = (h.parts C lastHash).flatten := by
  simp [serialize, checkedBytes, uncheckedBytes, parts]

private theorem parts_length : (h.parts C lastHash).map List.length =
    [4, 2, 1, 1, 32, 8, 4, 4, 8, 8, 4, 32, 1, 16, 3] := by
  simp [parts, h.hashInit.2, lastHash.2]

end

private theorem leVal_singleton (b : UInt8) : leVal [b] = b.toNat := by
  simp [leVal]

theorem deserialize_serialize (C : Crates) (h : SegmentHeader) (lastHash : Bytes32) :
    deserialize C (h.serialize C lastHash) = .ok { h with prevLastHash := lastHash } := by
  have hc : field 0 headerCrcEnd (h.serialize C lastHash) = h.checkedBytes := by
    rw [field_zero, serialize, List.append_assoc]
    exact List.take_left' h.checkedBytes_length
  have hf := @field_of_parts _ _ _ (serialize_parts C h lastHash) (parts_length C h lastHash)
  set buf := h.serialize C lastHash with hd
  set crc := C.crc32c h.checkedBytes with hr
  have hmc : field 0 4 buf = leBytes 4 magic := hf 0 rfl rfl
  have he : field 4 2 buf = leBytes 2 h.formatVersion.toNat := hf 1 rfl rfl
  have hg : field 6 1 buf = [h.flags] := hf 2 rfl rfl
  have ha : field 7 1 buf = [h.hashAlgo] := hf 3 rfl rfl
  have hh : field 8 32 buf = h.hashInit.1 := hf 4 rfl rfl
  have hb : field 40 8 buf = leBytes 8 h.baseSequence.toNat := hf 5 rfl rfl
  have hp : field 48 4 buf = leBytes 4 h.partitionId.toNat := hf 6 rfl rfl
  have ht : field 52 4 buf = leBytes 4 h.segmentId.toNat := hf 7 rfl rfl
  have hm : field 56 8 buf = leBytes 8 h.minTimestampNs.toNat := hf 8 rfl rfl
  have hx : field 64 8 buf = leBytes 8 h.maxTimestampNs.toNat := hf 9 rfl rfl
  have hs : field 72 4 buf = leBytes 4 crc.toNat := hf 10 rfl rfl
  have hpv : field 76 32 buf = lastHash.1 := hf 11 rfl rfl
  have hft : field 108 1 buf = [h.recordFormat] := hf 12 rfl rfl
  have hk : field 109 16 buf = leBytes 16 h.encryptionKeyId.toNat := hf 13 rfl rfl
  have hvc : leVal (leBytes 4 magic) = magic := leVal_leBytes_of_lt (by decide)
  have hva : leVal (leBytes 4 crc.toNat) = crc.toNat := leVal_leBytes_of_lt crc.toNat_lt
  have hn : leVal (leBytes 2 h.formatVersion.toNat) = h.formatVersion.toNat :=
    leVal_leBytes_of_lt h.formatVersion.toNat_lt
  have hv : leVal (leBytes 4 h.partitionId.toNat) = h.partitionId.toNat :=
    leVal_leBytes_of_lt h.partitionId.toNat_lt
  have hvt : leVal (leBytes 4 h.segmentId.toNat) = h.segmentId.toNat :=
    leVal_leBytes_of_lt h.segmentId.toNat_lt
  have hy : leVal (leBytes 16 h.encryptionKeyId.toNat) = h.encryptionKeyId.toNat :=
    leVal_leBytes_of_lt (lt_of_lt_of_eq h.encryptionKeyId.isLt (by norm_num))
  simp only [deserialize, hmc, hvc, hc, hs, hva, he, hn, hg, ha, hh, hb, hp, hv, ht, hvt, hm, hx,
    hpv, hft, hk, hy, leVal_singleton, ofNat_leVal_leBytes_toNat, copy32_val,
    UInt16.ofNat_toNat, UInt8.ofNat_toNat, UInt32.ofNat_toNat, BitVec.ofNat_toNat]
  rw [if_neg (by simp), if_neg (by simp [hr])]
  simp

end SegmentHeader

end LogDb.Format
