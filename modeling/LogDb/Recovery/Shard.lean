import LogDb.Format.Body
import LogDb.Recovery.Scan
import LogDb.Storage.Manager

/-!
Recovery of one shard directory: validate the headers, find the chain key, scan the last segment
and build the manager that continues it. Paths in error texts are left out.
-/

namespace LogDb.Recovery

open Lib Format Storage List Option

/-- A segment with a valid header. -/
structure ValidSegment where
  id : ℕ
  file : Bytes
  header : SegmentHeader

/-- Headers are validated in order; a bad one discards its segment and all later ones. -/
def validateHeaders (C : Crates) : List (ℕ × Bytes) → List ValidSegment × List RecoveryWarning
  | [] => ([], [])
  | (id, file) :: rest =>
    if file.length < segmentHeaderSize then
      ([], [.corruptedHeader (UInt32.ofNat id) s!"file too small: {file.length} bytes"])
    else
      match SegmentHeader.deserialize C (field 0 segmentHeaderSize file) with
      | .error e => ([], [.corruptedHeader (UInt32.ofNat id) e])
      | .ok header =>
        if header.segmentId.toNat ≠ id then
          ([], [.corruptedHeader (UInt32.ofNat id)
            s!"segment_id mismatch: header says {header.segmentId}, filename says {id}"])
        else
          let r := validateHeaders C rest
          (⟨id, file, header⟩ :: r.1, r.2)

/-- The content and hash of the first record of the first frame. -/
def decodeFirstRecord (C : Crates) (file : Bytes) (compressed encrypted : Bool) (ring : KeyRing) :
    Option (Bytes × Bytes32) := do
  let fh ← slice segmentHeaderSize frameHeaderSize file
  let cl := (readFrameHeader fh).1
  if cl = 0 then none else
  let payload ← slice (segmentHeaderSize + frameHeaderSize) cl file
  match decodeFramePayload C payload compressed encrypted (some ring) with
  | .error _ => none
  | .ok plain =>
    if plain.length < minRecordSize then none else
    let len := leVal (field 0 4 plain)
    if plain.length < len then none else
    match deserializeRecord C (field 0 len plain) with
    | .error _ => none
    | .ok (record, _) => some (record.content, record.hashN)

/-- The keys that may have masked the chain key, the one that the header names first. -/
def candidateKeys (header : SegmentHeader) (ring : KeyRing) : List Bytes32 :=
  (if header.encryptionKeyId ≠ 0 then (ring.keyForId header.encryptionKeyId).toList else []) ++
    ring.decryptKeys.map Prod.snd

/-- The chain key: the header has it in plain text, or masked by the key whose candidate
authenticates the first record. -/
def resolveChainKey (C : Crates) (firstFile : Bytes) (firstHeader : SegmentHeader)
    (encryptionKey : Option KeyRing) : Bytes32 :=
  match encryptionKey with
  | none => firstHeader.hashInit
  | some ring =>
    match decodeFirstRecord C firstFile firstHeader.isCompressed firstHeader.isEncrypted ring with
    | none => deriveHashInit C ring.active
    | some (content, hashN) =>
      match (candidateKeys firstHeader ring).find? fun k =>
          blake3KeyedChain C (xor32 firstHeader.hashInit (deriveHashInit C k))
            firstHeader.prevLastHash content == hashN with
      | some k => xor32 firstHeader.hashInit (deriveHashInit C k)
      | none => deriveHashInit C ring.active

def maskChainKey (C : Crates) (chainKey : Bytes32) (encryptionKey : Option KeyRing) : Bytes32 :=
  match encryptionKey with
  | some ring => xor32 chainKey (deriveHashInit C ring.active)
  | none => chainKey

/-- The check of the header hashes. The expectation is reset for every segment. -/
def continuityWarnings (expectedPrevHash : Bytes32) : List ValidSegment → List RecoveryWarning
  | [] => []
  | s :: rest =>
    (if s.header.prevLastHash ≠ expectedPrevHash ∧ expectedPrevHash ≠ zeros32 then
      [.hashChainBreak (UInt32.ofNat s.id) expectedPrevHash s.header.prevLastHash] else []) ++
      continuityWarnings zeros32 rest

structure RecoveryState where
  segmentManager : SegmentManager
  lastSequence : UInt64
  lastHash : Bytes32
  activeSegmentId : ℕ
  activeOffset : ℕ
  hashEnabled : Bool
  hashInit : Bytes32
  warnings : List RecoveryWarning
  recoveredCount : ℕ

/-- The arguments that the last segment is scanned with. -/
def lastScanArgs (C : Crates) (shardBits : UInt32) (encryptionKey : Option KeyRing)
    (first last : ValidSegment) : ScanArgs where
  segmentId := UInt32.ofNat last.id
  header := last.header
  hashEnabled := first.header.hashEnabled
  chainKey := resolveChainKey C first.file first.header encryptionKey
  encryptionKey := encryptionKey
  shardBits := shardBits

/-- Recover a shard; the scan may shorten the last segment file. -/
def recoverShard (C : Crates) (d : Disk) (shardBits : UInt32) (segmentSize : ℕ)
    (retention : RetentionPolicy) (encryptionKey : Option KeyRing) :
    Except String (RecoveryState × Disk) :=
  if d.segments = [] then
    .error "no segment files found"
  else
    let valid := validateHeaders C d.segments
    match valid.1.head?, valid.1.getLast? with
    | some first, some last =>
      let a := lastScanArgs C shardBits encryptionKey first last
      match scanLastSegment C a last.file with
      | .error e => .error e
      | .ok r =>
        let m := SegmentManager.openExisting last.id r.validOffset last.header segmentSize
          r.lastHash (maskChainKey C a.chainKey encryptionKey) a.hashEnabled encryptionKey retention
        .ok ({ segmentManager := m
               lastSequence := r.lastSequence
               lastHash := r.lastHash
               activeSegmentId := last.id
               activeOffset := r.validOffset
               hashEnabled := a.hashEnabled
               hashInit := a.chainKey
               warnings := valid.2 ++ r.warnings ++
                 (if a.hashEnabled then continuityWarnings zeros32 valid.1 else [])
               recoveredCount := r.count },
             d.modify last.id fun _ => r.file)
    | _, _ => .error "no valid segments found after header validation"

/-- The header hashes are never found wrong. -/
theorem continuityWarnings_eq_nil (segs : List ValidSegment) :
    continuityWarnings zeros32 segs = [] := by
  induction segs with
  | nil => rfl
  | cons s rest ih =>
    unfold continuityWarnings
    rw [ih, if_neg fun h => h.2 rfl]
    rfl

section

variable {C : Crates} {ring : KeyRing} {header : SegmentHeader} {vs : List ReadView}

theorem decodeFirstRecord_frame {compressed encrypted : Bool} {hd rest : Bytes} {f : StoredFrame}
    {v : ReadView} (hh : hd.length = segmentHeaderSize)
    (hv : f.Valid C compressed encrypted (some ring)) (hvs : f.views = v :: vs) :
    decodeFirstRecord C (hd ++ (f.bytes C ++ rest)) compressed encrypted ring =
      some (v.content, v.hashN) := by
  have hf := hv.fits v (hvs ▸ mem_cons_self)
  have hb : (f.bytes C).length = frameHeaderSize + f.payload.length :=
    frameBytes_length f.payload (f.raw C).length
  have hhd : slice segmentHeaderSize frameHeaderSize (hd ++ (f.bytes C ++ rest)) =
      some ((f.bytes C).take frameHeaderSize) := by
    have hs := slice_append_right hd (f.bytes C ++ rest) 0 frameHeaderSize
    rw [add_zero, hh, slice_append_left rest (by omega)] at hs
    rw [hs]
    exact slice_eq_some_iff.mpr ⟨by omega, field_zero _ _⟩
  have hrd : readFrameHeader ((f.bytes C).take frameHeaderSize) =
      (f.payload.length, (f.raw C).length) := by
    rw [readFrameHeader_take _ le_rfl, hv.readFrameHeader]
  have hp : slice (segmentHeaderSize + frameHeaderSize) f.payload.length
      (hd ++ (f.bytes C ++ rest)) = some f.payload := by
    have hs := slice_append_right hd (f.bytes C ++ rest) frameHeaderSize f.payload.length
    rw [hh, slice_append_left rest (by omega)] at hs
    rw [hs]
    refine slice_eq_some_iff.mpr ⟨by omega, ?_⟩
    rw [field, f.bytes_drop, take_length]
  have hr : f.raw C = [] ++ (storedRecord C v ++ batchBytes C vs) := by
    rw [StoredFrame.raw, hvs, batchBytes_cons, nil_append]
  have hl : leVal (field 0 4 (f.raw C)) = recordSize v.content.length := by
    rw [hr]
    exact leVal_field_storedRecord C hf [] _
  have he : field 0 (recordSize v.content.length) (f.raw C) = storedRecord C v := by
    rw [hr]
    exact field_storedRecord C v [] _
  have hsz : (f.raw C).length = recordSize v.content.length + (batchBytes C vs).length := by
    rw [hr, nil_append, length_append, storedRecord_length]
  have hm : minRecordSize ≤ recordSize v.content.length := by
    rw [recordSize_eq]
    exact Nat.le_add_left _ _
  have hne : f.payload.length ≠ 0 := fun hz => hv.payload_ne (length_eq_zero_iff.mp hz)
  unfold decodeFirstRecord
  simp only [hhd, hrd, hp, hv.decodes, hl, he,
    deserializeRecord_storedRecord C hf, bind_eq_bind, bind_some]
  rw [if_neg hne, if_neg (by omega), if_neg (by omega)]
  rfl

theorem decodeFirstRecord_stored {hd body : Bytes} {v : ReadView}
    (hh : hd.length = segmentHeaderSize) (hfr : (header.isCompressed || header.isEncrypted) = true)
    (hb : StoredBody C header (some ring) (v :: vs) body) :
    decodeFirstRecord C (hd ++ body) header.isCompressed header.isEncrypted ring =
      some (v.content, v.hashN) := by
  generalize hs : v :: vs = views at hb
  cases hb with
  | raw _ hr =>
    rw [hr] at hfr
    cases hfr
  | framed frames _ hv =>
    cases frames with
    | nil => cases hs
    | cons f fs =>
      have hf := hv f mem_cons_self
      obtain ⟨w, ws, hw⟩ := exists_cons_of_ne_nil hf.views_ne
      rw [flatMap_cons, hw, cons_append] at hs
      cases hs
      rw [map_cons, flatten_cons]
      exact decodeFirstRecord_frame hh hf hw

/-- The active key is the first candidate for a header that it wrote. -/
theorem candidateKeys_active (hid : header.encryptionKeyId = ring.activeId) :
    ∃ rest, candidateKeys header ring = ring.active :: rest := by
  unfold candidateKeys
  split_ifs with hz
  · have hk : ring.keyForId header.encryptionKeyId = some ring.active := by
      unfold KeyRing.keyForId KeyRing.decryptKeys
      rw [find?_cons_of_pos (by simp [hid])]
      rfl
    rw [hk]
    exact ⟨_, rfl⟩
  · exact ⟨_, rfl⟩

end

end LogDb.Recovery
