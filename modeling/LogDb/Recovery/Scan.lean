import LogDb.Lib.Loop
import LogDb.Format.Frame
import LogDb.Format.ShardId

/-!
The recovery scan of the last segment. Raw segments are scanned record by record, compressed and
encrypted ones frame by frame; the file is cut back at the first place that cannot be trusted.
-/

namespace LogDb.Recovery

open Lib Format

inductive RecoveryWarning where
  | tornWrite (segmentId : UInt32) (atRecordId : UInt64) (atOffset : ℕ)
  | corruptedHeader (segmentId : UInt32) (reason : String)
  | missingSegment (expectedId : UInt32)
  | hashChainBreak (segmentId : UInt32) (expectedHash foundHash : Bytes32)
  deriving DecidableEq

/-- The arguments of the scan other than the file. -/
structure ScanArgs where
  segmentId : UInt32
  header : SegmentHeader
  hashEnabled : Bool
  chainKey : Bytes32
  encryptionKey : Option KeyRing
  shardBits : UInt32

/-- The local variables of the scan, and the file it may shorten. -/
structure ScanState where
  file : Bytes
  offset : ℕ
  lastValidOffset : ℕ
  lastSequence : UInt64
  lastHash : Bytes32
  warnings : List RecoveryWarning
  expectedRecordId : UInt64
  count : ℕ
  chainPrev : Bytes32
  deriving DecidableEq

namespace ScanArgs

def stride (a : ScanArgs) : UInt64 :=
  idStride a.shardBits

def initial (a : ScanArgs) (file : Bytes) : ScanState where
  file := file
  offset := segmentHeaderSize
  lastValidOffset := segmentHeaderSize
  lastSequence := a.header.baseSequence - 1
  lastHash := zeros32
  warnings := []
  expectedRecordId := a.header.baseSequence
  count := 0
  chainPrev := a.header.prevLastHash

end ScanArgs

/-- The `torn!` macro without its `break`: cut the file back and warn. -/
def ScanState.torn (a : ScanArgs) (st : ScanState) (atOffset : ℕ) : ScanState :=
  { st with
    file := setLen st.lastValidOffset st.file
    warnings := st.warnings ++ [.tornWrite a.segmentId st.expectedRecordId atOffset] }

/-- What the scan does with a record that was read intact. -/
inductive RecordCheck where
  | unexpectedId
  | chainBreak (st : ScanState)
  | accepted (st : ScanState)

/-- The id and chain checks, which both layouts share. The counters move before the hash check. -/
def checkRecord (C : Crates) (a : ScanArgs) (st : ScanState) (record : Record) : RecordCheck :=
  if record.id.sequence ≠ st.expectedRecordId ∧ ¬ (st.count = 0 ∧ 0 < a.shardBits) then
    .unexpectedId
  else
    let counted := { st with
      lastSequence := record.id.sequence
      lastHash := record.hashN
      count := st.count + 1 }
    let next := record.id.sequence + a.stride
    if a.hashEnabled then
      let expected := blake3KeyedChain C a.chainKey st.chainPrev record.content
      if expected ≠ record.hashN then
        .chainBreak { counted with
          warnings := st.warnings ++ [.hashChainBreak a.segmentId expected record.hashN] }
      else
        .accepted { counted with chainPrev := record.hashN, expectedRecordId := next }
    else
      .accepted { counted with expectedRecordId := next }

section Raw

variable (C : Crates) (a : ScanArgs) (fileSize : ℕ)

def rawStep (st : ScanState) : ScanState ⊕ Except String ScanState :=
  if ¬ st.offset < fileSize then
    .inr (.ok st)
  else if fileSize < st.offset + 4 then
    .inr (.ok (st.torn a st.offset))
  else
    match slice st.offset 4 st.file with
    | none => .inr (.error s!"read len at {st.offset}")
    | some lenBuf =>
      let total := leVal lenBuf
      if total < minRecordSize then
        .inr (.ok (st.torn a st.offset))
      else if fileSize < st.offset + total then
        .inr (.ok (st.torn a st.offset))
      else
        match slice st.offset total st.file with
        | none => .inr (.error s!"read record at {st.offset}")
        | some recordBuf =>
          match deserializeRecord C recordBuf with
          | .ok (record, _) =>
            match checkRecord C a st record with
            | .unexpectedId => .inr (.ok (st.torn a st.offset))
            | .chainBreak st' => .inr (.ok (st'.torn a st.offset))
            | .accepted st' =>
              .inl { st' with
                lastValidOffset := st.offset + total
                offset := st.offset + total }
          | .error _ =>
            if fileSize ≤ st.offset + total then
              .inr (.ok (st.torn a st.offset))
            else
              .inl { st with
                warnings := st.warnings ++ [.corruptedHeader a.segmentId
                  s!"CRC mismatch at record_id={st.expectedRecordId}, offset={st.offset}"]
                offset := st.offset + total }

def rawLoop : Loop ScanState (Except String ScanState) where
  step := rawStep C a fileSize
  measure st := fileSize - st.offset
  decreasing st st' h := by
    have hpos : 0 < minRecordSize := by decide
    unfold rawStep at h
    split_ifs at h with hlt hshort
    split at h
    · cases h
    simp only at h
    split at h
    · cases h
    split at h
    · cases h
    split at h
    · cases h
    split at h
    · split at h
      · cases h
      · cases h
      · cases h
        simp only
        omega
    · split at h
      · cases h
      · cases h
        simp only
        omega

end Raw

section Frames

variable (C : Crates) (a : ScanArgs) (fileSize : ℕ)

section

variable (offset : ℕ) (decoded : Bytes) (validLen : ℕ)

/-- One iteration over the records of a decoded frame; `doff` is the position in it. The result
says whether the frame is fine, and a broken chain leaves only this loop. -/
def frameRecordStep (s : ScanState × ℕ) :
    (ScanState × ℕ) ⊕ (ScanState × Bool) :=
  let st := s.1
  let doff := s.2
  if ¬ doff + minRecordSize ≤ validLen then
    .inr (st, true)
  else
    let total := leVal (field doff 4 decoded)
    if total < minRecordSize ∨ validLen < doff + total then
      .inr (st, true)
    else
      match deserializeRecord C (field doff total decoded) with
      | .ok (record, _) =>
        match checkRecord C a st record with
        | .unexpectedId => .inr (st, false)
        | .chainBreak st' => .inr (st'.torn a offset, true)
        | .accepted st' => .inl (st', doff + total)
      | .error _ => .inr (st, false)

def frameRecordLoop :
    Loop (ScanState × ℕ) (ScanState × Bool) where
  step := frameRecordStep C a offset decoded validLen
  measure s := validLen - s.2
  decreasing s s' h := by
    have hpos : 0 < minRecordSize := by decide
    unfold frameRecordStep at h
    simp only at h
    split_ifs at h with hroom hfit
    split at h
    · split at h
      · cases h
      · cases h
      · cases h
        simp only
        omega
    · cases h

end

def frameStep (st : ScanState) : ScanState ⊕ ScanState :=
  if ¬ st.offset < fileSize then
    .inr st
  else if fileSize < st.offset + frameHeaderSize then
    .inr (st.torn a st.offset)
  else
    match slice st.offset frameHeaderSize st.file with
    | none => .inr (st.torn a st.offset)
    | some fh =>
      let cl := (readFrameHeader fh).1
      let dl := (readFrameHeader fh).2
      if cl = 0 ∨ dl = 0 ∨ fileSize < st.offset + frameHeaderSize + cl then
        .inr (st.torn a st.offset)
      else
        match slice (st.offset + frameHeaderSize) cl st.file with
        | none => .inr (st.torn a st.offset)
        | some payload =>
          match decodeFramePayload C payload a.header.isCompressed a.header.isEncrypted
            a.encryptionKey with
          | .error _ => .inr (st.torn a st.offset)
          | .ok decoded =>
            let validLen := min dl decoded.length
            let r := (frameRecordLoop C a st.offset decoded validLen).run (st, 0)
            if r.2 then
              .inl { r.1 with
                lastValidOffset := st.offset + frameHeaderSize + cl
                offset := st.offset + frameHeaderSize + cl }
            else
              .inr (r.1.torn a st.offset)

def frameLoop : Loop ScanState ScanState where
  step := frameStep C a fileSize
  measure st := fileSize - st.offset
  decreasing st st' h := by
    have hpos : 0 < frameHeaderSize := by decide
    unfold frameStep at h
    split_ifs at h with hlt hshort
    split at h
    · cases h
    · simp only at h
      split_ifs at h with hbad
      split at h
      · cases h
      · split at h
        · cases h
        · split_ifs at h with hok
          cases h
          simp only
          omega

end Frames

/-- What the scan returns, together with the file it leaves. -/
structure ScanResult where
  lastSequence : UInt64
  lastHash : Bytes32
  validOffset : ℕ
  warnings : List RecoveryWarning
  count : ℕ
  file : Bytes
  deriving DecidableEq

def ScanState.result (st : ScanState) : ScanResult where
  lastSequence := st.lastSequence
  lastHash := st.lastHash
  validOffset := st.lastValidOffset
  warnings := st.warnings
  count := st.count
  file := st.file

def scanLastSegment (C : Crates) (a : ScanArgs) (file : Bytes) : Except String ScanResult :=
  if a.header.isCompressed || a.header.isEncrypted then
    .ok ((frameLoop C a file.length).run (a.initial file)).result
  else
    ((rawLoop C a file.length).run (a.initial file)).map ScanState.result

end LogDb.Recovery
