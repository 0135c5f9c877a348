import LogDb.Format.Frame
import LogDb.Format.ShardId
import LogDb.Storage.Disk
import LogDb.Storage.Index

/-!
The segment manager of one shard: appending batches, preparing the next segment, rolling, and
deleting old segments. Operations return the state they leave also when they fail. The counters
`decompressed_offset` and `frame_number`, which nothing reads, are left out.
-/

namespace LogDb.Storage

open Lib Format

inductive SegmentError where
  | full
  | io (reason : String)
  deriving DecidableEq

inductive RetentionPolicy where
  | keepAll
  | maxBytes (limit : ℕ)
  | maxAge
  deriving DecidableEq

structure ActiveSegment where
  id : ℕ
  offset : ℕ
  baseSequence : UInt64
  minTs : UInt64
  maxTs : UInt64
  compressed : Bool

namespace ActiveSegment

/-- Create the file and write its header; fails when the file exists. -/
def create (C : Crates) (d : Disk) (id : ℕ) (header : SegmentHeader) (lastHash : Bytes32)
    (compressed : Bool) : Option (ActiveSegment × Disk) :=
  (d.create id (header.serialize C lastHash)).map fun d' =>
    ({ id := id
       offset := segmentHeaderSize
       baseSequence := header.baseSequence
       minTs := 0xFFFFFFFFFFFFFFFF
       maxTs := 0
       compressed := compressed }, d')

def openExisting (id offset : ℕ) (header : SegmentHeader) : ActiveSegment where
  id := id
  offset := offset
  baseSequence := header.baseSequence
  minTs := header.minTimestampNs
  maxTs := header.maxTimestampNs
  compressed := header.isCompressed

def hasRoom (seg : ActiveSegment) (additional maxSize : ℕ) : Bool :=
  seg.offset + additional ≤ maxSize

def updateTsRange (seg : ActiveSegment) (ts : UInt64) : ActiveSegment :=
  { seg with
    minTs := if ts < seg.minTs then ts else seg.minTs
    maxTs := if seg.maxTs < ts then ts else seg.maxTs }

/-- The header bytes after the time range was written into them and the checksum renewed. -/
def backfill (C : Crates) (minTs maxTs : UInt64) (data : Bytes) : Bytes :=
  let data := writeAt 56 (leBytes 8 minTs.toNat) data
  let data := writeAt 64 (leBytes 8 maxTs.toNat) data
  writeAt headerCrcEnd (leBytes 4 (C.crc32c (field 0 headerCrcEnd data)).toNat) data

def backfillHeaderTs (C : Crates) (d : Disk) (seg : ActiveSegment) : Disk :=
  d.modify seg.id (backfill C seg.minTs seg.maxTs)

end ActiveSegment

structure SegmentManager where
  active : ActiveSegment
  activeId : ℕ
  segmentSize : ℕ
  lastHash : Bytes32
  hashInit : Bytes32
  hashEnabled : Bool
  compressed : Bool
  encryptionKeys : Option KeyRing
  retention : RetentionPolicy
  activeIndex : Option SparseIndex
  activeIndexCount : ℕ
  preparedSegment : Option (ℕ × ActiveSegment)
  pendingFsync : List ℕ
  shardId : ℕ
  shardBits : UInt32

/-- Framed segments get no index. -/
def freshIndex (compressed : Bool) (encryptionKeys : Option KeyRing) : Option SparseIndex :=
  if compressed || encryptionKeys.isSome then none
  else some (SparseIndex.new SparseIndex.defaultStride)

/-- The layout and hash flags of a header. -/
def layoutFlags (hashEnabled compressed encrypted : Bool) : UInt8 :=
  (if hashEnabled then flagHashEnabled else 0) ||| (if compressed then flagCompressedZstd else 0) |||
    (if encrypted then flagEncryptedAes256Gcm else 0)

namespace SegmentManager

/-- A fresh shard: one segment with id 1. -/
def create (C : Crates) (d : Disk) (segmentSize : ℕ) (hashEnabled compressed : Bool)
    (encryptionKeys : Option KeyRing) (hashInit : Bytes32) (retention : RetentionPolicy)
    (baseSequence : UInt64) : Except String (SegmentManager × Disk) :=
  let header := { SegmentHeader.firstSegment hashInit baseSequence 0 1 hashEnabled hashAlgoBlake3 with
    flags := layoutFlags hashEnabled compressed encryptionKeys.isSome
    encryptionKeyId := encryptionKeys.elim 0 KeyRing.activeId }
  match ActiveSegment.create C d 1 header zeros32 compressed with
  | none => .error "File exists"
  | some (active, d) =>
    .ok ({ active := active
           activeId := 1
           segmentSize := segmentSize
           lastHash := zeros32
           hashInit := hashInit
           hashEnabled := hashEnabled
           compressed := compressed
           encryptionKeys := encryptionKeys
           retention := retention
           activeIndex := freshIndex compressed encryptionKeys
           activeIndexCount := 0
           preparedSegment := none
           pendingFsync := []
           shardId := 0
           shardBits := 0 }, d)

def openExisting (activeId activeOffset : ℕ) (header : SegmentHeader) (segmentSize : ℕ)
    (lastHash hashInit : Bytes32) (hashEnabled : Bool) (encryptionKeys : Option KeyRing)
    (retention : RetentionPolicy) : SegmentManager :=
  let active := ActiveSegment.openExisting activeId activeOffset header
  { active := active
    activeId := activeId
    segmentSize := segmentSize
    lastHash := lastHash
    hashInit := hashInit
    hashEnabled := hashEnabled
    compressed := active.compressed
    encryptionKeys := encryptionKeys
    retention := retention
    activeIndex := freshIndex active.compressed encryptionKeys
    activeIndexCount := 0
    preparedSegment := none
    pendingFsync := []
    shardId := 0
    shardBits := 0 }

section

variable (m : SegmentManager)

def setIndexStride (stride : UInt32) : SegmentManager :=
  { m with activeIndex := m.activeIndex.map fun _ => SparseIndex.new stride }

def setShard (shardId : ℕ) (shardBits : UInt32) : SegmentManager :=
  { m with shardId := shardId, shardBits := shardBits }

/-- The `u32` id after the active one; the sum wraps as in release builds. -/
def nextId : ℕ :=
  (m.activeId + 1) % 2 ^ 32

def nextHeader (newId : ℕ) (baseSequence : UInt64) : SegmentHeader where
  formatVersion := Format.formatVersion
  flags := flagNotFirst ||| layoutFlags m.hashEnabled m.compressed m.encryptionKeys.isSome
  hashAlgo := hashAlgoBlake3
  hashInit := m.hashInit
  baseSequence := baseSequence
  partitionId := 0
  segmentId := UInt32.ofNat newId
  minTimestampNs := 0xFFFFFFFFFFFFFFFF
  maxTimestampNs := 0
  prevLastHash := m.lastHash
  recordFormat := recordFormatV1
  encryptionKeyId := m.encryptionKeys.elim 0 KeyRing.activeId

end

/-- Create the next segment ahead of time once the active one is 80% full. -/
def maybePrepareNext (C : Crates) (m : SegmentManager) (d : Disk) (nextLocalSeq : ℕ) :
    Except SegmentError Unit × SegmentManager × Disk :=
  if m.preparedSegment.isSome then
    (.ok (), m, d)
  else if m.active.offset * 100 / m.segmentSize < 80 then
    (.ok (), m, d)
  else
    let newId := m.nextId
    let base := encodeRecordId m.shardId nextLocalSeq m.shardBits
    match ActiveSegment.create C d newId (m.nextHeader newId base) m.lastHash m.compressed with
    | none => (.error (.io "File exists"), m, d)
    | some (seg, d) => (.ok (), { m with preparedSegment := some (newId, seg) }, d)

/-- The part of `append_batch` that fills the write buffer; `next` is `last_written + 1`. -/
structure BatchFill where
  buf : Bytes
  active : ActiveSegment
  index : Option SparseIndex
  indexCount : ℕ
  next : ℕ

/-- The buffer of a batch from sequence `first` on, before its first record. -/
abbrev BatchFill.start (m : SegmentManager) (first : ℕ) : BatchFill :=
  ⟨[], m.active, m.activeIndex, m.activeIndexCount, first⟩

def fillStep (C : Crates) (startOffset seq : ℕ) (view : ReadView) (st : BatchFill) : BatchFill where
  buf := st.buf ++ serializeRecord C view.recordId view
  active := st.active.updateTsRange view.timestampNs
  index := st.index.map fun idx =>
    if idx.shouldIndex st.indexCount then
      idx.add view.recordId (startOffset + st.buf.length) view.timestampNs
    else idx
  indexCount := if st.index.isSome then st.indexCount + 1 else st.indexCount
  next := seq + 1

def fill (C : Crates) (m : SegmentManager) : ℕ → List ReadView → BatchFill →
    Except SegmentError BatchFill
  | _, [], st => .ok st
  | seq, view :: views, st =>
    if m.active.hasRoom (st.buf.length + recordSize view.content.length) m.segmentSize then
      fill C m (seq + 1) views (fillStep C m.active.offset seq view st)
    else if st.buf.length = 0 then .error .full
    else .ok st

/-- Write the filled buffer behind the active offset, raw or as one frame. -/
def writeBatch (C : Crates) (m : SegmentManager) (d : Disk) (nonce : Nonce) (st : BatchFill) :
    SegmentManager × Disk :=
  let start := m.active.offset
  let m := { m with
    active := st.active, activeIndex := st.index, activeIndexCount := st.indexCount }
  if st.buf.length = 0 then
    (m, d)
  else if m.active.compressed || m.encryptionKeys.isSome then
    let payload := encodeFramePayload C m.active.compressed (m.encryptionKeys.map KeyRing.active)
      nonce st.buf
    let d := d.pwrite m.active.id start (writeFrameHeader payload.length st.buf.length)
    let d := d.pwrite m.active.id (start + frameHeaderSize) payload
    ({ m with active := { m.active with offset := start + frameHeaderSize + payload.length } }, d)
  else
    ({ m with active := { m.active with offset := start + st.buf.length } },
      d.pwrite m.active.id start st.buf)

/-- Append the records of the slots from `first` on; the result is `last_written + 1`. -/
def appendBatch (C : Crates) (m : SegmentManager) (d : Disk) (nonce : Nonce) (first : ℕ)
    (views : List ReadView) : Except SegmentError ℕ × SegmentManager × Disk :=
  match fill C m first views ⟨[], m.active, m.activeIndex, m.activeIndexCount, first⟩ with
  | .error e => (.error e, m, d)
  | .ok st =>
    let (m, d) := writeBatch C m d nonce st
    let (r, m, d) := maybePrepareNext C m d st.next
    (r.map fun _ => st.next, m, d)

section

variable (m : SegmentManager) (d : Disk)

/-- Only a non-empty index is written. -/
def saveActiveIndex : Disk :=
  match m.activeIndex with
  | some idx => if idx.entries.isEmpty then d else d.writeIndex m.active.id idx.save
  | none => d

theorem saveActiveIndex_segments : (m.saveActiveIndex d).segments = d.segments := by
  unfold saveActiveIndex
  split
  · split_ifs <;> rfl
  · rfl

/-- `MaxBytes`: delete from the oldest on while the total is over the limit. -/
def evictUntilUnder (maxBytes : ℕ) : Disk :=
  let rec go : List (ℕ × Bytes) → ℕ → Disk → Disk
    | [], _, d => d
    | f :: fs, total, d =>
      if m.activeId ≤ f.1 then d
      else if total ≤ maxBytes then d
      else go fs (total - f.2.length) (d.remove f.1)
  go d.segments (d.segments.map fun f => f.2.length).sum d

end

/-- `MaxAge`: the listing is in directory order, and the loop stops at the first id that is not
below the active one. -/
def evictOlderThan (m : SegmentManager) (expired : ℕ → Bool) : List ℕ → Disk → Disk
  | [], d => d
  | id :: ids, d =>
    if m.activeId ≤ id then d
    else evictOlderThan m expired ids (if expired id then d.remove id else d)

def readSegmentHeaderById (C : Crates) (d : Disk) (id : ℕ) : Option SegmentHeader := do
  let data ← d.get id
  if data.length < segmentHeaderSize then none
  else (SegmentHeader.deserialize C (field 0 segmentHeaderSize data)).toOption

/-- Delete the segments whose successor starts at or below the checkpoint. -/
def truncateBeforeCheckpoint (C : Crates) (m : SegmentManager) (checkpoint : UInt64) :
    List ℕ → Disk → Disk
  | [], d => d
  | id :: ids, d =>
    truncateBeforeCheckpoint C m checkpoint ids <|
      if m.activeId ≤ id then d
      else
        match readSegmentHeaderById C d (id + 1) with
        | some next => if next.baseSequence ≤ checkpoint then d.remove id else d
        | none => d

/-- What a roll sees of its environment: the order in which the directory is listed (once for the
retention, once for the checkpoint) and which files are old enough. -/
structure RollEnv where
  retentionListing : List ℕ
  checkpointListing : List ℕ
  expired : ℕ → Bool

def applyRetention (m : SegmentManager) (env : RollEnv) (d : Disk) : Disk :=
  match m.retention with
  | .keepAll => d
  | .maxBytes limit => m.evictUntilUnder d limit
  | .maxAge => m.evictOlderThan env.expired env.retentionListing d

/-- Make `seg` the active segment, with a fresh index, and queue the old one for its fsync. -/
def swapActive (m : SegmentManager) (newId : ℕ) (seg : ActiveSegment) : SegmentManager :=
  { m with
    active := seg
    activeId := newId
    preparedSegment := none
    pendingFsync := m.pendingFsync ++ [m.active.id]
    activeIndex := freshIndex m.compressed m.encryptionKeys
    activeIndexCount := 0 }

section

variable (C : Crates) (m : SegmentManager) (d : Disk)

def rollCleanup (checkpoint : UInt64)
    (env : RollEnv) : Disk :=
  let d := m.applyRetention env d
  if 0 < checkpoint then m.truncateBeforeCheckpoint C checkpoint env.checkpointListing d else d

def roll (nextBaseSequence checkpoint : UInt64)
    (env : RollEnv) : Except SegmentError Unit × SegmentManager × Disk :=
  let d := m.active.backfillHeaderTs C d
  let d := m.saveActiveIndex d
  match m.preparedSegment with
  | some (newId, seg) =>
    let m := m.swapActive newId seg
    (.ok (), m, m.rollCleanup C d checkpoint env)
  | none =>
    let newId := m.nextId
    match ActiveSegment.create C d newId (m.nextHeader newId nextBaseSequence) m.lastHash
      m.compressed with
    | none => (.error (.io "File exists"), m, d)
    | some (seg, d) =>
      let m := m.swapActive newId seg
      (.ok (), m, m.rollCleanup C d checkpoint env)

end

/-- `sync_all` empties the queue of rolled segments. -/
def syncAll (m : SegmentManager) : SegmentManager :=
  { m with pendingFsync := [] }

end SegmentManager

end LogDb.Storage
