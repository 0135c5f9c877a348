import LogDb.Storage.Manager

/-!
The segment manager on a device whose calls may fail. Every operation is given the outcomes of the
calls it makes, and leaves the files as far as it came. A volume has, besides the directory, what a
crash would spare: the bytes of each file at its last `fdatasync` and the entries that stood in the
directory at its last `sync_dir`. The deletions at the end of a roll do not fail.
-/

namespace LogDb.Storage

open Lib Format Disk

/-- How a write ends; a failed one may have written some of its bytes. -/
inductive WriteOutcome where
  | done
  | failed (written : ℕ)
  deriving DecidableEq

namespace WriteOutcome

def isDone : WriteOutcome → Bool
  | done => true
  | failed _ => false

def arrived : WriteOutcome → Bytes → Bytes
  | done, data => data
  | failed written, data => data.take written

end WriteOutcome

/-- How the creation of a file and the write of its first bytes end. -/
inductive FileOutcome where
  | done
  | refused
  | failed (written : ℕ)
  deriving DecidableEq

structure Volume where
  disk : Disk
  stable : ℕ → Option Bytes
  entries : ℕ → Bool

namespace Volume

def fdatasync (vol : Volume) (id : ℕ) : Volume :=
  { vol with stable := Function.update vol.stable id (vol.disk.get id) }

def syncDir (vol : Volume) : Volume :=
  { vol with entries := fun id => vol.entries id || (vol.disk.get id).isSome }

/-- Open a file by its path and sync it. -/
def fsyncPath (vol : Volume) (id : ℕ) (ok : Bool) : Bool × Volume :=
  if ok && (vol.disk.get id).isSome then (true, vol.fdatasync id) else (false, vol)

end Volume

def Disk.pwriteAll (d : Disk) (id offset : ℕ) (data : Bytes) (o : WriteOutcome) : Disk :=
  d.pwrite id offset (o.arrived data)

/-- The calls of `append_batch`. `encode` tells whether compression and encryption succeed. -/
structure AppendOutcomes where
  encode : Bool
  frameHeader : WriteOutcome
  data : WriteOutcome
  prepare : FileOutcome

structure RollOutcomes where
  minTs : WriteOutcome
  maxTs : WriteOutcome
  readHeader : Bool
  crc : WriteOutcome
  index : FileOutcome
  create : FileOutcome
  syncHeader : Bool
  openDir : Bool
  syncDir : Bool

def AppendOutcomes.good : AppendOutcomes :=
  ⟨true, .done, .done, .done⟩

def RollOutcomes.good : RollOutcomes :=
  ⟨.done, .done, true, .done, .done, .done, true, true, true⟩

/-- The calls of `sync_all`: which of the queued files can be opened and synced, and the sync of
the active one. -/
structure SyncOutcomes where
  pending : ℕ → Bool
  active : Bool
  index : FileOutcome

def SyncOutcomes.good : SyncOutcomes :=
  ⟨fun _ => true, true, .done⟩

namespace ActiveSegment

/-- A header that could not be written whole leaves its file behind. -/
def createWith (C : Crates) (d : Disk) (id : ℕ) (header : SegmentHeader) (lastHash : Bytes32)
    (compressed : Bool) : FileOutcome → Except String ActiveSegment × Disk
  | .done =>
    match create C d id header lastHash compressed with
    | some (seg, d) => (.ok seg, d)
    | none => (.error "File exists", d)
  | .refused => (.error "I/O error", d)
  | .failed written =>
    match d.create id ((header.serialize C lastHash).take written) with
    | some d => (.error "I/O error", d)
    | none => (.error "File exists", d)

def backfillHeaderTsWith (C : Crates) (d : Disk) (seg : ActiveSegment) (o : RollOutcomes) :
    Bool × Disk :=
  let d := d.pwriteAll seg.id 56 (leBytes 8 seg.minTs.toNat) o.minTs
  if !o.minTs.isDone then (false, d) else
  let d := d.pwriteAll seg.id 64 (leBytes 8 seg.maxTs.toNat) o.maxTs
  if !o.maxTs.isDone then (false, d) else
  if !o.readHeader then (false, d) else
  (o.crc.isDone, d.modify seg.id fun data => writeAt headerCrcEnd
    (o.crc.arrived (leBytes 4 (C.crc32c (field 0 headerCrcEnd data)).toNat)) data)

end ActiveSegment

namespace SegmentManager

section

variable (C : Crates) (m : SegmentManager) (d : Disk)

def maybePrepareNextWith (nextLocalSeq : ℕ)
    (o : FileOutcome) : Except SegmentError Unit × SegmentManager × Disk :=
  if m.preparedSegment.isSome then
    (.ok (), m, d)
  else if m.active.offset * 100 / m.segmentSize < 80 then
    (.ok (), m, d)
  else
    let newId := m.nextId
    let base := encodeRecordId m.shardId nextLocalSeq m.shardBits
    match ActiveSegment.createWith C d newId (m.nextHeader newId base) m.lastHash m.compressed o with
    | (.error e, d) => (.error (.io e), m, d)
    | (.ok seg, d) => (.ok (), { m with preparedSegment := some (newId, seg) }, d)

/-- The offset moves only when all of the batch was written. -/
def writeBatchWith (nonce : Nonce) (st : BatchFill)
    (o : AppendOutcomes) : Except SegmentError Unit × SegmentManager × Disk :=
  let start := m.active.offset
  let m := { m with
    active := st.active, activeIndex := st.index, activeIndexCount := st.indexCount }
  if st.buf.length = 0 then
    (.ok (), m, d)
  else if m.active.compressed || m.encryptionKeys.isSome then
    if !o.encode then (.error (.io "encryption failed"), m, d) else
    let payload := encodeFramePayload C m.active.compressed (m.encryptionKeys.map KeyRing.active)
      nonce st.buf
    let d :=
      d.pwriteAll m.active.id start (writeFrameHeader payload.length st.buf.length) o.frameHeader
    if !o.frameHeader.isDone then (.error (.io "I/O error"), m, d) else
    let d := d.pwriteAll m.active.id (start + frameHeaderSize) payload o.data
    if !o.data.isDone then (.error (.io "I/O error"), m, d) else
    (.ok (), { m with active := { m.active with offset := start + frameHeaderSize + payload.length } },
      d)
  else
    let d := d.pwriteAll m.active.id start st.buf o.data
    if !o.data.isDone then (.error (.io "I/O error"), m, d) else
    (.ok (), { m with active := { m.active with offset := start + st.buf.length } }, d)

/-- A failure to prepare the next segment is reported although the batch is written. -/
def appendBatchWith (nonce : Nonce) (first : ℕ)
    (views : List ReadView) (o : AppendOutcomes) : Except SegmentError ℕ × SegmentManager × Disk :=
  match fill C m first views ⟨[], m.active, m.activeIndex, m.activeIndexCount, first⟩ with
  | .error e => (.error e, m, d)
  | .ok st =>
    match writeBatchWith C m d nonce st o with
    | (.error e, m, d) => (.error e, m, d)
    | (.ok _, m, d) =>
      let (r, m, d) := maybePrepareNextWith C m d st.next o.prepare
      (r.map fun _ => st.next, m, d)

end

/-- Nobody looks at the outcome of this one. -/
def saveActiveIndexWith (m : SegmentManager) (d : Disk) : FileOutcome → Disk
  | .done => m.saveActiveIndex d
  | .refused => d
  | .failed written =>
    match m.activeIndex with
    | some idx => if idx.entries.isEmpty then d else d.writeIndex m.active.id (idx.save.take written)
    | none => d

section

variable (C : Crates) (m : SegmentManager) (vol : Volume)

def rollSwapWith (nextBaseSequence : UInt64)
    (o : RollOutcomes) : Except SegmentError Unit × SegmentManager × Volume :=
  match m.active.backfillHeaderTsWith C vol.disk o with
  | (false, d) => (.error (.io "I/O error"), m, { vol with disk := d })
  | (true, d) =>
    let d := m.saveActiveIndexWith d o.index
    match m.preparedSegment with
    | some (newId, seg) => (.ok (), m.swapActive newId seg, { vol with disk := d })
    | none =>
      let newId := m.nextId
      match ActiveSegment.createWith C d newId (m.nextHeader newId nextBaseSequence) m.lastHash
        m.compressed o.create with
      | (.error e, d) => (.error (.io e), m, { vol with disk := d })
      | (.ok seg, d) =>
        let vol := { vol with disk := d }
        if !o.syncHeader then (.error (.io "I/O error"), m, vol) else
        let vol := vol.fdatasync newId
        if !(o.openDir && o.syncDir) then (.error (.io "I/O error"), m, vol) else
        (.ok (), m.swapActive newId seg, vol.syncDir)

def rollWith (nextBaseSequence checkpoint : UInt64)
    (env : RollEnv) (o : RollOutcomes) : Except SegmentError Unit × SegmentManager × Volume :=
  match m.rollSwapWith C vol nextBaseSequence o with
  | (.error e, m, vol) => (.error e, m, vol)
  | (.ok _, m, vol) =>
    (.ok (), m, { vol with disk := m.rollCleanup C vol.disk checkpoint env })

end

/-- The queued files are synced up to the first failure. -/
def syncPending (ok : ℕ → Bool) : List ℕ → Volume → Bool × Volume
  | [], vol => (true, vol)
  | id :: ids, vol =>
    match vol.fsyncPath id (ok id) with
    | (true, vol) => syncPending ok ids vol
    | (false, vol) => (false, vol)

/-- The queue is taken out before it is worked off. -/
def syncAllWith (m : SegmentManager) (vol : Volume) (o : SyncOutcomes) :
    Bool × SegmentManager × Volume :=
  match syncPending o.pending m.pendingFsync vol with
  | (false, vol) => (false, { m with pendingFsync := [] }, vol)
  | (true, vol) =>
    if o.active then (true, { m with pendingFsync := [] }, vol.fdatasync m.active.id)
    else (false, { m with pendingFsync := [] }, vol)

/-- Failures are ignored. -/
def drainPending (ok : ℕ → Bool) : List ℕ → Volume → Volume
  | [], vol => vol
  | id :: ids, vol => drainPending ok ids (vol.fsyncPath id (ok id)).2

def drainPendingFsyncsWith (m : SegmentManager) (vol : Volume) (ok : ℕ → Bool) :
    SegmentManager × Volume :=
  ({ m with pendingFsync := [] }, drainPending ok m.pendingFsync vol)

section Good

variable (C : Crates) (m : SegmentManager)

section

variable (d : Disk)

theorem createWith_done (id : ℕ) (header : SegmentHeader) (lastHash : Bytes32) (compressed : Bool) :
    ActiveSegment.createWith C d id header lastHash compressed .done =
      match ActiveSegment.create C d id header lastHash compressed with
      | some (seg, d) => (.ok seg, d)
      | none => (.error "File exists", d) :=
  rfl

theorem maybePrepareNextWith_done (nextLocalSeq : ℕ) :
    m.maybePrepareNextWith C d nextLocalSeq .done = m.maybePrepareNext C d nextLocalSeq := by
  unfold maybePrepareNextWith maybePrepareNext
  simp only [createWith_done]
  split_ifs
  · rfl
  · rfl
  · cases ActiveSegment.create C d m.nextId (m.nextHeader m.nextId
      (encodeRecordId m.shardId nextLocalSeq m.shardBits)) m.lastHash m.compressed with
    | none => rfl
    | some r => rfl

theorem writeBatchWith_good (nonce : Nonce) (st : BatchFill) :
    m.writeBatchWith C d nonce st .good = (.ok (), m.writeBatch C d nonce st) := by
  unfold writeBatchWith writeBatch
  simp only [AppendOutcomes.good, pwriteAll, WriteOutcome.isDone, WriteOutcome.arrived,
    Bool.not_true, Bool.false_eq_true, if_false]
  split_ifs <;> rfl

/-- Without failures this is the manager on a good device. -/
theorem appendBatchWith_good (nonce : Nonce) (first : ℕ) (views : List ReadView) :
    m.appendBatchWith C d nonce first views .good = m.appendBatch C d nonce first views := by
  unfold appendBatchWith appendBatch
  cases fill C m first views (.start m first) with
  | error e => rfl
  | ok st =>
    simp only [writeBatchWith_good]
    exact congrArg (fun r => (r.1.map fun _ => st.next, r.2)) (maybePrepareNextWith_done C _ _ _)

theorem backfillHeaderTsWith_good (seg : ActiveSegment) :
    seg.backfillHeaderTsWith C d .good = (true, seg.backfillHeaderTs C d) := by
  unfold ActiveSegment.backfillHeaderTsWith ActiveSegment.backfillHeaderTs
  show (true, ((d.modify seg.id _).modify seg.id _).modify seg.id _) = _
  rw [modify_modify, modify_modify]
  rfl

end

theorem rollWith_good (vol : Volume) (nextBase cp : UInt64) (env : RollEnv) :
    let r := m.rollWith C vol nextBase cp env .good
    (r.1, r.2.1, r.2.2.disk) = m.roll C vol.disk nextBase cp env := by
  unfold rollWith rollSwapWith roll
  simp only [backfillHeaderTsWith_good]
  cases m.preparedSegment with
  | some p => rfl
  | none =>
    simp only [RollOutcomes.good, createWith_done, saveActiveIndexWith, Bool.and_true, Bool.not_true,
      Bool.false_eq_true, if_false]
    cases ActiveSegment.create C (m.saveActiveIndex (m.active.backfillHeaderTs C vol.disk)) m.nextId
        (m.nextHeader m.nextId nextBase) m.lastHash m.compressed with
    | none => rfl
    | some r => rfl

end Good

end SegmentManager

end LogDb.Storage
