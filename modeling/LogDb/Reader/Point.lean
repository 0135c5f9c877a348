import LogDb.Reader.Manifest

/-!
Point reads: one record by its id, and many in one call. Files are read as a refreshed manifest
lists them, so the only failure left is an index out of range, where the source panics.
-/

namespace LogDb.Reader

open Lib Format Storage

inductive ReadError where
  | io (reason : String)
  | outOfRange
  deriving DecidableEq

/-- The arguments of `read_from_open_file` other than the file. -/
structure PointArgs where
  isCompressed : Bool
  isEncrypted : Bool
  key : Option KeyRing
  startOffset : ℕ
  recordId : UInt64

section Raw

variable (C : Crates) (recordId : UInt64) (file : Bytes)

/-- One iteration over a raw segment; the state is the offset. -/
def rawPointStep (offset : ℕ) : ℕ ⊕ Option Record :=
  if file.length ≤ offset then
    .inr none
  else if file.length < offset + 4 then
    .inr none
  else
    let total := leVal (field offset 4 file)
    if total < minRecordSize then
      .inl (offset + 1)
    else if file.length < offset + total then
      .inr none
    else
      match deserializeRecord C (field offset total file) with
      | .ok (record, _) =>
        if record.id.sequence = recordId then .inr (some record)
        else if recordId < record.id.sequence then .inr none
        else .inl (offset + total)
      | .error _ => .inl (offset + total)

variable {C recordId file} in
theorem rawPointStep_lt {offset offset' : ℕ}
    (h : rawPointStep C recordId file offset = .inl offset') :
    file.length - offset' < file.length - offset := by
  have hm : 0 < minRecordSize := by decide
  unfold rawPointStep at h
  simp only at h
  split_ifs at h with he hh hs hl
  · cases h
    omega
  · split at h
    · split_ifs at h
      cases h
      omega
    · cases h
      omega

def rawPointLoop : Loop ℕ (Option Record) where
  step := rawPointStep C recordId file
  measure offset := file.length - offset
  decreasing _ _ := rawPointStep_lt

end Raw

section Frames

variable (C : Crates) (recordId : UInt64)

/-- One record of a decoded frame. The length of the record is read before it is known that the
decoded bytes go that far. -/
def framePointStep (data : Bytes) (frameLen doff : ℕ) : ℕ ⊕ Except ReadError (Option Record) :=
  if ¬ (doff + minRecordSize ≤ frameLen ∧ doff ≤ data.length) then
    .inr (.ok none)
  else if data.length < doff + 4 then
    .inr (.error .outOfRange)
  else
    let total := leVal (field doff 4 data)
    if total < minRecordSize ∨ frameLen < doff + total ∨ data.length < doff + total then
      .inr (.ok none)
    else
      match deserializeRecord C (field doff total data) with
      | .ok (record, _) =>
        if record.id.sequence = recordId then .inr (.ok (some record))
        else if recordId < record.id.sequence then .inr (.ok none)
        else .inl (doff + total)
      | .error _ => .inl (doff + total)

variable {C recordId} in
theorem framePointStep_lt {data : Bytes} {frameLen doff doff' : ℕ}
    (h : framePointStep C recordId data frameLen doff = .inl doff') :
    frameLen - doff' < frameLen - doff := by
  have hm : 0 < minRecordSize := by decide
  unfold framePointStep at h
  simp only at h
  split_ifs at h with hr hs hb
  split at h
  · split_ifs at h
    cases h
    omega
  · cases h
    omega

def framePointLoop (data : Bytes) (frameLen : ℕ) : Loop ℕ (Except ReadError (Option Record)) where
  step := framePointStep C recordId data frameLen
  measure doff := frameLen - doff
  decreasing _ _ := framePointStep_lt

variable (isCompressed isEncrypted : Bool) (key : Option KeyRing) (file : Bytes)

/-- One frame. A larger id only ends the search in its own frame. -/
def framesPointStep (offset : ℕ) : ℕ ⊕ Except ReadError (Option Record) :=
  if file.length ≤ offset then
    .inr (.ok none)
  else if file.length < offset + frameHeaderSize then
    .inr (.ok none)
  else
    let fh := readFrameHeader (field offset frameHeaderSize file)
    if fh.1 = 0 ∨ fh.2 = 0 ∨ file.length < offset + frameHeaderSize + fh.1 then
      .inr (.ok none)
    else
      match decodeFramePayload C (field (offset + frameHeaderSize) fh.1 file) isCompressed
        isEncrypted key with
      | .error _ => .inr (.ok none)
      | .ok decoded =>
        match (framePointLoop C recordId decoded fh.2).run 0 with
        | .ok none => .inl (offset + (frameHeaderSize + fh.1))
        | r => .inr r

def framesPointLoop : Loop ℕ (Except ReadError (Option Record)) where
  step := framesPointStep C recordId isCompressed isEncrypted key file
  measure offset := file.length - offset
  decreasing offset offset' h := by
    have hsize : 0 < frameHeaderSize := by decide
    unfold framesPointStep at h
    simp only at h
    split_ifs at h with hend hshort hbad
    split at h
    · cases h
    · split at h
      · cases h
        omega
      · cases h

end Frames

def readFromOpenFile (C : Crates) (a : PointArgs) (file : Bytes) : Except ReadError (Option Record) :=
  if a.isCompressed || a.isEncrypted then
    (framesPointLoop C a.recordId a.isCompressed a.isEncrypted a.key file).run a.startOffset
  else .ok ((rawPointLoop C a.recordId file).run a.startOffset)

def read (C : Crates) (d : Disk) (keys : Option KeyRing) (recordId : UInt64) :
    Except ReadError (Option Record) :=
  match findInCache (manifest C d) recordId with
  | none => .ok none
  | some e =>
    match d.get e.segmentId with
    | none => .error (.io "metadata")
    | some file =>
      readFromOpenFile C
        { isCompressed := e.isCompressed
          isEncrypted := e.isEncrypted
          key := keys
          startOffset := startOffset d e recordId
          recordId := recordId } file

section Many

variable (C : Crates) (file : Bytes)

/-- The state of `read_many_raw`: the offset, the targets that are left, and what was found. -/
structure ManyState where
  offset : ℕ
  targets : List (ℕ × UInt64)
  out : List (ℕ × Record)

def rawManyStep (s : ManyState) : ManyState ⊕ List (ℕ × Record) :=
  if file.length ≤ s.offset ∨ s.targets = [] then
    .inr s.out
  else if file.length < s.offset + 4 then
    .inr s.out
  else
    let total := leVal (field s.offset 4 file)
    if total < minRecordSize then
      .inl { s with offset := s.offset + 1 }
    else if file.length < s.offset + total then
      .inr s.out
    else
      match deserializeRecord C (field s.offset total file) with
      | .error _ => .inl { s with offset := s.offset + total }
      | .ok (record, _) =>
        match s.targets.dropWhile fun t => t.2 < record.id.sequence with
        | [] => .inl ⟨s.offset + total, [], s.out⟩
        | t :: ts =>
          if t.2 = record.id.sequence then .inl ⟨s.offset + total, ts, s.out ++ [(t.1, record)]⟩
          else .inl ⟨s.offset + total, t :: ts, s.out⟩

def rawManyLoop : Loop ManyState (List (ℕ × Record)) where
  step := rawManyStep C file
  measure s := file.length - s.offset
  decreasing s s' h := by
    have hmin : 0 < minRecordSize := by decide
    unfold rawManyStep at h
    simp only at h
    split_ifs at h with hend hshort hsmall hlong
    · cases h
      simp only
      omega
    · split at h
      · cases h
        simp only
        omega
      · split at h
        · cases h
          simp only
          omega
        · split_ifs at h <;> cases h <;> simp only <;> omega

def readManyRaw (startOffset : ℕ) (targets : List (ℕ × UInt64)) : List (ℕ × Record) :=
  (rawManyLoop C file).run ⟨startOffset, targets, []⟩

end Many

section Batch

variable (C : Crates) (d : Disk) (keys : Option KeyRing) (ids : List UInt64)

/-- The targets of one segment: result slot and id, in ascending order of the ids. -/
def clusterTargets (cluster : List (ℕ × ManifestEntry)) : List (ℕ × UInt64) :=
  (cluster.filterMap fun c => ids[c.1]?.map fun id => (c.1, id)).mergeSort fun a b => a.2 ≤ b.2

/-- Read the targets of one segment; a segment that cannot be opened is skipped. -/
def readCluster (e : ManifestEntry) (targets : List (ℕ × UInt64)) :
    Except ReadError (List (ℕ × Option Record)) :=
  match d.get e.segmentId with
  | none => .ok []
  | some file =>
    if e.isCompressed || e.isEncrypted then
      targets.mapM fun t =>
        (readFromOpenFile C ⟨e.isCompressed, e.isEncrypted, keys, segmentHeaderSize, t.2⟩ file).map
          fun r => (t.1, r)
    else
      .ok ((readManyRaw C file
        (targets.head?.elim segmentHeaderSize fun t => startOffset d e t.2) targets).map
          fun r => (r.1, some r.2))

def storeResults (results : List (Option Record)) (read : List (ℕ × Option Record)) :
    List (Option Record) :=
  read.foldl (fun results r => results.set r.1 r.2) results

/-- Segment after segment; the entry of a cluster is that of its first target. -/
def readClusters : List (List (ℕ × ManifestEntry)) → List (Option Record) →
    Except ReadError (List (Option Record))
  | [], results => .ok results
  | [] :: clusters, results => readClusters clusters results
  | (c :: cs) :: clusters, results =>
    match readCluster C d keys c.2 (clusterTargets ids (c :: cs)) with
    | .error e => .error e
    | .ok read => readClusters clusters (storeResults results read)

def readBatch : Except ReadError (List (Option Record)) :=
  let resolved := ids.zipIdx.filterMap fun i =>
    (findInCache (manifest C d) i.1).map fun e => (i.2, e)
  let sorted := resolved.mergeSort fun a b => a.2.segmentId ≤ b.2.segmentId
  readClusters C d keys ids (sorted.splitBy fun a b => a.2.segmentId == b.2.segmentId)
    (List.replicate ids.length none)

end Batch

end LogDb.Reader
