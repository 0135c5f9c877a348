import LogDb.Lib.Merge
import LogDb.Storage.Disk
import LogDb.Storage.Index
import LogDb.Reader.Stored

/-!
The segment manifest and the scans over it: across the segments of one shard, and merged across
shards. The manifest is taken right after a refresh, so it lists the directory as it is.
-/

namespace LogDb.Reader

open Lib Format Storage

structure ManifestEntry where
  segmentId : ℕ
  baseSequence : UInt64
  flags : UInt8
  deriving DecidableEq

namespace ManifestEntry

def isCompressed (e : ManifestEntry) : Bool :=
  e.flags &&& flagCompressedZstd != 0

def isEncrypted (e : ManifestEntry) : Bool :=
  e.flags &&& flagEncryptedAes256Gcm != 0

end ManifestEntry

def readHeaderForManifest (C : Crates) (file : Bytes) : Option (UInt64 × UInt8) :=
  match slice 0 segmentHeaderSize file with
  | none => none
  | some buf =>
    match SegmentHeader.deserialize C buf with
    | .ok header => some (header.baseSequence, header.flags)
    | .error _ => none

/-- The entries after `force_refresh`: every segment file with a readable header. -/
def manifest (C : Crates) (d : Disk) : List ManifestEntry :=
  d.segments.filterMap fun f =>
    (readHeaderForManifest C f.2).map fun h => ⟨f.1, h.1, h.2⟩

section

variable (entries : List ManifestEntry) (seq : UInt64)

/-- The entry with the largest base at or below `seq`. -/
def findInCache : Option ManifestEntry :=
  let idx := partitionPoint (fun e => decide (e.baseSequence ≤ seq)) entries
  if idx = 0 then none else entries[idx - 1]?

/-- All entries from the one that contains `seq` on. -/
def segmentsFrom : List ManifestEntry :=
  entries.drop (partitionPoint (fun e => decide (e.baseSequence ≤ seq)) entries - 1)

end

/-- Where the search for `fromId` starts: at an anchor of the index of a raw segment, else behind
the header. -/
def startOffset (d : Disk) (e : ManifestEntry) (fromId : UInt64) : ℕ :=
  if e.isCompressed || e.isEncrypted then segmentHeaderSize
  else
    match d.indexes e.segmentId with
    | none => segmentHeaderSize
    | some data =>
      match SparseIndex.load data with
      | .error _ => segmentHeaderSize
      | .ok idx =>
        match idx.findAnchor fromId with
        | some (anchor, _) => anchor.fileOffset
        | none => segmentHeaderSize

section

variable (C : Crates) (d : Disk) (keys : Option KeyRing) (fromId toId : UInt64)

/-- The records of one segment, or nothing when its file cannot be opened. -/
def iterForSegment (e : ManifestEntry) : Option (List Record) :=
  (d.get e.segmentId).map fun file =>
    recordIter C
      { startOffset := startOffset d e fromId
        fileSize := file.length
        fromId := fromId
        endId := toId
        isCompressed := e.isCompressed
        isEncrypted := e.isEncrypted
        key := keys } file

/-- Segment after segment, until one begins past the range; unreadable ones are skipped. -/
def scanSegments : List ManifestEntry → List Record
  | [] => []
  | e :: es =>
    if toId ≤ e.baseSequence then []
    else (iterForSegment C d keys fromId toId e).getD [] ++ scanSegments es

/-- All that a `ShardScanner` yields. -/
def shardScanner : List Record :=
  scanSegments C d keys fromId toId (segmentsFrom (manifest C d) fromId)

end

def recordKey (r : Record) : ℕ :=
  r.id.sequence.toNat

/-- All that a `ScanIter` yields: one stream as it is, several merged by id. -/
def scanIter (C : Crates) (keys : Option KeyRing) (disks : List Disk) (fromId toId : UInt64) :
    List Record :=
  match disks.map fun d => shardScanner C d keys fromId toId with
  | [records] => records
  | streams => (Merge.new recordKey streams).drain recordKey

def inRange (fromId toId : UInt64) (r : Record) : Bool :=
  decide (fromId ≤ r.id.sequence ∧ r.id.sequence < toId)

theorem selectRange_of_sorted {fromId toId : UInt64} {records : List Record}
    (hso : records.Pairwise fun a b => recordKey a < recordKey b) :
    selectRange fromId toId records = records.filter (inRange fromId toId) := by
  induction records with
  | nil => rfl
  | cons r rs ih =>
    obtain ⟨hr, hs⟩ := List.pairwise_cons.mp hso
    unfold selectRange checkRange
    by_cases hb : r.id.sequence < fromId
    · have ho : inRange fromId toId r = false := by
        apply decide_eq_false
        rintro ⟨hle, -⟩
        exact absurd hb (UInt64.not_lt.mpr hle)
      rw [if_pos hb, List.filter_cons_of_neg (by simp [ho])]
      exact ih hs
    · rw [if_neg hb]
      by_cases he : toId ≤ r.id.sequence
      · -- all later records lie past the end as well
        have ho : ∀ x ∈ r :: rs, ¬ inRange fromId toId x = true := by
          intro x hx hi
          obtain ⟨-, hlt⟩ := of_decide_eq_true hi
          rw [UInt64.lt_iff_toNat_lt] at hlt
          rw [UInt64.le_iff_toNat_le] at he
          rcases List.mem_cons.mp hx with rfl | hm
          · omega
          · have hk := hr x hm
            unfold recordKey at hk
            omega
        rw [if_pos he, List.filter_eq_nil_iff.mpr ho]
      · have hi : inRange fromId toId r = true :=
          decide_eq_true ⟨UInt64.not_lt.mp hb, UInt64.not_le.mp he⟩
        rw [if_neg he, List.filter_cons_of_pos hi, ← ih hs]

end LogDb.Reader
