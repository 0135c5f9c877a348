import LogDb.Reader.Lookup
import LogDb.Storage.Append

/-!
A shard directory that holds stored segments, whoever wrote them: its manifest, and the scans and
point reads over it.
-/

namespace LogDb.Reader

open Lib Format Storage List ReadView

/-- What a segment file says: its header and its records. -/
structure StoredSegment where
  id : ℕ
  header : SegmentHeader
  records : List ReadView

open StoredSegment

namespace StoredSegment

def base (s : StoredSegment) : UInt64 :=
  s.header.baseSequence

def entry (s : StoredSegment) : ManifestEntry where
  segmentId := s.id
  baseSequence := s.base
  flags := s.header.flags

/-- The file holds the segment: a readable header, and its records in the layout that the header
declares. -/
def IsFile (C : Crates) (keys : Option KeyRing) (s : StoredSegment) (f : ℕ × Bytes) : Prop :=
  f.1 = s.id ∧ ∃ hdr body, f.2 = hdr ++ body ∧ hdr.length = segmentHeaderSize ∧
    SegmentHeader.deserialize C hdr = .ok s.header ∧ StoredBody C s.header keys s.records body

/-- An index as the Committer writes it: ids, places and times of some of the records, in order. -/
def HasIndex (s : StoredSegment) (data : Bytes) : Prop :=
  ∃ idx, SparseIndex.load data = .ok idx ∧
    idx.entries.Sublist (anchors segmentHeaderSize s.records)

end StoredSegment

/-- The directory holds the segments, in the order of their files. -/
structure Holds (C : Crates) (keys : Option KeyRing) (d : Disk) (segs : List StoredSegment) :
    Prop where
  files : List.Forall₂ (IsFile C keys) segs d.segments
  fits : ∀ s ∈ segs, ∀ v ∈ s.records, v.Fits
  ascending : ∀ s ∈ segs, s.records.Pairwise fun v w => v.recordId < w.recordId
  indexes : ∀ s ∈ segs, ∀ data, d.indexes s.id = some data → s.HasIndex data

/-- What the directory says of one of its segments. -/
structure HoldsSegment (C : Crates) (keys : Option KeyRing) (d : Disk) (s : StoredSegment) : Prop where
  file : ∃ file, d.get s.id = some file ∧ s.IsFile C keys (s.id, file)
  fits : ∀ v ∈ s.records, v.Fits
  ascending : s.records.Pairwise fun v w => v.recordId < w.recordId
  index : ∀ data, d.indexes s.id = some data → s.HasIndex data

/-- The entry leads to the segment, with its layout. -/
def ManifestEntry.Opens (e : ManifestEntry) (s : StoredSegment) : Prop :=
  e.segmentId = s.id ∧ e.isCompressed = s.header.isCompressed ∧
    e.isEncrypted = s.header.isEncrypted

theorem StoredSegment.opens (s : StoredSegment) : s.entry.Opens s := ⟨rfl, rfl, rfl⟩

theorem pairwise_toRecord {views : List ReadView}
    (h : views.Pairwise fun v w => v.recordId < w.recordId) :
    (views.map toRecord).Pairwise fun a b => recordKey a < recordKey b :=
  pairwise_map.mpr (h.imp fun hlt => UInt64.lt_iff_toNat_lt.mp hlt)

def recordsOf (segs : List StoredSegment) : List Record :=
  (segs.flatMap records).map toRecord

theorem recordsOf_append (xs ys : List StoredSegment) :
    recordsOf (xs ++ ys) = recordsOf xs ++ recordsOf ys := by
  simp [recordsOf]

theorem mem_recordsOf {segs : List StoredSegment} {r : Record} :
    r ∈ recordsOf segs ↔ ∃ s ∈ segs, ∃ v ∈ s.records, v.toRecord = r := by
  simp only [recordsOf, mem_map, mem_flatMap]
  constructor
  · rintro ⟨v, ⟨s, hs, hv⟩, rfl⟩
    exact ⟨s, hs, v, hv, rfl⟩
  · rintro ⟨s, hs, v, hv, rfl⟩
    exact ⟨v, ⟨s, hs, hv⟩, rfl⟩

section

variable {C : Crates} {keys : Option KeyRing} {d : Disk} {segs : List StoredSegment}
  {s : StoredSegment}

theorem readHeaderForManifest_isFile {f : ℕ × Bytes} (hf : s.IsFile C keys f) :
    readHeaderForManifest C f.2 = some (s.base, s.header.flags) := by
  obtain ⟨-, hd, body, hfl, hl, hh, -⟩ := hf
  have hs : slice 0 segmentHeaderSize f.2 = some hd := by
    refine slice_eq_some_iff.mpr ⟨?_, ?_⟩
    · rw [hfl, length_append, hl]
      omega
    · rw [field_zero, hfl, take_left' hl]
  simp only [readHeaderForManifest, hs, hh]
  rfl

theorem manifest_of_isFile (hs : List.Forall₂ (IsFile C keys) segs d.segments) :
    manifest C d = segs.map entry := by
  unfold manifest
  generalize d.segments = files at hs ⊢
  induction hs with
  | nil => rfl
  | @cons s f segs fs hf _ ih =>
    rw [filterMap_cons, readHeaderForManifest_isFile hf, map_cons, ← ih]
    simp only [Option.map_some, entry, hf.1]

namespace HoldsSegment

variable {e : ManifestEntry} {file : Bytes} (h : HoldsSegment C keys d s) (he : e.Opens s)
include h he

theorem startOffset_raw (hr : (s.header.isCompressed || s.header.isEncrypted) = false)
    (fromId : UInt64) :
    ∃ pre post, s.records = pre ++ post ∧
      startOffset d e fromId = segmentHeaderSize + (batchBytes C pre).length ∧
      ∀ v ∈ pre, v.recordId < fromId := by
  have hd : ∃ pre post, s.records = pre ++ post ∧
      segmentHeaderSize = segmentHeaderSize + (batchBytes C pre).length ∧
      ∀ v ∈ pre, v.recordId < fromId :=
    ⟨[], s.records, rfl, rfl, fun v hv => absurd hv not_mem_nil⟩
  unfold startOffset
  rw [he.1, he.2.1, he.2.2, if_neg (by simp [hr])]
  cases hda : d.indexes s.id with
  | none => exact hd
  | some data =>
    obtain ⟨idx, hl, hi⟩ := h.index data hda
    simp only [hl]
    cases hf : idx.findAnchor fromId with
    | none => exact hd
    | some r =>
      obtain ⟨anchor, pos⟩ := r
      have ho := h.ascending
      -- the anchor is the last entry up to the id
      have hn : idx.entries.Pairwise fun a b => a.sequence.toNat ≤ b.sequence.toNat :=
        ((anchors_sorted ho).sublist hi).imp fun hlt => (UInt64.lt_iff_toNat_lt.mp hlt).le
      obtain ⟨xs, ys, hs, hx, hy⟩ := exists_split_of_sorted hn fromId.toNat
      have hx' : ∀ a ∈ xs, a.sequence ≤ fromId := fun a ha => UInt64.le_iff_toNat_le.mpr (hx a ha)
      have har := SparseIndex.findAnchor_append idx.stride hx' fun b hb =>
        UInt64.lt_iff_toNat_lt.mpr (hy b hb)
      rw [← hs, hf] at har
      have hm := mem_of_getLast? har.symm
      obtain ⟨pre, v, post, hc, rfl⟩ :=
        exists_of_mem_anchors C (hi.subset (hs ▸ mem_append_left ys hm))
      refine ⟨pre, v :: post, hc, rfl, fun w hw => ?_⟩
      rw [hc] at ho
      have hlt := (pairwise_append.mp ho).2.2 w hw v mem_cons_self
      exact UInt64.lt_of_lt_of_le hlt (hx' _ hm)

theorem exists_raw_split (hg : d.get s.id = some file)
    (hr : (s.header.isCompressed || s.header.isEncrypted) = false) (fromId : UInt64) :
    ∃ front pre post, file = front ++ batchBytes C post ∧ startOffset d e fromId = front.length ∧
      s.records = pre ++ post ∧ ∀ v ∈ pre, v.recordId < fromId := by
  obtain ⟨file', hg', -, hd, body, hf, hl, -, ho⟩ := h.file
  obtain ⟨pre, post, hc, hs, hb⟩ := h.startOffset_raw he hr fromId
  refine ⟨hd ++ batchBytes C pre, pre, post, ?_, ?_, hc, hb⟩
  · rw [hg] at hg'
    cases hg'
    rw [append_assoc, ← batchBytes_append, ← hc, ← ho.eq_batchBytes hr]
    exact hf
  · rw [hs, length_append, hl]

omit h in
theorem startOffset_framed (hf : (s.header.isCompressed || s.header.isEncrypted) = true)
    (fromId : UInt64) : startOffset d e fromId = segmentHeaderSize := by
  rw [startOffset, he.2.1, he.2.2, if_pos hf]

theorem iterForSegment_eq (fromId toId : UInt64) : iterForSegment C d keys fromId toId e =
      some ((s.records.map toRecord).filter (inRange fromId toId)) := by
  obtain ⟨file, hg, -, hd, body, hfl, hl, -, hb⟩ := h.file
  have ht := h.fits
  have ho := h.ascending
  unfold iterForSegment
  rw [he.1, hg, Option.map_some, he.2.1, he.2.2]
  congr 1
  by_cases hf : (s.header.isCompressed || s.header.isEncrypted) = true
  · change file = hd ++ body at hfl
    rw [hfl, startOffset_framed he hf, recordIter_stored hl.symm rfl rfl ht hb rfl]
    exact selectRange_of_sorted (pairwise_toRecord ho)
  · obtain ⟨front, pre, post, hs, ha, hc, hbl⟩ :=
      h.exists_raw_split he hg (Bool.eq_false_iff.mpr hf) fromId
    have hk : (pre.map toRecord).filter (inRange fromId toId) = [] := by
      apply filter_eq_nil_iff.mpr
      intro r hr hi
      obtain ⟨v, hv, rfl⟩ := mem_map.mp hr
      exact absurd (hbl v hv) (UInt64.not_lt.mpr (of_decide_eq_true hi).1)
    rw [hc] at ht ho ⊢
    rw [map_append, filter_append, hk, nil_append, ha]
    unfold recordIter
    rw [if_neg (by exact hf),
      rawIterLoop_run post (fun v hv => ht v (mem_append_right pre hv)) _ hs rfl,
      nil_append]
    apply selectRange_of_sorted
    exact pairwise_toRecord (pairwise_append.mp ho).2.1

/-- Searching the file of a segment finds the record with the id, if it is there. -/
theorem readFromOpenFile_eq (recordId : UInt64) (hg : d.get s.id = some file) :
    ∃ found, readFromOpenFile C
        { isCompressed := e.isCompressed
          isEncrypted := e.isEncrypted
          key := keys
          startOffset := startOffset d e recordId
          recordId := recordId } file = .ok found ∧
      ∀ r, found = some r ↔ r.id.sequence = recordId ∧ r ∈ s.records.map toRecord := by
  have ht := h.fits
  have ho := pairwise_toRecord h.ascending
  unfold readFromOpenFile
  simp only [he.2.1, he.2.2]
  by_cases hfr : (s.header.isCompressed || s.header.isEncrypted) = true
  · obtain ⟨file', hg', -, hd, body, hfl, hl, -, hb⟩ := h.file
    rw [hg] at hg'
    cases hg'
    generalize hvs : s.records = views at hb ho
    cases hb with
    | raw _ ha => exact absurd hfr (Bool.eq_false_iff.mp ha)
    | framed frames _ hj =>
      rw [if_pos hfr, startOffset_framed he hfr, ← hl, framesPointLoop_run frames hj hd hfl]
      refine ⟨_, rfl, fun r => ?_⟩
      constructor
      · intro hn
        obtain ⟨f, hf, hr⟩ := exists_of_findSome?_eq_some hn
        obtain ⟨hid, hm⟩ := lookup_eq_some hr
        obtain ⟨v, hv, rfl⟩ := mem_map.mp hm
        exact ⟨hid, mem_map_of_mem (mem_flatMap_of_mem hf hv)⟩
      · rintro ⟨rfl, hm⟩
        obtain ⟨v, hv, rfl⟩ := mem_map.mp hm
        exact findSome_lookup ho hv
  · obtain ⟨front, pre, post, hs, hsa, hc, hbl⟩ :=
      h.exists_raw_split he hg (Bool.eq_false_iff.mpr hfr) recordId
    rw [hc] at ht ho ⊢
    rw [if_neg hfr, hsa, rawPointLoop_run post (fun w hw => ht w (mem_append_right pre hw)) _ hs]
    refine ⟨_, rfl, fun r => ?_⟩
    rw [map_append] at ho ⊢
    constructor
    · intro hn
      obtain ⟨hid, hm⟩ := lookup_eq_some hn
      exact ⟨hid, mem_append_right _ hm⟩
    · rintro ⟨rfl, hm⟩
      rcases mem_append.mp hm with hi | hp
      · obtain ⟨v, hv, rfl⟩ := mem_map.mp hi
        exact absurd (hbl v hv) (UInt64.lt_irrefl _)
      · exact lookup_of_mem (pairwise_append.mp ho).2.1 hp

end HoldsSegment

namespace Holds

theorem manifest_eq (h : Holds C keys d segs) : manifest C d = segs.map entry :=
  manifest_of_isFile h.files

section

variable (h : Holds C keys d segs)
include h

theorem segment (hs : s ∈ segs) : HoldsSegment C keys d s := by
  refine ⟨?_, h.fits s hs, h.ascending s hs, h.indexes s hs⟩
  obtain ⟨front, back, rfl⟩ := append_of_mem hs
  obtain ⟨fs, rest, hg, -, hr⟩ := forall₂_append_inv h.files
  obtain ⟨f, gs, hf, -, rfl⟩ := forall₂_cons_left_iff.mp hr
  have hp : d.segments = fs ++ (s.id, f.2) :: gs := by
    rw [hg, ← hf.1]
  exact ⟨f.2, Disk.get_of_split hp, rfl, hf.2⟩

section

variable (hq : segs.Pairwise fun s t => s.base ≤ t.base)
include hq

/-- Scanning some segments in order gives their records in the range, provided that a segment
whose base lies past the range has nothing in it. -/
theorem scanSegments_eq {fromId toId : UInt64}
    (hp : ∀ s ∈ segs, toId ≤ s.base → ∀ v ∈ s.records, toId ≤ v.recordId)
    (some : List StoredSegment) (hse : some.Sublist segs) :
    scanSegments C d keys fromId toId (some.map entry) =
      (recordsOf some).filter (inRange fromId toId) := by
  have hb := hq.sublist hse
  induction some with
  | nil => rfl
  | cons s some ih =>
    obtain ⟨hs, hrt⟩ := pairwise_cons.mp hb
    have hm : ∀ t ∈ s :: some, t ∈ segs := fun t ht => hse.subset ht
    rw [map_cons, scanSegments]
    by_cases hn : toId ≤ s.base
    · rw [if_pos (show toId ≤ s.entry.baseSequence from hn)]
      symm
      apply filter_eq_nil_iff.mpr
      intro r hr hi
      obtain ⟨t, ht, v, hv, rfl⟩ := mem_recordsOf.mp hr
      have ha : toId ≤ t.base := by
        rcases mem_cons.mp ht with rfl | hl
        · exact hn
        · exact UInt64.le_trans hn (hs t hl)
      exact absurd (of_decide_eq_true hi).2 (UInt64.not_lt.mpr (hp t (hm t ht) ha v hv))
    · rw [if_neg (show ¬ toId ≤ s.entry.baseSequence from hn),
        (h.segment (hm s mem_cons_self)).iterForSegment_eq s.opens,
        ih ((sublist_cons_self s some).trans hse) hrt, ← singleton_append,
        recordsOf_append, filter_append]
      simp [recordsOf]

theorem exists_partition (seq : UInt64) :
    ∃ xs ys, segs = xs ++ ys ∧ (∀ s ∈ xs, s.base ≤ seq) ∧ (∀ s ∈ ys, seq < s.base) ∧
      partitionPoint (fun e : ManifestEntry => decide (e.baseSequence ≤ seq)) (manifest C d) =
        xs.length := by
  have hn : segs.Pairwise fun s t => s.base.toNat ≤ t.base.toNat :=
    hq.imp fun ht => UInt64.le_iff_toNat_le.mp ht
  obtain ⟨xs, ys, hp, hx, hy⟩ := exists_split_of_sorted hn seq.toNat
  have hx' : ∀ s ∈ xs, s.base ≤ seq := fun s hs => UInt64.le_iff_toNat_le.mpr (hx s hs)
  have hy' : ∀ s ∈ ys, seq < s.base := fun s hs => UInt64.lt_iff_toNat_lt.mpr (hy s hs)
  refine ⟨xs, ys, hp, hx', hy', ?_⟩
  rw [h.manifest_eq, hp, map_append, partitionPoint_append, length_map]
  · simpa [entry] using hx'
  · simpa [entry] using hy'

/-- A scan of the directory gives its records in the range, provided also that the segments before
the one it starts at lie below the range. -/
theorem shardScanner_eq {fromId toId : UInt64}
    (hb : segs.Pairwise fun s t => t.base ≤ fromId → ∀ v ∈ s.records, v.recordId < fromId)
    (ht : ∀ s ∈ segs, toId ≤ s.base → ∀ v ∈ s.records, toId ≤ v.recordId) :
    shardScanner C d keys fromId toId = (recordsOf segs).filter (inRange fromId toId) := by
  obtain ⟨xs, ys, ha, hxs, hy, hp⟩ := h.exists_partition hq fromId
  have hl : (recordsOf (segs.take (xs.length - 1))).filter (inRange fromId toId) = [] := by
    apply filter_eq_nil_iff.mpr
    intro r hr hi
    obtain ⟨s, hs, v, hv, rfl⟩ := mem_recordsOf.mp hr
    rcases eq_nil_or_concat' xs with rfl | ⟨front, x, rfl⟩
    · exact absurd hs not_mem_nil
    · rw [length_append, length_singleton, Nat.add_sub_cancel, ha, append_assoc, take_left] at hs
      have hx := hxs x (mem_append_right _ mem_cons_self)
      rw [ha, append_assoc] at hb
      have hlt := (pairwise_append.mp hb).2.2 s hs x mem_cons_self hx v hv
      exact absurd hlt (UInt64.not_lt.mpr (of_decide_eq_true hi).1)
  unfold shardScanner segmentsFrom
  rw [hp, h.manifest_eq, ← map_drop, h.scanSegments_eq hq ht _ (drop_sublist _ _)]
  conv_rhs => rw [← take_append_drop (xs.length - 1) segs]
  rw [recordsOf_append, filter_append, hl, nil_append]

/-- A point read finds the record with the id wherever it is, provided that the bases separate the
segments. -/
theorem read_eq (hfr : ∀ s ∈ segs, ∀ v ∈ s.records, s.base ≤ v.recordId)
    (hc : segs.Pairwise fun s t => ∀ v ∈ s.records, v.recordId < t.base) (recordId : UInt64) :
    ∃ found, read C d keys recordId = .ok found ∧
      ∀ r, found = some r ↔ r.id.sequence = recordId ∧ r ∈ recordsOf segs := by
  obtain ⟨xs, ys, hs, hxs, hy, hp⟩ := h.exists_partition hq recordId
  have hl : ∀ t ∈ ys, ∀ v ∈ t.records, v.recordId ≠ recordId := by
    rintro t ht v hv rfl
    have ha := hfr t (hs ▸ mem_append_right xs ht) v hv
    exact absurd (hy t ht) (UInt64.not_lt.mpr ha)
  rcases eq_nil_or_concat' xs with rfl | ⟨front, x, rfl⟩
  · -- every segment starts behind the id
    have hn : findInCache (manifest C d) recordId = none := by
      simp only [findInCache, hp, length_nil, if_true]
    refine ⟨none, by simp only [read, hn], fun r => ?_⟩
    simp only [reduceCtorEq, false_iff, not_and]
    intro hid hr
    obtain ⟨t, ht, v, hv, rfl⟩ := mem_recordsOf.mp hr
    rw [hs] at ht
    exact hl t ht v hv hid
  · have hn : findInCache (manifest C d) recordId = some x.entry := by
      simp only [findInCache, hp]
      simp [h.manifest_eq, hs]
    have hx : x ∈ segs := by simp [hs]
    obtain ⟨file, hg, -⟩ := (h.segment hx).file
    obtain ⟨found, hd, hf⟩ := (h.segment hx).readFromOpenFile_eq x.opens recordId hg
    refine ⟨found, ?_, fun r => ?_⟩
    · simp only [read, hn, show x.entry.segmentId = x.id from rfl, hg, hd]
    · rw [hf r, mem_recordsOf]
      constructor
      · rintro ⟨hid, hm⟩
        obtain ⟨v, hv, rfl⟩ := mem_map.mp hm
        exact ⟨hid, x, hx, v, hv, rfl⟩
      · rintro ⟨hid, t, ht, v, hv, rfl⟩
        refine ⟨hid, mem_map_of_mem ?_⟩
        rw [hs] at ht hc
        rcases mem_append.mp ht with hj | hb
        · rcases mem_append.mp hj with ho | hsf
          · -- the segments before end below the base that was found
            rw [append_assoc] at hc
            have hlt := (pairwise_append.mp hc).2.2 t ho x mem_cons_self v hv
            have hle := hxs x (mem_append_right _ mem_cons_self)
            have hi : v.recordId = recordId := hid
            rw [hi] at hlt
            exact absurd hlt (UInt64.not_lt.mpr hle)
          · rw [← mem_singleton.mp hsf]
            exact hv
        · exact absurd hid (hl t hb v hv)

end

end

end Holds

end

/-- Merging strictly ascending streams without common ids gives all records, strictly ascending. -/
theorem scanIter_spec (C : Crates) (keys : Option KeyRing) (disks : List Disk)
    (fromId toId : UInt64)
    (hs : ∀ d ∈ disks, (shardScanner C d keys fromId toId).Pairwise
      fun a b => recordKey a < recordKey b)
    (hj : disks.Pairwise fun d e => ∀ a ∈ shardScanner C d keys fromId toId,
      ∀ b ∈ shardScanner C e keys fromId toId, recordKey a ≠ recordKey b) :
    (scanIter C keys disks fromId toId).Perm
        (disks.flatMap fun d => shardScanner C d keys fromId toId) ∧
      (scanIter C keys disks fromId toId).Pairwise fun a b => recordKey a < recordKey b := by
  unfold scanIter
  split
  · rename_i records ho
    obtain ⟨d, rfl, hr⟩ := map_eq_singleton_iff.mp ho
    subst hr
    refine ⟨?_, hs d mem_cons_self⟩
    rw [flatMap_singleton]
  · have hss : ∀ xs ∈ disks.map fun d => shardScanner C d keys fromId toId,
        xs.Pairwise fun a b => recordKey a ≤ recordKey b := by
      intro xs hx
      obtain ⟨d, hd, rfl⟩ := mem_map.mp hx
      exact (hs d hd).imp fun hlt => hlt.le
    obtain ⟨hp, hle⟩ := Merge.drain_new recordKey _ hss
    rw [← flatMap_def] at hp
    refine ⟨hp, ?_⟩
    -- no id occurs twice, so the ascent is strict
    have hne : (disks.flatMap fun d => shardScanner C d keys fromId toId).Pairwise
        fun a b => recordKey a ≠ recordKey b :=
      pairwise_flatMap.mpr ⟨fun d hd => (hs d hd).imp fun hlt => hlt.ne, hj⟩
    have hne' := (hp.pairwise_iff fun ha => Ne.symm ha).mpr hne
    exact (hle.and hne').imp fun ha => lt_of_le_of_ne ha.1 ha.2

end LogDb.Reader
