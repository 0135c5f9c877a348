import LogDb.Reader.Directory
import LogDb.Pipeline.LastSegment
import LogDb.Pipeline.Separated

/-!
The manifest and the scanner of a shard, read off at its abstract log.

Point reads and scans of a shard whose bases separate its segments.
-/

namespace LogDb.Pipeline

open Lib Format Storage Reader List ReadView SegmentHeader Disk LogSegment

section

def LogSegment.entry (C : Crates) (cfg : ShardConfig) (seg : LogSegment) : ManifestEntry where
  segmentId := seg.id
  baseSequence := seg.base
  flags := (seg.header C cfg 0 0).flags

variable {C : Crates} {cfg : ShardConfig} {st : ShardState} {log : Log} {seg : LogSegment}

theorem LogSegment.entry_framed (seg : LogSegment) :
    ((seg.entry C cfg).isCompressed || (seg.entry C cfg).isEncrypted) = cfg.framed :=
  seg.header_framed C cfg 0 0

/-- The stored segment says what the segment of the log says; the times in its header are free. -/
structure LogSegment.IsStored (C : Crates) (cfg : ShardConfig) (seg : LogSegment)
    (s : StoredSegment) : Prop where
  entry_eq : s.entry = seg.entry C cfg
  records_eq : s.records = seg.records

variable {segs : List LogSegment} {fromId toId : UInt64} {s : StoredSegment}

theorem LogSegment.IsStored.base_eq (h : seg.IsStored C cfg s) : s.base = seg.base :=
  congrArg ManifestEntry.baseSequence h.entry_eq

theorem LogSegment.IsStored.id_eq (h : seg.IsStored C cfg s) : s.id = seg.id :=
  congrArg ManifestEntry.segmentId h.entry_eq

theorem exists_stored {files : List (ℕ × Bytes)}
    (hfs : List.Forall₂ (SegmentFile C cfg) segs files) :
    ∃ stored, List.Forall₂ (StoredSegment.IsFile C cfg.encryptionKeys) stored files ∧
      List.Forall₂ (IsStored C cfg) segs stored := by
  induction hfs with
  | nil => exact ⟨[], .nil, .nil⟩
  | @cons seg f segs fs hf _ ih =>
    obtain ⟨stored, hs, hg⟩ := ih
    obtain ⟨hid, minTs, maxTs, body, hfl, hb⟩ := hf
    have hl := serialize_length C (seg.header C cfg minTs maxTs) seg.prevHash
    have hh := deserialize_serialize C (seg.header C cfg minTs maxTs) seg.prevHash
    refine ⟨⟨seg.id, seg.header C cfg minTs maxTs, seg.records⟩ :: stored,
      .cons ⟨hid, _, body, hfl, hl, hh, hb⟩ hs, .cons ⟨rfl, rfl⟩ hg⟩

theorem manifest_of_files {d : Disk} (hf : List.Forall₂ (SegmentFile C cfg) segs d.segments) :
    manifest C d = segs.map (entry C cfg) := by
  obtain ⟨stored, ht, hg⟩ := exists_stored hf
  rw [manifest_of_isFile ht]
  clear ht hf
  induction hg with
  | nil => rfl
  | cons hs _ ih => rw [map_cons, map_cons, hs.entry_eq, ih]

theorem Refines.manifest_eq (h : Refines C cfg st log) :
    manifest C st.disk = log.segments.map (entry C cfg) :=
  manifest_of_files h.files

theorem Refines.holds (h : Refines C cfg st log) (hc : LogShape C cfg log) (hj : LogOrder cfg log) :
    ∃ stored, Holds C cfg.encryptionKeys st.disk stored ∧
      List.Forall₂ (IsStored C cfg) log.segments stored := by
  obtain ⟨stored, ht, hg⟩ := exists_stored h.files
  refine ⟨stored, ⟨ht, ?_, ?_, ?_⟩, hg⟩
  · intro s hs v hv
    obtain ⟨seg, he, heq⟩ := exists_of_forall₂ hg hs
    rw [heq.records_eq] at hv
    exact hc.fits_of_mem (hc.mem_published seg he v hv)
  · intro s hs
    obtain ⟨seg, he, heq⟩ := exists_of_forall₂ hg hs
    rw [heq.records_eq]
    exact hj.segment_sorted hc he
  · intro s hs data hd
    obtain ⟨seg, he, heq⟩ := exists_of_forall₂ hg hs
    rw [heq.id_eq] at hd
    obtain ⟨idx, hl, hi⟩ := h.index_files seg he data hd
    refine ⟨idx, hl, ?_⟩
    rw [heq.records_eq]
    exact hi

theorem recordsOf_stored {stored : List StoredSegment}
    (h : List.Forall₂ (IsStored C cfg) segs stored) :
    recordsOf stored = (segs.flatMap records).map toRecord := by
  unfold recordsOf
  rw [flatMap_eq_of_forall₂ h fun seg _ s hs => hs.records_eq]

section

variable (h : Refines C cfg st log)
include h

theorem Refines.get_segment (he : seg ∈ log.segments) :
    ∃ f, st.disk.get seg.id = some f.2 ∧ SegmentFile C cfg seg f := by
  obtain ⟨front, back, hl⟩ := append_of_mem he
  have hfs := h.files
  rw [hl] at hfs
  obtain ⟨fs, rest, hg, -, hr⟩ := forall₂_append_inv hfs
  obtain ⟨f, gs, hf, -, rfl⟩ := forall₂_cons_left_iff.mp hr
  refine ⟨f, ?_, hf⟩
  have hs : st.disk.segments = fs ++ (seg.id, f.2) :: gs := by
    rw [hg, ← hf.1]
  exact get_of_split hs

theorem Refines.get_raw (hs : seg ∈ log.segments)
    (hr : cfg.framed = false) : ∃ header, header.length = segmentHeaderSize ∧
      st.disk.get seg.id = some (header ++ batchBytes C seg.records) := by
  obtain ⟨f, hg, hf⟩ := h.get_segment hs
  obtain ⟨minTs, maxTs, hr'⟩ := hf.eq_raw hr
  refine ⟨(seg.header C cfg minTs maxTs).serialize C seg.prevHash, ?_, ?_⟩
  · exact serialize_length C _ _
  · rw [hg, hr']

section

variable (hc : LogShape C cfg log) (hj : LogOrder cfg log)
include hc hj

theorem Refines.iterForSegment_eq (he : seg ∈ log.segments) (fromId toId : UInt64) :
    iterForSegment C st.disk cfg.encryptionKeys fromId toId (seg.entry C cfg) =
      some ((seg.records.map toRecord).filter (inRange fromId toId)) := by
  obtain ⟨stored, hh, hg⟩ := h.holds hc hj
  obtain ⟨s, hs, heq⟩ := exists_of_forall₂ hg.flip he
  have hi := (hh.segment hs).iterForSegment_eq s.opens fromId toId
  rwa [heq.entry_eq, heq.records_eq] at hi

/-- A scan of the shard gives its records in the range, provided that the segments before the one
it starts at lie below the range and those whose base lies past it are past it. -/
theorem Refines.shardScanner_eq (hb : log.segments.Pairwise fun s t =>
      t.base ≤ fromId → ∀ v ∈ s.records, v.recordId < fromId)
    (hp : ∀ s ∈ log.segments, toId ≤ s.base → ∀ v ∈ s.records, toId ≤ v.recordId) :
    shardScanner C st.disk cfg.encryptionKeys fromId toId =
      (log.records.map toRecord).filter (inRange fromId toId) := by
  obtain ⟨stored, hh, hg⟩ := h.holds hc hj
  rw [hh.shardScanner_eq, recordsOf_stored hg]
  · rfl
  · refine pairwise_of_forall₂ hg hj.base_mono ?_
    intro x x' y y' hx hx' hle
    rw [hx.base_eq, hx'.base_eq]
    exact hle.1
  · refine pairwise_of_forall₂ hg hb ?_
    intro x x' y y' hx hx' hlt
    rw [hx'.base_eq, hx.records_eq]
    exact hlt
  · intro s hs
    obtain ⟨seg, he, heq⟩ := exists_of_forall₂ hg hs
    rw [heq.base_eq, heq.records_eq]
    exact hp seg he

end

end

theorem LogShape.filter_all (hc : LogShape C cfg log) :
    (log.records.map toRecord).filter (inRange 0 0xFFFFFFFFFFFFFFFF) =
      log.records.map toRecord := by
  apply filter_eq_self.mpr
  intro r hr
  obtain ⟨v, hv, rfl⟩ := mem_map.mp hr
  obtain ⟨s, hs, hvs⟩ := mem_flatMap.mp hv
  exact decide_eq_true ⟨UInt64.le_iff_toNat_le.mpr (Nat.zero_le _),
    hc.recordId_lt_of_mem (hc.mem_published s hs v hvs)⟩

theorem Refines.shardScanner_all (h : Refines C cfg st log) (hc : LogShape C cfg log)
    (hj : LogOrder cfg log) :
    shardScanner C st.disk cfg.encryptionKeys 0 0xFFFFFFFFFFFFFFFF = log.records.map toRecord := by
  rw [h.shardScanner_eq hc hj]
  · exact hc.filter_all
  · -- a later segment with base 0 was created before anything was committed
    apply hj.base_mono.imp
    rintro s t ⟨-, hne⟩ hz v hv
    have ht : t.base = 0 := UInt64.le_zero_iff.mp hz
    exact absurd ht (hne (ne_nil_of_mem hv))
  · intro s hs hx
    have hle := UInt64.le_trans hx (hj.base_le s hs)
    have hlt := hc.recordId_lt_max hc.committed_le
    exact absurd hlt (UInt64.not_lt.mpr hle)

theorem Refines.iterForSegment_cut (h : Refines C cfg st log) (hc : LogShape C cfg log)
    (hj : LogOrder cfg log) (he : seg ∈ log.segments) (hr : cfg.framed = false) {hd : Bytes}
    (hn : hd.length = segmentHeaderSize) (fromId toId : UInt64) :
    iterForSegment C (st.disk.modify seg.id fun _ => hd) cfg.encryptionKeys fromId toId
      (seg.entry C cfg) = some [] := by
  obtain ⟨f, hg, -⟩ := h.get_segment he
  obtain ⟨stored, hh, hsg⟩ := h.holds hc hj
  obtain ⟨s, hs, heq⟩ := exists_of_forall₂ hsg.flip he
  have hl : (s.entry.isCompressed || s.entry.isEncrypted) = false := by
    rw [heq.entry_eq, entry_framed, hr]
  -- the search starts at a record, so behind the header
  obtain ⟨pre, -, -, ha, -⟩ := (hh.segment hs).startOffset_raw s.opens hl fromId
  rw [heq.entry_eq] at ha
  have hg' := get_modify hg fun _ => hd
  have hs' : startOffset (st.disk.modify seg.id fun _ => hd) (seg.entry C cfg) fromId =
      segmentHeaderSize + (batchBytes C pre).length := ha
  unfold iterForSegment
  rw [show (seg.entry C cfg).segmentId = seg.id from rfl, hg', Option.map_some, hs', hn]
  congr 1
  unfold recordIter
  rw [if_neg (by
    rw [entry_framed, hr]
    exact Bool.false_ne_true)]
  apply (rawIterLoop C _ hd).run_of_inr
  exact if_pos (show segmentHeaderSize < segmentHeaderSize + (batchBytes C pre).length + 4 by omega)

theorem mem_scanSegments {d : Disk} {keys : Option KeyRing} {es : List ManifestEntry} {r : Record}
    (h : r ∈ scanSegments C d keys fromId toId es) :
    ∃ e ∈ es, r ∈ (iterForSegment C d keys fromId toId e).getD [] := by
  induction es with
  | nil => exact absurd h not_mem_nil
  | cons e es ih =>
    unfold scanSegments at h
    split_ifs at h with he
    · exact absurd h not_mem_nil
    · rcases mem_append.mp h with hh | hl
      · exact ⟨e, mem_cons_self, hh⟩
      · obtain ⟨e', he', hr⟩ := ih hl
        exact ⟨e', mem_cons_of_mem e he', hr⟩

theorem Refines.ids_sorted (h : Refines C cfg st log) :
    log.segments.Pairwise fun s t => s.id < t.id := by
  have hfs := h.files
  have hs := st.disk.sorted
  generalize log.segments = segs at hfs
  generalize st.disk.segments = files at hfs hs
  induction hfs with
  | nil => exact .nil
  | @cons s f segs fs hf hrt ih =>
    obtain ⟨hlt, hs'⟩ := pairwise_cons.mp hs
    refine pairwise_cons.mpr ⟨fun t ht => ?_, ih hs'⟩
    obtain ⟨g, hg, hgt⟩ := exists_of_forall₂ hrt.flip ht
    rw [← hf.1, ← hgt.1]
    exact hlt g hg

/-- After the last segment was cut back to its header, a scan only finds records of the others. -/
theorem Refines.mem_shardScanner_cut (h : Refines C cfg st log) (hc : LogShape C cfg log)
    (hj : LogOrder cfg log) {front : List LogSegment} (hl : log.segments = front ++ [seg])
    (ha : cfg.framed = false) {minTs maxTs : UInt64} {r : Record} (hr : r ∈ shardScanner C
      (st.disk.modify seg.id fun _ => (seg.header C cfg minTs maxTs).serialize C seg.prevHash)
      cfg.encryptionKeys fromId toId) :
    r ∈ (front.flatMap records).map toRecord := by
  have hb := serialize_length C (seg.header C cfg minTs maxTs) seg.prevHash
  set hd := (seg.header C cfg minTs maxTs).serialize C seg.prevHash
  obtain ⟨fs, f, hg, ht, hf⟩ := h.last_file hl
  have hp : st.disk.segments = fs ++ (seg.id, f.2) :: [] := by
    rw [hg, ← hf.1]
  have hk : manifest C (st.disk.modify seg.id fun _ => hd) =
      (front ++ [seg]).map (entry C cfg) := by
    have hq : SegmentFile C cfg { seg with records := [] } (seg.id, hd) :=
      segmentFile_empty rfl minTs maxTs
    have hfs : List.Forall₂ (SegmentFile C cfg) (front ++ [{ seg with records := [] }])
        (st.disk.modify seg.id fun _ => hd).segments := by
      rw [modify_of_split hp]
      exact rel_append ht (.cons hq .nil)
    rw [manifest_of_files hfs, map_append, map_append]
    rfl
  obtain ⟨e, he, hre⟩ := mem_scanSegments hr
  have hn := mem_of_mem_drop he
  rw [hk] at hn
  obtain ⟨s, hs, rfl⟩ := mem_map.mp hn
  have hm : s ∈ log.segments := by rwa [hl]
  rcases mem_append.mp hs with ho | hls
  · have hne : (s.entry C cfg).segmentId ≠ seg.id := by
      have hi := h.ids_sorted
      rw [hl] at hi
      exact ((pairwise_append.mp hi).2.2 s ho seg mem_cons_self).ne
    unfold iterForSegment at hre
    rw [get_modify_ne st.disk hne] at hre
    change r ∈ (iterForSegment C st.disk _ _ _ _).getD [] at hre
    rw [h.iterForSegment_eq hc hj hm] at hre
    obtain ⟨v, hv, rfl⟩ := mem_map.mp (mem_filter.mp hre).1
    exact mem_map_of_mem (mem_flatMap_of_mem ho hv)
  · rw [mem_singleton.mp hls, h.iterForSegment_cut hc hj (mem_singleton.mp hls ▸ hm) ha hb] at hre
    exact absurd hre not_mem_nil

end

variable {C : Crates} {cfg : ShardConfig} {st : ShardState} {log : Log} {seg : LogSegment}

section

variable (h : Refines C cfg st log) (ha : LogShape C cfg log) (ho : LogOrder cfg log)
include h ha ho

theorem Refines.read_eq (he : LogSeparated log) {v : ReadView} (hv : v ∈ log.records) :
    Reader.read C st.disk cfg.encryptionKeys v.recordId = .ok (some v.toRecord) := by
  obtain ⟨stored, hh, hg⟩ := h.holds ha ho
  have hn : stored.Pairwise fun s t => s.base ≤ t.base := by
    refine pairwise_of_forall₂ hg ho.base_mono ?_
    intro x x' y y' hx hx' hle
    rw [hx.base_eq, hx'.base_eq]
    exact hle.1
  have hfr : ∀ s ∈ stored, ∀ w ∈ s.records, s.base ≤ w.recordId := by
    intro s hs
    obtain ⟨seg, hb, heq⟩ := exists_of_forall₂ hg hs
    rw [heq.base_eq, heq.records_eq]
    exact he.floor seg hb
  have hc : stored.Pairwise fun s t => ∀ w ∈ s.records, w.recordId < t.base := by
    refine pairwise_of_forall₂ hg he.ceiling ?_
    intro x x' y y' hx hx' hlt
    rw [hx'.base_eq, hx.records_eq]
    exact hlt
  obtain ⟨found, hr, hf⟩ := hh.read_eq hn hfr hc v.recordId
  have hm : v.toRecord ∈ recordsOf stored := by
    rw [recordsOf_stored hg]
    exact List.mem_map_of_mem hv
  rw [hr, (hf v.toRecord).mpr ⟨rfl, hm⟩]

theorem Refines.read_empty (hb : seg ∈ log.segments) (he : seg.records = []) {recordId : UInt64}
    (hfn : findInCache (manifest C st.disk) recordId = some (seg.entry C cfg)) :
    Reader.read C st.disk cfg.encryptionKeys recordId = .ok none := by
  obtain ⟨stored, hh, hsg⟩ := h.holds ha ho
  obtain ⟨s, hs, heq⟩ := exists_of_forall₂ hsg.flip hb
  obtain ⟨file, hg, -⟩ := (hh.segment hs).file
  obtain ⟨found, hd, hf⟩ := (hh.segment hs).readFromOpenFile_eq s.opens recordId hg
  have hn : found = none := by
    apply Option.eq_none_iff_forall_ne_some.mpr
    intro r hr
    have hm := ((hf r).mp hr).2
    rw [heq.records_eq, he] at hm
    exact absurd hm List.not_mem_nil
  rw [heq.id_eq] at hg
  rw [heq.entry_eq, hn] at hd
  unfold Reader.read
  rw [hfn]
  simp only [show (seg.entry C cfg).segmentId = seg.id from rfl, hg, hd]

theorem Refines.shardScanner_separated (he : LogSeparated log) (fromId toId : UInt64) :
    shardScanner C st.disk cfg.encryptionKeys fromId toId =
      (log.records.map ReadView.toRecord).filter (inRange fromId toId) := by
  apply h.shardScanner_eq ha ho
  · apply he.ceiling.imp
    intro s t ht hb v hv
    exact UInt64.lt_of_lt_of_le (ht v hv) hb
  · intro s hs hb v hv
    exact UInt64.le_trans hb (he.floor s hs v hv)

end

end LogDb.Pipeline
