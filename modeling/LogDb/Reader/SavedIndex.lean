import LogDb.Lib.Transition
import LogDb.Reader.Exact

/-!
The index file of a raw segment while batches are appended: whatever was saved of the index before,
and however little of it reached the file, it does not change what is read.
-/

namespace LogDb.Reader

open Lib Format Storage List Option SegmentManager SegmentHeader Disk

variable {d : Disk} {m : SegmentManager} {n next : ℕ}

/-- A segment that is given the published records from `next` on. -/
structure RawWriter where
  next : ℕ
  mgr : SegmentManager
  disk : Disk

namespace RawWriter

/-- Call `append_batch` for the next `count` records. -/
def call (C : Crates) (views : List ReadView) (w : RawWriter) (count : ℕ) (nonce : Nonce) :
    Except SegmentError ℕ × SegmentManager × Disk :=
  w.mgr.appendBatch C w.disk nonce w.next ((views.drop w.next).take count)

/-- A call without a fault says how far it came, or that the segment is full. -/
inductive Step (C : Crates) (views : List ReadView) (w : RawWriter) : RawWriter → Prop where
  | append (count next : ℕ) (nonce : Nonce) (h : (w.call C views count nonce).1 = .ok next) :
      Step C views w ⟨next, (w.call C views count nonce).2.1, (w.call C views count nonce).2.2⟩
  | full (count : ℕ) (nonce : Nonce) (h : (w.call C views count nonce).1 = .error .full) :
      Step C views w ⟨w.next, (w.call C views count nonce).2.1, (w.call C views count nonce).2.2⟩

/-- The active segment is raw and holds the records given so far, with no index file; when none was
given, it is a fresh segment. -/
structure Stored (C : Crates) (views : List ReadView) (id : ℕ) (w : RawWriter) : Prop where
  id_eq : w.mgr.active.id = id
  raw : (w.mgr.active.compressed || w.mgr.encryptionKeys.isSome) = false
  size_lt : w.mgr.segmentSize < 2 ^ 64
  file : ∃ hdr header, w.disk.get id = some (hdr ++ batchBytes C (views.take w.next)) ∧
    hdr.length = segmentHeaderSize ∧ deserialize C hdr = .ok header ∧
    (header.isCompressed || header.isEncrypted) = false
  noIndex : w.disk.indexes id = none
  offset_eq : w.mgr.active.offset = segmentHeaderSize + (batchBytes C (views.take w.next)).length
  offset_lt : w.mgr.active.offset < 2 ^ 64
  index : ∀ idx ∈ w.mgr.activeIndex,
    idx.entries.Sublist (anchors segmentHeaderSize (views.take w.next))

section

variable {C : Crates} {views : List ReadView} {id : ℕ} {w w' : RawWriter}

theorem Stored.prepare (h : Stored C views id ⟨n, m, d⟩) (seq : ℕ) :
    Stored C views id ⟨n, (m.maybePrepareNext C d seq).2.1, (m.maybePrepareNext C d seq).2.2⟩ := by
  unfold maybePrepareNext
  split_ifs
  · exact h
  · exact h
  · simp only
    split
    · exact h
    · next seg created hc =>
      obtain ⟨d', hd', hp⟩ := map_eq_some_iff.mp hc
      cases hp
      obtain ⟨hd, header, hf, hh⟩ := h.file
      have hg := get_create hd' id
      unfold Disk.create at hd'
      split_ifs at hd' with hn
      cases hd'
      rw [if_neg (hn _ (mem_of_get hf))] at hg
      exact { h with file := ⟨hd, header, hg.trans hf, hh⟩ }

private theorem eq_of_map_ok {r : Except SegmentError Unit}
    (h : (r.map fun _ => n) = .ok next) : n = next := by
  cases r with
  | error e => cases h
  | ok u =>
    cases h
    rfl

theorem Stored.append {count : ℕ}
    (h : Stored C views id ⟨n, m, d⟩) (nonce : Nonce) (hne : (views.drop n).take count ≠ [])
    (hok : (call C views ⟨n, m, d⟩ count nonce).1 = .ok next) :
    n ≤ next ∧ Stored C views id ⟨next, (call C views ⟨n, m, d⟩ count nonce).2.1,
      (call C views ⟨n, m, d⟩ count nonce).2.2⟩ := by
  set batch := (views.drop n).take count with hb
  unfold call at hok ⊢
  simp only [← hb] at hok ⊢
  cases hi : fill C m n batch
      (.start m n) with
  | error e => simp [appendBatch, hi] at hok
  | ok st =>
    obtain ⟨k, hf, hp⟩ := fill_spec hi rfl
    have hk := hp rfl hne
    have ht : views.take (n + k) = views.take n ++ batch.take k := by
      have hle := hf.le
      rw [hb, length_take] at hle
      rw [take_add, hb, take_take, min_eq_left (by omega)]
    obtain ⟨hd, header, hfl, hh⟩ := h.file
    obtain ⟨front, back, hs⟩ := exists_split_of_get hfl
    have ho : m.active.offset = _ := h.offset_eq
    obtain rfl := h.id_eq
    obtain ⟨d', hsg, hx, ha⟩ := appendBatch_filled nonce hi hf
      hk hs (by rw [length_append, hh.1]; exact ho)
    have hc : m.addedBytes C nonce (batchBytes C (batch.take k)) =
        batchBytes C (batch.take k) := by
      rw [addedBytes, if_neg (by simp [h.raw])]
    rw [hc, append_assoc, ← batchBytes_append, ← ht] at hsg ha
    rw [ha] at hok ⊢
    obtain rfl := eq_of_map_ok hok
    refine ⟨Nat.le_add_right n k, Stored.prepare ?_ _⟩
    have hm := hf.active_eq
    have hg := hf.index
    have hr := hf.room hk
    have hz := h.size_lt
    simp only [length_nil, add_zero, ho] at hg
    rw [hf.buf_eq, nil_append, ho, add_assoc, ← length_append, ← batchBytes_append, ← ht] at hr
    have hl : (hd ++ batchBytes C (views.take (n + k))).length =
        segmentHeaderSize + (batchBytes C (views.take (n + k))).length := by
      rw [length_append, hh.1]
    constructor
    · exact hm.id_eq
    · rw [← h.raw]
      simp only [hm.compressed_eq]
    · exact hz
    · exact ⟨hd, header, get_of_split hsg, hh⟩
    · exact (congrFun hx _).trans h.noIndex
    · exact hl
    · exact (hl.le.trans hr).trans_lt hz
    · rw [ht]
      exact hg.sublist h.index

section

variable (h : Stored C views id w)
include h

theorem Stored.step (hs : Step C views w w') : Stored C views id w' ∧ w.next ≤ w'.next := by
  obtain ⟨n, m, d⟩ := w
  cases hs with
  | full count nonce hf =>
    -- only the filling of the buffer finds the segment full, before anything is changed
    refine ⟨?_, le_rfl⟩
    have hm : (call C views ⟨n, m, d⟩ count nonce).2 = (m, d) := by
      unfold call appendBatch at hf ⊢
      simp only at hf ⊢
      split at hf
      · rfl
      · unfold maybePrepareNext at hf
        simp only at hf
        split_ifs at hf
        · cases hf
        · cases hf
        · split at hf
          · cases hf
          · cases hf
    rw [hm]
    exact h
  | append count next nonce hok =>
    by_cases hne : (views.drop n).take count = []
    · have hc : call C views ⟨n, m, d⟩ count nonce =
          ((m.maybePrepareNext C d n).1.map fun _ => n, (m.maybePrepareNext C d n).2) := by
        unfold call
        simp only [hne]
        rfl
      rw [hc] at hok ⊢
      obtain rfl := eq_of_map_ok hok
      exact ⟨h.prepare n, le_rfl⟩
    · exact (h.append nonce hne hok).symm

theorem Stored.run (hr : Relation.ReflTransGen (Step C views) w w') :
    Stored C views id w' ∧ w.next ≤ w'.next := by
  apply invariant_of_steps (P := fun s => Stored C views id s ∧ w.next ≤ s.next) hr ⟨h, le_rfl⟩
  intro a b ha hs
  obtain ⟨hb, hle⟩ := ha.1.step hs
  exact ⟨hb, ha.2.trans hle⟩

/-- What was saved of the index is about records that are still there. -/
theorem Stored.saved (hl : w.next ≤ w'.next) {data : Bytes}
    (ha : (w.mgr.saveActiveIndex w.disk).indexes id = some data) :
    ∃ idx : SparseIndex, data = idx.save ∧ (∀ e ∈ idx.entries, e.fileOffset < 2 ^ 64) ∧
      idx.entries.Sublist (anchors segmentHeaderSize (views.take w'.next)) := by
  unfold saveActiveIndex at ha
  split at ha
  · next idx hx =>
    split_ifs at ha
    · cases h.noIndex.symm.trans ha
    · rw [h.id_eq, writeIndex_self] at ha
      cases ha
      have hs := h.index idx hx
      refine ⟨idx, rfl, fun e he => ?_, hs.trans ?_⟩
      · have hlt := anchor_lt (C := C) (hs.subset he)
        rw [← h.offset_eq] at hlt
        exact hlt.trans h.offset_lt
      · obtain ⟨rest, hr⟩ := take_prefix_take_left hl (l := views)
        rw [← hr, anchors_append C]
        exact sublist_append_left _ _
  · cases h.noIndex.symm.trans ha

end

/-- An index file beside a raw segment is only used when at least its stride can be read. -/
theorem startOffset_writeIndex (hn : d.indexes id = none) (data : Bytes) (e : ManifestEntry) :
    (∀ fromId, startOffset (d.writeIndex id data) e fromId = startOffset d e fromId) ∨
      e.segmentId = id ∧ (e.isCompressed || e.isEncrypted) = false ∧ 4 ≤ data.length := by
  by_cases hid : e.segmentId = id
  · by_cases ha : (e.isCompressed || e.isEncrypted) = true
    · exact .inl fun fromId => by simp only [startOffset, if_pos ha]
    · by_cases hl : data.length < 4
      · left
        intro fromId
        simp only [startOffset, hid, writeIndex_self, hn, SparseIndex.load, if_pos hl]
      · exact .inr ⟨hid, Bool.eq_false_iff.mpr ha, not_lt.mp hl⟩
  · left
    intro fromId
    simp only [startOffset, writeIndex, if_neg hid]

/-- However the records were split into batches, any part of the index that was saved earlier, put
beside the segment as it is now, leaves point reads and scans as they are without it. -/
theorem saved_index_harmless (hfits : ∀ v ∈ views, v.Fits)
    (hascending : views.Pairwise fun v w => v.recordId < w.recordId) (h : Stored C views id w)
    {w₁ w₂ : RawWriter} (hearlier : Relation.ReflTransGen (Step C views) w w₁)
    (hlater : Relation.ReflTransGen (Step C views) w₁ w₂) {data : Bytes}
    (hsaved : (w₁.mgr.saveActiveIndex w₁.disk).indexes id = some data) (n : ℕ)
    (keys : Option KeyRing) :
    (∀ recordId, read C (w₂.disk.writeIndex id (data.take n)) keys recordId =
      read C w₂.disk keys recordId) ∧
    ∀ fromId toId e, iterForSegment C (w₂.disk.writeIndex id (data.take n)) keys fromId toId e =
      iterForSegment C w₂.disk keys fromId toId e := by
  obtain ⟨h₁, -⟩ := h.run hearlier
  obtain ⟨h₂, hle⟩ := h₁.run hlater
  obtain ⟨idx, rfl, hsm, hs⟩ := h₁.saved hle hsaved
  obtain ⟨hdr, header, hfl, hl, hh, hr⟩ := h₂.file
  set s : StoredSegment := ⟨id, header, views.take w₂.next⟩
  have hhl : ∀ d : Disk, d.get = w₂.disk.get →
      (∀ data, d.indexes id = some data → s.HasIndex data) → HoldsSegment C keys d s := by
    intro d hg hi
    refine ⟨⟨_, hg ▸ hfl, rfl, hdr, _, rfl, hl, hh, .raw _ hr⟩, ?_, ?_, hi⟩
    · exact fun v hv => hfits v (mem_of_mem_take hv)
    · exact hascending.sublist (take_sublist _ _)
  set d := w₂.disk.writeIndex id (idx.save.take n) with hd
  have hw : HoldsSegment C keys w₂.disk s := by
    refine hhl _ rfl fun data ha => ?_
    cases h₂.noIndex.symm.trans ha
  have hc : ∀ e : ManifestEntry, (∀ fromId, startOffset d e fromId = startOffset w₂.disk e fromId) ∨
        e.Opens s ∧ HoldsSegment C keys d s := by
    intro e
    refine (startOffset_writeIndex h₂.noIndex (idx.save.take n) e).imp_right ?_
    rintro ⟨hid, hy, hl⟩
    obtain ⟨hm, hec⟩ := Bool.or_eq_false_iff.mp hr
    obtain ⟨hc', he'⟩ := Bool.or_eq_false_iff.mp hy
    refine ⟨⟨hid, hc'.trans hm.symm, he'.trans hec.symm⟩, hhl d rfl fun data ha => ?_⟩
    rw [hd, writeIndex_self] at ha
    cases ha
    rw [length_take] at hl
    exact ⟨_, idx.load_take_save hsm (by omega), (take_sublist _ _).trans hs⟩
  constructor
  · intro recordId
    unfold read
    rw [show manifest C d = manifest C w₂.disk from rfl, show d.get = w₂.disk.get from rfl]
    cases findInCache (manifest C w₂.disk) recordId with
    | none => rfl
    | some e =>
      cases hg : w₂.disk.get e.segmentId with
      | none => simp only [hg]
      | some file =>
        simp only [hg]
        rcases hc e with he | ⟨ho, hwh⟩
        · rw [he]
        · rw [ho.1] at hg
          obtain ⟨found, hrd, hf⟩ := hwh.readFromOpenFile_eq ho recordId hg
          obtain ⟨found', hr', hf'⟩ := hw.readFromOpenFile_eq ho recordId hg
          rw [hrd, hr']
          exact congrArg _ (ext fun r => (hf r).trans (hf' r).symm)
  · intro fromId toId e
    rcases hc e with he | ⟨ho, hwh⟩
    · unfold iterForSegment
      rw [he]
      rfl
    · rw [hwh.iterForSegment_eq ho, hw.iterForSegment_eq ho]

end

def firstWriter : RawWriter where
  next := 0
  mgr := (SegmentManager.openExisting 1 segmentHeaderSize (pairSegment 0).header 4096 zeros32
    zeros32 false none .keepAll).setIndexStride 1
  disk :=
    { segments := [(1, (pairSegment 0).header.serialize rawCrates zeros32)]
      sorted := pairwise_singleton _ _
      indexes _ := none }

theorem stored_firstWriter : Stored rawCrates [pairView 0] 1 firstWriter where
  id_eq := rfl
  raw := rfl
  size_lt := by decide
  file := ⟨(pairSegment 0).header.serialize rawCrates zeros32, (pairSegment 0).header,
    congrArg some (append_nil _).symm, serialize_length _ _ _,
    deserialize_serialize _ _ _, rfl⟩
  noIndex := rfl
  offset_eq := rfl
  offset_lt := by decide
  index idx hx := by
    cases hx
    exact nil_sublist _

theorem saved_index_harmless_first : ∃ w data, Step rawCrates [pairView 0] firstWriter w ∧
      (w.mgr.saveActiveIndex w.disk).indexes 1 = some data ∧
      read rawCrates (w.disk.writeIndex 1 (data.take 17)) none 0 =
        read rawCrates w.disk none 0 := by
  have hs : Step rawCrates [pairView 0] firstWriter _ := .append 1 1 ⟨replicate 12 0, rfl⟩ rfl
  refine ⟨_, _, hs, rfl, ?_⟩
  exact (saved_index_harmless ((shardDirectory_pair 0).fits _ mem_cons_self)
    (pairwise_singleton _ _) stored_firstWriter (.single hs) .refl rfl 17 none).1 0

end RawWriter

end LogDb.Reader
