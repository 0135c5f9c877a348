import LogDb.Lib.Transition
import LogDb.Storage.Layout

/-!
The time range of a segment: kept in memory while records are appended, written into the header by
a backfill, and taken from the header when the segment is opened again.
-/

namespace LogDb.Storage

open Lib Format List SegmentHeader Disk SegmentManager ActiveSegment

/-- The least and the greatest of the timestamps; what a new segment starts with if there are
none. -/
structure IsRange (minTs maxTs : UInt64) (ts : List UInt64) : Prop where
  empty : ts = [] → minTs = 0xFFFFFFFFFFFFFFFF ∧ maxTs = 0
  mem : ts ≠ [] → minTs ∈ ts ∧ maxTs ∈ ts
  bounds : ∀ t ∈ ts, minTs ≤ t ∧ t ≤ maxTs

/-- A segment since its creation, with the timestamps of all records appended to it; `saved` of
them were there when its header was last written. -/
structure SegmentLife where
  mgr : SegmentManager
  disk : Disk
  ts : List UInt64
  saved : ℕ

inductive LifeEvent where
  | append (nonce : Nonce) (first : ℕ) (views : List ReadView)
  | backfill
  | reopen (mgr : SegmentManager)

/-- The records that a call of `append_batch` puts into the segment. -/
def writtenViews (C : Crates) (m : SegmentManager) (first : ℕ) (views : List ReadView) :
    List ReadView :=
  match fill C m first views (.start m first) with
  | .ok st => views.take (st.next - first)
  | .error _ => []

namespace SegmentLife

def Created (C : Crates) (w : SegmentLife) : Prop :=
  ∃ d header lastHash compressed, header.minTimestampNs = 0xFFFFFFFFFFFFFFFF ∧
    header.maxTimestampNs = 0 ∧ ActiveSegment.create C d w.mgr.activeId header lastHash compressed =
      some (w.mgr.active, w.disk) ∧ w.ts = [] ∧ w.saved = 0

inductive Trans (C : Crates) (w : SegmentLife) : LifeEvent → SegmentLife → Prop where
  | append (nonce : Nonce) (first : ℕ) (views : List ReadView) :
      Trans C w (.append nonce first views) {
        mgr := (w.mgr.appendBatch C w.disk nonce first views).2.1
        disk := (w.mgr.appendBatch C w.disk nonce first views).2.2
        ts := w.ts ++ (writtenViews C w.mgr first views).map ReadView.timestampNs
        saved := w.saved }
  | backfill :
      Trans C w .backfill
        { w with disk := w.mgr.active.backfillHeaderTs C w.disk, saved := w.ts.length }
  | reopen (mgr : SegmentManager) (header : SegmentHeader) (id size : ℕ)
      (hid : w.mgr.active.id = id) (hsize : (w.disk.get id).map length = some size)
      (hheader : readSegmentHeaderById C w.disk id = some header) (hnew : mgr.activeId = id)
      (hactive : mgr.active = .openExisting id size header) :
      Trans C w (.reopen mgr) { w with mgr := mgr }

/-- The segment is only opened again when its header covers all of its records. -/
def Covered (w : SegmentLife) : LifeEvent → Prop
  | .reopen _ => w.saved = w.ts.length
  | _ => True

structure Ranged (C : Crates) (w : SegmentLife) : Prop where
  id_eq : w.mgr.activeId = w.mgr.active.id
  saved_le : w.saved ≤ w.ts.length
  range : IsRange w.mgr.active.minTs w.mgr.active.maxTs w.ts
  file : ∃ (header : SegmentHeader) (lastHash : Bytes32) (body : Bytes),
    w.disk.get w.mgr.active.id = some (header.serialize C lastHash ++ body) ∧
      w.mgr.active.offset = (header.serialize C lastHash ++ body).length ∧
      IsRange header.minTimestampNs header.maxTimestampNs (w.ts.take w.saved)

end SegmentLife

variable {C : Crates} {m : SegmentManager} {d : Disk} {ts : List UInt64} {w w' : SegmentLife}

theorem IsRange.updateTsRange {seg : ActiveSegment} (h : IsRange seg.minTs seg.maxTs ts)
    (t : UInt64) : IsRange (seg.updateTsRange t).minTs (seg.updateTsRange t).maxTs (ts ++ [t]) := by
  have hm : t ≤ 0xFFFFFFFFFFFFFFFF := UInt64.le_iff_toNat_le.mpr (Nat.le_of_lt_succ t.toNat_lt)
  have hz : 0 ≤ t := UInt64.le_iff_toNat_le.mpr (Nat.zero_le _)
  obtain ⟨he, hi, hb⟩ := h
  simp only [ActiveSegment.updateTsRange]
  refine ⟨fun h => by simp at h, fun _ => ?_, fun x hx => ?_⟩
  · simp only [mem_append, mem_singleton]
    by_cases hn : ts = []
    · simp only [he hn]
      grind
    · grind
  · simp only [mem_append, mem_singleton] at hx
    grind

theorem fill_range {seq : ℕ} {views : List ReadView} {st st' : BatchFill}
    (h : fill C m seq views st = .ok st') (hr : IsRange st.active.minTs st.active.maxTs ts)
    (hn : st.next = seq) : ∃ k, st'.next = seq + k ∧ IsRange st'.active.minTs st'.active.maxTs
        (ts ++ (views.take k).map ReadView.timestampNs) := by
  induction views generalizing seq st ts with
  | nil =>
    cases h
    exact ⟨0, hn, by simpa using hr⟩
  | cons v vs ih =>
    unfold fill at h
    split_ifs at h
    · obtain ⟨k, hk, hr⟩ := ih h (hr.updateTsRange v.timestampNs) rfl
      exact ⟨k + 1, by omega, by simpa using hr⟩
    · cases h
      exact ⟨0, hn, by simpa using hr⟩

theorem maybePrepareNext_active (hid : m.activeId = m.active.id) (next : ℕ) :
    (m.maybePrepareNext C d next).2.1.active = m.active ∧
      (m.maybePrepareNext C d next).2.1.activeId = m.activeId ∧
      (m.maybePrepareNext C d next).2.2.get m.active.id = d.get m.active.id := by
  unfold maybePrepareNext
  split_ifs
  · exact ⟨rfl, rfl, rfl⟩
  · exact ⟨rfl, rfl, rfl⟩
  · simp only
    split
    · exact ⟨rfl, rfl, rfl⟩
    · next seg created hc =>
      obtain ⟨d', hd, hp⟩ := Option.map_eq_some_iff.mp hc
      cases hp
      refine ⟨rfl, rfl, ?_⟩
      rw [get_create hd, if_neg (hid ▸ m.nextId_ne.symm)]

theorem writeBatch_file (nonce : Nonce) {st : BatchFill} {file : Bytes}
    (hs : SameFile st.active m.active) (hg : d.get m.active.id = some file)
    (ho : m.active.offset = file.length) :
    ∃ added, (writeBatch C m d nonce st).2.get m.active.id = some (file ++ added) ∧
      (writeBatch C m d nonce st).1.active = { st.active with offset := (file ++ added).length } ∧
      (writeBatch C m d nonce st).1.activeId = m.activeId := by
  by_cases hb : st.buf = []
  · refine ⟨[], ?_⟩
    simp [writeBatch, hb, hg, ← ho, ← hs.offset_eq]
  · obtain ⟨change, hd, hc, hm⟩ := writeBatch_modify (C := C) (d := d) nonce hb hs
    refine ⟨addedBytes C m nonce st.buf, ?_⟩
    rw [hd, get_modify hg, hc _ ho.symm, hm, ho, length_append]
    exact ⟨rfl, rfl, rfl⟩

theorem readSegmentHeaderById_serialize {id : ℕ} {header : SegmentHeader} {lastHash : Bytes32}
    {body : Bytes} (h : d.get id = some (header.serialize C lastHash ++ body)) :
    readSegmentHeaderById C d id = some { header with prevLastHash := lastHash } := by
  have hl := serialize_length C header lastHash
  simp [readSegmentHeaderById, h, hl, field_zero, take_left' hl, deserialize_serialize,
    Except.toOption]

namespace SegmentLife

theorem Ranged.append (h : Ranged C w) {nonce : Nonce} {first : ℕ} {views : List ReadView}
    (ht : Trans C w (.append nonce first views) w') : Ranged C w' := by
  cases ht
  unfold appendBatch writtenViews
  cases hf : fill C w.mgr first views (.start w.mgr first) with
  | error e => simpa using h
  | ok st =>
    obtain ⟨header, lastHash, body, hg, ho, hs⟩ := h.file
    obtain ⟨k, hk, hr⟩ := fill_range hf h.range rfl
    obtain ⟨_, hd, -⟩ := fill_spec hf rfl
    obtain ⟨added, hw, ha, hi⟩ := writeBatch_file (C := C) nonce hd.active_eq hg ho
    have hid : (writeBatch C w.mgr w.disk nonce st).1.activeId =
        (writeBatch C w.mgr w.disk nonce st).1.active.id := by
      rw [hi, ha, h.id_eq]
      exact hd.active_eq.id_eq.symm
    obtain ⟨hp, hpi, hpg⟩ := maybePrepareNext_active (C := C)
      (d := (writeBatch C w.mgr w.disk nonce st).2) hid st.next
    rw [← hid, hi, h.id_eq, hw] at hpg
    refine ⟨?_, ?_, ?_, header, lastHash, body ++ added, ?_, ?_, ?_⟩
    · simp only [hp, hpi, hid]
    · simpa using Nat.le_add_right_of_le h.saved_le
    · simp only [hp, ha]
      rwa [hk, Nat.add_sub_cancel_left]
    · simp only [hp, ← hid, hi, h.id_eq, hpg, append_assoc]
    · simp only [hp, ha, append_assoc]
    · rwa [take_append_of_le_length h.saved_le]

theorem Ranged.backfill (h : Ranged C w) (ht : Trans C w .backfill w') : Ranged C w' := by
  cases ht
  obtain ⟨header, lastHash, body, hg, ho, hs⟩ := h.file
  refine ⟨h.id_eq, le_rfl, h.range, { header with
    minTimestampNs := w.mgr.active.minTs, maxTimestampNs := w.mgr.active.maxTs }, lastHash, body,
    ?_, ?_, ?_⟩
  · rw [← backfill_serialize]
    exact get_modify hg _
  · rw [ho, length_append, length_append, serialize_length, serialize_length]
  · rw [take_length]
    exact h.range

theorem Ranged.step {ev : LifeEvent} (h : Ranged C w) (hc : w.Covered ev) (ht : Trans C w ev w') :
    Ranged C w' := by
  cases ev with
  | append nonce first views => exact h.append ht
  | backfill => exact h.backfill ht
  | reopen mgr =>
    cases ht with
    | reopen _ found id size hid hz hh hn ha =>
    obtain ⟨header, lastHash, body, hg, ho, hs⟩ := h.file
    rw [hid] at hg
    rw [readSegmentHeaderById_serialize hg, Option.some.injEq] at hh
    rw [hg, Option.map_some, Option.some.injEq] at hz
    subst hh hz
    have hr : IsRange header.minTimestampNs header.maxTimestampNs w.ts := by
      rwa [show w.saved = w.ts.length from hc, take_length] at hs
    refine ⟨?_, h.saved_le, ha ▸ hr, header, lastHash, body, ?_, ?_, hs⟩
    · rw [hn, ha, ActiveSegment.openExisting]
    · rw [ha]
      exact hg
    · rw [ha, ActiveSegment.openExisting]

theorem Created.ranged (h : w.Created C) : Ranged C w := by
  obtain ⟨d, header, lastHash, compressed, hi, hm, hc, ht, hs⟩ := h
  obtain ⟨d', hd, hp⟩ := Option.map_eq_some_iff.mp hc
  obtain ⟨ha, rfl⟩ := Prod.mk.inj hp
  have hr : IsRange 0xFFFFFFFFFFFFFFFF 0 w.ts := by
    rw [ht]
    exact ⟨fun _ => ⟨rfl, rfl⟩, fun h => absurd rfl h, fun _ h => absurd h not_mem_nil⟩
  refine ⟨by rw [← ha], by simp [hs], by rw [← ha]; exact hr, header, lastHash, [], ?_, ?_, ?_⟩
  · rw [← ha, get_create hd, if_pos rfl, append_nil]
  · rw [← ha, append_nil, serialize_length]
  · simpa [hi, hm, ht] using hr

/-- The header codec, and what a backfill makes of the header of a segment that was only opened
again when its header covered all of its records. -/
theorem backfilled_time_range (C : Crates) : (∀ (h : SegmentHeader) lastHash,
      deserialize C (h.serialize C lastHash) = .ok { h with prevLastHash := lastHash }) ∧
      ∀ w₀ w, w₀.Created C →
        Relation.ReflTransGen (fun w w' => ∃ ev, Covered w ev ∧ Trans C w ev w') w₀ w →
        ∃ stored minTs maxTs, readSegmentHeaderById C w.disk w.mgr.active.id = some stored ∧
          readSegmentHeaderById C (w.mgr.active.backfillHeaderTs C w.disk) w.mgr.active.id =
            some { stored with minTimestampNs := minTs, maxTimestampNs := maxTs } ∧
          IsRange minTs maxTs w.ts := by
  refine ⟨deserialize_serialize C, fun w₀ w hc hr => ?_⟩
  have hi : Ranged C w := invariant_of_steps hr hc.ranged fun a b ha ⟨ev, hok, ht⟩ => ha.step hok ht
  obtain ⟨header, lastHash, body, hg, -, -⟩ := hi.file
  have hb := get_modify hg (backfill C w.mgr.active.minTs w.mgr.active.maxTs)
  rw [backfill_serialize] at hb
  have ho := readSegmentHeaderById_serialize hg
  have hn := readSegmentHeaderById_serialize hb
  exact ⟨_, w.mgr.active.minTs, w.mgr.active.maxTs, ho, hn, hi.range⟩

def newHeader : SegmentHeader :=
  firstSegment zeros32 0 0 1 false hashAlgoBlake3

/-- The segment file before its first record, opened with this header and end. -/
def opened (header : SegmentHeader) (size : ℕ) : SegmentManager :=
  .openExisting 1 size header 4096 zeros32 zeros32 false none .keepAll

def newLife : SegmentLife where
  mgr := opened newHeader segmentHeaderSize
  disk := ⟨[(1, newHeader.serialize rawCrates zeros32)], pairwise_singleton _ _, fun _ => none⟩
  ts := []
  saved := 0

theorem created_newLife : Created rawCrates newLife :=
  ⟨.empty, newHeader, zeros32, false, rfl, rfl, rfl, rfl, rfl⟩

set_option maxRecDepth 20000 in
theorem backfilled_time_range_reopened :
    ∃ (w : SegmentLife) (stored : SegmentHeader) (minTs maxTs : UInt64), w.ts = [5] ∧
      readSegmentHeaderById rawCrates (w.mgr.active.backfillHeaderTs rawCrates w.disk)
        w.mgr.active.id = some { stored with minTimestampNs := minTs, maxTimestampNs := maxTs } ∧
      IsRange minTs maxTs w.ts := by
  have h₀ : Relation.ReflTransGen (fun w w' => ∃ ev, Covered w ev ∧ Trans rawCrates w ev w')
    newLife newLife := .refl
  set header : SegmentHeader := { newHeader with minTimestampNs := 5, maxTimestampNs := 5 }
  have hr := h₀.step (.append ⟨replicate 12 0, rfl⟩ 0 [⟨0, 5, [], zeros32⟩]) trivial (.append ..)
    |>.step .backfill trivial .backfill
    |>.step (.reopen (opened header 188)) rfl
      (.reopen _ header 1 188 (by decide +kernel) (by decide +kernel) (by decide +kernel) rfl rfl)
  obtain ⟨stored, minTs, maxTs, -, hb, ht⟩ :=
    (backfilled_time_range rawCrates).2 _ _ created_newLife hr
  exact ⟨_, stored, minTs, maxTs, by decide +kernel, hb, ht⟩

set_option maxRecDepth 20000 in
/-- Opened again without a backfill, the segment forgets the record it had. -/
theorem backfilled_time_range_forgotten : ∃ w₀ w, Created rawCrates w₀ ∧
      Relation.ReflTransGen (fun w w' => ∃ ev, Trans rawCrates w ev w') w₀ w ∧ w.ts = [5, 9] ∧
      (readSegmentHeaderById rawCrates (w.mgr.active.backfillHeaderTs rawCrates w.disk)
        w.mgr.active.id).map SegmentHeader.minTimestampNs = some 9 := by
  have hr := Relation.ReflTransGen.single (r := fun w w' => ∃ ev, Trans rawCrates w ev w')
      (a := newLife) ⟨.append ⟨replicate 12 0, rfl⟩ 0 [⟨0, 5, [], zeros32⟩], .append ..⟩
    |>.tail ⟨.reopen (opened newHeader 188),
      .reopen _ newHeader 1 188 (by decide +kernel) (by decide +kernel) (by decide +kernel) rfl rfl⟩
    |>.tail ⟨.append ⟨replicate 12 0, rfl⟩ 1 [⟨1, 9, [], zeros32⟩], .append ..⟩
  exact ⟨newLife, _, created_newLife, hr, by decide +kernel, by decide +kernel⟩

end SegmentLife

end LogDb.Storage
