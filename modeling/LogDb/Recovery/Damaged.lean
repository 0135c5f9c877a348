import LogDb.Reader.Stored
import LogDb.Recovery.Accept
import LogDb.Recovery.Rescan
import LogDb.Recovery.TornTail

/-!
A damaged record inside a raw segment. The scan steps over it, but goes on expecting its id.
-/

namespace LogDb.Recovery

open Lib Format Reader List ReadView

theorem idsFollow_append {stride : UInt64} {expected : Option UInt64} {xs ys : List Record} :
    IdsFollow stride expected (xs ++ ys) ↔
      IdsFollow stride expected xs ∧ IdsFollow stride (expectedAfter stride expected xs) ys := by
  induction xs generalizing expected with
  | nil => simp [IdsFollow, expectedAfter]
  | cons x xs ih =>
    simp only [cons_append, IdsFollow, ih, and_assoc]
    rfl

/-- The shift amount wraps, so no stride vanishes. -/
theorem idStride_ne_zero (bits : UInt32) : idStride bits ≠ 0 := by
  intro h
  have hlt : bits.toUInt64.toNat % 64 < 64 := Nat.mod_lt _ (by decide)
  have hz := congrArg UInt64.toNat h
  rw [idStride, UInt64.toNat_shiftLeft, UInt64.toNat_one, Nat.shiftLeft_eq, one_mul,
    Nat.mod_eq_of_lt (Nat.pow_lt_pow_right (by omega) hlt)] at hz
  exact absurd hz (Nat.two_pow_pos _).ne'

section

variable {C : Crates} {v : ReadView} {damaged : Bytes} {e : String} {back : List ReadView}
  (hlen : damaged.length = (storedRecord C v).length)
  (hfield : field 0 4 damaged = field 0 4 (storedRecord C v))
  (herr : deserializeRecord C damaged = .error e) (hfits : ∀ w ∈ v :: back, w.Fits)

include hlen hfield hfits in
theorem isChunk_damaged : ∀ c ∈ damaged :: back.map (storedRecord C), recordFraming.IsChunk c := by
  have hc := isChunk_storedRecord C (hfits v (by simp))
  unfold Framing.IsChunk recordFraming at hc
  simp only [← hfield, ← hlen] at hc
  exact forall_mem_cons.mpr ⟨hc, isChunk_of_mem_map fun w hw => hfits w (by simp [hw])⟩

include hlen hfield herr hfits in
/-- A reader steps over the damaged record and yields the ones behind it. -/
theorem recordIter_damaged (hd : Bytes) (fromId endId : UInt64) :
    recordIter C ⟨hd.length, (hd ++ (damaged ++ batchBytes C back)).length, fromId, endId,
        false, false, none⟩ (hd ++ (damaged ++ batchBytes C back)) =
      selectRange fromId endId (back.map toRecord) := by
  set file := hd ++ (damaged ++ batchBytes C back) with hf
  set b : IterArgs := ⟨hd.length, file.length, fromId, endId, false, false, none⟩
  have hs : (rawIterLoop C b file).step (hd.length, []) = .inl ((hd ++ damaged).length, []) := by
    have hc := isChunk_damaged hlen hfield hfits damaged (by simp)
    simp only [Framing.IsChunk, recordFraming, Option.ite_none_right_eq_some, Option.some.injEq]
      at hc
    obtain ⟨⟨hm, -⟩, ht⟩ := hc
    have hz : minRecordSize = 60 := rfl
    have ha : leVal (field hd.length 4 file) = damaged.length := by
      rw [← ht, hf]
      simp only [field, drop_left, drop_zero]
      rw [take_append_of_le_length (by omega)]
    have he : field hd.length damaged.length file = damaged := by simp [field, hf]
    have hl : hd.length + damaged.length ≤ b.fileSize := by simp [b, hf]
    change rawIterStep C b file (hd.length, []) = _
    simp only [rawIterStep, ha, he, herr, length_append]
    rw [if_neg (by omega), if_neg (by omega), if_neg (by omega)]
  change (rawIterLoop C b file).run (hd.length, []) = _
  rw [(rawIterLoop C b file).run_of_inl hs, rawIterLoop_run back
    (fun w hw => hfits w (by simp [hw])) (hd ++ damaged) (by simp [hf]) rfl []]
  rfl

include herr hfits in
/-- A record behind the damaged one meets the scan only when any first id will do. -/
theorem rawWalk_damaged {a : ScanArgs} {st : ScanState} (hh : a.hashEnabled = false)
    (hb : back ≠ []) (hi : IdsFollow a.stride (st.expectation a) ((v :: back).map toRecord)) :
    rawWalk C a st (damaged :: back.map (storedRecord C)) [] = if st.expectation a = none then
        ((st.skip a damaged.length).acceptAll a (back.map toRecord)).advance
          (batchBytes C back).length
      else (st.skip a damaged.length).torn a (st.offset + damaged.length) := by
  obtain ⟨w, ws, rfl⟩ := exists_cons_of_ne_nil hb
  obtain ⟨hv, hw, hs⟩ := hi
  rw [rawWalk, herr]
  simp only [map_cons, reduceCtorEq, false_and, if_false]
  split_ifs with hn
  · have ha : Accepts C a (st.skip a damaged.length) ((w :: ws).map toRecord) :=
      accepts_of_follow _ _ ⟨.inl hn, hs⟩ fun h => absurd h (by rw [hh]; decide)
    have hk := rawWalk_accepts [] [] (w :: ws) (fun u hu => hfits u (by simp [hu])) _ (by simp) ha
    rwa [append_nil, rawWalk, if_pos rfl] at hk
  · have hid : ¬ IdOk a (st.skip a damaged.length) w.toRecord := by
      rw [idOk_iff]
      rintro (h | h)
      · exact hn h
      · have heq := Option.some.inj ((hv.resolve_left hn).symm.trans h)
        simp only [reduceCtorEq, false_or, Option.some.injEq, heq, UInt64.add_eq_left] at hw
        exact idStride_ne_zero a.shardBits hw
    rw [rawWalk, deserializeRecord_storedRecord C (hfits w (by simp))]
    exact if_neg hid

end

/-- When a damaged record of a raw segment costs only itself: when it is the first of a sharded
one, as only there the scan expects no particular id behind it. -/
theorem damaged_costs_itself_iff (C : Crates) (a : ScanArgs) {hdr damaged : Bytes}
    (front : List ReadView) (v : ReadView) (back : List ReadView) {e : String}
    (hhdr : hdr.length = segmentHeaderSize)
    (hraw : (a.header.isCompressed || a.header.isEncrypted) = false)
    (hhash : a.hashEnabled = false) (hfits : ∀ w ∈ front ++ v :: back, w.Fits)
    (hids : IdsFollow a.stride (if 0 < a.shardBits then none else some a.header.baseSequence)
      ((front ++ v :: back).map toRecord))
    (hback : back ≠ []) (hlen : damaged.length = (storedRecord C v).length)
    (hfield : field 0 4 damaged = field 0 4 (storedRecord C v))
    (herr : deserializeRecord C damaged = .error e) :
    (∃ r, scanLastSegment C a
          (hdr ++ (batchBytes C front ++ (damaged ++ batchBytes C back))) = .ok r ∧
        r.file = hdr ++ (batchBytes C front ++ (damaged ++ batchBytes C back)) ∧
        r.count = front.length + back.length ∧
        r.lastSequence = (back.getLast hback).recordId ∧
        ∀ fromId endId, recordIter C ⟨segmentHeaderSize, r.file.length, fromId, endId, false,
            false, none⟩ r.file = selectRange fromId endId ((front ++ back).map toRecord)) ↔
      front = [] ∧ 0 < a.shardBits := by
  set file := hdr ++ (batchBytes C front ++ (damaged ++ batchBytes C back)) with hfl
  have hfrt : ∀ w ∈ front, w.Fits := fun w hw => hfits w (by simp [hw])
  have hrt : ∀ w ∈ v :: back, w.Fits := fun w hw => hfits w (mem_append_right _ hw)
  have hck := isChunk_damaged hlen hfield hrt
  have hl := recordFraming.split_flatten_chunks
    (forall_mem_append.mpr ⟨isChunk_of_mem_map (C := C) hfrt, hck⟩)
  rw [flatten_append, flatten_cons, ← batchBytes, ← batchBytes] at hl
  have he : (a.initial file).expectation a =
      if 0 < a.shardBits then none else some a.header.baseSequence := by
    simp [ScanState.expectation, ScanArgs.initial]
  rw [map_append, idsFollow_append, ← he, ← acceptAll_expectation] at hids
  have ha : Accepts C a (a.initial file) (front.map toRecord) :=
    accepts_of_follow _ _ hids.1 fun h => absurd h (by rw [hhash]; decide)
  set st := ((a.initial file).acceptAll a (front.map toRecord)).advance
    (batchBytes C front).length with hst
  obtain ⟨hkf, ho, -, -, hk⟩ := acceptAll_keeps a (a.initial file) (front.map toRecord)
  rw [length_map] at hk
  have hc : st.count = front.length := hk.trans (Nat.zero_add _)
  have hn : st.expectation a = none ↔ front = [] ∧ 0 < a.shardBits := by
    simp only [ScanState.expectation, hc, length_eq_zero_iff, ite_eq_left_iff, reduceCtorEq,
      imp_false, not_not]
  have hwk := (rawWalk_accepts _ [] _ hfrt _ (fun _ => rfl) ha).trans
    (@rawWalk_damaged C v damaged e back herr hrt a st hhash hback hids.2)
  rw [scanLastSegment_eq C a hdr _ hhdr, if_neg (by simp [hraw]), hl, ← hfl, hwk, ← hn]
  split_ifs with hf
  · refine iff_of_true ⟨_, rfl, ?_⟩ hf
    obtain ⟨rfl, -⟩ := hn.mp hf
    set skipped := st.skip a damaged.length
    obtain ⟨hm, -, -, -, ht⟩ := acceptAll_keeps a skipped (back.map toRecord)
    refine ⟨hm, ?_, ?_, fun fromId endId => ?_⟩
    · refine ht.trans ?_
      rw [length_map, ← hc]
      rfl
    · refine (acceptAll_last a skipped back).1.trans ?_
      rw [getLast?_eq_some_getLast hback]
      rfl
    · change recordIter C ⟨_, (skipped.acceptAll a _).file.length, _, _, _, _, _⟩
        (skipped.acceptAll a _).file = _
      rw [hm, ← hhdr]
      exact recordIter_damaged hlen hfield herr hrt hdr fromId endId
  · refine iff_of_false ?_ hf
    rintro ⟨r, hr, hm, -⟩
    cases hr
    have hu : setLen st.lastValidOffset st.file = file := hm
    have hv : st.lastValidOffset = hdr.length + (batchBytes C front).length :=
      congrArg (· + _) (ho.trans hhdr.symm)
    have hp := Framing.IsChunk.length_pos (hck damaged (by simp))
    have hs := congrArg length hu
    rw [setLen_length, hv, hfl] at hs
    simp only [length_append] at hs
    omega

/-- A record of two content bytes, the first of them changed on the disk. -/
def changedRecord : Bytes :=
  (storedRecord rawCrates ⟨0, 7, [104, 105], zeros32⟩).set 24 105

def changedSegment (id : UInt64) : Bytes :=
  rawArgs.header.serialize rawCrates zeros32 ++ (batchBytes rawCrates [] ++
    (changedRecord ++ batchBytes rawCrates [⟨id, 9, [], zeros32⟩]))

theorem changedSegment_sharded :
    ∃ r, scanLastSegment rawCrates { rawArgs with shardBits := 1 } (changedSegment 2) = .ok r ∧
      r.file = changedSegment 2 ∧ r.count = 1 ∧ r.lastSequence = 2 ∧
      ∀ fromId endId, recordIter rawCrates ⟨segmentHeaderSize, r.file.length, fromId, endId, false,
        false, none⟩ r.file = selectRange fromId endId [toRecord ⟨2, 9, [], zeros32⟩] := by
  refine (damaged_costs_itself_iff rawCrates { rawArgs with shardBits := 1 } []
    ⟨0, 7, [104, 105], zeros32⟩ [⟨2, 9, [], zeros32⟩]
    (e := "CRC mismatch at sequence 0: stored=0xC50B8673, computed=0xBBFF0DA2") (by simp) rfl rfl
    (by simp [ReadView.Fits, recordSize]) ?_ (cons_ne_nil _ _) (by decide +kernel)
    (by decide +kernel) (by decide +kernel)).mpr ⟨rfl, by decide⟩
  exact ⟨.inl rfl, .inr rfl, trivial⟩

/-- Without shards the scan cuts the intact record off together with the changed one. -/
theorem changedSegment_unsharded : (changedSegment 1).length = segmentHeaderSize + 122 ∧
      (scanLastSegment rawCrates rawArgs (changedSegment 1)).map
        (fun r => (r.file.length, r.count)) = .ok (segmentHeaderSize, 0) := by
  decide +kernel

end LogDb.Recovery
