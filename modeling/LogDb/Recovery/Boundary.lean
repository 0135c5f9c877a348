import LogDb.Format.Body
import LogDb.Recovery.Tamper

/-!
Where the scan cuts a segment that is in its layout: always between two records or two frames,
unless a frame breaks the hash chain. Offset and file length then agree.
-/

namespace LogDb.Recovery

open Lib Format List

section Walks

variable {C : Crates} {a : ScanArgs}

/-- The walk stands at the end of `front`, and everything before has been accepted. -/
structure AtEnd (st : ScanState) (front rest : Bytes) : Prop where
  file : st.file = front ++ rest
  offset : st.offset = front.length
  valid : st.lastValidOffset = front.length

variable {st : ScanState} {front : Bytes}

/-- Cutting there leaves the front, also when counters have moved since. -/
theorem AtEnd.torn {rest : Bytes} (h : AtEnd st front rest) (a : ScanArgs) (st' : ScanState)
    (hf : st'.file = st.file) (hv : st'.lastValidOffset = st.lastValidOffset) (n : ℕ) :
    (st'.torn a n).file = front ++ [] ∧ (st'.torn a n).lastValidOffset = (front ++ []).length := by
  rw [append_nil]
  have hle : front.length ≤ (front ++ rest).length := by simp
  constructor
  · show setLen st'.lastValidOffset st'.file = front
    rw [hf, hv, h.file, h.valid, setLen_of_le hle, take_left]
  · exact hv.trans h.valid

theorem AtEnd.acceptAll {chunk rest : Bytes} (h : AtEnd st front (chunk ++ rest))
    (records : List Record) :
    AtEnd ((st.acceptAll a records).advance chunk.length) (front ++ chunk) rest := by
  obtain ⟨hf, ho, -⟩ := acceptAll_keeps a st records
  have he : (st.acceptAll a records).offset + chunk.length = (front ++ chunk).length := by
    rw [ho, h.offset, length_append]
  constructor
  · rw [append_assoc, ← h.file]
    exact hf
  · exact he
  · exact he

theorem rawWalk_stored {views : List ReadView} (hf : ∀ v ∈ views, v.Fits)
    (h : AtEnd st front (batchBytes C views)) :
    ∃ k, (rawWalk C a st (views.map (storedRecord C)) []).file =
        front ++ batchBytes C (views.take k) ∧
      (rawWalk C a st (views.map (storedRecord C)) []).lastValidOffset =
        (front ++ batchBytes C (views.take k)).length := by
  induction views generalizing st front with
  | nil =>
    refine ⟨0, h.file, ?_⟩
    rw [take_nil, batchBytes_nil, append_nil]
    exact h.valid
  | cons v vs ih =>
    have hr := deserializeRecord_storedRecord C (hf v mem_cons_self)
    rw [batchBytes_cons] at h
    rw [map_cons, rawWalk, hr]
    simp only
    split_ifs with hid hc
    · obtain ⟨k, hl, hv⟩ := ih (fun w hw => hf w (mem_cons_of_mem v hw))
        (h.acceptAll (a := a) [v.toRecord])
      refine ⟨k + 1, ?_⟩
      rw [take_succ_cons, batchBytes_cons, ← append_assoc]
      exact ⟨hl, hv⟩
    · exact ⟨0, h.torn a (st.breakChain C a v.toRecord) rfl rfl st.offset⟩
    · exact ⟨0, h.torn a st rfl rfl st.offset⟩

theorem recordsWalk_ne_broken_of_chain {cs : List Bytes} (hc : a.hashEnabled = true →
      ChainFrom C a.chainKey st.chainPrev (intactRecords C cs)) (st' : ScanState) :
    recordsWalk C a st cs ≠ .broken st' := by
  fun_induction recordsWalk C a st cs with
  | case2 st c cs record _ hr _ _ ih =>
    simp only [intactRecords, hr] at hc
    apply ih
    intro hh
    rw [show (st.accept a record).chainPrev = record.hashN from if_pos hh]
    exact (hc hh).2
  | case3 st c cs record _ hr _ hn =>
    simp only [intactRecords, hr] at hc
    exact absurd (fun hh => (hc hh).1) hn
  | _ => simp

theorem frameWalk_stored {frames : List Bytes} (h : AtEnd st front frames.flatten)
    (hc : a.hashEnabled = true → ChainFrom C a.chainKey st.chainPrev
      (frames.flatMap fun f => intactRecords C (frameChunks C a.header a.encryptionKey f))) :
    ∃ k, (frameWalk C a st frames []).file = front ++ (frames.take k).flatten ∧
      (frameWalk C a st frames []).lastValidOffset = (front ++ (frames.take k).flatten).length := by
  induction frames generalizing st front with
  | nil =>
    refine ⟨0, h.file, ?_⟩
    rw [take_nil, flatten_nil, append_nil]
    exact h.valid
  | cons f fs ih =>
    rw [flatten_cons] at h
    rw [frameWalk]
    cases hd : decodeFrame C a f with
    | none => exact ⟨0, h.torn a st rfl rfl st.offset⟩
    | some chunks =>
      simp only [flatMap_cons, frameChunks_of_decodeFrame hd, chainFrom_append] at hc ⊢
      cases ho : recordsWalk C a st chunks with
      | broken st' => exact absurd ho (recordsWalk_ne_broken_of_chain (fun hh => (hc hh).1) st')
      | rejected st' =>
        obtain ⟨hl, -, hv⟩ := recordsWalk_frame C a chunks st
        rw [ho] at hl hv
        exact ⟨0, h.torn a st' hl hv st.offset⟩
      | intact st' =>
        obtain ⟨-, rfl⟩ := recordsWalk_intact ho
        obtain ⟨k, hk⟩ := ih (h.acceptAll (a := a) (intactRecords C chunks)) fun hh =>
          (acceptAll_chainPrev hh st (intactRecords C chunks)).symm ▸ (hc hh).2
        refine ⟨k + 1, ?_⟩
        rw [take_succ_cons, flatten_cons, ← append_assoc]
        exact hk

end Walks

theorem mem_of_validateHeaders {C : Crates} {files : List (ℕ × Bytes)} {v : ValidSegment}
    (h : v ∈ (validateHeaders C files).1) : (v.id, v.file) ∈ files ∧
      segmentHeaderSize ≤ v.file.length ∧
      SegmentHeader.deserialize C (field 0 segmentHeaderSize v.file) = .ok v.header := by
  induction files with
  | nil => exact absurd h not_mem_nil
  | cons f files ih =>
    obtain ⟨id, file⟩ := f
    unfold validateHeaders at h
    split_ifs at h with hl
    · exact absurd h not_mem_nil
    · cases hh : SegmentHeader.deserialize C (field 0 segmentHeaderSize file) with
      | error msg =>
        rw [hh] at h
        exact absurd h not_mem_nil
      | ok header =>
        rw [hh] at h
        simp only at h
        split_ifs at h with hid
        · exact absurd h not_mem_nil
        · rcases mem_cons.mp h with rfl | hm
          · exact ⟨mem_cons_self, Nat.le_of_not_lt hl, hh⟩
          · obtain ⟨hf, hr⟩ := ih hm
            exact ⟨mem_cons_of_mem _ hf, hr⟩

/-- After the scan the segment is still in its layout, and the offset is its end. -/
theorem scanLastSegment_inLayout {C : Crates} (hC : C.Lawful) {a : ScanArgs} {hd body : Bytes}
    {r : ScanResult} (hh : hd.length = segmentHeaderSize) (hb : InLayout C a.header body)
    (hc : (a.header.isCompressed || a.header.isEncrypted) = true → a.hashEnabled = true →
      ChainFrom C a.chainKey a.header.prevLastHash
        (bodyRecords C a.header a.encryptionKey body))
    (h : scanLastSegment C a (hd ++ body) = .ok r) :
    ∃ kept, r.file = hd ++ kept ∧ r.validOffset = r.file.length ∧ InLayout C a.header kept := by
  rw [scanLastSegment_eq C a hd body hh] at h
  cases h
  have hsa : AtEnd (a.initial (hd ++ body)) hd body := ⟨rfl, hh.symm, hh.symm⟩
  cases hb with
  | raw views hl ht =>
    have hs : recordFraming.split (batchBytes C views) = (views.map (storedRecord C), []) :=
      recordFraming.split_flatten_chunks (isChunk_of_mem_map ht)
    rw [if_neg (by simp [hl]), hs]
    obtain ⟨k, hfl, ha⟩ := rawWalk_stored (a := a) ht hsa
    refine ⟨batchBytes C (views.take k), hfl, ?_, .raw _ hl ?_⟩
    · exact ha.trans (congrArg length hfl.symm)
    · intro v hv
      exact ht v (mem_of_mem_take hv)
  | framed frames hl hr =>
    have hs : frameFraming.split frames.flatten = (frames, []) :=
      frameFraming.split_flatten_chunks fun f hf => (hr f hf).isChunk hC
    unfold bodyRecords at hc
    rw [if_pos hl, hs] at hc
    rw [if_pos hl, hs]
    obtain ⟨k, hfl, ha⟩ := frameWalk_stored (a := a) hsa (hc hl)
    refine ⟨(frames.take k).flatten, hfl, ?_, .framed _ hl ?_⟩
    · exact ha.trans (congrArg length hfl.symm)
    · intro f hf
      exact hr f (mem_of_mem_take hf)

end LogDb.Recovery
