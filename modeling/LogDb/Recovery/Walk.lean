import LogDb.Recovery.Scan

/-!
The recovery scan as a walk over the chunks of the file: the offset arithmetic of the loops is
discharged here once, and everything else is proved about the walks.
-/

namespace LogDb.Recovery

open Lib Format List ScanState

/-- The id of a record is the expected one, or nothing was accepted yet in a sharded segment. -/
def IdOk (a : ScanArgs) (st : ScanState) (record : Record) : Prop :=
  record.id.sequence = st.expectedRecordId ∨ (st.count = 0 ∧ 0 < a.shardBits)

def ChainOk (C : Crates) (a : ScanArgs) (st : ScanState) (record : Record) : Prop :=
  a.hashEnabled = true →
    blake3KeyedChain C a.chainKey st.chainPrev record.content = record.hashN

instance (a : ScanArgs) (st : ScanState) (record : Record) : Decidable (IdOk a st record) :=
  inferInstanceAs (Decidable (_ ∨ _))

instance (C : Crates) (a : ScanArgs) (st : ScanState) (record : Record) :
    Decidable (ChainOk C a st record) :=
  inferInstanceAs (Decidable (_ → _))

namespace ScanState

/-- The counters after a record, which move before its hash is checked. -/
def counted (st : ScanState) (record : Record) : ScanState :=
  { st with
    lastSequence := record.id.sequence
    lastHash := record.hashN
    count := st.count + 1 }

def accept (a : ScanArgs) (st : ScanState) (record : Record) : ScanState :=
  { st.counted record with
    chainPrev := if a.hashEnabled then record.hashN else st.chainPrev
    expectedRecordId := record.id.sequence + a.stride }

def breakChain (C : Crates) (a : ScanArgs) (st : ScanState) (record : Record) : ScanState :=
  { st.counted record with
    warnings := st.warnings ++ [.hashChainBreak a.segmentId
      (blake3KeyedChain C a.chainKey st.chainPrev record.content) record.hashN] }

/-- Move both offsets behind an accepted chunk. -/
def advance (st : ScanState) (n : ℕ) : ScanState :=
  { st with lastValidOffset := st.offset + n, offset := st.offset + n }

/-- Step over a damaged record that is followed by more bytes. -/
def skip (a : ScanArgs) (st : ScanState) (n : ℕ) : ScanState :=
  { st with
    warnings := st.warnings ++ [.corruptedHeader a.segmentId
      s!"CRC mismatch at record_id={st.expectedRecordId}, offset={st.offset}"]
    offset := st.offset + n }

end ScanState

theorem checkRecord_eq (C : Crates) (a : ScanArgs) (st : ScanState) (record : Record) :
    checkRecord C a st record = if IdOk a st record then
        if ChainOk C a st record then .accepted (st.accept a record)
        else .chainBreak (st.breakChain C a record)
      else .unexpectedId := by
  unfold checkRecord
  by_cases hid : IdOk a st record
  · have hn : ¬ (record.id.sequence ≠ st.expectedRecordId ∧
        ¬ (st.count = 0 ∧ 0 < a.shardBits)) := by
      unfold IdOk at hid
      tauto
    rw [if_neg hn, if_pos hid]
    cases hh : a.hashEnabled with
    | false => simp [ChainOk, hh, accept, counted]
    | true =>
      by_cases hc : blake3KeyedChain C a.chainKey st.chainPrev record.content = record.hashN
      · simp [ChainOk, hh, hc, accept, counted]
      · simp [ChainOk, hh, hc, breakChain, counted]
  · have hp : record.id.sequence ≠ st.expectedRecordId ∧ ¬ (st.count = 0 ∧ 0 < a.shardBits) := by
      unfold IdOk at hid
      tauto
    rw [if_pos hp, if_neg hid]

section Raw

variable (C : Crates) (a : ScanArgs)

/-- The raw scan over the chunks of the file and the tail behind them. -/
def rawWalk : ScanState → List Bytes → Bytes → ScanState
  | st, [], tail => if tail = [] then st else st.torn a st.offset
  | st, c :: cs, tail =>
    match deserializeRecord C c with
    | .ok (record, _) =>
      if IdOk a st record then
        if ChainOk C a st record then rawWalk ((st.accept a record).advance c.length) cs tail
        else (st.breakChain C a record).torn a st.offset
      else st.torn a st.offset
    | .error _ =>
      if cs = [] ∧ tail = [] then st.torn a st.offset
      else rawWalk (st.skip a c.length) cs tail

end Raw

variable {C : Crates} {a : ScanArgs} {st : ScanState} {pre rest : Bytes} {fileSize n : ℕ}
  {decoded : Bytes} {validLen : ℕ}

/-- The scan stands between the two parts of the file. -/
structure StandsAt (st : ScanState) (pre rest : Bytes) : Prop where
  file : st.file = pre ++ rest
  offset : st.offset = pre.length

namespace StandsAt

section

variable (h : StandsAt st pre rest)
include h

theorem length : st.file.length = st.offset + rest.length := by
  rw [h.file, length_append, h.offset]

theorem slice_eq (hle : n ≤ rest.length) : slice st.offset n st.file = some (rest.take n) := by
  have hs := slice_append_right pre rest 0 n
  rw [add_zero] at hs
  rw [h.file, h.offset, hs, slice, if_pos (by omega), field_zero]

theorem next (hle : n ≤ rest.length) {st' : ScanState} (hf : st'.file = st.file)
    (ho : st'.offset = st.offset + n) : StandsAt st' (pre ++ rest.take n) (rest.drop n) := by
  refine ⟨?_, ?_⟩
  · rw [hf, h.file, append_assoc, take_append_drop]
  · rw [ho, length_append, length_take_of_le hle, h.offset]

end

end StandsAt

private theorem rawStep_end (he : fileSize ≤ st.offset) :
    rawStep C a fileSize st = .inr (.ok st) := by
  rw [rawStep, if_pos (by omega)]

private theorem rawStep_tail (ha : StandsAt st pre rest)
    (hne : rest ≠ []) (hn : recordFraming.next rest = none) :
    rawStep C a st.file.length st = .inr (.ok (st.torn a st.offset)) := by
  have hl := ha.length
  have hp : 0 < rest.length := length_pos_iff.mpr hne
  rw [rawStep, if_neg (by omega)]
  by_cases hs : st.file.length < st.offset + 4
  · rw [if_pos hs]
  · rw [if_neg hs, ha.slice_eq (by omega), ← field_zero]
    simp only
    rcases recordFraming_next_eq_none.mp hn with hm | ho
    · rw [if_pos hm]
    · by_cases hm : leVal (field 0 4 rest) < minRecordSize
      · rw [if_pos hm]
      · rw [if_neg hm, if_pos (by omega)]

private theorem rawStep_chunk (ha : StandsAt st pre rest) (hn : recordFraming.next rest = some n) :
    rawStep C a st.file.length st = match deserializeRecord C (rest.take n) with
      | .ok (record, _) =>
        if IdOk a st record then
          if ChainOk C a st record then .inl ((st.accept a record).advance n)
          else .inr (.ok ((st.breakChain C a record).torn a st.offset))
        else .inr (.ok (st.torn a st.offset))
      | .error _ =>
        if rest.length ≤ n then .inr (.ok (st.torn a st.offset))
        else .inl (st.skip a n) := by
  obtain ⟨ht, hm, hle⟩ := recordFraming_next_eq_some.mp hn
  have hm60 : minRecordSize = 60 := rfl
  have hl := ha.length
  rw [rawStep, if_neg (by omega), if_neg (by omega), ha.slice_eq (by omega), ← field_zero]
  simp only [ht]
  rw [if_neg (by omega), if_neg (by omega), ha.slice_eq (by omega)]
  simp only
  cases hr : deserializeRecord C (rest.take n) with
  | ok r =>
    obtain ⟨record, k⟩ := r
    simp only [checkRecord_eq]
    split_ifs with hid hc
    · rfl
    · rfl
    · rfl
  | error e =>
    simp only
    by_cases he : rest.length ≤ n
    · rw [if_pos (by omega), if_pos he]
    · rw [if_neg (by omega), if_neg he]
      rfl

/-- The raw loop is the walk over the chunks that the rest of the file splits into. -/
theorem rawLoop_run_eq (C : Crates) (a : ScanArgs) (rest : Bytes) :
    ∀ (st : ScanState) (pre : Bytes), StandsAt st pre rest → (rawLoop C a st.file.length).run st =
        .ok (rawWalk C a st (recordFraming.split rest).1 (recordFraming.split rest).2) := by
  induction rest using recordFraming.split_induction with
  | hnn rest hn =>
    intro st pre ha
    have hl := ha.length
    rw [recordFraming.split_of_none hn]
    by_cases hne : rest = []
    · have he : st.file.length ≤ st.offset := by
        simp [hl, hne]
      rw [(rawLoop C a _).run_of_inr (rawStep_end he), rawWalk, if_pos hne]
    · rw [(rawLoop C a _).run_of_inr (rawStep_tail ha hne hn), rawWalk, if_neg hne]
  | hse rest n hn ih =>
    intro st pre ha
    have hle := recordFraming.next_le hn
    have hs := rawStep_chunk (C := C) (a := a) ha hn
    have ht : (rest.take n).length = n := length_take_of_le hle
    rw [recordFraming.split_of_some hn, rawWalk]
    cases hr : deserializeRecord C (rest.take n) with
    | ok r =>
      obtain ⟨record, k⟩ := r
      rw [hr] at hs
      simp only at hs ⊢
      split_ifs at hs ⊢ with hid hc
      · rw [(rawLoop C a _).run_of_inl hs, ht]
        exact ih ((st.accept a record).advance n) _ (ha.next hle rfl rfl)
      · rw [(rawLoop C a _).run_of_inr hs]
      · rw [(rawLoop C a _).run_of_inr hs]
    | error e =>
      have hls : ((recordFraming.split (rest.drop n)).1 = [] ∧
          (recordFraming.split (rest.drop n)).2 = []) ↔ rest.length ≤ n := by
        rw [← drop_eq_nil_iff]
        exact recordFraming.split_eq_nil_iff _
      rw [hr] at hs
      simp only [hls] at hs ⊢
      split_ifs at hs ⊢ with he
      · rw [(rawLoop C a _).run_of_inr hs]
      · rw [(rawLoop C a _).run_of_inl hs, ht]
        exact ih (st.skip a n) _ (ha.next hle rfl rfl)

section Frames

/-- How the records of one frame were received. -/
inductive FrameOutcome where
  | intact (st : ScanState)
  | rejected (st : ScanState)
  | broken (st : ScanState)

def FrameOutcome.state : FrameOutcome → ScanState
  | .intact st | .rejected st | .broken st => st

def FrameOutcome.loopResult (a : ScanArgs) (offset : ℕ) : FrameOutcome → ScanState × Bool
  | .intact st => (st, true)
  | .rejected st => (st, false)
  | .broken st => (st.torn a offset, true)

variable (C : Crates) (a : ScanArgs)

def recordsWalk : ScanState → List Bytes → FrameOutcome
  | st, [] => .intact st
  | st, c :: cs =>
    match deserializeRecord C c with
    | .ok (record, _) =>
      if IdOk a st record then
        if ChainOk C a st record then recordsWalk (st.accept a record) cs
        else .broken (st.breakChain C a record)
      else .rejected st
    | .error _ => .rejected st

/-- The record chunks of a frame, when its payload can be decoded. -/
def decodeFrame (c : Bytes) : Option (List Bytes) :=
  match decodeFramePayload C (c.drop frameHeaderSize) a.header.isCompressed a.header.isEncrypted
    a.encryptionKey with
  | .ok decoded =>
    some (recordFraming.split (decoded.take (min (readFrameHeader c).2 decoded.length))).1
  | .error _ => none

/-- The frame scan over the frames of the file and the tail behind them. A broken chain cuts the
file but lets the scan go on, so that the next iteration stretches the file again. -/
def frameWalk : ScanState → List Bytes → Bytes → ScanState
  | st, [], tail => if tail = [] then st else st.torn a st.offset
  | st, c :: cs, tail =>
    match decodeFrame C a c with
    | none => st.torn a st.offset
    | some chunks =>
      match recordsWalk C a st chunks with
      | .intact st' => frameWalk (st'.advance c.length) cs tail
      | .rejected st' => st'.torn a st.offset
      | .broken st' =>
        let cut := (st'.torn a st.offset).advance c.length
        if cs = [] ∧ tail = [] then cut else cut.torn a cut.offset

end Frames

theorem recordsWalk_frame (C : Crates) (a : ScanArgs) (cs : List Bytes) (st : ScanState) :
    (recordsWalk C a st cs).state.file = st.file ∧
      (recordsWalk C a st cs).state.offset = st.offset ∧
      (recordsWalk C a st cs).state.lastValidOffset = st.lastValidOffset := by
  fun_induction recordsWalk C a st cs with
  | case2 _ _ _ _ _ _ _ _ ih => exact ih
  | _ => exact ⟨rfl, rfl, rfl⟩

private theorem field_of_take (hb : decoded.take validLen = pre ++ rest)
    (hv : validLen ≤ decoded.length) : validLen = pre.length + rest.length ∧
      ∀ k ≤ rest.length, field pre.length k decoded = rest.take k := by
  refine ⟨by rw [← length_append, ← hb, length_take_of_le hv], fun k hk => ?_⟩
  rw [← take_append_drop validLen decoded, hb, field_append_left _ (by rw [length_append]; omega),
    field, drop_left]

private theorem frameRecordStep_tail {offset : ℕ} (hb : decoded.take validLen = pre ++ rest)
    (hv : validLen ≤ decoded.length) (hn : recordFraming.next rest = none) :
    frameRecordStep C a offset decoded validLen (st, pre.length) = .inr (st, true) := by
  obtain ⟨hl, hf⟩ := field_of_take hb hv
  have hm60 : minRecordSize = 60 := rfl
  unfold frameRecordStep
  simp only
  by_cases hr : pre.length + minRecordSize ≤ validLen
  · rw [if_neg (by omega), hf 4 (by omega), ← field_zero, if_pos]
    rcases recordFraming_next_eq_none.mp hn with hs | ho
    · exact Or.inl hs
    · exact Or.inr (by omega)
  · rw [if_pos hr]

private theorem frameRecordStep_chunk (C : Crates) (a : ScanArgs) (st : ScanState) (offset : ℕ)
    (hb : decoded.take validLen = pre ++ rest) (hv : validLen ≤ decoded.length)
    (hn : recordFraming.next rest = some n) :
    frameRecordStep C a offset decoded validLen (st, pre.length) =
      match deserializeRecord C (rest.take n) with
      | .ok (record, _) =>
        if IdOk a st record then
          if ChainOk C a st record then .inl (st.accept a record, pre.length + n)
          else .inr ((st.breakChain C a record).torn a offset, true)
        else .inr (st, false)
      | .error _ => .inr (st, false) := by
  obtain ⟨ht, hm, hle⟩ := recordFraming_next_eq_some.mp hn
  obtain ⟨hl, hf⟩ := field_of_take hb hv
  have hm60 : minRecordSize = 60 := rfl
  have hh : field pre.length 4 decoded = field 0 4 rest := by
    rw [hf 4 (by omega), field_zero]
  unfold frameRecordStep
  simp only [hh, ht, hf n hle]
  rw [if_neg (by omega), if_neg (by omega)]
  cases hr : deserializeRecord C (rest.take n) with
  | ok r =>
    obtain ⟨record, k⟩ := r
    simp only [checkRecord_eq]
    split_ifs with hid hc
    · rfl
    · rfl
    · rfl
  | error e => rfl

theorem frameRecordLoop_run_eq (C : Crates) (a : ScanArgs) (offset : ℕ) (decoded : Bytes)
    (validLen : ℕ) (hv : validLen ≤ decoded.length) (rest : Bytes) :
    ∀ (st : ScanState) (pre : Bytes), decoded.take validLen = pre ++ rest →
      (frameRecordLoop C a offset decoded validLen).run (st, pre.length) =
        (recordsWalk C a st (recordFraming.split rest).1).loopResult a offset := by
  induction rest using recordFraming.split_induction with
  | hnn rest hx =>
    intro st pre hb
    rw [recordFraming.split_of_none hx, (frameRecordLoop C a offset decoded validLen).run_of_inr
        (frameRecordStep_tail hb hv hx)]
    rfl
  | hse rest n hx ih =>
    intro st pre hb
    have hle := recordFraming.next_le hx
    have hp := frameRecordStep_chunk C a st offset hb hv hx
    have hs : decoded.take validLen = (pre ++ rest.take n) ++ rest.drop n := by
      rw [hb, append_assoc, take_append_drop]
    have hn : pre.length + n = (pre ++ rest.take n).length := by
      rw [length_append, length_take_of_le hle]
    rw [recordFraming.split_of_some hx, recordsWalk]
    cases hr : deserializeRecord C (rest.take n) with
    | ok r =>
      obtain ⟨record, k⟩ := r
      rw [hr] at hp
      simp only at hp ⊢
      split_ifs at hp ⊢ with hid hc
      · rw [(frameRecordLoop C a offset decoded validLen).run_of_inl hp, hn]
        exact ih (st.accept a record) _ hs
      · rw [(frameRecordLoop C a offset decoded validLen).run_of_inr hp]
        rfl
      · rw [(frameRecordLoop C a offset decoded validLen).run_of_inr hp]
        rfl
    | error e =>
      rw [hr] at hp
      rw [(frameRecordLoop C a offset decoded validLen).run_of_inr hp]
      rfl

private theorem frameStep_end (he : fileSize ≤ st.offset) :
    frameStep C a fileSize st = .inr st := by
  rw [frameStep, if_pos (by omega)]

private theorem frameStep_cut (hlt : st.offset < fileSize) (hc : st.file.length ≤ st.offset) :
    frameStep C a fileSize st = .inr (st.torn a st.offset) := by
  have hz : frameHeaderSize = 8 := rfl
  have hl : slice st.offset frameHeaderSize st.file = none := by
    rw [slice, if_neg (by omega)]
  rw [frameStep, if_neg (by omega)]
  split_ifs with hs
  · rfl
  · rw [hl]

private theorem frameStep_tail (ha : StandsAt st pre rest)
    (hne : rest ≠ []) (hn : frameFraming.next rest = none) :
    frameStep C a st.file.length st = .inr (st.torn a st.offset) := by
  have hl := ha.length
  have hp : 0 < rest.length := length_pos_iff.mpr hne
  have hz : frameHeaderSize = 8 := rfl
  rw [frameStep, if_neg (by omega)]
  by_cases hs : st.file.length < st.offset + frameHeaderSize
  · rw [if_pos hs]
  · rw [if_neg hs, ha.slice_eq (by omega)]
    simp only [readFrameHeader_take rest le_rfl]
    rw [if_pos]
    by_contra hgood
    have he : frameFraming.next rest = some (frameHeaderSize + (readFrameHeader rest).1) :=
      frameFraming_next_eq_some.mpr ⟨rfl, by tauto, by tauto, by omega⟩
    rw [hn] at he
    cases he

private theorem frameStep_chunk (ha : StandsAt st pre rest) (hx : frameFraming.next rest = some n) :
    frameStep C a st.file.length st = match decodeFrame C a (rest.take n) with
      | none => .inr (st.torn a st.offset)
      | some chunks =>
        match recordsWalk C a st chunks with
        | .intact st' => .inl (st'.advance n)
        | .rejected st' => .inr (st'.torn a st.offset)
        | .broken st' => .inl ((st'.torn a st.offset).advance n) := by
  obtain ⟨hn, hc, hdl, hle⟩ := frameFraming_next_eq_some.mp hx
  have hl := ha.length
  have hs : frameHeaderSize = 8 := rfl
  have hp : slice (st.offset + frameHeaderSize) (readFrameHeader rest).1 st.file =
      some ((rest.take n).drop frameHeaderSize) := by
    rw [ha.file, ha.offset, slice_append_right, slice, if_pos (by omega), field, drop_take]
    congr 2
    omega
  have hrd : readFrameHeader (rest.take n) = readFrameHeader rest :=
    readFrameHeader_take rest (by omega)
  rw [frameStep, if_neg (by omega), if_neg (by omega), ha.slice_eq (by omega)]
  simp only [readFrameHeader_take rest le_rfl]
  rw [if_neg (by omega), hp]
  simp only [decodeFrame, hrd]
  cases hd : decodeFramePayload C ((rest.take n).drop frameHeaderSize) a.header.isCompressed
      a.header.isEncrypted a.encryptionKey with
  | error e => rfl
  | ok decoded =>
    simp only
    have hv : min (readFrameHeader rest).2 decoded.length ≤ decoded.length := min_le_right _ _
    have hr := frameRecordLoop_run_eq C a st.offset decoded _ hv _ st [] rfl
    rw [length_nil] at hr
    have hk := recordsWalk_frame C a
      (recordFraming.split (decoded.take (min (readFrameHeader rest).2 decoded.length))).1 st
    rw [hr]
    generalize recordsWalk C a st _ = out at hk ⊢
    obtain ⟨-, ho, -⟩ := hk
    cases out with
    | intact st' =>
      simp only [FrameOutcome.state] at ho
      simp [FrameOutcome.loopResult, advance, ho, ← hn, add_assoc]
    | rejected st' => rfl
    | broken st' =>
      simp only [FrameOutcome.state] at ho
      simp [FrameOutcome.loopResult, advance, torn, ho, ← hn, add_assoc]

/-- The frame loop is the walk over the frames that the rest of the file splits into. -/
theorem frameLoop_run_eq (C : Crates) (a : ScanArgs) (rest : Bytes) :
    ∀ (st : ScanState) (pre : Bytes), StandsAt st pre rest → st.lastValidOffset ≤ st.offset →
      (frameLoop C a st.file.length).run st =
        frameWalk C a st (frameFraming.split rest).1 (frameFraming.split rest).2 := by
  induction rest using frameFraming.split_induction with
  | hnn rest hn =>
    intro st pre ha hv
    have hl := ha.length
    rw [frameFraming.split_of_none hn]
    by_cases hne : rest = []
    · have he : st.file.length ≤ st.offset := by
        simp [hl, hne]
      rw [(frameLoop C a _).run_of_inr (frameStep_end he), frameWalk, if_pos hne]
    · rw [(frameLoop C a _).run_of_inr (frameStep_tail ha hne hn), frameWalk, if_neg hne]
  | hse rest n hn ih =>
    intro st pre ha hv
    have hle := frameFraming.next_le hn
    have hp := frameFraming.next_pos hn
    have hs := frameStep_chunk (C := C) (a := a) ha hn
    have hl := ha.length
    have ht : (rest.take n).length = n := length_take_of_le hle
    rw [frameFraming.split_of_some hn, frameWalk]
    cases hd : decodeFrame C a (rest.take n) with
    | none =>
      rw [hd] at hs
      rw [(frameLoop C a _).run_of_inr hs]
    | some chunks =>
      have hkp := recordsWalk_frame C a chunks st
      rw [hd] at hs
      simp only at hs ⊢
      generalize recordsWalk C a st chunks = out at hkp hs ⊢
      obtain ⟨hk, hko, hkv⟩ := hkp
      cases out with
      | intact st' =>
        simp only [FrameOutcome.state] at hk hko hkv
        rw [(frameLoop C a _).run_of_inl hs, ht, ← hk]
        exact ih (st'.advance n) _ (ha.next hle hk (congrArg (· + n) hko)) le_rfl
      | rejected st' => rw [(frameLoop C a _).run_of_inr hs]
      | broken st' =>
        simp only [FrameOutcome.state] at hk hko hkv
        have hc : ((st'.torn a st.offset).advance n).file.length ≤
            ((st'.torn a st.offset).advance n).offset := by
          simp only [advance, torn, setLen_length]
          omega
        have ho : ((st'.torn a st.offset).advance n).offset = st.offset + n := by
          simp only [advance, torn, hko]
        have hls : ((frameFraming.split (rest.drop n)).1 = [] ∧
            (frameFraming.split (rest.drop n)).2 = []) ↔ rest.length ≤ n := by
          rw [← drop_eq_nil_iff]
          exact frameFraming.split_eq_nil_iff _
        rw [(frameLoop C a _).run_of_inl hs]
        simp only [hls, ht]
        split_ifs with he
        · exact (frameLoop C a _).run_of_inr (frameStep_end (by omega))
        · exact (frameLoop C a _).run_of_inr (frameStep_cut (by omega) hc)

/-- The scan of a file with a full header is one of the two walks over what follows it. -/
theorem scanLastSegment_eq (C : Crates) (a : ScanArgs) (hd body : Bytes)
    (hh : hd.length = segmentHeaderSize) :
    scanLastSegment C a (hd ++ body) = .ok (if a.header.isCompressed || a.header.isEncrypted then
          frameWalk C a (a.initial (hd ++ body)) (frameFraming.split body).1
            (frameFraming.split body).2
        else
          rawWalk C a (a.initial (hd ++ body)) (recordFraming.split body).1
            (recordFraming.split body).2).result := by
  have ha : StandsAt (a.initial (hd ++ body)) hd body := ⟨rfl, hh.symm⟩
  unfold scanLastSegment
  split_ifs with hf
  · exact congrArg (fun st => Except.ok (result st))
      (frameLoop_run_eq C a body (a.initial (hd ++ body)) hd ha le_rfl)
  · exact congrArg (Except.map result) (rawLoop_run_eq C a body (a.initial (hd ++ body)) hd ha)

end LogDb.Recovery
