import LogDb.Recovery.Accept

/-!
Scanning the file a scan has left. Which records a scan reaches is read off the chunks of the
file alone; the part it keeps is walked the same way again.
-/

namespace LogDb.Recovery

open Lib Format List ScanState

/-- The records whose ids follow, up to the first that does not. -/
def idRun (stride : UInt64) : Option UInt64 → List Record → List Record
  | _, [] => []
  | expected, r :: rs =>
    if expected = none ∨ expected = some r.id.sequence then
      r :: idRun stride (some (r.id.sequence + stride)) rs
    else []

/-- The records of a raw segment, damaged ones left out. -/
def intactRecords (C : Crates) : List Bytes → List Record
  | [] => []
  | c :: cs =>
    match deserializeRecord C c with
    | .ok (record, _) => record :: intactRecords C cs
    | .error _ => intactRecords C cs

/-- The records of a frame, up to the first damaged one. -/
def leadingRecords (C : Crates) : List Bytes → List Record
  | [] => []
  | c :: cs =>
    match deserializeRecord C c with
    | .ok (record, _) => record :: leadingRecords C cs
    | .error _ => []

def expectedAfter (stride : UInt64) (expected : Option UInt64) (run : List Record) :
    Option UInt64 :=
  run.foldl (fun _ r => some (r.id.sequence + stride)) expected

def hashAfter (prev : Bytes32) (run : List Record) : Bytes32 :=
  run.foldl (fun _ r => r.hashN) prev

theorem hashAfter_eq (prev : Bytes32) (run : List Record) :
    hashAfter prev run = run.getLast?.elim prev Record.hashN := by
  rcases eq_nil_or_concat run with rfl | ⟨rs, r, rfl⟩
  · rfl
  · simp [hashAfter]

variable {a : ScanArgs} {st : ScanState} {r : Record} {C : Crates} {rs : List Record}

theorem chainFrom_append {key prev : Bytes32} {xs ys : List Record} :
    ChainFrom C key prev (xs ++ ys) ↔
      ChainFrom C key prev xs ∧ ChainFrom C key (hashAfter prev xs) ys := by
  induction xs generalizing prev with
  | nil => simp [ChainFrom, hashAfter]
  | cons r rs ih =>
    simp only [cons_append, ChainFrom, ih, and_assoc]
    rfl

/-- The reached records extend the hash chain, when there is one. -/
def ChainHolds (C : Crates) (a : ScanArgs) (prev : Bytes32) (run : List Record) : Prop :=
  a.hashEnabled = true → ChainFrom C a.chainKey prev run

theorem idRun_of_idOk (h : IdOk a st r) (rs : List Record) :
    idRun a.stride (st.expectation a) (r :: rs) =
      r :: idRun a.stride ((st.accept a r).expectation a) rs := by
  rw [idRun, if_pos (idOk_iff.mp h), accept_expectation]

theorem idRun_of_not_idOk (h : ¬ IdOk a st r) (rs : List Record) :
    idRun a.stride (st.expectation a) (r :: rs) = [] := by
  rw [idRun, if_neg (fun hid => h (idOk_iff.mpr hid))]

theorem chainHolds_cons (h : ChainOk C a st r) :
    ChainHolds C a st.chainPrev (r :: rs) ↔ ChainHolds C a (st.accept a r).chainPrev rs := by
  unfold ChainHolds
  refine imp_congr_right fun hh => ?_
  have hp : (st.accept a r).chainPrev = r.hashN := if_pos hh
  rw [hp, ChainFrom]
  exact and_iff_right (h hh)

theorem not_chainHolds_cons (h : ¬ ChainOk C a st r) : ¬ ChainHolds C a st.chainPrev (r :: rs) :=
  fun hl => h fun hh => (hl hh).1

theorem chainHolds_nil (C : Crates) (a : ScanArgs) (prev : Bytes32) : ChainHolds C a prev [] :=
  fun _ => trivial

theorem acceptAll_expectation (a : ScanArgs) (st : ScanState) (run : List Record) :
    (st.acceptAll a run).expectation a = expectedAfter a.stride (st.expectation a) run := by
  induction run generalizing st with
  | nil => rfl
  | cons r rs ih =>
    have hr := ih (st.accept a r)
    rw [accept_expectation] at hr
    exact hr

theorem acceptAll_chainPrev (hh : a.hashEnabled = true) (st : ScanState) (run : List Record) :
    (st.acceptAll a run).chainPrev = hashAfter st.chainPrev run := by
  induction run generalizing st with
  | nil => rfl
  | cons r rs ih =>
    have hp : (st.accept a r).chainPrev = r.hashN := if_pos hh
    have hr := ih (st.accept a r)
    rw [hp] at hr
    exact hr

/-- What the scan reports about a file, apart from the warnings. -/
structure SameReport (r b : ScanState) : Prop where
  lastSequence : r.lastSequence = b.lastSequence
  lastHash : r.lastHash = b.lastHash
  count : r.count = b.count

/-- Not a report of a torn write or of a broken chain. -/
def RecoveryWarning.Harmless : RecoveryWarning → Prop
  | .tornWrite .. => False
  | .hashChainBreak .. => False
  | .corruptedHeader .. => True
  | .missingSegment .. => True

def ScanState.Harmless (st : ScanState) : Prop :=
  ∀ w ∈ st.warnings, w.Harmless

def ScanState.onFile (st : ScanState) (file : Bytes) : ScanState :=
  { st with file := file }

/-- The result of a walk, and the chunks that are walked again with the same report. A record that
breaks the chain is counted although it is cut off. -/
structure RawKept (C : Crates) (a : ScanArgs) (st : ScanState) (run : List Record) (r : ScanState)
    (kept : List Bytes) : Prop where
  offset : r.lastValidOffset =
    if kept = [] then st.lastValidOffset else st.offset + kept.flatten.length
  again : ∀ file, (rawWalk C a (st.onFile file) kept []).lastValidOffset = r.lastValidOffset
  harmless : ∀ file, st.Harmless → (rawWalk C a (st.onFile file) kept []).Harmless
  report : ∀ file, ChainHolds C a st.chainPrev run →
    SameReport r (rawWalk C a (st.onFile file) kept [])
  lost : ∀ file, ¬ ChainHolds C a st.chainPrev run →
    r.count = (rawWalk C a (st.onFile file) kept []).count + 1

namespace RawKept

variable {run : List Record} {res : ScanState} {kept : List Bytes} {c : Bytes}

theorem nothing (hv : res.lastValidOffset = st.lastValidOffset)
    (hs : ChainHolds C a st.chainPrev run → SameReport res st)
    (hl : ¬ ChainHolds C a st.chainPrev run → res.count = st.count + 1) :
    RawKept C a st run res [] :=
  ⟨hv, fun _ => hv.symm, fun _ h => h,
    fun _ h => ⟨(hs h).lastSequence, (hs h).lastHash, (hs h).count⟩, fun _ => hl⟩

/-- The walk stops here without a loss. -/
theorem torn (n : ℕ) : RawKept C a st [] (st.torn a n) [] :=
  nothing rfl (fun _ => ⟨rfl, rfl, rfl⟩) fun h => absurd (chainHolds_nil C a _) h

theorem accepted {n : ℕ} (hr : deserializeRecord C c = .ok (r, n)) (hid : IdOk a st r)
    (hc : ChainOk C a st r) (h : RawKept C a ((st.accept a r).advance c.length) run res kept) :
    RawKept C a st (r :: run) res (c :: kept) := by
  have hf : ∀ file, rawWalk C a (st.onFile file) (c :: kept) [] =
      rawWalk C a (((st.accept a r).advance c.length).onFile file) kept [] := by
    intro file
    rw [rawWalk, hr]
    exact (if_pos hid).trans (if_pos hc)
  have hl : ChainHolds C a _ (r :: run) ↔ _ := chainHolds_cons hc
  refine ⟨?_, fun file => hf file ▸ h.again file, fun file => hf file ▸ h.harmless file,
    fun file hc => hf file ▸ h.report file (hl.mp hc),
    fun file hc => hf file ▸ h.lost file (hl.not.mp hc)⟩
  rw [h.offset, if_neg (cons_ne_nil _ _)]
  split_ifs with hn
  · simp [hn, advance, accept, counted]
  · simp [advance, accept, counted, add_assoc]

/-- When nothing is accepted behind a damaged record, it is cut off as well. -/
theorem skipped {e : String} (hr : deserializeRecord C c = .error e)
    (h : RawKept C a (st.skip a c.length) run res kept) :
    RawKept C a st run res (if kept = [] then [] else c :: kept) := by
  split_ifs with hn
  · subst hn
    have hs := h.report []
    exact nothing h.offset (fun hc => ⟨(hs hc).lastSequence, (hs hc).lastHash, (hs hc).count⟩)
      (h.lost [])
  · have hf : ∀ file, rawWalk C a (st.onFile file) (c :: kept) [] =
        rawWalk C a ((st.skip a c.length).onFile file) kept [] := by
      intro file
      rw [rawWalk, hr]
      exact if_neg fun he => hn he.1
    refine ⟨?_, fun file => hf file ▸ h.again file, fun file hh => hf file ▸ h.harmless file ?_,
      fun file => hf file ▸ h.report file, fun file => hf file ▸ h.lost file⟩
    · rw [h.offset, if_neg hn, if_neg (cons_ne_nil _ _)]
      simp [skip, add_assoc]
    · intro w hw
      rcases mem_append.mp hw with hw | hw
      · exact hh w hw
      · rw [mem_singleton.mp hw]
        trivial

end RawKept

theorem rawWalk_kept (C : Crates) (a : ScanArgs) (tail : Bytes) (cs : List Bytes) (st : ScanState) :
    ∃ kept, kept <+: cs ∧ RawKept C a st (idRun a.stride (st.expectation a) (intactRecords C cs))
      (rawWalk C a st cs tail) kept := by
  fun_induction rawWalk C a st cs tail with
  | case1 st => exact ⟨[], prefix_rfl, .nothing rfl (fun _ => ⟨rfl, rfl, rfl⟩) fun h =>
      absurd (chainHolds_nil C a _) h⟩
  | case2 st => exact ⟨[], prefix_rfl, .torn _⟩
  | case3 st c cs tail record n hr hid hc ih =>
    obtain ⟨kept, hp, hk⟩ := ih
    rw [intactRecords, hr]
    refine ⟨c :: kept, (prefix_cons_inj c).mpr hp, ?_⟩
    simp only [idRun_of_idOk hid]
    exact hk.accepted hr hid hc
  | case4 st c cs tail record n hr hid hc =>
    rw [intactRecords, hr]
    simp only [idRun_of_idOk hid]
    exact ⟨[], nil_prefix, .nothing rfl (fun h => absurd h (not_chainHolds_cons hc)) fun _ => rfl⟩
  | case5 st c cs tail record n hr hid =>
    rw [intactRecords, hr]
    simp only [idRun_of_not_idOk hid]
    exact ⟨[], nil_prefix, .torn _⟩
  | case6 st c cs tail e hr he =>
    rw [intactRecords, hr, he.1]
    exact ⟨[], nil_prefix, .torn _⟩
  | case7 st c cs tail e hr he ih =>
    obtain ⟨kept, hp, hk⟩ := ih
    rw [intactRecords, hr]
    refine ⟨_, ?_, hk.skipped hr⟩
    split_ifs
    · exact nil_prefix
    · exact (prefix_cons_inj c).mpr hp

/-- A frame is taken over as a whole or rejected, according to the run of ids it starts with. -/
def FrameOutcome.Takes (C : Crates) (a : ScanArgs) (st : ScanState) (chunks : List Bytes)
    (run : List Record) : FrameOutcome → Prop
  | .intact st' => ChainHolds C a st.chainPrev run ∧ run.length = chunks.length ∧
    st' = st.acceptAll a run
  | .rejected st' => ChainHolds C a st.chainPrev run ∧ run.length ≠ chunks.length ∧
    st' = st.acceptAll a run
  | .broken _ => ¬ ChainHolds C a st.chainPrev run

theorem recordsWalk_takes (C : Crates) (a : ScanArgs) (chunks : List Bytes) (st : ScanState) :
    (recordsWalk C a st chunks).Takes C a st chunks
      (idRun a.stride (st.expectation a) (leadingRecords C chunks)) := by
  fun_induction recordsWalk C a st chunks with
  | case1 st => exact ⟨chainHolds_nil C a _, rfl, rfl⟩
  | case2 st c cs record n hr hid hc ih =>
    rw [leadingRecords, hr]
    simp only [idRun_of_idOk hid]
    cases ho : recordsWalk C a (st.accept a record) cs <;> rw [ho] at ih <;>
      simp only [FrameOutcome.Takes, chainHolds_cons hc, length_cons, Nat.add_right_cancel_iff,
        ne_eq] <;> exact ih
  | case3 st c cs record n hr hid hc =>
    rw [leadingRecords, hr]
    simp only [idRun_of_idOk hid]
    exact not_chainHolds_cons hc
  | case4 st c cs record n hr hid =>
    rw [leadingRecords, hr]
    simp only [idRun_of_not_idOk hid]
    exact ⟨chainHolds_nil C a _, (Nat.succ_ne_zero _).symm, rfl⟩
  | case5 st c cs e hr =>
    rw [leadingRecords, hr]
    exact ⟨chainHolds_nil C a _, (Nat.succ_ne_zero _).symm, rfl⟩

/-- In the frames that are reached, every accepted record extends the hash chain, and the first
frame that is not accepted as a whole is rejected at its first record. -/
def FramesClean (C : Crates) (a : ScanArgs) : Option UInt64 → Bytes32 → List Bytes → Prop
  | _, _, [] => True
  | expected, prev, c :: cs =>
    match decodeFrame C a c with
    | none => True
    | some chunks =>
      let run := idRun a.stride expected (leadingRecords C chunks)
      ChainHolds C a prev run ∧
        if run.length = chunks.length then
          FramesClean C a (expectedAfter a.stride expected run) (hashAfter prev run) cs
        else run = []

private theorem frame_ne_zeros {c : Bytes} (h : frameFraming.IsChunk c) :
    c ≠ List.replicate c.length 0 := by
  obtain ⟨-, hc, -, hle⟩ := frameFraming_next_eq_some.mp h
  have hz : ∀ n, leVal (replicate n 0) = 0 := by
    intro n
    induction n with
    | zero => rfl
    | succ n ih => simp [replicate_succ, leVal, ih]
  intro heq
  apply hc
  rw [heq, readFrameHeader, field_zero, take_replicate]
  exact hz _

/-- After a broken chain the scan leaves a file that is no longer described by its result. -/
theorem broken_misdescribes {st' : ScanState} {pre c : Bytes} {cs : List Bytes} {tail : Bytes}
    (hf : st.file = pre ++ ((c :: cs).flatten ++ tail)) (ho : st.offset = pre.length)
    (hv : st.lastValidOffset = st.offset) (hc : frameFraming.IsChunk c)
    (hkf : st'.file = st.file) (hko : st'.offset = st.offset)
    (hk : st'.lastValidOffset = st.lastValidOffset) (r : ScanState)
    (hr : r = if cs = [] ∧ tail = [] then (st'.torn a st.offset).advance c.length
      else ((st'.torn a st.offset).advance c.length).torn a
        ((st'.torn a st.offset).advance c.length).offset) :
    r.file ≠ st.file ∧ (r.file.length ≠ r.lastValidOffset ∨ ¬ r.file <+: st.file) := by
  have hp := hc.length_pos
  have hu : (st'.torn a st.offset).file = pre := by
    change setLen st'.lastValidOffset st'.file = pre
    rw [hk, hv, ho, hkf, setLen_of_le (by rw [hf, length_append]; omega), hf, take_left]
  split_ifs at hr with he
  · have hre : r.file = pre := by
      rw [hr]
      exact hu
    have hl := congrArg length hf
    simp only [flatten_cons, length_append] at hl
    refine ⟨fun heq => ?_, .inl ?_⟩
    · rw [← heq, hre] at hl
      omega
    · rw [hre, hr]
      change pre.length ≠ st'.offset + c.length
      omega
  · suffices hn : ¬ r.file <+: st.file from ⟨fun heq => hn (heq ▸ prefix_rfl), .inr hn⟩
    intro ha
    have hre : r.file = pre ++ replicate c.length 0 := by
      rw [hr]
      simp only [advance, torn] at hu ⊢
      rw [hu, hko, ho, setLen, take_of_length_le (Nat.le_add_right _ _), Nat.add_sub_cancel_left]
    rw [hre, hf, prefix_append_right_inj, flatten_cons, append_assoc] at ha
    have hs := prefix_of_prefix_length_le ha (prefix_append c _) (by simp)
    exact frame_ne_zeros hc (hs.eq_of_length (by simp)).symm

end LogDb.Recovery
