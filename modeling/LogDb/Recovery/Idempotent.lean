import LogDb.Recovery.Rescan
import LogDb.Recovery.TornTail

/-!
When the result of a scan describes the file it leaves, so that scanning that file again changes
nothing. It does unless a record is counted and then cut off.
-/

namespace LogDb.Recovery

open Lib Format List Option

theorem acceptAll_onFile (a : ScanArgs) (st : ScanState) (file : Bytes) (run : List Record) :
    (st.onFile file).acceptAll a run = (st.acceptAll a run).onFile file := by
  induction run generalizing st with
  | nil => rfl
  | cons r rs ih => exact ih (st.accept a r)

private theorem torn_file {a : ScanArgs} {st : ScanState} {n : ℕ} {pre rest : Bytes}
    (hf : st.file = pre ++ rest) (hv : st.lastValidOffset = pre.length) :
    (st.torn a n).file = st.file.take pre.length := by
  change setLen st.lastValidOffset st.file = _
  rw [hv, setLen_of_le (by rw [hf, length_append]; omega)]

/-- The result of a walk, and the frames that are walked again with the same report. -/
structure FrameKept (C : Crates) (a : ScanArgs) (st : ScanState) (clean : Prop) (r : ScanState)
    (kept : List Bytes) : Prop where
  again : ∀ file, (frameWalk C a (st.onFile file) kept []).lastValidOffset =
    st.offset + kept.flatten.length
  harmless : ∀ file, st.Harmless → (frameWalk C a (st.onFile file) kept []).Harmless
  report : clean → r.file = st.file.take (st.offset + kept.flatten.length) ∧
    r.lastValidOffset = st.offset + kept.flatten.length ∧
    ∀ file, SameReport r (frameWalk C a (st.onFile file) kept [])
  lost : ¬ clean → r.file.length ≠ r.lastValidOffset ∨ ¬ r.file <+: st.file ∨
    (r.file = st.file.take (st.offset + kept.flatten.length) ∧
      ∀ file, (frameWalk C a (st.onFile file) kept []).count < r.count)

section

variable {C : Crates} {a : ScanArgs} {st res : ScanState} {clean : Prop} {kept : List Bytes}

theorem FrameKept.nothing (hv : st.lastValidOffset = st.offset)
    (hs : clean → res.file = st.file.take st.offset ∧ res.lastValidOffset = st.offset ∧
      SameReport res st)
    (hl : ¬ clean → res.file.length ≠ res.lastValidOffset ∨ ¬ res.file <+: st.file ∨
      (res.file = st.file.take st.offset ∧ st.count < res.count)) :
    FrameKept C a st clean res [] :=
  ⟨fun _ => hv, fun _ h => h, fun h => ⟨(hs h).1, (hs h).2.1, fun _ =>
    ⟨(hs h).2.2.lastSequence, (hs h).2.2.lastHash, (hs h).2.2.count⟩⟩,
    fun h => (hl h).imp_right (Or.imp_right fun hc => ⟨hc.1, fun _ => hc.2⟩)⟩

theorem FrameKept.accepted {c : Bytes} {chunks : List Bytes} {run : List Record}
    (hd : decodeFrame C a c = some chunks)
    (hr : run = idRun a.stride (st.expectation a) (leadingRecords C chunks))
    (hc : ChainHolds C a st.chainPrev run) (hl : run.length = chunks.length)
    (h : FrameKept C a ((st.acceptAll a run).advance c.length) clean res kept) :
    FrameKept C a st clean res (c :: kept) := by
  obtain ⟨hf, ho, -, hw, -⟩ := acceptAll_keeps a st run
  have hk : ∀ file, frameWalk C a (st.onFile file) (c :: kept) [] =
      frameWalk C a (((st.acceptAll a run).advance c.length).onFile file) kept [] := by
    intro file
    have ht := recordsWalk_takes C a chunks (st.onFile file)
    rw [show (st.onFile file).expectation a = st.expectation a from rfl, ← hr] at ht
    rw [frameWalk, hd]
    cases hx : recordsWalk C a (st.onFile file) chunks with
    | intact s =>
      rw [hx] at ht
      simp only [hx, ht.2.2, acceptAll_onFile]
      rfl
    | rejected s =>
      rw [hx] at ht
      exact absurd hl ht.2.1
    | broken s =>
      rw [hx] at ht
      exact absurd hc ht
  have hn : ((st.acceptAll a run).advance c.length).offset + kept.flatten.length =
      st.offset + (c :: kept).flatten.length := by
    change (st.acceptAll a run).offset + c.length + _ = _
    rw [ho, flatten_cons, length_append, add_assoc]
  have hf' : ((st.acceptAll a run).advance c.length).file = st.file := hf
  obtain ⟨ha, hh, hs, hls⟩ := h
  simp only [← hk, hn, hf'] at ha hh hs hls
  exact ⟨ha, fun file hst => hh file fun w hm => hst w (hw ▸ hm), hs, hls⟩

theorem framesClean_cons {c : Bytes} {chunks cs : List Bytes} {prev : Bytes32} {run : List Record}
    (hd : decodeFrame C a c = some chunks) (hp : a.hashEnabled = true → st.chainPrev = prev)
    (hr : run = idRun a.stride (st.expectation a) (leadingRecords C chunks)) :
    FramesClean C a (st.expectation a) prev (c :: cs) ↔
      ChainHolds C a st.chainPrev run ∧ if run.length = chunks.length then
        FramesClean C a (expectedAfter a.stride (st.expectation a) run) (hashAfter prev run) cs
      else run = [] := by
  subst hr
  rw [FramesClean, hd]
  exact and_congr_left fun _ => forall_congr' fun hh => by rw [hp hh]

theorem FrameKept.broken {st' : ScanState} {pre c tail : Bytes} {chunks cs : List Bytes}
    {prev : Bytes32} (hd : decodeFrame C a c = some chunks)
    (hp : a.hashEnabled = true → st.chainPrev = prev)
    (hx : recordsWalk C a st chunks = .broken st')
    (hfl : st.file = pre ++ ((c :: cs).flatten ++ tail)) (ho : st.offset = pre.length)
    (hv : st.lastValidOffset = st.offset) (hc : frameFraming.IsChunk c)
    (hr : res = if cs = [] ∧ tail = [] then (st'.torn a st.offset).advance c.length
      else ((st'.torn a st.offset).advance c.length).torn a
        ((st'.torn a st.offset).advance c.length).offset) :
    FrameKept C a st (FramesClean C a (st.expectation a) prev (c :: cs)) res [] := by
  have ht := recordsWalk_takes C a chunks st
  obtain ⟨hf, hof, hvl⟩ := recordsWalk_frame C a chunks st
  rw [hx] at ht hf hof hvl
  have hm := broken_misdescribes hfl ho hv hc hf hof hvl res hr
  exact .nothing hv (fun h => absurd ((framesClean_cons hd hp rfl).mp h).1 ht) fun _ =>
    hm.2.imp_right .inl

end

theorem frameWalk_kept (C : Crates) (a : ScanArgs) (tail : Bytes) (cs : List Bytes)
    (hcs : ∀ c ∈ cs, frameFraming.IsChunk c) (st : ScanState) (pre : Bytes) (prev : Bytes32)
    (hfl : st.file = pre ++ (cs.flatten ++ tail)) (ho : st.offset = pre.length)
    (hv : st.lastValidOffset = st.offset) (hpv : a.hashEnabled = true → st.chainPrev = prev) :
    ∃ kept, kept <+: cs ∧ FrameKept C a st (FramesClean C a (st.expectation a) prev cs)
      (frameWalk C a st cs tail) kept := by
  have hv' := hv.trans ho
  fun_induction frameWalk C a st cs tail generalizing pre prev with
  | case1 st =>
    refine ⟨[], prefix_rfl, .nothing hv (fun _ => ⟨?_, hv, ⟨rfl, rfl, rfl⟩⟩) (absurd trivial)⟩
    rw [ho, hfl]
    simp
  | case2 st tail =>
    refine ⟨[], prefix_rfl, .nothing hv (fun _ => ⟨?_, hv, ⟨rfl, rfl, rfl⟩⟩) (absurd trivial)⟩
    rw [torn_file hfl hv', ho]
  | case3 st c cs tail hd =>
    refine ⟨[], nil_prefix, .nothing hv (fun _ => ⟨?_, hv, ⟨rfl, rfl, rfl⟩⟩) fun h => ?_⟩
    · rw [torn_file hfl hv', ho]
    · rw [FramesClean, hd] at h
      exact absurd trivial h
  | case4 st c cs tail chunks hd st' hx ih =>
    have ht := recordsWalk_takes C a chunks st
    rw [hx] at ht
    obtain ⟨hch, hl, rfl⟩ := ht
    obtain ⟨hf, hof, -⟩ := acceptAll_keeps a st
      (idRun a.stride (st.expectation a) (leadingRecords C chunks))
    have hn := congrArg (· + c.length) (hof.trans ho)
    rw [← length_append] at hn
    obtain ⟨kept, hp, hk⟩ := ih (fun d hd => hcs d (mem_cons_of_mem c hd)) (pre ++ c) _
      (hf.trans (hfl.trans (by simp))) hn rfl
      (fun hh => (acceptAll_chainPrev hh st _).trans (congrArg (hashAfter · _) (hpv hh))) hn
    refine ⟨c :: kept, (prefix_cons_inj c).mpr hp, ?_⟩
    rw [framesClean_cons hd hpv rfl, if_pos hl, and_iff_right hch, ← acceptAll_expectation]
    exact hk.accepted hd rfl hch hl
  | case5 st c cs tail chunks hd st' hx =>
    have ht := recordsWalk_takes C a chunks st
    rw [hx] at ht
    obtain ⟨hch, hl, rfl⟩ := ht
    obtain ⟨hf, -, hvl, -, hn⟩ := acceptAll_keeps a st
      (idRun a.stride (st.expectation a) (leadingRecords C chunks))
    rw [framesClean_cons hd hpv rfl, if_neg hl, and_iff_right hch]
    have hc := torn_file (a := a) (n := st.offset) (hf.trans hfl) (hvl.trans hv')
    rw [hf, ← ho] at hc
    refine ⟨[], nil_prefix, .nothing hv (fun h => ⟨hc, hvl.trans hv, ?_⟩) fun h => .inr (.inr
      ⟨hc, ?_⟩)⟩
    · rw [h]
      exact ⟨rfl, rfl, rfl⟩
    · have hp := length_pos_iff.mpr h
      change st.count < (st.acceptAll a _).count
      omega
  | case6 st c cs tail chunks hd st' hx cut he =>
    exact ⟨[], nil_prefix, .broken hd hpv hx hfl ho hv (hcs c mem_cons_self) (if_pos he).symm⟩
  | case7 st c cs tail chunks hd st' hx cut he =>
    exact ⟨[], nil_prefix, .broken hd hpv hx hfl ho hv (hcs c mem_cons_self) (if_neg he).symm⟩

/-- The result of a scan fits the file it leaves, and scanning that file again confirms it. -/
structure DescribesFile (C : Crates) (a : ScanArgs) (file : Bytes) (r : ScanResult) : Prop where
  length : r.file.length = r.validOffset
  kept : r.file <+: file
  again : ∃ r', scanLastSegment C a r.file = .ok r' ∧ r'.lastSequence = r.lastSequence ∧
    r'.lastHash = r.lastHash ∧ r'.validOffset = r.validOffset ∧ r'.count = r.count ∧
    ∀ w ∈ r'.warnings, w.Harmless

/-- The id the first record must have: under sharding any id will do. -/
def ScanArgs.firstExpectation (a : ScanArgs) : Option UInt64 :=
  if 0 < a.shardBits then none else some a.header.baseSequence

/-- No record that the scan counts is cut off. In a raw segment a counted record is cut off when
it breaks the chain, in a framed one also when a later record of its frame is rejected. -/
def NoCountedLoss (C : Crates) (a : ScanArgs) (body : Bytes) : Prop :=
  if a.header.isCompressed || a.header.isEncrypted then
    FramesClean C a a.firstExpectation a.header.prevLastHash (frameFraming.split body).1
  else
    ChainHolds C a a.header.prevLastHash
      (idRun a.stride a.firstExpectation (intactRecords C (recordFraming.split body).1))

private theorem initial_expectation_eq (a : ScanArgs) (file : Bytes) :
    (a.initial file).expectation a = a.firstExpectation := by
  simp [ScanState.expectation, ScanArgs.initial, ScanArgs.firstExpectation]

private theorem initial_harmless (a : ScanArgs) (file : Bytes) : (a.initial file).Harmless := by
  simp [ScanState.Harmless, ScanArgs.initial]

section

variable (C : Crates) (a : ScanArgs) (hdr body : Bytes) (hhdr : hdr.length = segmentHeaderSize)
include hdr body hhdr

private theorem raw_describes_iff (hl : ¬ (a.header.isCompressed || a.header.isEncrypted) = true) :
    DescribesFile C a (hdr ++ body)
        (rawWalk C a (a.initial (hdr ++ body)) (recordFraming.split body).1
          (recordFraming.split body).2).result ↔
      ChainHolds C a a.header.prevLastHash
        (idRun a.stride a.firstExpectation (intactRecords C (recordFraming.split body).1)) := by
  obtain ⟨kept, ⟨rest, hcs⟩, hw⟩ := rawWalk_kept C a (recordFraming.split body).2
    (recordFraming.split body).1 (a.initial (hdr ++ body))
  have hs : Standing (a.initial (hdr ++ body)) (recordFraming.split body).1
      (recordFraming.split body).2 := by
    refine ⟨?_, le_rfl, fun _ _ => rfl⟩
    rw [recordFraming.split_flatten]
    change segmentHeaderSize + body.length = (hdr ++ body).length
    rw [length_append, hhdr]
  have hu := rawWalk_cutAt C a _ _ _ hs
  have hk : ∀ c ∈ kept, recordFraming.IsChunk c := fun c hc =>
    recordFraming.isChunk_of_mem_split body c (hcs ▸ mem_append_left _ hc)
  have hbo : body = kept.flatten ++ (rest.flatten ++ (recordFraming.split body).2) := by
    conv_lhs => rw [← recordFraming.split_flatten body, ← hcs]
    simp
  set r := rawWalk C a (a.initial (hdr ++ body)) (recordFraming.split body).1
    (recordFraming.split body).2 with hr
  have ho : r.lastValidOffset = (hdr ++ kept.flatten).length := by
    rw [hr, hw.offset, length_append, hhdr]
    split_ifs with hn
    · simp [hn, ScanArgs.initial]
    · rfl
  have hf : r.file = hdr ++ kept.flatten := by
    have hfu : (a.initial (hdr ++ body)).file =
        (hdr ++ kept.flatten) ++ (rest.flatten ++ (recordFraming.split body).2) := by
      change hdr ++ body = _
      conv_lhs => rw [hbo]
      simp
    rw [hu.file, ho, hfu, take_left]
  have hsc : scanLastSegment C a r.file = .ok
      (rawWalk C a ((a.initial (hdr ++ body)).onFile (hdr ++ kept.flatten)) kept []).result := by
    rw [hf, scanLastSegment_eq C a hdr kept.flatten hhdr, if_neg hl,
      recordFraming.split_flatten_chunks hk]
    rfl
  rw [initial_expectation_eq] at hw
  constructor
  · intro hd
    by_contra hnot
    obtain ⟨r', hr', -, -, -, ha, -⟩ := hd.again
    have heq := hsc.symm.trans hr'
    cases heq
    have hmo := hw.lost (hdr ++ kept.flatten) hnot
    change (rawWalk C a ((a.initial (hdr ++ body)).onFile (hdr ++ kept.flatten)) kept []).count =
      r.count at ha
    omega
  · intro hch
    have ht := hw.report (hdr ++ kept.flatten) hch
    refine ⟨hu.length, ?_, _, hsc, ht.lastSequence.symm, ht.lastHash.symm, hw.again _,
      ht.count.symm, hw.harmless _ (initial_harmless a _)⟩
    change r.file <+: hdr ++ body
    rw [hu.file]
    exact take_prefix _ _

private theorem framed_describes_iff (hl : (a.header.isCompressed || a.header.isEncrypted) = true) :
    DescribesFile C a (hdr ++ body)
        (frameWalk C a (a.initial (hdr ++ body)) (frameFraming.split body).1
          (frameFraming.split body).2).result ↔
      FramesClean C a a.firstExpectation a.header.prevLastHash (frameFraming.split body).1 := by
  have hbo := frameFraming.split_flatten body
  obtain ⟨kept, ⟨rest, hcs⟩, hw⟩ := frameWalk_kept C a (frameFraming.split body).2
    (frameFraming.split body).1 (frameFraming.isChunk_of_mem_split body)
    (a.initial (hdr ++ body)) hdr a.header.prevLastHash (by rw [hbo]; rfl) hhdr.symm rfl
    (fun _ => rfl)
  have hck : ∀ c ∈ kept, frameFraming.IsChunk c := fun c hc =>
    frameFraming.isChunk_of_mem_split body c (hcs ▸ mem_append_left _ hc)
  have ho : (a.initial (hdr ++ body)).offset + kept.flatten.length =
      (hdr ++ kept.flatten).length := by
    rw [length_append, hhdr]
    rfl
  have hk : (a.initial (hdr ++ body)).file.take (hdr ++ kept.flatten).length =
      hdr ++ kept.flatten := by
    have hu : hdr ++ body =
        (hdr ++ kept.flatten) ++ (rest.flatten ++ (frameFraming.split body).2) := by
      conv_lhs => rw [← hbo, ← hcs]
      simp
    change (hdr ++ body).take _ = _
    rw [hu, take_left]
  have hs : scanLastSegment C a (hdr ++ kept.flatten) = .ok
      (frameWalk C a ((a.initial (hdr ++ body)).onFile (hdr ++ kept.flatten)) kept []).result := by
    rw [scanLastSegment_eq C a hdr kept.flatten hhdr, if_pos hl,
      frameFraming.split_flatten_chunks hck]
    rfl
  obtain ⟨hb, hh, hm, hdf⟩ := hw
  simp only [initial_expectation_eq, ho, hk] at hb hm hdf
  set r := frameWalk C a (a.initial (hdr ++ body)) (frameFraming.split body).1
    (frameFraming.split body).2 with hr
  constructor
  · intro hd
    by_contra hn
    rcases hdf hn with he | hp | ⟨hf, hls⟩
    · exact he hd.length
    · exact hp hd.kept
    · obtain ⟨r', hr', -, -, -, hg, -⟩ := hd.again
      change scanLastSegment C a r.file = _ at hr'
      rw [hf] at hr'
      have heq := hs.symm.trans hr'
      cases heq
      exact (hls _).ne hg
  · intro hcn
    obtain ⟨hf, hv, hrs⟩ := hm hcn
    have ht := hrs (hdr ++ kept.flatten)
    have ha : scanLastSegment C a r.result.file = _ := (congrArg (scanLastSegment C a) hf).trans hs
    refine ⟨?_, ?_, _, ha, ht.lastSequence.symm, ht.lastHash.symm,
      (hb _).trans hv.symm, ht.count.symm, hh _ (initial_harmless a _)⟩
    · change r.file.length = r.lastValidOffset
      rw [hf, hv]
    · change r.file <+: hdr ++ body
      rw [hf, ← hk]
      exact take_prefix _ _

/-- A scan describes the file it leaves exactly when it counts no record that it cuts off. -/
theorem scanLastSegment_describes_iff :
    (∀ r, scanLastSegment C a (hdr ++ body) = .ok r → DescribesFile C a (hdr ++ body) r) ↔
      NoCountedLoss C a body := by
  have hs := scanLastSegment_eq C a hdr body hhdr
  have hf : (∀ r, scanLastSegment C a (hdr ++ body) = .ok r →
      DescribesFile C a (hdr ++ body) r) ↔ DescribesFile C a (hdr ++ body)
        (if a.header.isCompressed || a.header.isEncrypted then
          frameWalk C a (a.initial (hdr ++ body)) (frameFraming.split body).1
            (frameFraming.split body).2
        else
          rawWalk C a (a.initial (hdr ++ body)) (recordFraming.split body).1
            (recordFraming.split body).2).result := by
    rw [hs]
    constructor
    · intro h
      exact h _ rfl
    · intro h r hr
      cases hr
      exact h
  rw [hf, NoCountedLoss]
  split_ifs with hl
  · exact framed_describes_iff C a hdr body hhdr hl
  · exact raw_describes_iff C a hdr body hhdr hl

end

def tornFile : Bytes :=
  rawArgs.header.serialize rawCrates zeros32 ++
    (batchBytes rawCrates [⟨0, 7, [104, 105], zeros32⟩, ⟨1, 9, [], zeros32⟩] ++ [62, 0, 0, 0, 2, 0])

/-- A torn third record is cut off, and the result describes what is left. -/
theorem scanLastSegment_describes_torn : ∃ r, scanLastSegment rawCrates rawArgs tornFile = .ok r ∧
      DescribesFile rawCrates rawArgs tornFile r := by
  have hs : okAnd (scanLastSegment rawCrates rawArgs tornFile) (fun _ => true) = true := by
    decide +kernel
  obtain ⟨r, hr, -⟩ := exists_of_okAnd hs
  exact ⟨r, hr, (scanLastSegment_describes_iff rawCrates rawArgs _ _ (by simp)).mpr nofun r hr⟩

/-- The arguments for the first segment of a hashed log whose chain key is all zeros. -/
def hashedArgs : ScanArgs where
  segmentId := 1
  header := SegmentHeader.firstSegment zeros32 0 0 1 true hashAlgoBlake3
  hashEnabled := true
  chainKey := zeros32
  encryptionKey := none
  shardBits := 0

def forgedSegment : Bytes :=
  hashedArgs.header.serialize rawCrates zeros32 ++
    batchBytes rawCrates [⟨0, 7, [104, 105], zeros32⟩]

/-- The forged record is cut off but counted: the first scan reports one record, the next none. -/
theorem forgedSegment_misdescribed :
    ¬ ∀ r, scanLastSegment rawCrates hashedArgs forgedSegment = .ok r →
      DescribesFile rawCrates hashedArgs forgedSegment r := by
  have hf : (scanLastSegment rawCrates hashedArgs forgedSegment).toOption.map
      ScanResult.count = some 1 := by decide +kernel
  have hd : (scanLastSegment rawCrates hashedArgs forgedSegment).toOption.bind
      (fun r => (scanLastSegment rawCrates hashedArgs r.file).toOption.map ScanResult.count) =
        some 0 := by decide +kernel
  intro hdc
  cases hs : scanLastSegment rawCrates hashedArgs forgedSegment with
  | error e =>
    rw [hs] at hf
    cases hf
  | ok r =>
    obtain ⟨r', hr', -, -, -, hc, -⟩ := (hdc r hs).again
    rw [hs] at hf hd
    simp only [Except.toOption, map_some, some.injEq] at hf
    simp only [Except.toOption, bind_some, hr', map_some, some.injEq] at hd
    omega

end LogDb.Recovery
