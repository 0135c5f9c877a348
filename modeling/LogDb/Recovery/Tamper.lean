import LogDb.Lib.HashChain
import LogDb.Format.Crates
import LogDb.Recovery.Accept
import LogDb.Recovery.Rescan
import LogDb.Recovery.Shard

/-!
What a recovery without warnings says about the records of a directory. The last segment is checked
link by link, so its last hash and sequence commit to its records; the closed segments are not
looked at, and their records may be anything.
-/

namespace LogDb.Recovery

open Lib Format Storage List SegmentHeader

section

variable (C : Crates)

/-- The record chunks of a frame; none when its payload cannot be decoded. -/
def frameChunks (header : SegmentHeader) (keys : Option KeyRing) (frame : Bytes) :
    List Bytes :=
  match decodeFramePayload C (frame.drop frameHeaderSize) header.isCompressed header.isEncrypted
    keys with
  | .ok decoded =>
    (recordFraming.split (decoded.take (min (readFrameHeader frame).2 decoded.length))).1
  | .error _ => []

/-- The intact records behind a header, in the layout that the header declares. -/
def bodyRecords (header : SegmentHeader) (keys : Option KeyRing) (body : Bytes) :
    List Record :=
  if header.isCompressed || header.isEncrypted then
    (frameFraming.split body).1.flatMap fun frame =>
      intactRecords C (frameChunks C header keys frame)
  else intactRecords C (recordFraming.split body).1

section

variable (keys : Option KeyRing)

/-- The records stored in a segment file, and the hash that its header lets them continue. -/
def segmentRecords (file : Bytes) : Bytes32 × List Record :=
  match deserialize C (field 0 segmentHeaderSize file) with
  | .ok header =>
    (header.prevLastHash, bodyRecords C header keys (file.drop segmentHeaderSize))
  | .error _ => (zeros32, [])

def segmentContents (file : Bytes) : List Bytes :=
  (segmentRecords C keys file).2.map Record.content

/-- The contents stored in all segments of a directory. -/
def storedContents (d : Disk) : List Bytes :=
  d.segments.flatMap fun s => segmentContents C keys s.2

def closedContents (d : Disk) : List Bytes :=
  d.segments.dropLast.flatMap fun s => segmentContents C keys s.2

end

end

def Record.link (r : Record) : Bytes × Bytes32 :=
  (r.content, r.hashN)

/-- The pairs of a previous hash and a content that the chains of a directory hash. -/
def chainInputs (C : Crates) (keys : Option KeyRing) (d : Disk) : Set (Bytes32 × Bytes) :=
  {p | ∃ s ∈ d.segments, p ∈ linkInputs (segmentRecords C keys s.2).1
    ((segmentRecords C keys s.2).2.map Record.link)}

section Scan

variable {C : Crates} {a : ScanArgs} {st : ScanState} {records : List Record} {cs : List Bytes}

theorem chainFrom_iff_linked {key prev : Bytes32} : ChainFrom C key prev records ↔
      Linked (blake3KeyedChain C key) prev (records.map Record.link) := by
  induction records generalizing prev with
  | nil => exact Iff.rfl
  | cons r rs ih => exact and_congr Iff.rfl ih

theorem Accepts.chainFrom (h : Accepts C a st records) (hh : a.hashEnabled = true) :
    ChainFrom C a.chainKey st.chainPrev records := by
  induction records generalizing st with
  | nil => trivial
  | cons r rs ih =>
    obtain ⟨-, hc, hr⟩ := h
    have hp : (st.accept a r).chainPrev = r.hashN := if_pos hh
    refine ⟨hc hh, ?_⟩
    rw [← hp]
    exact ih hr

theorem Accepts.lastSequence (h : Accepts C a st records) (hb : a.shardBits = 0)
    (hq : st.lastSequence + 1 = st.expectedRecordId) :
    (st.acceptAll a records).lastSequence = st.lastSequence + UInt64.ofNat records.length := by
  induction records generalizing st with
  | nil => simp [ScanState.acceptAll]
  | cons r rs ih =>
    obtain ⟨hid, -, ht⟩ := h
    have hs : a.stride = 1 := by
      rw [ScanArgs.stride, hb]
      decide
    have hr : r.id.sequence = st.expectedRecordId := by
      rcases hid with hid | ⟨-, hp⟩
      · exact hid
      · rw [hb] at hp
        exact absurd hp (by decide)
    have hn : (st.accept a r).lastSequence + 1 = (st.accept a r).expectedRecordId := by
      show r.id.sequence + 1 = r.id.sequence + a.stride
      rw [hs]
    have hl : (st.accept a r).lastSequence = st.lastSequence + 1 := by
      show r.id.sequence = _
      rw [hr, hq]
    calc ((st.accept a r).acceptAll a rs).lastSequence
        = st.lastSequence + 1 + UInt64.ofNat rs.length := by rw [ih ht hn, hl]
      _ = st.lastSequence + UInt64.ofNat (r :: rs).length := by
          rw [length_cons, UInt64.ofNat_add, UInt64.add_assoc, UInt64.add_comm 1]
          rfl

theorem acceptAll_lastHash (st : ScanState) (records : List Record) :
    (st.acceptAll a records).lastHash = linkEnd st.lastHash (records.map Record.link) := by
  induction records generalizing st with
  | nil => rfl
  | cons r rs ih => exact ih (st.accept a r)

private theorem torn_warnings (st : ScanState) (n : ℕ) : (st.torn a n).warnings ≠ [] :=
  append_ne_nil_of_right_ne_nil _ (cons_ne_nil _ _)

theorem rawWalk_warnings (cs : List Bytes) (tail : Bytes) (h : st.warnings ≠ []) :
    (rawWalk C a st cs tail).warnings ≠ [] := by
  fun_induction rawWalk C a st cs tail with
  | case1 => exact h
  | case3 _ _ _ _ _ _ _ _ _ ih => exact ih h
  | case7 _ _ _ _ _ _ _ ih => exact ih (append_ne_nil_of_right_ne_nil _ (cons_ne_nil _ _))
  | _ => exact torn_warnings _ _

theorem rawWalk_silent {tail : Bytes} (h : (rawWalk C a st cs tail).warnings = []) :
    Accepts C a st (intactRecords C cs) ∧ (rawWalk C a st cs tail).lastSequence =
        (st.acceptAll a (intactRecords C cs)).lastSequence ∧
      (rawWalk C a st cs tail).lastHash = (st.acceptAll a (intactRecords C cs)).lastHash ∧
      (rawWalk C a st cs tail).count = (st.acceptAll a (intactRecords C cs)).count := by
  fun_induction rawWalk C a st cs tail with
  | case1 => exact ⟨trivial, rfl, rfl, rfl⟩
  | case3 st c cs tail record _ hr hid hc ih =>
    obtain ⟨ha, ht⟩ := ih h
    rw [← acceptAll_advance] at ht
    rw [intactRecords, hr]
    exact ⟨⟨hid, hc, accepts_advance.mp ha⟩, ht⟩
  | case7 st c cs tail =>
    exact absurd h (rawWalk_warnings cs tail (append_ne_nil_of_right_ne_nil _ (cons_ne_nil _ _)))
  | _ => exact absurd h (torn_warnings _ _)

theorem recordsWalk_intact {st' : ScanState} (h : recordsWalk C a st cs = .intact st') :
    Accepts C a st (intactRecords C cs) ∧ st' = st.acceptAll a (intactRecords C cs) := by
  fun_induction recordsWalk C a st cs with
  | case1 =>
    cases h
    exact ⟨trivial, rfl⟩
  | case2 st c cs record _ hr hid hc ih =>
    obtain ⟨ha, hs⟩ := ih h
    rw [intactRecords, hr]
    exact ⟨⟨hid, hc, ha⟩, hs⟩
  | _ => cases h

theorem frameChunks_of_decodeFrame {frame : Bytes} {chunks : List Bytes}
    (h : decodeFrame C a frame = some chunks) :
    frameChunks C a.header a.encryptionKey frame = chunks := by
  unfold decodeFrame at h
  unfold frameChunks
  cases hd : decodeFramePayload C (frame.drop frameHeaderSize) a.header.isCompressed
      a.header.isEncrypted a.encryptionKey with
  | ok decoded =>
    simp only [hd] at h ⊢
    exact Option.some.inj h
  | error e =>
    simp only [hd] at h
    cases h

theorem frameWalk_silent {tail : Bytes} (h : (frameWalk C a st cs tail).warnings = [])
    (hr : records = cs.flatMap fun frame =>
      intactRecords C (frameChunks C a.header a.encryptionKey frame)) :
    Accepts C a st records ∧
      (frameWalk C a st cs tail).lastSequence = (st.acceptAll a records).lastSequence ∧
      (frameWalk C a st cs tail).lastHash = (st.acceptAll a records).lastHash ∧
      (frameWalk C a st cs tail).count = (st.acceptAll a records).count := by
  fun_induction frameWalk C a st cs tail generalizing records with
  | case1 =>
    subst hr
    exact ⟨trivial, rfl, rfl, rfl⟩
  | case4 st c cs tail chunks hd st' hx ih =>
    obtain ⟨hf, rfl⟩ := recordsWalk_intact hx
    obtain ⟨ha, ht⟩ := ih h rfl
    rw [← acceptAll_advance, ← acceptAll_append] at ht
    rw [hr, flatMap_cons, frameChunks_of_decodeFrame hd]
    exact ⟨accepts_append.mpr ⟨hf, accepts_advance.mp ha⟩, ht⟩
  | case6 st c cs tail chunks hd st' => exact absurd h (torn_warnings st' _)
  | _ => exact absurd h (torn_warnings _ _)

theorem scanLastSegment_silent {hd body : Bytes} {r : ScanResult}
    (hh : hd.length = segmentHeaderSize) (h : scanLastSegment C a (hd ++ body) = .ok r)
    (hw : r.warnings = []) (hr : records = bodyRecords C a.header a.encryptionKey body) :
    Accepts C a (a.initial (hd ++ body)) records ∧
      r.lastSequence = ((a.initial (hd ++ body)).acceptAll a records).lastSequence ∧
      r.lastHash = linkEnd zeros32 (records.map Record.link) ∧ r.count = records.length := by
  have hc := (acceptAll_keeps a (a.initial (hd ++ body)) records).2.2.2.2
  rw [show (a.initial (hd ++ body)).count = 0 from rfl, zero_add] at hc
  have hl := acceptAll_lastHash (a := a) (a.initial (hd ++ body)) records
  rw [scanLastSegment_eq C a hd body hh] at h
  cases h
  rw [← hc, show zeros32 = (a.initial (hd ++ body)).lastHash from rfl, ← hl]
  unfold bodyRecords at hr
  split_ifs at hw hr ⊢ with hf
  · exact frameWalk_silent hw hr
  · rw [hr]
    exact rawWalk_silent hw

end Scan

section Directory

variable {C : Crates} {keys : Option KeyRing} {d e : Disk} {bits : UInt32} {size : ℕ}
  {retention : RetentionPolicy} {r : RecoveryState}

/-- The segment ids of a directory with the header bytes of each segment. -/
def headerBytes (d : Disk) : List (ℕ × Bytes) :=
  d.segments.map fun s => (s.1, field 0 segmentHeaderSize s.2)

theorem validateHeaders_silent {files : List (ℕ × Bytes)} (h : (validateHeaders C files).2 = []) :
    (validateHeaders C files).1.map (fun v => (v.id, v.file)) = files ∧
      ∀ v ∈ (validateHeaders C files).1, segmentHeaderSize ≤ v.file.length ∧
        deserialize C (field 0 segmentHeaderSize v.file) = .ok v.header := by
  induction files with
  | nil => exact ⟨rfl, fun v hv => absurd hv not_mem_nil⟩
  | cons f files ih =>
    obtain ⟨id, file⟩ := f
    unfold validateHeaders at h ⊢
    split_ifs at h ⊢ with hl
    cases hh : deserialize C (field 0 segmentHeaderSize file) with
    | error msg =>
      rw [hh] at h
      cases h
    | ok header =>
      rw [hh] at h
      simp only at h ⊢
      split_ifs at h ⊢ with hid
      obtain ⟨hf, hr⟩ := ih h
      constructor
      · rw [map_cons, hf]
      · intro v hv
        rcases mem_cons.mp hv with rfl | hm
        · exact ⟨Nat.le_of_not_lt hl, hh⟩
        · exact hr v hm

theorem recoverShard_cases (h : recoverShard C d bits size retention keys = .ok (r, e)) :
    ∃ first last scan, (validateHeaders C d.segments).1.head? = some first ∧
      (validateHeaders C d.segments).1.getLast? = some last ∧
      scanLastSegment C (lastScanArgs C bits keys first last) last.file = .ok scan ∧
      r.hashEnabled = first.header.hashEnabled ∧
      r.hashInit = resolveChainKey C first.file first.header keys ∧
      r.lastSequence = scan.lastSequence ∧ r.lastHash = scan.lastHash ∧
      r.recoveredCount = scan.count ∧
      r.warnings = (validateHeaders C d.segments).2 ++ scan.warnings ∧
      r.segmentManager = SegmentManager.openExisting last.id scan.validOffset last.header size
        scan.lastHash (maskChainKey C r.hashInit keys) r.hashEnabled keys retention ∧
      e = d.modify last.id fun _ => scan.file := by
  unfold recoverShard at h
  simp only [continuityWarnings_eq_nil, ite_self, append_nil] at h
  split_ifs at h with he
  split at h
  · next first last hf hl =>
    split at h
    · cases h
    · next scan hs =>
      cases h
      exact ⟨first, last, scan, hf, hl, hs, rfl, rfl, rfl, rfl, rfl, rfl, rfl, rfl⟩
  · cases h

/-- A recovery without warnings has followed the chain of the last segment from end to end. -/
theorem recoverShard_silent (h : recoverShard C d 0 size retention keys = .ok (r, e))
    (hha : r.hashEnabled = true) (hwa : r.warnings = []) :
    ∃ front last header, d.segments = front ++ [last] ∧
      deserialize C (field 0 segmentHeaderSize last.2) = .ok header ∧
      Linked (blake3KeyedChain C r.hashInit) (segmentRecords C keys last.2).1
        ((segmentRecords C keys last.2).2.map Record.link) ∧
      r.lastSequence = header.baseSequence - 1 + UInt64.ofNat r.recoveredCount ∧
      r.lastHash = linkEnd zeros32 ((segmentRecords C keys last.2).2.map Record.link) ∧
      r.recoveredCount = (segmentRecords C keys last.2).2.length := by
  obtain ⟨first, last, scan, -, hls, hsc, hh', hk, hq, hlh, hc, hw, -⟩ := recoverShard_cases h
  rw [hwa] at hw
  obtain ⟨hv, ht⟩ := append_eq_nil_iff.mp hw.symm
  obtain ⟨hfs, hd⟩ := validateHeaders_silent hv
  obtain ⟨front, hf⟩ := getLast?_eq_some_iff.mp hls
  obtain ⟨hl, hh⟩ := hd last (mem_of_getLast? hls)
  set a := lastScanArgs C 0 keys first last
  set body := last.file.drop segmentHeaderSize
  have hb : last.file.take segmentHeaderSize ++ body = last.file := take_append_drop _ _
  have hr : segmentRecords C keys last.file =
      (last.header.prevLastHash, bodyRecords C a.header a.encryptionKey body) := by
    rw [segmentRecords, hh]
    rfl
  rw [← hb] at hsc
  obtain ⟨ha, hsq, hsh, hs⟩ := scanLastSegment_silent (length_take_of_le hl) hsc ht rfl
  have hch := ha.chainFrom (show first.header.hashEnabled = true by rw [← hh', hha])
  have hn := ha.lastSequence rfl (UInt64.sub_add_cancel _ _)
  rw [hf, map_append] at hfs
  refine ⟨_, _, last.header, hfs.symm, hh, ?_, ?_, ?_, ?_⟩
  · rw [hr, hk]
    exact chainFrom_iff_linked.mp hch
  · rw [hq, hsq, hn, hc, hs]
    rfl
  · rw [hlh, hsh, hr]
  · rw [hc, hs, hr]

/-- Two directories with the same headers whose recovery reports nothing, the same last hash and
the same last sequence store the same contents if and only if their closed segments do: nothing in
a closed segment is checked. -/
theorem storedContents_eq_iff {keys' : Option KeyRing} {d' e' : Disk} {size' : ℕ}
    {retention' : RetentionPolicy} {r' : RecoveryState}
    (hrecover : recoverShard C d 0 size retention keys = .ok (r, e))
    (hrecover' : recoverShard C d' 0 size' retention' keys' = .ok (r', e'))
    (hhash : r.hashEnabled = true ∧ r'.hashEnabled = true) (hkey : r.hashInit = r'.hashInit)
    (hheaders : headerBytes d = headerBytes d')
    (hwarn : r.warnings = [] ∧ r'.warnings = []) (hlastHash : r.lastHash = r'.lastHash)
    (hlastSequence : r.lastSequence = r'.lastSequence)
    (hcount : r.recoveredCount < 2 ^ 64 ∧ r'.recoveredCount < 2 ^ 64)
    (hinj : (chainInputs C keys d ∪ chainInputs C keys' d').InjOn fun p =>
      blake3KeyedChain C r.hashInit p.1 p.2) :
    storedContents C keys d = storedContents C keys' d' ↔
      closedContents C keys d = closedContents C keys' d' := by
  obtain ⟨front, last, header, hg, hh, hk, hq, he, hl⟩ :=
    recoverShard_silent hrecover hhash.1 hwarn.1
  obtain ⟨front', last', header', hg', hh', hk', hq', he', hl'⟩ :=
    recoverShard_silent hrecover' hhash.2 hwarn.2
  have hm : last ∈ d.segments := by simp [hg]
  have hm' : last' ∈ d'.segments := by simp [hg']
  have hb : field 0 segmentHeaderSize last.2 = field 0 segmentHeaderSize last'.2 := by
    have ha := congrArg getLast? hheaders
    simp only [headerBytes, hg, hg', map_append, map_cons, map_nil,
      getLast?_concat, Option.some.injEq, Prod.mk.injEq] at ha
    exact ha.2
  -- the headers agree on the base, so equal last sequences mean equally many records
  have hn : r.recoveredCount = r'.recoveredCount := by
    rw [hb, hh'] at hh
    rw [hq, hq', Except.ok.inj hh] at hlastSequence
    have ho := congrArg UInt64.toNat ((UInt64.add_right_inj _).mp hlastSequence)
    rwa [UInt64.toNat_ofNat_of_lt' hcount.1, UInt64.toNat_ofNat_of_lt' hcount.2] at ho
  have hc : segmentContents C keys last.2 = segmentContents C keys' last'.2 := by
    have hls : ((segmentRecords C keys last.2).2.map Record.link).length =
        ((segmentRecords C keys' last'.2).2.map Record.link).length := by
      rw [length_map, length_map, ← hl, ← hl', hn]
    rw [he, he'] at hlastHash
    rw [← hkey] at hk'
    have hf := congrArg (map Prod.fst) (linked_eq_of_last_eq hinj hk hk'
      (fun p hp => .inl ⟨last, hm, hp⟩) (fun p hp => .inr ⟨last', hm', hp⟩) hls hlastHash)
    rwa [map_map, map_map] at hf
  have hs : storedContents C keys d = closedContents C keys d ++ segmentContents C keys last.2 := by
    simp [storedContents, closedContents, hg]
  have hs' : storedContents C keys' d' =
      closedContents C keys' d' ++ segmentContents C keys' last'.2 := by
    simp [storedContents, closedContents, hg']
  rw [hs, hs', hc]
  exact append_left_inj _

end Directory

/-- The header of a hashed raw segment whose chain key is all zeros. -/
def hashedHeader (base : UInt64) (id : UInt32) (flags : UInt8) : SegmentHeader :=
  { firstSegment zeros32 base 0 id true hashAlgoBlake3 with flags := flags }

def hashedView (timestamp : UInt64) (content : Bytes) : ReadView :=
  ⟨0, timestamp, content, blake3KeyedChain rawCrates zeros32 zeros32 content⟩

def hashedSegment (timestamp : UInt64) (content : Bytes) : Bytes :=
  (hashedHeader 0 1 flagHashEnabled).serialize rawCrates zeros32 ++
    batchBytes rawCrates [hashedView timestamp content]

def emptySegment : Bytes :=
  (hashedHeader 1 2 (flagNotFirst ||| flagHashEnabled)).serialize rawCrates zeros32 ++
    batchBytes rawCrates []

def oneSegment (timestamp : UInt64) (content : Bytes) : Disk where
  segments := [(1, hashedSegment timestamp content)]
  sorted := pairwise_singleton _ _
  indexes _ := none

def twoSegments (timestamp : UInt64) (content : Bytes) : Disk where
  segments := [(1, hashedSegment timestamp content), (2, emptySegment)]
  sorted := by simp
  indexes _ := none

/-- Recovery finds nothing wrong with a hashed directory. -/
def recoversTo (d : Disk) (lastHash : Bytes32) (count : ℕ) : Bool :=
  okAnd (recoverShard rawCrates d 0 0 .keepAll none) fun r =>
    r.1.hashEnabled ∧ r.1.hashInit = zeros32 ∧ r.1.warnings = [] ∧ r.1.lastHash = lastHash ∧
      r.1.lastSequence = 0 ∧ r.1.recoveredCount = count

private theorem exists_of_recoversTo {d : Disk} {lastHash : Bytes32} {count : ℕ}
    (h : recoversTo d lastHash count = true) :
    ∃ r e, recoverShard rawCrates d 0 0 .keepAll none = .ok (r, e) ∧ r.hashEnabled = true ∧
      r.hashInit = zeros32 ∧ r.warnings = [] ∧ r.lastHash = lastHash ∧ r.lastSequence = 0 ∧
      r.recoveredCount = count := by
  obtain ⟨⟨r, e⟩, hr, ht⟩ := exists_of_okAnd h
  exact ⟨r, e, hr, of_decide_eq_true ht⟩

private theorem chainInputs_hashed {d : Disk} {timestamp : UInt64} {content : Bytes}
    (hc : (d.segments.map fun s => segmentRecords rawCrates none s.2) ⊆
      [(zeros32, [(hashedView timestamp content).toRecord]), (zeros32, [])]) :
    chainInputs rawCrates none d ⊆ {(zeros32, content)} := by
  rintro p ⟨s, hs, hp⟩
  have hm := hc (mem_map_of_mem hs)
  simp only [mem_cons, not_mem_nil, or_false] at hm
  rcases hm with hr | he
  · rw [hr] at hp
    simpa [linkInputs, Record.link, ReadView.toRecord, hashedView] using hp
  · rw [he] at hp
    simp [linkInputs] at hp

set_option maxRecDepth 20000 in
/-- Two logs of one segment whose records differ in their times only. -/
theorem storedContents_eq_one : storedContents rawCrates none (oneSegment 7 [104, 105]) =
      storedContents rawCrates none (oneSegment 9 [104, 105]) := by
  have hs : recoversTo (oneSegment 7 [104, 105])
    (blake3KeyedChain rawCrates zeros32 zeros32 [104, 105]) 1 = true := by decide +kernel
  have hs' : recoversTo (oneSegment 9 [104, 105])
    (blake3KeyedChain rawCrates zeros32 zeros32 [104, 105]) 1 = true := by decide +kernel
  obtain ⟨r, e, hr, hh, hk, hw, hl, hq, hc⟩ := exists_of_recoversTo hs
  obtain ⟨r', e', hr', hh', hk', hw', hl', hq', hc'⟩ := exists_of_recoversTo hs'
  have hi : chainInputs rawCrates none (oneSegment 7 [104, 105]) ⊆ {(zeros32, [104, 105])} :=
    chainInputs_hashed (show _ ⊆ [(_, [(hashedView 7 [104, 105]).toRecord]), _] by decide +kernel)
  have hi' : chainInputs rawCrates none (oneSegment 9 [104, 105]) ⊆ {(zeros32, [104, 105])} :=
    chainInputs_hashed (show _ ⊆ [(_, [(hashedView 9 [104, 105]).toRecord]), _] by decide +kernel)
  refine (storedContents_eq_iff hr hr' ⟨hh, hh'⟩ (hk.trans hk'.symm) (by decide +kernel)
    ⟨hw, hw'⟩ (hl.trans hl'.symm) (hq.trans hq'.symm) ?_ ?_).mpr rfl
  · rw [hc, hc']
    decide
  · exact (Set.injOn_singleton _ _).mono (Set.union_subset hi hi')

set_option maxRecDepth 20000 in
/-- Two logs whose closed segment was exchanged pass recovery alike. -/
theorem closed_segment_exchanged : ∃ d d' r r' e e',
      recoverShard rawCrates d 0 0 .keepAll none = .ok (r, e) ∧
      recoverShard rawCrates d' 0 0 .keepAll none = .ok (r', e') ∧
      (r.hashEnabled = true ∧ r'.hashEnabled = true) ∧ r.hashInit = r'.hashInit ∧
      headerBytes d = headerBytes d' ∧ (r.warnings = [] ∧ r'.warnings = []) ∧
      r.lastHash = r'.lastHash ∧ r.lastSequence = r'.lastSequence ∧
      (chainInputs rawCrates none d ∪ chainInputs rawCrates none d').InjOn
        (fun p => blake3KeyedChain rawCrates r.hashInit p.1 p.2) ∧
      storedContents rawCrates none d ≠ storedContents rawCrates none d' := by
  have hs : recoversTo (twoSegments 7 [1]) zeros32 0 = true := by decide +kernel
  have hs' : recoversTo (twoSegments 7 [2]) zeros32 0 = true := by decide +kernel
  obtain ⟨r, e, hr, ha, hk, hw, hl, hq, -⟩ := exists_of_recoversTo hs
  obtain ⟨r', e', hr', hh', hk', hw', hl', hq', -⟩ := exists_of_recoversTo hs'
  have hi : chainInputs rawCrates none (twoSegments 7 [1]) ⊆ {(zeros32, [1])} :=
    chainInputs_hashed (show _ ⊆ [(_, [(hashedView 7 [1]).toRecord]), _] by decide +kernel)
  have hi' : chainInputs rawCrates none (twoSegments 7 [2]) ⊆ {(zeros32, [2])} :=
    chainInputs_hashed (show _ ⊆ [(_, [(hashedView 7 [2]).toRecord]), _] by decide +kernel)
  have hh : blake3KeyedChain rawCrates zeros32 zeros32 [1] ≠
      blake3KeyedChain rawCrates zeros32 zeros32 [2] := by
    decide +kernel
  refine ⟨twoSegments 7 [1], twoSegments 7 [2], r, r', e, e', hr, hr', ⟨ha, hh'⟩,
    hk.trans hk'.symm, by decide +kernel, ⟨hw, hw'⟩, hl.trans hl'.symm,
    hq.trans hq'.symm, ?_, by decide +kernel⟩
  rw [hk]
  refine Set.InjOn.mono (Set.union_subset_union hi hi') ?_
  exact Set.injOn_pair.mpr fun hc => absurd hc hh

/-- The pairs of a previous hash and a content that the scan of a segment hashes. -/
def scanInputs (C : Crates) (a : ScanArgs) (body : Bytes) : Set (Bytes32 × Bytes) :=
  {p | p ∈ linkInputs a.header.prevLastHash
    ((bodyRecords C a.header a.encryptionKey body).map Record.link)}

/-- The count and the last hash of a scan without warnings commit to the contents of the segment, as
long as no two of the hashed pairs collide. -/
theorem scanned_contents_eq {C : Crates} {a a' : ScanArgs} {hdr body body' : Bytes} {r r' : ScanResult}
    (hhdr : hdr.length = segmentHeaderSize)
    (hhash : a.hashEnabled = true ∧ a'.hashEnabled = true) (hkey : a.chainKey = a'.chainKey)
    (hr : scanLastSegment C a (hdr ++ body) = .ok r)
    (hr' : scanLastSegment C a' (hdr ++ body') = .ok r')
    (hwarn : r.warnings = [] ∧ r'.warnings = []) (hcount : r.count = r'.count)
    (hlast : r.lastHash = r'.lastHash)
    (hinj : (scanInputs C a body ∪ scanInputs C a' body').InjOn fun p =>
      blake3KeyedChain C a.chainKey p.1 p.2) :
    (bodyRecords C a.header a.encryptionKey body).map Record.content =
      (bodyRecords C a'.header a'.encryptionKey body').map Record.content := by
  obtain ⟨ha, -, he, hl⟩ := scanLastSegment_silent hhdr hr hwarn.1 rfl
  obtain ⟨ha', -, he', hl'⟩ := scanLastSegment_silent hhdr hr' hwarn.2 rfl
  have hk := chainFrom_iff_linked.mp (ha.chainFrom hhash.1)
  have hk' := chainFrom_iff_linked.mp (ha'.chainFrom hhash.2)
  rw [← hkey] at hk'
  have hs := linked_eq_of_last_eq hinj hk hk' (fun p hp => .inl hp)
    (fun p hp => .inr hp) (by rw [length_map, length_map, ← hl, ← hl', hcount])
    (he.symm.trans (hlast.trans he'))
  have hf := congrArg (map Prod.fst) hs
  rwa [map_map, map_map] at hf

def hashedScan : ScanArgs :=
  ⟨1, hashedHeader 0 1 flagHashEnabled, true, zeros32, none, 0⟩

/-- The scan finds the one record, and its hash is the only one that was computed. -/
def scansHashed (timestamp : UInt64) : Bool :=
  linkInputs zeros32 ((bodyRecords rawCrates hashedScan.header none
      (batchBytes rawCrates [hashedView timestamp [1]])).map Record.link) = [(zeros32, [1])] ∧
    okAnd (scanLastSegment rawCrates hashedScan (hashedSegment timestamp [1])) fun r =>
      r.warnings = [] ∧ r.count = 1 ∧ r.lastHash = blake3KeyedChain rawCrates zeros32 zeros32 [1]

theorem scanned_contents_eq_one : (bodyRecords rawCrates hashedScan.header none
        (batchBytes rawCrates [hashedView 7 [1]])).map Record.content =
      (bodyRecords rawCrates hashedScan.header none
        (batchBytes rawCrates [hashedView 9 [1]])).map Record.content := by
  obtain ⟨hi, hn⟩ := of_decide_eq_true (show scansHashed 7 = true by decide +kernel)
  obtain ⟨hi', hs'⟩ := of_decide_eq_true (show scansHashed 9 = true by decide +kernel)
  obtain ⟨r, hr, ht⟩ := exists_of_okAnd hn
  obtain ⟨r', hr', ht'⟩ := exists_of_okAnd hs'
  obtain ⟨hw, hc, hl⟩ := of_decide_eq_true ht
  obtain ⟨hw', hc', hl'⟩ := of_decide_eq_true ht'
  have hs {p : Bytes32 × Bytes} (hp : p ∈ [(zeros32, [1])]) : p ∈ ({(zeros32, [1])} : Set _) :=
    mem_singleton.mp hp
  exact scanned_contents_eq (by simp) ⟨rfl, rfl⟩ rfl hr hr' ⟨hw, hw'⟩ (hc.trans hc'.symm)
    (hl.trans hl'.symm) ((Set.injOn_singleton _ (zeros32, [1])).mono
      (Set.union_subset (fun _ hp => hs (hi ▸ hp)) fun _ hp => hs (hi' ▸ hp)))

end LogDb.Recovery
