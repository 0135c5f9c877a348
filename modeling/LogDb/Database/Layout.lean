import LogDb.Recovery.Boundary
import LogDb.Database.Single
import LogDb.Database.Run

/-!
The layout of the segment files over any number of sessions. A session takes the compression of the
segment it continues, but its own keys: appended to a segment from a session with keys and without
them, records end up in a layout that the header does not declare.
-/

namespace LogDb.Database

open Lib Format Storage Recovery Pipeline List Function Option SegmentManager SegmentHeader Disk Session

section

variable (C : Crates)

/-- If recovery is to check the frames of the last segment against the hash chain, they keep to
it. -/
def ChainIntact (keys : Option KeyRing) (d : Disk) : Prop :=
  ∀ first last, (validateHeaders C d.segments).1.head? = some first →
    (validateHeaders C d.segments).1.getLast? = some last →
    (last.header.isCompressed || last.header.isEncrypted) = true →
    first.header.hashEnabled = true →
    ChainFrom C (resolveChainKey C first.file first.header keys) last.header.prevLastHash
      (bodyRecords C last.header keys (last.file.drop segmentHeaderSize))

/-- The first record of the batch fits into the active segment, so that no roll precedes it. -/
def Session.BatchFits (ss : Session) (count : ℕ) : Prop :=
  ∀ v ∈ (ss.batch count).head?,
    ss.mgr.active.hasRoom (recordSize v.content.length) ss.mgr.segmentSize = true

/-- A directory is opened with frames that keep to the hash chain, and a session appends to a
segment that is encrypted if and only if the session has keys, in frames that fit. -/
def DirEvent.KeepsLayout : ShardDir → DirEvent → Prop
  | .closed d, .open c _ => ChainIntact C c.encryptionKeys d
  | .running ss d, .commit count nonce _ _ =>
    (ss.BatchFits count → ss.mgr.KeysAgree C d) ∧ ss.FramesFit C count nonce
  | _, _ => True

def ShardDir.LayoutInv : ShardDir → Prop
  | .closed d => ∀ id file, d.get id = some file → ∃ compressed offset,
      LaidOut C compressed offset file
  | .running ss d => ss.mgr.LayoutInv C d ∧ ss.config.Valid ∧ ∀ v ∈ ss.published, v.Fits

end

section

variable {C : Crates} {s : ℕ} {st st' : ShardDir} {ss : Session} {d : Disk}
  {retention : RetentionPolicy} {keys : Option KeyRing} {m : SegmentManager}

theorem recoverShard_layout (hC : C.Lawful) {bits : UInt32} {size : ℕ} {r : RecoveryState}
    {e : Disk} (hfs : ∀ id file, d.get id = some file → ∃ compressed offset,
      LaidOut C compressed offset file) (hc : ChainIntact C keys d)
    (h : recoverShard C d bits size retention keys = .ok (r, e)) :
    r.segmentManager.LayoutInv C e := by
  obtain ⟨first, ⟨id, file, header⟩, scan, hf, hls, hsc, -, -, -, -, -, -, hr, rfl⟩ :=
    recoverShard_cases h
  obtain ⟨hm, -, hh⟩ := mem_of_validateHeaders (mem_of_getLast? hls)
  have hg : d.get id = some file := get_of_mem hm
  have hc := hc first _ hf hls
  obtain ⟨_, _, written, lastHash, body, hy, -, -⟩ := hfs id file hg
  have hl : (written.serialize C lastHash).length = segmentHeaderSize :=
    serialize_length C written lastHash
  obtain rfl : header = { written with prevLastHash := lastHash } := by
    simp only [field_zero, take_left' hl] at hh
    rw [deserialize_serialize] at hh
    exact (Except.ok.inj hh).symm
  simp only [drop_left' hl] at hc
  obtain ⟨kept, hk, hv, hl'⟩ := scanLastSegment_inLayout hC hl (hy.congr rfl rfl) hc hsc
  have hd : LaidOut C written.isCompressed scan.validOffset scan.file := by
    rw [hk] at hv ⊢
    exact .mk written lastHash kept (hl'.congr rfl rfl) rfl hv.symm
  rw [hr]
  constructor
  · rfl
  · intro id' file' hf'
    by_cases hid : id' = id
    · rw [hid, get_modify hg, some.injEq] at hf'
      exact ⟨_, _, hf' ▸ hd⟩
    · rw [get_modify_ne d hid] at hf'
      exact hfs id' file' hf'
  · intro file' hf'
    have ha : (d.modify id fun _ => scan.file).get id = some file' := hf'
    rw [get_modify hg, some.injEq] at ha
    exact ha ▸ hd
  · intro id' seg hs
    cases hs

theorem create_layout {size : ℕ} {hashEnabled compressed : Bool} {hashInit : Bytes32}
    {base : UInt64} {e : Disk} (hs : ∀ id file, d.get id = some file → ∃ compressed offset,
      LaidOut C compressed offset file)
    (h : SegmentManager.create C d size hashEnabled compressed keys hashInit retention base =
      .ok (m, e)) : m.LayoutInv C e := by
  unfold SegmentManager.create at h
  simp only at h
  split at h
  · cases h
  · next seg created hc =>
    cases h
    obtain ⟨hid, hg, hl⟩ :=
      create_laidOut
        (by exact (layoutFlags_spec hashEnabled compressed keys.isSome).1.1) hc
    constructor
    · exact hid.symm
    · intro id file hf
      rw [hg] at hf
      by_cases ho : id = 1
      · rw [ho, update_self, some.injEq] at hf
        exact ⟨_, _, hf ▸ hl⟩
      · rw [update_of_ne ho] at hf
        exact hs id file hf
    · intro file hf
      simp only [hid, hg, update_self, some.injEq] at hf
      exact hf ▸ hl
    · intro id seg' hp
      cases hp

/-- The tags that `open` puts on the manager are not about its files. -/
theorem layoutInv_tag (h : m.LayoutInv C d) (stride : UInt32) (shardId : ℕ) (bits : UInt32) :
    ((m.setIndexStride stride).setShard shardId bits).LayoutInv C d :=
  ⟨h.ids, h.files, h.active, h.prepared⟩

theorem commitBatch_layout {count : ℕ} {nonce : Nonce} {cp : UInt64}
    {env : SegmentManager.RollEnv} (h : ss.mgr.LayoutInv C d) (ht : ∀ v ∈ ss.published, v.Fits)
    (hk : ss.BatchFits count → ss.mgr.KeysAgree C d) (hf : ss.FramesFit C count nonce) :
    (ss.commitBatch C d count nonce cp env).1.mgr.LayoutInv C
      (ss.commitBatch C d count nonce cp env).2 := by
  have hb : ∀ v ∈ ss.batch count, v.Fits := fun v hv =>
    ht v (mem_of_mem_drop (mem_of_mem_take hv))
  have ha := h.append nonce ss.committed hb hk fun k hr => hf hr k
  unfold commitBatch
  generalize ss.mgr.appendBatch C d nonce ss.committed (ss.batch count) = r at ha
  obtain ⟨result, m, e⟩ := r
  cases result with
  | ok next => exact ha
  | error reason =>
    cases reason with
    | full => exact ha.roll _ _ _
    | io text => exact ha

theorem sync_layout (h : ss.mgr.LayoutInv C d) : (ss.sync d).1.mgr.LayoutInv C (ss.sync d).2 := by
  have hs : ss.mgr.LayoutInv C (ss.sync d).2 := by
    refine h.mono fun id file hf => ?_
    rwa [sync, saveActiveIndex_get] at hf
  exact ⟨hs.ids, hs.files, hs.active, hs.prepared⟩

theorem ShardDir.LayoutInv.step (hC : C.Lawful) (h : st.LayoutInv C)
    (hsp : DirStep C s (DirEvent.KeepsLayout C) st st') : st'.LayoutInv C := by
  obtain ⟨ev, hok, ht⟩ := hsp
  cases ht with
  | «open» hs hb hop =>
    refine ⟨?_, Config.valid_of_validate hb, by simp [ofOpen]⟩
    unfold openShard at hop
    simp only at hop
    split_ifs at hop with hd
    · split at hop
      · cases hop
      · next r e hr =>
        cases hop
        exact layoutInv_tag (recoverShard_layout hC h hok hr) _ _ _
    · split at hop
      · cases hop
      · next m e hcr =>
        cases hop
        exact layoutInv_tag (create_layout h hcr) _ _ _
  | publish hl =>
    obtain ⟨hm, hb, hf⟩ := h
    refine ⟨hm, hb, fun v hv => ?_⟩
    rcases mem_append.mp hv with ho | hn
    · exact hf v ho
    · rw [mem_singleton.mp hn]
      exact nextView_fits hb hl
  | commit he hle =>
    obtain ⟨hm, hb, hf⟩ := h
    obtain ⟨hc, hp, -⟩ := commitBatch_keeps
    refine ⟨commitBatch_layout hm hf hok.1 hok.2, ?_, ?_⟩
    · rw [hc]
      exact hb
    · rw [hp]
      exact hf
  | sync => exact ⟨sync_layout h.1, h.2⟩
  | close ha => exact (sync_layout h.1).files

/-- Over any number of sessions with any compression and any keys, every segment file is in the
layout that its header declares. -/
theorem segments_in_layout (hC : C.Lawful) (h : DirReachable C s (DirEvent.KeepsLayout C) st) :
    ∀ f ∈ st.disk.segments, FileInLayout C f.2 := by
  have hit : (ShardDir.closed empty).LayoutInv C := by
    intro id file hfl
    cases hfl
  have hi := invariant_of_steps h hit fun a b ha hb => ha.step hC hb
  have hs : ∀ id file, st.disk.get id = some file → ∃ compressed offset,
      LaidOut C compressed offset file := by
    cases st with
    | closed d => exact hi
    | running ss d => exact hi.1.files
  intro f hf
  obtain ⟨id, file⟩ := f
  obtain ⟨_, _, header, lastHash, body, hy, -, -⟩ := hs id file (get_of_mem hf)
  have hl := serialize_length C header lastHash
  refine ⟨{ header with prevLastHash := lastHash }, ?_, ?_, ?_⟩
  · rw [field_zero, take_left' hl]
    exact deserialize_serialize C header lastHash
  · rw [length_append, hl]
    exact Nat.le_add_right _ _
  · rw [drop_left' hl]
    exact hy.congr rfl rfl

end

def firstCommit (c : Config) (o : OpenShard) : Session × Disk :=
  ((Session.ofOpen c 0 o).publish rawCrates 7 [104, 105]).commitBatch rawCrates o.disk 1 zeroNonce 0
    quietEnv

set_option maxRecDepth 20000 in
theorem segments_in_layout_one_record : ∃ st,
    DirReachable rawCrates 0 (DirEvent.KeepsLayout rawCrates) st ∧
      (∃ f ∈ st.disk.segments, segmentHeaderSize < f.2.length) ∧
      ∀ f ∈ st.disk.segments, FileInLayout rawCrates f.2 := by
  have hs : okAnd (openShard rawCrates rawConfig 0 zeros32 empty) (fun o =>
      (o.mgr.active.compressed || o.mgr.encryptionKeys.isSome) = false ∧
      (∀ file ∈ o.disk.get o.mgr.active.id,
        okAnd (deserialize rawCrates (field 0 segmentHeaderSize file)) fun header =>
          header.isEncrypted = o.mgr.encryptionKeys.isSome) ∧
      ∃ f ∈ (firstCommit rawConfig o).2.segments, segmentHeaderSize < f.2.length) = true := by
    decide +kernel
  obtain ⟨o, ho, hf⟩ := exists_of_okAnd hs
  obtain ⟨hw, hk, hl⟩ := of_decide_eq_true hf
  have hsa : DirReachable rawCrates 0 (DirEvent.KeepsLayout rawCrates)
      (.running (ofOpen rawConfig 0 o) o.disk) := by
    apply DirReachable.opened .refl (by decide) rawConfig_validate ho
    intro first last hd
    cases hd
  have ha : o.mgr.KeysAgree rawCrates o.disk := by
    intro file header hg hh
    obtain ⟨header', hh', he⟩ := exists_of_okAnd (hk file hg)
    rw [hh, Except.ok.injEq] at hh'
    rw [hh']
    exact of_decide_eq_true he
  have hr := hsa.first_record 7 [104, 105] zeroNonce 0 quietEnv (by decide) trivial
    ⟨fun _ => ha, fun hfr => absurd hfr (Bool.eq_false_iff.mp hw)⟩
  exact ⟨_, hr, hl, segments_in_layout rawCrates_lawful hr⟩

def keyedConfig : Config :=
  { rawConfig with encryptionKeys := some ⟨1, zeros32, []⟩ }

set_option maxRecDepth 20000 in
/-- A directory that was created without keys and is continued with one: its segment is declared as
raw, and holds a frame. -/
theorem frame_in_raw_segment : ∃ st, DirReachable rawCrates 0 (fun _ _ => True) st ∧
    ∃ f ∈ st.disk.segments, ¬ FileInLayout rawCrates f.2 := by
  have hs : okAnd (openShard rawCrates rawConfig 0 zeros32 empty) (fun o =>
      okAnd (openShard rawCrates keyedConfig 0 zeros32
        ((ofOpen rawConfig 0 o).sync o.disk).2) fun o' =>
        ∃ f ∈ (firstCommit keyedConfig o').2.segments,
          okAnd (deserialize rawCrates (field 0 segmentHeaderSize f.2)) fun header =>
            (header.isCompressed || header.isEncrypted) = false ∧
              (recordFraming.split (f.2.drop segmentHeaderSize)).2 ≠ []) = true := by
    decide +kernel
  obtain ⟨o, ho, hd⟩ := exists_of_okAnd hs
  obtain ⟨o', ho', he⟩ := exists_of_okAnd hd
  obtain ⟨f, hf, hh⟩ := of_decide_eq_true he
  obtain ⟨header, hh, hr⟩ := exists_of_okAnd hh
  obtain ⟨hr, ht⟩ := of_decide_eq_true hr
  have hfst : DirReachable rawCrates 0 (fun _ _ => True)
      (.running (ofOpen rawConfig 0 o) o.disk) :=
    DirReachable.opened .refl (by decide) rawConfig_validate ho trivial
  have hd := (hfst.closed rfl trivial).opened (by decide) (by decide) ho' trivial
  refine ⟨_, hd.first_record 7 [104, 105] zeroNonce 0 quietEnv (by decide) trivial trivial, f, hf,
    ?_⟩
  rintro ⟨header', hh', -, hl⟩
  rw [hh, Except.ok.injEq] at hh'
  rw [← hh'] at hl
  generalize f.2.drop segmentHeaderSize = body at ht hl
  cases hl with
  | raw views _ hft =>
    apply ht
    exact congrArg Prod.snd (recordFraming.split_flatten_chunks (isChunk_of_mem_map hft))
  | framed frames hfr _ => exact absurd hfr (Bool.eq_false_iff.mp hr)

end LogDb.Database
