import LogDb.Format.Body
import LogDb.Storage.Append
import LogDb.Storage.Retention

/-!
The segment manager keeps every file in the layout of its header, as long as the frames it appends
are encrypted if and only if the header of the active segment says so.
-/

namespace LogDb.Storage

open Lib Format List Function Option SegmentHeader Disk

/-- A file as the manager leaves it: in its layout, and with this end. -/
inductive LaidOut (C : Crates) (compressed : Bool) (offset : ℕ) : Bytes → Prop where
  | mk (header : SegmentHeader) (lastHash : Bytes32) (body : Bytes)
      (hlayout : InLayout C header body) (hcompressed : header.isCompressed = compressed)
      (hoffset : (header.serialize C lastHash ++ body).length = offset) :
      LaidOut C compressed offset (header.serialize C lastHash ++ body)

namespace SegmentManager

/-- All files are in their layout, and the ends of the files in use are known. -/
structure LayoutInv (C : Crates) (m : SegmentManager) (d : Disk) : Prop where
  ids : m.activeId = m.active.id
  files : ∀ id file, d.get id = some file → ∃ compressed offset, LaidOut C compressed offset file
  active : ∀ file, d.get m.active.id = some file →
    LaidOut C m.active.compressed m.active.offset file
  prepared : ∀ id seg, m.preparedSegment = some (id, seg) → seg.id = id ∧ id ≠ m.active.id ∧
    ∀ file, d.get id = some file → LaidOut C seg.compressed seg.offset file

/-- The active segment is encrypted if and only if the manager has keys. -/
def KeysAgree (C : Crates) (m : SegmentManager) (d : Disk) : Prop :=
  ∀ file header, d.get m.active.id = some file →
    deserialize C (field 0 segmentHeaderSize file) = .ok header →
    header.isEncrypted = m.encryptionKeys.isSome

section

variable {C : Crates} {m : SegmentManager} {d d' : Disk}

/-- The layout can be read off the flags, of a first segment and of the others. -/
theorem layoutFlags_spec : ∀ hashEnabled compressed encrypted : Bool,
    ((layoutFlags hashEnabled compressed encrypted &&& flagCompressedZstd != 0) = compressed ∧
      (layoutFlags hashEnabled compressed encrypted &&& flagEncryptedAes256Gcm != 0) = encrypted ∧
      (layoutFlags hashEnabled compressed encrypted &&& flagHashEnabled != 0) = hashEnabled) ∧
    ((flagNotFirst ||| layoutFlags hashEnabled compressed encrypted) &&&
      flagCompressedZstd != 0) = compressed := by
  decide

theorem nextHeader_isCompressed (m : SegmentManager) (newId : ℕ) (base : UInt64) :
    (m.nextHeader newId base).isCompressed = m.compressed :=
  (layoutFlags_spec _ _ _).2

theorem LayoutInv.mono (h : LayoutInv C m d)
    (hg : ∀ id file, d'.get id = some file → d.get id = some file) : LayoutInv C m d' where
  ids := h.ids
  files id file hf := h.files id file (hg id file hf)
  active file hf := h.active file (hg _ file hf)
  prepared id seg hs := by
    obtain ⟨hid, hne, hfs⟩ := h.prepared id seg hs
    exact ⟨hid, hne, fun file hf => hfs file (hg id file hf)⟩

variable {id : ℕ} {views : List ReadView} {compressed : Bool} {seg : ActiveSegment} {st : BatchFill}

theorem deletes_get {bound : ℕ} (h : Disk.Deletes bound d d') {file : Bytes}
    (hg : d'.get id = some file) : d.get id = some file :=
  get_of_mem (h.mem (mem_of_get hg))

theorem saveActiveIndex_get (m : SegmentManager) (d : Disk) : (m.saveActiveIndex d).get = d.get :=
  get_congr (saveActiveIndex_segments m d)

theorem create_laidOut {header : SegmentHeader} {lastHash : Bytes32}
    (hm : header.isCompressed = compressed)
    (h : ActiveSegment.create C d id header lastHash compressed = some (seg, d')) :
    seg.id = id ∧ d'.get = update d.get id (some (header.serialize C lastHash)) ∧
      LaidOut C seg.compressed seg.offset (header.serialize C lastHash) := by
  unfold ActiveSegment.create at h
  obtain ⟨created, hc, hp⟩ := map_eq_some_iff.mp h
  cases hp
  refine ⟨rfl, get_create_eq hc, ?_⟩
  have hl : (header.serialize C lastHash ++ []).length = segmentHeaderSize := by
    rw [append_nil]
    exact serialize_length C header lastHash
  have hd := LaidOut.mk header lastHash [] (InLayout.nil C header) hm hl
  rwa [append_nil] at hd

theorem LayoutInv.files_create (h : LayoutInv C m d) {data : Bytes} {offset : ℕ}
    (hd : LaidOut C compressed offset data)
    (he : d'.get = update d.get id (some data)) (g : ℕ) (file : Bytes)
    (hf : d'.get g = some file) : ∃ compressed offset, LaidOut C compressed offset file := by
  rw [he] at hf
  by_cases hg : g = id
  · rw [hg, update_self, some.injEq] at hf
    exact ⟨compressed, offset, hf ▸ hd⟩
  · rw [update_of_ne hg] at hf
    exact h.files g file hf

theorem nextId_ne (m : SegmentManager) : m.nextId ≠ m.activeId := by
  unfold nextId
  omega

theorem LayoutInv.prepare (h : LayoutInv C m d) (nextLocalSeq : ℕ) :
    LayoutInv C (m.maybePrepareNext C d nextLocalSeq).2.1
      (m.maybePrepareNext C d nextLocalSeq).2.2 := by
  unfold maybePrepareNext
  split_ifs with hs hr
  · exact h
  · exact h
  · simp only
    split
    · exact h
    · next seg created hc =>
      obtain ⟨hid, hg, hl⟩ := create_laidOut (nextHeader_isCompressed m _ _) hc
      have hne : m.nextId ≠ m.active.id := h.ids ▸ m.nextId_ne
      constructor
      · exact h.ids
      · exact h.files_create hl hg
      · intro file hf
        rw [hg, update_of_ne hne.symm] at hf
        exact h.active file hf
      · intro id seg' hp
        cases hp
        refine ⟨hid, hne, fun file hf => ?_⟩
        rw [hg, update_self, some.injEq] at hf
        exact hf ▸ hl

theorem LayoutInv.write (h : LayoutInv C m d) (hk : KeysAgree C m d) (nonce : Nonce)
    (hb : st.buf = batchBytes C views) (hsm : ActiveSegment.SameFile st.active m.active)
    (hne : views ≠ []) (ht : ∀ v ∈ views, v.Fits)
    (hf : FrameFits C m.active.compressed m.encryptionKeys nonce views) :
    LayoutInv C (writeBatch C m d nonce st).1 (writeBatch C m d nonce st).2 := by
  have hn : st.buf ≠ [] := hb ▸ batchBytes_ne_nil C hne
  obtain ⟨change, hdk, hh, hm⟩ := writeBatch_modify (d := d) (C := C) nonce hn hsm
  rw [hdk, hm]
  have ha : ∀ file, (d.modify m.active.id change).get m.active.id = some file →
      LaidOut C m.active.compressed
        (m.active.offset + (addedBytes C m nonce st.buf).length) file := by
    intro file hfl
    rw [get_modify_eq, update_self] at hfl
    obtain ⟨old, ho, rfl⟩ := map_eq_some_iff.mp hfl
    have hld := h.active old ho
    obtain ⟨header, lastHash, body, hl, hc, hg⟩ := hld
    rw [hh _ hg, hb]
    -- the batch goes behind the end of a file in its layout
    have he : header.isEncrypted = m.encryptionKeys.isSome := by
      refine hk _ { header with prevLastHash := lastHash } ho ?_
      rw [field_zero, take_left' (serialize_length C header lastHash)]
      exact deserialize_serialize C header lastHash
    have hd : InLayout C header (body ++ addedBytes C m nonce (batchBytes C views)) := by
      unfold addedBytes
      unfold FrameFits at hf
      rw [← hc, ← he] at hf ⊢
      split_ifs with hfr
      · obtain ⟨hr, hp⟩ := hf hfr
        refine hl.append_frame hfr (.mk views _ nonce hne ht ?_ hr hp)
        rw [isSome_map, he]
      · exact hl.append_raw (Bool.eq_false_of_not_eq_true hfr) ht
    rw [append_assoc]
    refine .mk header lastHash _ hd hc ?_
    rw [← append_assoc, length_append, hg]
  constructor
  · exact h.ids.trans hsm.id_eq.symm
  · intro id file hfl
    by_cases hid : id = m.active.id
    · exact ⟨_, _, ha file (hid ▸ hfl)⟩
    · rw [get_modify_ne d hid] at hfl
      exact h.files id file hfl
  · intro file hfl
    simp only [hsm.id_eq, hsm.compressed_eq] at hfl ⊢
    exact ha file hfl
  · intro id seg hs
    obtain ⟨hid, hne', hfs⟩ := h.prepared id seg hs
    refine ⟨hid, fun heq => hne' (heq.trans hsm.id_eq), fun file hfl => ?_⟩
    rw [get_modify_ne d hne'] at hfl
    exact hfs file hfl

theorem LayoutInv.backfill (h : LayoutInv C m d) :
    LayoutInv C m (m.active.backfillHeaderTs C d) := by
  have hb : ∀ compressed offset file, LaidOut C compressed offset file → LaidOut C compressed offset
        (ActiveSegment.backfill C m.active.minTs m.active.maxTs file) := by
    rintro compressed offset file ⟨header, lastHash, body, hl, hc, ha⟩
    rw [ActiveSegment.backfill_serialize]
    refine .mk _ lastHash body (hl.congr rfl rfl) hc ?_
    rw [length_append, serialize_length] at ha ⊢
    exact ha
  unfold ActiveSegment.backfillHeaderTs
  constructor
  · exact h.ids
  · intro id file hf
    by_cases hid : id = m.active.id
    · rw [hid, get_modify_eq, update_self] at hf
      obtain ⟨old, ho, rfl⟩ := map_eq_some_iff.mp hf
      exact ⟨_, _, hb _ _ old (h.active old ho)⟩
    · rw [get_modify_ne d hid] at hf
      exact h.files id file hf
  · intro file hf
    rw [get_modify_eq, update_self] at hf
    obtain ⟨old, ho, rfl⟩ := map_eq_some_iff.mp hf
    exact hb _ _ old (h.active old ho)
  · intro id seg hs
    obtain ⟨hid, hne, hfs⟩ := h.prepared id seg hs
    refine ⟨hid, hne, fun file hf => ?_⟩
    rw [get_modify_ne d hne] at hf
    exact hfs file hf

theorem LayoutInv.swap {newId : ℕ} (hid : seg.id = newId)
    (hfs : ∀ id file, d.get id = some file → ∃ compressed offset, LaidOut C compressed offset file)
    (hs : ∀ file, d.get newId = some file → LaidOut C seg.compressed seg.offset file) :
    LayoutInv C (m.swapActive newId seg) d  where
  ids := hid.symm
  files := hfs
  active file hf := hs file (hid ▸ hf)
  prepared _ _ h := by cases h

theorem LayoutInv.roll (h : LayoutInv C m d) (nextBase cp : UInt64) (env : RollEnv) :
    LayoutInv C (m.roll C d nextBase cp env).2.1
      (m.roll C d nextBase cp env).2.2 := by
  have hc : LayoutInv C m (m.saveActiveIndex (m.active.backfillHeaderTs C d)) := by
    refine h.backfill.mono fun id file hf => ?_
    rwa [saveActiveIndex_get] at hf
  unfold SegmentManager.roll
  simp only
  split
  · next newId seg hp =>
    obtain ⟨hid, -, hs⟩ := hc.prepared newId seg hp
    exact (LayoutInv.swap hid hc.files hs).mono fun id file hf =>
      deletes_get (rollCleanup_deletes _ _ _) hf
  · split
    · exact hc
    · next seg created hr =>
      obtain ⟨hid, hg, hl⟩ := create_laidOut (nextHeader_isCompressed m _ _) hr
      refine (LayoutInv.swap hid (hc.files_create hl hg) ?_).mono fun id file hf =>
        deletes_get (rollCleanup_deletes _ _ _) hf
      intro file hf
      rw [hg, update_self, some.injEq] at hf
      exact hf ▸ hl

theorem LayoutInv.append (h : LayoutInv C m d) (nonce : Nonce) (first : ℕ)
    (hft : ∀ v ∈ views, v.Fits) (hk : (∀ v ∈ views.head?,
      m.active.hasRoom (recordSize v.content.length) m.segmentSize = true) → KeysAgree C m d)
    (hf : ∀ k, FrameFits C m.active.compressed m.encryptionKeys nonce (views.take k)) :
    LayoutInv C (m.appendBatch C d nonce first views).2.1
      (m.appendBatch C d nonce first views).2.2 := by
  unfold appendBatch
  cases hi : fill C m first views (.start m first) with
  | error e => exact h
  | ok st =>
    obtain ⟨k, hd, -⟩ := fill_spec hi rfl
    have hb : st.buf = batchBytes C (views.take k) := hd.buf_eq
    suffices hw : LayoutInv C (writeBatch C m d nonce st).1 (writeBatch C m d nonce st).2 from
      hw.prepare st.next
    by_cases ht : views.take k = []
    · have hn : st.buf.length = 0 := by rw [hb, ht, batchBytes_nil, length_nil]
      rw [writeBatch, if_pos hn]
      have hs := hd.active_eq
      exact {
        ids := h.ids.trans hs.id_eq.symm
        files := h.files
        active := by
          simp only [hs.id_eq, hs.compressed_eq, hs.offset_eq]
          exact h.active
        prepared := by
          simp only [hs.id_eq]
          exact h.prepared }
    · have hr : ∀ v ∈ views.head?,
          m.active.hasRoom (recordSize v.content.length) m.segmentSize = true := by
        intro v hv
        obtain ⟨rest, rfl⟩ := head?_eq_some_iff.mp hv
        unfold fill at hi
        split_ifs at hi with ha he
        · simpa using ha
        · exact absurd rfl he
      exact h.write (hk hr) nonce hb hd.active_eq ht (fun v hv => hft v (mem_of_mem_take hv)) (hf k)

end

end SegmentManager

end LogDb.Storage
