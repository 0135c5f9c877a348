import LogDb.Lib.Journal
import LogDb.Storage.Append
import LogDb.Storage.Faulty
import LogDb.Storage.Retention

/-!
What the operations of the manager can do to the files when calls fail: the active file changes
outside its content, at most one file is created, and the offset moves over whole batches only.
-/

namespace LogDb.Storage

open Lib Format Journal List Option ActiveSegment WriteOutcome

theorem WriteOutcome.arrived_length_le (o : WriteOutcome) (data : Bytes) :
    (o.arrived data).length ≤ data.length := by
  cases o with
  | done => exact le_rfl
  | failed written => exact length_take_le' written data

theorem WriteOutcome.eq_done {o : WriteOutcome} (h : ¬ (!o.isDone) = true) : o = .done := by
  cases o with
  | done => rfl
  | failed written => exact absurd rfl h

/-- The batch is written whole. -/
def AppendOutcomes.Writes (o : AppendOutcomes) : Prop :=
  o.encode = true ∧ o.frameHeader = .done ∧ o.data = .done

namespace ActiveSegment

/-- Nothing was written to the segment behind its header. -/
structure Fresh (seg : ActiveSegment) (id : ℕ) (compressed : Bool) : Prop where
  id_eq : seg.id = id
  offset_eq : seg.offset = segmentHeaderSize
  compressed_eq : seg.compressed = compressed

inductive CreateCase (d : Disk) (id : ℕ) (compressed : Bool) (o : FileOutcome) :
    Except String ActiveSegment × Disk → Prop where
  | refused (e : String) (h : o ≠ .done ∨ (d.get id).isSome = true) :
      CreateCase d id compressed o (.error e, d)
  | torn (e : String) (d' : Disk) (data : Bytes) (ho : ∃ written, o = .failed written)
      (h : d.create id data = some d') : CreateCase d id compressed o (.error e, d')
  | created (seg : ActiveSegment) (d' : Disk) (data : Bytes) (hseg : seg.Fresh id compressed)
      (h : d.create id data = some d') (ho : o = .done) : CreateCase d id compressed o (.ok seg, d')

theorem create_cases (C : Crates) (d : Disk) (id : ℕ) (header : SegmentHeader) (lastHash : Bytes32)
    (compressed : Bool) (o : FileOutcome) :
    CreateCase d id compressed o (createWith C d id header lastHash compressed o) := by
  have he : ∀ data, d.create id data = none → (d.get id).isSome = true := by
    intro data hc
    by_contra hn
    obtain ⟨d', hd'⟩ := Disk.create_of_get data (not_isSome_iff_eq_none.mp hn)
    rw [hc] at hd'
    cases hd'
  unfold createWith
  cases o with
  | done =>
    unfold create
    cases hc : d.create id (header.serialize C lastHash) with
    | none => exact .refused _ (.inr (he _ hc))
    | some d' => exact .created _ _ _ ⟨rfl, rfl, rfl⟩ hc rfl
  | refused => exact .refused _ (.inl nofun)
  | failed written =>
    simp only
    cases hc : d.create id ((header.serialize C lastHash).take written) with
    | none => exact .refused _ (.inl nofun)
    | some d' => exact .torn _ _ _ ⟨written, rfl⟩ hc

/-- The backfill changes bytes of the header only. -/
theorem backfill_modify (C : Crates) (d : Disk) (seg : ActiveSegment) (o : RollOutcomes) :
    ∃ change, (∀ limit, KeepsContent segmentHeaderSize limit change) ∧
      (seg.backfillHeaderTsWith C d o).2 = d.modify seg.id change := by
  have hm : ∀ limit, KeepsContent segmentHeaderSize limit
      (writeAt 56 (o.minTs.arrived (leBytes 8 seg.minTs.toNat))) := fun limit =>
    keepsContent_reserve fun _ => (Nat.add_le_add_left (o.minTs.arrived_length_le _) 56).trans
      (by simp [segmentHeaderSize])
  have hx : ∀ limit, KeepsContent segmentHeaderSize limit
      (writeAt 64 (o.maxTs.arrived (leBytes 8 seg.maxTs.toNat))) := fun limit =>
    keepsContent_reserve fun _ => (Nat.add_le_add_left (o.maxTs.arrived_length_le _) 64).trans
      (by simp [segmentHeaderSize])
  have hc : ∀ limit, KeepsContent segmentHeaderSize limit fun data => writeAt headerCrcEnd
      (o.crc.arrived (leBytes 4 (C.crc32c (field 0 headerCrcEnd data)).toNat)) data := fun limit =>
    keepsContent_reserve fun _ =>
      (Nat.add_le_add_left (o.crc.arrived_length_le _) headerCrcEnd).trans
        (by simp [segmentHeaderSize, headerCrcEnd])
  unfold backfillHeaderTsWith
  simp only [Disk.pwriteAll, Disk.pwrite, Disk.modify_modify]
  split_ifs
  · exact ⟨_, hm, rfl⟩
  · exact ⟨_, fun limit => (hm limit).comp (hx limit), rfl⟩
  · exact ⟨_, fun limit => (hm limit).comp (hx limit), rfl⟩
  · exact ⟨_, fun limit => ((hm limit).comp (hx limit)).comp (hc limit), rfl⟩

end ActiveSegment

namespace SegmentManager

variable {C : Crates} {m : SegmentManager} {d : Disk}

inductive PrepareCase (m : SegmentManager) (d : Disk) (o : FileOutcome) :
    Except SegmentError Unit × SegmentManager × Disk → Prop where
  | skipped (h : m.preparedSegment.isSome = true ∨
      m.active.offset * 100 / m.segmentSize < 80) : PrepareCase m d o (.ok (), m, d)
  | refused (e : String) (hnone : m.preparedSegment = none)
      (h : o ≠ .done ∨ (d.get m.nextId).isSome = true) : PrepareCase m d o (.error (.io e), m, d)
  | torn (e : String) (d' : Disk) (data : Bytes) (hnone : m.preparedSegment = none)
      (ho : ∃ written, o = .failed written) (h : d.create m.nextId data = some d') :
      PrepareCase m d o (.error (.io e), m, d')
  | created (seg : ActiveSegment) (d' : Disk) (data : Bytes) (hnone : m.preparedSegment = none)
      (hseg : seg.Fresh m.nextId m.compressed) (h : d.create m.nextId data = some d')
      (ho : o = .done) :
      PrepareCase m d o (.ok (), { m with preparedSegment := some (m.nextId, seg) }, d')

theorem maybePrepareNext_cases (nextLocalSeq : ℕ) (o : FileOutcome) :
    PrepareCase m d o (m.maybePrepareNextWith C d nextLocalSeq o) := by
  unfold maybePrepareNextWith
  split_ifs with he hf
  · exact .skipped (.inl he)
  · exact .skipped (.inr hf)
  · have hn : m.preparedSegment = none := not_isSome_iff_eq_none.mp he
    simp only
    have hc := create_cases C d m.nextId (m.nextHeader m.nextId
      (encodeRecordId m.shardId nextLocalSeq m.shardBits)) m.lastHash m.compressed o
    generalize createWith C d m.nextId (m.nextHeader m.nextId
      (encodeRecordId m.shardId nextLocalSeq m.shardBits)) m.lastHash m.compressed o = r at hc
    cases hc with
    | refused e h => exact .refused _ hn h
    | torn e d' data ho h => exact .torn _ d' data hn ho h
    | created seg d' data hs h ho => exact .created seg d' data hn hs h ho

theorem PrepareCase.files {o : FileOutcome} {r : Except SegmentError Unit × SegmentManager × Disk}
    (h : PrepareCase m d o r) {g : ℕ} (hg : (r.2.2.get g).isSome = true) :
    (d.get g).isSome = true ∨ g = m.nextId := by
  cases h with
  | skipped => exact .inl hg
  | refused e hn h => exact .inl hg
  | torn e d' data hn ho h =>
    rw [Disk.get_create h] at hg
    split_ifs at hg with hid
    · exact .inr hid
    · exact .inl hg
  | created seg d' data hn hs h =>
    rw [Disk.get_create h] at hg
    split_ifs at hg with hid
    · exact .inr hid
    · exact .inl hg

/-- The manager behind a filled buffer that ends at `offset`. -/
def filled (m : SegmentManager) (st : BatchFill) (offset : ℕ) : SegmentManager :=
  { m with
    active := { st.active with offset := offset }
    activeIndex := st.index
    activeIndexCount := st.indexCount }

inductive WriteCase (C : Crates) (m : SegmentManager) (d : Disk) (nonce : Nonce) (st : BatchFill)
    (o : AppendOutcomes) : Except SegmentError Unit × SegmentManager × Disk → Prop where
  | failed (e : String) (change : Bytes → Bytes)
      (hkeeps : ∀ reserve, KeepsContent reserve m.active.offset change) (ho : ¬ o.Writes) :
      WriteCase C m d nonce st o
        (.error (.io e), m.filled st m.active.offset, d.modify m.active.id change)
  | wrote (change : Bytes → Bytes)
      (hkeeps : KeepsContent segmentHeaderSize m.active.offset change)
      (hchunk : ∀ bytes, field m.active.offset (addedBytes C m nonce st.buf).length (change bytes) =
        addedBytes C m nonce st.buf) :
      WriteCase C m d nonce st o
        (.ok (), m.filled st (m.active.offset + (addedBytes C m nonce st.buf).length),
          d.modify m.active.id change)

variable {views : List ReadView} {st : BatchFill}

theorem writeBatch_cases {nonce : Nonce} {o : AppendOutcomes} (hne : st.buf ≠ [])
    (hs : ActiveSegment.SameFile st.active m.active) :
    WriteCase C m d nonce st o (m.writeBatchWith C d nonce st o) := by
  have hl : st.buf.length ≠ 0 := fun h => hne (length_eq_zero_iff.mp h)
  have hi : ∀ offset, m.filled st offset = { m with
      active := { st.active with offset := offset }
      activeIndex := st.index
      activeIndexCount := st.indexCount } := fun _ => rfl
  have hk : m.filled st m.active.offset = { m with
      active := st.active
      activeIndex := st.index
      activeIndexCount := st.indexCount } := by
    rw [hi, ← hs.offset_eq]
  unfold writeBatchWith
  simp only [hs.id_eq, hs.compressed_eq, if_neg hl, ← hk, Disk.pwriteAll, Disk.pwrite,
    Disk.modify_modify]
  have hb : ∀ (reserve off : ℕ) (data : Bytes), m.active.offset ≤ off →
      KeepsContent reserve m.active.offset (writeAt off data) :=
    fun _ off data hc => keepsContent_behind (fun _ => data) hc
  split_ifs with hr he hh hd hd
  · have hn : WriteCase C m d nonce st o _ :=
      .failed "encryption failed" (fun data => data) (fun _ _ _ _ hg => hg) fun ho => by
        rw [ho.1] at he
        cases he
    rwa [Disk.modify_id] at hn
  · exact .failed _ _ (fun reserve => hb reserve _ _ le_rfl) fun ho => by
      rw [ho.2.1] at hh
      cases hh
  · refine .failed _ _ (fun reserve =>
      (hb reserve _ _ le_rfl).comp (hb reserve _ _ (Nat.le_add_right _ _))) fun ho => ?_
    rw [ho.2.2] at hd
    cases hd
  · rw [eq_done hh, eq_done hd]
    have ha : addedBytes C m nonce st.buf = frameBytes (encodeFramePayload C
        m.active.compressed (m.encryptionKeys.map KeyRing.active) nonce st.buf) st.buf.length :=
      if_pos hr
    set payload := encodeFramePayload C m.active.compressed (m.encryptionKeys.map KeyRing.active)
      nonce st.buf
    set front := writeFrameHeader payload.length st.buf.length with hf
    have hz : front.length = frameHeaderSize := by
      rw [hf]
      simp [writeFrameHeader, frameHeaderSize]
    have hw : WriteCase C m d nonce st o _ := .wrote
      (writeAt (m.active.offset + frameHeaderSize) payload ∘ writeAt m.active.offset front)
      ((hb _ _ _ le_rfl).comp (hb _ _ _ (Nat.le_add_right _ _))) (by
        intro bytes
        rw [ha, frameBytes, ← hf, ← hz]
        apply field_adjacent
        · exact field_writeAt_before _ (field_writeAt_self _ _ _) le_rfl
        · exact field_writeAt_self _ _ _)
    rw [ha, frameBytes, ← hf, length_append, hz, ← add_assoc] at hw
    simpa only [filled, hs.id_eq, hs.compressed_eq, arrived] using hw
  · exact .failed _ _ (fun reserve => hb reserve _ _ le_rfl) fun ho => by
      rw [ho.2.2] at hd
      cases hd
  · rw [eq_done hd]
    have ha : addedBytes C m nonce st.buf = st.buf := if_neg hr
    have hw : WriteCase C m d nonce st o _ := .wrote
      (writeAt m.active.offset st.buf) (hb _ _ _ le_rfl) (by
        intro bytes
        rw [ha]
        exact field_writeAt_self _ _ _)
    rw [ha] at hw
    simpa only [filled, hs.id_eq, hs.compressed_eq, arrived] using hw

/-- The first of the records fits into the active segment. -/
def Fits (m : SegmentManager) (views : List ReadView) : Prop :=
  ∀ v ∈ views.head?, m.active.hasRoom (recordSize v.content.length) m.segmentSize = true

theorem fill_of_not_fits (hf : ¬ m.Fits views) (first : ℕ) :
    fill C m first views (.start m first) = .error .full := by
  cases views with
  | nil => exact absurd (fun _ hv => by cases hv) hf
  | cons v vs =>
    have hr : m.active.hasRoom (recordSize v.content.length) m.segmentSize ≠ true := by
      intro hr
      apply hf
      rintro w hw
      cases hw
      exact hr
    unfold fill
    rw [length_nil, zero_add, if_neg hr, if_pos rfl]

theorem fill_of_begun {seq : ℕ} (hb : st.buf ≠ []) : ∃ st', fill C m seq views st = .ok st' := by
  induction views generalizing seq st with
  | nil => exact ⟨st, rfl⟩
  | cons v vs ih =>
    unfold fill
    split_ifs with hr he
    · apply ih
      exact append_ne_nil_of_left_ne_nil hb _
    · exact absurd (length_eq_zero_iff.mp he) hb
    · exact ⟨st, rfl⟩

theorem not_fits_of_fill {first : ℕ} {e : SegmentError}
    (hf : fill C m first views (.start m first) = .error e) : ¬ m.Fits views := by
  intro ht
  cases views with
  | nil =>
    unfold fill at hf
    cases hf
  | cons v vs =>
    have hr := ht v rfl
    unfold fill at hf
    rw [length_nil, zero_add, if_pos hr] at hf
    set st := fillStep C m.active.offset first v (.start m first)
    have hb : st.buf ≠ [] := by
      intro hn
      have hl := congrArg length hn
      simp only [st, fillStep, nil_append, serializeRecord_length, length_nil, recordSize_eq] at hl
      omega
    have hok : ∃ st', fill C m (first + 1) vs st = .ok st' := fill_of_begun hb
    obtain ⟨st', hs'⟩ := hok
    rw [hs'] at hf
    cases hf

inductive AppendCase (C : Crates) (m : SegmentManager) (d : Disk) (nonce : Nonce) (first : ℕ)
    (views : List ReadView) (o : AppendOutcomes) :
    Except SegmentError ℕ × SegmentManager × Disk → Prop where
  | full (hfits : ¬ m.Fits views) : AppendCase C m d nonce first views o (.error .full, m, d)
  | failed (hfits : m.Fits views) (st : BatchFill)
      (hsame : ActiveSegment.SameFile st.active m.active) (e : String) (change : Bytes → Bytes)
      (hkeeps : ∀ reserve, KeepsContent reserve m.active.offset change) (ho : ¬ o.Writes) :
      AppendCase C m d nonce first views o
        (.error (.io e), m.filled st m.active.offset, d.modify m.active.id change)
  | wrote (hfits : m.Fits views) (st : BatchFill)
      (hsame : ActiveSegment.SameFile st.active m.active) (k : ℕ) (hk : 0 < k)
      (hle : k ≤ views.length) (chunk : Bytes)
      (hadded : chunk = addedBytes C m nonce (batchBytes C (views.take k)))
      (change : Bytes → Bytes) (hkeeps : KeepsContent segmentHeaderSize m.active.offset change)
      (hchunk : ∀ bytes, field m.active.offset chunk.length (change bytes) = chunk)
      (r : Except SegmentError Unit × SegmentManager × Disk)
      (hprep : PrepareCase (m.filled st (m.active.offset + chunk.length))
        (d.modify m.active.id change) o.prepare r) :
      AppendCase C m d nonce first views o (r.1.map fun _ => first + k, r.2)

theorem appendBatch_cases (nonce : Nonce) (first : ℕ) (o : AppendOutcomes) (hne : views ≠ []) :
    AppendCase C m d nonce first views o (m.appendBatchWith C d nonce first views o) := by
  unfold appendBatchWith
  cases hi : fill C m first views
      (.start m first) with
  | error e =>
    obtain rfl := fill_error hi
    exact .full (not_fits_of_fill hi)
  | ok st =>
    obtain ⟨k, hf, hp⟩ := fill_spec hi rfl
    have hk := hp rfl hne
    have ht : m.Fits views := by
      by_contra hfu
      rw [fill_of_not_fits hfu] at hi
      cases hi
    have hb : st.buf = batchBytes C (views.take k) := hf.buf_eq
    have hbuf_ne : st.buf ≠ [] := by
      rw [hb]
      apply batchBytes_ne_nil
      intro hn
      have hl := congrArg length hn
      rw [length_take_of_le hf.le, length_nil] at hl
      omega
    have hw : WriteCase C m d nonce st o (m.writeBatchWith C d nonce st o) :=
      writeBatch_cases hbuf_ne hf.active_eq
    simp only
    generalize m.writeBatchWith C d nonce st o = r at hw
    cases hw with
    | failed e change hkp ho => exact .failed ht st hf.active_eq e change hkp ho
    | wrote change hkp hc =>
      have hx : st.next = first + k := hf.next_eq
      simp only [hx]
      exact .wrote ht st hf.active_eq k hk hf.le _ (congrArg _ hb) change hkp
        hc _ (maybePrepareNext_cases _ _)

theorem saveActiveIndexWith_segments (d : Disk) (o : FileOutcome) :
    (m.saveActiveIndexWith d o).segments = d.segments := by
  unfold saveActiveIndexWith saveActiveIndex
  cases o with
  | refused => rfl
  | _ =>
    simp only
    split
    · split_ifs <;> rfl
    · rfl

inductive RollCase (m : SegmentManager) (vol : Volume) (o : RollOutcomes) :
    Except SegmentError Unit × SegmentManager × Volume → Prop where
  | failed (e : SegmentError) (change : Bytes → Bytes)
      (hkeeps : ∀ limit, KeepsContent segmentHeaderSize limit change) (d : Disk)
      (hsegs : d.segments = (vol.disk.modify m.active.id change).segments)
      (ho : o ≠ .good ∨ m.preparedSegment = none ∧ (vol.disk.get m.nextId).isSome = true) :
      RollCase m vol o (.error e, m, { vol with disk := d })
  | torn (e : SegmentError) (change : Bytes → Bytes)
      (hkeeps : ∀ limit, KeepsContent segmentHeaderSize limit change) (d d' : Disk)
      (hsegs : d.segments = (vol.disk.modify m.active.id change).segments)
      (hnone : m.preparedSegment = none) (data : Bytes) (hcreate : d.create m.nextId data = some d')
      (ho : (∃ written, o.create = .failed written) ∨
        o.syncHeader = false ∨ o.openDir = false ∨ o.syncDir = false) (vol' : Volume)
      (hvol : vol' = { vol with disk := d' } ∨
        vol' = Volume.fdatasync { vol with disk := d' } m.nextId) :
      RollCase m vol o (.error e, m, vol')
  | prepared (change : Bytes → Bytes)
      (hkeeps : ∀ limit, KeepsContent segmentHeaderSize limit change) (d : Disk)
      (hsegs : d.segments = (vol.disk.modify m.active.id change).segments) (newId : ℕ)
      (seg : ActiveSegment) (hprep : m.preparedSegment = some (newId, seg)) :
      RollCase m vol o (.ok (), m.swapActive newId seg, { vol with disk := d })
  | created (change : Bytes → Bytes)
      (hkeeps : ∀ limit, KeepsContent segmentHeaderSize limit change) (d d' : Disk)
      (hsegs : d.segments = (vol.disk.modify m.active.id change).segments)
      (hnone : m.preparedSegment = none) (data : Bytes) (hcreate : d.create m.nextId data = some d')
      (seg : ActiveSegment) (hseg : seg.Fresh m.nextId m.compressed) :
      RollCase m vol o (.ok (), m.swapActive m.nextId seg,
        (Volume.fdatasync { vol with disk := d' } m.nextId).syncDir)

theorem RollCase.files {vol : Volume} {o : RollOutcomes}
    {r : Except SegmentError Unit × SegmentManager × Volume} (h : RollCase m vol o r) {g : ℕ}
    (hg : (r.2.2.disk.get g).isSome = true) : (vol.disk.get g).isSome = true ∨ g = m.nextId := by
  have hb : ∀ {d : Disk} {change : Bytes → Bytes},
      d.segments = (vol.disk.modify m.active.id change).segments → (d.get g).isSome = true →
      (vol.disk.get g).isSome = true := by
    intro d change hsg hd
    rwa [Disk.get_congr hsg, Disk.isSome_get_modify] at hd
  have hc : ∀ {d d' : Disk} {data : Bytes} {change : Bytes → Bytes},
      d.segments = (vol.disk.modify m.active.id change).segments →
      d.create m.nextId data = some d' → (d'.get g).isSome = true →
      (vol.disk.get g).isSome = true ∨ g = m.nextId := by
    intro d d' data change hsg hr hd'
    rw [Disk.get_create hr] at hd'
    split_ifs at hd' with hid
    · exact .inr hid
    · exact .inl (hb hsg hd')
  cases h with
  | failed e change hk d hsg => exact .inl (hb hsg hg)
  | torn e change hk d d' hsg hn data hr ho vol' hv =>
    rcases hv with rfl | rfl
    · exact hc hsg hr hg
    · exact hc hsg hr hg
  | prepared change hk d hsg newId seg hp => exact .inl (hb hsg hg)
  | created change hk d d' hsg hn data hr seg hs =>
    exact hc hsg hr hg

theorem rollSwap_cases (vol : Volume) (nextBase : UInt64) (o : RollOutcomes) :
    RollCase m vol o (m.rollSwapWith C vol nextBase o) := by
  obtain ⟨change, hk, hbf⟩ := m.active.backfill_modify C vol.disk o
  unfold rollSwapWith
  generalize hb : m.active.backfillHeaderTsWith C vol.disk o = r at hbf
  obtain ⟨ok, d⟩ := r
  obtain rfl : d = vol.disk.modify m.active.id change := hbf
  cases ok with
  | false => exact .failed _ change hk _ rfl (.inl (by
      rintro rfl
      rw [backfillHeaderTsWith_good] at hb
      cases hb))
  | true =>
    simp only
    set d := m.saveActiveIndexWith (vol.disk.modify m.active.id change) o.index
    have hg : d.segments = (vol.disk.modify m.active.id change).segments :=
      saveActiveIndexWith_segments _ _
    cases hp : m.preparedSegment with
    | some p => exact .prepared change hk d hg p.1 p.2 hp
    | none =>
      have hc := create_cases C d m.nextId (m.nextHeader m.nextId nextBase)
        m.lastHash m.compressed o.create
      simp only
      generalize createWith C d m.nextId (m.nextHeader m.nextId nextBase)
        m.lastHash m.compressed o.create = r at hc
      cases hc with
      | refused e h =>
        refine .failed _ change hk d hg ?_
        rcases h with hne | hf
        · refine .inl ?_
          rintro rfl
          exact hne rfl
        · rw [Disk.get_congr hg, Disk.isSome_get_modify] at hf
          exact .inr ⟨hp, hf⟩
      | torn e d' data ho h =>
        exact .torn _ change hk d d' hg hp data h (.inl ho) _ (.inl rfl)
      | created seg d' data hs h =>
        simp only
        split_ifs with hh hd
        · have ho : o.syncHeader = false := by simpa using hh
          exact .torn _ change hk d d' hg hp data h (.inr (.inl ho)) _ (.inl rfl)
        · have ho : o.openDir = false ∨ o.syncDir = false := by
            rw [Bool.not_eq_true', Bool.and_eq_false_iff] at hd
            exact hd
          exact .torn _ change hk d d' hg hp data h (.inr (.inr ho)) _ (.inr rfl)
        · exact .created change hk d d' hg hp data h seg hs

end SegmentManager

end LogDb.Storage
