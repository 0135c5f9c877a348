import LogDb.Format.Frame

/-!
Segment bodies: the bytes that follow the header when a list of records was stored, either as
raw records or batch by batch as frames.

The layout that the flags of a header declare: raw records, or frames that are compressed and
encrypted as the flags say, each under a key of its own.
-/

namespace LogDb.Format

open Lib List SegmentHeader

section

/-- A record is stored under the id that its slot holds. -/
def storedRecord (C : Crates) (view : ReadView) : Bytes :=
  serializeRecord C view.recordId view

def batchBytes (C : Crates) (views : List ReadView) : Bytes :=
  (views.map (storedRecord C)).flatten

/-- The stored length of a record fits its `u32` length field. -/
def ReadView.Fits (view : ReadView) : Prop :=
  recordSize view.content.length < 2 ^ 32

/-- A batch and the payload of the frame it was stored as. -/
structure StoredFrame where
  views : List ReadView
  payload : Bytes

namespace StoredFrame

variable (C : Crates)

def raw (f : StoredFrame) : Bytes :=
  batchBytes C f.views

def bytes (f : StoredFrame) : Bytes :=
  frameBytes f.payload (f.raw C).length

/-- The payload decodes to the batch and both lengths fit the frame header. -/
structure Valid (compressed encrypted : Bool) (keys : Option KeyRing) (f : StoredFrame) : Prop where
  views_ne : f.views ≠ []
  payload_ne : f.payload ≠ []
  payload_lt : f.payload.length < 2 ^ 32
  raw_lt : (f.raw C).length < 2 ^ 32
  decodes : decodeFramePayload C f.payload compressed encrypted keys = .ok (f.raw C)

end StoredFrame

/-- The body of a segment that holds `views`, in the layout the header flags declare. -/
inductive StoredBody (C : Crates) (header : SegmentHeader) (keys : Option KeyRing) :
    List ReadView → Bytes → Prop where
  | raw (views : List ReadView) (h : (header.isCompressed || header.isEncrypted) = false) :
      StoredBody C header keys views (batchBytes C views)
  | framed (frames : List StoredFrame)
      (h : (header.isCompressed || header.isEncrypted) = true)
      (hvalid : ∀ f ∈ frames, f.Valid C header.isCompressed header.isEncrypted keys) :
      StoredBody C header keys (frames.flatMap StoredFrame.views)
        (frames.map (StoredFrame.bytes C)).flatten

theorem batchBytes_nil (C : Crates) : batchBytes C [] = [] := rfl

theorem batchBytes_cons (C : Crates) (view : ReadView) (views : List ReadView) :
    batchBytes C (view :: views) = storedRecord C view ++ batchBytes C views := rfl

theorem batchBytes_append (C : Crates) (xs ys : List ReadView) :
    batchBytes C (xs ++ ys) = batchBytes C xs ++ batchBytes C ys := by
  simp [batchBytes]

@[simp] theorem storedRecord_length (C : Crates) (view : ReadView) :
    (storedRecord C view).length = recordSize view.content.length :=
  serializeRecord_length C view.recordId view

variable {views : List ReadView} {view : ReadView}

theorem batchBytes_ne_nil (C : Crates) (h : views ≠ []) : batchBytes C views ≠ [] := by
  obtain ⟨view, rest, rfl⟩ := exists_cons_of_ne_nil h
  intro hn
  have hl := congrArg length hn
  rw [batchBytes_cons, length_append, storedRecord_length, recordSize_eq] at hl
  simp only [length_nil] at hl
  omega

theorem isChunk_storedRecord (C : Crates) (h : view.Fits) :
    recordFraming.IsChunk (storedRecord C view) :=
  isChunk_serializeRecord C view.recordId view h

theorem isChunk_of_mem_map {C : Crates} (h : ∀ v ∈ views, v.Fits) :
    ∀ c ∈ views.map (storedRecord C), recordFraming.IsChunk c := by
  intro c hc
  obtain ⟨view, hv, rfl⟩ := mem_map.mp hc
  exact isChunk_storedRecord C (h view hv)

theorem deserializeRecord_storedRecord (C : Crates) (h : view.Fits) :
    deserializeRecord C (storedRecord C view) =
      .ok (view.toRecord, recordSize view.content.length) := by
  have hr := deserializeRecord_serializeRecord C view.recordId view [] h
  rwa [append_nil] at hr

/-- What begins a string of records and is one is made of its first records. -/
theorem isPrefix_of_batchBytes {C : Crates} {stored : List ReadView} {rest : Bytes}
    (h : batchBytes C views ++ rest = batchBytes C stored)
    (hl : (batchBytes C stored).length < 2 ^ 32) : views <+: stored := by
  induction views generalizing stored with
  | nil => exact nil_prefix
  | cons view views ih =>
    rw [batchBytes_cons, append_assoc] at h
    cases stored with
    | nil =>
      have hn := congrArg length h
      rw [length_append, storedRecord_length, recordSize_eq, batchBytes_nil, length_nil] at hn
      omega
    | cons record stored =>
      rw [batchBytes_cons] at h
      have ht := congrArg length h
      rw [batchBytes_cons] at hl
      simp only [length_append, storedRecord_length] at hl ht
      -- both records are read from the same bytes
      have hr := deserializeRecord_serializeRecord C view.recordId view
        (batchBytes C views ++ rest) (by omega)
      have hr' := deserializeRecord_serializeRecord C record.recordId record
        (batchBytes C stored) (by omega)
      rw [storedRecord, storedRecord] at h
      rw [h, hr'] at hr
      obtain rfl : view = record := by
        cases view
        cases record
        simp_all
      have hrt := append_cancel_left h
      exact prefix_cons_inj view |>.mpr (ih hrt (by omega))

theorem leVal_field_storedRecord (C : Crates) (h : view.Fits) (pre rest : Bytes) :
    leVal (field pre.length 4 (pre ++ (storedRecord C view ++ rest))) =
      recordSize view.content.length := by
  have hn := (isChunk_storedRecord C h).next_append rest
  have hl := (recordFraming_next_eq_some.mp hn).1
  rw [storedRecord_length] at hl
  have hf := field_append_right pre (storedRecord C view ++ rest) 0 4
  rw [add_zero] at hf
  rw [hf, hl]

theorem field_storedRecord (C : Crates) (view : ReadView) (pre rest : Bytes) :
    field pre.length (recordSize view.content.length) (pre ++ (storedRecord C view ++ rest)) =
      storedRecord C view := by
  have hf := field_at pre (storedRecord C view) rest
  rwa [storedRecord_length] at hf

/-- What a reader finds at a record that lies anywhere in a byte string. -/
theorem storedRecord_at (C : Crates) (h : view.Fits) {pre rest data : Bytes}
    (hd : data = pre ++ (storedRecord C view ++ rest)) :
    leVal (field pre.length 4 data) = recordSize view.content.length ∧
      field pre.length (recordSize view.content.length) data = storedRecord C view ∧
      60 ≤ recordSize view.content.length ∧
      pre.length + recordSize view.content.length ≤ data.length := by
  subst hd
  refine ⟨leVal_field_storedRecord C h pre rest, field_storedRecord C view pre rest, ?_, ?_⟩
  · rw [recordSize_eq]
    omega
  · simp only [length_append, storedRecord_length]
    omega

/-- If batches are stored as frames, the lengths of this one fit into a frame header. -/
def FrameFits (C : Crates) (compressed : Bool) (keys : Option KeyRing) (nonce : Nonce)
    (views : List ReadView) : Prop :=
  (compressed || keys.isSome) = true → (batchBytes C views).length < 2 ^ 32 ∧
    (encodeFramePayload C compressed (keys.map KeyRing.active) nonce
      (batchBytes C views)).length < 2 ^ 32

namespace StoredFrame

variable {C : Crates} {compressed encrypted : Bool} {keys : Option KeyRing} {f : StoredFrame}

theorem Valid.fits (h : f.Valid C compressed encrypted keys) : ∀ v ∈ f.views, v.Fits := by
  intro v hv
  obtain ⟨xs, ys, hs⟩ := append_of_mem hv
  have hlt := h.raw_lt
  rw [raw, hs, batchBytes_append, batchBytes_cons] at hlt
  simp only [length_append, storedRecord_length] at hlt
  unfold ReadView.Fits
  omega

theorem isChunk_of_mem_frames {frames : List StoredFrame}
    (h : ∀ f ∈ frames, f.Valid C compressed encrypted keys) :
    ∀ c ∈ frames.map (bytes C), frameFraming.IsChunk c := by
  intro c hc
  obtain ⟨f, hf, rfl⟩ := mem_map.mp hc
  exact isChunk_frameBytes (h f hf).payload_ne (h f hf).payload_lt
    (length_pos_iff.mpr (batchBytes_ne_nil C (h f hf).views_ne)) (h f hf).raw_lt

theorem bytes_drop (f : StoredFrame) : (f.bytes C).drop frameHeaderSize = f.payload := by
  rw [bytes, frameBytes]
  exact drop_left' (by simp [writeFrameHeader, frameHeaderSize])

theorem Valid.readFrameHeader (h : f.Valid C compressed encrypted keys) :
    readFrameHeader (f.bytes C) = (f.payload.length, (f.raw C).length) := by
  have hr := readFrameHeader_frameBytes (f.raw C).length h.payload_lt []
  rwa [append_nil, Nat.mod_eq_of_lt h.raw_lt] at hr

end StoredFrame

namespace StoredBody

variable {C : Crates} {header : SegmentHeader} {keys : Option KeyRing} {views : List ReadView}
  {body : Bytes}

theorem nil (C : Crates) (header : SegmentHeader) (keys : Option KeyRing) :
    StoredBody C header keys [] [] := by
  by_cases hl : (header.isCompressed || header.isEncrypted) = true
  · exact framed [] hl fun f hf => absurd hf not_mem_nil
  · exact raw [] (Bool.eq_false_iff.mpr hl)

section

variable (h : StoredBody C header keys views body)
include h

theorem eq_nil (hs : views = []) : body = [] := by
  cases h with
  | raw _ _ =>
    rw [hs]
    rfl
  | framed frames _ hv =>
    cases frames with
    | nil => rfl
    | cons f fs =>
      have hf := flatMap_eq_nil_iff.mp hs f mem_cons_self
      exact absurd hf (hv f mem_cons_self).views_ne

theorem eq_batchBytes
    (hl : (header.isCompressed || header.isEncrypted) = false) : body = batchBytes C views := by
  cases h with
  | raw _ _ => rfl
  | framed _ hf _ =>
    rw [hl] at hf
    cases hf

theorem append_frame {f : StoredFrame} (hl : (header.isCompressed || header.isEncrypted) = true)
    (hf : f.Valid C header.isCompressed header.isEncrypted keys) :
    StoredBody C header keys (views ++ f.views) (body ++ f.bytes C) := by
  cases h with
  | raw _ hr =>
    rw [hl] at hr
    cases hr
  | framed frames _ ha =>
    have hs := framed (frames ++ [f]) hl (by
      intro g hg
      rcases mem_append.mp hg with ho | hn
      · exact ha g ho
      · rw [mem_singleton.mp hn]
        exact hf)
    rwa [flatMap_append, flatMap_singleton, map_append, flatten_append,
      map_singleton, flatten_singleton] at hs

theorem congr_header {header' : SegmentHeader}
    (hg : header'.flags = header.flags) : StoredBody C header' keys views body := by
  have hc : header'.isCompressed = header.isCompressed := by
    unfold SegmentHeader.isCompressed
    rw [hg]
  have he : header'.isEncrypted = header.isEncrypted := by
    unfold SegmentHeader.isEncrypted
    rw [hg]
  cases h with
  | raw _ hl =>
    rw [← hc, ← he] at hl
    exact raw _ hl
  | framed frames hl hf =>
    rw [← hc, ← he] at hl hf
    exact framed frames hl hf

end

end StoredBody

end

/-- A frame of records, compressed and encrypted as the header says. -/
inductive EncodedFrame (C : Crates) (header : SegmentHeader) : Bytes → Prop where
  | mk (views : List ReadView) (key : Option Bytes32) (nonce : Nonce) (hne : views ≠ [])
      (hfits : ∀ v ∈ views, v.Fits) (hkey : key.isSome = header.isEncrypted)
      (hraw : (batchBytes C views).length < 2 ^ 32)
      (hpayload : (encodeFramePayload C header.isCompressed key nonce
        (batchBytes C views)).length < 2 ^ 32) :
      EncodedFrame C header (frameBytes (encodeFramePayload C header.isCompressed key nonce
        (batchBytes C views)) (batchBytes C views).length)

/-- The bytes behind a header are in the layout it declares. -/
inductive InLayout (C : Crates) (header : SegmentHeader) : Bytes → Prop where
  | raw (views : List ReadView) (hlayout : (header.isCompressed || header.isEncrypted) = false)
      (hfits : ∀ v ∈ views, v.Fits) : InLayout C header (batchBytes C views)
  | framed (frames : List Bytes) (hlayout : (header.isCompressed || header.isEncrypted) = true)
      (hframes : ∀ f ∈ frames, EncodedFrame C header f) : InLayout C header frames.flatten

/-- A segment file is in the layout that its own header declares. -/
def FileInLayout (C : Crates) (file : Bytes) : Prop :=
  ∃ header, deserialize C (field 0 segmentHeaderSize file) = .ok header ∧
    segmentHeaderSize ≤ file.length ∧ InLayout C header (file.drop segmentHeaderSize)

section

variable {C : Crates} {header ha : SegmentHeader} {body : Bytes}

theorem EncodedFrame.congr {frame : Bytes} (h : EncodedFrame C header frame)
    (hc : ha.isCompressed = header.isCompressed)
    (he : ha.isEncrypted = header.isEncrypted) : EncodedFrame C ha frame := by
  obtain ⟨views, key, nonce, hne, hf, hk, hr, hp⟩ := h
  rw [← hc] at hp ⊢
  exact .mk views key nonce hne hf (hk.trans he.symm) hr hp

theorem InLayout.congr (h : InLayout C header body) (hc : ha.isCompressed = header.isCompressed)
    (he : ha.isEncrypted = header.isEncrypted) : InLayout C ha body := by
  cases h with
  | raw views hl ht => exact .raw views (by rw [hc, he, hl]) ht
  | framed frames hl hr =>
    refine .framed frames (by rw [hc, he, hl]) fun f hf => ?_
    exact (hr f hf).congr hc he

theorem InLayout.nil (C : Crates) (header : SegmentHeader) : InLayout C header [] := by
  by_cases hl : (header.isCompressed || header.isEncrypted) = true
  · exact .framed [] hl (by simp)
  · exact .raw [] (Bool.eq_false_of_not_eq_true hl) (by simp)

section

variable (h : InLayout C header body)
include h

theorem InLayout.append_raw
    (hl : (header.isCompressed || header.isEncrypted) = false) {views : List ReadView}
    (ht : ∀ v ∈ views, v.Fits) : InLayout C header (body ++ batchBytes C views) := by
  cases h with
  | framed frames hr hf =>
    rw [hl] at hr
    cases hr
  | raw old _ ho =>
    rw [← batchBytes_append]
    refine .raw _ hl fun v hv => ?_
    rcases mem_append.mp hv with hv | hv
    · exact ho v hv
    · exact ht v hv

theorem InLayout.append_frame (hl : (header.isCompressed || header.isEncrypted) = true)
    {frame : Bytes} (hfr : EncodedFrame C header frame) : InLayout C header (body ++ frame) := by
  cases h with
  | raw old hr ho =>
    rw [hl] at hr
    cases hr
  | framed frames _ hs =>
    have hfl : frames.flatten ++ frame = (frames ++ [frame]).flatten := by simp
    rw [hfl]
    refine .framed _ hl fun f hf => ?_
    rcases mem_append.mp hf with hf | hf
    · exact hs f hf
    · rw [mem_singleton.mp hf]
      exact hfr

end

theorem EncodedFrame.isChunk (hC : C.Lawful) {frame : Bytes} (h : EncodedFrame C header frame) :
    frameFraming.IsChunk frame := by
  obtain ⟨views, key, nonce, hne, -, -, hr, hp⟩ := h
  have hb := batchBytes_ne_nil C hne
  exact isChunk_frameBytes (encodeFramePayload_ne_nil hC _ key nonce _ hb) hp
    (length_pos_iff.mpr hb) hr

end

end LogDb.Format
