import LogDb.Recovery.Shard
import LogDb.Recovery.Accept

/-!
Which chain key recovery finds. It depends on the header of the first segment and on the first
record in it, and is the right one unless another candidate hashes that record alike.

Recovery of a shard directory with a single segment that nothing has happened to: the manager goes
on behind the last record, and the directory stays as it is.
-/

namespace LogDb.Recovery

open Lib Format Storage ReadView

section

variable (C : Crates) (header : SegmentHeader)

/-- The chain key that a candidate key of the ring unmasks. -/
def unmasked (key : Bytes32) : Bytes32 :=
  xor32 header.hashInit (deriveHashInit C key)

section

variable (keys : Option KeyRing)

/-- The chain key that is found when the first segment starts with the record `first`. -/
def chainKeyOf (first : Option ReadView) : Bytes32 :=
  match keys, first with
  | none, _ => header.hashInit
  | some ring, none => deriveHashInit C ring.active
  | some ring, some v =>
    match (candidateKeys header ring).find? fun k =>
        blake3KeyedChain C (unmasked C header k) header.prevLastHash v.content == v.hashN with
    | some k => unmasked C header k
    | none => deriveHashInit C ring.active

/-- A chain key that recovery can come upon: it is in the header, or one of the keys of the ring
unmasks it, or it is the one that an empty segment gets. -/
def KnownChainKey (chainKey : Bytes32) : Prop :=
  match keys with
  | none => header.hashInit = chainKey
  | some ring =>
    deriveHashInit C ring.active = chainKey ∨
      ∃ k ∈ candidateKeys header ring, unmasked C header k = chainKey

/-- The key of a chain that starts with the record `first`, if it has started. -/
def FindsChainKey (first : Option ReadView) (chainKey : Bytes32) : Prop :=
  match first with
  | none => KnownChainKey C header keys chainKey
  | some v => chainKeyOf C header keys (some v) = chainKey

/-- No other candidate hashes a first record with this content as the chain key does. -/
def Unmistakable (chainKey : Bytes32) (content : Bytes) : Prop :=
  ∀ ring ∈ keys, ∀ k ∈ candidateKeys header ring,
    blake3KeyedChain C (unmasked C header k) header.prevLastHash content =
      blake3KeyedChain C chainKey header.prevLastHash content → unmasked C header k = chainKey

end

end

section

variable {C : Crates} {header : SegmentHeader} {keys : Option KeyRing} {chainKey : Bytes32}

theorem findsChainKey_chainKeyOf (first : Option ReadView) :
    FindsChainKey C header keys first (chainKeyOf C header keys first) := by
  cases first with
  | none =>
    cases keys with
    | none => rfl
    | some ring => exact .inl rfl
  | some v => rfl

theorem chainKeyOf_first {v : ReadView} (hn : KnownChainKey C header keys chainKey)
    (hh : blake3KeyedChain C chainKey header.prevLastHash v.content = v.hashN)
    (hd : Unmistakable C header keys chainKey v.content) :
    chainKeyOf C header keys (some v) = chainKey := by
  cases keys with
  | none => exact hn
  | some ring =>
    unfold chainKeyOf
    simp only
    split
    · next k hf =>
      have ht := List.find?_some hf
      apply hd ring rfl k (List.mem_of_find?_eq_some hf)
      rw [eq_of_beq ht, hh]
    · next hf =>
      -- no candidate passes, so the chain key is not masked by one
      rcases hn with ha | ⟨k, hk, hu⟩
      · exact ha
      · have ht := List.find?_eq_none.mp hf k hk
        rw [hu, hh, beq_self_eq_true] at ht
        exact absurd rfl ht

theorem resolveChainKey_eq {hd body : Bytes} {views : List ReadView}
    (hh : hd.length = segmentHeaderSize) (hb : StoredBody C header keys views body)
    (he : header.isEncrypted = keys.isSome) :
    resolveChainKey C (hd ++ body) header keys = chainKeyOf C header keys views.head? := by
  cases keys with
  | none => rfl
  | some ring =>
    cases views with
    | nil =>
      rw [hb.eq_nil rfl, List.append_nil, resolveChainKey]
      have hn : slice segmentHeaderSize frameHeaderSize hd = none := by
        unfold slice
        rw [if_neg (by simp [hh, frameHeaderSize])]
      unfold decodeFirstRecord
      rw [hn]
      rfl
    | cons v vs =>
      have hf : (header.isCompressed || header.isEncrypted) = true := by
        simp [he]
      unfold resolveChainKey chainKeyOf
      simp only [decodeFirstRecord_stored hh hf hb, List.head?_cons]
      rfl

end

/-- The only segment file of a directory: a readable header, and fitting records in the layout that
the header declares. -/
structure SingleSegment (C : Crates) (keys : Option KeyRing) (d : Disk) (header : SegmentHeader)
    (views : List ReadView) (hdr body : Bytes) : Prop where
  segments : d.segments = [(1, hdr ++ body)]
  length : hdr.length = segmentHeaderSize
  header_eq : SegmentHeader.deserialize C hdr = .ok header
  id_eq : header.segmentId = 1
  stored : StoredBody C header keys views body
  fits : ∀ v ∈ views, v.Fits

namespace SingleSegment

variable {C : Crates} {keys : Option KeyRing} {d : Disk} {header : SegmentHeader}
  {views : List ReadView} {hdr body : Bytes}

section

variable (h : SingleSegment C keys d header views hdr body)
include h

theorem get_one : d.get 1 = some (hdr ++ body) := by
  have hm : (1, hdr ++ body) ∈ d.segments := by simp [h.segments]
  exact Disk.get_of_mem hm

theorem validateHeaders_eq : validateHeaders C d.segments = ([⟨1, hdr ++ body, header⟩], []) := by
  have hl : ¬ (hdr ++ body).length < segmentHeaderSize := by
    rw [List.length_append, h.length]
    omega
  rw [h.segments, validateHeaders, if_neg hl, field_zero, List.take_left' h.length]
  simp [h.header_eq, h.id_eq, validateHeaders]

/-- What recovery makes of the directory if the records fit together. -/
theorem recoverShard_eq {bits : UInt32} (segmentSize : ℕ) (retention : RetentionPolicy)
    (hi : IdsFollow (idStride bits) (if 0 < bits then none else some header.baseSequence)
      (views.map toRecord))
    (hc : header.hashEnabled = true →
      ChainFrom C (resolveChainKey C (hdr ++ body) header keys) header.prevLastHash
        (views.map toRecord)) :
    recoverShard C d bits segmentSize retention keys = .ok
      ({ segmentManager := SegmentManager.openExisting 1 (hdr ++ body).length header segmentSize
           (views.getLast?.elim zeros32 ReadView.hashN)
           (maskChainKey C (resolveChainKey C (hdr ++ body) header keys) keys) header.hashEnabled
           keys retention
         lastSequence := views.getLast?.elim (header.baseSequence - 1) recordId
         lastHash := views.getLast?.elim zeros32 ReadView.hashN
         activeSegmentId := 1
         activeOffset := (hdr ++ body).length
         hashEnabled := header.hashEnabled
         hashInit := resolveChainKey C (hdr ++ body) header keys
         warnings := []
         recoveredCount := views.length }, d) := by
  have he : ∀ a : ScanArgs, (a.initial (hdr ++ body)).expectation a =
      if 0 < a.shardBits then none else some a.header.baseSequence := by
    simp [ScanState.expectation, ScanArgs.initial]
  have hs := scanLastSegment_clean C
    (lastScanArgs C bits keys ⟨1, hdr ++ body, header⟩ ⟨1, hdr ++ body, header⟩) h.length h.fits
    h.stored (by rw [he]; exact hi) hc
  unfold recoverShard
  rw [if_neg (by simp [h.segments]), h.validateHeaders_eq]
  simp only [List.head?_cons, List.getLast?_singleton, hs, continuityWarnings_eq_nil]
  simp [lastScanArgs, Disk.modify_self h.get_one]

end

end SingleSegment

end LogDb.Recovery
