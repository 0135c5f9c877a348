import LogDb.Lib.Slice
import LogDb.Lib.SortedMap

/-!
The record envelope: the header that the daemon puts in front of user content.
-/

namespace LogDb.Daemon

open Lib List

variable {raw rest : Bytes} {len n w : ℕ}

def recordMagic : ℕ := 0x4C52
def recordVersion : ℕ := 1
def maxMetadataCount : ℕ := 16
def maxMetadataBytes : ℕ := 4096

inductive RecordError where
  | truncated
  | badMagic (magic : ℕ)
  | unsupportedVersion (version : ℕ)
  | invalidUtf8
  | contentTooLarge (size : ℕ)
  | metadataTooMany (count : ℕ)
  | metadataTooLarge (size : ℕ)
  deriving DecidableEq, Repr

/-- What a producer puts into a record. -/
structure Envelope where
  namespaceId : UInt32
  streamId : UInt64
  seq : UInt64
  eventType : String
  contentType : String
  metadata : SortedMap String String
  timestampNs : UInt64
  userContent : Bytes

/-- A decoded record. The shard is not in the bytes; whoever knows the id of the record sets it. -/
structure DecodedRecord extends Envelope where
  shardId : ℕ

def strBytes (s : String) : Bytes :=
  s.toUTF8.data.toList

def strOfBytes (bytes : Bytes) : Option String :=
  String.fromUTF8? ⟨bytes.toArray⟩

@[simp] theorem strOfBytes_strBytes (s : String) : strOfBytes (strBytes s) = some s := by
  have hb : (⟨(strBytes s).toArray⟩ : ByteArray) = s.toByteArray := by
    simp [strBytes]
  unfold strOfBytes String.fromUTF8?
  rw [hb, dif_pos s.isValidUTF8]
  rfl

/-! ## Encoding -/

def metadataBytes (metadata : List (String × String)) : ℕ :=
  (metadata.map fun e => (strBytes e.1).length + (strBytes e.2).length).sum

def encodeIds (e : Envelope) : Bytes :=
  leBytes 2 recordMagic ++ leBytes 1 recordVersion ++ leBytes 1 0 ++
    leBytes 4 e.namespaceId.toNat ++ leBytes 8 e.streamId.toNat ++ leBytes 8 e.seq.toNat

/-- A string behind its length, of which `w` bytes are kept. -/
def encodeStr (w : ℕ) (s : String) : Bytes :=
  leBytes w (strBytes s).length ++ strBytes s

def encodeMetadata : List (String × String) → Bytes
  | [] => []
  | (k, v) :: metadata => encodeStr 1 k ++ encodeStr 2 v ++ encodeMetadata metadata

def encodeFields (e : Envelope) : Bytes :=
  encodeStr 2 e.eventType ++ encodeStr 2 e.contentType ++
    leBytes 1 e.metadata.entries.length ++ encodeMetadata e.metadata.entries ++
    leBytes 8 e.timestampNs.toNat ++ leBytes 4 e.userContent.length ++ e.userContent

def encodeRecord (e : Envelope) : Except RecordError Bytes :=
  if e.metadata.entries.length > maxMetadataCount then
    .error (.metadataTooMany e.metadata.entries.length)
  else if metadataBytes e.metadata.entries > maxMetadataBytes then
    .error (.metadataTooLarge (metadataBytes e.metadata.entries))
  else if e.userContent.length > 2 ^ 32 - 1 then
    .error (.contentTooLarge e.userContent.length)
  else
    .ok (encodeIds e ++ encodeFields e)

/-! ## Decoding -/

abbrev RecordReader := StateT Bytes (Except RecordError)

def readBytes (len : ℕ) : RecordReader Bytes := fun raw =>
  if raw.length < len then .error .truncated else .ok (raw.take len, raw.drop len)

def readNat (w : ℕ) : RecordReader ℕ := do
  return leVal (← readBytes w)

def readU8 : RecordReader ℕ := readNat 1
def readU16 : RecordReader ℕ := readNat 2
def readU32 : RecordReader ℕ := readNat 4
def readU64 : RecordReader ℕ := readNat 8

def readStr (len : ℕ) : RecordReader String := do
  match strOfBytes (← readBytes len) with
  | some s => return s
  | none => throw .invalidUtf8

def readMetadata : ℕ → SortedMap String String → RecordReader (SortedMap String String)
  | 0, metadata => return metadata
  | count + 1, metadata => do
    let key ← readStr (← readU8)
    let value ← readStr (← readU16)
    readMetadata count (metadata.insert key value)

/-- The front of a record, up to its sequence number. -/
def readIds : RecordReader (UInt32 × UInt64 × UInt64) := do
  let magic ← readU16
  if magic ≠ recordMagic then throw (.badMagic magic)
  let version ← readU8
  if version ≠ recordVersion then throw (.unsupportedVersion version)
  let _flags ← readU8
  let namespaceId ← readU32
  let streamId ← readU64
  let seq ← readU64
  return (UInt32.ofNat namespaceId, UInt64.ofNat streamId, UInt64.ofNat seq)

def readFields (namespaceId : UInt32) (streamId seq : UInt64) : RecordReader DecodedRecord := do
  let eventType ← readStr (← readU16)
  let contentType ← readStr (← readU16)
  let metadata ← readMetadata (← readU8) ∅
  let timestampNs ← readU64
  let userContent ← readBytes (← readU32)
  return {
    namespaceId, streamId, seq, eventType, contentType, metadata
    timestampNs := UInt64.ofNat timestampNs
    userContent
    shardId := 0 }

def decodeRecord (raw : Bytes) : Except RecordError DecodedRecord :=
  StateT.run' (do
    let (namespaceId, streamId, seq) ← readIds
    readFields namespaceId streamId seq) raw

/-! ## What is encoded is decoded -/

namespace RecordReader

variable {α β : Type} {x : RecordReader α} {f : α → RecordReader β}

theorem bind_of_ok {a : α} (h : x raw = .ok (a, rest)) : (x >>= f) raw = f a rest := by
  simp [bind, StateT.bind, Except.bind, h]

theorem bind_eq_ok {b : β} :
    (x >>= f) raw = .ok (b, rest) ↔ ∃ a mid, x raw = .ok (a, mid) ∧ f a mid = .ok (b, rest) := by
  constructor
  · intro h
    cases hx : x raw with
    | error err => simp [bind, StateT.bind, Except.bind, hx] at h
    | ok r => exact ⟨r.1, r.2, rfl, (bind_of_ok hx).symm.trans h⟩
  · rintro ⟨a, mid, hx, hf⟩
    rw [bind_of_ok hx, hf]

end RecordReader

open RecordReader

theorem readBytes_append (bytes rest : Bytes) :
    readBytes bytes.length (bytes ++ rest) = .ok (bytes, rest) := by
  unfold readBytes
  rw [if_neg (by simp), take_left, drop_left]

theorem readNat_leBytes (rest : Bytes) (h : n < 256 ^ w) :
    readNat w (leBytes w n ++ rest) = .ok (n, rest) := by
  have hr := readBytes_append (leBytes w n) rest
  rw [leBytes_length] at hr
  unfold readNat
  rw [bind_of_ok hr, leVal_leBytes_of_lt h]
  rfl

theorem readStr_strBytes (s : String) (rest : Bytes) :
    readStr (strBytes s).length (strBytes s ++ rest) = .ok (s, rest) := by
  unfold readStr
  rw [bind_of_ok (readBytes_append _ rest), strOfBytes_strBytes]
  rfl

theorem readIds_encodeIds (e : Envelope) (rest : Bytes) :
    readIds (encodeIds e ++ rest) = .ok ((e.namespaceId, e.streamId, e.seq), rest) := by
  unfold readIds encodeIds
  simp only [append_assoc]
  rw [readU16, bind_of_ok (readNat_leBytes _ (by decide)), if_neg (by simp), readU8,
    bind_of_ok (readNat_leBytes _ (by decide)), if_neg (by simp),
    bind_of_ok (readNat_leBytes _ (by decide)), readU32,
    bind_of_ok (readNat_leBytes _ e.namespaceId.toNat_lt), readU64,
    bind_of_ok (readNat_leBytes _ e.streamId.toNat_lt),
    bind_of_ok (readNat_leBytes _ e.seq.toNat_lt)]
  simp only [UInt32.ofNat_toNat, UInt64.ofNat_toNat]
  rfl

/-- The field lengths have room in the envelope. -/
structure Envelope.Fits (e : Envelope) : Prop where
  eventType : (strBytes e.eventType).length < 2 ^ 16
  contentType : (strBytes e.contentType).length < 2 ^ 16
  keys : ∀ entry ∈ e.metadata.entries, (strBytes entry.1).length < 2 ^ 8

variable {e : Envelope} {content : Bytes} {entries : List (String × String)} {d : DecodedRecord}

theorem readMetadata_encodeMetadata (rest : Bytes) (hf : ∀ entry ∈ entries,
      (strBytes entry.1).length < 2 ^ 8 ∧ (strBytes entry.2).length < 2 ^ 16)
    (metadata : SortedMap String String) :
    readMetadata entries.length metadata (encodeMetadata entries ++ rest) =
      .ok (entries.foldl (fun m entry => m.insert entry.1 entry.2) metadata, rest) := by
  induction entries generalizing metadata with
  | nil => rfl
  | cons entry entries ih =>
    obtain ⟨k, v⟩ := entry
    obtain ⟨hk, hv⟩ := hf _ mem_cons_self
    unfold encodeMetadata encodeStr
    simp only [append_assoc]
    rw [length_cons, readMetadata, readU8, bind_of_ok (readNat_leBytes (w := 1) _ hk),
      bind_of_ok (readStr_strBytes _ _), readU16, bind_of_ok (readNat_leBytes (w := 2) _ hv),
      bind_of_ok (readStr_strBytes _ _),
      ih fun x hx => hf x (mem_cons_of_mem _ hx)]
    rfl

theorem encodeRecord_eq_ok :
    encodeRecord e = .ok content ↔ e.metadata.entries.length ≤ maxMetadataCount ∧
      metadataBytes e.metadata.entries ≤ maxMetadataBytes ∧
      e.userContent.length ≤ 2 ^ 32 - 1 ∧ encodeIds e ++ encodeFields e = content := by
  unfold encodeRecord
  split_ifs with hc hb ht
  · simp [hc.not_ge]
  · simp [hb.not_ge]
  · simp only [false_iff, not_and]
    intro _ _ hle
    exact absurd hle ht.not_ge
  · rw [Except.ok.injEq]
    exact ⟨fun h => ⟨not_lt.mp hc, not_lt.mp hb, not_lt.mp ht, h⟩, fun h => h.2.2.2⟩

theorem length_le_metadataBytes {entry : String × String} (h : entry ∈ entries) :
    (strBytes entry.2).length ≤ metadataBytes entries := by
  have hle := le_sum_of_mem (mem_map_of_mem
    (f := fun e : String × String => (strBytes e.1).length + (strBytes e.2).length) h)
  exact (Nat.le_add_left _ _).trans hle

theorem decodeRecord_of_encodeIds (e : Envelope) (rest : Bytes) :
    decodeRecord (encodeIds e ++ rest) =
      Prod.fst <$> readFields e.namespaceId e.streamId e.seq rest := by
  unfold decodeRecord StateT.run'
  rw [bind_of_ok (readIds_encodeIds e rest)]

theorem decodeRecord_encodeRecord (hn : encodeRecord e = .ok content) (hf : e.Fits) :
    decodeRecord content = .ok ⟨e, 0⟩ := by
  obtain ⟨hc, hb, ht, rfl⟩ := encodeRecord_eq_ok.mp hn
  have hm := readMetadata_encodeMetadata
    (leBytes 8 e.timestampNs.toNat ++ (leBytes 4 e.userContent.length ++ e.userContent))
    (fun entry he => ⟨hf.keys entry he, by
      have hle := length_le_metadataBytes he
      have hx : maxMetadataBytes < 2 ^ 16 := by decide
      omega⟩) ∅
  have hs := readBytes_append e.userContent []
  rw [append_nil] at hs
  rw [decodeRecord_of_encodeIds]
  unfold readFields encodeFields encodeStr
  simp only [append_assoc]
  rw [readU16, bind_of_ok (readNat_leBytes _ hf.eventType), bind_of_ok (readStr_strBytes _ _),
    bind_of_ok (readNat_leBytes _ hf.contentType), bind_of_ok (readStr_strBytes _ _), readU8,
    bind_of_ok (readNat_leBytes _ (by unfold maxMetadataCount at hc; omega)),
    bind_of_ok hm, readU64, bind_of_ok (readNat_leBytes _ e.timestampNs.toNat_lt), readU32,
    bind_of_ok (readNat_leBytes _ (by omega)), bind_of_ok hs, UInt64.ofNat_toNat,
    SortedMap.foldl_insert_entries]
  rfl

/-! ## What is decoded fits -/

theorem readBytes_length {bytes : Bytes}
    (h : readBytes len raw = .ok (bytes, rest)) : bytes.length = len := by
  unfold readBytes at h
  split_ifs at h with hl
  obtain ⟨rfl, -⟩ := Prod.mk.inj (Except.ok.inj h)
  exact length_take_of_le (not_lt.mp hl)

theorem readNat_lt (h : readNat w raw = .ok (n, rest)) : n < 256 ^ w := by
  obtain ⟨bytes, mid, hb, h⟩ := bind_eq_ok.mp h
  obtain ⟨rfl, -⟩ := Prod.mk.inj (Except.ok.inj h)
  exact readBytes_length hb ▸ leVal_lt bytes

theorem readStr_length {s : String}
    (h : readStr len raw = .ok (s, rest)) : (strBytes s).length = len := by
  obtain ⟨bytes, mid, hb, h⟩ := bind_eq_ok.mp h
  rw [← readBytes_length hb]
  unfold strOfBytes String.fromUTF8? at h
  split_ifs at h with hv
  · obtain ⟨rfl, -⟩ := Prod.mk.inj (Except.ok.inj h)
    rfl
  · cases h

theorem readMetadata_keys {count : ℕ} {metadata metadata' : SortedMap String String}
    (hs : ∀ entry ∈ metadata.entries, (strBytes entry.1).length < 2 ^ 8)
    (h : readMetadata count metadata raw = .ok (metadata', rest)) :
    ∀ entry ∈ metadata'.entries, (strBytes entry.1).length < 2 ^ 8 := by
  induction count generalizing metadata raw with
  | zero =>
    obtain ⟨rfl, -⟩ := Prod.mk.inj (Except.ok.inj h)
    exact hs
  | succ count ih =>
    obtain ⟨len, _, hl, h⟩ := bind_eq_ok.mp h
    obtain ⟨key, _, hk, h⟩ := bind_eq_ok.mp h
    obtain ⟨_, _, -, h⟩ := bind_eq_ok.mp h
    obtain ⟨value, _, -, h⟩ := bind_eq_ok.mp h
    refine ih (fun entry he => ?_) h
    rcases metadata.mem_entries_insert.mp he with rfl | ⟨ho, -⟩
    · exact readStr_length hk ▸ readNat_lt hl
    · exact hs entry ho

/-- The ids survive whatever the lengths of the fields behind them. -/
theorem decodeRecord_spec (he : encodeRecord e = .ok content) (hd : decodeRecord content = .ok d) :
    (d.namespaceId = e.namespaceId ∧ d.streamId = e.streamId ∧ d.seq = e.seq) ∧
      d.toEnvelope.Fits := by
  obtain ⟨-, -, -, rfl⟩ := encodeRecord_eq_ok.mp he
  rw [decodeRecord_of_encodeIds] at hd
  cases hr : readFields e.namespaceId e.streamId e.seq (encodeFields e) with
  | error err => simp [hr] at hd
  | ok r =>
    obtain ⟨d', rest⟩ := r
    simp only [hr, Except.map_ok, Except.ok.injEq] at hd
    subst hd
    obtain ⟨_, _, hv, h⟩ := bind_eq_ok.mp hr
    obtain ⟨_, _, hv', h⟩ := bind_eq_ok.mp h
    obtain ⟨_, _, hc, h⟩ := bind_eq_ok.mp h
    obtain ⟨_, _, hc', h⟩ := bind_eq_ok.mp h
    obtain ⟨_, _, -, h⟩ := bind_eq_ok.mp h
    obtain ⟨_, _, hm, h⟩ := bind_eq_ok.mp h
    obtain ⟨_, _, -, h⟩ := bind_eq_ok.mp h
    obtain ⟨_, _, -, h⟩ := bind_eq_ok.mp h
    obtain ⟨_, _, -, h⟩ := bind_eq_ok.mp h
    cases h
    exact ⟨⟨rfl, rfl, rfl⟩, readStr_length hv' ▸ readNat_lt hv,
      readStr_length hc' ▸ readNat_lt hc, readMetadata_keys (by simp) hm⟩

/-! ## What is read -/

/-- A reader that gives a value has it from a front of the bytes, whatever lies behind. -/
def Bounded {α : Type} (x : RecordReader α) : Prop :=
  ∀ raw a rest, x raw = .ok (a, rest) →
    ∃ front, raw = front ++ rest ∧ ∀ other, x (front ++ other) = .ok (a, other)

namespace Bounded

variable {α β : Type}

theorem pure (a : α) : Bounded (Pure.pure a) := by
  rintro raw _ _ ⟨⟩
  exact ⟨[], rfl, fun _ => rfl⟩

theorem throw (err : RecordError) : Bounded (MonadExcept.throw err : RecordReader α) :=
  nofun

theorem bind {x : RecordReader α} {f : α → RecordReader β} (hx : Bounded x)
    (hf : ∀ a, Bounded (f a)) : Bounded (x >>= f) := by
  intro raw b rest h
  obtain ⟨a, mid, hm, hr⟩ := bind_eq_ok.mp h
  obtain ⟨front, rfl, ht⟩ := hx _ _ _ hm
  obtain ⟨back, rfl, hb⟩ := hf a _ _ _ hr
  refine ⟨front ++ back, (append_assoc ..).symm, fun other => ?_⟩
  rw [append_assoc, bind_of_ok (ht _), hb]

theorem bytes (len : ℕ) : Bounded (readBytes len) := by
  intro raw bytes rest h
  obtain rfl := readBytes_length h
  unfold readBytes at h
  split_ifs at h
  obtain ⟨hb, rfl⟩ := Prod.mk.inj (Except.ok.inj h)
  have hs := take_append_drop bytes.length raw
  rw [hb] at hs
  exact ⟨bytes, hs.symm, readBytes_append bytes⟩

theorem nat (w : ℕ) : Bounded (readNat w) :=
  (bytes w).bind fun _ => .pure _

theorem str (len : ℕ) : Bounded (readStr len) := by
  refine (bytes len).bind fun b => ?_
  cases strOfBytes b with
  | none => exact .throw _
  | some s => exact .pure s

theorem metadata (count : ℕ) (metadata : SortedMap String String) :
    Bounded (readMetadata count metadata) := by
  induction count generalizing metadata with
  | zero => exact .pure metadata
  | succ count ih =>
    exact (nat 1).bind fun _ => (str _).bind fun _ => (nat 2).bind fun _ => (str _).bind fun _ =>
      ih _

theorem guard {c : Prop} [Decidable c] {err : RecordError} {f : Unit → RecordReader α}
    (h : Bounded (f ())) : Bounded (if c then MonadExcept.throw err >>= f else f ()) := by
  split_ifs
  · exact (throw err).bind fun _ => h
  · exact h

theorem ids : Bounded readIds :=
  (nat 2).bind fun _ => guard ((nat 1).bind fun _ => guard ((nat 1).bind fun _ =>
    (nat 4).bind fun _ => (nat 8).bind fun _ => (nat 8).bind fun _ => .pure _))

theorem record : Bounded (do
    let (namespaceId, streamId, seq) ← readIds
    readFields namespaceId streamId seq) :=
  ids.bind fun _ => (nat 2).bind fun _ => (str _).bind fun _ => (nat 2).bind fun _ =>
    (str _).bind fun _ => (nat 1).bind fun _ => (metadata _ _).bind fun _ => (nat 8).bind fun _ =>
    (nat 4).bind fun _ => (bytes _).bind fun _ => .pure _

end Bounded

def contentIds (content : Bytes) : Option (UInt64 × ℕ) :=
  match readIds content with
  | .ok (ids, _) => some (ids.2.1, ids.2.2.toNat)
  | .error _ => none

theorem contentIds_of_encodeRecord (h : encodeRecord e = .ok content) :
    contentIds content = some (e.streamId, e.seq.toNat) := by
  obtain ⟨-, -, -, rfl⟩ := encodeRecord_eq_ok.mp h
  unfold contentIds
  rw [readIds_encodeIds]

section

variable (stream seq : UInt64)

def bareEnvelope : Envelope :=
  ⟨1, stream, seq, "", "", ∅, 0, []⟩

def bareContent : Bytes :=
  encodeIds (bareEnvelope stream seq) ++ encodeFields (bareEnvelope stream seq)

theorem encodeRecord_bareEnvelope :
    encodeRecord (bareEnvelope stream seq) = .ok (bareContent stream seq) := rfl

theorem decodeRecord_bareContent :
    decodeRecord (bareContent stream seq) = .ok ⟨bareEnvelope stream seq, 0⟩ := by
  apply decodeRecord_encodeRecord (encodeRecord_bareEnvelope stream seq)
  exact ⟨Nat.two_pow_pos 16, Nat.two_pow_pos 16, fun entry he => absurd he not_mem_nil⟩

end

/-! ## The round trip -/

/-- An encoded record is decoded to what was encoded if and only if its lengths have room. The
decoder gives a record or an error on all bytes, the record off a front of them. -/
theorem record_roundtrip_iff (hencode : encodeRecord e = .ok content) :
    ((∃ d, decodeRecord content = .ok d ∧ d.toEnvelope = e) ↔ e.Fits) ∧
      ∀ raw, (∃ err, decodeRecord raw = .error err) ∨ ∃ d front rest, raw = front ++ rest ∧
        ∀ other, decodeRecord (front ++ other) = .ok d := by
  refine ⟨⟨?_, fun ht => ⟨_, decodeRecord_encodeRecord hencode ht, rfl⟩⟩, fun raw => ?_⟩
  · rintro ⟨d, hd, rfl⟩
    exact (decodeRecord_spec hencode hd).2
  · cases hr : (do
        let (namespaceId, streamId, seq) ← readIds
        readFields namespaceId streamId seq : RecordReader DecodedRecord) raw with
    | error err => exact .inl ⟨err, congrArg (Except.map Prod.fst) hr⟩
    | ok r =>
      obtain ⟨front, ha, hf⟩ := Bounded.record raw r.1 r.2 hr
      exact .inr ⟨r.1, front, r.2, ha, fun other => congrArg (Except.map Prod.fst) (hf other)⟩

def smallEnvelope : Envelope :=
  ⟨1, 1, 1, "made", "text", (∅ : SortedMap String String).insert "k" "v", 7, [104, 105]⟩

theorem record_roundtrip_iff_small : ∃ content, encodeRecord smallEnvelope = .ok content ∧
    ∃ d, decodeRecord content = .ok d ∧ d.toEnvelope = smallEnvelope := by
  have he := encodeRecord_eq_ok.mpr ⟨by decide, by decide, by decide,
    (rfl : _ = encodeIds smallEnvelope ++ encodeFields smallEnvelope)⟩
  exact ⟨_, he, (record_roundtrip_iff he).1.mpr ⟨by decide, by decide, by decide⟩⟩

def longKey : Envelope :=
  { bareEnvelope 1 1 with
    metadata := (∅ : SortedMap String String).insert (String.ofList (List.replicate 256 'k')) "" }

/-- The length of a key of 256 bytes is stored as 0. -/
theorem record_loses_long_key : ∃ content, encodeRecord longKey = .ok content ∧
      ¬ ∃ d, decodeRecord content = .ok d ∧ d.toEnvelope = longKey := by
  have he := encodeRecord_eq_ok.mpr
    ⟨by decide, by decide +kernel, by decide, (rfl : _ = encodeIds longKey ++ encodeFields longKey)⟩
  refine ⟨_, he, ?_⟩
  rintro ⟨d, hd, heq⟩
  have hf := (decodeRecord_spec he hd).2
  rw [heq] at hf
  exact absurd (hf.keys _ mem_cons_self) (by decide +kernel)

end LogDb.Daemon
