import LogDb.Format.Record

/-!
A slot of the ring buffer. Contents of at most 256 bytes stay in the slot itself, larger ones are
spilled to the heap.

The ring buffer of one shard as a step relation. Every atomic load, store, compare-exchange and
slot access of the producers, the sealer and the committer is one step, in any interleaving.
Sequences are natural numbers; a claim that would take the cursor out of `u64` is not a step.
-/

namespace LogDb.Pipeline

open Lib Format Function

def inlineCap : ℕ := 256

/-- Where the content lives: in the slot's own buffer or in a heap allocation. -/
inductive ContentStorage where
  | inline (buf : {b : Bytes // b.length = inlineCap})
  | spill (b : Bytes)

structure SlotInner where
  recordId : UInt64
  timestampNs : UInt64
  contentLen : ℕ
  storage : ContentStorage
  hashN : Bytes32

/-- `sequence` is 0 for an empty slot and `seq + 1` once `seq` has been published in it. -/
structure Slot where
  inner : SlotInner
  sequence : ℕ

/-- What a producer passes to `producer_write`. -/
structure Payload where
  recordId : UInt64
  timestampNs : UInt64
  content : Bytes
  deriving DecidableEq

/-- The view has the id, the timestamp and the content that the producer wrote. -/
def Payload.ShownBy (p : Payload) (v : ReadView) : Prop :=
  v.recordId = p.recordId ∧ v.timestampNs = p.timestampNs ∧ v.content = p.content

def Slot.empty : Slot where
  inner := {
    recordId := 0
    timestampNs := 0
    contentLen := 0
    storage := .inline ⟨List.replicate inlineCap 0, by simp⟩
    hashN := zeros32 }
  sequence := 0

def ContentStorage.bytes : ContentStorage → Bytes
  | .inline buf => buf.1
  | .spill b => b

/-- The bytes of the inline buffer that the storage keeps when a short content is written. -/
def ContentStorage.inlineBytes : ContentStorage → Bytes
  | .inline buf => buf.1
  | .spill _ => List.replicate inlineCap 0

theorem ContentStorage.inlineBytes_length (st : ContentStorage) :
    st.inlineBytes.length = inlineCap := by
  cases st with
  | inline buf => exact buf.2
  | spill b => simp [inlineBytes]

namespace SlotInner

section

variable (inner : SlotInner)

/-- The content length is stored as `u32`; the hash of the previous occupant stays in place. -/
def producerWrite (p : Payload) : SlotInner :=
  { inner with
    recordId := p.recordId
    timestampNs := p.timestampNs
    contentLen := p.content.length % 2 ^ 32
    storage :=
      if h : p.content.length ≤ inlineCap then
        .inline ⟨p.content ++ inner.storage.inlineBytes.drop p.content.length, by
          rw [List.length_append, List.length_drop, inner.storage.inlineBytes_length]
          omega⟩
      else
        .spill p.content }

def read : ReadView where
  recordId := inner.recordId
  timestampNs := inner.timestampNs
  content := inner.storage.bytes.take inner.contentLen
  hashN := inner.hashN

def writeHash (hashN : Bytes32) : SlotInner :=
  { inner with hashN := hashN }

theorem producerWrite_shows {p : Payload}
    (hl : p.content.length < 2 ^ 32) : p.ShownBy (inner.producerWrite p).read := by
  refine ⟨rfl, rfl, ?_⟩
  unfold read producerWrite
  simp only [Nat.mod_eq_of_lt hl]
  split_ifs with hi
  · exact List.take_left
  · exact List.take_length

end

theorem shownBy_writeHash {inner : SlotInner} {p : Payload} (h : p.ShownBy inner.read)
    (hashN : Bytes32) : p.ShownBy (inner.writeHash hashN).read := h

end SlotInner

/-- The parameters of a ring, with what `Ring::new` asserts and `Config::validate` guarantees. -/
structure RingConfig where
  ringSize : ℕ
  ringSize_pow : ∃ k, ringSize = 2 ^ k
  ringSize_ge : 16 ≤ ringSize
  hashEnabled : Bool
  initial : ℕ
  initial_lt : initial + 1 < 2 ^ 64
  maxContentSize : ℕ
  maxContentSize_le : maxContentSize ≤ 64 * 1024 * 1024
  /-- `encode_record_id` for the shard of this ring. -/
  idOf : ℕ → UInt64
  hashInit : Bytes32
  lastHash : Bytes32

def smallRing : RingConfig where
  ringSize := 16
  ringSize_pow := ⟨4, rfl⟩
  ringSize_ge := le_rfl
  hashEnabled := true
  initial := 0
  initial_lt := by decide
  maxContentSize := 1024
  maxContentSize_le := by decide
  idOf := fun seq => UInt64.ofNat seq
  hashInit := zeros32
  lastHash := zeros32

def wrappingSub (a b : ℕ) : ℕ :=
  (a + (2 ^ 64 - b % 2 ^ 64)) % 2 ^ 64

/-- One call of `append` (`claim`) or of `append_batch` (`claim_batch`). -/
structure Request where
  batch : Bool
  contents : List Bytes

/-- Where a producer stands in `claim`, `claim_batch` and the writes that follow. -/
inductive ProducerPc where
  | idle
  | loadCursor (req : Request)
  | loadCommitted (req : Request) (seq : ℕ)
  | loadSealed (req : Request) (seq committed : ℕ)
  | gate (req : Request) (seq wm : ℕ)
  | cas (req : Request) (seq wm : ℕ)
  | write (req : Request) (seq : ℕ) (ts : UInt64) (i : ℕ)
  | publish (req : Request) (seq : ℕ) (ts : UInt64) (i : ℕ)
  | claimed (req : Request) (seq : ℕ)
  | queueFull

/-- Where the sealer stands: the scan of published slots, then one slot at a time up to `hi`. -/
inductive SealerPc where
  | start
  | scan (cur : ℕ)
  | hashing (cur hi : ℕ)
  | store (hi : ℕ)

/-- Where the committer stands with respect to this ring. -/
inductive CommitterPc where
  | idle
  | scan (cur : ℕ)
  | batch (avail : ℕ)
  | read (cur upto : ℕ)
  | taken (cur upto : ℕ)
  | store (next : ℕ)

/-- The shared memory, the local state of the threads and, last, history variables. -/
structure RingState where
  slots : ℕ → Slot
  producerCursor : ℕ
  sealedCursor : ℕ
  committedCursor : ℕ
  producers : ℕ → ProducerPc
  sealer : SealerPc
  sealerNext : ℕ
  sealerHash : Bytes32
  committer : CommitterPc
  claims : List (ℕ × ℕ)
  written : ℕ → Option Payload
  published : ℕ → Bool
  hashes : ℕ → Option Bytes32
  reads : List (ℕ × ReadView)

namespace RingConfig

variable (cfg : RingConfig)

/-- `seq & mask`. -/
def slotIndex (seq : ℕ) : ℕ :=
  seq &&& (cfg.ringSize - 1)

/-- `claim` refuses at a full ring, `claim_batch` when the batch would overfill it; both
subtractions and the addition wrap. -/
def full (req : Request) (seq wm : ℕ) : Bool :=
  if req.batch then cfg.ringSize < (wrappingSub seq wm + req.contents.length) % 2 ^ 64
  else cfg.ringSize ≤ wrappingSub seq wm

/-- What `append` and `append_batch` check before they claim. -/
def Accepts (req : Request) : Prop :=
  req.contents ≠ [] ∧ (req.batch = false → req.contents.length = 1) ∧
    ∀ c ∈ req.contents, c.length ≤ cfg.maxContentSize

def payload (seq : ℕ) (ts : UInt64) (content : Bytes) : Payload :=
  ⟨cfg.idOf seq, ts, content⟩

def init : RingState where
  slots _ := Slot.empty
  producerCursor := cfg.initial
  sealedCursor := cfg.initial
  committedCursor := cfg.initial
  producers _ := .idle
  sealer := .start
  sealerNext := cfg.initial
  sealerHash := cfg.lastHash
  committer := .idle
  claims := []
  written _ := none
  published _ := false
  hashes _ := none
  reads := []

end RingConfig

namespace RingState

variable (cfg : RingConfig) (s : RingState)

def slot (seq : ℕ) : Slot :=
  s.slots (cfg.slotIndex seq)

def consumeWatermark : ℕ :=
  if cfg.hashEnabled then min s.committedCursor s.sealedCursor else s.committedCursor

def isPublished (seq : ℕ) : Bool :=
  (s.slot cfg seq).sequence == seq + 1

def setProducer (t : ℕ) (pc : ProducerPc) : RingState :=
  { s with producers := update s.producers t pc }

def setSlot (seq : ℕ) (slot : Slot) : RingState :=
  { s with slots := update s.slots (cfg.slotIndex seq) slot }

def writeSlot (seq : ℕ) (p : Payload) : RingState :=
  let slot := s.slot cfg seq
  { s.setSlot cfg seq { slot with inner := slot.inner.producerWrite p } with
    written := update s.written seq (some p) }

def publishSlot (seq : ℕ) : RingState :=
  { s.setSlot cfg seq { s.slot cfg seq with sequence := seq + 1 } with
    published := update s.published seq true }

def sealSlot (C : Crates) (seq : ℕ) : RingState :=
  let slot := s.slot cfg seq
  let hashN := blake3KeyedChain C cfg.hashInit s.sealerHash slot.inner.read.content
  { s.setSlot cfg seq { slot with inner := slot.inner.writeHash hashN } with
    sealerHash := hashN
    hashes := update s.hashes seq (some hashN) }

end RingState

inductive ProducerStep (cfg : RingConfig) (t : ℕ) : RingState → RingState → Prop where
  | start {s} (req : Request) (hidle : s.producers t = .idle) (hreq : cfg.Accepts req) :
      ProducerStep cfg t s (s.setProducer t (.loadCursor req))
  | tooLong {s} (req : Request) (hpc : s.producers t = .loadCursor req) (hbatch : req.batch = true)
      (hlong : cfg.ringSize < req.contents.length) :
      ProducerStep cfg t s (s.setProducer t .queueFull)
  | loadCursor {s} (req : Request) (hpc : s.producers t = .loadCursor req)
      (hshort : req.batch = true → req.contents.length ≤ cfg.ringSize) :
      ProducerStep cfg t s (s.setProducer t (.loadCommitted req s.producerCursor))
  | loadCommitted {s} (req : Request) (seq : ℕ) (hpc : s.producers t = .loadCommitted req seq) :
      ProducerStep cfg t s (s.setProducer t
        (if cfg.hashEnabled then .loadSealed req seq s.committedCursor
          else .gate req seq s.committedCursor))
  | loadSealed {s} (req : Request) (seq committed : ℕ)
      (hpc : s.producers t = .loadSealed req seq committed) :
      ProducerStep cfg t s (s.setProducer t (.gate req seq (min committed s.sealedCursor)))
  | dropped {s} (req : Request) (seq wm : ℕ) (hpc : s.producers t = .gate req seq wm)
      (hfull : cfg.full req seq wm = true) : ProducerStep cfg t s (s.setProducer t .queueFull)
  | blocked {s} (req : Request) (seq wm : ℕ) (hpc : s.producers t = .gate req seq wm)
      (hfull : cfg.full req seq wm = true) :
      ProducerStep cfg t s (s.setProducer t (.loadCursor req))
  | pass {s} (req : Request) (seq wm : ℕ) (hpc : s.producers t = .gate req seq wm)
      (hroom : cfg.full req seq wm = false) :
      ProducerStep cfg t s (s.setProducer t (.cas req seq wm))
  | casOk {s} (req : Request) (seq wm : ℕ) (ts : UInt64) (hpc : s.producers t = .cas req seq wm)
      (heq : s.producerCursor = seq) (hspace : seq + req.contents.length + 1 < 2 ^ 64) :
      ProducerStep cfg t s
        { s.setProducer t (.write req seq ts 0) with
          producerCursor := seq + req.contents.length
          claims := s.claims ++ [(seq, req.contents.length)] }
  | casFail {s} (req : Request) (seq wm : ℕ) (hpc : s.producers t = .cas req seq wm) :
      ProducerStep cfg t s (s.setProducer t (.loadCursor req))
  | write {s} (req : Request) (seq : ℕ) (ts : UInt64) (i : ℕ) (content : Bytes)
      (hpc : s.producers t = .write req seq ts i) (hcontent : req.contents[i]? = some content) :
      ProducerStep cfg t s
        ((s.writeSlot cfg (seq + i) (cfg.payload (seq + i) ts content)).setProducer t
          (.publish req seq ts i))
  | publish {s} (req : Request) (seq : ℕ) (ts : UInt64) (i : ℕ)
      (hpc : s.producers t = .publish req seq ts i) :
      ProducerStep cfg t s
        ((s.publishSlot cfg (seq + i)).setProducer t
          (if i + 1 < req.contents.length then .write req seq ts (i + 1) else .claimed req seq))
  | returned {s} (hpc : s.producers t = .queueFull ∨ ∃ req seq, s.producers t = .claimed req seq) :
      ProducerStep cfg t s (s.setProducer t .idle)

/-- One atomic step of the sealer, which only runs when hashing is enabled. -/
inductive SealerStep (C : Crates) (cfg : RingConfig) : RingState → RingState → Prop where
  | wait {s} (hhash : cfg.hashEnabled = true) (hpc : s.sealer = .start)
      (hpub : s.isPublished cfg s.sealerNext = false) : SealerStep C cfg s s
  | start {s} (hhash : cfg.hashEnabled = true) (hpc : s.sealer = .start)
      (hpub : s.isPublished cfg s.sealerNext = true) :
      SealerStep C cfg s { s with sealer := .scan s.sealerNext }
  | more {s} (cur : ℕ) (hpc : s.sealer = .scan cur) (hpub : s.isPublished cfg cur = true) :
      SealerStep C cfg s { s with
        sealer := if cfg.ringSize ≤ cur + 1 - s.sealerNext then .hashing s.sealerNext (cur + 1)
          else .scan (cur + 1) }
  | stop {s} (cur : ℕ) (hpc : s.sealer = .scan cur) (hpub : s.isPublished cfg cur = false) :
      SealerStep C cfg s { s with sealer := .hashing s.sealerNext cur }
  | hash {s} (cur hi : ℕ) (hpc : s.sealer = .hashing cur hi) (hlt : cur < hi) :
      SealerStep C cfg s { s.sealSlot cfg C cur with sealer := .hashing (cur + 1) hi }
  | finish {s} (cur hi : ℕ) (hpc : s.sealer = .hashing cur hi) (hend : ¬ cur < hi) :
      SealerStep C cfg s { s with sealer := .store hi }
  | store {s} (hi : ℕ) (hpc : s.sealer = .store hi) :
      SealerStep C cfg s { s with sealedCursor := hi, sealerNext := hi, sealer := .start }

/-- One atomic step of the committer on this ring. How many of the available records a batch takes
is left open, as is whether it ends early or fails. -/
inductive CommitterStep (cfg : RingConfig) : RingState → RingState → Prop where
  | poll {s} (hhash : cfg.hashEnabled = true) (hpc : s.committer = .idle) :
      CommitterStep cfg s { s with committer := .batch s.sealedCursor }
  | scan {s} (hhash : cfg.hashEnabled = false) (hpc : s.committer = .idle) :
      CommitterStep cfg s { s with committer := .scan s.committedCursor }
  | more {s} (cur : ℕ) (hpc : s.committer = .scan cur) (hpub : s.isPublished cfg cur = true) :
      CommitterStep cfg s { s with committer := .scan (cur + 1) }
  | stop {s} (cur : ℕ) (hpc : s.committer = .scan cur) (hpub : s.isPublished cfg cur = false) :
      CommitterStep cfg s { s with committer := .batch cur }
  | pause {s} (avail : ℕ) (hpc : s.committer = .batch avail) :
      CommitterStep cfg s { s with committer := .idle }
  | begin {s} (avail upto : ℕ) (hpc : s.committer = .batch avail)
      (hge : s.committedCursor ≤ upto) (hlt : upto < avail) :
      CommitterStep cfg s { s with committer := .read s.committedCursor upto }
  | read {s} (cur upto : ℕ) (hpc : s.committer = .read cur upto) :
      CommitterStep cfg s { s with
        reads := s.reads ++ [(cur, (s.slot cfg cur).inner.read)]
        committer := .taken cur upto }
  | next {s} (cur upto : ℕ) (hpc : s.committer = .taken cur upto) (hlt : cur < upto) :
      CommitterStep cfg s { s with committer := .read (cur + 1) upto }
  | last {s} (upto : ℕ) (hpc : s.committer = .taken upto upto) :
      CommitterStep cfg s { s with committer := .store (upto + 1) }
  | partly {s} (cur upto : ℕ) (hpc : s.committer = .taken cur upto)
      (hsome : s.committedCursor < cur) : CommitterStep cfg s { s with committer := .store cur }
  | fail {s} (hpc : (∃ cur upto, s.committer = .taken cur upto) ∨ ∃ next, s.committer = .store next) :
      CommitterStep cfg s { s with committer := .idle }
  | store {s} (next : ℕ) (hpc : s.committer = .store next) :
      CommitterStep cfg s { s with committedCursor := next, committer := .idle }

inductive RingStep (C : Crates) (cfg : RingConfig) : RingState → RingState → Prop where
  | producer {s s'} (t : ℕ) (h : ProducerStep cfg t s s') : RingStep C cfg s s'
  | sealer {s s'} (h : SealerStep C cfg s s') : RingStep C cfg s s'
  | committer {s s'} (h : CommitterStep cfg s s') : RingStep C cfg s s'

def RingReachable (C : Crates) (cfg : RingConfig) (s : RingState) : Prop :=
  Relation.ReflTransGen (RingStep C cfg) cfg.init s

end LogDb.Pipeline
