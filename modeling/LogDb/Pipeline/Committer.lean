import LogDb.Lib.Transition
import LogDb.Format.Body
import LogDb.Storage.Manager

/-!
One shard as the Committer drives it: records are published to it in sequence order, and the loop
of `run_committer` writes them to the segment files batch by batch, rolling when one is full.
-/

namespace LogDb.Pipeline

open Lib Format Storage SegmentManager

variable {C : Crates} {cfg : ShardConfig} {st : ShardState} {ok : ShardState → ShardEvent → Prop}
  {count : ℕ}

/-- The part of a validated configuration that one shard uses. `hashInit` is its chain key. -/
structure ShardConfig where
  shardId : ℕ
  shardBits : UInt32
  segmentSize : ℕ
  maxContentSize : ℕ
  indexStride : UInt32
  hashEnabled : Bool
  compressed : Bool
  encryptionKeys : Option KeyRing
  retention : RetentionPolicy
  hashInit : Bytes32
  bits_le : shardBits.toNat ≤ 8
  shard_lt : shardId < 2 ^ shardBits.toNat
  segmentSize_ge : 1024 * 1024 ≤ segmentSize
  segmentSize_lt : segmentSize < 2 ^ 64
  maxContentSize_le : maxContentSize ≤ 64 * 1024 * 1024
  indexStride_ne : indexStride ≠ 0

namespace ShardConfig

def framed (cfg : ShardConfig) : Bool :=
  cfg.compressed || cfg.encryptionKeys.isSome

/-- The chain key as it stands in the headers: masked when the shard is encrypted. -/
def headerHashInit (C : Crates) (cfg : ShardConfig) : Bytes32 :=
  match cfg.encryptionKeys with
  | some ring =>
    if cfg.hashEnabled then xor32 cfg.hashInit (deriveHashInit C ring.active) else cfg.hashInit
  | none => cfg.hashInit

def recordId (cfg : ShardConfig) (localSeq : ℕ) : UInt64 :=
  encodeRecordId cfg.shardId localSeq cfg.shardBits

end ShardConfig

/-- The running hash of the Sealer behind the published records. -/
def chainHash (published : List ReadView) : Bytes32 :=
  published.getLast?.elim zeros32 ReadView.hashN

/-- The slot of the next record once it is published and, if the chain is on, sealed. -/
def nextView (C : Crates) (cfg : ShardConfig) (published : List ReadView) (timestampNs : UInt64)
    (content : Bytes) : ReadView where
  recordId := cfg.recordId published.length
  timestampNs := timestampNs
  content := content
  hashN :=
    if cfg.hashEnabled then blake3KeyedChain C cfg.hashInit (chainHash published) content
    else zeros32

/-- `published` are the records that the Committer may read, from sequence 0 on. -/
structure ShardState where
  mgr : SegmentManager
  disk : Disk
  published : List ReadView
  committed : ℕ
  durable : ℕ

namespace ShardState

/-- A shard that `open` finds no data for. -/
def fresh (C : Crates) (cfg : ShardConfig) : Except String ShardState :=
  (create C Disk.empty cfg.segmentSize cfg.hashEnabled cfg.compressed
    cfg.encryptionKeys (cfg.headerHashInit C) cfg.retention 0).map fun r =>
      { mgr := (r.1.setIndexStride cfg.indexStride).setShard cfg.shardId cfg.shardBits
        disk := r.2
        published := []
        committed := 0
        durable := 0 }

theorem fresh_empty
    (h : fresh C cfg = .ok st) : st.published = [] ∧ st.committed = 0 ∧ st.durable = 0 ∧
      st.mgr.pendingFsync = [] ∧ st.mgr.active.offset = segmentHeaderSize := by
  unfold fresh create ActiveSegment.create at h
  simp only at h
  generalize Disk.empty.create 1 _ = created at h
  cases created with
  | none => cases h
  | some d =>
    cases h
    exact ⟨rfl, rfl, rfl, rfl, rfl⟩

variable (C : Crates) (cfg : ShardConfig) (st : ShardState)

def publish (timestampNs : UInt64) (content : Bytes) : ShardState :=
  { st with published := st.published ++ [nextView C cfg st.published timestampNs content] }

def batch (count : ℕ) : List ReadView :=
  (st.published.drop st.committed).take count

theorem batch_length {st : ShardState}
    (hle : st.committed + count ≤ st.published.length) : (st.batch count).length = count := by
  unfold batch
  rw [List.length_take, List.length_drop]
  omega

theorem batch_take {st : ShardState} {k : ℕ} (hk : k ≤ (st.batch count).length) :
    (st.batch count).take k = (st.published.drop st.committed).take k := by
  have hle : k ≤ count := hk.trans (List.length_take_le _ _)
  unfold batch
  rw [List.take_take, min_eq_left hle]

/-- The next record to commit fits into the active segment. -/
def NextFits : Prop :=
  ∀ v ∈ (st.published.drop st.committed).head?,
    st.mgr.active.hasRoom (recordSize v.content.length) st.mgr.segmentSize = true

section

variable (count : ℕ) (nonce : Nonce) (checkpoint : UInt64) (env : RollEnv)

/-- One pass of the commit part of the loop: append the batch, and roll when nothing fitted. -/
def commitBatch :
    ShardState :=
  match st.mgr.appendBatch C st.disk nonce st.committed (st.batch count) with
  | (.ok next, m, d) => { st with mgr := m, disk := d, committed := next }
  | (.error .full, m, d) =>
    let r := m.roll C d (cfg.recordId st.committed) checkpoint env
    { st with mgr := r.2.1, disk := r.2.2 }
  | (.error (.io _), m, d) => { st with mgr := m, disk := d }

theorem commitBatch_published :
    (st.commitBatch C cfg count nonce checkpoint env).published = st.published := by
  unfold commitBatch
  split <;> rfl

theorem commitBatch_durable :
    (st.commitBatch C cfg count nonce checkpoint env).durable = st.durable := by
  unfold commitBatch
  split <;> rfl

end

def sync : ShardState :=
  let m := st.mgr.syncAll
  { st with mgr := m, disk := m.saveActiveIndex st.disk, durable := st.committed }

def drainPendingFsyncs : ShardState :=
  { st with mgr := { st.mgr with pendingFsync := [] } }

end ShardState

inductive ShardEvent where
  | publish (timestampNs : UInt64) (content : Bytes)
  | commit (count : ℕ) (nonce : Nonce) (checkpoint : UInt64) (env : RollEnv)
  | sync
  | idle

namespace ShardEvent

/-- Appends check the content size; a batch is a non-empty range of published records. -/
def Enabled (cfg : ShardConfig) (st : ShardState) : ShardEvent → Prop
  | publish _ content => content.length ≤ cfg.maxContentSize
  | commit count _ _ _ => 0 < count ∧ st.committed + count ≤ st.published.length
  | sync => True
  | idle => True

def apply (C : Crates) (cfg : ShardConfig) (st : ShardState) : ShardEvent → ShardState
  | publish timestampNs content => st.publish C cfg timestampNs content
  | commit count nonce checkpoint env => st.commitBatch C cfg count nonce checkpoint env
  | sync => st.sync
  | idle => st.drainPendingFsyncs

/-- The counters stay in range: the id of the record and the one after it are below `u64::MAX`,
and the next segment id has 32 bits. -/
def Bounded (cfg : ShardConfig) (st : ShardState) : ShardEvent → Prop
  | publish _ _ => (st.published.length + 2) * 2 ^ cfg.shardBits.toNat < 2 ^ 64
  | commit _ _ _ _ => st.mgr.activeId + 1 < 2 ^ 32
  | _ => True

def KeepsAll (cfg : ShardConfig) : ShardEvent → Prop
  | commit _ _ checkpoint _ => cfg.retention = .keepAll ∧ checkpoint = 0
  | _ => True

section

variable (C : Crates) (cfg : ShardConfig) (st : ShardState)

/-- Both lengths of every frame that the batch can be stored as fit their `u32` fields. -/
def FramesFit : ShardEvent → Prop
  | commit count nonce _ _ =>
    cfg.framed = true → ∀ k,
      (batchBytes C ((st.batch count).take k)).length < 2 ^ 32 ∧
        (encodeFramePayload C cfg.compressed (cfg.encryptionKeys.map KeyRing.active) nonce
          (batchBytes C ((st.batch count).take k))).length < 2 ^ 32
  | _ => True

def InLimits (ev : ShardEvent) : Prop :=
  ev.Bounded cfg st ∧ ev.KeepsAll cfg ∧ ev.FramesFit C cfg st

end

end ShardEvent

section

variable (C : Crates) (cfg : ShardConfig) (ok : ShardState → ShardEvent → Prop)

def ShardStep (st st' : ShardState) : Prop :=
  ∃ ev : ShardEvent, ev.Enabled cfg st ∧ ok st ev ∧ st' = ev.apply C cfg st

def ShardReachable (st : ShardState) : Prop :=
  ∃ st₀, ShardState.fresh C cfg = .ok st₀ ∧ Relation.ReflTransGen (ShardStep C cfg ok) st₀ st

end

theorem ShardReachable.step (h : ShardReachable C cfg ok st) {ev : ShardEvent} (he : ev.Enabled cfg st)
    (hok : ok st ev) : ShardReachable C cfg ok (ev.apply C cfg st) := by
  obtain ⟨st₀, hf, hr⟩ := h
  exact ⟨st₀, hf, hr.tail ⟨ev, he, hok, rfl⟩⟩

theorem ShardReachable.mono {ok' : ShardState → ShardEvent → Prop} (h : ShardReachable C cfg ok st)
    (hok : ∀ st ev, ok st ev → ok' st ev) : ShardReachable C cfg ok' st := by
  obtain ⟨st₀, hf, hr⟩ := h
  refine ⟨st₀, hf, Relation.ReflTransGen.mono ?_ _ _ hr⟩
  rintro a b ⟨ev, he, hv, rfl⟩
  exact ⟨ev, he, hok a ev hv, rfl⟩

end LogDb.Pipeline
