import LogDb.Recovery.Shard
import LogDb.Reader.Manifest
import LogDb.Pipeline.Committer

/-!
Opening a database: the configuration is validated, and each shard directory is recovered or
started afresh. Threads, health and the settings that only they read are left out.
-/

namespace LogDb.Database

open Lib Format Storage Recovery Reader Pipeline

structure Config where
  segmentSize : UInt64
  ringSize : ℕ
  shards : ℕ
  maxContentSize : ℕ
  hashEnabled : Bool
  compressionEnabled : Bool
  encryptionKeys : Option KeyRing
  indexStride : UInt32
  retention : RetentionPolicy

inductive ConfigError where
  | invalidRingSize (size : ℕ)
  | invalidShardCount (shards : ℕ)
  | segmentTooSmall (size : UInt64)
  | contentTooLarge (size : ℕ)
  | zeroIndexStride
  deriving DecidableEq

namespace Config

def validate (c : Config) : Except ConfigError Unit :=
  if ¬ c.ringSize.isPowerOfTwo ∨ c.ringSize < 16 then .error (.invalidRingSize c.ringSize)
  else if c.shards < 1 ∨ 256 < c.shards then .error (.invalidShardCount c.shards)
  else if c.segmentSize < 1024 * 1024 then .error (.segmentTooSmall c.segmentSize)
  else if 64 * 1024 * 1024 < c.maxContentSize then .error (.contentTooLarge c.maxContentSize)
  else if c.indexStride = 0 then .error .zeroIndexStride
  else .ok ()

/-- What a configuration that passes the checks satisfies. -/
structure Valid (c : Config) : Prop where
  shards_pos : 0 < c.shards
  shards_le : c.shards ≤ 256
  segmentSize_ge : 1024 * 1024 ≤ c.segmentSize.toNat
  maxContentSize_le : c.maxContentSize ≤ 64 * 1024 * 1024
  indexStride_ne : c.indexStride ≠ 0

theorem valid_of_validate {c : Config} (h : c.validate = .ok ()) : c.Valid := by
  unfold validate at h
  split_ifs at h with hr hs hst hc ht
  rw [not_or, not_lt, not_lt] at hs
  constructor
  · exact hs.1
  · exact hs.2
  · exact UInt64.le_iff_toNat_le.mp (UInt64.not_lt.mp hst)
  · exact not_lt.mp hc
  · exact ht

/-- The chain key as a fresh shard stores it: masked when it is encrypted. -/
def headerHashInit (C : Crates) (c : Config) (freshInit : Bytes32) : Bytes32 :=
  match c.encryptionKeys with
  | some ring => if c.hashEnabled then xor32 freshInit (deriveHashInit C ring.active) else freshInit
  | none => freshInit

/-- The part of shard `s`, with the chain key it was created with. -/
def shard (c : Config) (h : c.Valid) (hashInit : Bytes32) (s : Fin c.shards) : ShardConfig where
  shardId := s
  shardBits := shardBits c.shards
  segmentSize := c.segmentSize.toNat
  maxContentSize := c.maxContentSize
  indexStride := c.indexStride
  hashEnabled := c.hashEnabled
  compressed := c.compressionEnabled
  encryptionKeys := c.encryptionKeys
  retention := c.retention
  hashInit := hashInit
  bits_le := (shardBits_spec h.shards_le s.2).1
  shard_lt := (shardBits_spec h.shards_le s.2).2
  segmentSize_ge := h.segmentSize_ge
  segmentSize_lt := c.segmentSize.toNat_lt
  maxContentSize_le := h.maxContentSize_le
  indexStride_ne := h.indexStride_ne

end Config

inductive OpenError where
  | invalidConfig (e : ConfigError)
  | recovery (shard : ℕ) (reason : String)
  | segmentCreate (reason : String)
  deriving DecidableEq

/-- A shard as `open` hands it to the threads: its ring resumes at `initialLocal`. -/
structure OpenShard where
  mgr : SegmentManager
  disk : Disk
  initialLocal : ℕ
  hashInit : Bytes32
  lastHash : Bytes32
  warnings : List RecoveryWarning

section

variable (C : Crates) (c : Config)

/-- Open one shard directory. A directory without a first segment is taken for a fresh one;
`freshInit` is then the new chain key. -/
def openShard (s : ℕ) (freshInit : Bytes32) (d : Disk) :
    Except OpenError OpenShard :=
  let bits := shardBits c.shards
  let tag := fun m : SegmentManager => (m.setIndexStride c.indexStride).setShard s bits
  if (d.get 1).isSome then
    match recoverShard C d bits c.segmentSize.toNat c.retention c.encryptionKeys with
    | .error reason => .error (.recovery s reason)
    | .ok (st, d') =>
      .ok { mgr := tag st.segmentManager
            disk := d'
            initialLocal :=
              if st.recoveredCount = 0 then 0
              else ((decodeRecordId st.lastSequence bits).2 + 1) % 2 ^ 64
            hashInit := st.hashInit
            lastHash := st.lastHash
            warnings := st.warnings }
  else
    match SegmentManager.create C d c.segmentSize.toNat c.hashEnabled c.compressionEnabled
      c.encryptionKeys (c.headerHashInit C freshInit) c.retention 0 with
    | .error reason => .error (.segmentCreate reason)
    | .ok (m, d') =>
      .ok { mgr := tag m
            disk := d'
            initialLocal := 0
            hashInit := freshInit
            lastHash := zeros32
            warnings := [] }

/-- Open all shard directories in order; the first failure ends it. -/
def openDb (freshInits : Fin c.shards → Bytes32)
    (disks : Fin c.shards → Disk) : Except OpenError (List OpenShard) :=
  match c.validate with
  | .error e => .error (.invalidConfig e)
  | .ok () => (List.finRange c.shards).mapM fun s : Fin c.shards =>
    openShard C c s (freshInits s) (disks s)

/-- `LogDb::scan` on an opened database. -/
def scan (shards : List OpenShard) (fromId toId : UInt64) : List Record :=
  scanIter C c.encryptionKeys (shards.map OpenShard.disk) fromId toId

end

end LogDb.Database
