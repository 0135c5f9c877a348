import LogDb.Database.Open

/-!
One shard directory over several sessions. A session opens the directory with its own
configuration, publishes records behind those that recovery found, commits them and closes when
everything is committed. Nothing fails on the way.
-/

namespace LogDb.Database

open Lib Format Storage SegmentManager

/-- A shard between `open` and the close. `published` are the records of this session, the first of
them with the local sequence `initialLocal`. -/
structure Session where
  config : Config
  shardId : ℕ
  mgr : SegmentManager
  initialLocal : ℕ
  hashInit : Bytes32
  lastHash : Bytes32
  published : List ReadView
  committed : ℕ
  durable : ℕ

namespace Session

/-- All cursors start at the sequence that `open` resumes at. -/
def ofOpen (c : Config) (shardId : ℕ) (o : OpenShard) : Session where
  config := c
  shardId := shardId
  mgr := o.mgr
  initialLocal := o.initialLocal
  hashInit := o.hashInit
  lastHash := o.lastHash
  published := []
  committed := o.initialLocal
  durable := o.initialLocal

variable (C : Crates) (ss : Session) (d : Disk)

def next : ℕ :=
  ss.initialLocal + ss.published.length

def recordId (localSeq : ℕ) : UInt64 :=
  encodeRecordId ss.shardId localSeq (shardBits ss.config.shards)

/-- The running hash of the Sealer, which starts at the hash that recovery found last. -/
def chainHash : Bytes32 :=
  ss.published.getLast?.elim ss.lastHash ReadView.hashN

section

variable (timestampNs : UInt64) (content : Bytes)

/-- Whether a record carries a chain hash is decided by the configuration of the session. -/
def nextView : ReadView where
  recordId := ss.recordId ss.next
  timestampNs := timestampNs
  content := content
  hashN :=
    if ss.config.hashEnabled then blake3KeyedChain C ss.hashInit ss.chainHash content else zeros32

def publish : Session :=
  { ss with published := ss.published ++ [ss.nextView C timestampNs content] }

end

def batch (count : ℕ) : List ReadView :=
  (ss.published.drop (ss.committed - ss.initialLocal)).take count

/-- One pass of the commit part of `run_committer`. -/
def commitBatch (count : ℕ) (nonce : Nonce) (checkpoint : UInt64) (env : RollEnv) :
    Session × Disk :=
  match ss.mgr.appendBatch C d nonce ss.committed (ss.batch count) with
  | (.ok next, m, d) => ({ ss with mgr := m, committed := next }, d)
  | (.error .full, m, d) =>
    let r := m.roll C d (ss.recordId ss.committed) checkpoint env
    ({ ss with mgr := r.2.1 }, r.2.2)
  | (.error (.io _), m, d) => ({ ss with mgr := m }, d)

def sync : Session × Disk :=
  let m := ss.mgr.syncAll
  ({ ss with mgr := m, durable := ss.committed }, m.saveActiveIndex d)

def written : List ReadView :=
  ss.published.take (ss.committed - ss.initialLocal)

/-- Both lengths of every frame that the batch can be stored as fit their `u32` fields. -/
def FramesFit (count : ℕ) (nonce : Nonce) : Prop :=
  (ss.mgr.active.compressed || ss.mgr.encryptionKeys.isSome) = true → ∀ k,
    (batchBytes C ((ss.batch count).take k)).length < 2 ^ 32 ∧
      (encodeFramePayload C ss.mgr.active.compressed (ss.mgr.encryptionKeys.map KeyRing.active)
        nonce (batchBytes C ((ss.batch count).take k))).length < 2 ^ 32

variable {C ss d}

theorem written_ofOpen (c : Config) (s : ℕ) (o : OpenShard) : (ofOpen c s o).written = [] := by
  simp [written, ofOpen]

theorem commitBatch_keeps {count : ℕ} {nonce : Nonce} {cp : UInt64} {env : RollEnv} :
    (ss.commitBatch C d count nonce cp env).1.config = ss.config ∧
      (ss.commitBatch C d count nonce cp env).1.published = ss.published ∧
      (ss.commitBatch C d count nonce cp env).1.initialLocal = ss.initialLocal ∧
      (ss.commitBatch C d count nonce cp env).1.hashInit = ss.hashInit ∧
      (ss.commitBatch C d count nonce cp env).1.lastHash = ss.lastHash := by
  unfold commitBatch
  split <;> simp

theorem nextView_fits (hv : ss.config.Valid) {ts : UInt64} {content : Bytes}
    (hl : content.length ≤ ss.config.maxContentSize) :
    (ss.nextView C ts content).Fits := by
  have hx := hv.maxContentSize_le
  show recordSize content.length < 2 ^ 32
  rw [recordSize_eq]
  omega

end Session

inductive ShardDir where
  | closed (disk : Disk)
  | running (session : Session) (disk : Disk)

def ShardDir.disk : ShardDir → Disk
  | closed d => d
  | running _ d => d

inductive DirEvent where
  | open (c : Config) (freshInit : Bytes32)
  | publish (timestampNs : UInt64) (content : Bytes)
  | commit (count : ℕ) (nonce : Nonce) (checkpoint : UInt64) (env : RollEnv)
  | sync
  | close

/-- What an event does to the directory of shard `s`. An `open` that fails leaves the directory as
it is and is no step. -/
inductive DirTrans (C : Crates) (s : ℕ) : ShardDir → DirEvent → ShardDir → Prop where
  | open {d c freshInit o} (hs : s < c.shards)
      (hvalid : c.validate = .ok ()) (hopen : openShard C c s freshInit d = .ok o) :
      DirTrans C s (.closed d) (.open c freshInit) (.running (.ofOpen c s o) o.disk)
  | publish {ss d timestampNs content} (hlen : content.length ≤ ss.config.maxContentSize) :
      DirTrans C s (.running ss d) (.publish timestampNs content)
        (.running (ss.publish C timestampNs content) d)
  | commit {ss d count nonce checkpoint env} (hpos : 0 < count)
      (hle : ss.committed + count ≤ ss.next) :
      DirTrans C s (.running ss d) (.commit count nonce checkpoint env)
        (.running (ss.commitBatch C d count nonce checkpoint env).1
          (ss.commitBatch C d count nonce checkpoint env).2)
  | sync {ss d} : DirTrans C s (.running ss d) .sync (.running (ss.sync d).1 (ss.sync d).2)
  | close {ss d} (hall : ss.committed = ss.next) :
      DirTrans C s (.running ss d) .close (.closed (ss.sync d).2)

section

variable (C : Crates) (s : ℕ) (ok : ShardDir → DirEvent → Prop)

def DirStep (st st' : ShardDir) : Prop :=
  ∃ ev, ok st ev ∧ DirTrans C s st ev st'

def DirReachable (st : ShardDir) : Prop :=
  Relation.ReflTransGen (DirStep C s ok) (.closed Disk.empty) st

end

namespace DirReachable

variable {C : Crates} {s : ℕ} {ok : ShardDir → DirEvent → Prop} {st st' : ShardDir} {ev : DirEvent}
  {c : Config} {o : OpenShard} {ss : Session} {d : Disk}

theorem step (h : DirReachable C s ok st) (hok : ok st ev) (ht : DirTrans C s st ev st') :
    DirReachable C s ok st' :=
  h.tail ⟨ev, hok, ht⟩

theorem opened {freshInit : Bytes32} (h : DirReachable C s ok (.closed d)) (hs : s < c.shards)
    (hv : c.validate = .ok ()) (ho : openShard C c s freshInit d = .ok o)
    (hok : ok (.closed d) (.open c freshInit)) :
    DirReachable C s ok (.running (Session.ofOpen c s o) o.disk) :=
  h.step hok (.open hs hv ho)

theorem closed (h : DirReachable C s ok (.running ss d)) (ha : ss.committed = ss.next)
    (hok : ok (.running ss d) .close) : DirReachable C s ok (.closed (ss.sync d).2) :=
  h.step hok (.close ha)

theorem first_record (h : DirReachable C s ok (.running (Session.ofOpen c s o) d))
    (ts : UInt64) (content : Bytes) (nonce : Nonce) (cp : UInt64)
    (env : RollEnv) (hl : content.length ≤ c.maxContentSize)
    (hp : ok (.running (Session.ofOpen c s o) d) (.publish ts content))
    (hc : ok (.running ((Session.ofOpen c s o).publish C ts content) d)
      (.commit 1 nonce cp env)) :
    DirReachable C s ok (.running
      (((Session.ofOpen c s o).publish C ts content).commitBatch C d 1 nonce cp
        env).1
      (((Session.ofOpen c s o).publish C ts content).commitBatch C d 1 nonce cp
        env).2) :=
  (h.step hp (.publish hl)).step hc (.commit one_pos le_rfl)

end DirReachable

end LogDb.Database
