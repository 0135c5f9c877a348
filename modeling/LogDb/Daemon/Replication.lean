import LogDb.Daemon.Rebuild
import LogDb.Lib.Transition

/-!
The standby: `LogDb::replicate`, `Storage::replicate` and the handler of `ReplicationService::sync`.
-/

namespace LogDb.Daemon

open Lib Format

variable {r : ReplicationRequest} {m : ℕ}

/-- Why the database refuses a record that is in order. -/
inductive ReplicateFault where
  | refused (error : String)
  | queueFull

/-- `LogDb::replicate`: the primary's ids are the places in the only shard. -/
def Engine.replicate (db : Engine m) (maxContentSize : ℕ) (fault : Option ReplicateFault)
    (sequence : ℕ) (content : Bytes) : Except String (Engine m) :=
  if h : m = 1 then
    let shard : Fin m := ⟨0, h ▸ one_pos⟩
    let cur := (db.contents shard).length
    let size := content.length
    if size > maxContentSize then
      .error s!"ContentTooLarge \x7b size: {size}, max: {maxContentSize} \x7d"
    else
      match fault with
      | some (.refused e) => .error e
      | fault =>
        -- a record below the cursor was replicated before
        if sequence < cur then .ok db
        else if sequence ≠ cur then
          .error s!"Io(\"replicate out of order: expected {cur}, got {sequence}\")"
        else if fault matches some .queueFull then .error "QueueFull"
        else
          match db.append shard content with
          | some db => .ok db
          | none => .error "SequenceExhausted"
  else .error "Io(\"replicate requires shards=1\")"

/-- `Storage::replicate`: a record that cannot be decoded is in the log all the same. -/
def Storage.replicate (st : Storage m) (maxContentSize : ℕ)
    (fault : Option ReplicateFault) (gid : ℕ) (content : Bytes) :
    Except StorageError Unit × Storage m :=
  match st.db.replicate maxContentSize fault gid content with
  | .error e => (.error (.logDb s!"replicate: {e}"), st)
  | .ok db =>
    match decodeRecord content with
    | .error e => (.error (.record e), { st with db })
    | .ok d =>
      (.ok (), {
        db
        seqMap := st.seqMap.store d.streamId d.seq.toNat gid
        nextSeqs := st.nextSeqs.bump d.streamId d.seq.toNat })

theorem Engine.replicate_cases {db db' : Engine m} {maxLen gid : ℕ} {content : Bytes}
    {fault : Option ReplicateFault} (h : db.replicate maxLen fault gid content = .ok db') :
    m = 1 ∧ ∃ s, (gid < (db.contents s).length ∧ db' = db) ∨
      gid = (db.contents s).length ∧ db.append s content = some db' := by
  unfold Engine.replicate at h
  split_ifs at h with hm
  dsimp only at h
  refine ⟨hm, ⟨0, hm ▸ one_pos⟩, ?_⟩
  split at h
  · cases h
  split at h
  · cases h
  · split_ifs at h with hlt hne hf
    · cases h
      exact .inl ⟨hlt, rfl⟩
    · split at h
      · rename_i db₁ ha
        cases h
        exact .inr ⟨not_not.mp hne, ha⟩
      · cases h

theorem Storage.replicate_db (st : Storage m) (maxLen : ℕ)
    (fault : Option ReplicateFault) (gid : ℕ) (content : Bytes) :
    (st.replicate maxLen fault gid content).2.db = st.db ∨
      ∃ s, st.db.append s content = some (st.replicate maxLen fault gid content).2.db := by
  unfold Storage.replicate
  cases hr : st.db.replicate maxLen fault gid content with
  | error e => exact .inl rfl
  | ok db =>
    obtain ⟨-, s, hc⟩ := Engine.replicate_cases hr
    have hd : db = st.db ∨ ∃ s, st.db.append s content = some db :=
      hc.imp And.right fun ha => ⟨s, ha.2⟩
    cases decodeRecord content with
    | error e => exact hd
    | ok d => exact hd

structure ReplicationRecord where
  gid : ℕ
  content : Bytes

structure ReplicationRequest where
  clusterId : String
  epoch : ℕ
  records : List ReplicationRecord

inductive SyncError where
  | failedPrecondition (message : String)
  | internal (gid : ℕ) (error : StorageError)

/-- `ReplicationServiceImpl`. The cluster and the epoch come from the configuration. -/
structure Standby (m : ℕ) where
  storage : Storage m
  clusterId : String
  epoch : ℕ
  maxContentSize : ℕ

namespace Standby

variable {m : ℕ} (sb : Standby m)

/-- The loop of the handler; `faults` has the fault of each record, and `lastGid` the id of the one
before. -/
def replicateAll (sb : Standby m) : List ReplicationRecord → (ℕ → Option ReplicateFault) → ℕ →
    Except SyncError ℕ × Standby m
  | [], _, lastGid => (.ok lastGid, sb)
  | r :: records, faults, _ =>
    match sb.storage.replicate sb.maxContentSize (faults 0) r.gid r.content with
    | (.error e, storage) => (.error (.internal r.gid e), { sb with storage })
    | (.ok _, storage) =>
      replicateAll { sb with storage } records (fun k => faults (k + 1)) r.gid

section

variable (r : ReplicationRequest)

def checkRequest : Except String Unit :=
  if r.clusterId ≠ "" ∧ r.clusterId ≠ sb.clusterId then
    let expected := sb.clusterId
    let got := r.clusterId
    .error s!"WRONG_CLUSTER: got '{got}', expected '{expected}'"
  else if 0 < r.epoch ∧ r.epoch < sb.epoch then
    let localEpoch := sb.epoch
    let got := r.epoch
    .error s!"STALE_EPOCH: got {got}, local {localEpoch}"
  else .ok ()

def sync (faults : ℕ → Option ReplicateFault) :
    Except SyncError ℕ × Standby m :=
  match sb.checkRequest r with
  | .error e => (.error (.failedPrecondition e), sb)
  | .ok () => if r.records = [] then (.ok 0, sb) else sb.replicateAll r.records faults 0

theorem checkRequest_eq_ok : sb.checkRequest r = .ok () ↔
      (r.clusterId = "" ∨ r.clusterId = sb.clusterId) ∧ (r.epoch = 0 ∨ sb.epoch ≤ r.epoch) := by
  unfold checkRequest
  split_ifs with hc he
  · simp [hc]
  · simp only [false_iff, not_and, not_or]
    omega
  · simp only [true_iff]
    refine ⟨?_, by omega⟩
    by_contra hne
    exact hc (not_or.mp hne)

end

theorem replicateAll_clusterId (records : List ReplicationRecord)
    (faults : ℕ → Option ReplicateFault) (lastGid : ℕ) :
    (sb.replicateAll records faults lastGid).2.clusterId = sb.clusterId := by
  induction records generalizing sb faults lastGid with
  | nil => rfl
  | cons r records ih =>
    unfold replicateAll
    cases sb.storage.replicate sb.maxContentSize (faults 0) r.gid r.content with
    | mk result storage =>
      cases result with
      | error e => rfl
      | ok _ => exact ih { sb with storage } _ _

section

variable (r : ReplicationRequest) (faults : ℕ → Option ReplicateFault)

theorem sync_clusterId : (sb.sync r faults).2.clusterId = sb.clusterId := by
  unfold sync
  cases sb.checkRequest r with
  | error e => rfl
  | ok _ =>
    dsimp only
    split_ifs
    · rfl
    · exact sb.replicateAll_clusterId ..

/-- A request is accepted if it is answered with success, or if something was stored. -/
def Accepts : Prop :=
  (∃ lastGid, (sb.sync r faults).1 = .ok lastGid) ∨
    (sb.sync r faults).2.storage.db ≠ sb.storage.db

end

theorem checkRequest_of_accepts {faults : ℕ → Option ReplicateFault}
    (h : sb.Accepts r faults) : sb.checkRequest r = .ok () := by
  unfold Accepts sync at h
  cases hc : sb.checkRequest r with
  | error e =>
    rw [hc] at h
    rcases h with ⟨lastGid, h⟩ | h
    · cases h
    · exact absurd rfl h
  | ok _ => rfl

end Standby

/-! ## Fencing -/

structure FencedStandby (m : ℕ) where
  standby : Standby m
  accepted : List ReplicationRequest

inductive FenceTrans {m : ℕ} : FencedStandby m → ReplicationRequest → FencedStandby m → Prop
  | accept {st r faults} (h : st.standby.Accepts r faults) :
    FenceTrans st r ⟨(st.standby.sync r faults).2, st.accepted ++ [r]⟩
  | reject {st r faults} (h : ¬ st.standby.Accepts r faults) :
    FenceTrans st r ⟨(st.standby.sync r faults).2, st.accepted⟩

def FenceReachable (ok : FencedStandby m → ReplicationRequest → Prop) (sb : Standby m)
    (st : FencedStandby m) : Prop :=
  Relation.ReflTransGen (fun a b => ∃ r, ok a r ∧ FenceTrans a r b) ⟨sb, []⟩ st

/-- A request names a cluster and an epoch, which is below the configured one or not below any that
was accepted. -/
def ReplicationRequest.Current (st : FencedStandby m) (r : ReplicationRequest) : Prop :=
  r.clusterId ≠ "" ∧ r.epoch ≠ 0 ∧
    (r.epoch < st.standby.epoch ∨ ∀ a ∈ st.accepted, a.epoch ≤ r.epoch)

/-- Only requests of the standby's cluster have been accepted, with ascending epochs. -/
structure FenceInv {m : ℕ} (sb : Standby m) (st : FencedStandby m) : Prop where
  clusterId : st.standby.clusterId = sb.clusterId
  accepted : ∀ r ∈ st.accepted, r.clusterId = sb.clusterId ∧ r.clusterId ≠ ""
  ascending : st.accepted.Pairwise fun a b => a.epoch ≤ b.epoch

theorem FenceInv.step {sb : Standby m} {st st' : FencedStandby m} (h : FenceInv sb st)
    (hok : r.Current st) (ht : FenceTrans st r st') : FenceInv sb st' := by
  cases ht with
  | @accept faults ha =>
    obtain ⟨hc, he⟩ := (st.standby.checkRequest_eq_ok r).mp (st.standby.checkRequest_of_accepts ha)
    obtain ⟨hm, hz, ho⟩ := hok
    refine ⟨(st.standby.sync_clusterId r faults).trans h.clusterId, ?_, ?_⟩
    · exact List.forall_mem_append.mpr ⟨h.accepted, List.forall_mem_singleton.mpr
        ⟨(hc.resolve_left hm).trans h.clusterId, hm⟩⟩
    · refine List.pairwise_append.mpr ⟨h.ascending, List.pairwise_singleton _ _, ?_⟩
      intro a ha b hb
      rw [List.mem_singleton.mp hb]
      -- the handler has refused what is below the configured epoch
      exact ho.resolve_left (he.resolve_left hz).not_gt a ha
  | @reject faults _ =>
    exact ⟨(st.standby.sync_clusterId r faults).trans h.clusterId, h.accepted, h.ascending⟩

theorem FenceInv.reachable {sb : Standby m} {st : FencedStandby m}
    (hh : FenceReachable ReplicationRequest.Current sb st) : FenceInv sb st := by
  apply invariant_of_steps hh
  · exact ⟨rfl, fun r hr => absurd hr List.not_mem_nil, .nil⟩
  · intro a b h hs
    obtain ⟨r, hok, ht⟩ := hs
    exact h.step hok ht

/-- In every run in which all requests name their cluster and an epoch, and none that the standby's
own epoch lets through is below an accepted one, the accepted requests are those of the standby's
cluster, and none has a smaller epoch than one accepted before it. -/
theorem standby_fenced {m : ℕ} {sb : Standby m} {st : FencedStandby m}
    (hreach : FenceReachable ReplicationRequest.Current sb st) :
    (∀ r ∈ st.accepted, r.clusterId = sb.clusterId ∧ r.clusterId ≠ "") ∧
      st.accepted.Pairwise fun a b => a.epoch ≤ b.epoch :=
  have h := FenceInv.reachable hreach
  ⟨h.accepted, h.ascending⟩

def freshStandby : Standby 1 :=
  ⟨⟨Engine.empty one_le_256, ∅, ∅⟩, "c", 1, 1024⟩

def oneRecord (clusterId : String) (epoch gid : ℕ) : ReplicationRequest :=
  ⟨clusterId, epoch, [⟨gid, bareContent 1 (UInt64.ofNat (gid + 1))⟩]⟩

def fedStandby : Standby 1 :=
  (freshStandby.sync (oneRecord "c" 1 0) fun _ => none).2

def fedAgain : Standby 1 :=
  (fedStandby.sync (oneRecord "c" 3 1) fun _ => none).2

theorem standby_fenced_two_epochs : (fedAgain.storage.db.contents 0).length = 2 ∧
      ([oneRecord "c" 1 0, oneRecord "c" 3 1].Pairwise fun a b => a.epoch ≤ b.epoch) := by
  have hf : FenceReachable ReplicationRequest.Current freshStandby
      ⟨fedStandby, [oneRecord "c" 1 0]⟩ :=
    Relation.ReflTransGen.step .refl (oneRecord "c" 1 0) ⟨by decide, by decide, .inr nofun⟩
      (.accept (.inl ⟨0, rfl⟩))
  have hr : FenceReachable ReplicationRequest.Current freshStandby
      ⟨fedAgain, [oneRecord "c" 1 0, oneRecord "c" 3 1]⟩ :=
    hf.step (oneRecord "c" 3 1) ⟨by decide, by decide, .inr (by decide)⟩ (.accept (.inl ⟨1, rfl⟩))
  exact ⟨rfl, (standby_fenced hr).2⟩

def afterNewer : Standby 1 :=
  (freshStandby.sync (oneRecord "c" 3 0) fun _ => none).2

def afterOlder : Standby 1 :=
  (afterNewer.sync (oneRecord "c" 2 1) fun _ => none).2

def afterUnnamed : Standby 1 :=
  (afterOlder.sync (oneRecord "" 0 2) fun _ => none).2

/-- A standby with epoch 1 stores records of epoch 3, then of epoch 2, then without cluster and
epoch. -/
theorem standby_not_fenced : FenceReachable (fun _ _ => True) freshStandby
      ⟨afterUnnamed, [oneRecord "c" 3 0, oneRecord "c" 2 1, oneRecord "" 0 2]⟩ ∧
    (afterNewer.storage.db.contents 0).length = 1 ∧
    (afterOlder.storage.db.contents 0).length = 2 ∧
    (afterUnnamed.storage.db.contents 0).length = 3 := by
  refine ⟨?_, rfl, rfl, rfl⟩
  have hn : FenceReachable (fun _ _ => True) freshStandby
      ⟨afterNewer, [oneRecord "c" 3 0]⟩ :=
    Relation.ReflTransGen.step .refl _ trivial (.accept (.inl ⟨0, rfl⟩))
  have ho : FenceReachable (fun _ _ => True) freshStandby
      ⟨afterOlder, [oneRecord "c" 3 0, oneRecord "c" 2 1]⟩ :=
    hn.step _ trivial (.accept (.inl ⟨1, rfl⟩))
  exact ho.step _ trivial (.accept (.inl ⟨2, rfl⟩))

end LogDb.Daemon
