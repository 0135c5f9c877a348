import LogDb.Pipeline.Committer
import LogDb.Storage.Faulty

/-!
The loop of `run_committer` over several shards on a device whose calls may fail. The loop tries a
failed batch or roll again, ends a sync pass at the first failure, and moves the durable cursors
only behind a pass without one.
-/

namespace LogDb.Pipeline

open Lib Format Storage List Function

/-- A shard and what the device has of it. `sealedAt` is where the records of a file ended when it
was left; no code reads it. -/
structure DeviceShard extends ShardState where
  stable : ℕ → Option Bytes
  entries : ℕ → Bool
  sealedAt : ℕ → ℕ

namespace DeviceShard

/-- `create` syncs the directory. -/
def fresh (C : Crates) (cfg : ShardConfig) : Except String DeviceShard :=
  (ShardState.fresh C cfg).map fun st =>
    { toShardState := st
      stable := fun _ => none
      entries := fun id => (st.disk.get id).isSome
      sealedAt := fun _ => 0 }

def volume (s : DeviceShard) : Volume :=
  ⟨s.disk, s.stable, s.entries⟩

def put (s : DeviceShard) (m : SegmentManager) (vol : Volume) : DeviceShard :=
  { s with mgr := m, disk := vol.disk, stable := vol.stable, entries := vol.entries }

section

variable (C : Crates) (cfg : ShardConfig) (s : DeviceShard)

def publish (timestampNs : UInt64)
    (content : Bytes) : DeviceShard :=
  { s with toShardState := s.toShardState.publish C cfg timestampNs content }

/-- One pass of the commit part of the loop. The cursor stays when anything fails. -/
def commitBatch (count : ℕ) (nonce : Nonce)
    (checkpoint : UInt64) (env : SegmentManager.RollEnv) (append : AppendOutcomes)
    (roll : RollOutcomes) : DeviceShard :=
  match s.mgr.appendBatchWith C s.disk nonce s.committed (s.batch count) append with
  | (.ok next, m, d) => { s with mgr := m, disk := d, committed := next }
  | (.error .full, m, d) =>
    match m.rollWith C { s.volume with disk := d } (cfg.recordId s.committed) checkpoint env roll with
    | (.ok _, m', vol) =>
      { s.put m' vol with sealedAt := update s.sealedAt m.active.id m.active.offset }
    | (.error _, m', vol) => s.put m' vol
  | (.error (.io _), m, d) => { s with mgr := m, disk := d }

end

def syncAll (s : DeviceShard) (o : SyncOutcomes) : Bool × DeviceShard :=
  let r := s.mgr.syncAllWith s.volume o
  (r.1, s.put r.2.1 r.2.2)

/-- What follows for a shard when all of them have been synced. -/
def advance (s : DeviceShard) (o : SyncOutcomes) : DeviceShard :=
  { s with durable := s.committed, disk := s.mgr.saveActiveIndexWith s.disk o.index }

def drainPendingFsyncs (s : DeviceShard) (ok : ℕ → Bool) : DeviceShard :=
  let r := s.mgr.drainPendingFsyncsWith s.volume ok
  s.put r.1 r.2

end DeviceShard

section Pass

variable {n : ℕ}

/-- The managers are synced in order up to the first failure. -/
def syncManagers (o : Fin n → SyncOutcomes) : List (Fin n) → (Fin n → DeviceShard) →
    Bool × (Fin n → DeviceShard)
  | [], db => (true, db)
  | k :: ks, db =>
    match (db k).syncAll (o k) with
    | (true, s) => syncManagers o ks (update db k s)
    | (false, s) => (false, update db k s)

def syncPass (o : Fin n → SyncOutcomes) (db : Fin n → DeviceShard) : Fin n → DeviceShard :=
  match syncManagers o (List.finRange n) db with
  | (true, db) => fun k => (db k).advance (o k)
  | (false, db) => db

inductive DeviceEvent (n : ℕ) where
  | publish (k : Fin n) (timestampNs : UInt64) (content : Bytes)
  | commit (k : Fin n) (count : ℕ) (nonce : Nonce) (checkpoint : UInt64)
      (env : SegmentManager.RollEnv) (append : AppendOutcomes) (roll : RollOutcomes)
  | sync (o : Fin n → SyncOutcomes)
  | idle (ok : Fin n → ℕ → Bool)

namespace DeviceEvent

def Enabled (cfgs : Fin n → ShardConfig) (db : Fin n → DeviceShard) : DeviceEvent n → Prop
  | publish k _ content => content.length ≤ (cfgs k).maxContentSize
  | commit k count _ _ _ _ _ => 0 < count ∧ (db k).committed + count ≤ (db k).published.length
  | sync _ => True
  | idle _ => True

def apply (C : Crates) (cfgs : Fin n → ShardConfig) (db : Fin n → DeviceShard) :
    DeviceEvent n → Fin n → DeviceShard
  | publish k timestampNs content =>
    update db k ((db k).publish C (cfgs k) timestampNs content)
  | commit k count nonce checkpoint env append roll =>
    update db k
      ((db k).commitBatch C (cfgs k) count nonce checkpoint env append roll)
  | sync o => syncPass o db
  | idle ok => fun k => (db k).drainPendingFsyncs (ok k)

inductive Case (C : Crates) (cfgs : Fin n → ShardConfig) (db : Fin n → DeviceShard) (k : Fin n) :
    DeviceEvent n → DeviceShard → Prop where
  | stays (ev : DeviceEvent n) : Case C cfgs db k ev (db k)
  | publish (timestampNs : UInt64) (content : Bytes) :
      Case C cfgs db k (.publish k timestampNs content)
        ((db k).publish C (cfgs k) timestampNs content)
  | commit (count : ℕ) (nonce : Nonce) (checkpoint : UInt64) (env : SegmentManager.RollEnv)
      (append : AppendOutcomes) (roll : RollOutcomes) :
      Case C cfgs db k (.commit k count nonce checkpoint env append roll)
        ((db k).commitBatch C (cfgs k) count nonce checkpoint env append roll)
  | synced (o : Fin n → SyncOutcomes) :
      Case C cfgs db k (.sync o) ((db k).syncAll (o k)).2
  | advanced (o : Fin n → SyncOutcomes) (hdone : ((db k).syncAll (o k)).1 = true) :
      Case C cfgs db k (.sync o) (((db k).syncAll (o k)).2.advance (o k))
  | drained (ok : Fin n → ℕ → Bool) :
      Case C cfgs db k (.idle ok) ((db k).drainPendingFsyncs (ok k))

end DeviceEvent

theorem syncManagers_of_not_mem (o : Fin n → SyncOutcomes) {ks : List (Fin n)} {k : Fin n}
    (hk : k ∉ ks) (db : Fin n → DeviceShard) : (syncManagers o ks db).2 k = db k := by
  induction ks generalizing db with
  | nil => rfl
  | cons t ks ih =>
    have hne : k ≠ t := ne_of_not_mem_cons hk
    have hr : k ∉ ks := not_mem_of_not_mem_cons hk
    unfold syncManagers
    split
    · rw [ih hr, update_of_ne hne]
    · exact update_of_ne hne _ _

theorem syncManagers_spec (o : Fin n → SyncOutcomes) {ks : List (Fin n)} (hd : ks.Nodup)
    (db : Fin n → DeviceShard) (k : Fin n) :
    ((syncManagers o ks db).2 k = db k ∨ (syncManagers o ks db).2 k = ((db k).syncAll (o k)).2) ∧
    ((syncManagers o ks db).1 = true → k ∈ ks →
      ((db k).syncAll (o k)).1 = true ∧ (syncManagers o ks db).2 k = ((db k).syncAll (o k)).2) := by
  induction ks generalizing db with
  | nil => exact ⟨.inl rfl, fun _ hk => absurd hk not_mem_nil⟩
  | cons t ks ih =>
    obtain ⟨hn, hr⟩ := nodup_cons.mp hd
    unfold syncManagers
    cases hs : (db t).syncAll (o t) with
    | mk done s =>
      by_cases ht : k = t
      · subst ht
        -- its turn comes only once
        have he : (syncManagers o ks (update db k s)).2 k = s := by
          rw [syncManagers_of_not_mem o hn, update_self]
        rw [hs]
        cases done with
        | false => exact ⟨.inr (update_self _ _ _), fun h => by cases h⟩
        | true => exact ⟨.inr he, fun _ _ => ⟨rfl, he⟩⟩
      · obtain ⟨ho, ha⟩ := ih hr (update db t s)
        rw [update_of_ne ht] at ho ha
        cases done with
        | false => exact ⟨.inl (update_of_ne ht _ _), fun h => by cases h⟩
        | true => exact ⟨ho, fun hdo hk => ha hdo ((mem_cons.mp hk).resolve_left ht)⟩

section

variable (C : Crates) (cfgs : Fin n → ShardConfig)

theorem DeviceEvent.apply_cases (db : Fin n → DeviceShard) (ev : DeviceEvent n) (k : Fin n) :
    Case C cfgs db k ev (ev.apply C cfgs db k) := by
  cases ev with
  | publish t timestampNs content =>
    simp only [apply]
    by_cases hk : k = t
    · subst hk
      rw [update_self]
      exact .publish _ _
    · rw [update_of_ne hk]
      exact .stays _
  | commit t count nonce checkpoint env append roll =>
    simp only [apply]
    by_cases hk : k = t
    · subst hk
      rw [update_self]
      exact .commit _ _ _ _ _ _
    · rw [update_of_ne hk]
      exact .stays _
  | sync o =>
    obtain ⟨ho, ha⟩ := syncManagers_spec o (nodup_finRange n) db k
    simp only [apply, syncPass]
    cases hs : syncManagers o (finRange n) db with
    | mk done db' =>
      rw [hs] at ho ha
      cases done with
      | true =>
        obtain ⟨hd, heq⟩ := ha rfl (mem_finRange k)
        simp only at heq ⊢
        rw [heq]
        exact .advanced o hd
      | false =>
        simp only at ho ⊢
        rcases ho with heq | heq
        · rw [heq]
          exact .stays _
        · rw [heq]
          exact .synced o
  | idle ok => exact .drained ok

section

variable (ok : (Fin n → DeviceShard) → DeviceEvent n → Prop)

def DeviceStep (db db' : Fin n → DeviceShard) : Prop :=
  ∃ ev : DeviceEvent n, ev.Enabled cfgs db ∧ ok db ev ∧ db' = ev.apply C cfgs db

def DeviceReachable (db : Fin n → DeviceShard) : Prop :=
  ∃ db₀, (∀ k, DeviceShard.fresh C (cfgs k) = .ok (db₀ k)) ∧
    Relation.ReflTransGen (DeviceStep C cfgs ok) db₀ db

end

end

/-- What holds of fresh shards and is kept in every case holds of every shard. -/
theorem DeviceReachable.invariant {C : Crates} {cfgs : Fin n → ShardConfig}
    {ok : (Fin n → DeviceShard) → DeviceEvent n → Prop} {db : Fin n → DeviceShard}
    {P : Fin n → DeviceShard → Prop} (h : DeviceReachable C cfgs ok db)
    (hf : ∀ k s, DeviceShard.fresh C (cfgs k) = .ok s → P k s)
    (hs : ∀ db ev k s', (∀ k, P k (db k)) → ev.Enabled cfgs db → ok db ev →
      ev.Case C cfgs db k s' → P k s') (k : Fin n) : P k (db k) := by
  obtain ⟨db₀, hd₀, hr⟩ := h
  have hl : ∀ k, P k (db k) := by
    apply invariant_of_steps (P := fun db => ∀ k, P k (db k)) hr
    · exact fun k => hf k _ (hd₀ k)
    · rintro a b ha ⟨ev, he, hok, rfl⟩ k
      exact hs a ev k _ ha he hok (ev.apply_cases C cfgs a k)
  exact hl k

end Pass

end LogDb.Pipeline
