import LogDb.Broker.Coordinator
import LogDb.Lib.Transition

/-!
The open Consume streams of one group and the handlers that start, swap and end their forward
tasks. The registry and the sessions are locked apart, so a handler gives up the processor between
any two of its reads and writes.
-/

namespace LogDb.Broker

def GroupSnapshot.shards (snap : GroupSnapshot) (c : ConsumerId) : Option (List ℕ) :=
  (snap.members.find? fun m => m.1 = c).map Prod.snd

/-- A point between two steps of `rebalance_group`. The sessions that are left to look at are those
of its snapshot; of each it holds the handle. -/
inductive RebalancePoint where
  | start
  | listed (sessions : List (ConsumerId × ℕ))
  | snapped (sessions : List (ConsumerId × ℕ)) (snap : GroupSnapshot)
  | loop (sessions : List (ConsumerId × ℕ)) (snap : GroupSnapshot) (changed : Finset ConsumerId)
  | signalled (c : ConsumerId) (n : ℕ) (shards : List ℕ) (sessions : List (ConsumerId × ℕ))
      (snap : GroupSnapshot) (changed : Finset ConsumerId)
  | aborted (c : ConsumerId) (n : ℕ) (shards : List ℕ) (sessions : List (ConsumerId × ℕ))
      (snap : GroupSnapshot) (changed : Finset ConsumerId)

/-- What a handler has done and knows. The stale consumers that `evict_stale` has yet to evict wait
for its rebalance; the other handlers have none. -/
inductive Handler where
  | idle
  | consuming (c : ConsumerId) (shards : List ℕ)
  | opened (c : ConsumerId) (n : ℕ) (shards : List ℕ)
  | evict (c : ConsumerId) (stale : List ConsumerId)
  | evicting (c : ConsumerId) (stale : List ConsumerId)
  | rebalance (point : RebalancePoint) (stale : List ConsumerId)

/-- A rebalance is over: the next stale consumer, or the end of the handler. -/
def Handler.next : List ConsumerId → Handler
  | [] => idle
  | c :: stale => evict c stale

/-- The sessions of a consumer are numbered as they are opened. -/
structure Service where
  registry : CoordinatorRegistry
  sessions : AList fun _ : ConsumerId => ℕ
  opened : ℕ
  forward : ConsumerId → ℕ → Option (List ℕ)
  handler : ℕ → Handler

namespace Service

def new (numShards : UInt32) : Service :=
  ⟨.new numShards, ∅, 0, fun _ _ => none, fun _ => .idle⟩

variable (w : Service)

def set (i : ℕ) (h : Handler) : Service :=
  { w with handler := Function.update w.handler i h }

/-- `set_forward` and `abort_forward`: the task that a session holds. -/
def setForward (c : ConsumerId) (n : ℕ) (task : Option (List ℕ)) : Service :=
  { w with forward := fun c' n' => if c' = c ∧ n' = n then task else w.forward c' n' }

def remove (c : ConsumerId) : Service :=
  match w.sessions.lookup c with
  | some n => { w.setForward c n none with sessions := w.sessions.erase c }
  | none => w

/-- `Sessions::insert` of a new session. The forward task of the session in its place is
aborted. -/
def insert (c : ConsumerId) : Service :=
  let old := match w.sessions.lookup c with
    | some n => w.setForward c n none
    | none => w
  { old.setForward c w.opened none with
    sessions := w.sessions.insert c w.opened
    opened := w.opened + 1 }

/-- `Sessions::get_group`, in any order. -/
def Lists (sessions : List (ConsumerId × ℕ)) : Prop :=
  sessions.Perm (w.sessions.entries.map fun e => (e.1, e.2))

end Service

inductive ServiceEvent where
  | join (i : ℕ) (c : ConsumerId)
  | leave (i : ℕ) (c : ConsumerId)
  | consume (i : ℕ) (c : ConsumerId) (generation : UInt32)
  | insert (i : ℕ)
  | spawn (i : ℕ)
  | evictStale (i : ℕ)
  | evictRemove (i : ℕ)
  | evictLeave (i : ℕ)
  | list (i : ℕ)
  | snapshot (i : ℕ)
  | changed (i : ℕ)
  | skip (i : ℕ)
  | signal (i : ℕ)
  | gone (i : ℕ)
  | abort (i : ℕ)
  | resume (i : ℕ)
  | finish (i : ℕ)
  | deregister (c : ConsumerId)

/-- What an event does. A call that is refused changes nothing and has no event. -/
inductive ServiceTrans (key : GroupKey) : Service → ServiceEvent → Service → Prop where
  | join {w i c registry r}
      (hidle : w.handler i = .idle) (hjoin : w.registry.join key c = some (registry, r)) :
      ServiceTrans key w (.join i c) ({ w with registry := registry }.set i (.rebalance .start []))
  | leave {w i c registry}
      (hidle : w.handler i = .idle) (hleave : w.registry.leave key c = some (registry, true)) :
      ServiceTrans key w (.leave i c) ({ w with registry := registry }.set i (.rebalance .start []))
  | consume {w i c generation snap shards} (hidle : w.handler i = .idle)
      (hsnap : w.registry.groupSnapshot key = some snap) (hgeneration : snap.generation = generation)
      (hshards : snap.shards c = some shards) (hne : shards ≠ []) :
      ServiceTrans key w (.consume i c generation) (w.set i (.consuming c shards))
  | insert {w i c shards} (hhandler : w.handler i = .consuming c shards) :
      ServiceTrans key w (.insert i) ((w.insert c).set i (.opened c w.opened shards))
  | spawn {w i c n shards} (hhandler : w.handler i = .opened c n shards) :
      ServiceTrans key w (.spawn i) ((w.setForward c n (some shards)).set i .idle)
  | evictStale {w i stale} (hidle : w.handler i = .idle) (hstale : ∀ c ∈ stale, c ∈ w.sessions) :
      ServiceTrans key w (.evictStale i) (w.set i (.next stale))
  | evictRemove {w i c stale} (hhandler : w.handler i = .evict c stale) :
      ServiceTrans key w (.evictRemove i) ((w.remove c).set i (.evicting c stale))
  | evictLeave {w i c stale registry present} (hhandler : w.handler i = .evicting c stale)
      (hleave : w.registry.leave key c = some (registry, present)) :
      ServiceTrans key w (.evictLeave i)
        ({ w with registry := registry }.set i (.rebalance .start stale))
  -- `rebalance_group`
  | listEmpty {w i stale}
      (hhandler : w.handler i = .rebalance .start stale) (hempty : w.sessions = ∅) :
      ServiceTrans key w (.list i) (w.set i (.next stale))
  | list {w i stale sessions}
      (hhandler : w.handler i = .rebalance .start stale) (hlists : w.Lists sessions)
      (hne : w.sessions ≠ ∅) :
      ServiceTrans key w (.list i) (w.set i (.rebalance (.listed sessions) stale))
  | snapshotNone {w i stale sessions} (hhandler : w.handler i = .rebalance (.listed sessions) stale)
      (hsnap : w.registry.groupSnapshot key = none) :
      ServiceTrans key w (.snapshot i) (w.set i (.next stale))
  | snapshot {w i stale sessions snap} (hhandler : w.handler i = .rebalance (.listed sessions) stale)
      (hsnap : w.registry.groupSnapshot key = some snap) :
      ServiceTrans key w (.snapshot i) (w.set i (.rebalance (.snapped sessions snap) stale))
  | changed {w i stale sessions snap}
      (hhandler : w.handler i = .rebalance (.snapped sessions snap) stale) :
      ServiceTrans key w (.changed i)
        (w.set i (.rebalance (.loop sessions snap (w.registry.lastChanged key)) stale))
  | skip {w i stale c n sessions snap changed}
      (hhandler : w.handler i = .rebalance (.loop ((c, n) :: sessions) snap changed) stale)
      (hsame : c ∉ changed) :
      ServiceTrans key w (.skip i) (w.set i (.rebalance (.loop sessions snap changed) stale))
  | signal {w i stale c n sessions snap changed}
      (hhandler : w.handler i = .rebalance (.loop ((c, n) :: sessions) snap changed) stale)
      (hchanged : c ∈ changed) : ServiceTrans key w (.signal i) (w.set i (.rebalance
          (.signalled c n ((snap.shards c).getD []) sessions snap changed) stale))
  -- the consumer is gone: the signal could not be sent
  | gone {w i stale c n sessions snap changed}
      (hhandler : w.handler i = .rebalance (.loop ((c, n) :: sessions) snap changed) stale)
      (hchanged : c ∈ changed) : ServiceTrans key w (.gone i)
        ((w.remove c).set i (.rebalance (.loop sessions snap changed) stale))
  | abort {w i stale c n shards sessions snap changed}
      (hhandler : w.handler i = .rebalance (.signalled c n shards sessions snap changed) stale)
      (hne : shards ≠ []) : ServiceTrans key w (.abort i) ((w.setForward c n none).set i
          (.rebalance (.aborted c n shards sessions snap changed) stale))
  -- without shards the assignment is sent, and nothing is spawned
  | abortLast {w i stale c n sessions snap changed}
      (hhandler : w.handler i = .rebalance (.signalled c n [] sessions snap changed) stale) :
      ServiceTrans key w (.abort i)
        ((w.setForward c n none).set i (.rebalance (.loop sessions snap changed) stale))
  | resume {w i stale c n shards sessions snap changed}
      (hhandler : w.handler i = .rebalance (.aborted c n shards sessions snap changed) stale) :
      ServiceTrans key w (.resume i)
        ((w.setForward c n (some shards)).set i (.rebalance (.loop sessions snap changed) stale))
  | finish {w i stale snap changed}
      (hhandler : w.handler i = .rebalance (.loop [] snap changed) stale) :
      ServiceTrans key w (.finish i) (w.set i (.next stale))
  -- a forward task of the consumer ends, perhaps one that was replaced while it ended
  | deregister {w c} : ServiceTrans key w (.deregister c) (w.remove c)

def ServiceReachable (key : GroupKey) (numShards : UInt32) (ok : Service → ServiceEvent → Prop)
    (w : Service) : Prop :=
  Relation.ReflTransGen (fun w w' => ∃ ev, ok w ev ∧ ServiceTrans key w ev w') (.new numShards) w

end LogDb.Broker
