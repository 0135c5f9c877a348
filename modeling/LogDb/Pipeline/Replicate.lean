import LogDb.Pipeline.Ring

/-!
`LogDb::replicate` on the ring of a database with one shard. Calls come one after the other; the
sealer and the committer take their steps in between, also in the middle of a call. As in the ring,
a call that would take the cursor out of `u64` is not a step.
-/

namespace LogDb.Pipeline

open Lib Format

inductive AppendError where
  | queueFull
  | contentTooLarge (size max : ℕ)
  | diskFull
  | io (message : String)
  | shuttingDown
  deriving DecidableEq

def healthDiskFull : UInt8 := 1

structure ReplicateCall where
  sequence : ℕ
  timestampNs : UInt64
  content : Bytes

namespace ReplicateCall

section

variable (c : ReplicateCall)

/-- The record id is the sequence itself. -/
def payload : Payload :=
  ⟨UInt64.ofNat c.sequence, c.timestampNs, c.content⟩

/-- What the call checks before it looks at the ring: the answers of the health check and of
`ShutdownState::enter` are given. -/
def check (numShards maxContentSize : ℕ) (health : Option UInt8)
    (entered : Bool) : Except AppendError Unit :=
  if numShards ≠ 1 then .error (.io "replicate requires shards=1")
  else if maxContentSize < c.content.length then
    .error (.contentTooLarge c.content.length maxContentSize)
  else match health with
    | some code =>
      .error (if code = healthDiskFull then .diskFull else .io "health check failed")
    | none => if entered then .ok () else .error .shuttingDown

def outOfOrder (cur : ℕ) : AppendError :=
  .io s!"replicate out of order: expected {cur}, got {c.sequence}"

end

end ReplicateCall

inductive ReplicatePc where
  | idle
  | loadCursor (c : ReplicateCall)
  | loadCommitted (c : ReplicateCall)
  | loadSealed (c : ReplicateCall) (committed : ℕ)
  | gate (c : ReplicateCall) (wm : ℕ)
  | write (c : ReplicateCall)
  | publish (c : ReplicateCall)
  | store (c : ReplicateCall)

/-- A call that has returned, with the ring as it found and as it left it. -/
structure Replicated where
  call : ReplicateCall
  before : RingState
  result : Except AppendError Unit
  after : RingState

/-- The ring and the current call; `callStart` and `returned` are history. -/
structure ReplicaState where
  ring : RingState
  pc : ReplicatePc
  callStart : RingState
  returned : List Replicated

namespace ReplicaState

def init (cfg : RingConfig) : ReplicaState where
  ring := cfg.init
  pc := .idle
  callStart := cfg.init
  returned := []

def goto (st : ReplicaState) (pc : ReplicatePc) : ReplicaState :=
  { st with pc := pc }

def finish (st : ReplicaState) (c : ReplicateCall) (result : Except AppendError Unit)
    (ring : RingState) : ReplicaState :=
  { st with
    ring := ring
    pc := .idle
    returned := st.returned ++ [⟨c, st.callStart, result, ring⟩] }

end ReplicaState

inductive ReplicateStep (cfg : RingConfig) : ReplicaState → ReplicaState → Prop where
  | refused {st} (c : ReplicateCall) (health : Option UInt8) (entered : Bool) (e : AppendError)
      (hpc : st.pc = .idle) (hcheck : c.check 1 cfg.maxContentSize health entered = .error e) :
      ReplicateStep cfg st ({ st with callStart := st.ring }.finish c (.error e) st.ring)
  | start {st} (c : ReplicateCall) (health : Option UInt8) (entered : Bool)
      (hpc : st.pc = .idle) (hcheck : c.check 1 cfg.maxContentSize health entered = .ok ()) :
      ReplicateStep cfg st { st with callStart := st.ring, pc := .loadCursor c }
  | duplicate {st} (c : ReplicateCall) (hpc : st.pc = .loadCursor c)
      (hlt : c.sequence < st.ring.producerCursor) :
      ReplicateStep cfg st (st.finish c (.ok ()) st.ring)
  | outOfOrder {st} (c : ReplicateCall) (hpc : st.pc = .loadCursor c)
      (hlt : st.ring.producerCursor < c.sequence) :
      ReplicateStep cfg st (st.finish c (.error (c.outOfOrder st.ring.producerCursor)) st.ring)
  | inOrder {st} (c : ReplicateCall) (hpc : st.pc = .loadCursor c)
      (heq : c.sequence = st.ring.producerCursor) (hspace : c.sequence + 2 < 2 ^ 64) :
      ReplicateStep cfg st (st.goto (.loadCommitted c))
  | loadCommitted {st} (c : ReplicateCall) (hpc : st.pc = .loadCommitted c) :
      ReplicateStep cfg st (st.goto
        (if cfg.hashEnabled then .loadSealed c st.ring.committedCursor
          else .gate c st.ring.committedCursor))
  | loadSealed {st} (c : ReplicateCall) (committed : ℕ) (hpc : st.pc = .loadSealed c committed) :
      ReplicateStep cfg st (st.goto (.gate c (min committed st.ring.sealedCursor)))
  | full {st} (c : ReplicateCall) (wm : ℕ) (hpc : st.pc = .gate c wm)
      (hfull : cfg.ringSize ≤ wrappingSub c.sequence wm) :
      ReplicateStep cfg st (st.finish c (.error .queueFull) st.ring)
  | pass {st} (c : ReplicateCall) (wm : ℕ) (hpc : st.pc = .gate c wm)
      (hroom : wrappingSub c.sequence wm < cfg.ringSize) :
      ReplicateStep cfg st (st.goto (.write c))
  | write {st} (c : ReplicateCall) (hpc : st.pc = .write c) :
      ReplicateStep cfg st { st with
        ring := st.ring.writeSlot cfg c.sequence c.payload, pc := .publish c }
  | publish {st} (c : ReplicateCall) (hpc : st.pc = .publish c) :
      ReplicateStep cfg st { st with ring := st.ring.publishSlot cfg c.sequence, pc := .store c }
  | store {st} (c : ReplicateCall) (hpc : st.pc = .store c) :
      ReplicateStep cfg st
        (st.finish c (.ok ()) { st.ring with producerCursor := c.sequence + 1 })

inductive ConsumerStep (C : Crates) (cfg : RingConfig) : RingState → RingState → Prop where
  | sealer {s s'} (h : SealerStep C cfg s s') : ConsumerStep C cfg s s'
  | committer {s s'} (h : CommitterStep cfg s s') : ConsumerStep C cfg s s'

inductive ReplicaStep (C : Crates) (cfg : RingConfig) : ReplicaState → ReplicaState → Prop where
  | replicate {st st'} (h : ReplicateStep cfg st st') : ReplicaStep C cfg st st'
  | consume {st} {ring : RingState} (h : ConsumerStep C cfg st.ring ring) :
      ReplicaStep C cfg st { st with ring := ring }

def ReplicaReachable (C : Crates) (cfg : RingConfig) (st : ReplicaState) : Prop :=
  Relation.ReflTransGen (ReplicaStep C cfg) (.init cfg) st

end LogDb.Pipeline
