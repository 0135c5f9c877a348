import LogDb.Pipeline.Ring

/-!
The database as a step relation: callers of `append`, `append_batch`, `flush` and `drain`, one
ring for each shard with its sealer, and the committer with its fsync pass. Health checks, time-outs
and the committer's own scheduling are left open. The committer's work on different rings may
interleave here, which only adds runs.
-/

namespace LogDb.Pipeline

open Lib Format Function

structure DbConfig where
  shards : ℕ
  shards_pos : 0 < shards
  hashEnabled : Bool
  ring : ℕ → RingConfig

/-- The phase of `ShutdownState`: 0, 1 and 2. -/
inductive Phase where
  | run
  | drain
  | abort
  deriving DecidableEq

/-- An append that claimed `count` sequences of a shard from `first` on. -/
structure Appended where
  shard : ℕ
  first : ℕ
  count : ℕ

/-- `flush` and `drain` both wait for a snapshot of the producer cursors. A flush remembers which
appends had returned when it was called. -/
inductive Purpose where
  | flush (before : List Appended)
  | drain

/-- Where a caller stands. `entered` has counted itself and not yet looked at the phase. -/
inductive Caller where
  | idle
  | entered (shard : ℕ)
  | backingOut
  | appending (shard : ℕ)
  | leaving (result : Option Appended)
  | drainWait
  | snapshot (p : Purpose) (targets : List ℕ)
  | awaitSealed (before : List Appended) (targets : List ℕ)
  | storeTarget (targets : List ℕ)
  | request (p : Purpose) (targets : List ℕ) (k : ℕ)
  | wait (p : Purpose) (targets : List ℕ) (k : ℕ)
  | succeeded (p : Purpose)
  | failed

/-- The fsync pass of the committer: for each shard the durable cursor, then the completion. -/
inductive SyncPc where
  | idle
  | store (k : ℕ)
  | complete (k : ℕ)

structure DbState where
  rings : ℕ → RingState
  durable : ℕ → ℕ
  phase : Phase
  inFlight : ℕ
  drainTarget : Option ℕ
  targets : ℕ → Option ℕ
  completed : ℕ → ℕ
  sync : SyncPc
  callers : ℕ → Caller
  returned : List Appended

def DbConfig.init (cfg : DbConfig) : DbState where
  rings k := (cfg.ring k).init
  durable k := (cfg.ring k).initial
  phase := .run
  inFlight := 0
  drainTarget := none
  targets _ := none
  completed _ := 0
  sync := .idle
  callers _ := .idle
  returned := []

namespace DbState

variable (s : DbState)

def setCaller (t : ℕ) (c : Caller) : DbState :=
  { s with callers := update s.callers t c }

def setRing (k : ℕ) (r : RingState) : DbState :=
  { s with rings := update s.rings k r }

def producerCursor (k : ℕ) : ℕ :=
  (s.rings k).producerCursor

/-- `FlushSignal::request` for one shard. -/
def requestTarget (k target : ℕ) : DbState :=
  { s with targets := update s.targets k (some (max ((s.targets k).getD target) target)) }

end DbState

/-- The steps of one call of `append` or `append_batch` by thread `t`. -/
inductive AppendStep (cfg : DbConfig) (t : ℕ) : DbState → DbState → Prop where
  | enter {s} (shard : ℕ) (hpc : s.callers t = .idle) (hshard : shard < cfg.shards) :
      AppendStep cfg t s { s.setCaller t (.entered shard) with inFlight := s.inFlight + 1 }
  | admitted {s} (shard : ℕ) (hpc : s.callers t = .entered shard) (hphase : s.phase = .run) :
      AppendStep cfg t s (s.setCaller t (.appending shard))
  | rejected {s} (shard : ℕ) (hpc : s.callers t = .entered shard) (hphase : s.phase ≠ .run) :
      AppendStep cfg t s (s.setCaller t .backingOut)
  | backOut {s} (hpc : s.callers t = .backingOut) :
      AppendStep cfg t s { s.setCaller t .idle with inFlight := s.inFlight - 1 }
  | produce {s} (shard : ℕ) (r : RingState) (hpc : s.callers t = .appending shard)
      (hstep : ProducerStep (cfg.ring shard) t (s.rings shard) r)
      (hbusy : r.producers t ≠ .idle) : AppendStep cfg t s (s.setRing shard r)
  | finished {s} (shard : ℕ) (req : Request) (seq : ℕ) (hpc : s.callers t = .appending shard)
      (hring : (s.rings shard).producers t = .claimed req seq) :
      AppendStep cfg t s
        ((s.setRing shard ((s.rings shard).setProducer t .idle)).setCaller t
          (.leaving (some ⟨shard, seq, req.contents.length⟩)))
  | refused {s} (shard : ℕ) (hpc : s.callers t = .appending shard)
      (hring : (s.rings shard).producers t = .queueFull) :
      AppendStep cfg t s
        ((s.setRing shard ((s.rings shard).setProducer t .idle)).setCaller t (.leaving none))
  | leave {s} (result : Option Appended) (hpc : s.callers t = .leaving result) :
      AppendStep cfg t s
        { s.setCaller t .idle with
          inFlight := s.inFlight - 1
          returned := s.returned ++ result.toList }

/-- The steps of one call of `flush` or `drain` by thread `t`. -/
inductive BarrierStep (cfg : DbConfig) (t : ℕ) : DbState → DbState → Prop where
  | flush {s} (hpc : s.callers t = .idle) :
      BarrierStep cfg t s (s.setCaller t (.snapshot (.flush s.returned) []))
  | startDrain {s} (hpc : s.callers t = .idle) :
      BarrierStep cfg t s { s.setCaller t .drainWait with phase := .drain }
  | observed {s} (hpc : s.callers t = .drainWait) (hzero : s.inFlight = 0) :
      BarrierStep cfg t s (s.setCaller t (.snapshot .drain []))
  | drainTimeout {s} (hpc : s.callers t = .drainWait) (hbusy : s.inFlight ≠ 0) :
      BarrierStep cfg t s { s.setCaller t .failed with phase := .abort }
  | load {s} (p : Purpose) (targets : List ℕ) (hpc : s.callers t = .snapshot p targets)
      (hmore : targets.length < cfg.shards) :
      BarrierStep cfg t s
        (s.setCaller t (.snapshot p (targets ++ [s.producerCursor targets.length])))
  | flushEmpty {s} (before : List Appended) (targets : List ℕ)
      (hpc : s.callers t = .snapshot (.flush before) targets)
      (hall : targets.length = cfg.shards) (hzero : ∀ target ∈ targets, target = 0) :
      BarrierStep cfg t s (s.setCaller t (.succeeded (.flush before)))
  | flushLoaded {s} (before : List Appended) (targets : List ℕ)
      (hpc : s.callers t = .snapshot (.flush before) targets)
      (hall : targets.length = cfg.shards) (hsome : ∃ target ∈ targets, target ≠ 0) :
      BarrierStep cfg t s
        (s.setCaller t
          (if cfg.hashEnabled then .awaitSealed before targets
            else .request (.flush before) targets 0))
  | sealedSeen {s} (before : List Appended) (targets : List ℕ) (target : ℕ)
      (hpc : s.callers t = .awaitSealed before targets) (htarget : targets[0]? = some target)
      (hsealed : target ≤ (s.rings 0).sealedCursor) :
      BarrierStep cfg t s (s.setCaller t (.request (.flush before) targets 0))
  | drainLoaded {s} (targets : List ℕ) (hpc : s.callers t = .snapshot .drain targets)
      (hall : targets.length = cfg.shards) :
      BarrierStep cfg t s (s.setCaller t (.storeTarget targets))
  | storeTarget {s} (targets : List ℕ) (hpc : s.callers t = .storeTarget targets) :
      BarrierStep cfg t s
        { s.setCaller t (.request .drain targets 0) with
          drainTarget := some (targets.foldr max 0) }
  | request {s} (p : Purpose) (targets : List ℕ) (k target : ℕ)
      (hpc : s.callers t = .request p targets k) (htarget : targets[k]? = some target) :
      BarrierStep cfg t s ((s.requestTarget k target).setCaller t (.request p targets (k + 1)))
  | requested {s} (p : Purpose) (targets : List ℕ)
      (hpc : s.callers t = .request p targets targets.length) :
      BarrierStep cfg t s (s.setCaller t (.wait p targets 0))
  | check {s} (p : Purpose) (targets : List ℕ) (k target : ℕ)
      (hpc : s.callers t = .wait p targets k) (htarget : targets[k]? = some target)
      (hdone : target ≤ s.completed k) :
      BarrierStep cfg t s (s.setCaller t (.wait p targets (k + 1)))
  | retry {s} (p : Purpose) (targets : List ℕ) (k target : ℕ)
      (hpc : s.callers t = .wait p targets k) (htarget : targets[k]? = some target)
      (hbehind : s.completed k < target) :
      BarrierStep cfg t s (s.setCaller t (.wait p targets 0))
  | done {s} (p : Purpose) (targets : List ℕ)
      (hpc : s.callers t = .wait p targets targets.length) :
      BarrierStep cfg t s (s.setCaller t (.succeeded p))
  | giveUp {s} (hpc : (∃ before targets, s.callers t = .awaitSealed before targets) ∨
        ∃ p targets k, s.callers t = .wait p targets k) :
      BarrierStep cfg t s (s.setCaller t .failed)
  | returned {s} (hpc : s.callers t = .failed ∨ ∃ p, s.callers t = .succeeded p) :
      BarrierStep cfg t s (s.setCaller t .idle)

/-- The background threads, and the abort when the handle is dropped. -/
inductive BackgroundStep (C : Crates) (cfg : DbConfig) : DbState → DbState → Prop where
  | sealer {s} (k : ℕ) (r : RingState) (hk : k < cfg.shards)
      (hstep : SealerStep C (cfg.ring k) (s.rings k) r) : BackgroundStep C cfg s (s.setRing k r)
  | commit {s} (k : ℕ) (r : RingState) (hk : k < cfg.shards) (hsync : s.sync = .idle)
      (hstep : CommitterStep (cfg.ring k) (s.rings k) r) : BackgroundStep C cfg s (s.setRing k r)
  | syncAll {s} (hsync : s.sync = .idle) : BackgroundStep C cfg s { s with sync := .store 0 }
  | storeDurable {s} (k : ℕ) (hsync : s.sync = .store k) :
      BackgroundStep C cfg s
        { s with
          durable := update s.durable k (s.rings k).committedCursor
          sync := .complete k }
  | complete {s} (k : ℕ) (hsync : s.sync = .complete k) :
      BackgroundStep C cfg s
        { s with
          completed := update s.completed k (max (s.completed k) (s.durable k))
          sync := if k + 1 < cfg.shards then .store (k + 1) else .idle }
  | abort {s} : BackgroundStep C cfg s { s with phase := .abort }

inductive DbStep (C : Crates) (cfg : DbConfig) : DbState → DbState → Prop where
  | append {s s'} (t : ℕ) (h : AppendStep cfg t s s') : DbStep C cfg s s'
  | barrier {s s'} (t : ℕ) (h : BarrierStep cfg t s s') : DbStep C cfg s s'
  | background {s s'} (h : BackgroundStep C cfg s s') : DbStep C cfg s s'

def DbReachable (C : Crates) (cfg : DbConfig) (s : DbState) : Prop :=
  Relation.ReflTransGen (DbStep C cfg) cfg.init s

end LogDb.Pipeline
