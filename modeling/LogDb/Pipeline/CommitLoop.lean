import LogDb.Pipeline.Published

/-!
The loop of `run_committer` over all shards; every test and every load of the loop is a step of its
own. The triggers that depend on time and on sizes are left open, and so is which appends and fsyncs
fail. The cursors that the loop keeps for itself are the shared ones, which nobody else writes.
-/

namespace LogDb.Pipeline

open Lib Format Function

/-- What an iteration found at its beginning. -/
structure LoopFlags where
  uncommitted : Bool
  unsynced : Bool
  needCommit : Bool
  needSync : Bool

/-- `fully_idle`. -/
def LoopFlags.idle (f : LoopFlags) : Bool :=
  !f.uncommitted && !f.unsynced && !f.needCommit && !f.needSync

/-- Where the loop stands. `poll k` has found nothing available in the shards below `k`; the three
tests of the flush request also go through the shards; `choose` has looked at `i` shards. -/
inductive LoopPc where
  | poll (k : ℕ)
  | pending (uncommitted unsynced : Bool) (k : ℕ)
  | needCommit (uncommitted unsynced : Bool) (k : ℕ)
  | needSync (uncommitted unsynced needCommit : Bool) (k : ℕ)
  | flagged (f : LoopFlags)
  | idle
  | choose (f : LoopFlags) (startShard i : ℕ)
  | noChoice (f : LoopFlags)
  | available (f : LoopFlags) (si : ℕ)
  | commit (f : LoopFlags) (si : ℕ)
  | fsync (f : LoopFlags)
  | syncing (f : LoopFlags)
  | finish (f : LoopFlags)
  | returned

structure LoopState where
  db : DbState
  pc : LoopPc
  currentShard : ℕ

def minOver (n : ℕ) (f : ℕ → ℕ) : ℕ :=
  ((List.range n).map f).min?.getD 0

def maxOver (n : ℕ) (f : ℕ → ℕ) : ℕ :=
  ((List.range n).map f).max?.getD 0

namespace DbState

variable (cfg : DbConfig) (s : DbState)

def committed (k : ℕ) : ℕ :=
  (s.rings k).committedCursor

def hasAnyUnsynced : Bool :=
  (List.range cfg.shards).any fun k => s.durable k < s.committed k

/-- `FlushSignal::target`; without a request it is `u64::MAX`. -/
def flushTarget (k : ℕ) : ℕ :=
  (s.targets k).getD (2 ^ 64 - 1)

/-- The test before the loop returns from an idle iteration. -/
def Drained : Prop :=
  s.phase ≠ .run ∧ minOver cfg.shards s.committed ≤ minOver cfg.shards s.durable

/-- `available_hi` has returned. -/
def endScan (k : ℕ) : DbState :=
  s.setRing k { s.rings k with committer := .idle }

end DbState

/-- The shard that `available_hi` is computed for. -/
def LoopState.polled (cfg : DbConfig) (s : LoopState) : Option ℕ :=
  match s.pc with
  | .poll k => if k < cfg.shards then some k else none
  | .choose _ _ i => if i < cfg.shards then some s.currentShard else none
  | .available _ si => some si
  | _ => none

section

variable {cfg : DbConfig} {s : LoopState} {f : LoopFlags} {a k : ℕ}

theorem LoopState.polled_poll (h : s.pc = .poll k) :
    s.polled cfg = if k < cfg.shards then some k else none := by
  rw [polled, h]

theorem LoopState.polled_choose (h : s.pc = .choose f a k) :
    s.polled cfg = if k < cfg.shards then some s.currentShard else none := by
  rw [polled, h]

theorem LoopState.polled_available (h : s.pc = .available f k) : s.polled cfg = some k := by
  rw [polled, h]

end

def DbConfig.loopInit (cfg : DbConfig) : LoopState where
  db := cfg.init
  pc := .poll 0
  currentShard := 0

/-- The other threads move. -/
inductive OtherStep (C : Crates) (cfg : DbConfig) : DbState → DbState → Prop where
  | append {s s'} (t : ℕ) (h : AppendStep cfg t s s') : OtherStep C cfg s s'
  | barrier {s s'} (t : ℕ) (h : BarrierStep cfg t s s') : OtherStep C cfg s s'
  | sealer {s} (k : ℕ) (r : RingState) (hk : k < cfg.shards)
      (hstep : SealerStep C (cfg.ring k) (s.rings k) r) : OtherStep C cfg s (s.setRing k r)
  | abort {s} : OtherStep C cfg s { s with phase := .abort }

/-- One more step of `available_hi`: the sealed cursor is loaded, or one more slot is looked at. -/
inductive ScanStep (cfg : DbConfig) : LoopState → LoopState → Prop where
  | scan {s} (k : ℕ) (r : RingState) (hpoll : s.polled cfg = some k)
      (hstep : CommitterStep (cfg.ring k) (s.db.rings k) r)
      (hscan : (∃ cur, r.committer = .scan cur) ∨ ∃ avail, r.committer = .batch avail) :
      ScanStep cfg s { s with db := s.db.setRing k r }

/-- The flags at the beginning of an iteration. -/
inductive FlagStep (cfg : DbConfig) : LoopState → LoopState → Prop where
  | pollYes {s} (k avail : ℕ) (hpc : s.pc = .poll k) (hk : k < cfg.shards)
      (havail : (s.db.rings k).committer = .batch avail) (hmore : s.db.committed k < avail) :
      FlagStep cfg s { s with
        db := s.db.endScan k, pc := .pending true (s.db.hasAnyUnsynced cfg) 0 }
  | pollNo {s} (k avail : ℕ) (hpc : s.pc = .poll k) (hk : k < cfg.shards)
      (havail : (s.db.rings k).committer = .batch avail) (hnone : avail ≤ s.db.committed k) :
      FlagStep cfg s { s with db := s.db.endScan k, pc := .poll (k + 1) }
  | pollEnd {s} (k : ℕ) (hpc : s.pc = .poll k) (hk : cfg.shards ≤ k) :
      FlagStep cfg s { s with pc := .pending false (s.db.hasAnyUnsynced cfg) 0 }
  | pendingYes {s} (u y : Bool) (k : ℕ) (hpc : s.pc = .pending u y k) (hk : k < cfg.shards)
      (htarget : s.db.targets k ≠ none) : FlagStep cfg s { s with pc := .needCommit u y 0 }
  | pendingNo {s} (u y : Bool) (k : ℕ) (hpc : s.pc = .pending u y k) (hk : k < cfg.shards)
      (htarget : s.db.targets k = none) : FlagStep cfg s { s with pc := .pending u y (k + 1) }
  | pendingEnd {s} (u y : Bool) (k : ℕ) (hpc : s.pc = .pending u y k) (hk : cfg.shards ≤ k) :
      FlagStep cfg s { s with pc := .flagged ⟨u, y, false, false⟩ }
  | needCommitYes {s} (u y : Bool) (k : ℕ) (hpc : s.pc = .needCommit u y k) (hk : k < cfg.shards)
      (htarget : s.db.committed k < s.db.flushTarget k) :
      FlagStep cfg s { s with pc := .needSync u y true 0 }
  | needCommitNo {s} (u y : Bool) (k : ℕ) (hpc : s.pc = .needCommit u y k) (hk : k < cfg.shards)
      (htarget : s.db.flushTarget k ≤ s.db.committed k) :
      FlagStep cfg s { s with pc := .needCommit u y (k + 1) }
  | needCommitEnd {s} (u y : Bool) (k : ℕ) (hpc : s.pc = .needCommit u y k)
      (hk : cfg.shards ≤ k) : FlagStep cfg s { s with pc := .needSync u y false 0 }
  | needSyncYes {s} (u y c : Bool) (k : ℕ) (hpc : s.pc = .needSync u y c k) (hk : k < cfg.shards)
      (htarget : s.db.durable k < s.db.flushTarget k) :
      FlagStep cfg s { s with pc := .flagged ⟨u, y, c, true⟩ }
  | needSyncNo {s} (u y c : Bool) (k : ℕ) (hpc : s.pc = .needSync u y c k) (hk : k < cfg.shards)
      (htarget : s.db.flushTarget k ≤ s.db.durable k) :
      FlagStep cfg s { s with pc := .needSync u y c (k + 1) }
  | needSyncEnd {s} (u y c : Bool) (k : ℕ) (hpc : s.pc = .needSync u y c k)
      (hk : cfg.shards ≤ k) : FlagStep cfg s { s with pc := .flagged ⟨u, y, c, false⟩ }

/-- The rest of an iteration up to the commit, with the first two places where the loop returns. -/
inductive ChoiceStep (cfg : DbConfig) : LoopState → LoopState → Prop where
  | idle {s} (f : LoopFlags) (hpc : s.pc = .flagged f) (hidle : f.idle = true) :
      ChoiceStep cfg s { s with pc := .idle }
  | busy {s} (f : LoopFlags) (hpc : s.pc = .flagged f) (hbusy : f.idle = false) :
      ChoiceStep cfg s { s with pc := .choose f s.currentShard 0 }
  | returnIdle {s} (hpc : s.pc = .idle) (hdrained : s.db.Drained cfg) :
      ChoiceStep cfg s { s with pc := .returned }
  | continueIdle {s} (hpc : s.pc = .idle) (hdrained : ¬ s.db.Drained cfg) :
      ChoiceStep cfg s { s with pc := .poll 0 }
  | chosen {s} (f : LoopFlags) (startShard i avail : ℕ) (hpc : s.pc = .choose f startShard i)
      (hi : i < cfg.shards) (havail : (s.db.rings s.currentShard).committer = .batch avail)
      (hmore : s.db.committed s.currentShard < avail) :
      ChoiceStep cfg s
        { db := s.db.endScan s.currentShard
          pc := .available f s.currentShard
          currentShard := (s.currentShard + 1) % cfg.shards }
  | notChosen {s} (f : LoopFlags) (startShard i avail : ℕ) (hpc : s.pc = .choose f startShard i)
      (hi : i < cfg.shards) (havail : (s.db.rings s.currentShard).committer = .batch avail)
      (hnone : avail ≤ s.db.committed s.currentShard) :
      ChoiceStep cfg s
        { db := s.db.endScan s.currentShard
          pc := .choose f startShard (i + 1)
          currentShard := (s.currentShard + 1) % cfg.shards }
  | chooseStart {s} (f : LoopFlags) (startShard i : ℕ) (hpc : s.pc = .choose f startShard i)
      (hi : cfg.shards ≤ i) (hunsynced : f.unsynced = true) :
      ChoiceStep cfg s { s with pc := .available f startShard }
  | chooseNone {s} (f : LoopFlags) (startShard i : ℕ) (hpc : s.pc = .choose f startShard i)
      (hi : cfg.shards ≤ i) (hunsynced : f.unsynced = false) :
      ChoiceStep cfg s { s with pc := .noChoice f }
  | returnChoice {s} (f : LoopFlags) (hpc : s.pc = .noChoice f) (hdrained : s.db.Drained cfg) :
      ChoiceStep cfg s { s with pc := .returned }
  | continueChoice {s} (f : LoopFlags) (hpc : s.pc = .noChoice f)
      (hdrained : ¬ s.db.Drained cfg) : ChoiceStep cfg s { s with pc := .poll 0 }

/-- The commit. A commit that a flush or the drain asks for is not put off; a batch that does not fit
rolls the segment, which like an error ends the iteration. -/
inductive CommitStep (cfg : DbConfig) : LoopState → LoopState → Prop where
  | begin {s} (f : LoopFlags) (si avail upto : ℕ) (hpc : s.pc = .available f si)
      (havail : (s.db.rings si).committer = .batch avail) (huncommitted : f.uncommitted = true)
      (hge : s.db.committed si ≤ upto) (hlt : upto < avail) :
      CommitStep cfg s { s with
        db := s.db.setRing si
          { s.db.rings si with committer := .read (s.db.committed si) upto }
        pc := .commit f si }
  | skip {s} (f : LoopFlags) (si avail : ℕ) (hpc : s.pc = .available f si)
      (havail : (s.db.rings si).committer = .batch avail)
      (hskip : f.uncommitted = true → s.db.committed si < avail →
        f.needCommit = false ∧ s.db.phase = .run) :
      CommitStep cfg s { s with db := s.db.endScan si, pc := .fsync f }
  | work {s} (f : LoopFlags) (si : ℕ) (r : RingState) (hpc : s.pc = .commit f si)
      (hstep : CommitterStep (cfg.ring si) (s.db.rings si) r) (hbusy : r.committer ≠ .idle) :
      CommitStep cfg s { s with db := s.db.setRing si r }
  | stored {s} (f : LoopFlags) (si next : ℕ) (hpc : s.pc = .commit f si)
      (hstore : (s.db.rings si).committer = .store next) :
      CommitStep cfg s { s with
        db := s.db.setRing si
          { s.db.rings si with committedCursor := next, committer := .idle }
        pc := .fsync f }
  | failed {s} (f : LoopFlags) (si : ℕ) (hpc : s.pc = .commit f si)
      (hfail : (∃ cur upto, (s.db.rings si).committer = .taken cur upto) ∨
        ∃ next, (s.db.rings si).committer = .store next) :
      CommitStep cfg s { s with db := s.db.endScan si, pc := .poll 0 }

/-- The fsync of all shards, and the end of the iteration with the last place where the loop
returns. -/
inductive FsyncStep (cfg : DbConfig) : LoopState → LoopState → Prop where
  | skip {s} (f : LoopFlags) (hpc : s.pc = .fsync f) : FsyncStep cfg s { s with pc := .finish f }
  | failed {s} (f : LoopFlags) (hpc : s.pc = .fsync f)
      (hneed : minOver cfg.shards s.db.durable < maxOver cfg.shards s.db.committed) :
      FsyncStep cfg s { s with pc := .poll 0 }
  | synced {s} (f : LoopFlags) (hpc : s.pc = .fsync f)
      (hneed : minOver cfg.shards s.db.durable < maxOver cfg.shards s.db.committed) :
      FsyncStep cfg s { s with db := { s.db with sync := .store 0 }, pc := .syncing f }
  | storeDurable {s} (f : LoopFlags) (k : ℕ) (hpc : s.pc = .syncing f)
      (hsync : s.db.sync = .store k) :
      FsyncStep cfg s { s with
        db := { s.db with
          durable := update s.db.durable k (s.db.committed k)
          sync := .complete k } }
  | complete {s} (f : LoopFlags) (k : ℕ) (hpc : s.pc = .syncing f)
      (hsync : s.db.sync = .complete k) :
      FsyncStep cfg s { s with
        db := { s.db with
          completed := update s.db.completed k (max (s.db.completed k) (s.db.durable k))
          sync := if k + 1 < cfg.shards then .store (k + 1) else .idle } }
  | syncEnd {s} (f : LoopFlags) (hpc : s.pc = .syncing f) (hsync : s.db.sync = .idle) :
      FsyncStep cfg s { s with pc := .finish f }
  | returnEnd {s} (f : LoopFlags) (hpc : s.pc = .finish f) (hphase : s.db.phase ≠ .run)
      (huncommitted : f.uncommitted = false) (hunsynced : f.unsynced = false) :
      FsyncStep cfg s { s with pc := .returned }
  | continueEnd {s} (f : LoopFlags) (hpc : s.pc = .finish f)
      (hgo : s.db.phase = .run ∨ f.uncommitted = true ∨ f.unsynced = true) :
      FsyncStep cfg s { s with pc := .poll 0 }

inductive LoopStep (C : Crates) (cfg : DbConfig) : LoopState → LoopState → Prop where
  | other {s db} (h : OtherStep C cfg s.db db) : LoopStep C cfg s { s with db := db }
  | scan {s s'} (h : ScanStep cfg s s') : LoopStep C cfg s s'
  | flag {s s'} (h : FlagStep cfg s s') : LoopStep C cfg s s'
  | choice {s s'} (h : ChoiceStep cfg s s') : LoopStep C cfg s s'
  | commit {s s'} (h : CommitStep cfg s s') : LoopStep C cfg s s'
  | fsync {s s'} (h : FsyncStep cfg s s') : LoopStep C cfg s s'

def LoopReachable (C : Crates) (cfg : DbConfig) (s : LoopState) : Prop :=
  Relation.ReflTransGen (LoopStep C cfg) cfg.loopInit s

end LogDb.Pipeline
