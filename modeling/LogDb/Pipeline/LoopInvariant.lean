import LogDb.Pipeline.LoopSafe

/-!
The invariant of the loop that makes its return safe. The loop decides on flags that it computed
before it looked at the phase, and it sees neither an append between claim and publish nor a record
that waits for its seal. A drain is safe if none of this is going on when it starts.
-/

namespace LogDb.Pipeline

open Lib Format Function LoopState

variable {a : DbState} {pc : LoopPc} {r : RingState} {current j k : ℕ}

/-- The two flags of the iteration that keep the loop from returning. -/
def LoopPc.found : LoopPc → Option (Bool × Bool)
  | .poll _ => none
  | .pending u y _ => some (u, y)
  | .needCommit u y _ => some (u, y)
  | .needSync u y _ _ => some (u, y)
  | .flagged f => some (f.uncommitted, f.unsynced)
  | .idle => some (false, false)
  | .choose f _ _ => some (f.uncommitted, f.unsynced)
  | .noChoice f => some (f.uncommitted, f.unsynced)
  | .available f _ => some (f.uncommitted, f.unsynced)
  | .commit f _ => some (f.uncommitted, f.unsynced)
  | .fsync f => some (f.uncommitted, f.unsynced)
  | .syncing f => some (f.uncommitted, f.unsynced)
  | .finish f => some (f.uncommitted, f.unsynced)
  | .returned => some (false, false)

def LoopState.AtHead (cfg : DbConfig) (s : LoopState) : Prop :=
  s.pc = .poll 0 ∧ ∀ k < cfg.shards, (s.db.rings k).committer = .idle

/-- No append is inside its ring, the sealers are not behind, and the loop is at its head or has
found work in this iteration. -/
structure LoopState.Calm (cfg : DbConfig) (s : LoopState) : Prop where
  noAppend : ∀ t k, s.db.callers t ≠ .appending k
  sealed : ∀ k < cfg.shards, (cfg.ring k).hashEnabled = true →
    s.db.producerCursor k ≤ (s.db.rings k).sealedCursor
  awake : s.AtHead cfg ∨ ∃ u y, s.pc.found = some (u, y) ∧ (u = true ∨ y = true)

/-- A step without abort that starts a drain only at a calm moment. -/
def CalmStep (C : Crates) (cfg : DbConfig) (s s' : LoopState) : Prop :=
  LoopStep C cfg s s' ∧ s'.db.phase ≠ .abort ∧
    (s.db.phase = .run → s'.db.phase ≠ .run → s.Calm cfg)

def CalmReachable (C : Crates) (cfg : DbConfig) (s : LoopState) : Prop :=
  Relation.ReflTransGen (CalmStep C cfg) cfg.loopInit s

section

variable (cfg : DbConfig) (s : DbState)

/-- A claimed sequence has gone all the way to stable storage. -/
def DbState.Settled (k m : ℕ) : Prop :=
  (s.rings k).published m = true ∧
    ((cfg.ring k).hashEnabled = true → m < (s.rings k).sealedCursor) ∧
    m < s.committed k ∧ m < s.durable k

def DbState.Available (k : ℕ) : Prop :=
  if (cfg.ring k).hashEnabled then s.committed k < (s.rings k).sealedCursor
  else (s.rings k).published (s.committed k) = true

/-- The shard has something to commit, and a poll in progress will not miss it. -/
def DbState.Reported (k : ℕ) : Prop :=
  s.Available cfg k ∧ ∀ avail, (s.rings k).committer = .batch avail → s.committed k < avail

end

/-- The first flag, while the loop still works on the others. -/
def LoopPc.flagging : LoopPc → Option Bool
  | .pending u _ _ => some u
  | .needCommit u _ _ => some u
  | .needSync u _ _ _ => some u
  | .flagged f => some f.uncommitted
  | _ => none

/-- The loop chooses a shard, failed to, or commits. -/
def LoopPc.choosing : LoopPc → Bool
  | .choose _ _ _ => true
  | .noChoice _ => true
  | .commit _ _ => true
  | _ => false

/-- The loop has no ring in its hands. -/
def LoopPc.outside : LoopPc → Bool
  | .poll _ => false
  | .choose _ _ _ => false
  | .available _ _ => false
  | .commit _ _ => false
  | _ => true

/-- If the iteration has found uncommitted records, the choice of the shard will find some too. -/
structure LoopState.WorkOk (cfg : DbConfig) (s : LoopState) : Prop where
  flagging : s.pc.flagging = some true → ∃ j < cfg.shards, s.db.Reported cfg j
  choose : ∀ f startShard i, s.pc = .choose f startShard i →
    s.currentShard = (startShard + i) % cfg.shards ∧
      (f.uncommitted = true → ∃ j < cfg.shards, s.db.Reported cfg j ∧
        ∀ i' < i, (startShard + i') % cfg.shards ≠ j)
  noChoice : ∀ f, s.pc = .noChoice f → f.uncommitted = false ∧ f.unsynced = false
  commit : ∀ f si, s.pc = .commit f si → f.uncommitted = true

/-- Where the ring of shard `k` stands in the loop's hands. -/
def LoopState.CommitterAt (cfg : DbConfig) (s : LoopState) (k : ℕ) : Prop :=
  (s.db.rings k).committer = .idle ∨
    (s.polled cfg = some k ∧ ((∃ cur, (s.db.rings k).committer = .scan cur ∧ s.db.committed k ≤ cur) ∨
      ∃ avail, (s.db.rings k).committer = .batch avail)) ∨
    ∃ f, s.pc = .commit f k

/-- After a drain began: what the shards polled in this iteration did not have to offer is not
there. -/
structure LoopState.DrainOk (cfg : DbConfig) (s : LoopState) : Prop where
  noAppend : ∀ t k, s.db.callers t ≠ .appending k
  sealed : ∀ k < cfg.shards, (cfg.ring k).hashEnabled = true →
    s.db.producerCursor k ≤ (s.db.rings k).sealedCursor
  polled : ∀ k, s.pc = .poll k → (∀ j < k, j < cfg.shards → s.db.producerCursor j ≤ s.db.committed j) ∧
    (k < cfg.shards → ∀ avail, (s.db.rings k).committer = .batch avail →
      s.db.producerCursor k ≤ avail)
  found : s.pc.found = some (false, false) →
    ∀ k < cfg.shards, s.db.producerCursor k ≤ s.db.committed k

structure LoopInv (C : Crates) (cfg : DbConfig) (s : LoopState) : Prop where
  base : LoopBase C cfg s
  committer : ∀ k < cfg.shards, s.CommitterAt cfg k
  work : s.WorkOk cfg
  synced : s.pc.found = some (false, false) →
    ∀ k < cfg.shards, s.db.committed k ≤ s.db.durable k
  drain : s.db.phase ≠ .run → s.DrainOk cfg

/-- What the other threads leave alone and what they only add to. -/
structure OtherKeeps (a b : DbState) : Prop where
  committer : ∀ k, (b.rings k).committer = (a.rings k).committer
  committed : ∀ k, b.committed k = a.committed k
  durable : b.durable = a.durable
  published : ∀ k m, (a.rings k).published m = true → (b.rings k).published m = true
  sealed : ∀ k, (a.rings k).sealedCursor ≤ (b.rings k).sealedCursor

section

variable {C : Crates} {cfg : DbConfig} {a b : DbState}

theorem OtherKeeps.of_rings (hr : b.rings = a.rings) (hd : b.durable = a.durable) :
    OtherKeeps a b := by
  constructor
  · intro k
    exact congrArg (fun r => (r k).committer) hr
  · intro k
    exact congrArg (fun r => (r k).committedCursor) hr
  · exact hd
  · intro k m hm
    rwa [show b.rings k = a.rings k from congrFun hr k]
  · intro k
    exact (congrArg (fun r => (r k).sealedCursor) hr).ge

/-- What relates the new ring to the old one, and each ring to itself, relates all rings. -/
theorem DbState.rings_setRing (P : RingState → RingState → Prop) (hk : P r (a.rings k))
    (hr : ∀ x, P x x) (j : ℕ) : P ((a.setRing k r).rings j) (a.rings j) := by
  show P (update a.rings k r j) (a.rings j)
  by_cases hj : j = k
  · subst hj
    rw [update_self]
    exact hk
  · rw [update_of_ne hj]
    exact hr _

theorem OtherKeeps.setRing (hr : r.committer = (a.rings k).committer)
    (hc : r.committedCursor = (a.rings k).committedCursor)
    (hp : ∀ m, (a.rings k).published m = true → r.published m = true)
    (hs : (a.rings k).sealedCursor ≤ r.sealedCursor) : OtherKeeps a (a.setRing k r) := by
  constructor
  · exact a.rings_setRing (fun x y => x.committer = y.committer) hr fun _ => rfl
  · exact a.rings_setRing (fun x y => x.committedCursor = y.committedCursor) hc fun _ => rfl
  · rfl
  · exact a.rings_setRing (fun x y => ∀ m, y.published m = true → x.published m = true) hp
      fun _ _ hm => hm
  · exact a.rings_setRing (fun x y => y.sealedCursor ≤ x.sealedCursor) hs fun _ => le_rfl

theorem OtherStep.keeps (h : OtherStep C cfg a b) (hn : DbInv C cfg a) : OtherKeeps a b := by
  cases h with
  | append t hs =>
    cases hs with
    | produce shard r hp hs hb =>
      have hmn : ∀ m, (a.rings shard).published m = true → r.published m = true := by
        intro m hm
        cases hs with
        | publish req seq ts i hp =>
          show update (a.rings shard).published (seq + i) true m = true
          by_cases heq : m = seq + i
          · rw [heq, update_self]
          · rwa [update_of_ne heq]
        | _ => exact hm
      cases hs <;> exact .setRing rfl rfl hmn le_rfl
    | finished shard req seq hp hr =>
      have hr := OtherKeeps.setRing (a := a) (k := shard)
        (r := (a.rings shard).setProducer t .idle) rfl rfl (fun _ hm => hm) le_rfl
      exact { hr with }
    | refused shard hp hr =>
      have hr := OtherKeeps.setRing (a := a) (k := shard)
        (r := (a.rings shard).setProducer t .idle) rfl rfl (fun _ hm => hm) le_rfl
      exact { hr with }
    | _ => exact .of_rings rfl rfl
  | barrier t hs => cases hs <;> exact .of_rings rfl rfl
  | sealer k r hk hs =>
    have hok := (hn.ring k).inv.sealer
    cases hs with
    | store hi hp =>
      rw [hp] at hok
      exact .setRing rfl rfl (fun _ hm => hm) hok.2.1
    | _ => exact .setRing rfl rfl (fun _ hm => hm) le_rfl
  | abort => exact .of_rings rfl rfl

/-- Another thread ends the running phase only by starting a drain or by an abort. -/
theorem OtherStep.drain_started (h : OtherStep C cfg a b) (hr : a.phase = .run)
    (hp : b.phase ≠ .run) (ha : b.phase ≠ .abort) :
    ∃ t, b = { a.setCaller t .drainWait with phase := .drain } := by
  cases h with
  | append t hs => cases hs <;> exact absurd hr hp
  | barrier t hs =>
    cases hs with
    | startDrain hc => exact ⟨t, rfl⟩
    | drainTimeout hc hb => exact absurd rfl ha
    | _ => exact absurd hr hp
  | sealer k r hk hs => exact absurd hr hp
  | abort => exact absurd rfl ha

theorem DbState.Reported.keep (h : a.Reported cfg k) (hg : OtherKeeps a b) : b.Reported cfg k := by
  obtain ⟨ha, hp⟩ := h
  constructor
  · unfold DbState.Available at *
    rw [hg.committed k]
    split_ifs at ha ⊢
    · exact ha.trans_le (hg.sealed k)
    · exact hg.published k _ ha
  · intro avail hb
    rw [hg.committed k]
    rw [hg.committer k] at hb
    exact hp avail hb

end

/-- The loop's own steps move no cursor, apart from the store that ends a commit. -/
structure LoopKeeps (a b : DbState) : Prop where
  committed : ∀ k, b.committed k = a.committed k
  cursor : ∀ k, b.producerCursor k = a.producerCursor k
  sealed : ∀ k, (b.rings k).sealedCursor = (a.rings k).sealedCursor
  published : ∀ k, (b.rings k).published = (a.rings k).published
  durable : ∀ k, a.durable k ≤ b.durable k
  callers : b.callers = a.callers
  phase : b.phase = a.phase

theorem LoopKeeps.refl (a : DbState) : LoopKeeps a a :=
  ⟨fun _ => rfl, fun _ => rfl, fun _ => rfl, fun _ => rfl, fun _ => le_rfl, rfl, rfl⟩

theorem LoopKeeps.setRing (ho : r.committedCursor = (a.rings k).committedCursor)
    (hc : r.producerCursor = (a.rings k).producerCursor)
    (hs : r.sealedCursor = (a.rings k).sealedCursor) (hp : r.published = (a.rings k).published) :
    LoopKeeps a (a.setRing k r) := by
  constructor
  · exact a.rings_setRing (fun x y => x.committedCursor = y.committedCursor) ho fun _ => rfl
  · exact a.rings_setRing (fun x y => x.producerCursor = y.producerCursor) hc fun _ => rfl
  · exact a.rings_setRing (fun x y => x.sealedCursor = y.sealedCursor) hs fun _ => rfl
  · exact a.rings_setRing (fun x y => x.published = y.published) hp fun _ => rfl
  · exact fun _ => le_rfl
  · rfl
  · rfl

theorem LoopKeeps.endScan (a : DbState) (k : ℕ) : LoopKeeps a (a.endScan k) :=
  .setRing rfl rfl rfl rfl

theorem DbState.committer_endScan_self (a : DbState) (k : ℕ) :
    ((a.endScan k).rings k).committer = .idle :=
  congrArg RingState.committer (update_self k _ a.rings)

theorem DbState.committer_setRing_of_ne (a : DbState) (hne : j ≠ k) (r : RingState) :
    ((a.setRing k r).rings j).committer = (a.rings j).committer := by
  rw [show (a.setRing k r).rings j = a.rings j from update_of_ne hne _ _]

/-- Available records stay available, and an idle ring is not in a poll. -/
theorem DbState.Reported.of_idle {cfg : DbConfig} {b : DbState} (hg : LoopKeeps a b)
    (h : a.Available cfg k) (hi : (b.rings k).committer = .idle) : b.Reported cfg k := by
  constructor
  · unfold DbState.Available at *
    rw [hg.committed k, hg.sealed k, hg.published k]
    exact h
  · intro avail hb
    rw [hi] at hb
    cases hb

section

variable {C : Crates} {cfg : DbConfig} {s s' : LoopState} {db : DbState}

/-- The flags of the iteration stay good while the shards that were found keep their work. -/
theorem LoopState.WorkOk.setDb (h : s.WorkOk cfg)
    (hr : ∀ j < cfg.shards, s.db.Reported cfg j → db.Reported cfg j) :
    WorkOk cfg { s with db := db } := by
  constructor
  · intro hu
    obtain ⟨j, hj, he⟩ := h.flagging hu
    exact ⟨j, hj, hr j hj he⟩
  · intro f startShard i hp
    obtain ⟨hc, hf⟩ := h.choose f startShard i hp
    refine ⟨hc, fun hu => ?_⟩
    obtain ⟨j, hj, he, hn⟩ := hf hu
    exact ⟨j, hj, hr j hj he, hn⟩
  · exact h.noChoice
  · exact h.commit

theorem LoopState.WorkOk.of_flag (hp : pc.choosing = false)
    (hf : pc.flagging = some true → ∃ j < cfg.shards, db.Reported cfg j) :
    WorkOk cfg ⟨db, pc, current⟩ where
  flagging := hf
  choose f a i heq := by
    rw [show pc = _ from heq] at hp
    cases hp
  noChoice f heq := by
    rw [show pc = _ from heq] at hp
    cases hp
  commit f k heq := by
    rw [show pc = _ from heq] at hp
    cases hp

theorem LoopState.WorkOk.of_none (hp : pc.choosing = false)
    (hf : pc.flagging ≠ some true) : WorkOk cfg ⟨db, pc, current⟩ :=
  .of_flag hp fun h => absurd h hf

namespace LoopInv

theorem init (C : Crates) (cfg : DbConfig) : LoopInv C cfg cfg.loopInit where
  base := .init C cfg
  committer _ _ := .inl rfl
  work := .of_none rfl nofun
  synced hf := by cases hf
  drain hph := absurd rfl hph

section

variable (h : LoopInv C cfg s)
include h

theorem dbInv : DbInv C cfg s.db :=
  ((DbInv.init C cfg).run h.base.db).2

theorem drainOk_other (he : OtherStep C cfg s.db db) (hph : db.phase ≠ .run)
    (hat : db.phase ≠ .abort) (hm : s.db.phase = .run → db.phase ≠ .run → s.Calm cfg) :
    DrainOk cfg { s with db := db } := by
  by_cases hr : s.db.phase = .run
  · -- the drain begins with this step
    obtain ⟨hn, hsl, ha⟩ := hm hr hph
    obtain ⟨t, rfl⟩ := he.drain_started hr hph hat
    refine ⟨fun t' k => ?_, hsl, fun k hp => ?_, fun hf => ?_⟩
    · show update s.db.callers t .drainWait t' ≠ _
      by_cases ht : t' = t
      · rw [ht, update_self]
        exact Caller.noConfusion
      · rw [update_of_ne ht]
        exact hn t' k
    · change s.pc = .poll k at hp
      rcases ha with ⟨hd, hi⟩ | ⟨u, y, hf, -⟩
      · rw [hd] at hp
        cases hp
        refine ⟨fun j hj => absurd hj (Nat.not_lt_zero j), fun _ avail hb => ?_⟩
        have hb' : (s.db.rings 0).committer = .batch avail := hb
        rw [hi 0 cfg.shards_pos] at hb'
        cases hb'
      · rw [hp] at hf
        cases hf
    · change s.pc.found = some (false, false) at hf
      rcases ha with ⟨hd, -⟩ | ⟨u, y, hs, hw⟩
      · rw [hd] at hf
        cases hf
      · rw [hs] at hf
        cases hf
        rcases hw with hw | hw <;> cases hw
  · have ho := h.drain hr
    have hg := he.keeps h.dbInv
    obtain ⟨hz, hc⟩ := (h.dbInv.step he.dbStep).1.frozen ⟨hr, ho.noAppend⟩
    refine ⟨hz.2, fun k hk hha => ?_, fun k hp => ?_, fun hf k hk => ?_⟩
    · rw [hc k]
      exact (ho.sealed k hk hha).trans (hg.sealed k)
    · obtain ⟨hl, hh⟩ := ho.polled k hp
      refine ⟨fun j hj hlt => ?_, fun hk avail hb => ?_⟩
      · rw [hc j, hg.committed j]
        exact hl j hj hlt
      · rw [hc k]
        exact hh hk avail ((hg.committer k).symm.trans hb)
    · rw [hc k, hg.committed k]
      exact ho.found hf k hk

theorem other (ho : OtherStep C cfg s.db db) (ha : db.phase ≠ .abort)
    (hc : s.db.phase = .run → db.phase ≠ .run → s.Calm cfg) :
    LoopInv C cfg { s with db := db } := by
  have hg := ho.keeps h.dbInv
  refine ⟨h.base.step (.other ho), fun k hk => ?_,
    h.work.setDb fun j _ hr => hr.keep hg, fun hf k hk => ?_,
    fun hp => h.drainOk_other ho hp ha hc⟩
  · have ht := h.committer k hk
    unfold CommitterAt at *
    rw [hg.committer k, hg.committed k]
    exact ht
  · rw [hg.committed k, hg.durable]
    exact h.synced hf k hk

theorem committer_idle (hp : s.polled cfg = none) (hc : ∀ f k, s.pc ≠ .commit f k)
    (hk : k < cfg.shards) : (s.db.rings k).committer = .idle := by
  rcases h.committer k hk with hi | ⟨ho, -⟩ | ⟨f, hpc⟩
  · exact hi
  · rw [hp] at ho
    cases ho
  · exact absurd hpc (hc f k)

theorem idle_of_outside (hp : s.pc = pc)
    (ho : pc.outside = true) : ∀ k < cfg.shards, (s.db.rings k).committer = .idle := by
  intro k hk
  subst hp
  apply h.committer_idle _ _ hk
  · unfold polled
    cases hp : s.pc <;> rw [hp] at ho <;> first | rfl | cases ho
  · intro f j heq
    rw [heq] at ho
    cases ho

theorem committer_idle_of_ne (hp : s.polled cfg = some j)
    (hk : k < cfg.shards) (hne : k ≠ j) : (s.db.rings k).committer = .idle := by
  rcases h.committer k hk with hi | ⟨ho, -⟩ | ⟨f, hc⟩
  · exact hi
  · rw [hp] at ho
    exact absurd (Option.some.inj ho).symm hne
  · rw [polled, hc] at hp
    cases hp

section

variable (hq : LoopBase C cfg s') (hg : LoopKeeps s.db s'.db)
include hq hg

/-- A step of the loop that keeps the cursors and does not become idle by itself. -/
theorem advance (hc : ∀ k < cfg.shards, s'.CommitterAt cfg k) (hw : s'.WorkOk cfg)
    (hf : s'.pc.found = some (false, false) → s.pc.found = some (false, false))
    (hp : s.DrainOk cfg → ∀ k, s'.pc = .poll k →
      (∀ j < k, j < cfg.shards → s.db.producerCursor j ≤ s.db.committed j) ∧
        (k < cfg.shards → ∀ avail, (s'.db.rings k).committer = .batch avail →
          s.db.producerCursor k ≤ avail)) : LoopInv C cfg s' := by
  refine ⟨hq, hc, hw, fun hi k hk => ?_, fun hph => ?_⟩
  · rw [hg.committed k]
    exact (h.synced (hf hi) k hk).trans (hg.durable k)
  · rw [hg.phase] at hph
    have ho := h.drain hph
    constructor
    · rw [hg.callers]
      exact ho.noAppend
    · intro k hk hh
      rw [hg.cursor k, hg.sealed k]
      exact ho.sealed k hk hh
    · intro k hpc
      simp only [hg.cursor, hg.committed]
      exact hp ho k hpc
    · intro hi k hk
      rw [hg.cursor k, hg.committed k]
      exact ho.found (hf hi) k hk

theorem restart (hp : s'.pc = .poll 0) (hi : ∀ k < cfg.shards, (s'.db.rings k).committer = .idle) :
    LoopInv C cfg s' := by
  obtain ⟨db, pc, current⟩ := s'
  subst hp
  apply h.advance hq hg (fun k hk => .inl (hi k hk))
  · exact .of_none rfl nofun
  · intro hf
    cases hf
  · intro _ k hk
    cases hk
    refine ⟨fun j hj => absurd hj (Nat.not_lt_zero j), fun hk avail hb => ?_⟩
    rw [hi 0 hk] at hb
    cases hb

theorem move (hi : ∀ k < cfg.shards, (s'.db.rings k).committer = .idle) (hw : s'.WorkOk cfg)
    (hf : s'.pc.found = s.pc.found) (hp : ∀ k, s'.pc ≠ .poll k) : LoopInv C cfg s' :=
  h.advance hq hg (fun k hk => .inl (hi k hk)) hw (fun hff => hf ▸ hff)
    fun _ k hk => absurd hk (hp k)

end

theorem stay (hq : LoopBase C cfg { s with db := db })
    (hg : LoopKeeps s.db db) (hc : s.pc = pc) (hp : pc.choosing = false)
    (hf : pc.flagging = none) (hi : ∀ k < cfg.shards, (db.rings k).committer = .idle)
    (ho : ∀ k, pc ≠ .poll k) : LoopInv C cfg { s with db := db } := by
  subst hc
  apply h.move hq hg hi _ rfl ho
  apply WorkOk.of_none hp
  rw [hf]
  nofun

theorem idle_endScan (hp : s.polled cfg = some k)
    (hj : j < cfg.shards) : ((s.db.endScan k).rings j).committer = .idle := by
  by_cases hk : j = k
  · rw [hk]
    exact s.db.committer_endScan_self k
  · rw [DbState.endScan, s.db.committer_setRing_of_ne hk]
    exact h.committer_idle_of_ne hp hj hk

end

end LoopInv

end

end LogDb.Pipeline
