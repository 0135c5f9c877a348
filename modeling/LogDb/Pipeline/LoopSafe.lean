import LogDb.Pipeline.CommitLoop

/-!
The loop is one of the committers of the open database model, so that everything shown there holds
for it; and the completion that `flush` waits for, at the head of the loop.
-/

namespace LogDb.Pipeline

open Lib Format Function Option LoopPc

/-- The shards that the loop has at hand exist. -/
def LoopPc.ShardOk (cfg : DbConfig) : LoopPc → Prop
  | .choose _ startShard _ => startShard < cfg.shards
  | .available _ si => si < cfg.shards
  | .commit _ si => si < cfg.shards
  | _ => True

structure LoopBase (C : Crates) (cfg : DbConfig) (s : LoopState) : Prop where
  db : DbReachable C cfg s.db
  sync : (∀ f, s.pc ≠ .syncing f) → s.db.sync = .idle
  current : s.currentShard < cfg.shards
  shard : s.pc.ShardOk cfg

section

variable {C : Crates} {cfg : DbConfig} {s s' : LoopState}

theorem OtherStep.dbStep {a b : DbState} (h : OtherStep C cfg a b) : DbStep C cfg a b := by
  cases h with
  | append t h => exact .append t h
  | barrier t h => exact .barrier t h
  | sealer k r hk hs => exact .background (.sealer k r hk hs)
  | abort => exact .background .abort

theorem OtherStep.sync_eq {a b : DbState} (h : OtherStep C cfg a b) : b.sync = a.sync := by
  cases h with
  | append t h => cases h <;> rfl
  | barrier t h => cases h <;> rfl
  | sealer k r hk hs => rfl
  | abort => rfl

namespace LoopBase

theorem init (C : Crates) (cfg : DbConfig) : LoopBase C cfg cfg.loopInit where
  db := .refl
  sync _ := rfl
  current := cfg.shards_pos
  shard := trivial

variable {pc : LoopPc} {k : ℕ}

section

variable (h : LoopBase C cfg s)
include h

theorem move (hi : s.db.sync = .idle) (hp : pc.ShardOk cfg) :
    LoopBase C cfg { s with pc := pc }  where
  db := h.db
  sync _ := hi
  current := h.current
  shard := hp

theorem ring {r : RingState} {current : ℕ} (hi : s.db.sync = .idle)
    (hk : k < cfg.shards) (hs : CommitterStep (cfg.ring k) (s.db.rings k) r)
    (hp : pc.ShardOk cfg) (hc : current < cfg.shards) :
    LoopBase C cfg ⟨s.db.setRing k r, pc, current⟩  where
  db := h.db.tail (.background (.commit k r hk hi hs))
  sync _ := hi
  current := hc
  shard := hp

theorem endScan {avail : ℕ} {current : ℕ} (hi : s.db.sync = .idle)
    (hk : k < cfg.shards) (ha : (s.db.rings k).committer = .batch avail) (hp : pc.ShardOk cfg)
    (hc : current < cfg.shards) : LoopBase C cfg ⟨s.db.endScan k, pc, current⟩ :=
  h.ring hi hk (.pause avail ha) hp hc

theorem sync_idle (hp : s.pc = pc) (hne : ∀ f, pc ≠ .syncing f) : s.db.sync = .idle :=
  h.sync fun f => hp ▸ hne f

theorem polled_lt (hp : s.polled cfg = some k) : k < cfg.shards := by
  have hs := h.shard
  unfold LoopState.polled at hp
  cases hc : s.pc with
  | poll j =>
    simp only [hc, ite_none_right_eq_some, some.injEq] at hp
    exact hp.2 ▸ hp.1
  | choose f startShard i =>
    simp only [hc, ite_none_right_eq_some, some.injEq] at hp
    exact hp.2 ▸ h.current
  | available f si =>
    rw [hc] at hs
    simp only [hc, some.injEq] at hp
    exact hp ▸ hs
  | _ =>
    rw [hc] at hp
    cases hp

theorem scanStep (hs : ScanStep cfg s s') : LoopBase C cfg s' := by
  cases hs with
  | scan k r hp hs hc =>
    have hi : s.db.sync = .idle := by
      apply h.sync
      intro f hf
      rw [LoopState.polled, hf] at hp
      cases hp
    exact h.ring hi (h.polled_lt hp) hs h.shard h.current

theorem flagStep (hs : FlagStep cfg s s') : LoopBase C cfg s' := by
  have hi : s.db.sync = .idle := by
    apply h.sync
    intro f hf
    cases hs <;> simp_all
  cases hs with
  | pollYes k avail hp hk ha hm => exact h.endScan hi hk ha trivial h.current
  | pollNo k avail hp hk ha hn => exact h.endScan hi hk ha trivial h.current
  | _ => exact h.move hi trivial

theorem choiceStep (hsp : ChoiceStep cfg s s') : LoopBase C cfg s' := by
  have hl : s.db.sync = .idle := by
    apply h.sync
    intro f hf
    cases hsp <;> simp_all
  cases hsp with
  | busy f hp hb => exact h.move hl h.current
  | chosen f startShard i avail hp hi ha hm =>
    exact h.endScan hl h.current ha h.current (Nat.mod_lt _ cfg.shards_pos)
  | notChosen f startShard i avail hp hi ha hn =>
    have hs : (choose f startShard i).ShardOk cfg := hp ▸ h.shard
    exact h.endScan hl h.current ha hs (Nat.mod_lt _ cfg.shards_pos)
  | chooseStart f startShard i hp hi hu =>
    have hs : (choose f startShard i).ShardOk cfg := hp ▸ h.shard
    exact h.move hl hs
  | _ => exact h.move hl trivial

theorem commitStep (hsp : CommitStep cfg s s') : LoopBase C cfg s' := by
  have hi : s.db.sync = .idle := by
    apply h.sync
    intro f hf
    cases hsp <;> simp_all
  cases hsp with
  | begin f si avail upto hp ha hu hge hlt =>
    have hs : (available f si).ShardOk cfg := hp ▸ h.shard
    exact h.ring hi hs (.begin avail upto ha hge hlt) hs h.current
  | skip f si avail hp ha hk =>
    have hs : (available f si).ShardOk cfg := hp ▸ h.shard
    exact h.endScan hi hs ha trivial h.current
  | work f si r hp hsp hb =>
    have hs : (commit f si).ShardOk cfg := hp ▸ h.shard
    exact h.ring hi hs hsp h.shard h.current
  | stored f si next hp ho =>
    have hs : (commit f si).ShardOk cfg := hp ▸ h.shard
    exact h.ring hi hs (.store next ho) trivial h.current
  | failed f si hp hl =>
    have hs : (commit f si).ShardOk cfg := hp ▸ h.shard
    exact h.ring hi hs (.fail hl) trivial h.current

theorem fsyncStep (hsp : FsyncStep cfg s s') : LoopBase C cfg s' := by
  cases hsp with
  | skip f hp => exact h.move (h.sync_idle hp fun _ => LoopPc.noConfusion) trivial
  | failed f hp hn => exact h.move (h.sync_idle hp fun _ => LoopPc.noConfusion) trivial
  | synced f hp hn =>
    have hi := h.sync_idle hp fun _ => LoopPc.noConfusion
    exact ⟨h.db.tail (.background (.syncAll hi)), fun hne => absurd rfl (hne f), h.current, trivial⟩
  | storeDurable f k hp hs =>
    exact ⟨h.db.tail (.background (.storeDurable k hs)), fun hne => absurd hp (hne f), h.current,
      h.shard⟩
  | complete f k hp hs =>
    exact ⟨h.db.tail (.background (.complete k hs)), fun hne => absurd hp (hne f), h.current,
      h.shard⟩
  | syncEnd f hp hs => exact h.move hs trivial
  | returnEnd f hp _ _ _ => exact h.move (h.sync_idle hp fun _ => LoopPc.noConfusion) trivial
  | continueEnd f hp _ => exact h.move (h.sync_idle hp fun _ => LoopPc.noConfusion) trivial

theorem step (hs : LoopStep C cfg s s') : LoopBase C cfg s' := by
  cases hs with
  | other ho =>
    exact ⟨h.db.tail ho.dbStep, fun hne => ho.sync_eq.trans (h.sync hne), h.current, h.shard⟩
  | scan hs => exact h.scanStep hs
  | flag hs => exact h.flagStep hs
  | choice hs => exact h.choiceStep hs
  | commit hs => exact h.commitStep hs
  | fsync hs => exact h.fsyncStep hs

end

end LoopBase

theorem LoopReachable.base (h : LoopReachable C cfg s) : LoopBase C cfg s :=
  invariant_of_steps h (LoopBase.init C cfg) fun _ _ hb hs => hb.step hs

end

/-- `FlushSignal::is_done`; targets beyond the shards count as done. -/
def DbState.isDone (cfg : DbConfig) (s : DbState) (targets : List ℕ) : Bool :=
  (List.range targets.length).all fun k =>
    cfg.shards ≤ k || targets.getD k 0 ≤ s.completed k

/-- Every shard has completed what is durable, so that targets which are durable are done. -/
def DbState.FlushComplete (cfg : DbConfig) (s : DbState) : Prop :=
  (∀ k < cfg.shards, s.durable k ≤ s.completed k) ∧
    ∀ targets : List ℕ, (∀ k < cfg.shards, targets.getD k 0 ≤ s.durable k) →
      s.isDone cfg targets = true

section

variable {C : Crates} {cfg : DbConfig} {s : DbState}

theorem DbState.flushComplete_of_le (h : ∀ k < cfg.shards, s.durable k ≤ s.completed k) :
    s.FlushComplete cfg := by
  constructor
  · exact h
  · intro targets ht
    unfold isDone
    rw [List.all_eq_true]
    intro k _
    rw [Bool.or_eq_true, decide_eq_true_eq, decide_eq_true_eq]
    rcases lt_or_ge k cfg.shards with hk | hk
    · exact .inr ((ht k hk).trans (h k hk))
    · exact .inl hk

/-- Only between the two stores of a shard is its completion behind, if it starts level. -/
theorem DbReachable.durable_le_completed (h : DbReachable C cfg s)
    (hf : ∀ k < cfg.shards, (cfg.ring k).initial = 0) :
    ∀ k < cfg.shards, s.durable k ≤ s.completed k ∨ s.sync = .complete k := by
  apply invariant_of_steps
    (P := fun s => ∀ k < cfg.shards, s.durable k ≤ s.completed k ∨ s.sync = .complete k) h
  · intro k hk
    exact .inl (hf k hk).le
  · intro a b hi hs
    cases hs with
    | append t hs => cases hs <;> exact hi
    | barrier t hs => cases hs <;> exact hi
    | background hs =>
      cases hs with
      | sealer j r _ _ => exact hi
      | commit j r _ _ _ => exact hi
      | abort => exact hi
      | syncAll hy =>
        intro k hk
        refine .inl ((hi k hk).resolve_right ?_)
        rw [hy]
        exact SyncPc.noConfusion
      | storeDurable j hy =>
        intro k hk
        by_cases hj : k = j
        · rw [hj]
          exact .inr rfl
        · refine .inl ?_
          show update a.durable j _ k ≤ _
          rw [update_of_ne hj]
          refine (hi k hk).resolve_right ?_
          rw [hy]
          exact SyncPc.noConfusion
      | complete j hy =>
        intro k hk
        refine .inl ?_
        show a.durable k ≤ update a.completed j _ k
        by_cases hj : k = j
        · rw [hj, update_self]
          exact le_max_right _ _
        · rw [update_of_ne hj]
          refine (hi k hk).resolve_right ?_
          rw [hy]
          rintro ⟨⟩
          exact hj rfl

end

/-- The completion has caught up at every visit of the loop head exactly if every shard starts at
sequence 0: the completed values start at 0 whatever the durable cursors start at. -/
theorem flushComplete_at_head_iff (C : Crates) (cfg : DbConfig) :
    (∀ s, LoopReachable C cfg s → s.pc = .poll 0 → s.db.FlushComplete cfg) ↔
      ∀ k < cfg.shards, (cfg.ring k).initial = 0 := by
  constructor
  · intro h k hk
    exact Nat.le_zero.mp ((h cfg.loopInit .refl rfl).1 k hk)
  · intro hf s hr hp
    have hb := hr.base
    have hi := hb.sync_idle hp fun _ => LoopPc.noConfusion
    apply DbState.flushComplete_of_le
    intro k hk
    refine (hb.db.durable_le_completed hf k hk).resolve_right ?_
    rw [hi]
    exact SyncPc.noConfusion

def resumedShard : DbConfig :=
  { oneShard with ring := fun k => { oneShard.ring k with initial := 5, initial_lt := by decide } }

/-- Right after the recovery all five records are durable, and a flush of them is not done. -/
theorem resumedShard_not_flushComplete :
    LoopReachable rawCrates resumedShard resumedShard.loopInit ∧
      resumedShard.loopInit.pc = .poll 0 ∧ resumedShard.loopInit.db.producerCursor 0 = 5 ∧
      resumedShard.loopInit.db.durable 0 = 5 ∧ resumedShard.loopInit.db.completed 0 = 0 ∧
      resumedShard.loopInit.db.isDone resumedShard [5] = false :=
  ⟨.refl, rfl, rfl, rfl, rfl, rfl⟩

end LogDb.Pipeline
