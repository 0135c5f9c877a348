import LogDb.Lib.Transition

/-!
The iterations of `run_committer` under `DurabilityMode::Sync`, with the health flag and with I/O
that fails, while nothing is published. Once the I/O succeeds the loop comes to rest, unless an
fsync failed when nothing was left to commit.
-/

namespace LogDb.Pipeline

open Finset Function Relation

inductive HealthCode where
  | ok
  | diskFull
  | ioError

/-- An I/O error, by `is_enospc`. -/
inductive IoFailure where
  | enospc
  | other

def IoFailure.code : IoFailure → HealthCode
  | .enospc => .diskFull
  | .other => .ioError

/-- `HealthState::set_error`: the first error stays. -/
def HealthCode.setError : HealthCode → HealthCode → HealthCode
  | .ok, e => e
  | h, _ => h

inductive AppendFailure where
  | full
  | io (e : IoFailure)

/-- What the outside decides in one iteration: whether the interval, a size, a flush or the drain
makes the commit due, how many records `append_batch` takes, how the roll and the fsync end. -/
structure CommitTurn where
  due : Bool
  append : Except AppendFailure ℕ
  roll : Option IoFailure
  sync : Option IoFailure

def CommitTurn.taken (t : CommitTurn) : ℕ :=
  t.append.toOption.getD 0

/-- The records of shard `s` end at `avail s`; `fresh s` says that its active segment has no record
since it was rolled. -/
structure CommitterState (n : ℕ) where
  avail : Fin (n + 1) → ℕ
  committed : Fin (n + 1) → ℕ
  durable : Fin (n + 1) → ℕ
  fresh : Fin (n + 1) → Bool
  currentShard : Fin (n + 1)
  health : HealthCode

namespace CommitterState

variable {n : ℕ}

section

variable (st : CommitterState n)

def HasAnyUncommitted : Prop :=
  ∃ s, st.committed s < st.avail s

instance : Decidable st.HasAnyUncommitted :=
  inferInstanceAs (Decidable (∃ s, st.committed s < st.avail s))

/-- The first shard from `current_shard` on that has records to commit. -/
def chosenShard : Option (Fin (n + 1)) :=
  ((List.finRange (n + 1)).map (st.currentShard + ·)).find? fun si =>
    st.committed si < st.avail si

/-- `chosen_shard.unwrap_or(start_shard)`. -/
def shard : Fin (n + 1) :=
  st.chosenShard.getD st.currentShard

def commit (k : ℕ) : CommitterState n :=
  { st with
    committed := update st.committed st.shard (st.committed st.shard + k)
    fresh := update st.fresh st.shard false
    health := .ok }

def fail (e : IoFailure) : CommitterState n :=
  { st with health := st.health.setError e.code }

/-- The fsync of all shards, when it is due for `si`. -/
def fsync (si : Fin (n + 1)) (sync : Option IoFailure) : CommitterState n :=
  if st.durable si < st.committed si ∧ ∃ s s', st.durable s < st.committed s' then
    match sync with
    | none => { st with durable := st.committed }
    | some e => st.fail e
  else st

/-- The iteration, apart from `current_shard`. -/
def work (t : CommitTurn) : CommitterState n :=
  if ¬ st.HasAnyUncommitted ∧ ¬ ∃ s, st.durable s < st.committed s then st
  else if st.committed st.shard < st.avail st.shard ∧ t.due = true then
    match t.append with
    | .ok k => (st.commit k).fsync st.shard t.sync
    | .error .full =>
      match t.roll with
      | none => { st with fresh := update st.fresh st.shard true }
      | some e => st.fail e
    | .error (.io e) => st.fail e
  else st.fsync st.shard t.sync

/-- One iteration; without a choice `current_shard` has gone all the way round. -/
def iterate (t : CommitTurn) : CommitterState n :=
  { st.work t with currentShard := (st.chosenShard.map (· + 1)).getD st.currentShard }

def backlog : ℕ :=
  ∑ s, (st.avail s - st.committed s)

/-- A batch that is written holds a record and only available ones. -/
def Possible (t : CommitTurn) : Prop :=
  ∀ k, t.append = .ok k → 0 < k ∧ st.committed st.shard + k ≤ st.avail st.shard

/-- All I/O succeeds; a segment that has just been rolled takes a record. -/
structure Succeeds (t : CommitTurn) : Prop where
  append : ∀ e, t.append = .error e → e = .full ∧ st.fresh st.shard = false
  roll : t.roll = none
  sync : t.sync = none

def Settled : Prop :=
  (∀ s, st.committed s = st.avail s ∧ st.durable s = st.committed s) ∧ st.health = .ok

/-- An iteration in which anything may fail, the fsync only while it leaves records uncommitted. -/
inductive Turn : CommitterState n → Prop where
  | intro (t : CommitTurn) (hpossible : st.Possible t)
      (hsync : t.sync = none ∨ t.taken < st.backlog) : Turn (st.iterate t)

/-- Iterations without a failure; those that find the commit due are counted. -/
inductive Healthy : ℕ → CommitterState n → Prop where
  | start : Healthy 0 st
  | turn {m : ℕ} {st' : CommitterState n} (t : CommitTurn) (hrun : Healthy m st')
      (hpossible : st'.Possible t) (hsucceeds : st'.Succeeds t) :
      Healthy (m + t.due.toNat) (st'.iterate t)

/-- A record counts twice, since its segment may be full; a segment that was not just rolled once. -/
def cost (s : Fin (n + 1)) : ℕ :=
  2 * (st.avail s - st.committed s) + (!st.fresh s).toNat

/-- While nothing is uncommitted, nothing is unsynced and no error is left. -/
structure Recoverable : Prop where
  durable : ∀ s, st.durable s ≤ st.committed s
  committed : ∀ s, st.committed s ≤ st.avail s
  rest : ¬ st.HasAnyUncommitted → st.durable = st.committed ∧ st.health = .ok

end

variable {st st' : CommitterState n} {t : CommitTurn} {k m : ℕ}

theorem hasAnyUncommitted_iff : st.HasAnyUncommitted ↔ 0 < st.backlog := by
  simp [HasAnyUncommitted, backlog, sum_pos_iff]

theorem sum_replace (si : Fin (n + 1)) {f g : Fin (n + 1) → ℕ} (h : ∀ s ≠ si, f s = g s) :
    ∑ s, f s + g si = ∑ s, g s + f si := by
  have hr : ∑ s ∈ univ.erase si, f s = ∑ s ∈ univ.erase si, g s :=
    sum_congr rfl fun s hs => h s (ne_of_mem_erase hs)
  rw [← add_sum_erase univ f (mem_univ si), ← add_sum_erase univ g (mem_univ si), hr]
  omega

theorem backlog_commit (hle : st.committed st.shard + k ≤ st.avail st.shard) :
    (st.commit k).backlog + k = st.backlog := by
  have hs := sum_replace st.shard (f := fun s => st.avail s - (st.commit k).committed s)
    (g := fun s => st.avail s - st.committed s) (by simp +contextual [commit])
  simp only [commit, update_self] at hs
  simp only [backlog, commit]
  omega

theorem committed_shard_lt (h : st.HasAnyUncommitted) :
    st.committed st.shard < st.avail st.shard := by
  obtain ⟨s, hs⟩ := h
  rw [shard]
  cases hc : st.chosenShard with
  | none =>
    have hm : s ∈ (List.finRange (n + 1)).map (st.currentShard + ·) :=
      List.mem_map.mpr ⟨s - st.currentShard, List.mem_finRange _, add_sub_cancel _ _⟩
    exact absurd hs (by simpa using List.find?_eq_none.mp hc s hm)
  | some si => simpa using List.find?_some hc

theorem fsync_cases (st : CommitterState n) (si : Fin (n + 1)) (sync : Option IoFailure) :
    st.fsync si sync = st ∨ st.fsync si sync = { st with durable := st.committed } ∨
      ∃ e, st.fsync si sync = st.fail e := by
  unfold fsync
  split_ifs
  · cases sync with
    | none => exact .inr (.inl rfl)
    | some e => exact .inr (.inr ⟨e, rfl⟩)
  · exact .inl rfl

/-- What an iteration does: a commit is followed by an fsync, and whatever else happens commits
nothing. -/
theorem work_cases (hd : ∀ s, st.durable s ≤ st.committed s) (hps : st.Possible t) :
    (∃ k, t.append = .ok k ∧ 0 < k ∧ st.committed st.shard + k ≤ st.avail st.shard ∧
      ((t.sync = none ∧ st.work t = { st.commit k with durable := (st.commit k).committed }) ∨
        ∃ e, t.sync = some e ∧ st.work t = (st.commit k).fail e)) ∨
    ((st.work t).avail = st.avail ∧ (st.work t).committed = st.committed ∧
      ((st.work t).durable = st.durable ∨ (st.work t).durable = st.committed) ∧
      (st.Succeeds t → st.HasAnyUncommitted → (t.due = false ∧ (st.work t).fresh = st.fresh) ∨
        (st.fresh st.shard = false ∧ (st.work t).fresh = update st.fresh st.shard true))) := by
  unfold work
  split_ifs with hi hc
  · exact .inr ⟨rfl, rfl, .inl rfl, fun _ hu => absurd hu hi.1⟩
  · cases ha : t.append with
    | ok k =>
      obtain ⟨hp, hle⟩ := hps k ha
      -- the shard was not ahead of its commits, so the fsync is due
      have he : st.durable st.shard < (st.commit k).committed st.shard := by
        have hsd := hd st.shard
        simp only [commit, update_self]
        omega
      refine .inl ⟨k, rfl, hp, hle, ?_⟩
      cases t.sync with
      | none => exact .inl ⟨rfl, if_pos ⟨he, _, _, he⟩⟩
      | some e => exact .inr ⟨e, rfl, if_pos ⟨he, _, _, he⟩⟩
    | error e =>
      right
      cases e with
      | full =>
        cases hr : t.roll with
        | none => exact ⟨rfl, rfl, .inl rfl, fun hs _ => .inr ⟨(hs.append _ ha).2, rfl⟩⟩
        | some e => exact ⟨rfl, rfl, .inl rfl, fun hs => by simp [hs.roll] at hr⟩
      | io e => exact ⟨rfl, rfl, .inl rfl, fun hs => by simpa using hs.append _ ha⟩
  · right
    have hw (hu : st.HasAnyUncommitted) : t.due = false :=
      Bool.eq_false_iff.mpr fun he => hc ⟨committed_shard_lt hu, he⟩
    rcases fsync_cases st st.shard t.sync with heq | heq | ⟨e, heq⟩ <;> rw [heq]
    · exact ⟨rfl, rfl, .inl rfl, fun _ hu => .inl ⟨hw hu, rfl⟩⟩
    · exact ⟨rfl, rfl, .inr rfl, fun _ hu => .inl ⟨hw hu, rfl⟩⟩
    · exact ⟨rfl, rfl, .inl rfl, fun _ hu => .inl ⟨hw hu, rfl⟩⟩

theorem Recoverable.iterate (h : st.Recoverable) (hp : st.Possible t)
    (hs : t.sync = none ∨ t.taken < st.backlog) : (st.iterate t).Recoverable := by
  suffices hw : (st.work t).Recoverable from ⟨hw.durable, hw.committed, hw.rest⟩
  by_cases hu : st.HasAnyUncommitted
  · rcases work_cases h.durable hp with
      ⟨k, hb, -, hle, har⟩ | ⟨ha, hc, hd, -⟩
    · have ho : ∀ s, (st.commit k).committed s ≤ st.avail s :=
        (forall_update_iff _ fun s x => x ≤ st.avail s).mpr ⟨hle, fun s _ => h.committed s⟩
      rcases har with ⟨-, heq⟩ | ⟨e, hf, heq⟩ <;> rw [heq]
      · exact ⟨fun _ => le_rfl, ho, fun _ => ⟨rfl, rfl⟩⟩
      · have ht : k < st.backlog := by
          simpa [hf, CommitTurn.taken, hb, Except.toOption] using hs
        have hl : (st.commit k).HasAnyUncommitted := by
          have hm := backlog_commit hle
          exact hasAnyUncommitted_iff.mpr (by omega)
        refine ⟨?_, ho, fun hr => absurd hl hr⟩
        exact (forall_update_iff _ fun s x => st.durable s ≤ x).mpr
          ⟨(h.durable _).trans (Nat.le_add_right _ _), fun s _ => h.durable s⟩
    · refine ⟨fun s => ?_, by simpa [ha, hc] using h.committed, fun hn => absurd hu ?_⟩
      · rcases hd with hd | hd <;> simp [hc, hd, h.durable]
      · rwa [HasAnyUncommitted, ha, hc] at hn
  · have hi : ¬ ∃ s, st.durable s < st.committed s := by
      simp [(h.rest hu).1]
    rwa [work, if_pos ⟨hu, hi⟩]

theorem sum_cost_iterate (h : st.Recoverable) (hps : st.Possible t) (hs : st.Succeeds t)
    (hn : (st.iterate t).HasAnyUncommitted) :
    st.HasAnyUncommitted ∧ ∑ s, (st.iterate t).cost s + t.due.toNat ≤ ∑ s, st.cost s := by
  have hd := Bool.toNat_le t.due
  have ho := Bool.toNat_le (!st.fresh st.shard)
  change (st.work t).HasAnyUncommitted at hn
  change _ ∧ ∑ s, (st.work t).cost s + _ ≤ _
  rcases work_cases h.durable hps with ⟨k, -, hp, hle, har⟩ | ⟨ha, hc, -, hh⟩
  · rcases har with ⟨-, heq⟩ | ⟨e, hf, -⟩
    · have hu := sum_replace st.shard (f := (st.work t).cost) (g := st.cost)
        (by simp +contextual [heq, cost, commit])
      have ht : (st.work t).cost st.shard =
          2 * (st.avail st.shard - (st.committed st.shard + k)) + 1 := by
        simp [heq, cost, commit]
      refine ⟨⟨st.shard, by omega⟩, ?_⟩
      rw [ht, cost] at hu
      omega
    · simp [hs.sync] at hf
  · rw [HasAnyUncommitted, ha, hc] at hn
    refine ⟨hn, ?_⟩
    rcases hh hs hn with ⟨hw, hm⟩ | ⟨he, hr⟩
    · simp [cost, ha, hc, hm, hw]
    · have hu := sum_replace st.shard (f := (st.work t).cost) (g := st.cost)
        (by simp +contextual [cost, ha, hc, hr])
      simp only [cost, ha, hc, hr, he, update_self, Bool.not_false, Bool.not_true,
        Bool.toNat_true, Bool.toNat_false] at hu ⊢
      omega

/-- The costs go down with every iteration that finds the commit due. -/
theorem Healthy.sum_cost_le (hr : st.Healthy m st') (h : st.Recoverable) :
    st'.Recoverable ∧ (st'.HasAnyUncommitted → ∑ s, st'.cost s + m ≤ ∑ s, st.cost s) := by
  induction hr with
  | start => exact ⟨h, fun _ => le_rfl⟩
  | turn t hr hp hs ih =>
    refine ⟨ih.1.iterate hp (.inl hs.sync), fun hu => ?_⟩
    obtain ⟨hb, hsp⟩ := sum_cost_iterate ih.1 hp hs hu
    have ho := ih.2 hb
    omega

theorem sum_cost_le (st : CommitterState n) : ∑ s, st.cost s ≤ 2 * st.backlog + (n + 1) := by
  have hs : ∑ s, (!st.fresh s).toNat ≤ n + 1 := by
    simpa using sum_le_card_nsmul univ _ 1 fun s _ => Bool.toNat_le (!st.fresh s)
  simp only [cost, sum_add_distrib, backlog, mul_sum]
  omega

end CommitterState

open CommitterState

/-- From every state that failing I/O leaves, the loop comes to rest in a number of due iterations
that depends on the backlog and the shards only. -/
theorem committer_settles {n m : ℕ} {st₀ st st' : CommitterState n}
    (hc : ∀ s, st₀.committed s ≤ st₀.avail s) (hd : st₀.durable = st₀.committed)
    (hok : st₀.health = .ok) (hrun : ReflTransGen Turn st₀ st) (hhealthy : st.Healthy m st')
    (hm : 2 * st.backlog + n + 1 ≤ m) : st'.Settled := by
  have hsa : st₀.Recoverable := ⟨fun s => (congrFun hd s).le, hc, fun _ => ⟨hd, hok⟩⟩
  have hrch : st.Recoverable := by
    refine Lib.invariant_of_steps hrun hsa ?_
    rintro a _ ha ⟨t, hps, hy⟩
    exact ha.iterate hps hy
  obtain ⟨he, ht⟩ := hhealthy.sum_cost_le hrch
  have hr : ¬ st'.HasAnyUncommitted := by
    rintro ⟨s, hs⟩
    have hb := st.sum_cost_le
    have hle := ht ⟨s, hs⟩
    have hp : st'.cost s ≤ ∑ s, st'.cost s := single_le_sum_of_canonicallyOrdered (mem_univ s)
    rw [cost] at hp
    omega
  obtain ⟨hu, hh⟩ := he.rest hr
  refine ⟨fun s => ⟨le_antisymm (he.committed s) ?_, congrFun hu s⟩, hh⟩
  exact not_lt.mp fun hlt => hr ⟨s, hlt⟩

def nothingCommitted {n : ℕ} (avail : Fin (n + 1) → ℕ) : CommitterState n where
  avail := avail
  committed _ := 0
  durable _ := 0
  fresh _ := false
  currentShard := 0
  health := .ok

/-- The disk is full when the only record is to be written, and then is not. -/
theorem committer_settles_one :
    ([⟨true, .error (.io .enospc), none, none⟩, ⟨true, .ok 1, none, none⟩,
      ⟨true, .error .full, none, none⟩, ⟨true, .error .full, none, none⟩].foldl iterate
        (nothingCommitted ![1])).Settled := by
  have hf : Turn (nothingCommitted ![1]) ((nothingCommitted ![1]).iterate _) :=
    ⟨⟨true, .error (.io .enospc), none, none⟩, nofun, .inl rfl⟩
  refine committer_settles (by decide) rfl rfl (.single hf)
    (((Healthy.start.turn ⟨true, .ok 1, none, none⟩ ?_ ?_).turn ⟨true, .error .full, none, none⟩
      nofun ?_).turn ⟨true, .error .full, none, none⟩ nofun ?_) (by decide)
  · rintro _ ⟨⟩
    decide
  · exact ⟨nofun, rfl, rfl⟩
  all_goals
    refine ⟨?_, rfl, rfl⟩
    rintro _ ⟨⟩
    exact ⟨rfl, rfl⟩

/-- The fsync after the last commit fails: the next iterations look at the other shard, which has
nothing to sync, and no commit clears the error. -/
theorem committer_stuck : ∃ st : CommitterState 1,
    st = (nothingCommitted ![1, 0]).iterate ⟨true, .ok 1, none, some .enospc⟩ ∧
      ∀ m st', st.Healthy m st' →
        st'.health = .diskFull ∧ st'.committed 0 = 1 ∧ st'.durable 0 = 0 := by
  refine ⟨_, rfl, fun m st' hr => ?_⟩
  have hs : st' = (nothingCommitted ![1, 0]).iterate ⟨true, .ok 1, none, some .enospc⟩ := by
    induction hr with
    | start => rfl
    | turn t _ _ _ ih =>
      rw [ih]
      rfl
  rw [hs]
  exact ⟨rfl, rfl, rfl⟩

end LogDb.Pipeline
