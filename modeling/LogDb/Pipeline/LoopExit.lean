import LogDb.Pipeline.LoopInvariant

/-!
Every step of the loop keeps its invariant; so when it returns, nothing is left behind.
-/

namespace LogDb.Pipeline

open Lib Format Function LoopState LoopPc

section

variable {C : Crates} {cfg : DbConfig} {s s' : LoopState}

namespace LoopInv

variable {k : ℕ} {f : LoopFlags} {si startShard : ℕ}

theorem pollEnd (h : LoopInv C cfg s) (hc : s.pc = .poll k) (hk : cfg.shards ≤ k)
    (hb : LoopBase C cfg { s with pc := .pending false (s.db.hasAnyUnsynced cfg) 0 }) :
    LoopInv C cfg { s with pc := .pending false (s.db.hasAnyUnsynced cfg) 0 } := by
  have hp : s.polled cfg = none := (polled_poll hc).trans (if_neg (not_lt.mpr hk))
  have hi : ∀ j < cfg.shards, (s.db.rings j).committer = .idle := by
    intro j hj
    apply h.committer_idle hp _ hj
    intro f i heq
    rw [hc] at heq
    cases heq
  refine ⟨hb, fun j hj => .inl (hi j hj), ?_, fun hf j hj => ?_, fun hh => ?_⟩
  · exact .of_none rfl nofun
  · have hn : s.db.hasAnyUnsynced cfg = false := (Prod.mk.inj (Option.some.inj hf)).2
    have hy := List.any_eq_false.mp hn j (List.mem_range.mpr hj)
    rw [decide_eq_true_eq] at hy
    exact not_lt.mp hy
  · have ho := h.drain hh
    constructor
    · exact ho.noAppend
    · exact ho.sealed
    · intro j hpo
      cases hpo
    · intro _ j hj
      exact (ho.polled k hc).1 j (hj.trans_le hk) hj

/-- While the flush request is looked at, only the remaining flags change. -/
theorem moveFlag (h : LoopInv C cfg s) {pc pc' : LoopPc} {u : Bool} (hp : s.pc = pc)
    (hm : pc.flagging = some u) (ht : pc'.flagging = some u) (hf : pc'.found = pc.found)
    (hb : LoopBase C cfg { s with pc := pc' }) : LoopInv C cfg { s with pc := pc' } := by
  have hi : ∀ k < cfg.shards, (s.db.rings k).committer = .idle := by
    apply h.idle_of_outside hp
    cases pc <;> cases hm <;> rfl
  apply h.move hb (.refl _) hi _ (hf.trans (congrArg _ hp.symm))
  · rintro k rfl
    cases ht
  · apply WorkOk.of_flag
    · cases pc' <;> cases ht <;> rfl
    · intro hu
      apply h.work.flagging
      rw [hp, hm, ← ht, hu]

theorem flagStep (h : LoopInv C cfg s) (hs : FlagStep cfg s s') : LoopInv C cfg s' := by
  have ha := h.base.step (.flag hs)
  cases hs with
  | pollYes k avail hc hk hv hm =>
    have hp : s.polled cfg = some k := (polled_poll hc).trans (if_pos hk)
    have hkp := LoopKeeps.endScan s.db k
    have hl : ∀ j < cfg.shards, ((s.db.endScan k).rings j).committer = .idle :=
      fun j hj => h.idle_endScan hp hj
    apply h.advance ha hkp (fun j hj => .inl (hl j hj))
    · refine .of_flag rfl fun _ => ⟨k, hk, .of_idle hkp ?_ (hl k hk)⟩
      have hi := (h.dbInv.ring k).inv
      obtain ⟨hu, hsl⟩ : (s.db.rings k).Ready (cfg.ring k) _ := by
        have hok := hi.committer
        rw [hv] at hok
        exact hok
      unfold DbState.Available
      split_ifs with hha
      · exact hm.trans_le (hsl hha)
      · exact hu _ hi.initial_le hm
    · intro hf
      cases hf
    · intro _ j hj
      cases hj
  | pollNo k avail hc hk hv hn =>
    have hp : s.polled cfg = some k := (polled_poll hc).trans (if_pos hk)
    have hl : ∀ j < cfg.shards, ((s.db.endScan k).rings j).committer = .idle :=
      fun j hj => h.idle_endScan hp hj
    apply h.advance ha (.endScan s.db k) (fun j hj => .inl (hl j hj))
    · exact .of_none rfl nofun
    · intro hf
      cases hf
    · intro hd j hj
      cases hj
      obtain ⟨hbl, hh⟩ := hd.polled k hc
      constructor
      · intro j hj hlt
        rcases Nat.lt_succ_iff_lt_or_eq.mp hj with hjk | rfl
        · exact hbl j hjk hlt
        · exact (hh hk avail hv).trans hn
      · intro hlt avail' hb
        rw [hl (k + 1) hlt] at hb
        cases hb
  | pollEnd k hc hk => exact h.pollEnd hc hk ha
  | pendingYes u y k hc _ _ => exact h.moveFlag hc rfl rfl rfl ha
  | pendingNo u y k hc _ _ => exact h.moveFlag hc rfl rfl rfl ha
  | pendingEnd u y k hc _ => exact h.moveFlag hc rfl rfl rfl ha
  | needCommitYes u y k hc _ _ => exact h.moveFlag hc rfl rfl rfl ha
  | needCommitNo u y k hc _ _ => exact h.moveFlag hc rfl rfl rfl ha
  | needCommitEnd u y k hc _ => exact h.moveFlag hc rfl rfl rfl ha
  | needSyncYes u y c k hc _ _ => exact h.moveFlag hc rfl rfl rfl ha
  | needSyncNo u y c k hc _ _ => exact h.moveFlag hc rfl rfl rfl ha
  | needSyncEnd u y c k hc _ => exact h.moveFlag hc rfl rfl rfl ha

theorem scan_cases {rcfg : RingConfig} {r r' : RingState} (hs : CommitterStep rcfg r r')
    (hsc : (∃ cur, r'.committer = .scan cur) ∨ ∃ avail, r'.committer = .batch avail) :
    ∃ pc, r' = { r with committer := pc } ∧
      ((rcfg.hashEnabled = true ∧ pc = .batch r.sealedCursor) ∨
        (rcfg.hashEnabled = false ∧ pc = .scan r.committedCursor) ∨
        (∃ cur, r.committer = .scan cur ∧ pc = .scan (cur + 1)) ∨
        ∃ cur, r.committer = .scan cur ∧ r.isPublished rcfg cur = false ∧ pc = .batch cur) := by
  cases hs with
  | poll hh hpc => exact ⟨_, rfl, .inl ⟨hh, rfl⟩⟩
  | scan hh hpc => exact ⟨_, rfl, .inr (.inl ⟨hh, rfl⟩)⟩
  | more cur hpc hp => exact ⟨_, rfl, .inr (.inr (.inl ⟨cur, hpc, rfl⟩))⟩
  | stop cur hpc hp => exact ⟨_, rfl, .inr (.inr (.inr ⟨cur, hpc, hp, rfl⟩))⟩
  | _ => rcases hsc with ⟨_, hc⟩ | ⟨_, hb⟩ <;> simp_all

section

variable (h : LoopInv C cfg s)
include h

/-- What the poll of a shard that is about to end has seen. -/
theorem scan_committed {cur : ℕ} (hp : s.polled cfg = some k)
    (hs : (s.db.rings k).committer = .scan cur) :
    s.db.committed k ≤ cur ∧ (cfg.ring k).hashEnabled = false := by
  have hk := h.base.polled_lt hp
  have hok := (h.dbInv.ring k).inv.committer
  rw [hs] at hok
  refine ⟨?_, hok.1⟩
  rcases h.committer k hk with hi | ⟨-, ⟨c, hc, hle⟩ | ⟨a, ha⟩⟩ | ⟨f, hpc⟩
  · rw [hi] at hs
    cases hs
  · rw [hs] at hc
    cases hc
    exact hle
  · rw [hs] at ha
    cases ha
  · rw [polled, hpc] at hp
    cases hp

theorem scanStep (hsp : ScanStep cfg s s') : LoopInv C cfg s' := by
  have hba := h.base.step (.scan hsp)
  cases hsp with
  | scan k r hp hsp hsc =>
    obtain ⟨pc, rfl, hcs⟩ := scan_cases hsp hsc
    have hkp : LoopKeeps s.db (s.db.setRing k { s.db.rings k with committer := pc }) :=
      .setRing rfl rfl rfl rfl
    have hf : ((s.db.setRing k { s.db.rings k with committer := pc }).rings k).committer = pc :=
      congrArg RingState.committer (update_self k _ s.db.rings)
    -- whatever the poll returns, it is at least what the ring has to offer
    have hb : ∀ avail n, pc = .batch avail →
        ((cfg.ring k).hashEnabled = true → n ≤ (s.db.rings k).sealedCursor) →
        ((cfg.ring k).hashEnabled = false → ∀ m, s.db.committed k ≤ m → m < n →
          (s.db.rings k).published m = true) → n ≤ avail := by
      intro avail n hpc hh hl
      rcases hcs with ⟨ht, rfl⟩ | ⟨-, rfl⟩ | ⟨cur, -, rfl⟩ | ⟨cur, hc, hs, rfl⟩
      · cases hpc
        exact hh ht
      · cases hpc
      · cases hpc
      · cases hpc
        obtain ⟨hle, hfa⟩ := h.scan_committed hp hc
        -- a poll passes every published record
        by_contra hlt
        have hv := (h.dbInv.ring k).covered.visible _ hle (hl hfa _ hle (by omega))
        rw [hs] at hv
        cases hv
    apply h.advance hba hkp
    · intro j hj
      by_cases hk : j = k
      · subst hk
        refine .inr (.inl ⟨hp, ?_⟩)
        rw [hf, hkp.committed j]
        rcases hcs with ⟨-, rfl⟩ | ⟨-, rfl⟩ | ⟨cur, hc, rfl⟩ | ⟨cur, -, -, rfl⟩
        · exact .inr ⟨_, rfl⟩
        · exact .inl ⟨_, rfl, le_rfl⟩
        · exact .inl ⟨_, rfl, (h.scan_committed hp hc).1.trans (Nat.le_succ cur)⟩
        · exact .inr ⟨_, rfl⟩
      · left
        rw [s.db.committer_setRing_of_ne hk]
        exact h.committer_idle_of_ne hp hj hk
    · apply h.work.setDb
      intro j hj hr
      refine ⟨?_, fun avail hb' => ?_⟩
      · have ha := hr.1
        unfold DbState.Available at *
        rw [hkp.committed j, hkp.sealed j, hkp.published j]
        exact ha
      · rw [hkp.committed j]
        by_cases hk : j = k
        · subst hk
          rw [hf] at hb'
          have ha := hr.1
          unfold DbState.Available at ha
          apply hb avail (s.db.committed j + 1) hb'
          · intro hh
            rwa [if_pos hh] at ha
          · intro hh m hge hlt
            rw [if_neg (by rw [hh]; exact Bool.false_ne_true)] at ha
            rw [show m = s.db.committed j by omega]
            exact ha
        · rw [s.db.committer_setRing_of_ne hk] at hb'
          exact hr.2 avail hb'
    · exact id
    · intro hd j hpc
      refine ⟨(hd.polled j hpc).1, fun hj avail hb' => ?_⟩
      have hk : s.polled cfg = some j := (polled_poll hpc).trans (if_pos hj)
      rw [hp] at hk
      cases hk
      rw [hf] at hb'
      apply hb avail _ hb' (hd.sealed k hj)
      intro _ m hge hlt
      rcases (h.dbInv.ring k).covered.claimed m ((h.dbInv.ring k).inv.initial_le.trans hge) hlt with
        hpub | ⟨t, hn⟩
      · exact hpub
      · rw [h.base.db.producersOwned k t (hd.noAppend t k)] at hn
        exact hn.elim

theorem idle_of_chosen {i : ℕ} (hp : s.pc = .choose f startShard i) (hi : cfg.shards ≤ i) :
    ∀ k < cfg.shards, (s.db.rings k).committer = .idle := by
  intro k hk
  apply h.committer_idle _ _ hk
  · exact (polled_choose hp).trans (if_neg (not_lt.mpr hi))
  · intro g j heq
    rw [hp] at heq
    cases heq

end

theorem exists_visited {n j : ℕ} (hs : startShard < n) (hj : j < n) :
    ∃ i < n, (startShard + i) % n = j := by
  rcases le_total startShard j with hle | hle
  · refine ⟨j - startShard, by omega, ?_⟩
    rw [show startShard + (j - startShard) = j by omega]
    exact Nat.mod_eq_of_lt hj
  · rcases lt_or_eq_of_le hle with hlt | rfl
    · refine ⟨j + n - startShard, by omega, ?_⟩
      rw [show startShard + (j + n - startShard) = j + n by omega, Nat.add_mod_right]
      exact Nat.mod_eq_of_lt hj
    · exact ⟨0, by omega, Nat.mod_eq_of_lt hj⟩

section

variable (h : LoopInv C cfg s)
include h

theorem choiceStep (hsp : ChoiceStep cfg s s') : LoopInv C cfg s' := by
  have hb := h.base.step (.choice hsp)
  cases hsp with
  | idle f hpc hl =>
    have hf : f.uncommitted = false ∧ f.unsynced = false := by
      unfold LoopFlags.idle at hl
      simp only [Bool.and_eq_true, Bool.not_eq_true'] at hl
      exact ⟨hl.1.1.1, hl.1.1.2⟩
    apply h.move hb (.refl _) (h.idle_of_outside hpc rfl) (.of_none rfl nofun) _ nofun
    rw [hpc, found, found, hf.1, hf.2]
  | busy f hpc hbu =>
    have hl := h.idle_of_outside hpc rfl
    apply h.move hb (.refl _) hl _ (hpc ▸ rfl) nofun
    refine ⟨nofun, fun g a i he => ?_, nofun, nofun⟩
    cases he
    refine ⟨(Nat.mod_eq_of_lt h.base.current).symm, fun hu => ?_⟩
    obtain ⟨j, hj, hr⟩ := h.work.flagging (by rw [hpc, flagging, hu])
    exact ⟨j, hj, hr, fun i' hi' => absurd hi' (Nat.not_lt_zero i')⟩
  | returnIdle hpc hd =>
    exact h.move hb (.refl _) (h.idle_of_outside hpc rfl) (.of_none rfl nofun) (hpc ▸ rfl) nofun
  | continueIdle hpc hd => exact h.restart hb (.refl _) rfl (h.idle_of_outside hpc rfl)
  | chosen f startShard i avail hpc hi ha hm =>
    have hp : s.polled cfg = some s.currentShard := (polled_choose hpc).trans (if_pos hi)
    exact h.move hb (.endScan s.db s.currentShard) (fun j hj => h.idle_endScan hp hj)
      (.of_none rfl nofun) (hpc ▸ rfl) nofun
  | notChosen f startShard i avail hpc hi ha hnn =>
    have hp : s.polled cfg = some s.currentShard := (polled_choose hpc).trans (if_pos hi)
    have hk := LoopKeeps.endScan s.db s.currentShard
    have hl : ∀ j < cfg.shards, ((s.db.endScan s.currentShard).rings j).committer = .idle :=
      fun j hj => h.idle_endScan hp hj
    obtain ⟨hc, hfn⟩ := h.work.choose f startShard i hpc
    apply h.move hb hk hl _ (hpc ▸ rfl) nofun
    refine ⟨nofun, fun g a n he => ?_, nofun, nofun⟩
    cases he
    refine ⟨?_, fun hu => ?_⟩
    · rw [hc, Nat.mod_add_mod, add_assoc]
    · obtain ⟨j, hj, hr, hn⟩ := hfn hu
      refine ⟨j, hj, .of_idle hk hr.1 (hl j hj), fun i' hi' => ?_⟩
      rcases Nat.lt_succ_iff_lt_or_eq.mp hi' with hlt | rfl
      · exact hn i' hlt
      · -- the shard just polled had nothing, so it is not the one reported
        rw [← hc]
        rintro rfl
        exact absurd (hr.2 avail ha) (not_lt.mpr hnn)
  | chooseStart f startShard i hpc hi hs =>
    exact h.move hb (.refl _) (h.idle_of_chosen hpc hi) (.of_none rfl nofun) (hpc ▸ rfl) nofun
  | chooseNone f startShard i hpc hi hs =>
    have hsa : (choose f startShard i).ShardOk cfg := hpc ▸ h.base.shard
    apply h.move hb (.refl _) (h.idle_of_chosen hpc hi) _ (hpc ▸ rfl) nofun
    refine ⟨nofun, nofun, fun g hg => ?_, nofun⟩
    cases hg
    refine ⟨?_, hs⟩
    by_contra hu
    obtain ⟨j, hj, -, hn⟩ := (h.work.choose f startShard i hpc).2 (Bool.eq_true_of_not_eq_false hu)
    obtain ⟨i', hi', hv⟩ := exists_visited hsa hj
    exact hn i' (hi'.trans_le hi) hv
  | returnChoice f hpc hd =>
    obtain ⟨hu, hy⟩ := h.work.noChoice f hpc
    apply h.move hb (.refl _) (h.idle_of_outside hpc rfl) (.of_none rfl nofun) _ nofun
    rw [hpc, found, found, hu, hy]
  | continueChoice f hpc hd =>
    exact h.restart hb (.refl _) rfl (h.idle_of_outside hpc rfl)

/-- While the loop commits from a shard it holds no other ring. -/
theorem idle_of_commit (hpc : s.pc = .commit f si) (hk : k < cfg.shards)
    (hne : k ≠ si) : (s.db.rings k).committer = .idle := by
  rcases h.committer k hk with hi | ⟨hp, -⟩ | ⟨g, hc⟩
  · exact hi
  · rw [polled, hpc] at hp
    cases hp
  · rw [hpc] at hc
    cases hc
    exact absurd rfl hne

theorem commit_work {r : RingState} (hp : s.pc = .commit f si)
    (hsp : CommitterStep (cfg.ring si) (s.db.rings si) r) (hb : r.committer ≠ .idle)
    (ha : LoopBase C cfg { s with db := s.db.setRing si r }) :
    LoopInv C cfg { s with db := s.db.setRing si r } := by
  have hkp : LoopKeeps s.db (s.db.setRing si r) := by
    cases hsp with
    | store next ho => exact absurd rfl hb
    | _ => exact .setRing rfl rfl rfl rfl
  apply h.advance ha hkp
  · intro j hj
    by_cases hs : j = si
    · exact .inr (.inr ⟨f, hs ▸ hp⟩)
    · left
      rw [s.db.committer_setRing_of_ne hs]
      exact h.idle_of_commit hp hj hs
  · constructor
    · intro hf
      rw [show s.pc = .commit f si from hp] at hf
      cases hf
    · intro g a i hc
      rw [show s.pc = .choose g a i from hc] at hp
      cases hp
    · intro g hn
      rw [show s.pc = .noChoice g from hn] at hp
      cases hp
    · exact h.work.commit
  · exact id
  · intro _ k hk
    rw [show s.pc = .poll k from hk] at hp
    cases hp

theorem commit_stored {next : ℕ} (hp : s.pc = .commit f si) (ha : LoopBase C cfg { s with
      db := s.db.setRing si { s.db.rings si with committedCursor := next, committer := .idle }
      pc := .fsync f }) :
    LoopInv C cfg { s with
      db := s.db.setRing si { s.db.rings si with committedCursor := next, committer := .idle }
      pc := .fsync f } := by
  have hu := h.work.commit f si hp
  have hb : (fsync f).found ≠ some (false, false) := by
    rw [found, hu]
    nofun
  refine ⟨ha, fun j hj => .inl ?_, .of_none rfl nofun, fun hf => absurd hf hb, fun hph => ?_⟩
  · by_cases hs : j = si
    · rw [hs]
      exact congrArg RingState.committer (update_self si _ s.db.rings)
    · rw [s.db.committer_setRing_of_ne hs]
      exact h.idle_of_commit hp hj hs
  · have ho := h.drain hph
    refine ⟨ho.noAppend, fun k hk hh => ?_, nofun, fun hf => absurd hf hb⟩
    have hl := ho.sealed k hk hh
    unfold DbState.producerCursor at *
    show (update s.db.rings si _ k).producerCursor ≤ (update s.db.rings si _ k).sealedCursor
    by_cases hks : k = si
    · subst hks
      rw [update_self]
      exact hl
    · rw [update_of_ne hks]
      exact hl

theorem commitStep (hs : CommitStep cfg s s') : LoopInv C cfg s' := by
  have hb := h.base.step (.commit hs)
  cases hs with
  | begin f si avail upto hc ha hu hge hlt =>
    have hp : s.polled cfg = some si := polled_available hc
    apply h.advance hb (.setRing rfl rfl rfl rfl)
    · intro j hj
      by_cases hjs : j = si
      · exact .inr (.inr ⟨f, hjs ▸ rfl⟩)
      · left
        rw [s.db.committer_setRing_of_ne hjs]
        exact h.committer_idle_of_ne hp hj hjs
    · refine ⟨nofun, nofun, nofun, fun g k hg => ?_⟩
      cases hg
      exact hu
    · exact fun hf => hc ▸ hf
    · nofun
  | skip f si avail hc ha hsk =>
    have hp : s.polled cfg = some si := polled_available hc
    exact h.move hb (.endScan s.db si) (fun j hj => h.idle_endScan hp hj)
      (.of_none rfl nofun) (hc ▸ rfl) nofun
  | work f si r hc hs hbu => exact h.commit_work hc hs hbu hb
  | stored f si next hc ho => exact h.commit_stored hc hb
  | failed f si hc hl =>
    apply h.restart hb (.endScan s.db si) rfl
    intro k hk
    by_cases hks : k = si
    · rw [hks]
      exact s.db.committer_endScan_self si
    · rw [DbState.endScan, s.db.committer_setRing_of_ne hks]
      exact h.idle_of_commit hc hk hks

theorem fsyncStep (hs : FsyncStep cfg s s') : LoopInv C cfg s' := by
  have hb := h.base.step (.fsync hs)
  cases hs with
  | skip f hp =>
    exact h.move hb (.refl _) (h.idle_of_outside hp rfl) (.of_none rfl nofun) (hp ▸ rfl) nofun
  | failed f hp hn => exact h.restart hb (.refl _) rfl (h.idle_of_outside hp rfl)
  | synced f hp hn =>
    exact h.move hb { LoopKeeps.refl s.db with } (h.idle_of_outside hp rfl) (.of_none rfl nofun)
      (hp ▸ rfl) nofun
  | storeDurable f k hp hy =>
    have hi := h.idle_of_outside hp rfl
    have hk : LoopKeeps s.db { s.db with
        durable := update s.db.durable k (s.db.committed k)
        sync := .complete k } := by
      refine { LoopKeeps.refl s.db with durable := fun j => ?_ }
      show s.db.durable j ≤ update s.db.durable k _ j
      by_cases hj : j = k
      · rw [hj, update_self]
        exact h.dbInv.durable_le k
      · rw [update_of_ne hj]
    exact h.stay hb hk hp rfl rfl hi fun _ => LoopPc.noConfusion
  | complete f k hp hy =>
    exact h.stay hb { LoopKeeps.refl s.db with } hp rfl rfl (h.idle_of_outside hp rfl)
      fun _ => LoopPc.noConfusion
  | syncEnd f hp hy =>
    exact h.move hb (.refl _) (h.idle_of_outside hp rfl) (.of_none rfl nofun) (hp ▸ rfl) nofun
  | returnEnd f hp hh hc hu =>
    apply h.move hb (.refl _) (h.idle_of_outside hp rfl) (.of_none rfl nofun) _ nofun
    rw [hp, found, found, hc, hu]
  | continueEnd f hp hg => exact h.restart hb (.refl _) rfl (h.idle_of_outside hp rfl)

theorem step (hs : CalmStep C cfg s s') : LoopInv C cfg s' := by
  obtain ⟨hs, ha, hc⟩ := hs
  cases hs with
  | other ho => exact h.other ho ha hc
  | scan hs => exact h.scanStep hs
  | flag hs => exact h.flagStep hs
  | choice hs => exact h.choiceStep hs
  | commit hs => exact h.commitStep hs
  | fsync hs => exact h.fsyncStep hs

end

end LoopInv

theorem CalmReachable.loop (h : CalmReachable C cfg s) : LoopReachable C cfg s :=
  Relation.ReflTransGen.mono (fun _ _ hs => hs.1) _ _ h

theorem LoopReachable.phase_of_returned (h : LoopReachable C cfg s) (hc : s.pc = .returned) :
    s.db.phase ≠ .run := by
  have hi : LoopBase C cfg s ∧ (s.pc = .returned → s.db.phase ≠ .run) := by
    apply invariant_of_steps
      (P := fun s => LoopBase C cfg s ∧ (s.pc = .returned → s.db.phase ≠ .run)) h
      ⟨.init C cfg, nofun⟩
    rintro a b ⟨hb, hh⟩ hs
    refine ⟨hb.step hs, fun hr => ?_⟩
    cases hs with
    | other ho =>
      have hdb := ((DbInv.init C cfg).run hb.db).2
      exact (hdb.step ho.dbStep).1.phase (hh hr)
    | scan hs =>
      cases hs with
      | scan k r hp _ _ => exact hh hr
    | flag hs => cases hs <;> cases hr
    | choice hs =>
      cases hs with
      | returnIdle _ hd => exact hd.1
      | returnChoice _ _ hd => exact hd.1
      | _ => cases hr
    | commit hs =>
      cases hs with
      | work f si r _ _ _ => exact hh hr
      | _ => cases hr
    | fsync hs =>
      cases hs with
      | storeDurable _ _ _ _ => exact hh hr
      | complete _ _ _ _ => exact hh hr
      | returnEnd _ _ hp' _ _ => exact hp'
      | _ => cases hr
  exact hi.2 hc

end

/-- In every run without abort whose drains start at calm moments: when the loop has returned, every
claimed sequence of every shard is published, sealed, committed and durable. -/
theorem settled_of_returned {C : Crates} {cfg : DbConfig} {s : LoopState}
    (h : CalmReachable C cfg s) (hpc : s.pc = .returned) {k m : ℕ} (hk : k < cfg.shards)
    (hge : (cfg.ring k).initial ≤ m) (hlt : m < s.db.producerCursor k) : s.db.Settled cfg k m := by
  have hi : LoopInv C cfg s := invariant_of_steps h (.init C cfg) fun _ _ hi hsp => hi.step hsp
  have hf : s.pc.found = some (false, false) := by
    rw [hpc]
    rfl
  have hc := (hi.drain (h.loop.phase_of_returned hpc)).found hf k hk
  have hd := hi.synced hf k hk
  obtain ⟨hp, hs⟩ := (hi.dbInv.ring k).inv.committed_ready
  have hm : m < s.db.committed k := hlt.trans_le hc
  exact ⟨hp m hge hm, fun hh => hm.trans_le (hs hh), hm, hm.trans_le hd⟩

section

variable {C : Crates} {cfg : DbConfig} {s s' : LoopState} {db : DbState}

section

variable (h : CalmReachable C cfg s)
include h

theorem CalmReachable.running (hs : LoopStep C cfg s s')
    (hp : s'.db.phase = .run) : CalmReachable C cfg s' :=
  h.tail ⟨hs, hp ▸ Phase.noConfusion, fun _ hne => absurd hp hne⟩

theorem CalmReachable.append (hs : AppendStep cfg 0 s.db db)
    (hp : db.phase = .run) : CalmReachable C cfg { s with db := db } :=
  h.running (.other (.append 0 hs)) hp

theorem CalmReachable.produce {r : RingState} (hc : s.db.callers 0 = .appending 0)
    (hs : ProducerStep (cfg.ring 0) 0 (s.db.rings 0) r) (hb : r.producers 0 ≠ .idle)
    (hp : s.db.phase = .run) : CalmReachable C cfg { s with db := s.db.setRing 0 r } :=
  h.append (.produce 0 r hc hs hb) hp

theorem CalmReachable.draining (hs : LoopStep C cfg s s')
    (hd : s.db.phase = .drain) (hp : s'.db.phase = .drain) : CalmReachable C cfg s' :=
  h.tail ⟨hs, hp ▸ Phase.noConfusion, fun hr => absurd (hd.symm.trans hr) nofun⟩

end

end

theorem settled_after_one_append : ∃ s, CalmReachable rawCrates oneShard s ∧ s.pc = .returned ∧
    s.db.producerCursor 0 = 1 ∧ s.db.Settled oneShard 0 0 := by
  have hq : (oneShard.ring 0).Accepts oneByte := ⟨by decide, fun _ => rfl, by decide⟩
  have hit : CalmReachable rawCrates oneShard oneShard.loopInit := .refl
  have hn := (hit.append (.enter 0 rfl (by decide)) rfl).append (.admitted 0 rfl rfl) rfl
  have hc := ((((hn.produce rfl (.start oneByte rfl hq) nofun rfl
    ).produce rfl (.loadCursor oneByte rfl (by decide)) nofun rfl
    ).produce rfl (.loadCommitted oneByte 0 rfl) nofun rfl
    ).produce rfl (.pass oneByte 0 0 rfl (by decide)) nofun rfl
    ).produce rfl (.casOk oneByte 0 0 9 rfl rfl (by decide)) nofun rfl
  have hr := (((hc.produce rfl (.write oneByte 0 9 0 [7] rfl rfl) nofun rfl
    ).produce rfl (.publish oneByte 0 9 0 rfl) nofun rfl
    ).append (.finished 0 oneByte 0 rfl rfl) rfl).append (.leave (some ⟨0, 0, 1⟩) rfl) rfl
  have hp := (((hr.running (.scan (.scan 0 _ rfl (.scan rfl rfl) (.inl ⟨_, rfl⟩))) rfl
    ).running (.scan (.scan 0 _ rfl (.more 0 rfl rfl) (.inl ⟨_, rfl⟩))) rfl
    ).running (.scan (.scan 0 _ rfl (.stop 1 rfl rfl) (.inr ⟨_, rfl⟩))) rfl
    ).running (.flag (.pollYes 0 1 rfl one_pos rfl one_pos)) rfl
  have hf := ((hp.running (.flag (.pendingNo true false 0 rfl one_pos rfl)) rfl
    ).running (.flag (.pendingEnd true false 1 rfl le_rfl)) rfl
    ).running (.choice (.busy ⟨true, false, false, false⟩ rfl rfl)) rfl
  have hcn := (((hf.running (.scan (.scan 0 _ rfl (.scan rfl rfl) (.inl ⟨_, rfl⟩))) rfl
    ).running (.scan (.scan 0 _ rfl (.more 0 rfl rfl) (.inl ⟨_, rfl⟩))) rfl
    ).running (.scan (.scan 0 _ rfl (.stop 1 rfl rfl) (.inr ⟨_, rfl⟩))) rfl
    ).running (.choice (.chosen _ 0 0 1 rfl one_pos rfl one_pos)) rfl
  have hb := ((hcn.running (.scan (.scan 0 _ rfl (.scan rfl rfl) (.inl ⟨_, rfl⟩))) rfl
    ).running (.scan (.scan 0 _ rfl (.more 0 rfl rfl) (.inl ⟨_, rfl⟩))) rfl
    ).running (.scan (.scan 0 _ rfl (.stop 1 rfl rfl) (.inr ⟨_, rfl⟩))) rfl
  have hs := (((hb.running (.commit (.begin _ 0 1 0 rfl rfl rfl le_rfl one_pos)) rfl
    ).running (.commit (.work _ 0 _ rfl (.read 0 0 rfl) nofun)) rfl
    ).running (.commit (.work _ 0 _ rfl (.last 0 rfl) nofun)) rfl
    ).running (.commit (.stored _ 0 1 rfl rfl)) rfl
  have hy := ((((hs.running (.fsync (.synced _ rfl one_pos)) rfl
    ).running (.fsync (.storeDurable _ 0 rfl rfl)) rfl
    ).running (.fsync (.complete _ 0 rfl rfl)) rfl
    ).running (.fsync (.syncEnd _ rfl rfl)) rfl
    ).running (.fsync (.continueEnd _ rfl (.inl rfl))) rfl
  have hd : CalmReachable rawCrates oneShard _ := hy.tail ⟨.other (.barrier 1 (.startDrain rfl)), nofun,
    fun _ _ =>
    { noAppend := fun t k => by cases t <;> nofun
      sealed := nofun
      awake := .inl ⟨rfl, fun k hk => by rw [Nat.lt_one_iff.mp hk]; rfl⟩ }⟩
  have hg := (((hd.draining (.scan (.scan 0 _ rfl (.scan rfl rfl) (.inl ⟨_, rfl⟩))) rfl rfl
    ).draining (.scan (.scan 0 _ rfl (.stop 1 rfl rfl) (.inr ⟨_, rfl⟩))) rfl rfl
    ).draining (.flag (.pollNo 0 1 rfl one_pos rfl le_rfl)) rfl rfl
    ).draining (.flag (.pollEnd 1 rfl le_rfl)) rfl rfl
  have he := (((hg.draining (.flag (.pendingNo false false 0 rfl one_pos rfl)) rfl rfl
    ).draining (.flag (.pendingEnd false false 1 rfl le_rfl)) rfl rfl
    ).draining (.choice (.idle ⟨false, false, false, false⟩ rfl rfl)) rfl rfl
    ).draining (.choice (.returnIdle rfl ⟨nofun, le_rfl⟩)) rfl rfl
  exact ⟨_, he, rfl, rfl, settled_of_returned he rfl one_pos (Nat.zero_le 0) one_pos⟩

/-- The drain begins while an append stands between its claim and its publication. -/
theorem returned_before_published : ∃ s,
    Relation.ReflTransGen (fun a b => LoopStep rawCrates oneShard a b ∧ b.db.phase ≠ .abort)
      oneShard.loopInit s ∧
    s.pc = .returned ∧ s.db.callers 0 = .appending 0 ∧ s.db.producerCursor 0 = 1 ∧
    (s.db.rings 0).published 0 = false ∧ s.db.committed 0 = 0 ∧ s.db.durable 0 = 0 := by
  have hq : (oneShard.ring 0).Accepts oneByte := ⟨by decide, fun _ => rfl, by decide⟩
  have hit : Relation.ReflTransGen
      (fun a b => LoopStep rawCrates oneShard a b ∧ b.db.phase ≠ .abort) oneShard.loopInit _ := .refl
  have hp := (((((hit.tail ⟨.other (.append 0 (.enter 0 rfl (by decide))), nofun⟩
    ).tail ⟨.other (.append 0 (.admitted 0 rfl rfl)), nofun⟩
    ).tail ⟨.other (.append 0 (.produce 0 _ rfl (.start oneByte rfl hq) nofun)), nofun⟩
    ).tail ⟨.other (.append 0 (.produce 0 _ rfl (.loadCursor oneByte rfl (by decide)) nofun)), nofun⟩
    ).tail ⟨.other (.append 0 (.produce 0 _ rfl (.loadCommitted oneByte 0 rfl) nofun)), nofun⟩
    ).tail ⟨.other (.append 0 (.produce 0 _ rfl (.pass oneByte 0 0 rfl (by decide)) nofun)), nofun⟩
  have hd := (hp.tail
    ⟨.other (.append 0 (.produce 0 _ rfl (.casOk oneByte 0 0 9 rfl rfl (by decide)) nofun)), nofun⟩
    ).tail ⟨.other (.barrier 1 (.startDrain rfl)), nofun⟩
  have hf := (((hd.tail ⟨.scan (.scan 0 _ rfl (.scan rfl rfl) (.inl ⟨_, rfl⟩)), nofun⟩
    ).tail ⟨.scan (.scan 0 _ rfl (.stop 0 rfl rfl) (.inr ⟨_, rfl⟩)), nofun⟩
    ).tail ⟨.flag (.pollNo 0 0 rfl one_pos rfl le_rfl), nofun⟩
    ).tail ⟨.flag (.pollEnd 1 rfl le_rfl), nofun⟩
  have he := (((hf.tail ⟨.flag (.pendingNo false false 0 rfl one_pos rfl), nofun⟩
    ).tail ⟨.flag (.pendingEnd false false 1 rfl le_rfl), nofun⟩
    ).tail ⟨.choice (.idle ⟨false, false, false, false⟩ rfl rfl), nofun⟩
    ).tail ⟨.choice (.returnIdle rfl ⟨nofun, le_rfl⟩), nofun⟩
  exact ⟨_, he, rfl, rfl, rfl, rfl, rfl, rfl⟩

end LogDb.Pipeline
