import LogDb.Format.Crates
import LogDb.Pipeline.Database
import LogDb.Pipeline.RingSteps

/-!
The durability barrier of `flush` and `drain`. A drain that has seen no append in flight after the
phase was set has frozen every producer cursor: a late append backs out when it reads the phase.
-/

namespace LogDb.Pipeline

open Lib Format List Function Option

/-- Counted by `in_flight`. -/
def Caller.counted : Caller → Bool
  | .entered _ => true
  | .backingOut => true
  | .appending _ => true
  | .leaving _ => true
  | _ => false

/-- In a drain, past the point where nothing was in flight. -/
def Caller.hasDrained : Caller → Prop
  | .snapshot .drain _ => True
  | .storeTarget _ => True
  | .request .drain _ _ => True
  | .wait .drain _ _ => True
  | .succeeded .drain => True
  | _ => False

namespace DbState

variable (cfg : DbConfig) (s : DbState)

/-- No append holds or can still get the right to claim. -/
def Frozen : Prop :=
  s.phase ≠ .run ∧ ∀ t k, s.callers t ≠ .appending k

/-- The sequences of `x` are below the durable cursor of its shard. -/
def IsDurable (x : Appended) : Prop :=
  x.first + x.count ≤ s.durable x.shard

def Claimed (x : Appended) : Prop :=
  x.shard < cfg.shards ∧ x.first + x.count ≤ s.producerCursor x.shard

def TargetsOk : Purpose → List ℕ → Prop
  | .flush before, targets => ∀ x ∈ before, s.Claimed cfg x ∧
      ∀ target, targets[x.shard]? = some target → x.first + x.count ≤ target
  | .drain, targets => s.Frozen ∧ ∀ k target, targets[k]? = some target →
      target = s.producerCursor k

def Reached : Purpose → Prop
  | .flush before => ∀ x ∈ before, s.IsDurable x
  | .drain => s.Frozen ∧ ∀ k, k < cfg.shards → s.producerCursor k ≤ s.durable k

def CallerOk : Caller → Prop
  | .entered k => k < cfg.shards
  | .appending k => k < cfg.shards
  | .leaving result => ∀ x ∈ result, s.Claimed cfg x
  | .drainWait => s.phase ≠ .run
  | .snapshot p targets => targets.length ≤ cfg.shards ∧ s.TargetsOk cfg p targets
  | .awaitSealed before targets =>
      targets.length = cfg.shards ∧ s.TargetsOk cfg (.flush before) targets
  | .storeTarget targets => targets.length = cfg.shards ∧ s.TargetsOk cfg .drain targets
  | .request p targets _ => targets.length = cfg.shards ∧ s.TargetsOk cfg p targets
  | .wait p targets k => targets.length = cfg.shards ∧ s.TargetsOk cfg p targets ∧
      ∀ j < k, ∀ target, targets[j]? = some target → target ≤ s.durable j
  | .succeeded p => s.Reached cfg p
  | _ => True

/-- What every step does to the cursors and the phase. -/
structure Progress (s s' : DbState) : Prop where
  cursor : ∀ k, s.producerCursor k ≤ s'.producerCursor k
  durable : ∀ k, s.durable k ≤ s'.durable k
  phase : s.phase ≠ .run → s'.phase ≠ .run
  frozen : s.Frozen → s'.Frozen ∧ ∀ k, s'.producerCursor k = s.producerCursor k

end DbState

def Counts (callers : ℕ → Caller) (n : ℕ) : Prop :=
  ∃ active : Finset ℕ, (∀ t, t ∈ active ↔ (callers t).counted = true) ∧ n = active.card

structure DbInv (C : Crates) (cfg : DbConfig) (s : DbState) : Prop where
  ring : ∀ k, RingReachable C (cfg.ring k) (s.rings k)
  returned : ∀ x ∈ s.returned, s.Claimed cfg x
  durable_le : ∀ k, s.durable k ≤ (s.rings k).committedCursor
  completed_le : ∀ k, s.completed k ≤ s.durable k
  inFlight : Counts s.callers s.inFlight
  callers : ∀ t, s.CallerOk cfg (s.callers t)

variable {C : Crates} {cfg : DbConfig} {s s' s'' : DbState}

namespace DbState

theorem Progress.refl (s : DbState) : s.Progress s :=
  ⟨fun _ => le_rfl, fun _ => le_rfl, fun h => h, fun h => ⟨h, fun _ => rfl⟩⟩

theorem Progress.trans (h : s.Progress s') (h' : s'.Progress s'') : s.Progress s'' := by
  refine ⟨fun k => (h.cursor k).trans (h'.cursor k), fun k => (h.durable k).trans (h'.durable k),
    fun hp => h'.phase (h.phase hp), fun hf => ?_⟩
  obtain ⟨hm, heq⟩ := h.frozen hf
  obtain ⟨he, heq'⟩ := h'.frozen hm
  exact ⟨he, fun k => (heq' k).trans (heq k)⟩

theorem Claimed.mono {x : Appended} (hx : s.Claimed cfg x) (h : s.Progress s') : s'.Claimed cfg x :=
  ⟨hx.1, hx.2.trans (h.cursor x.shard)⟩

theorem TargetsOk.mono {p : Purpose} {targets : List ℕ} (hp : s.TargetsOk cfg p targets)
    (h : s.Progress s') : s'.TargetsOk cfg p targets := by
  cases p with
  | flush before => exact fun x hx => ⟨(hp x hx).1.mono h, (hp x hx).2⟩
  | drain =>
    obtain ⟨hf, heq⟩ := h.frozen hp.1
    exact ⟨hf, fun k target hk => (hp.2 k target hk).trans (heq k).symm⟩

theorem Reached.mono {p : Purpose} (hp : s.Reached cfg p) (h : s.Progress s') :
    s'.Reached cfg p := by
  cases p with
  | flush before => exact fun x hx => le_trans (hp x hx) (h.durable x.shard)
  | drain =>
    obtain ⟨hf, heq⟩ := h.frozen hp.1
    exact ⟨hf, fun k hk => (heq k).trans_le ((hp.2 k hk).trans (h.durable k))⟩

theorem CallerOk.mono {c : Caller} (hc : s.CallerOk cfg c) (h : s.Progress s') :
    s'.CallerOk cfg c := by
  cases c with
  | leaving result => exact fun x hx => (hc x hx).mono h
  | drainWait => exact h.phase hc
  | snapshot p targets => exact ⟨hc.1, hc.2.mono h⟩
  | awaitSealed before targets => exact ⟨hc.1, hc.2.mono h⟩
  | storeTarget targets => exact ⟨hc.1, hc.2.mono h⟩
  | request p targets k => exact ⟨hc.1, hc.2.mono h⟩
  | wait p targets k =>
    exact ⟨hc.1, hc.2.1.mono h, fun j hj target ht => (hc.2.2 j hj target ht).trans (h.durable j)⟩
  | succeeded p => exact Reached.mono hc h
  | _ => exact hc

end DbState

namespace Counts

variable {callers : ℕ → Caller} {n t : ℕ} {c : Caller}

theorem same (h : Counts callers n) (hc : c.counted = (callers t).counted) :
    Counts (update callers t c) n := by
  obtain ⟨active, hm, hd⟩ := h
  refine ⟨active, fun t' => ?_, hd⟩
  rw [hm]
  by_cases ht : t' = t
  · rw [ht, update_self, hc]
  · rw [update_of_ne ht]

theorem enter (h : Counts callers n) (ho : (callers t).counted = false)
    (hc : c.counted = true) : Counts (update callers t c) (n + 1) := by
  obtain ⟨active, hm, rfl⟩ := h
  have hn : t ∉ active := by
    rw [hm, ho]
    exact Bool.false_ne_true
  refine ⟨insert t active, fun t' => ?_, (Finset.card_insert_of_notMem hn).symm⟩
  rw [Finset.mem_insert, hm]
  by_cases ht : t' = t
  · rw [ht, update_self, hc]
    simp
  · rw [update_of_ne ht]
    simp [ht]

theorem leave (h : Counts callers n) (hi : (callers t).counted = true)
    (hc : c.counted = false) : Counts (update callers t c) (n - 1) := by
  obtain ⟨active, hm, rfl⟩ := h
  refine ⟨active.erase t, fun t' => ?_, (Finset.card_erase_of_mem ((hm t).mpr hi)).symm⟩
  rw [Finset.mem_erase, hm]
  by_cases ht : t' = t
  · rw [ht, update_self, hc]
    simp
  · rw [update_of_ne ht]
    simp [ht]

theorem not_counted_of_zero (h : Counts callers 0) (t : ℕ) : (callers t).counted = false := by
  obtain ⟨active, hm, hd⟩ := h
  rw [Finset.card_eq_zero.mp hd.symm] at hm
  by_contra hc
  exact absurd ((hm t).mpr (Bool.eq_true_of_not_eq_false hc)) (Finset.notMem_empty t)

end Counts

namespace DbInv

variable {t : ℕ} {c : Caller} {targets : List ℕ}

section

variable (h : DbInv C cfg s)
include h

/-- Of a step that only moves one caller, what concerns that caller is left to show. -/
theorem moveCaller (hg : s'.rings = s.rings) (hd : s'.durable = s.durable)
    (hcd : s'.completed = s.completed) (ha : s'.callers = update s.callers t c)
    (hh : s.phase ≠ .run → s'.phase ≠ .run) (hc : s.phase ≠ .run → ∀ k, c ≠ .appending k)
    (hr : ∀ x ∈ s'.returned, s.Claimed cfg x) (hok : s.Progress s' → s'.CallerOk cfg c)
    (hn : Counts (update s.callers t c) s'.inFlight) : s.Progress s' ∧ DbInv C cfg s' := by
  have hu : ∀ k, s'.producerCursor k = s.producerCursor k := fun k => by
    unfold DbState.producerCursor
    rw [hg]
  have hp : s.Progress s' := by
    refine ⟨fun k => (hu k).ge, fun k => (congrFun hd k).ge, hh,
      fun hf => ⟨⟨hh hf.1, fun t' k => ?_⟩, hu⟩⟩
    rw [ha]
    by_cases ht : t' = t
    · rw [ht, update_self]
      exact hc hf.1 k
    · rw [update_of_ne ht]
      exact hf.2 t' k
  refine ⟨hp, fun k => ?_, fun x hx => (hr x hx).mono hp, fun k => ?_,
    fun k => ?_, ?_, fun t' => ?_⟩
  · rw [hg]
    exact h.ring k
  · rw [hg, hd]
    exact h.durable_le k
  · rw [hcd, hd]
    exact h.completed_le k
  · rw [ha]
    exact hn
  · rw [ha]
    by_cases ht : t' = t
    · rw [ht, update_self]
      exact hok hp
    · rw [update_of_ne ht]
      exact (h.callers t').mono hp

theorem setRing {k : ℕ} {r : RingState} (hs : RingStep C (cfg.ring k) (s.rings k) r)
    (hkp : s.Frozen → r.producerCursor = s.producerCursor k) :
    s.Progress (s.setRing k r) ∧ DbInv C cfg (s.setRing k r) := by
  obtain ⟨hc, ho⟩ := (h.ring k).inv.cursors_le hs
  have hcs : ∀ {P : ℕ → RingState → Prop}, P k r → (∀ j, P j (s.rings j)) →
      ∀ j, P j ((s.setRing k r).rings j) := fun hk ha =>
    (forall_update_iff s.rings (p := _)).mpr ⟨hk, fun j _ => ha j⟩
  have hp : s.Progress (s.setRing k r) :=
    ⟨hcs (P := fun j x => s.producerCursor j ≤ x.producerCursor) hc fun _ => le_rfl,
      fun _ => le_rfl, id, fun hf => ⟨hf, hcs
        (P := fun j x => x.producerCursor = s.producerCursor j) (hkp hf) fun _ => rfl⟩⟩
  exact ⟨hp, hcs ((h.ring k).tail hs) h.ring, fun x hx => (h.returned x hx).mono hp,
    hcs (P := fun j x => s.durable j ≤ x.committedCursor) ((h.durable_le k).trans ho)
      h.durable_le,
    h.completed_le, h.inFlight, fun t => (h.callers t).mono hp⟩

theorem release {shard : ℕ} {result : Option Appended}
    (hpc : s.callers t = .appending shard) (hg : (s.rings shard).producers t = .queueFull ∨
      ∃ req seq, (s.rings shard).producers t = .claimed req seq)
    (hr : ∀ x ∈ result, s.Claimed cfg x) :
    s.Progress ((s.setRing shard ((s.rings shard).setProducer t .idle)).setCaller t
        (.leaving result)) ∧
      DbInv C cfg ((s.setRing shard ((s.rings shard).setProducer t .idle)).setCaller t
        (.leaving result)) := by
  obtain ⟨hp, hm⟩ := h.setRing (C := C) (.producer t (.returned hg)) fun _ => rfl
  set mid := s.setRing shard ((s.rings shard).setProducer t .idle)
  have hc : (Caller.leaving result).counted = (s.callers t).counted := by
    rw [hpc]
    rfl
  obtain ⟨hp', hi⟩ : mid.Progress (mid.setCaller t (.leaving result)) ∧
      DbInv C cfg (mid.setCaller t (.leaving result)) :=
    hm.moveCaller rfl rfl rfl rfl id (fun _ k => Caller.noConfusion) hm.returned
      (fun hl x hx => ((hr x hx).mono hp).mono hl) (hm.inFlight.same hc)
  exact ⟨hp.trans hp', hi⟩

theorem moveOutside (hg : s'.rings = s.rings) (hd : s'.durable = s.durable)
    (hcd : s'.completed = s.completed) (ha : s'.callers = update s.callers t c)
    (hc : s'.inFlight = s.inFlight) (hp : s.phase ≠ .run → s'.phase ≠ .run)
    (hr : s'.returned = s.returned) (ho : (s.callers t).counted = false) (hn : c.counted = false)
    (hok : s.Progress s' → s'.CallerOk cfg c) : s.Progress s' ∧ DbInv C cfg s' := by
  refine h.moveCaller hg hd hcd ha hp (fun _ k => ?_) ?_ hok ?_
  · rintro rfl
    exact Bool.false_ne_true hn.symm
  · rw [hr]
    exact h.returned
  · rw [hc]
    exact h.inFlight.same (hn.trans ho.symm)

theorem caller_at (hp : s.callers t = c) : s.CallerOk cfg c :=
  hp ▸ h.callers t

theorem moveTo {c' : Caller} (hp : s.callers t = c) (ho : c.counted = false)
    (hn : c'.counted = false) (hok : s.CallerOk cfg c') :
    s.Progress (s.setCaller t c') ∧ DbInv C cfg (s.setCaller t c') :=
  h.moveOutside rfl rfl rfl rfl rfl id rfl (hp ▸ ho) hn hok.mono

theorem appendStep (hs : AppendStep cfg t s s') : s.Progress s' ∧ DbInv C cfg s' := by
  cases hs with
  | enter shard hp hd =>
    refine h.moveCaller rfl rfl rfl rfl id (fun _ k => Caller.noConfusion) h.returned
      (fun _ => hd) ?_
    exact h.inFlight.enter (by rw [hp]; rfl) rfl
  | admitted shard hp hh =>
    refine h.moveCaller rfl rfl rfl rfl id (fun hr => absurd hh hr) h.returned
      (fun _ => h.caller_at hp) ?_
    exact h.inFlight.same (by rw [hp]; rfl)
  | rejected shard hp hh =>
    refine h.moveCaller rfl rfl rfl rfl id (fun _ k => Caller.noConfusion) h.returned
      (fun _ => trivial) ?_
    exact h.inFlight.same (by rw [hp]; rfl)
  | backOut hp =>
    refine h.moveCaller rfl rfl rfl rfl id (fun _ k => Caller.noConfusion) h.returned
      (fun _ => trivial) ?_
    exact h.inFlight.leave (by rw [hp]; rfl) rfl
  | produce shard r hp hs hb =>
    exact h.setRing (.producer t hs) fun hf => absurd hp (hf.2 t shard)
  | finished shard req seq hp hg =>
    have hc := (h.ring shard).inv.producer t
    rw [hg] at hc
    refine h.release hp (.inr ⟨req, seq, hg⟩) fun x hx => ?_
    obtain rfl : _ = x := mem_some.mp hx
    exact ⟨h.caller_at hp, hc⟩
  | refused shard hp hg =>
    exact h.release hp (.inl hg) fun x hx => absurd hx (not_mem_none x)
  | leave result hp =>
    refine h.moveCaller rfl rfl rfl rfl id (fun _ k => Caller.noConfusion) (fun x hx => ?_)
      (fun _ => trivial) ?_
    · rcases mem_append.mp hx with hx | hx
      · exact h.returned x hx
      · exact h.caller_at hp x (mem_toList.mp hx)
    · exact h.inFlight.leave (by rw [hp]; rfl) rfl

end

theorem targetsOk_load {p : Purpose} (hp : s.TargetsOk cfg p targets) :
    s.TargetsOk cfg p (targets ++ [s.producerCursor targets.length]) := by
  have hs : ∀ k target, (targets ++ [s.producerCursor targets.length])[k]? = some target →
      targets[k]? = some target ∨ target = s.producerCursor k := by
    intro k target hk
    rcases lt_trichotomy k targets.length with hlt | rfl | hgt
    · rw [getElem?_append_left hlt] at hk
      exact .inl hk
    · rw [getElem?_concat_length] at hk
      exact .inr (some.inj hk).symm
    · rw [getElem?_eq_none (by simp; omega)] at hk
      exact absurd hk (some_ne_none target).symm
  cases p with
  | flush before =>
    intro x hx
    obtain ⟨hc, ho⟩ := hp x hx
    refine ⟨hc, fun target ht => ?_⟩
    rcases hs x.shard target ht with ht | rfl
    · exact ho target ht
    · exact hc.2
  | drain =>
    refine ⟨hp.1, fun k target ht => ?_⟩
    rcases hs k target ht with ht | rfl
    · exact hp.2 k target ht
    · rfl

/-- When every shard has caught up with its target, the purpose is reached. -/
theorem reached_of_targets {p : Purpose} (hl : targets.length = cfg.shards)
    (hp : s.TargetsOk cfg p targets)
    (hd : ∀ k target, targets[k]? = some target → target ≤ s.durable k) : s.Reached cfg p := by
  have hs : ∀ k, k < cfg.shards → ∃ target, targets[k]? = some target :=
    fun k hk => ⟨_, getElem?_eq_getElem (hl ▸ hk)⟩
  cases p with
  | flush before =>
    intro x hx
    obtain ⟨hc, hle⟩ := hp x hx
    obtain ⟨target, ht⟩ := hs x.shard hc.1
    exact (hle target ht).trans (hd x.shard target ht)
  | drain =>
    refine ⟨hp.1, fun k hk => ?_⟩
    obtain ⟨target, ht⟩ := hs k hk
    exact (hp.2 k target ht).ge.trans (hd k target ht)

theorem barrierStep (h : DbInv C cfg s) (hs : BarrierStep cfg t s s') :
    s.Progress s' ∧ DbInv C cfg s' := by
  cases hs with
  | flush hp =>
    exact h.moveTo hp rfl rfl ⟨Nat.zero_le _, fun x hx => ⟨h.returned x hx, nofun⟩⟩
  | startDrain hp =>
    exact h.moveOutside rfl rfl rfl rfl rfl (fun _ => Phase.noConfusion) rfl (by rw [hp]; rfl)
      rfl fun _ => Phase.noConfusion
  | observed hp hz =>
    refine h.moveTo hp rfl rfl ⟨Nat.zero_le _, ⟨h.caller_at hp, fun t' k hp' => ?_⟩, nofun⟩
    have hc := (hz ▸ h.inFlight).not_counted_of_zero t'
    rw [hp'] at hc
    exact Bool.false_ne_true hc.symm
  | drainTimeout hp hu =>
    exact h.moveOutside rfl rfl rfl rfl rfl (fun _ => Phase.noConfusion) rfl (by rw [hp]; rfl)
      rfl fun _ => trivial
  | load p targets hp hm =>
    refine h.moveTo hp rfl rfl ⟨?_, targetsOk_load (h.caller_at hp).2⟩
    rw [length_append]
    exact hm
  | flushEmpty before targets hp ha hz =>
    exact h.moveTo hp rfl rfl <| reached_of_targets ha (h.caller_at hp).2
      fun k target ht => (hz target (mem_of_getElem? ht)).trans_le (Nat.zero_le _)
  | flushLoaded before targets hp ha he =>
    split_ifs <;> exact h.moveTo hp rfl rfl ⟨ha, (h.caller_at hp).2⟩
  | sealedSeen before targets target hp ht hsl =>
    have hok := h.caller_at hp
    exact h.moveTo hp rfl rfl hok
  | drainLoaded targets hp ha => exact h.moveTo hp rfl rfl ⟨ha, (h.caller_at hp).2⟩
  | storeTarget targets hp =>
    exact h.moveOutside rfl rfl rfl rfl rfl id rfl (by rw [hp]; rfl) rfl fun hl =>
      ⟨(h.caller_at hp).1, (h.caller_at hp).2.mono hl⟩
  | request p targets k target hp ht =>
    exact h.moveOutside rfl rfl rfl rfl rfl id rfl (by rw [hp]; rfl) rfl fun hl =>
      ⟨(h.caller_at hp).1, (h.caller_at hp).2.mono hl⟩
  | requested p targets hp =>
    exact h.moveTo hp rfl rfl ⟨(h.caller_at hp).1, (h.caller_at hp).2, nofun⟩
  | check p targets k target hp ht hd =>
    have hok := h.caller_at hp
    refine h.moveTo hp rfl rfl ⟨hok.1, hok.2.1, fun j hj target' ht' => ?_⟩
    rcases Nat.lt_succ_iff_lt_or_eq.mp hj with hlt | rfl
    · exact hok.2.2 j hlt target' ht'
    · obtain rfl : target = target' := some.inj (ht.symm.trans ht')
      exact hd.trans (h.completed_le j)
  | retry p targets k target hp ht hb =>
    exact h.moveTo hp rfl rfl ⟨(h.caller_at hp).1, (h.caller_at hp).2.1, nofun⟩
  | done p targets hp =>
    have hok := h.caller_at hp
    exact h.moveTo hp rfl rfl <| reached_of_targets hok.1 hok.2.1 fun k target ht =>
      hok.2.2 k (List.getElem?_eq_some_iff.mp ht).1 target ht
  | giveUp hp =>
    rcases hp with ⟨before, targets, hp⟩ | ⟨p, targets, k, hp⟩ <;> exact h.moveTo hp rfl rfl trivial
  | returned hp =>
    rcases hp with hp | ⟨p, hp⟩ <;> exact h.moveTo hp rfl rfl trivial

theorem backgroundStep (h : DbInv C cfg s) (hs : BackgroundStep C cfg s s') :
    s.Progress s' ∧ DbInv C cfg s' := by
  cases hs with
  | sealer k r hk hs => exact h.setRing (.sealer hs) fun _ => hs.cursor_eq.1
  | commit k r hk hy hs => exact h.setRing (.committer hs) fun _ => hs.cursor_eq
  | syncAll hy => exact ⟨{ DbState.Progress.refl s with }, { h with }⟩
  | storeDurable k hy =>
    have hd : ∀ j, s.durable j ≤ update s.durable k (s.rings k).committedCursor j := by
      exact (forall_update_iff s.durable (p := fun j n => s.durable j ≤ n)).mpr
        ⟨h.durable_le k, fun _ _ => le_rfl⟩
    have hp : s.Progress { s with
        durable := update s.durable k (s.rings k).committedCursor
        sync := .complete k } :=
      { DbState.Progress.refl s with durable := hd }
    exact ⟨hp, { h with
      durable_le := (forall_update_iff s.durable
        (p := fun j n => n ≤ (s.rings j).committedCursor)).mpr ⟨le_rfl, fun j _ => h.durable_le j⟩
      completed_le := fun j => (h.completed_le j).trans (hd j)
      callers := fun t => (h.callers t).mono hp }⟩
  | complete k hy =>
    exact ⟨{ DbState.Progress.refl s with }, { h with
      completed_le := (forall_update_iff s.completed (p := fun j n => n ≤ s.durable j)).mpr
        ⟨Nat.max_le.mpr ⟨h.completed_le k, le_rfl⟩, fun j _ => h.completed_le j⟩ }⟩
  | abort =>
    have hp : s.Progress { s with phase := .abort } :=
      ⟨fun _ => le_rfl, fun _ => le_rfl, fun _ => Phase.noConfusion,
        fun hf => ⟨⟨Phase.noConfusion, hf.2⟩, fun _ => rfl⟩⟩
    exact ⟨hp, { h with callers := fun t => (h.callers t).mono hp }⟩

theorem step (h : DbInv C cfg s) (hs : DbStep C cfg s s') : s.Progress s' ∧ DbInv C cfg s' := by
  cases hs with
  | append t hs => exact h.appendStep hs
  | barrier t hs => exact h.barrierStep hs
  | background hs => exact h.backgroundStep hs

theorem init (C : Crates) (cfg : DbConfig) : DbInv C cfg cfg.init where
  ring := fun _ => .refl
  returned := fun x hx => absurd hx not_mem_nil
  durable_le := fun _ => le_rfl
  completed_le := fun _ => Nat.zero_le _
  inFlight := ⟨∅, fun t => by simp [DbConfig.init, Caller.counted], rfl⟩
  callers := fun _ => trivial

theorem run (h : DbInv C cfg s) (hr : Relation.ReflTransGen (DbStep C cfg) s s') :
    s.Progress s' ∧ DbInv C cfg s' := by
  refine invariant_of_steps (P := fun b => s.Progress b ∧ DbInv C cfg b) hr
    ⟨DbState.Progress.refl s, h⟩ fun a b ha hs => ?_
  obtain ⟨hp, hi⟩ := ha.2.step hs
  exact ⟨ha.1.trans hp, hi⟩

theorem frozen_of_hasDrained (h : DbInv C cfg s) (ht : (s.callers t).hasDrained) : s.Frozen := by
  have hok := h.callers t
  generalize s.callers t = c at ht hok
  cases c with
  | storeTarget targets => exact hok.2.1
  | snapshot p targets | request p targets k =>
    cases p with
    | flush before => exact ht.elim
    | drain => exact hok.2.1
  | wait p targets k =>
    cases p with
    | flush before => exact ht.elim
    | drain => exact hok.2.1.1
  | succeeded p =>
    cases p with
    | flush before => exact ht.elim
    | drain => exact hok.1
  | _ => exact ht.elim

end DbInv

/-- At every state from which a run goes on: a flush that succeeded has made durable what had
returned when it was called, a drain that saw nothing in flight has frozen the producer cursors,
and a clean drain has made durable every append that ever returns. -/
theorem durability_barrier (C : Crates) (cfg : DbConfig) (s s' : DbState)
    (hreach : DbReachable C cfg s) (hrun : Relation.ReflTransGen (DbStep C cfg) s s') :
    (∀ t before, s.callers t = .succeeded (.flush before) → ∀ x ∈ before, s'.IsDurable x) ∧
    (∀ t, (s.callers t).hasDrained → ∀ k, s'.producerCursor k = s.producerCursor k) ∧
    (∀ t, s.callers t = .succeeded .drain → ∀ x ∈ s'.returned, s'.IsDurable x) := by
  have h := ((DbInv.init C cfg).run hreach).2
  obtain ⟨hp, h'⟩ := h.run hrun
  refine ⟨fun t before ht => ?_, fun t ht => ?_, fun t ht x hx => ?_⟩
  · have hr : s.Reached cfg (.flush before) := h.caller_at ht
    exact hr.mono hp
  · exact (hp.frozen (h.frozen_of_hasDrained ht)).2
  · have hr : s.Reached cfg .drain := h.caller_at ht
    obtain ⟨hs, hle⟩ := h'.returned x hx
    exact hle.trans ((hr.mono hp).2 x.shard hs)

def oneShard : DbConfig where
  shards := 1
  shards_pos := one_pos
  hashEnabled := false
  ring _ := { smallRing with hashEnabled := false }

def oneByte : Request :=
  ⟨false, [[7]]⟩

/-- One append, committed and synced; then a flush by its own thread and a drain by another. -/
theorem durability_barrier_after_append : ∃ s, DbReachable rawCrates oneShard s ∧
    s.callers 0 = .succeeded (.flush [⟨0, 0, 1⟩]) ∧ s.callers 1 = .succeeded .drain ∧
    s.IsDurable ⟨0, 0, 1⟩ := by
  have hq : (oneShard.ring 0).Accepts oneByte := ⟨by decide, fun _ => rfl, by decide⟩
  have hit : DbReachable rawCrates oneShard oneShard.init := .refl
  have hp := ((((((hit.tail (.append 0 (.enter 0 rfl (by decide)))).tail
    (.append 0 (.admitted 0 rfl rfl))).tail
    (.append 0 (.produce 0 _ rfl (.start oneByte rfl hq) nofun))).tail
    (.append 0 (.produce 0 _ rfl (.loadCursor oneByte rfl (by decide)) nofun))).tail
    (.append 0 (.produce 0 _ rfl (.loadCommitted oneByte 0 rfl) nofun))).tail
    (.append 0 (.produce 0 _ rfl (.pass oneByte 0 0 rfl (by decide)) nofun)))
  have hr := ((((hp.tail (.append 0 (.produce 0 _ rfl (.casOk oneByte 0 0 9 rfl rfl (by decide))
    nofun))).tail
    (.append 0 (.produce 0 _ rfl (.write oneByte 0 9 0 [7] rfl rfl) nofun))).tail
    (.append 0 (.produce 0 _ rfl (.publish oneByte 0 9 0 rfl) nofun))).tail
    (.append 0 (.finished 0 oneByte 0 rfl rfl))).tail
    (.append 0 (.leave (some ⟨0, 0, 1⟩) rfl))
  have hc := ((((((hr.tail (.background (.commit 0 _ (by decide) rfl (.scan rfl rfl)))).tail
    (.background (.commit 0 _ (by decide) rfl (.more 0 rfl (by decide +kernel))))).tail
    (.background (.commit 0 _ (by decide) rfl (.stop 1 rfl (by decide +kernel))))).tail
    (.background (.commit 0 _ (by decide) rfl (.begin 1 0 rfl (by decide) (by decide))))).tail
    (.background (.commit 0 _ (by decide) rfl (.read 0 0 rfl)))).tail
    (.background (.commit 0 _ (by decide) rfl (.last 0 rfl)))).tail
    (.background (.commit 0 _ (by decide) rfl (.store 1 rfl)))
  have hy := ((hc.tail (.background (.syncAll rfl))).tail
    (.background (.storeDurable 0 rfl))).tail (.background (.complete 0 rfl))
  have hf := ((((((hy.tail (.barrier 0 (.flush rfl))).tail
    (.barrier 0 (.load _ [] rfl (by decide)))).tail
    (.barrier 0 (.flushLoaded _ [1] rfl rfl ⟨1, by decide, by decide⟩))).tail
    (.barrier 0 (.request _ [1] 0 1 rfl rfl))).tail
    (.barrier 0 (.requested _ [1] rfl))).tail
    (.barrier 0 (.check _ [1] 0 1 rfl rfl (by decide +kernel)))).tail
    (.barrier 0 (.done _ [1] rfl))
  have hd := ((((((((hf.tail (.barrier 1 (.startDrain rfl))).tail
    (.barrier 1 (.observed rfl rfl))).tail
    (.barrier 1 (.load _ [] rfl (by decide)))).tail
    (.barrier 1 (.drainLoaded [1] rfl rfl))).tail
    (.barrier 1 (.storeTarget [1] rfl))).tail
    (.barrier 1 (.request _ [1] 0 1 rfl rfl))).tail
    (.barrier 1 (.requested _ [1] rfl))).tail
    (.barrier 1 (.check _ [1] 0 1 rfl rfl (by decide +kernel)))).tail
    (.barrier 1 (.done _ [1] rfl))
  have hb := durability_barrier rawCrates oneShard _ _ hd .refl
  exact ⟨_, hd, rfl, rfl, hb.2.2 1 rfl _ (mem_singleton.mpr rfl)⟩

end LogDb.Pipeline
