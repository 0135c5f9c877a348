import LogDb.Pipeline.Barrier

/-!
Claimed sequences: each of them is published or in the hands of a producer at work, and a published
one is seen in its slot until it is committed. A producer only works inside an append.
-/

namespace LogDb.Pipeline

open Lib Format Function RingState

structure RingCovered (cfg : RingConfig) (s : RingState) : Prop where
  claimed : ∀ m, cfg.initial ≤ m → m < s.producerCursor →
    s.published m = true ∨ ∃ t, (s.producers t).pending m
  visible : ∀ m, s.committedCursor ≤ m → s.published m = true → s.isPublished cfg m = true

section

variable {C : Crates} {cfg : RingConfig} {s s' : RingState}

theorem RingState.sequence_setSlot (cfg : RingConfig) (s : RingState) (seq m : ℕ)
    (inner : SlotInner) :
    ((s.setSlot cfg seq { s.slot cfg seq with inner := inner }).slot cfg m).sequence =
      (s.slot cfg m).sequence := by
  by_cases hx : cfg.slotIndex m = cfg.slotIndex seq
  · unfold slot setSlot
    simp only [hx, update_self]
  · rw [s.slot_setSlot_of_ne cfg _ hx]

namespace RingCovered

theorem init (cfg : RingConfig) : RingCovered cfg cfg.init where
  claimed _ hge hlt := absurd hlt (not_lt.mpr hge)
  visible _ _ hp := absurd hp Bool.false_ne_true

variable {t seq : ℕ} {req : Request} {ts : UInt64}

section

variable (h : RingCovered cfg s)
include h

theorem setProducer {pc : ProducerPc} (hn : ∀ m, (s.producers t).pending m → pc.pending m) :
    RingCovered cfg (s.setProducer t pc)  where
  claimed m hge hlt := by
    rcases h.claimed m hge hlt with hp | ⟨t', hm⟩
    · exact .inl hp
    · refine .inr ⟨t', ?_⟩
      show (update s.producers t pc t').pending m
      by_cases ht : t' = t
      · subst ht
        rw [update_self]
        exact hn m hm
      · rwa [update_of_ne ht]
  visible := h.visible

theorem moveProducer {old : ProducerPc} (hp : s.producers t = old) (ho : ∀ m, ¬ old.pending m)
    (pc : ProducerPc) : RingCovered cfg (s.setProducer t pc) := by
  apply h.setProducer
  intro m hm
  rw [hp] at hm
  exact absurd hm (ho m)

theorem casOk {wm : ℕ} (hp : s.producers t = .cas req seq wm) (heq : s.producerCursor = seq) :
    RingCovered cfg { s.setProducer t (.write req seq ts 0) with
      producerCursor := seq + req.contents.length
      claims := s.claims ++ [(seq, req.contents.length)] }  where
  claimed m hge hlt := by
    by_cases ho : m < seq
    · exact (h.moveProducer hp (fun _ hm => hm) _).claimed m hge (heq ▸ ho)
    · refine .inr ⟨t, ?_⟩
      show (update s.producers t _ t).pending m
      rw [update_self]
      exact ⟨not_lt.mp ho, hlt⟩
  visible := h.visible

theorem write {i : ℕ} (p : Payload) (hc : s.producers t = .write req seq ts i) :
    RingCovered cfg ((s.writeSlot cfg (seq + i) p).setProducer t (.publish req seq ts i)) := by
  have hi : RingCovered cfg (s.writeSlot cfg (seq + i) p) :=
    { claimed := h.claimed
      visible := by
        intro m hm hp
        unfold isPublished
        rw [show ((s.writeSlot cfg (seq + i) p).slot cfg m).sequence = (s.slot cfg m).sequence from
          s.sequence_setSlot cfg (seq + i) m _]
        exact h.visible m hm hp }
  apply hi.setProducer
  intro m hm
  change (s.producers t).pending m at hm
  rw [hc] at hm
  exact hm

theorem publish (hn : RingInv C cfg s) {i : ℕ} (hc : s.producers t = .publish req seq ts i) :
    RingCovered cfg ((s.publishSlot cfg (seq + i)).setProducer t
      (if i + 1 < req.contents.length then .write req seq ts (i + 1) else .claimed req seq)) := by
  obtain ⟨-, content, hct, -⟩ : s.ProducerOk cfg (.publish req seq ts i) := hc ▸ hn.producer t
  have hi : i < req.contents.length := (List.getElem?_eq_some_iff.mp hct).1
  have hq : (s.producers t).pending (seq + i) := by
    rw [hc]
    exact ⟨le_rfl, by omega⟩
  constructor
  · intro m hge hlt
    by_cases hm : m = seq + i
    · rw [hm]
      exact .inl (update_self _ _ _)
    rcases h.claimed m hge hlt with hp | ⟨t', hpn⟩
    · exact .inl ((update_of_ne hm _ _).trans hp)
    · refine .inr ⟨t', ?_⟩
      show (update s.producers t _ t').pending m
      by_cases ht : t' = t
      · subst ht
        rw [hc] at hpn
        obtain ⟨hf, hto⟩ := hpn
        rw [update_self, if_pos (by omega)]
        exact ⟨by omega, hto⟩
      · rwa [update_of_ne ht]
  · intro m hm hp
    unfold isPublished
    change (((s.publishSlot cfg (seq + i)).slot cfg m).sequence == m + 1) = true
    by_cases heq : m = seq + i
    · rw [heq, show ((s.publishSlot cfg (seq + i)).slot cfg (seq + i)).sequence = seq + i + 1 from
        congrArg Slot.sequence (s.slot_setSlot_self cfg (seq + i) _)]
      exact beq_self_eq_true _
    · have ho : s.published m = true := (update_of_ne heq _ _).symm.trans hp
      have hs : (s.publishSlot cfg (seq + i)).slot cfg m = s.slot cfg m :=
        hn.slot_setSlot_pending hq _ hm (hn.published_claimed m ho).2 heq
      rw [hs]
      exact h.visible m hm ho

theorem producerStep (hi : RingInv C cfg s)
    (hs : ProducerStep cfg t s s') : RingCovered cfg s' := by
  cases hs with
  | start req hl _ => exact h.moveProducer hl (fun _ hm => hm) _
  | tooLong req hp _ _ => exact h.moveProducer hp (fun _ hm => hm) _
  | loadCursor req hp _ => exact h.moveProducer hp (fun _ hm => hm) _
  | loadCommitted req seq hp => exact h.moveProducer hp (fun _ hm => hm) _
  | loadSealed req seq committed hp => exact h.moveProducer hp (fun _ hm => hm) _
  | dropped req seq wm hp _ => exact h.moveProducer hp (fun _ hm => hm) _
  | blocked req seq wm hp _ => exact h.moveProducer hp (fun _ hm => hm) _
  | pass req seq wm hp _ => exact h.moveProducer hp (fun _ hm => hm) _
  | casOk req seq wm ts hp heq _ => exact h.casOk hp heq
  | casFail req seq wm hp => exact h.moveProducer hp (fun _ hm => hm) _
  | write req seq ts i content hp _ => exact h.write _ hp
  | publish req seq ts i hp => exact h.publish hi hp
  | returned hp =>
    rcases hp with hp | ⟨req, seq, hp⟩
    · exact h.moveProducer hp (fun _ hm => hm) _
    · exact h.moveProducer hp (fun _ hm => hm) _

theorem sealerStep (hs : SealerStep C cfg s s') : RingCovered cfg s' := by
  cases hs with
  | hash cur hi hc hlt =>
    refine ⟨h.claimed, fun m hm hp => ?_⟩
    unfold isPublished
    rw [show (slot cfg { s.sealSlot cfg C cur with sealer := .hashing (cur + 1) hi }
      m).sequence = (s.slot cfg m).sequence from s.sequence_setSlot cfg cur m _]
    exact h.visible m hm hp
  | _ => exact ⟨h.claimed, h.visible⟩

theorem committerStep (hi : RingInv C cfg s)
    (hs : CommitterStep cfg s s') : RingCovered cfg s' := by
  have hle := (hi.cursors_le (.committer hs)).2
  cases hs with
  | store next hc => exact ⟨h.claimed, fun m hm hp => h.visible m (hle.trans hm) hp⟩
  | _ => exact ⟨h.claimed, h.visible⟩

end

end RingCovered

theorem RingReachable.covered (h : RingReachable C cfg s) : RingCovered cfg s := by
  refine invariant_of_reached h (RingCovered.init cfg) fun a b hr hc hs => ?_
  have hi := RingReachable.inv hr
  cases hs with
  | producer t hs => exact hc.producerStep hi hs
  | sealer hs => exact hc.sealerStep hs
  | committer hs => exact hc.committerStep hi hs

end

section

variable {C : Crates} {cfg : DbConfig} {s s' : DbState}

/-- A producer that is not idle belongs to a caller inside its append. -/
def DbState.ProducersOwned (s : DbState) : Prop :=
  ∀ k t, s.callers t ≠ .appending k → (s.rings k).producers t = .idle

namespace DbState.ProducersOwned

variable {t : ℕ}

section

variable (h : s.ProducersOwned)
include h

/-- A caller that is in no append stays outside, or enters one with an idle producer. -/
theorem moveCaller {c : Caller} (hr : s'.rings = s.rings) (hc : s'.callers = update s.callers t c)
    (ho : ∀ k, s.callers t ≠ .appending k) : s'.ProducersOwned := by
  intro k t' hne
  rw [hr]
  by_cases ht : t' = t
  · rw [ht]
    exact h k t (ho k)
  · rw [hc, update_of_ne ht] at hne
    exact h k t' hne

theorem setRing {k : ℕ} {r : RingState}
    (hp : ∀ t, s.callers t ≠ .appending k → r.producers t = (s.rings k).producers t) :
    (s.setRing k r).ProducersOwned := by
  intro j t hne
  show (update s.rings k r j).producers t = .idle
  by_cases hj : j = k
  · subst hj
    rw [update_self, hp t hne]
    exact h j t hne
  · rw [update_of_ne hj]
    exact h j t hne

theorem release {shard : ℕ} {result : Option Appended} (hp : s.callers t = .appending shard) :
    ((s.setRing shard ((s.rings shard).setProducer t .idle)).setCaller t
      (.leaving result)).ProducersOwned := by
  intro k t' hne
  show (update s.rings shard _ k).producers t' = .idle
  by_cases ht : t' = t
  · subst ht
    by_cases hk : k = shard
    · subst hk
      rw [update_self]
      exact update_self _ _ _
    · rw [update_of_ne hk]
      apply h k t'
      rw [hp]
      rintro ⟨⟩
      exact hk rfl
  · have hne' : s.callers t' ≠ .appending k := by
      intro heq
      exact hne ((update_of_ne ht _ _).trans heq)
    by_cases hk : k = shard
    · subst hk
      rw [update_self]
      exact (update_of_ne ht _ _).trans (h k t' hne')
    · rw [update_of_ne hk]
      exact h k t' hne'

theorem appendStep (hs : AppendStep cfg t s s') : s'.ProducersOwned := by
  cases hs with
  | enter shard hp _ => exact h.moveCaller rfl rfl fun k => by rw [hp]; exact Caller.noConfusion
  | admitted shard hp _ => exact h.moveCaller rfl rfl fun k => by rw [hp]; exact Caller.noConfusion
  | rejected shard hp _ => exact h.moveCaller rfl rfl fun k => by rw [hp]; exact Caller.noConfusion
  | backOut hp => exact h.moveCaller rfl rfl fun k => by rw [hp]; exact Caller.noConfusion
  | produce shard r hp hs _ =>
    apply h.setRing
    intro t' hne
    have hne' : t' ≠ t := by
      rintro rfl
      exact hne hp
    cases hs <;> exact update_of_ne hne' _ _
  | finished shard req seq hp _ => exact h.release hp
  | refused shard hp _ => exact h.release hp
  | leave result hp => exact h.moveCaller rfl rfl fun k => by rw [hp]; exact Caller.noConfusion

theorem barrierStep (hs : BarrierStep cfg t s s') : s'.ProducersOwned := by
  have ho : ∀ k, s.callers t ≠ .appending k := by
    intro k heq
    cases hs <;> simp_all
  cases hs <;> exact h.moveCaller rfl rfl ho

theorem backgroundStep (hs : BackgroundStep C cfg s s') : s'.ProducersOwned := by
  cases hs with
  | sealer k r _ hs =>
    apply h.setRing
    intro t _
    cases hs <;> rfl
  | commit k r _ _ hs =>
    apply h.setRing
    intro t _
    cases hs <;> rfl
  | _ => exact h

end

end DbState.ProducersOwned

theorem DbReachable.producersOwned (h : DbReachable C cfg s) : s.ProducersOwned := by
  apply invariant_of_steps (P := DbState.ProducersOwned) h
  · exact fun _ _ _ => rfl
  · intro a b hi hs
    cases hs with
    | append t hs => exact hi.appendStep hs
    | barrier t hs => exact hi.barrierStep hs
    | background hs => exact hi.backgroundStep hs

end

/-- No claimed sequence is lost: its producer still has it, or it is published, and then its slot
shows it until the committer has passed it. -/
theorem claimed_not_lost (C : Crates) (cfg : RingConfig) (s : RingState) (h : RingReachable C cfg s)
    (m : ℕ) (hge : cfg.initial ≤ m) (hlt : m < s.producerCursor) :
    (∃ t, (s.producers t).pending m) ∨ s.published m = true ∧
      (s.committedCursor ≤ m → s.isPublished cfg m = true) := by
  rcases h.covered.claimed m hge hlt with hp | ht
  · exact .inr ⟨hp, fun hc => h.covered.visible m hc hp⟩
  · exact .inl ht

theorem claimed_not_lost_one : ∃ s, RingReachable rawCrates (oneShard.ring 0) s ∧
    s.producerCursor = 1 ∧ ((∃ t, (s.producers t).pending 0) ∨ s.published 0 = true) := by
  have hr : RingReachable rawCrates (oneShard.ring 0) (oneShard.ring 0).init := .refl
  have hc := ((((hr.tail (.producer 0 (.start oneByte rfl ⟨by decide, fun _ => rfl, by decide⟩))).tail
    (.producer 0 (.loadCursor oneByte rfl (by decide)))).tail
    (.producer 0 (.loadCommitted oneByte 0 rfl))).tail
    (.producer 0 (.pass oneByte 0 0 rfl (by decide)))).tail
    (.producer 0 (.casOk oneByte 0 0 9 rfl rfl (by decide)))
  exact ⟨_, hc, rfl, (claimed_not_lost _ _ _ hc 0 le_rfl one_pos).imp_right And.left⟩

end LogDb.Pipeline
