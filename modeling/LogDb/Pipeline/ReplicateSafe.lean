import LogDb.Format.ShardId
import LogDb.Pipeline.Published
import LogDb.Pipeline.Replicate
import LogDb.Pipeline.RingSafe

/-!
Replication is simulated by the ring with one producer: the producer claims the sequence when the
call passes its gate, while the call itself stores the cursor only after it has published. What the
ring keeps therefore holds for the slots, and calls that change nothing add no step to it.
-/

namespace LogDb.Pipeline

open Lib Format List Function Option RingState

def ReplicateCall.request (c : ReplicateCall) : Request :=
  ⟨false, [c.content]⟩

namespace ReplicatePc

/-- Where the simulating producer stands. -/
def producer : ReplicatePc → ProducerPc
  | .idle => .idle
  | .loadCursor _ => .idle
  | .loadCommitted c => .loadCommitted c.request c.sequence
  | .loadSealed c committed => .loadSealed c.request c.sequence committed
  | .gate c wm => .gate c.request c.sequence wm
  | .write c => .write c.request c.sequence c.timestampNs 0
  | .publish c => .publish c.request c.sequence c.timestampNs 0
  | .store c => .claimed c.request c.sequence

/-- The cursor of the simulating ring. -/
def cursor : ReplicatePc → ℕ → ℕ
  | .write c, _ => c.sequence + 1
  | .publish c, _ => c.sequence + 1
  | .store c, _ => c.sequence + 1
  | _, cur => cur

end ReplicatePc

def RingState.withProducer (s : RingState) (cursor : ℕ) (pc : ProducerPc)
    (claims : List (ℕ × ℕ)) : RingState :=
  { s with
    producerCursor := cursor
    producers := Function.update (fun _ => .idle) 0 pc
    claims := claims }

namespace RingState

variable (s : RingState) (cursor : ℕ) (pc : ProducerPc) (claims : List (ℕ × ℕ))

theorem withProducer_producers : (s.withProducer cursor pc claims).producers 0 = pc := by
  simp [withProducer]

theorem withProducer_setProducer (pc' : ProducerPc) :
    (s.withProducer cursor pc claims).setProducer 0 pc' = s.withProducer cursor pc' claims := by
  unfold withProducer setProducer
  simp only [update_idem]

end RingState

theorem encodeRecordId_single (m : ℕ) : encodeRecordId 0 m (shardBits 1) = UInt64.ofNat m := by
  have hb : shardBits 1 = 0 := by decide
  simp [encodeRecordId, hb]

section

variable {C : Crates} {cfg : RingConfig} {s s' : RingState}

/-- The consumers look neither at the producers nor at their cursor. -/
theorem ConsumerStep.withProducer (h : ConsumerStep C cfg s s') (cursor : ℕ) (pc : ProducerPc)
    (claims : List (ℕ × ℕ)) :
    RingStep C cfg (s.withProducer cursor pc claims) (s'.withProducer cursor pc claims) := by
  cases h with
  | sealer h =>
    apply RingStep.sealer
    cases h <;> constructor <;> assumption
  | committer h =>
    apply RingStep.committer
    cases h with
    | fail hp => exact .fail hp
    | _ => constructor <;> assumption

theorem ConsumerStep.keeps (h : ConsumerStep C cfg s s') :
    s'.producerCursor = s.producerCursor ∧ s'.written = s.written := by
  cases h with
  | sealer h => cases h <;> exact ⟨rfl, rfl⟩
  | committer h => cases h <;> exact ⟨rfl, rfl⟩

theorem consumers_keep (h : Relation.ReflTransGen (ConsumerStep C cfg) s s') :
    s'.producerCursor = s.producerCursor := by
  induction h with
  | refl => rfl
  | tail _ hl ih => rw [hl.keeps.1, ih]

end

namespace ReplicaState

/-- The state of the simulating ring. -/
def ahead (st : ReplicaState) (claims : List (ℕ × ℕ)) : RingState :=
  st.ring.withProducer (st.pc.cursor st.ring.producerCursor) st.pc.producer claims

end ReplicaState

/-- The call that began at `callStart` has found its sequence to be the next one. -/
structure ReplicateCall.InOrder (c : ReplicateCall) (callStart ring : RingState) : Prop where
  next : c.sequence = ring.producerCursor
  space : c.sequence + 2 < 2 ^ 64
  start : callStart.producerCursor = ring.producerCursor

/-- What is known at each point of a call: up to the gate only the consumers have touched the
ring. -/
def ReplicatePc.Ok (C : Crates) (cfg : RingConfig) (callStart ring : RingState) :
    ReplicatePc → Prop
  | .idle => True
  | .loadCursor c => Relation.ReflTransGen (ConsumerStep C cfg) callStart ring ∧
      c.content.length ≤ cfg.maxContentSize
  | .loadCommitted c => Relation.ReflTransGen (ConsumerStep C cfg) callStart ring ∧
      c.InOrder callStart ring
  | .loadSealed c _ => Relation.ReflTransGen (ConsumerStep C cfg) callStart ring ∧
      c.InOrder callStart ring
  | .gate c _ => Relation.ReflTransGen (ConsumerStep C cfg) callStart ring ∧
      c.InOrder callStart ring
  | .write c => c.InOrder callStart ring
  | .publish c => c.InOrder callStart ring ∧ ring.written c.sequence = some c.payload
  | .store c => c.InOrder callStart ring ∧ ring.written c.sequence = some c.payload

namespace Replicated

def succeeded (r : Replicated) : Bool :=
  match r.result with
  | .ok _ => true
  | .error _ => false

end Replicated

def firstAccepted (returned : List Replicated) (m : ℕ) : Option Replicated :=
  returned.find? fun r => r.call.sequence == m && r.succeeded

structure ReplicaInv (C : Crates) (cfg : RingConfig) (st : ReplicaState) : Prop where
  simulated : ∃ claims, RingReachable C cfg (st.ahead claims)
  pc : st.pc.Ok C cfg st.callStart st.ring
  records : ∀ m, cfg.initial ≤ m → m < st.ring.producerCursor →
    ∃ r, firstAccepted st.returned m = some r ∧ st.ring.written m = some r.call.payload
  below : ∀ r ∈ st.returned, r.succeeded = true → r.call.sequence < st.ring.producerCursor
  untouched : ∀ r ∈ st.returned,
    r.succeeded = false ∨ r.call.sequence < r.before.producerCursor →
    Relation.ReflTransGen (ConsumerStep C cfg) r.before r.after

section

variable {C : Crates} {cfg : RingConfig} {st st' : ReplicaState} {returned : List Replicated}
  {ring : RingState} {pc pc' : ProducerPc} {claims : List (ℕ × ℕ)}

theorem firstAccepted_append {m : ℕ} {r : Replicated} (h : firstAccepted returned m = some r)
    (new : Replicated) : firstAccepted (returned ++ [new]) m = some r := by
  unfold firstAccepted at h ⊢
  rw [find?_append, h, some_or]

namespace ReplicaInv

theorem init (C : Crates) (cfg : RingConfig) : ReplicaInv C cfg (.init cfg) where
  simulated := by
    refine ⟨[], ?_⟩
    have hit : (ReplicaState.init cfg).ahead [] = cfg.init := by
      unfold ReplicaState.ahead withProducer ReplicaState.init RingConfig.init
      simp only [ReplicatePc.producer, ReplicatePc.cursor, update_eq_self]
    rw [hit]
    exact .refl
  pc := trivial
  records m hge hlt := absurd hge (not_le.mpr hlt)
  below := by simp [ReplicaState.init]
  untouched := by simp [ReplicaState.init]

variable {pc : ReplicatePc}

section

variable (h : ReplicaInv C cfg st)
include h

theorem at_pc (hp : st.pc = pc) : pc.Ok C cfg st.callStart st.ring ∧ ∃ claims, RingReachable C cfg
      (st.ring.withProducer (pc.cursor st.ring.producerCursor) pc.producer claims) :=
  hp ▸ ⟨h.pc, h.simulated⟩

/-- A call that ends without a write leaves the ring to the consumers. -/
theorem finish {c : ReplicateCall} {result : Except AppendError Unit}
    (hs : ∃ claims, RingReachable C cfg ((st.finish c result st.ring).ahead claims))
    (hq : Relation.ReflTransGen (ConsumerStep C cfg) st.callStart st.ring)
    (hb : result = .ok () → c.sequence < st.ring.producerCursor) :
    ReplicaInv C cfg (st.finish c result st.ring) where
  simulated := hs
  pc := trivial
  records m hge hlt := by
    obtain ⟨r, hf, hw⟩ := h.records m hge hlt
    exact ⟨r, firstAccepted_append hf _, hw⟩
  below r hr hok := by
    rcases mem_append.mp hr with ho | hn
    · exact h.below r ho hok
    · obtain rfl := mem_singleton.mp hn
      cases result with
      | ok _ => exact hb rfl
      | error e => exact absurd hok Bool.false_ne_true
  untouched r hr hcs := by
    rcases mem_append.mp hr with ho | hn
    · exact h.untouched r ho hcs
    · obtain rfl := mem_singleton.mp hn
      exact hq

theorem goto (hs : ∃ claims, RingReachable C cfg ((st.goto pc).ahead claims))
    (hp : pc.Ok C cfg st.callStart st.ring) : ReplicaInv C cfg (st.goto pc) :=
  ⟨hs, hp, h.records, h.below, h.untouched⟩

theorem beginCall (hp : st.pc = .idle) : ReplicaInv C cfg { st with callStart := st.ring } where
  simulated := h.simulated
  pc := by
    show st.pc.Ok C cfg st.ring st.ring
    rw [hp]
    trivial
  records := h.records
  below := h.below
  untouched := h.untouched

end

end ReplicaInv

theorem RingReachable.produce {cursor cursor' : ℕ} {claims' : List (ℕ × ℕ)} {ring' : RingState}
    (hr : RingReachable C cfg (ring.withProducer cursor pc claims))
    (hs : ProducerStep cfg 0 (ring.withProducer cursor pc claims)
      (ring'.withProducer cursor' pc' claims')) :
    RingReachable C cfg (ring'.withProducer cursor' pc' claims') :=
  hr.tail (.producer 0 hs)

theorem ProducerStep.withProducer {cursor : ℕ}
    (hs : ProducerStep cfg 0 (ring.withProducer cursor pc claims)
      ((ring.withProducer cursor pc claims).setProducer 0 pc')) :
    ProducerStep cfg 0 (ring.withProducer cursor pc claims)
      (ring.withProducer cursor pc' claims) := by
  rwa [withProducer_setProducer] at hs

namespace ReplicaInv

variable {c : ReplicateCall}

section

variable (h : ReplicaInv C cfg st)
include h

theorem inOrder (hp : st.pc = .loadCursor c) (heq : c.sequence = st.ring.producerCursor)
    (hs : c.sequence + 2 < 2 ^ 64) : ReplicaInv C cfg (st.goto (.loadCommitted c)) := by
  obtain ⟨⟨hq, hl⟩, claims, hr⟩ := h.at_pc hp
  have ha : cfg.Accepts c.request := by
    refine ⟨cons_ne_nil _ _, fun _ => rfl, ?_⟩
    simpa [ReplicateCall.request] using hl
  have hsa := hr.produce (ProducerStep.withProducer
    (.start c.request (withProducer_producers _ _ _ _) ha))
  have hd := hsa.produce (ProducerStep.withProducer
    (.loadCursor c.request (withProducer_producers _ _ _ _) nofun))
  refine h.goto ⟨claims, ?_⟩ ⟨hq, heq, hs, (consumers_keep hq).symm⟩
  show RingReachable C cfg (st.ring.withProducer st.ring.producerCursor
    (.loadCommitted c.request c.sequence) claims)
  rw [heq]
  exact hd

theorem loadCommitted (hp : st.pc = .loadCommitted c) :
    ReplicaInv C cfg (st.goto (if cfg.hashEnabled then .loadSealed c st.ring.committedCursor
      else .gate c st.ring.committedCursor)) := by
  obtain ⟨hok, claims, hr⟩ := h.at_pc hp
  have hl := hr.produce (ProducerStep.withProducer
    (.loadCommitted c.request c.sequence (withProducer_producers _ _ _ _)))
  by_cases hh : cfg.hashEnabled = true
  · rw [if_pos hh] at hl ⊢
    exact h.goto ⟨claims, hl⟩ hok
  · rw [if_neg hh] at hl ⊢
    exact h.goto ⟨claims, hl⟩ hok

theorem loadSealed {committed : ℕ} (hp : st.pc = .loadSealed c committed) :
    ReplicaInv C cfg (st.goto (.gate c (min committed st.ring.sealedCursor))) := by
  obtain ⟨hok, claims, hr⟩ := h.at_pc hp
  have hl := hr.produce (ProducerStep.withProducer
    (.loadSealed c.request c.sequence committed (withProducer_producers _ _ _ _)))
  exact h.goto ⟨claims, hl⟩ hok

theorem full {wm : ℕ} (hp : st.pc = .gate c wm) (hf : cfg.ringSize ≤ wrappingSub c.sequence wm) :
    ReplicaInv C cfg (st.finish c (.error .queueFull) st.ring) := by
  obtain ⟨hok, claims, hu⟩ := h.at_pc hp
  have hd := hu.produce (ProducerStep.withProducer
    (.dropped c.request c.sequence wm (withProducer_producers _ _ _ _) (decide_eq_true hf)))
  have hr := hd.produce (ProducerStep.withProducer
    (.returned (.inl (withProducer_producers _ _ _ _))))
  exact h.finish ⟨claims, hr⟩ hok.1 nofun

theorem pass {wm : ℕ} (hpc : st.pc = .gate c wm) (hm : wrappingSub c.sequence wm < cfg.ringSize) :
    ReplicaInv C cfg (st.goto (.write c)) := by
  obtain ⟨⟨-, ho⟩, claims, hr⟩ := h.at_pc hpc
  have hp := hr.produce (ProducerStep.withProducer
    (.pass c.request c.sequence wm (withProducer_producers _ _ _ _)
      (decide_eq_false (not_le.mpr hm))))
  -- the simulating producer claims now, before the call writes
  have hc := hp.tail (.producer 0 (.casOk c.request c.sequence wm c.timestampNs
    (withProducer_producers _ _ _ _) ho.next.symm ho.space))
  rw [withProducer_setProducer] at hc
  exact h.goto ⟨_, hc⟩ ho

theorem write (hi : ∀ m, cfg.idOf m = UInt64.ofNat m) (hc : st.pc = .write c) :
    ReplicaInv C cfg { st with
      ring := st.ring.writeSlot cfg c.sequence c.payload, pc := .publish c } := by
  obtain ⟨hok, claims, hr⟩ := h.at_pc hc
  have hp : cfg.payload (c.sequence + 0) c.timestampNs c.content = c.payload := by
    rw [RingConfig.payload, hi]
    rfl
  have hw := hr.tail (.producer 0 (.write c.request c.sequence c.timestampNs 0 c.content
    (withProducer_producers _ _ _ _) rfl))
  rw [hp] at hw
  constructor
  · refine ⟨claims, ?_⟩
    show RingReachable C cfg ((st.ring.writeSlot cfg c.sequence c.payload).withProducer
      (c.sequence + 1) (.publish c.request c.sequence c.timestampNs 0) claims)
    have hfr : ((st.ring.withProducer (c.sequence + 1)
        (.write c.request c.sequence c.timestampNs 0) claims).writeSlot cfg c.sequence
          c.payload).setProducer 0 (.publish c.request c.sequence c.timestampNs 0) =
        (st.ring.writeSlot cfg c.sequence c.payload).withProducer (c.sequence + 1)
          (.publish c.request c.sequence c.timestampNs 0) claims :=
      withProducer_setProducer (st.ring.writeSlot cfg c.sequence c.payload) _ _ _ _
    rw [← hfr]
    exact hw
  · exact ⟨⟨hok.next, hok.space, hok.start⟩, update_self _ _ _⟩
  · intro m hge hlt
    obtain ⟨r, hf, ho⟩ := h.records m hge hlt
    have hne : m ≠ c.sequence := by
      have hn := hok.next
      have hlt' : m < st.ring.producerCursor := hlt
      omega
    exact ⟨r, hf, (update_of_ne hne _ _).trans ho⟩
  · exact h.below
  · exact h.untouched

theorem publish (hc : st.pc = .publish c) :
    ReplicaInv C cfg { st with ring := st.ring.publishSlot cfg c.sequence, pc := .store c } := by
  obtain ⟨hok, claims, hr⟩ := h.at_pc hc
  have hp := hr.tail (.producer 0 (.publish c.request c.sequence c.timestampNs 0
    (withProducer_producers _ _ _ _)))
  constructor
  · refine ⟨claims, ?_⟩
    show RingReachable C cfg ((st.ring.publishSlot cfg c.sequence).withProducer
      (c.sequence + 1) (.claimed c.request c.sequence) claims)
    have hf : ((st.ring.withProducer (c.sequence + 1)
        (.publish c.request c.sequence c.timestampNs 0) claims).publishSlot cfg
          c.sequence).setProducer 0 (.claimed c.request c.sequence) =
        (st.ring.publishSlot cfg c.sequence).withProducer (c.sequence + 1)
          (.claimed c.request c.sequence) claims :=
      withProducer_setProducer (st.ring.publishSlot cfg c.sequence) _ _ _ _
    rw [← hf]
    exact hp
  · exact ⟨⟨hok.1.next, hok.1.space, hok.1.start⟩, hok.2⟩
  · exact h.records
  · exact h.below
  · exact h.untouched

/-- The call returns with the cursor where the simulating producer has it since the gate. -/
theorem store (hp : st.pc = .store c) : ReplicaInv C cfg
      (st.finish c (.ok ()) { st.ring with producerCursor := c.sequence + 1 }) := by
  obtain ⟨⟨hd, hw⟩, claims, hu⟩ := h.at_pc hp
  have he := hu.produce (ProducerStep.withProducer
    (.returned (.inr ⟨c.request, c.sequence, withProducer_producers _ _ _ _⟩)))
  have hn : ∀ r ∈ st.returned, r.succeeded = true → r.call.sequence < c.sequence := by
    intro r hr hs
    rw [hd.next]
    exact h.below r hr hs
  constructor
  · exact ⟨claims, he⟩
  · trivial
  · intro m hge hlt
    rcases lt_or_eq_of_le (Nat.le_of_lt_succ hlt) with ho | rfl
    · obtain ⟨r, hf, hw⟩ := h.records m hge (hd.next ▸ ho)
      exact ⟨r, firstAccepted_append hf _, hw⟩
    · -- no earlier call for this sequence has succeeded
      refine ⟨⟨c, st.callStart, .ok (), { st.ring with producerCursor := c.sequence + 1 }⟩, ?_, hw⟩
      unfold firstAccepted ReplicaState.finish
      rw [find?_append, find?_eq_none.mpr, none_or, find?_singleton]
      · simp [Replicated.succeeded]
      · intro r hr hm
        rw [Bool.and_eq_true, beq_iff_eq] at hm
        exact (hn r hr hm.2).ne hm.1
  · intro r hr hs
    show r.call.sequence < c.sequence + 1
    rcases mem_append.mp hr with ho | hl
    · exact Nat.lt_succ_of_lt (hn r ho hs)
    · rw [mem_singleton.mp hl]
      exact lt_add_one _
  · intro r hr hc
    rcases mem_append.mp hr with ho | hl
    · exact h.untouched r ho hc
    · obtain rfl := mem_singleton.mp hl
      rcases hc with hfd | hb
      · exact absurd hfd.symm Bool.false_ne_true
      · have ha := hd.start
        have hx := hd.next
        exact absurd hb (by simp only; omega)

theorem replicateStep (hi : ∀ m, cfg.idOf m = UInt64.ofNat m)
    (hsp : ReplicateStep cfg st st') : ReplicaInv C cfg st' := by
  cases hsp with
  | refused c health entered e hp hc =>
    exact (h.beginCall hp).finish (h.at_pc hp).2 .refl nofun
  | start c health entered hp hc =>
    refine (h.beginCall hp).goto (h.at_pc hp).2 ⟨.refl, ?_⟩
    unfold ReplicateCall.check at hc
    by_contra hl
    rw [if_neg (by decide), if_pos (not_le.mp hl)] at hc
    cases hc
  | duplicate c hp hlt =>
    exact h.finish (h.at_pc hp).2 (h.at_pc hp).1.1 fun _ => hlt
  | outOfOrder c hp hlt =>
    exact h.finish (h.at_pc hp).2 (h.at_pc hp).1.1 nofun
  | inOrder c hp heq hs => exact h.inOrder hp heq hs
  | loadCommitted c hp => exact h.loadCommitted hp
  | loadSealed c committed hp => exact h.loadSealed hp
  | full c wm hp hf => exact h.full hp hf
  | pass c wm hp hr => exact h.pass hp hr
  | write c hp => exact h.write hi hp
  | publish c hp => exact h.publish hp
  | store c hp => exact h.store hp

/-- A step of the sealer or of the committer, at any point of a call. -/
theorem consume {ring : RingState}
    (hs : ConsumerStep C cfg st.ring ring) : ReplicaInv C cfg { st with ring := ring } := by
  obtain ⟨hc, hw⟩ := hs.keeps
  constructor
  · obtain ⟨claims, hr⟩ := h.simulated
    refine ⟨claims, ?_⟩
    show RingReachable C cfg (ring.withProducer (st.pc.cursor ring.producerCursor) _ claims)
    rw [hc]
    exact hr.tail (hs.withProducer _ _ _)
  · have hok := h.pc
    have ho : ∀ c : ReplicateCall, c.InOrder st.callStart st.ring →
        c.InOrder st.callStart ring := by
      rintro c ⟨hn, hp, ha⟩
      exact ⟨hn.trans hc.symm, hp, ha.trans hc.symm⟩
    show st.pc.Ok C cfg st.callStart ring
    generalize st.pc = pc at hok
    cases pc with
    | idle => trivial
    | loadCursor c => exact ⟨hok.1.tail hs, hok.2⟩
    | loadCommitted c | loadSealed c committed | gate c wm =>
      exact ⟨hok.1.tail hs, ho c hok.2⟩
    | write c => exact ho c hok
    | publish c | store c => exact ⟨ho c hok.1, by rw [hw, hok.2]⟩
  · simp only [hc, hw]
    exact h.records
  · simp only [hc]
    exact h.below
  · exact h.untouched

theorem step (hi : ∀ m, cfg.idOf m = UInt64.ofNat m)
    (hs : ReplicaStep C cfg st st') : ReplicaInv C cfg st' := by
  cases hs with
  | replicate hs => exact h.replicateStep hi hs
  | consume hs => exact h.consume hs

end

end ReplicaInv

theorem ReplicaReachable.inv (hi : ∀ m, cfg.idOf m = UInt64.ofNat m)
    (hr : ReplicaReachable C cfg st) : ReplicaInv C cfg st :=
  invariant_of_steps hr (.init C cfg) fun _ _ h hs => h.step hi hs

theorem ReplicaState.pending_ahead (st : ReplicaState) (claims : List (ℕ × ℕ)) (m : ℕ) :
    (∃ t, ((st.ahead claims).producers t).pending m) ↔ st.pc.producer.pending m := by
  constructor
  · rintro ⟨t, ht⟩
    by_cases hz : t = 0
    · subst hz
      rwa [ahead, withProducer_producers] at ht
    · have hi : (st.ahead claims).producers t = .idle := by
        simp [ahead, withProducer, hz]
      rw [hi] at ht
      exact ht.elim
  · intro h
    refine ⟨0, ?_⟩
    rwa [ahead, withProducer_producers]

namespace ReplicaInv

theorem published_iff (h : ReplicaInv C cfg st) (hs : ∀ c, st.pc ≠ .store c) (m : ℕ) :
    st.ring.published m = true ↔ cfg.initial ≤ m ∧ m < st.ring.producerCursor := by
  obtain ⟨claims, hr⟩ := h.simulated
  have hc : st.ring.published m = true →
      cfg.initial ≤ m ∧ m < st.pc.cursor st.ring.producerCursor := hr.inv.published_claimed m
  have hf : st.pc.producer.pending m → st.ring.published m = false := by
    intro hm
    obtain ⟨t, ht⟩ := (st.pending_ahead claims m).mpr hm
    exact (hr.inv.pending_fresh t m ht).2.2
  have ho : cfg.initial ≤ m → m < st.pc.cursor st.ring.producerCursor →
      st.ring.published m = true ∨ st.pc.producer.pending m := by
    intro hge hlt
    rw [← st.pending_ahead claims m]
    exact hr.covered.claimed m hge hlt
  -- the sequence of the call is claimed by the simulating producer and not yet published
  have hw : ∀ c : ReplicateCall, c.sequence = st.ring.producerCursor →
      st.pc.cursor st.ring.producerCursor = c.sequence + 1 →
      (st.pc.producer.pending m ↔ m = c.sequence) →
      (st.ring.published m = true ↔ cfg.initial ≤ m ∧ m < st.ring.producerCursor) := by
    intro c hx hu hpn
    rw [hu] at hc ho
    rw [hpn] at hf ho
    constructor
    · intro hp
      obtain ⟨hge, hlt⟩ := hc hp
      have hne : m ≠ c.sequence := by
        intro heq
        rw [hf heq] at hp
        exact Bool.false_ne_true hp
      exact ⟨hge, by omega⟩
    · rintro ⟨hge, hlt⟩
      exact (ho hge (by omega)).resolve_right (by omega)
  have hg : st.pc.cursor st.ring.producerCursor = st.ring.producerCursor →
      (¬ st.pc.producer.pending m) →
      (st.ring.published m = true ↔ cfg.initial ≤ m ∧ m < st.ring.producerCursor) := by
    intro hu hn
    rw [hu] at hc ho
    exact ⟨hc, fun ⟨hge, hlt⟩ => (ho hge hlt).resolve_right hn⟩
  have hok := h.pc
  cases hpc : st.pc with
  | store c => exact absurd hpc (hs c)
  | write c =>
    rw [hpc] at hok hw
    refine hw c hok.next rfl ?_
    simp only [ReplicatePc.producer, ProducerPc.pending, ReplicateCall.request, length_singleton]
    omega
  | publish c =>
    rw [hpc] at hok hw
    refine hw c hok.1.next rfl ?_
    simp only [ReplicatePc.producer, ProducerPc.pending, ReplicateCall.request, length_singleton]
    omega
  | _ =>
    rw [hpc] at hg
    exact hg rfl id

variable {m : ℕ}

section

variable (h : ReplicaInv C cfg st)
include h

theorem published_of_lt (hge : cfg.initial ≤ m)
    (hlt : m < st.ring.producerCursor) : st.ring.published m = true := by
  by_cases hs : ∃ c, st.pc = .store c
  · obtain ⟨c, hp⟩ := hs
    obtain ⟨claims, hr⟩ := h.simulated
    have hok := h.pc
    rw [hp] at hok
    have hn := hok.1.next
    have hc : m < (st.ahead claims).producerCursor := by
      show m < st.pc.cursor _
      rw [hp]
      show m < c.sequence + 1
      omega
    refine (hr.covered.claimed m hge hc).resolve_right ?_
    rw [st.pending_ahead claims m, hp]
    exact id
  · rw [h.published_iff fun c hp => hs ⟨c, hp⟩]
    exact ⟨hge, hlt⟩

/-- The slot that the call is about to fill holds no sequence that is still to be consumed. -/
theorem slotIndex_ne {c : ReplicateCall} (hpc : st.pc = .write c ∨ st.pc = .publish c)
    (hw : st.ring.consumeWatermark cfg ≤ m) (hp : st.ring.published m = true) :
    cfg.slotIndex m ≠ cfg.slotIndex c.sequence := by
  obtain ⟨claims, hr⟩ := h.simulated
  have hi := hr.inv
  have hn : st.pc.producer.pending c.sequence := by
    rcases hpc with hpc | hpc <;> rw [hpc] <;> exact ⟨le_rfl, lt_add_one _⟩
  obtain ⟨t, ht⟩ := (st.pending_ahead claims c.sequence).mpr hn
  have hc : st.ring.consumeWatermark cfg = st.ring.committedCursor := hi.consumeWatermark_eq
  rw [hc] at hw
  exact hi.slotIndex_ne hw (hi.published_claimed m hp).2 (hi.committed_le_pending ht)
    (hi.pending_fresh t _ ht).2.1 (hi.published_ne_pending ht hp)

end

end ReplicaInv

/-- A standby's ring in every state of every run: the published sequences are those below the
cursor, each with the record of the first call that succeeded for it; what the committer reads is
that record; a call that fails or repeats a sequence leaves the ring to the consumers; no call
touches a slot that is still to be consumed; and a retransmitted log arrives as its own front. -/
theorem replicate_prefix_of_log (hids : ∀ m, cfg.idOf m = encodeRecordId 0 m (shardBits 1))
    (hrun : ReplicaReachable C cfg st) :
    ((∀ c, st.pc ≠ .store c) → ∀ m,
      st.ring.published m = true ↔ cfg.initial ≤ m ∧ m < st.ring.producerCursor) ∧
    (∀ m, cfg.initial ≤ m → m < st.ring.producerCursor →
      ∃ r, firstAccepted st.returned m = some r ∧ st.ring.written m = some r.call.payload ∧
        (st.ring.committedCursor ≤ m → st.ring.isPublished cfg m = true ∧
          r.call.payload.ShownBy (st.ring.slot cfg m).inner.read)) ∧
    (∀ m v, (m, v) ∈ st.ring.reads → ∃ p, st.ring.written m = some p ∧ p.ShownBy v) ∧
    (∀ r ∈ st.returned, r.succeeded = false ∨ r.call.sequence < r.before.producerCursor →
      Relation.ReflTransGen (ConsumerStep C cfg) r.before r.after) ∧
    (∀ st', ReplicateStep cfg st st' → ∀ m, st.ring.consumeWatermark cfg ≤ m →
      st.ring.published m = true → st'.ring.slot cfg m = st.ring.slot cfg m) ∧
    (∀ log : ℕ → UInt64 × Bytes,
      (∀ r ∈ st.returned, log r.call.sequence = (r.call.timestampNs, r.call.content)) →
      ∀ m, cfg.initial ≤ m → m < st.ring.producerCursor →
        st.ring.written m = some ⟨UInt64.ofNat m, (log m).1, (log m).2⟩) := by
  have h := hrun.inv fun m => (hids m).trans (encodeRecordId_single m)
  refine ⟨fun ho => h.published_iff ho, ?_, ?_, h.untouched, ?_, ?_⟩
  · intro m hge hlt
    obtain ⟨r, hf, hw⟩ := h.records m hge hlt
    refine ⟨r, hf, hw, fun hm => ?_⟩
    obtain ⟨claims, hg⟩ := h.simulated
    have hu := h.published_of_lt hge hlt
    obtain ⟨p, hp, -, hs⟩ := hg.inv.live m hm hu
    cases hw.symm.trans hp
    exact ⟨hg.covered.visible m hm hu, hs⟩
  · intro m v hd
    obtain ⟨claims, hg⟩ := h.simulated
    obtain ⟨-, -, p, hw, -, hs⟩ := hg.inv.reads (m, v) hd
    exact ⟨p, hw, hs⟩
  · intro st' hsp m hwm hu
    cases hsp with
    | write c hc =>
      exact st.ring.slot_setSlot_of_ne cfg _ (h.slotIndex_ne (.inl hc) hwm hu)
    | publish c hc =>
      exact st.ring.slot_setSlot_of_ne cfg _ (h.slotIndex_ne (.inr hc) hwm hu)
    | _ => rfl
  · intro log hl m hge hlt
    obtain ⟨r, hf, hw⟩ := h.records m hge hlt
    have hr := mem_of_find?_eq_some hf
    have hq : r.call.sequence = m := by
      have hmc := find?_some hf
      rw [Bool.and_eq_true, beq_iff_eq] at hmc
      exact hmc.1
    rw [hw, ← hq, hl r hr]
    rfl

end

def hiCall : ReplicateCall :=
  ⟨0, 7, [104, 105]⟩

/-- One call is accepted, and a second one for the same sequence is found to be a repetition. -/
theorem replicate_prefix_of_hi : ∃ st, ReplicaReachable rawCrates smallRing st ∧
    st.returned.length = 2 ∧ st.ring.producerCursor = 1 ∧
    ∃ r, firstAccepted st.returned 0 = some r ∧ st.ring.written 0 = some r.call.payload := by
  have hit : ReplicaReachable rawCrates smallRing (.init smallRing) := .refl
  have hg := ((((hit.tail (.replicate (.start hiCall none true rfl rfl))).tail
    (.replicate (.inOrder hiCall rfl rfl (by decide)))).tail
    (.replicate (.loadCommitted hiCall rfl))).tail
    (.replicate (.loadSealed hiCall 0 rfl))).tail
    (.replicate (.pass hiCall 0 rfl (by decide)))
  have hs := ((hg.tail (.replicate (.write hiCall rfl))).tail
    (.replicate (.publish hiCall rfl))).tail
    (.replicate (.store hiCall rfl))
  have hr := (hs.tail (.replicate (.start hiCall none true rfl rfl))).tail
    (.replicate (.duplicate hiCall rfl (by decide)))
  refine ⟨_, hr, rfl, rfl, ?_⟩
  obtain ⟨r, hf, hw, -⟩ := (replicate_prefix_of_log
    (fun m => (encodeRecordId_single m).symm) hr).2.1 0 (by decide) (by decide)
  exact ⟨r, hf, hw⟩

end LogDb.Pipeline
