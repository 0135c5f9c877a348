import LogDb.Lib.Transition
import LogDb.Pipeline.Ring

/-!
The inductive invariant of the ring. At its centre is the window of live sequences
`[committed, committed + ringSize)`: inside it no two sequences share a slot.
-/

namespace LogDb.Pipeline

open Lib Format Function RingState

/-- The sequences a producer has claimed and not yet published. -/
def ProducerPc.pending : ProducerPc → ℕ → Prop
  | .write req seq _ i, m => seq + i ≤ m ∧ m < seq + req.contents.length
  | .publish req seq _ i, m => seq + i ≤ m ∧ m < seq + req.contents.length
  | _, _ => False

/-- The hash after the first `k` records of this run, over what the producers wrote. -/
def RingConfig.chainAfter (cfg : RingConfig) (C : Crates) (written : ℕ → Option Payload) :
    ℕ → Bytes32
  | 0 => cfg.lastHash
  | k + 1 => blake3KeyedChain C cfg.hashInit (cfg.chainAfter C written k)
      ((written (cfg.initial + k)).elim [] Payload.content)

namespace RingState

/-- The first sequence the sealer has not hashed, counting those it has yet to announce. -/
def sealedUpTo (s : RingState) : ℕ :=
  match s.sealer with
  | .hashing cur _ => cur
  | .store hi => hi
  | _ => s.sealedCursor

variable (cfg : RingConfig) (s : RingState)

def PublishedBelow (n : ℕ) : Prop :=
  ∀ m, cfg.initial ≤ m → m < n → s.published m = true

/-- Everything below `n` may be committed. -/
def Ready (n : ℕ) : Prop :=
  s.PublishedBelow cfg n ∧ (cfg.hashEnabled = true → n ≤ s.sealedCursor)

def ProducerOk : ProducerPc → Prop
  | .loadCursor req => cfg.Accepts req
  | .loadCommitted req _ => cfg.Accepts req
  | .loadSealed req _ committed => cfg.Accepts req ∧ committed ≤ s.committedCursor
  | .gate req _ wm => cfg.Accepts req ∧ wm ≤ s.committedCursor
  | .cas req seq wm => cfg.Accepts req ∧ wm ≤ s.committedCursor ∧ cfg.full req seq wm = false
  | .write req _ _ i => cfg.Accepts req ∧ i < req.contents.length
  | .publish req seq ts i => cfg.Accepts req ∧ ∃ content, req.contents[i]? = some content ∧
      s.written (seq + i) = some (cfg.payload (seq + i) ts content) ∧
      (cfg.payload (seq + i) ts content).ShownBy (s.slot cfg (seq + i)).inner.read
  | .claimed req seq => seq + req.contents.length ≤ s.producerCursor
  | _ => True

def SealerOk : SealerPc → Prop
  | .start => True
  | .scan cur => cfg.hashEnabled = true ∧ s.sealedCursor ≤ cur ∧ s.PublishedBelow cfg cur
  | .hashing cur hi => cfg.hashEnabled = true ∧ s.sealedCursor ≤ cur ∧ cur ≤ hi ∧
      s.PublishedBelow cfg hi
  | .store hi => cfg.hashEnabled = true ∧ s.sealedCursor ≤ hi ∧ s.PublishedBelow cfg hi

def CommitterOk : CommitterPc → Prop
  | .idle => True
  | .scan cur => cfg.hashEnabled = false ∧ s.Ready cfg cur
  | .batch avail => s.Ready cfg avail
  | .read cur upto => s.committedCursor ≤ cur ∧ cur ≤ upto ∧ s.Ready cfg (upto + 1)
  | .taken cur upto => s.committedCursor ≤ cur ∧ cur ≤ upto ∧ s.Ready cfg (upto + 1)
  | .store next => s.committedCursor ≤ next ∧ s.Ready cfg next

/-- What the committer read for `m` is what the producer and the sealer wrote for `m`. -/
def ReadOk (m : ℕ) (v : ReadView) : Prop :=
  s.published m = true ∧
    (cfg.hashEnabled = true → m < s.sealedCursor ∧ s.hashes m = some v.hashN) ∧
    ∃ p, s.written m = some p ∧ p.recordId = cfg.idOf m ∧ p.ShownBy v

end RingState

structure RingInv (C : Crates) (cfg : RingConfig) (s : RingState) : Prop where
  claims_eq : s.claims.flatMap (fun c => List.range' c.1 c.2) =
    List.range' cfg.initial (s.producerCursor - cfg.initial)
  initial_le_cursor : cfg.initial ≤ s.producerCursor
  cursor_lt : s.producerCursor + 1 < 2 ^ 64
  initial_le : cfg.initial ≤ s.committedCursor
  cursor_le : s.producerCursor ≤ s.committedCursor + cfg.ringSize
  committed_ready : s.Ready cfg s.committedCursor
  sealed_published : s.PublishedBelow cfg s.sealedCursor
  initial_le_sealed : cfg.initial ≤ s.sealedCursor
  published_claimed : ∀ m, s.published m = true → cfg.initial ≤ m ∧ m < s.producerCursor
  pending_fresh : ∀ t m, (s.producers t).pending m →
    cfg.initial ≤ m ∧ m < s.producerCursor ∧ s.published m = false
  pending_unique : ∀ t t' m, (s.producers t).pending m → (s.producers t').pending m → t = t'
  producer : ∀ t, s.ProducerOk cfg (s.producers t)
  sealer_next : s.sealerNext = s.sealedCursor
  sealer : s.SealerOk cfg s.sealer
  committer : s.CommitterOk cfg s.committer
  occupant : ∀ i m, (s.slots i).sequence = m + 1 → s.published m = true ∧ cfg.slotIndex m = i
  live : ∀ m, s.committedCursor ≤ m → s.published m = true →
    ∃ p, s.written m = some p ∧ p.recordId = cfg.idOf m ∧ p.ShownBy (s.slot cfg m).inner.read
  hash_chain : ∀ m, cfg.initial ≤ m → m < s.sealedUpTo →
    s.hashes m = some (cfg.chainAfter C s.written (m + 1 - cfg.initial))
  hash_live : ∀ m, s.committedCursor ≤ m → m < s.sealedUpTo →
    s.hashes m = some (s.slot cfg m).inner.hashN
  sealer_hash : s.sealerHash = cfg.chainAfter C s.written (s.sealedUpTo - cfg.initial)
  reads : ∀ x ∈ s.reads, s.ReadOk cfg x.1 x.2

theorem RingConfig.slotIndex_eq (cfg : RingConfig) (seq : ℕ) :
    cfg.slotIndex seq = seq % cfg.ringSize := by
  obtain ⟨k, hk⟩ := cfg.ringSize_pow
  unfold slotIndex
  rw [hk, Nat.and_two_pow_sub_one_eq_mod]

theorem RingConfig.slotIndex_inj (cfg : RingConfig) {m m' : ℕ} (hle : m ≤ m')
    (hlt : m' < m + cfg.ringSize) (h : cfg.slotIndex m = cfg.slotIndex m') : m = m' := by
  rw [slotIndex_eq, slotIndex_eq] at h
  have hz : (m' - m) % cfg.ringSize = 0 := Nat.sub_mod_eq_zero_of_mod_eq h.symm
  rw [Nat.mod_eq_of_lt (by omega)] at hz
  omega

section Slots

variable (cfg : RingConfig) (s : RingState)

theorem RingState.slot_setSlot_self (seq : ℕ) (x : Slot) : (s.setSlot cfg seq x).slot cfg seq = x :=
  update_self _ _ _

theorem RingState.slot_setSlot_of_ne {seq m : ℕ} (x : Slot)
    (hne : cfg.slotIndex m ≠ cfg.slotIndex seq) : (s.setSlot cfg seq x).slot cfg m = s.slot cfg m :=
  update_of_ne hne _ _

end Slots

namespace RingInv

variable {C : Crates} {cfg : RingConfig} {s : RingState}

theorem slotIndex_ne (h : RingInv C cfg s) {m m' : ℕ} (hm : s.committedCursor ≤ m)
    (hlt : m < s.producerCursor) (hm' : s.committedCursor ≤ m') (hlt' : m' < s.producerCursor)
    (hne : m ≠ m') : cfg.slotIndex m ≠ cfg.slotIndex m' := by
  intro heq
  have hc := h.cursor_le
  rcases le_total m m' with hle | hle
  · exact hne (cfg.slotIndex_inj hle (by omega) heq)
  · exact hne (cfg.slotIndex_inj hle (by omega) heq.symm).symm

theorem le_cursor_of_publishedBelow (h : RingInv C cfg s) {n : ℕ}
    (hn : s.PublishedBelow cfg n) : n ≤ s.producerCursor := by
  by_contra hgt
  have hp := hn s.producerCursor h.initial_le_cursor (by omega)
  exact absurd (h.published_claimed _ hp).2 (lt_irrefl _)

theorem publishedBelow_le {n m : ℕ} (hn : s.PublishedBelow cfg n) (hm : cfg.initial ≤ m)
    (hf : s.published m = false) : n ≤ m := by
  by_contra hgt
  have hp := hn m hm (by omega)
  rw [hf] at hp
  exact Bool.false_ne_true hp

theorem sealedUpTo_published (h : RingInv C cfg s) : s.PublishedBelow cfg s.sealedUpTo := by
  have hok := h.sealer
  unfold sealedUpTo
  cases hp : s.sealer with
  | hashing cur hi =>
    rw [hp] at hok
    intro m hm hlt
    exact hok.2.2.2 m hm (by have := hok.2.2.1; simp only at hlt; omega)
  | store hi =>
    rw [hp] at hok
    exact hok.2.2
  | _ => exact h.sealed_published

theorem sealed_le_sealedUpTo (h : RingInv C cfg s) : s.sealedCursor ≤ s.sealedUpTo := by
  have hok := h.sealer
  unfold sealedUpTo
  cases hp : s.sealer with
  | start => exact le_rfl
  | scan cur => exact le_rfl
  | _ =>
    rw [hp] at hok
    exact hok.2.1

theorem published_of_isPublished (h : RingInv C cfg s) {seq : ℕ}
    (hp : s.isPublished cfg seq = true) : s.published seq = true := by
  unfold isPublished at hp
  exact (h.occupant _ seq (beq_iff_eq.mp hp)).1

theorem publishedBelow_succ {n : ℕ} (hn : s.PublishedBelow cfg n) (hp : s.published n = true) :
    s.PublishedBelow cfg (n + 1) := by
  intro m hm hlt
  rcases lt_or_eq_of_le (Nat.le_of_lt_succ hlt) with hlt | rfl
  · exact hn m hm hlt
  · exact hp

end RingInv

end LogDb.Pipeline
