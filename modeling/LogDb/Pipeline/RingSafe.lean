import LogDb.Format.Crates
import LogDb.Pipeline.RingSteps

/-!
Safety of the ring over every interleaving of producers, sealer and committer.
-/

namespace LogDb.Pipeline

open Lib Format RingState

variable {C : Crates} {cfg : RingConfig} {s : RingState}

/-- `e` is the end of the contiguous published prefix. -/
def RingState.IsPublishedEnd (cfg : RingConfig) (s : RingState) (e : ℕ) : Prop :=
  cfg.initial ≤ e ∧ s.PublishedBelow cfg e ∧ s.published e = false

/-- The sequences that `claim` and `claim_batch` have returned, in the order of the claims. -/
def RingState.claimedSequences (s : RingState) : List ℕ :=
  s.claims.flatMap fun c => List.range' c.1 c.2

structure RingSafe (C : Crates) (cfg : RingConfig) (s : RingState) : Prop where
  claims_nodup : s.claimedSequences.Nodup
  claims_exact : ∀ m, m ∈ s.claimedSequences ↔ cfg.initial ≤ m ∧ m < s.producerCursor
  committed_le_sealed : cfg.hashEnabled = true → s.committedCursor ≤ s.sealedCursor
  published_bounds : ∃ e, s.IsPublishedEnd cfg e ∧ s.committedCursor ≤ e ∧
    (cfg.hashEnabled = true → s.sealedCursor ≤ e) ∧ e ≤ s.producerCursor
  cursor_le : s.producerCursor ≤ s.consumeWatermark cfg + cfg.ringSize
  /-- Neither the record published last in the slot a producer is about to write, nor any other
  record claimed for that slot, is still needed. -/
  write_free : ∀ t req seq ts i, s.producers t = .write req seq ts i →
    (∀ occ, (s.slot cfg (seq + i)).sequence = occ + 1 → occ < s.consumeWatermark cfg) ∧
    ∀ m, m ∈ s.claimedSequences → m ≠ seq + i → cfg.slotIndex m = cfg.slotIndex (seq + i) →
      m < s.consumeWatermark cfg
  reads_exact : ∀ m v, (m, v) ∈ s.reads →
    (∃ p, s.written m = some p ∧ p.recordId = cfg.idOf m ∧ p.ShownBy v) ∧
    (cfg.hashEnabled = true → s.hashes m = some v.hashN ∧
      v.hashN = cfg.chainAfter C s.written (m + 1 - cfg.initial))

namespace RingInv

section

variable (h : RingInv C cfg s)
include h

theorem consumeWatermark_eq : s.consumeWatermark cfg = s.committedCursor := by
  unfold consumeWatermark
  split_ifs with hh
  · exact min_eq_left (h.committed_ready.2 hh)
  · rfl

theorem mem_claimedSequences (m : ℕ) :
    m ∈ s.claimedSequences ↔ cfg.initial ≤ m ∧ m < s.producerCursor := by
  have hi := h.initial_le_cursor
  unfold claimedSequences
  rw [h.claims_eq, List.mem_range'_1]
  constructor
  · rintro ⟨hge, hlt⟩
    exact ⟨hge, by omega⟩
  · rintro ⟨hge, hlt⟩
    exact ⟨hge, by omega⟩

theorem exists_publishedEnd : ∃ e, s.IsPublishedEnd cfg e ∧ e ≤ s.producerCursor := by
  classical
  -- the cursor itself has not been published, so there is a first such sequence
  have he : ∃ e, cfg.initial ≤ e ∧ s.published e = false := by
    refine ⟨s.producerCursor, h.initial_le_cursor, ?_⟩
    by_contra hp
    exact absurd (h.published_claimed _ (Bool.eq_true_of_not_eq_false hp)).2 (lt_irrefl _)
  have hf : s.PublishedBelow cfg (Nat.find he) := by
    intro m hm hlt
    by_contra hp
    exact Nat.find_min he hlt ⟨hm, Bool.eq_false_of_not_eq_true hp⟩
  obtain ⟨hge, hu⟩ := Nat.find_spec he
  exact ⟨Nat.find he, ⟨hge, hf, hu⟩, h.le_cursor_of_publishedBelow hf⟩

theorem write_free {t seq i m : ℕ} {req : Request} {ts : UInt64}
    (hp : s.producers t = .write req seq ts i) (hm : m < s.producerCursor) (hne : m ≠ seq + i)
    (hx : cfg.slotIndex m = cfg.slotIndex (seq + i)) : m < s.committedCursor := by
  have hq : (s.producers t).pending (seq + i) := by
    have hok : s.ProducerOk cfg (.write req seq ts i) := hp ▸ h.producer t
    rw [hp]
    exact ⟨le_rfl, Nat.add_lt_add_left hok.2 seq⟩
  by_contra hge
  exact h.slotIndex_ne (not_lt.mp hge) hm (h.committed_le_pending hq)
    (h.pending_fresh t _ hq).2.1 hne hx

end

end RingInv

theorem ringSafe_of_reachable (C : Crates) (cfg : RingConfig) (s : RingState)
    (hrun : RingReachable C cfg s) : RingSafe C cfg s := by
  have h := hrun.inv
  have hw := h.consumeWatermark_eq
  obtain ⟨e, he, hle⟩ := h.exists_publishedEnd
  refine ⟨?_, h.mem_claimedSequences, h.committed_ready.2, ⟨e, he, ?_, fun _ => ?_, hle⟩,
    hw ▸ h.cursor_le, fun t req seq ts i hc => ⟨fun occ ho => ?_, fun m hm hne hx => ?_⟩,
    fun m v hv => ⟨(h.reads _ hv).2.2, fun ha => ?_⟩⟩
  · unfold claimedSequences
    rw [h.claims_eq]
    exact List.nodup_range'
  · exact RingInv.publishedBelow_le h.committed_ready.1 he.1 he.2.2
  · exact RingInv.publishedBelow_le h.sealed_published he.1 he.2.2
  · obtain ⟨hp, hx⟩ := h.occupant _ occ ho
    have hok : s.ProducerOk cfg (.write req seq ts i) := hc ▸ h.producer t
    have hne : occ ≠ seq + i := by
      refine h.published_ne_pending (t := t) ?_ hp
      rw [hc]
      exact ⟨le_rfl, Nat.add_lt_add_left hok.2 seq⟩
    rw [hw]
    exact h.write_free hc (h.published_claimed occ hp).2 hne hx
  · rw [hw]
    exact h.write_free hc ((h.mem_claimedSequences m).mp hm).2 hne hx
  · obtain ⟨hp, hh, -⟩ := h.reads _ hv
    obtain ⟨hlt, hhash_m⟩ := hh ha
    have hch := h.hash_chain m (h.published_claimed m hp).1 (hlt.trans_le h.sealed_le_sealedUpTo)
    exact ⟨hhash_m, Option.some.inj (hhash_m.symm.trans hch)⟩

def hiRequest : Request :=
  ⟨false, [[104, 105]]⟩

/-- One record goes through claim, write, publish, seal and commit. -/
theorem ringSafe_of_one_append : ∃ s, RingReachable rawCrates smallRing s ∧
    s.committedCursor = 1 ∧ s.reads.length = 1 ∧ RingSafe rawCrates smallRing s := by
  have hq : smallRing.Accepts hiRequest := ⟨by decide, fun _ => rfl, by decide⟩
  have hit : RingReachable rawCrates smallRing smallRing.init := .refl
  have ha := ((((hit.tail (.producer 0 (.start hiRequest rfl hq))).tail
    (.producer 0 (.loadCursor hiRequest rfl (by decide)))).tail
    (.producer 0 (.loadCommitted hiRequest 0 rfl))).tail
    (.producer 0 (.loadSealed hiRequest 0 0 rfl))).tail
    (.producer 0 (.pass hiRequest 0 0 rfl (by decide)))
  have hp := ((ha.tail (.producer 0 (.casOk hiRequest 0 0 7 rfl rfl (by decide)))).tail
    (.producer 0 (.write hiRequest 0 7 0 [104, 105] rfl rfl))).tail
    (.producer 0 (.publish hiRequest 0 7 0 rfl))
  have hs := (((((hp.tail (.sealer (.start rfl rfl (by decide +kernel)))).tail
    (.sealer (.more 0 rfl (by decide +kernel)))).tail
    (.sealer (.stop 1 rfl (by decide +kernel)))).tail
    (.sealer (.hash 0 1 rfl (by decide)))).tail
    (.sealer (.finish 1 1 rfl (by decide)))).tail
    (.sealer (.store 1 rfl))
  have hc := ((((hs.tail (.committer (.poll rfl rfl))).tail
    (.committer (.begin 1 0 rfl (by decide) (by decide)))).tail
    (.committer (.read 0 0 rfl))).tail
    (.committer (.last 0 rfl))).tail
    (.committer (.store 1 rfl))
  exact ⟨_, hc, rfl, rfl, ringSafe_of_reachable _ _ _ hc⟩

end LogDb.Pipeline
