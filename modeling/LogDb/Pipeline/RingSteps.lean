import LogDb.Pipeline.RingInvariant

/-!
Every step of a producer, of the sealer and of the committer keeps the ring invariant.
-/

namespace LogDb.Pipeline

open Lib Format List Function RingState

variable {C : Crates} {cfg : RingConfig} {s s' : RingState}

theorem RingState.PublishedBelow.mono {n : ℕ} (hn : s.PublishedBelow cfg n)
    (hp : ∀ m, s.published m = true → s'.published m = true) : s'.PublishedBelow cfg n :=
  fun m hm hlt => hp m (hn m hm hlt)

theorem RingState.Ready.mono {n : ℕ} (hn : s.Ready cfg n)
    (hp : ∀ m, s.published m = true → s'.published m = true)
    (hs : s.sealedCursor ≤ s'.sealedCursor) : s'.Ready cfg n :=
  ⟨hn.1.mono hp, fun hh => (hn.2 hh).trans hs⟩

theorem RingState.ProducerOk.mono {pc : ProducerPc} (hok : s.ProducerOk cfg pc)
    (hc : s.committedCursor ≤ s'.committedCursor) (hu : s.producerCursor ≤ s'.producerCursor)
    (hk : ∀ m, pc.pending m → s'.written m = s.written m ∧ s'.slot cfg m = s.slot cfg m) :
    s'.ProducerOk cfg pc := by
  cases pc with
  | loadSealed req seq committed => exact ⟨hok.1, hok.2.trans hc⟩
  | gate req seq wm => exact ⟨hok.1, hok.2.trans hc⟩
  | cas req seq wm => exact ⟨hok.1, hok.2.1.trans hc, hok.2.2⟩
  | publish req seq ts i =>
    obtain ⟨hq, content, ht, hr, hl⟩ := hok
    have hi : i < req.contents.length := (List.getElem?_eq_some_iff.mp ht).1
    obtain ⟨hw, hs⟩ := hk (seq + i) ⟨le_rfl, by omega⟩
    refine ⟨hq, content, ht, hw ▸ hr, ?_⟩
    rw [hs]
    exact hl
  | claimed req seq => exact le_trans hok hu
  | _ => exact hok

theorem RingState.SealerOk.mono {pc : SealerPc} (hok : s.SealerOk cfg pc)
    (hp : ∀ m, s.published m = true → s'.published m = true)
    (hs : s'.sealedCursor = s.sealedCursor) : s'.SealerOk cfg pc := by
  cases pc with
  | start => trivial
  | hashing cur hi =>
    exact ⟨hok.1, hs.trans_le hok.2.1, hok.2.2.1, hok.2.2.2.mono hp⟩
  | _ => exact ⟨hok.1, hs.trans_le hok.2.1, hok.2.2.mono hp⟩

theorem RingState.CommitterOk.mono {pc : CommitterPc} (hok : s.CommitterOk cfg pc)
    (hp : ∀ m, s.published m = true → s'.published m = true) (hs : s.sealedCursor ≤ s'.sealedCursor)
    (hc : s'.committedCursor = s.committedCursor) : s'.CommitterOk cfg pc := by
  cases pc with
  | idle => trivial
  | scan cur => exact ⟨hok.1, hok.2.mono hp hs⟩
  | batch avail => exact Ready.mono hok hp hs
  | store next => exact ⟨hc.trans_le hok.1, hok.2.mono hp hs⟩
  | _ => exact ⟨hc.trans_le hok.1, hok.2.1, hok.2.2.mono hp hs⟩

namespace RingInv

theorem init (C : Crates) (cfg : RingConfig) : RingInv C cfg cfg.init where
  claims_eq := by simp [RingConfig.init]
  initial_le_cursor := le_rfl
  cursor_lt := cfg.initial_lt
  initial_le := le_rfl
  cursor_le := Nat.le_add_right _ _
  committed_ready := ⟨fun m hm hlt => absurd hlt (not_lt.mpr hm), fun _ => le_rfl⟩
  sealed_published := fun m hm hlt => absurd hlt (not_lt.mpr hm)
  initial_le_sealed := le_rfl
  published_claimed := fun m hp => absurd hp Bool.false_ne_true
  pending_fresh := fun t m hn => hn.elim
  pending_unique := fun t t' m hn => hn.elim
  producer := fun t => trivial
  sealer_next := rfl
  sealer := trivial
  committer := trivial
  occupant := fun i m hq => absurd hq (Nat.succ_ne_zero m).symm
  live := fun m _ hp => absurd hp Bool.false_ne_true
  hash_chain := fun m hm hlt => absurd hlt (not_lt.mpr hm)
  hash_live := fun m hm hlt => absurd hlt (not_lt.mpr hm)
  sealer_hash := by
    show cfg.lastHash = cfg.chainAfter C _ (cfg.initial - cfg.initial)
    rw [Nat.sub_self]
    rfl
  reads := fun x hx => absurd hx not_mem_nil

variable {t seq : ℕ} {req : Request} {m : ℕ} {pc : ProducerPc}

/-- Changing one producer keeps a property of all producers that it has itself. -/
private theorem forall_producers {P : ProducerPc → Prop} (t : ℕ) (hp : P pc)
    (ho : ∀ t', t' ≠ t → P (s.producers t')) (t' : ℕ) : P (update s.producers t pc t') :=
  (forall_update_iff s.producers (p := fun _ q => P q)).mpr ⟨hp, ho⟩ t'

section

variable (h : RingInv C cfg s)
include h

theorem setProducer (t : ℕ) (hok : s.ProducerOk cfg pc)
    (hp : ∀ m, pc.pending m → (s.producers t).pending m) : RingInv C cfg (s.setProducer t pc) := by
  have hs : ∀ t' m, ((s.setProducer t pc).producers t').pending m → (s.producers t').pending m := by
    intro t' m hm
    change (update s.producers t pc t').pending m at hm
    by_cases ht : t' = t
    · subst ht
      rw [update_self] at hm
      exact hp m hm
    · rwa [update_of_ne ht] at hm
  exact { h with
    pending_fresh := fun t' m hm => h.pending_fresh t' m (hs t' m hm)
    pending_unique := fun t₁ t₂ m h₁ h₂ =>
      h.pending_unique t₁ t₂ m (hs t₁ m h₁) (hs t₂ m h₂)
    producer := forall_producers t hok fun t' _ => h.producer t' }

/-- Before the compare-exchange succeeds, the gate that the producer passed leaves room. -/
theorem room_of_gate {wm : ℕ} (hq : cfg.Accepts req)
    (hw : wm ≤ s.committedCursor) (hp : s.producerCursor + req.contents.length + 1 < 2 ^ 64)
    (hr : cfg.full req s.producerCursor wm = false) :
    s.producerCursor + req.contents.length ≤ s.committedCursor + cfg.ringSize := by
  have hc := h.le_cursor_of_publishedBelow h.committed_ready.1
  have hs : wrappingSub s.producerCursor wm = s.producerCursor - wm := by
    unfold wrappingSub
    omega
  unfold RingConfig.full at hr
  rw [hs] at hr
  cases hb : req.batch with
  | true =>
    rw [hb, if_pos rfl, decide_eq_false_iff_not, Nat.mod_eq_of_lt (by omega)] at hr
    omega
  | false =>
    have ho := hq.2.1 hb
    rw [hb, if_neg Bool.false_ne_true, decide_eq_false_iff_not] at hr
    omega

theorem casOk {wm : ℕ} (ts : UInt64) (hc : s.producers t = .cas req seq wm)
    (heq : s.producerCursor = seq) (hs : seq + req.contents.length + 1 < 2 ^ 64) :
    RingInv C cfg { s.setProducer t (.write req seq ts 0) with
      producerCursor := seq + req.contents.length
      claims := s.claims ++ [(seq, req.contents.length)] } := by
  subst heq
  obtain ⟨hq, hw, hr⟩ : s.ProducerOk cfg (.cas req s.producerCursor wm) := hc ▸ h.producer t
  have ha : 0 < req.contents.length := length_pos_iff.mpr hq.1
  have hi := h.initial_le_cursor
  -- the new claim starts at the cursor, so nothing in it was pending or published
  have ho : ∀ t' m, (s.producers t').pending m → m < s.producerCursor :=
    fun t' m hm => (h.pending_fresh t' m hm).2.1
  have hn : ∀ m, s.producerCursor ≤ m → s.published m = false := by
    intro m hm
    by_contra hp
    have hlt := (h.published_claimed m (Bool.eq_true_of_not_eq_false hp)).2
    omega
  refine { h with
    claims_eq := ?_
    initial_le_cursor := by show cfg.initial ≤ s.producerCursor + _; omega
    cursor_lt := hs
    cursor_le := h.room_of_gate hq hw hs hr
    published_claimed := ?_
    pending_fresh := ?_
    pending_unique := ?_
    producer := forall_producers t ⟨hq, ha⟩ fun t' _ =>
      (h.producer t').mono (le_rfl) (Nat.le_add_right _ _) fun m _ => ⟨rfl, rfl⟩ }
  · show (s.claims ++ [_]).flatMap _ = range' _ (s.producerCursor + _ - cfg.initial)
    rw [flatMap_append, h.claims_eq, flatMap_singleton,
      show s.producerCursor + req.contents.length - cfg.initial =
        s.producerCursor - cfg.initial + req.contents.length by omega, ← range'_append_1,
      show cfg.initial + (s.producerCursor - cfg.initial) = s.producerCursor by omega]
  · intro m hp
    have := h.published_claimed m hp
    exact ⟨this.1, by show m < s.producerCursor + _; omega⟩
  · intro t' m hm
    change (update s.producers t _ t').pending m at hm
    show cfg.initial ≤ m ∧ m < s.producerCursor + _ ∧ s.published m = false
    by_cases ht : t' = t
    · subst ht
      rw [update_self] at hm
      obtain ⟨hge, hlt⟩ := hm
      exact ⟨by omega, hlt, hn m (by omega)⟩
    · rw [update_of_ne ht] at hm
      obtain ⟨hge, hlt, hf⟩ := h.pending_fresh t' m hm
      exact ⟨hge, by omega, hf⟩
  · intro t₁ t₂ m h₁ h₂
    change (update s.producers t _ t₁).pending m at h₁
    change (update s.producers t _ t₂).pending m at h₂
    by_cases ht₁ : t₁ = t <;> by_cases ht₂ : t₂ = t
    · exact ht₁.trans ht₂.symm
    · rw [ht₁, update_self] at h₁
      rw [update_of_ne ht₂] at h₂
      exact absurd (ho t₂ m h₂) (by have := h₁.1; omega)
    · rw [update_of_ne ht₁] at h₁
      rw [ht₂, update_self] at h₂
      exact absurd (ho t₁ m h₁) (by have := h₂.1; omega)
    · rw [update_of_ne ht₁] at h₁
      rw [update_of_ne ht₂] at h₂
      exact h.pending_unique t₁ t₂ m h₁ h₂

theorem committed_le_pending (hm : (s.producers t).pending m) : s.committedCursor ≤ m :=
  publishedBelow_le h.committed_ready.1 (h.pending_fresh t m hm).1 (h.pending_fresh t m hm).2.2

theorem sealedUpTo_le_pending (hm : (s.producers t).pending m) : s.sealedUpTo ≤ m :=
  publishedBelow_le h.sealedUpTo_published (h.pending_fresh t m hm).1
    (h.pending_fresh t m hm).2.2

/-- Only the slot of the pending sequence `seq` changes when its owner stores into it. -/
theorem slot_setSlot_pending (hq : (s.producers t).pending seq) (x : Slot)
    (hm : s.committedCursor ≤ m) (hlt : m < s.producerCursor) (hne : m ≠ seq) :
    (s.setSlot cfg seq x).slot cfg m = s.slot cfg m :=
  s.slot_setSlot_of_ne cfg x (h.slotIndex_ne hm hlt (h.committed_le_pending hq)
    (h.pending_fresh t seq hq).2.1 hne)

theorem published_ne_pending (hq : (s.producers t).pending seq)
    (hp : s.published m = true) : m ≠ seq := by
  rintro rfl
  rw [(h.pending_fresh t m hq).2.2] at hp
  exact Bool.false_ne_true hp

theorem write {i : ℕ} {ts : UInt64} {content : Bytes}
    (hpc : s.producers t = .write req seq ts i) (hct : req.contents[i]? = some content) :
    RingInv C cfg
      ((s.writeSlot cfg (seq + i) (cfg.payload (seq + i) ts content)).setProducer t
        (.publish req seq ts i)) := by
  obtain ⟨hr, hi⟩ : s.ProducerOk cfg (.write req seq ts i) := hpc ▸ h.producer t
  set p := cfg.payload (seq + i) ts content with hp
  have hq : (s.producers t).pending (seq + i) := by
    rw [hpc]
    exact ⟨le_rfl, by omega⟩
  have hl : content.length < 2 ^ 32 := by
    have he := mem_of_getElem? hct
    have hg := hr.2.2 content he
    have := cfg.maxContentSize_le
    omega
  have hsl : ∀ m, s.committedCursor ≤ m → m < s.producerCursor → m ≠ seq + i →
      (s.writeSlot cfg (seq + i) p).slot cfg m = s.slot cfg m :=
    fun m hm hlt hne => h.slot_setSlot_pending hq _ hm hlt hne
  have hf : ((s.writeSlot cfg (seq + i) p).slot cfg (seq + i)).inner =
      (s.slot cfg (seq + i)).inner.producerWrite p := by
    show ((s.setSlot cfg (seq + i) _).slot cfg (seq + i)).inner = _
    rw [s.slot_setSlot_self]
  have hw : ∀ m, m ≠ seq + i → (s.writeSlot cfg (seq + i) p).written m = s.written m :=
    fun m hne => update_of_ne hne _ _
  -- the chain stops before the pending sequence
  have hh : ∀ k, cfg.initial + k ≤ seq + i →
      cfg.chainAfter C (s.writeSlot cfg (seq + i) p).written k = cfg.chainAfter C s.written k := by
    intro k hk
    induction k with
    | zero => rfl
    | succ k ih =>
      simp only [RingConfig.chainAfter, ih (by omega), hw (cfg.initial + k) (by omega)]
  have hs := h.sealedUpTo_le_pending hq
  have hc : s.sealedUpTo ≤ s.producerCursor := h.le_cursor_of_publishedBelow h.sealedUpTo_published
  have hb : RingInv C cfg (s.writeSlot cfg (seq + i) p) := by
    refine { h with
      producer := ?_
      occupant := ?_
      live := ?_
      hash_chain := ?_
      hash_live := ?_
      sealer_hash := ?_
      reads := ?_ }
    · intro t'
      show RingState.ProducerOk cfg _ (s.producers t')
      by_cases ht : t' = t
      · rw [ht, hpc]
        exact ⟨hr, hi⟩
      · refine (h.producer t').mono (le_rfl) (le_rfl) fun m hm => ?_
        have hne : m ≠ seq + i := by
          rintro rfl
          exact ht (h.pending_unique t' t _ hm hq)
        exact ⟨hw m hne, hsl m (h.committed_le_pending hm) (h.pending_fresh t' m hm).2.1 hne⟩
    · intro j m hj
      refine h.occupant j m ?_
      rw [← hj]
      show _ = (update s.slots _ _ j).sequence
      by_cases hd : j = cfg.slotIndex (seq + i)
      · rw [hd, update_self]
        rfl
      · rw [update_of_ne hd]
    · intro m hm hu
      have hne := h.published_ne_pending hq hu
      rw [hw m hne, hsl m hm (h.published_claimed m hu).2 hne]
      exact h.live m hm hu
    · intro m hm hlt
      rw [hh _ (by change m < s.sealedUpTo at hlt; omega)]
      exact h.hash_chain m hm hlt
    · intro m hm hlt
      change m < s.sealedUpTo at hlt
      rw [hsl m hm (by omega) (by omega)]
      exact h.hash_live m hm hlt
    · have hil := (h.pending_fresh t _ hq).1
      show s.sealerHash = cfg.chainAfter C _ (s.sealedUpTo - cfg.initial)
      rw [hh _ (by omega)]
      exact h.sealer_hash
    · intro x hx
      obtain ⟨hu, ha, hrd⟩ := h.reads x hx
      refine ⟨hu, ha, ?_⟩
      rwa [hw x.1 (h.published_ne_pending hq hu)]
  refine hb.setProducer t ⟨hr, content, hct, ?_, ?_⟩ fun m hm => ?_
  · exact update_self _ _ _
  · rw [hf]
    exact SlotInner.producerWrite_shows _ hl
  · show (s.producers t).pending m
    rw [hpc]
    exact hm

theorem publish {i : ℕ} {ts : UInt64} (hpc : s.producers t = .publish req seq ts i) : RingInv C cfg
      ((s.publishSlot cfg (seq + i)).setProducer t
        (if i + 1 < req.contents.length then .write req seq ts (i + 1) else .claimed req seq)) := by
  obtain ⟨hr, content, hct, hwr, hw⟩ :
    s.ProducerOk cfg (.publish req seq ts i) := hpc ▸ h.producer t
  have hi : i < req.contents.length := (List.getElem?_eq_some_iff.mp hct).1
  have hq : (s.producers t).pending (seq + i) := by
    rw [hpc]
    exact ⟨le_rfl, by omega⟩
  obtain ⟨hil, hc, hh⟩ := h.pending_fresh t _ hq
  have hl : ∀ m, s.committedCursor ≤ m → m < s.producerCursor → m ≠ seq + i →
      (s.publishSlot cfg (seq + i)).slot cfg m = s.slot cfg m :=
    fun m hm hlt hne => h.slot_setSlot_pending hq _ hm hlt hne
  have hsf : ((s.publishSlot cfg (seq + i)).slot cfg (seq + i)).inner =
      (s.slot cfg (seq + i)).inner := by
    show ((s.setSlot cfg (seq + i) _).slot cfg (seq + i)).inner = _
    rw [s.slot_setSlot_self]
  have ho : ∀ m, m ≠ seq + i → (s.publishSlot cfg (seq + i)).published m = s.published m :=
    fun m hne => update_of_ne hne _ _
  have hp : ∀ m, s.published m = true → (s.publishSlot cfg (seq + i)).published m = true :=
    fun m hm => (ho m (h.published_ne_pending hq hm)).trans hm
  have hn : (s.publishSlot cfg (seq + i)).published (seq + i) = true := update_self _ _ _
  -- the sequence that was published last is nobody's any more
  have hf : ∀ t' m, (update s.producers t
      (if i + 1 < req.contents.length then .write req seq ts (i + 1) else .claimed req seq)
        t').pending m → (s.producers t').pending m ∧ m ≠ seq + i := by
    intro t' m hm
    by_cases ht : t' = t
    · rw [ht, update_self] at hm
      rw [ht, hpc]
      split_ifs at hm with hmo
      · obtain ⟨hge, hlt⟩ := hm
        exact ⟨⟨by omega, hlt⟩, by omega⟩
      · exact hm.elim
    · rw [update_of_ne ht] at hm
      refine ⟨hm, ?_⟩
      rintro rfl
      exact ht (h.pending_unique t' t _ hm hq)
  refine { h with
    committed_ready := h.committed_ready.mono hp (le_rfl)
    sealed_published := h.sealed_published.mono hp
    published_claimed := ?_
    pending_fresh := ?_
    pending_unique := fun t₁ t₂ m h₁ h₂ =>
      h.pending_unique t₁ t₂ m (hf t₁ m h₁).1 (hf t₂ m h₂).1
    producer := ?_
    sealer := ?_
    committer := ?_
    occupant := ?_
    live := ?_
    hash_live := ?_
    reads := ?_ }
  · intro m hm
    by_cases hne : m = seq + i
    · subst hne
      exact ⟨hil, hc⟩
    · exact h.published_claimed m ((ho m hne).symm.trans hm)
  · intro t' m hm
    obtain ⟨ha, hne⟩ := hf t' m hm
    obtain ⟨hge, hlt, hu⟩ := h.pending_fresh t' m ha
    exact ⟨hge, hlt, (ho m hne).trans hu⟩
  · refine forall_producers t ?_ fun t' ht => ?_
    · split_ifs with hmo
      · exact ⟨hr, hmo⟩
      · show seq + req.contents.length ≤ s.producerCursor
        omega
    · refine (h.producer t').mono (le_rfl) (le_rfl) fun m hm => ⟨rfl, ?_⟩
      have hne : m ≠ seq + i := by
        rintro rfl
        exact ht (h.pending_unique t' t _ hm hq)
      exact hl m (h.committed_le_pending hm) (h.pending_fresh t' m hm).2.1 hne
  · exact h.sealer.mono hp rfl
  · exact h.committer.mono hp (le_rfl) rfl
  · intro j m hj
    change (update s.slots _ _ j).sequence = m + 1 at hj
    by_cases hd : j = cfg.slotIndex (seq + i)
    · rw [hd, update_self] at hj
      obtain rfl : seq + i = m := Nat.succ_injective hj
      exact ⟨hn, hd.symm⟩
    · rw [update_of_ne hd] at hj
      obtain ⟨hm, hmj⟩ := h.occupant j m hj
      exact ⟨hp m hm, hmj⟩
  · intro m hm hmb
    show ∃ p, s.written m = some p ∧ _ ∧
      p.ShownBy ((s.publishSlot cfg (seq + i)).slot cfg m).inner.read
    by_cases hne : m = seq + i
    · subst hne
      rw [hsf]
      exact ⟨_, hwr, rfl, hw⟩
    · have hmd := (ho m hne).symm.trans hmb
      rw [hl m hm (h.published_claimed m hmd).2 hne]
      exact h.live m hm hmd
  · intro m hm hlt
    have hs := h.sealedUpTo_le_pending hq
    change m < s.sealedUpTo at hlt
    show s.hashes m = some ((s.publishSlot cfg (seq + i)).slot cfg m).inner.hashN
    rw [hl m hm (by omega) (by omega)]
    exact h.hash_live m hm hlt
  · intro x hx
    obtain ⟨hb, hrt⟩ := h.reads x hx
    exact ⟨hp _ hb, hrt⟩

theorem producerStep (hsp : ProducerStep cfg t s s') : RingInv C cfg s' := by
  have hok := h.producer t
  cases hsp with
  | start req hi hq => exact h.setProducer t hq fun m hm => hm.elim
  | loadCursor req hp hs =>
    rw [hp] at hok
    exact h.setProducer t hok fun m hm => hm.elim
  | loadCommitted req seq hp =>
    rw [hp] at hok
    split_ifs with hh
    · exact h.setProducer t ⟨hok, le_rfl⟩ fun m hm => hm.elim
    · exact h.setProducer t ⟨hok, le_rfl⟩ fun m hm => hm.elim
  | loadSealed req seq committed hp =>
    rw [hp] at hok
    exact h.setProducer t ⟨hok.1, (min_le_left _ _).trans hok.2⟩ fun m hm => hm.elim
  | blocked req seq wm hp hf =>
    rw [hp] at hok
    exact h.setProducer t hok.1 fun m hm => hm.elim
  | pass req seq wm hp hr =>
    rw [hp] at hok
    exact h.setProducer t ⟨hok.1, hok.2, hr⟩ fun m hm => hm.elim
  | casOk req seq wm ts hp heq hc => exact h.casOk ts hp heq hc
  | casFail req seq wm hp =>
    rw [hp] at hok
    exact h.setProducer t hok.1 fun m hm => hm.elim
  | write req seq ts i content hp ht => exact h.write hp ht
  | publish req seq ts i hp => exact h.publish hp
  | _ => exact h.setProducer t trivial fun m hm => hm.elim

theorem setSealer {pc : SealerPc} (hok : s.SealerOk cfg pc)
    (hs : { s with sealer := pc }.sealedUpTo = s.sealedUpTo) :
    RingInv C cfg { s with sealer := pc } :=
  { h with
    sealer := hok
    hash_chain := fun m hm hlt => h.hash_chain m hm (hs ▸ hlt)
    hash_live := fun m hm hlt => h.hash_live m hm (hs ▸ hlt)
    sealer_hash := by
      rw [hs]
      exact h.sealer_hash }

theorem sealSlot {cur hi : ℕ} (hpc : s.sealer = .hashing cur hi) (hlt : cur < hi) :
    RingInv C cfg { s.sealSlot cfg C cur with sealer := .hashing (cur + 1) hi } := by
  obtain ⟨ha, hs, -, hpd⟩ : s.SealerOk cfg (.hashing cur hi) := hpc ▸ h.sealer
  have hu : s.sealedUpTo = cur := by
    unfold sealedUpTo
    rw [hpc]
  have hc : s.committedCursor ≤ cur := (h.committed_ready.2 ha).trans hs
  have hil : cfg.initial ≤ cur := h.initial_le.trans hc
  have hb : s.published cur = true := hpd cur hil hlt
  have hg := (h.published_claimed cur hb).2
  obtain ⟨p, hr, hid, hw⟩ := h.live cur hc hb
  have hsl : ∀ m, s.committedCursor ≤ m → m < s.producerCursor → m ≠ cur →
      (s.sealSlot cfg C cur).slot cfg m = s.slot cfg m :=
    fun m hm hl hne => s.slot_setSlot_of_ne cfg _ (h.slotIndex_ne hm hl hc hg hne)
  have hf : ((s.sealSlot cfg C cur).slot cfg cur).inner =
      (s.slot cfg cur).inner.writeHash (blake3KeyedChain C cfg.hashInit s.sealerHash
        (s.slot cfg cur).inner.read.content) := by
    show ((s.setSlot cfg cur _).slot cfg cur).inner = _
    rw [s.slot_setSlot_self]
  have ho : ∀ m, m ≠ cur → (s.sealSlot cfg C cur).hashes m = s.hashes m :=
    fun m hne => update_of_ne hne _ _
  have hn : (s.sealSlot cfg C cur).hashes cur =
      some (blake3KeyedChain C cfg.hashInit s.sealerHash (s.slot cfg cur).inner.read.content) :=
    update_self _ _ _
  -- the hash just computed extends the chain over what was written
  have hnx : blake3KeyedChain C cfg.hashInit s.sealerHash (s.slot cfg cur).inner.read.content =
      cfg.chainAfter C s.written (cur + 1 - cfg.initial) := by
    rw [show cur + 1 - cfg.initial = cur - cfg.initial + 1 by omega]
    unfold RingConfig.chainAfter
    rw [show cfg.initial + (cur - cfg.initial) = cur by omega, hr, hw.2.2, h.sealer_hash, hu]
    rfl
  refine { h with
    producer := ?_
    sealer := ⟨ha, by show s.sealedCursor ≤ _; omega, hlt, hpd⟩
    occupant := ?_
    live := ?_
    hash_chain := ?_
    hash_live := ?_
    sealer_hash := hnx
    reads := ?_ }
  · intro t
    refine (h.producer t).mono (le_rfl) (le_rfl) fun m hm => ⟨rfl, ?_⟩
    exact hsl m (h.committed_le_pending hm) (h.pending_fresh t m hm).2.1
      (h.published_ne_pending hm hb).symm
  · intro j m hj
    refine h.occupant j m ?_
    rw [← hj]
    show _ = (update s.slots _ _ j).sequence
    by_cases hd : j = cfg.slotIndex cur
    · rw [hd, update_self]
      rfl
    · rw [update_of_ne hd]
  · intro m hm hp
    show ∃ p, s.written m = some p ∧ _ ∧ p.ShownBy ((s.sealSlot cfg C cur).slot cfg m).inner.read
    by_cases hne : m = cur
    · subst hne
      rw [hf]
      exact ⟨p, hr, hid, SlotInner.shownBy_writeHash hw _⟩
    · rw [hsl m hm (h.published_claimed m hp).2 hne]
      exact h.live m hm hp
  · intro m hm hl
    change m < cur + 1 at hl
    show (s.sealSlot cfg C cur).hashes m = some (cfg.chainAfter C s.written _)
    by_cases hne : m = cur
    · rw [hne, hn, hnx]
    · rw [ho m hne]
      exact h.hash_chain m hm (by omega)
  · intro m hm hl
    change m < cur + 1 at hl
    show (s.sealSlot cfg C cur).hashes m = some ((s.sealSlot cfg C cur).slot cfg m).inner.hashN
    by_cases hne : m = cur
    · rw [hne, hn, hf]
      rfl
    · rw [ho m hne, hsl m hm (by omega) hne]
      exact h.hash_live m hm (by omega)
  · intro x hx
    obtain ⟨hp, hh, hrd⟩ := h.reads x hx
    refine ⟨hp, fun he => ?_, hrd⟩
    obtain ⟨ht, hx⟩ := hh he
    exact ⟨ht, (ho x.1 (by omega)).trans hx⟩

theorem sealerStep (hsp : SealerStep C cfg s s') : RingInv C cfg s' := by
  have hok := h.sealer
  have hn := h.sealer_next
  cases hsp with
  | wait ha hpc hp => exact h
  | start ha hpc hp =>
    refine h.setSealer ⟨ha, hn.ge, ?_⟩ ?_
    · rw [hn]
      exact h.sealed_published
    · simp only [sealedUpTo, hpc]
  | more cur hpc hp =>
    rw [hpc] at hok
    obtain ⟨ha, hle, hb⟩ := hok
    have hs := publishedBelow_succ hb (h.published_of_isPublished hp)
    split_ifs with hf
    · refine h.setSealer ⟨ha, hn.ge, by omega, hs⟩ ?_
      simp only [sealedUpTo, hpc, hn]
    · refine h.setSealer ⟨ha, by omega, hs⟩ ?_
      simp only [sealedUpTo, hpc]
  | stop cur hpc hp =>
    rw [hpc] at hok
    obtain ⟨ha, hle, hb⟩ := hok
    refine h.setSealer ⟨ha, hn.ge, by omega, hb⟩ ?_
    simp only [sealedUpTo, hpc, hn]
  | hash cur hi hpc hlt => exact h.sealSlot hpc hlt
  | finish cur hi hpc he =>
    rw [hpc] at hok
    obtain ⟨ha, hle, hc, hb⟩ := hok
    refine h.setSealer ⟨ha, by omega, hb⟩ ?_
    simp only [sealedUpTo, hpc]
    omega
  | store hi hpc =>
    rw [hpc] at hok
    obtain ⟨ha, hle, hb⟩ := hok
    have hu : s.sealedUpTo = hi := by
      unfold sealedUpTo
      rw [hpc]
    exact { h with
      committed_ready := h.committed_ready.mono (fun m hm => hm) hle
      sealed_published := hb
      initial_le_sealed := h.initial_le_sealed.trans hle
      sealer_next := rfl
      sealer := trivial
      committer := h.committer.mono (fun m hm => hm) hle rfl
      hash_chain := fun m hm hlt => h.hash_chain m hm (hu ▸ hlt)
      hash_live := fun m hm hlt => h.hash_live m hm (hu ▸ hlt)
      sealer_hash := hu ▸ h.sealer_hash
      reads := fun x hx => by
        obtain ⟨hp, hh, hr⟩ := h.reads x hx
        exact ⟨hp, fun hen => ⟨(hh hen).1.trans_le hle, (hh hen).2⟩, hr⟩ }

theorem committerStep (hsp : CommitterStep cfg s s') : RingInv C cfg s' := by
  have hok := h.committer
  cases hsp with
  | poll hh hpc =>
    exact { h with committer := ⟨h.sealed_published, fun _ => le_rfl⟩ }
  | scan hh hpc => exact { h with committer := ⟨hh, h.committed_ready⟩ }
  | more cur hpc hp =>
    rw [hpc] at hok
    obtain ⟨hh, hr⟩ := hok
    have hs := publishedBelow_succ hr.1 (h.published_of_isPublished hp)
    exact { h with committer := ⟨hh, hs, fun he => absurd he (by rw [hh]; decide)⟩ }
  | stop cur hpc hp =>
    rw [hpc] at hok
    exact { h with committer := hok.2 }
  | begin avail upto hpc hge hlt =>
    rw [hpc] at hok
    refine { h with committer := ⟨le_rfl, hge, fun m hm ht => ?_, fun he => ?_⟩ }
    · exact hok.1 m hm (by omega)
    · exact hlt.trans_le (hok.2 he)
  | read cur upto hpc =>
    rw [hpc] at hok
    obtain ⟨hc, hle, hr⟩ := hok
    have hp := hr.1 cur (h.initial_le.trans hc) (Nat.lt_succ_of_le hle)
    refine { h with committer := ⟨hc, hle, hr⟩, reads := fun x hx => ?_ }
    rcases mem_append.mp hx with hx | hx
    · exact h.reads x hx
    · rw [mem_singleton.mp hx]
      refine ⟨hp, fun hh => ?_, h.live cur hc hp⟩
      have hl : cur < s.sealedCursor := hle.trans_lt (hr.2 hh)
      exact ⟨hl, h.hash_live cur hc (hl.trans_le h.sealed_le_sealedUpTo)⟩
  | next cur upto hpc hlt =>
    rw [hpc] at hok
    exact { h with committer := ⟨hok.1.trans (Nat.le_succ cur), hlt, hok.2.2⟩ }
  | last upto hpc =>
    rw [hpc] at hok
    exact { h with committer := ⟨hok.1.trans (Nat.le_succ upto), hok.2.2⟩ }
  | partly cur upto hpc hse =>
    rw [hpc] at hok
    obtain ⟨hc, hle, hr⟩ := hok
    refine { h with committer := ⟨hc, fun m hm ht => ?_, fun he => ?_⟩ }
    · exact hr.1 m hm (by omega)
    · exact (Nat.le_succ_of_le hle).trans (hr.2 he)
  | store next hpc =>
    rw [hpc] at hok
    obtain ⟨hle, hr⟩ := hok
    exact { h with
      initial_le := h.initial_le.trans hle
      cursor_le := h.cursor_le.trans (Nat.add_le_add_right hle _)
      committed_ready := hr
      producer := fun t => (h.producer t).mono hle (le_rfl) fun m _ => ⟨rfl, rfl⟩
      committer := trivial
      live := fun m hm hp => h.live m (hle.trans hm) hp
      hash_live := fun m hm hlt => h.hash_live m (hle.trans hm) hlt }
  | _ => exact { h with committer := trivial }

theorem step (hs : RingStep C cfg s s') : RingInv C cfg s' := by
  cases hs with
  | producer t hs => exact h.producerStep hs
  | sealer hs => exact h.sealerStep hs
  | committer hs => exact h.committerStep hs

end

end RingInv

theorem SealerStep.cursor_eq (h : SealerStep C cfg s s') :
    s'.producerCursor = s.producerCursor ∧ s'.committedCursor = s.committedCursor := by
  cases h <;> exact ⟨rfl, rfl⟩

theorem CommitterStep.cursor_eq (h : CommitterStep cfg s s') :
    s'.producerCursor = s.producerCursor := by
  cases h <;> rfl

theorem RingInv.cursors_le (h : RingInv C cfg s) (hs : RingStep C cfg s s') :
    s.producerCursor ≤ s'.producerCursor ∧ s.committedCursor ≤ s'.committedCursor := by
  cases hs with
  | producer t hs =>
    cases hs with
    | casOk req seq wm ts hp heq hc =>
      exact ⟨heq.trans_le (Nat.le_add_right _ _), le_rfl⟩
    | _ => exact ⟨le_rfl, le_rfl⟩
  | sealer hs => exact ⟨hs.cursor_eq.1.ge, hs.cursor_eq.2.ge⟩
  | committer hs =>
    refine ⟨hs.cursor_eq.ge, ?_⟩
    cases hs with
    | store next hp =>
      have hok := h.committer
      rw [hp] at hok
      exact hok.1
    | _ => exact le_rfl

theorem RingReachable.inv (h : RingReachable C cfg s) : RingInv C cfg s :=
  invariant_of_steps h (RingInv.init C cfg) fun _ _ hi hs => hi.step hs

end LogDb.Pipeline
