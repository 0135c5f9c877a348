import LogDb.Pipeline.Log

/-!
The order inside a log: every segment holds a run of consecutive published records, later segments
hold later records, and the bases in the headers never fall. All of this survives deletions.
-/

namespace LogDb.Pipeline

open Lib Format List Option Log

variable {published : List ReadView} {s : LogSegment} {i k m n : ℕ}

/-- The records of the segment are the published ones from `i` to `i + k`. -/
def LogSegment.Spans (seg : LogSegment) (published : List ReadView) (i k : ℕ) : Prop :=
  seg.records = (published.drop i).take k

structure LogOrder (cfg : ShardConfig) (log : Log) : Prop where
  active_span : ∃ i k, i + k = log.committed ∧ log.active.Spans log.published i k
  spans : ∀ s ∈ log.segments, ∃ i k, i + k ≤ log.committed ∧ s.Spans log.published i k
  ordered : log.segments.Pairwise fun s t => ∀ v ∈ s.records, ∀ w ∈ t.records, v.recordId < w.recordId
  base_mono : log.segments.Pairwise fun s t => s.base ≤ t.base ∧ (s.records ≠ [] → t.base ≠ 0)
  base_le : ∀ s ∈ log.segments, s.base ≤ cfg.recordId log.committed
  prepared_ne : ∀ s ∈ log.prepared, s.base ≠ 0

section

variable {C : Crates} {cfg : ShardConfig} {guard : Log → Prop} {keepAll : Prop} {log log' : Log}

theorem Log.pairwise_segments {R : LogSegment → LogSegment → Prop} :
    log.segments.Pairwise R ↔ log.closed.Pairwise R ∧ (∀ s ∈ log.closed, R s log.active) ∧
        (∀ s ∈ log.closed, ∀ p ∈ log.prepared, R s p) ∧ ∀ p ∈ log.prepared, R log.active p := by
  unfold segments
  rw [pairwise_append, pairwise_cons]
  constructor
  · rintro ⟨hl, ⟨ha, -⟩, hc⟩
    refine ⟨hl, fun s hs => hc s hs _ mem_cons_self, fun s hs p hp => ?_,
      fun p hp => ha p (mem_toList.mpr hp)⟩
    exact hc s hs p (mem_cons_of_mem _ (mem_toList.mpr hp))
  · rintro ⟨hl, ha, hc, hr⟩
    refine ⟨hl, ⟨fun p hp => hr p (mem_toList.mp hp), ?_⟩, ?_⟩
    · cases log.prepared with
      | none => exact .nil
      | some p => exact pairwise_singleton _ _
    · intro s hs t ht
      rcases mem_cons.mp ht with rfl | hp
      · exact ha s hs
      · exact hc s hs t (mem_toList.mp hp)

section

variable {R : LogSegment → LogSegment → Prop} (h : log.segments.Pairwise R)
  (he : ∀ s ∈ log.closed ++ [log.active], R s (log.prepared.getD (log.nextSegment cfg)))
include h he

theorem Log.pairwise_prepare : (log.prepare cfg).segments.Pairwise R := by
  obtain ⟨hc, ha, -, -⟩ := pairwise_segments.mp h
  refine pairwise_segments.mpr ⟨hc, ha, ?_, ?_⟩
  · intro s hs p hp
    cases hp
    exact he s (mem_append_left _ hs)
  · intro p hp
    cases hp
    exact he log.active (mem_append_right _ mem_cons_self)

theorem Log.pairwise_roll {keep : ℕ → Bool} : (log.roll cfg keep).segments.Pairwise R := by
  obtain ⟨hc, ha, -, -⟩ := pairwise_segments.mp h
  refine pairwise_segments.mpr ⟨?_, fun s hs => he s (mem_filter.mp hs).1, ?_, ?_⟩
  · apply List.Pairwise.filter
    refine pairwise_append.mpr ⟨hc, pairwise_singleton _ _, fun s hs t ht => ?_⟩
    rw [mem_singleton.mp ht]
    exact ha s hs
  · intro s _ p hp
    cases hp
  · intro p hp
    cases hp

end

theorem LogSegment.Spans.append (h : s.Spans published i k) (hk : i + k ≤ published.length)
    (more : List ReadView) : s.Spans (published ++ more) i k := by
  unfold LogSegment.Spans at *
  have hi : i ≤ published.length := by omega
  rw [h, drop_append_of_le_length hi, take_append_of_le_length]
  rw [length_drop]
  omega

theorem LogSegment.Spans.exists_getElem
    (h : s.Spans published i k) {v : ReadView} (hv : v ∈ s.records) :
    ∃ j, ∃ hj : j < published.length, i ≤ j ∧ j < i + k ∧ published[j] = v := by
  rw [h] at hv
  obtain ⟨n, hn, rfl⟩ := getElem_of_mem hv
  rw [length_take, length_drop] at hn
  refine ⟨i + n, by omega, by omega, by omega, ?_⟩
  rw [getElem_take, getElem_drop]

namespace LogShape

section

variable (h : LogShape C cfg log)
include h

theorem recordId_lt (hm : m < n)
    (hn : n ≤ log.published.length) : cfg.recordId m < cfg.recordId n :=
  encodeRecordId_lt h.fits hm hn

theorem recordId_le (hm : m ≤ n)
    (hn : n ≤ log.published.length) : cfg.recordId m ≤ cfg.recordId n := by
  rcases lt_or_eq_of_le hm with hlt | rfl
  · exact UInt64.le_of_lt (h.recordId_lt hlt hn)
  · exact UInt64.le_refl _

theorem recordId_ne_zero (hp : 0 < n) (hn : n ≤ log.published.length) : cfg.recordId n ≠ 0 := by
  intro hz
  have hlt := h.recordId_lt hp hn
  rw [hz, UInt64.lt_iff_toNat_lt] at hlt
  exact absurd hlt (Nat.not_lt_zero _)

theorem recordId_lt_max (hn : n ≤ log.published.length) : cfg.recordId n < 0xFFFFFFFFFFFFFFFF := by
  have hs := h.fits.shard_lt
  have hl := h.fits.limit_lt
  have hm : n * 2 ^ cfg.shardBits.toNat ≤ log.published.length * 2 ^ cfg.shardBits.toNat :=
    Nat.mul_le_mul_right _ hn
  rw [UInt64.lt_iff_toNat_lt, ShardConfig.recordId, encodeRecordId_toNat h.fits hn]
  rw [add_mul, one_mul] at hl
  show _ < 2 ^ 64 - 1
  omega

end

end LogShape

theorem logOrder_fresh : LogOrder cfg Log.fresh where
  active_span := ⟨0, 0, rfl, rfl⟩
  spans s hs := by
    rw [mem_singleton.mp hs]
    exact ⟨0, 0, le_rfl, rfl⟩
  ordered := pairwise_singleton _ _
  base_mono := pairwise_singleton _ _
  base_le s hs := by
    rw [mem_singleton.mp hs]
    exact UInt64.le_iff_toNat_le.mpr (Nat.zero_le _)
  prepared_ne s hs := by cases hs

namespace LogOrder

section

variable (h : LogOrder cfg log) (hh : LogShape C cfg log)
include h hh

theorem publish (ts : UInt64) (content : Bytes) : LogOrder cfg (log.publish cfg C ts content) := by
  have hle := hh.committed_le
  obtain ⟨i, k, hi, ha⟩ := h.active_span
  exact
  { h with
    active_span := ⟨i, k, hi, ha.append (by omega) _⟩
    spans := by
      intro s hs
      obtain ⟨i, k, hi, hn⟩ := h.spans s hs
      exact ⟨i, k, hi, hn.append (by omega) _⟩ }

theorem append (hle : log.committed + k ≤ log.published.length) : LogOrder cfg (log.append k) := by
  obtain ⟨i, n, hi, ht⟩ := h.active_span
  have ha' : (log.append k).active.Spans log.published i (n + k) := by
    show log.active.records ++ _ = _
    rw [ht, take_add, drop_drop, hi]
  obtain ⟨ho, hl, -, -⟩ := pairwise_segments.mp h.ordered
  obtain ⟨hm, hm', hc, hr⟩ := pairwise_segments.mp h.base_mono
  constructor
  · exact ⟨i, n + k, by rw [← add_assoc, hi]; rfl, ha'⟩
  · refine forall_append (fun s hs => ?_) ⟨i, n + k, by rw [← add_assoc, hi]; rfl, ha'⟩
    obtain ⟨j, m, hj, hn⟩ := h.spans s hs
    exact ⟨j, m, hj.trans (Nat.le_add_right _ _), hn⟩
  · refine pairwise_segments.mpr ⟨ho, ?_, ?_, ?_⟩
    · intro s hs v hv w hw
      rcases mem_append.mp hw with hd | hww
      · exact hl s hs v hv w hd
      · -- the new records come after everything that was committed before
        obtain ⟨j, m, hj, hn⟩ := h.spans s (mem_segments.mpr (.inl hs))
        obtain ⟨a, ha, -, hf, rfl⟩ := hn.exists_getElem hv
        obtain ⟨b, hb, rfl⟩ := getElem_of_mem hww
        rw [length_take, length_drop] at hb
        rw [getElem_take, getElem_drop, hh.recordId_eq, hh.recordId_eq]
        exact hh.recordId_lt (by omega) (by omega)
    · intro s _ p hp v _ w hw
      rw [(hh.prepared_eq p hp).2] at hw
      exact absurd hw not_mem_nil
    · intro p hp v _ w hw
      rw [(hh.prepared_eq p hp).2] at hw
      exact absurd hw not_mem_nil
  · exact pairwise_segments.mpr
      ⟨hm, hm', hc, fun p hp => ⟨(hr p hp).1, fun _ => h.prepared_ne p hp⟩⟩
  · have hg := hh.recordId_le (Nat.le_add_right log.committed k) hle
    exact forall_append (fun s hs => UInt64.le_trans (h.base_le s hs) hg)
      (UInt64.le_trans (h.base_le log.active active_mem) hg)
  · exact h.prepared_ne

theorem next_segment :
    (∀ s ∈ log.closed ++ [log.active], s.base ≤ (log.prepared.getD (log.nextSegment cfg)).base ∧
        (s.records ≠ [] → (log.prepared.getD (log.nextSegment cfg)).base ≠ 0)) ∧
      (log.prepared.getD (log.nextSegment cfg)).base ≤ cfg.recordId log.committed := by
  cases hpr : log.prepared with
  | none =>
    refine ⟨fun s hs => ?_, UInt64.le_refl _⟩
    have hm := mem_segments_of_current hs
    refine ⟨h.base_le s hm, fun hne => ?_⟩
    refine hh.recordId_ne_zero ?_ hh.committed_le
    obtain ⟨i, k, hi, hr⟩ := h.spans s hm
    by_contra hz
    have hk : k = 0 := by omega
    rw [hr, hk, take_zero] at hne
    exact hne rfl
  | some p =>
    have hp : p ∈ log.prepared := hpr
    obtain ⟨-, -, hb, ht⟩ := pairwise_segments.mp h.base_mono
    refine ⟨fun s hs => ?_, h.base_le p (mem_segments.mpr (.inr (.inr hp)))⟩
    rcases mem_append.mp hs with hc | ha
    · exact hb s hc p hp
    · rw [mem_singleton.mp ha]
      exact ht p hp

theorem prepare (hne : log.active.records ≠ []) : LogOrder cfg (log.prepare cfg) := by
  obtain ⟨-, -, hr⟩ := hh.prepared_getD
  obtain ⟨hb, ha⟩ := h.next_segment hh
  constructor
  · exact h.active_span
  · exact forall_prepare h.spans ⟨0, 0, Nat.zero_le _, hr⟩
  · exact pairwise_prepare h.ordered (by simp [hr])
  · exact pairwise_prepare h.base_mono hb
  · exact forall_prepare h.base_le ha
  · intro p hp
    cases hp
    exact (hb log.active (mem_append_right _ mem_cons_self)).2 hne

theorem roll (keep : ℕ → Bool) : LogOrder cfg (log.roll cfg keep) := by
  obtain ⟨-, -, hr⟩ := hh.prepared_getD
  obtain ⟨hb, ha⟩ := h.next_segment hh
  constructor
  · exact ⟨log.committed, 0, rfl, hr⟩
  · exact forall_roll h.spans ⟨0, 0, Nat.zero_le _, hr⟩
  · exact pairwise_roll h.ordered (by simp [hr])
  · exact pairwise_roll h.base_mono hb
  · exact forall_roll h.base_le ha
  · intro p hp
    cases hp

theorem step (hs : LogStep C cfg guard keepAll log log') : LogOrder cfg log' := by
  cases hs with
  | publish timestampNs content _ _ => exact h.publish hh timestampNs content
  | append k _ hle _ => exact h.append hh hle
  | prepare hne _ => exact h.prepare hh hne
  | roll keep _ _ => exact h.roll hh keep

end

theorem of_reachable (h : LogReachable C cfg guard keepAll log) : LogOrder cfg log :=
  invariant_of_reached h logOrder_fresh fun _ _ hr ho hs =>
    ho.step (.of_reachable hr) hs

theorem segment_sorted (h : LogOrder cfg log) (hh : LogShape C cfg log)
    (hs : s ∈ log.segments) : s.records.Pairwise fun v w => v.recordId < w.recordId := by
  obtain ⟨i, k, hi, hn⟩ := h.spans s hs
  rw [hn]
  apply List.Pairwise.sublist ((take_sublist _ _).trans (drop_sublist _ _))
  apply pairwise_iff_getElem.mpr
  intro a b ha hb hab
  rw [hh.recordId_eq ha, hh.recordId_eq hb]
  exact hh.recordId_lt hab hb.le

theorem records_sorted (h : LogOrder cfg log) (hh : LogShape C cfg log) :
    log.records.Pairwise fun v w => v.recordId < w.recordId :=
  pairwise_flatMap.mpr ⟨fun _ hs => h.segment_sorted hh hs, h.ordered⟩

end LogOrder

end

end LogDb.Pipeline
