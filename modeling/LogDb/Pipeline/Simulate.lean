import LogDb.Pipeline.Refine

/-!
Every run of a shard is matched by a run of the abstract log.
-/

namespace LogDb.Pipeline

open Lib Format Storage List Option SegmentManager ShardState

variable {C : Crates} {cfg : ShardConfig} {st : ShardState} {log : Log} {guard : Log → Prop}
  {keepAll : Prop}

/-- The next segment is prepared when there is none yet and the active one is 80% full. -/
theorem Refines.maybePrepare (h : Refines C cfg st log) (hq : LogShape C cfg log)
    (hj : st.mgr.activeId + 1 < 2 ^ 32) :
    (st.mgr.maybePrepareNext C st.disk st.committed).1 = .ok () ∧ Refines C cfg
        { st with
          mgr := (st.mgr.maybePrepareNext C st.disk st.committed).2.1
          disk := (st.mgr.maybePrepareNext C st.disk st.committed).2.2 }
        (if log.prepared.isSome ∨ st.mgr.active.offset * 100 / cfg.segmentSize < 80 then log
          else log.prepare cfg) := by
  have hs : st.mgr.preparedSegment.isSome = log.prepared.isSome := by
    rw [h.prepared_eq, isSome_map]
  unfold maybePrepareNext
  rw [hs, ← h.mgr.segmentSize_eq]
  by_cases hr : log.prepared.isSome = true
  · rw [if_pos hr, if_pos (.inl hr)]
    exact ⟨rfl, h⟩
  · rw [if_neg hr]
    by_cases hm : st.mgr.active.offset * 100 / st.mgr.segmentSize < 80
    · rw [if_pos hm, if_pos (.inr hm)]
      exact ⟨rfl, h⟩
    · have hp : log.prepared = none := not_isSome_iff_eq_none.mp hr
      obtain ⟨seg, d, hcr, hc⟩ := h.created hq hp hj
      have hb : encodeRecordId st.mgr.shardId st.committed st.mgr.shardBits =
          cfg.recordId log.committed := by
        rw [h.mgr.shardId_eq, h.mgr.shardBits_eq, h.committed_eq]
        rfl
      rw [if_neg hm, if_neg (by simp [hr, hm])]
      simp only [hb, hcr]
      exact ⟨trivial, hc⟩

variable {count : ℕ} {nonce : Nonce} {bf : SegmentManager.BatchFill} {checkpoint : UInt64}
  {env : SegmentManager.RollEnv} {ok : ShardState → ShardEvent → Prop}

theorem Refines.commit_filled (hC : C.Lawful) (h : Refines C cfg st log)
    (hq : LogShape C cfg log) {k : ℕ} (cp : UInt64) (env : SegmentManager.RollEnv)
    (hi : SegmentManager.fill C st.mgr st.committed (st.batch count)
      (.start st.mgr st.committed) = .ok bf)
    (hf : SegmentManager.Filled C st.mgr st.committed (st.batch count)
      (.start st.mgr st.committed) bf k)
    (hk : 0 < k) (hle : log.committed + k ≤ log.published.length)
    (hj : st.mgr.activeId + 1 < 2 ^ 32)
    (hy : FrameFits C cfg.compressed cfg.encryptionKeys nonce ((st.batch count).take k)) :
    Refines C cfg (st.commitBatch C cfg count nonce cp env)
      (if log.prepared.isSome ∨
          (st.mgr.writeBatch C st.disk nonce bf).1.active.offset * 100 / cfg.segmentSize < 80 then
        log.append k else (log.append k).prepare cfg) := by
  have hw := h.write hC hf hk hy
  have hb' : (st.mgr.writeBatch C st.disk nonce bf).1.activeId + 1 < 2 ^ 32 := by
    rw [show (st.mgr.writeBatch C st.disk nonce bf).1.activeId = log.active.id from
      hw.activeId_eq, ← h.activeId_eq]
    exact hj
  obtain ⟨hp, hr⟩ := hw.maybePrepare (hq.append hle) hb'
  unfold commitBatch appendBatch
  rw [hi]
  simp only at hp hr ⊢
  generalize maybePrepareNext C (st.mgr.writeBatch C st.disk nonce bf).1
    (st.mgr.writeBatch C st.disk nonce bf).2 bf.next = r at hp hr ⊢
  obtain ⟨result, m, d⟩ := r
  cases hp
  exact hr

section

variable (hC : C.Lawful) (h : Refines C cfg st log) (hq : LogShape C cfg log)
  (hx : (ShardEvent.commit count nonce checkpoint env).Enabled cfg st)
  (hj : (ShardEvent.commit count nonce checkpoint env).Bounded cfg st)
  (hy : (ShardEvent.commit count nonce checkpoint env).FramesFit C cfg st)
include hC h hq hx hj hy

/-- A commit writes records, and perhaps prepares the next segment, or it rolls. -/
theorem Refines.commit_cases :
    (st.NextFits ∧ ∃ k log', 0 < k ∧ log.committed + k ≤ log.published.length ∧
      (log' = log.append k ∨ log' = (log.append k).prepare cfg) ∧
      Refines C cfg (st.commitBatch C cfg count nonce checkpoint env) log') ∨
    ∃ m d, st.mgr.rollSwap C st.disk (cfg.recordId st.committed) = some (m, d) ∧
      Refines C cfg { st with mgr := m, disk := d } (log.roll cfg fun _ => true) ∧
      st.commitBatch C cfg count nonce checkpoint env =
        { st with mgr := m, disk := m.rollCleanup C d checkpoint env } := by
  obtain ⟨hc, hle⟩ := hx
  have hl := batch_length hle
  have hne : st.batch count ≠ [] := by
    intro hn
    rw [hn, length_nil] at hl
    omega
  cases hf : fill C st.mgr st.committed (st.batch count)
    (.start st.mgr st.committed) with
  | error e =>
    right
    obtain rfl := fill_error hf
    obtain ⟨m, d, hs, hr⟩ := h.rollSwap hq hj
    refine ⟨m, d, hs, hr, ?_⟩
    unfold commitBatch appendBatch
    rw [hf]
    simp only [roll_of_swap hs]
  | ok bf =>
    left
    obtain ⟨k, hd, hp⟩ := fill_spec hf rfl
    have hk := hp rfl hne
    have he : log.committed + k ≤ log.published.length := by
      have ht := hd.le
      rw [← h.committed_eq, ← h.published_eq]
      omega
    refine ⟨?_, k, _, hk, he, ?_, h.commit_filled hC hq checkpoint env hf hd hk he hj
        fun hfr => hy hfr k⟩
    · intro v hv
      obtain ⟨vs, hdp⟩ := head?_eq_some_iff.mp hv
      obtain ⟨n, rfl⟩ := Nat.exists_eq_succ_of_ne_zero hc.ne'
      unfold batch at hf
      rw [hdp, take_succ_cons, fill] at hf
      by_contra hrm
      rw [length_nil, zero_add, if_neg hrm, if_pos rfl] at hf
      cases hf
    · split_ifs
      · exact .inl rfl
      · exact .inr rfl

theorem Refines.commit (hg : st.NextFits → guard log)
    (hp : keepAll → (ShardEvent.commit count nonce checkpoint env).KeepsAll cfg) :
    ∃ log', Relation.ReflTransGen (LogStep C cfg guard keepAll) log log' ∧
      Refines C cfg (st.commitBatch C cfg count nonce checkpoint env) log' := by
  have hid : log.active.id + 1 < 2 ^ 32 := by
    rw [← h.activeId_eq]
    exact hj
  rcases h.commit_cases hC hq hx hj hy with
    ⟨ht, k, log', hk, hle, hl', hr⟩ | ⟨m, d, -, hr, hc⟩
  · have hf : LogStep C cfg guard keepAll log (log.append k) := .append log k hk hle (hg ht)
    refine ⟨log', ?_, hr⟩
    rcases hl' with rfl | rfl
    · exact .single hf
    · refine (Relation.ReflTransGen.single hf).tail (.prepare _ ?_ hid)
      intro hi
      have hn := congrArg length (append_eq_nil_iff.mp hi).2
      rw [length_take, length_drop, length_nil] at hn
      omega
  · obtain ⟨keep, ho, ha⟩ := hr.rolled checkpoint env
    rw [hc]
    exact ⟨_, .single (.roll log keep (fun hk => ha (hp hk)) hid), ho⟩

end

theorem Refines.sync (h : Refines C cfg st log) (hq : LogShape C cfg log) :
    Refines C cfg st.sync log :=
  let hs := h.saveIndex hq
  { hs with mgr := { hs.mgr with } }

/-- Every step of the shard is matched by steps of the log. -/
theorem refines_of_reachable (guard : Log → Prop) (keepAll : Prop) (hC : C.Lawful)
    (hok : ∀ st ev, ok st ev → ev.Bounded cfg st ∧ ev.FramesFit C cfg st)
    (hg : ∀ st log, Refines C cfg st log → LogReachable C cfg guard keepAll log →
      ∀ count nonce checkpoint env, ok st (.commit count nonce checkpoint env) →
        st.NextFits → guard log) (hp : keepAll → ∀ st ev, ok st ev → ev.KeepsAll cfg)
    (h : ShardReachable C cfg ok st) :
    ∃ log, Refines C cfg st log ∧ LogReachable C cfg guard keepAll log := by
  obtain ⟨st₀, hf, hu⟩ := h
  apply invariant_of_steps
    (P := fun st => ∃ log, Refines C cfg st log ∧ LogReachable C cfg guard keepAll log) hu
    ⟨Log.fresh, refines_fresh hf, .refl⟩
  rintro a b ⟨log, hr, hh⟩ ⟨ev, hx, he, rfl⟩
  obtain ⟨hj, hy⟩ := hok a ev he
  have hq := LogShape.of_reachable hh
  cases ev with
  | publish timestampNs content =>
    change (a.published.length + 2) * _ < _ at hj
    rw [hr.published_eq] at hj
    exact ⟨_, hr.publish timestampNs content, hh.tail (.publish log timestampNs content hx hj)⟩
  | commit count nonce checkpoint env =>
    obtain ⟨log', hs, hr'⟩ := hr.commit hC hq hx hj hy
      (hg a log hr hh _ _ _ _ he) fun hk => hp hk a _ he
    exact ⟨log', hr', hh.trans hs⟩
  | sync => exact ⟨log, hr.sync hq, hh⟩
  | idle => exact ⟨log, hr.idle, hh⟩

theorem ShardState.commitBatch_committed_le (C : Crates) (cfg : ShardConfig) (st : ShardState)
    (count : ℕ) (nonce : Nonce) (cp : UInt64) (env : SegmentManager.RollEnv) :
    st.committed ≤ (st.commitBatch C cfg count nonce cp env).committed := by
  unfold commitBatch
  split
  · rename_i next m d ha
    unfold appendBatch at ha
    cases hf : fill C st.mgr st.committed (st.batch count)
        (.start st.mgr st.committed) with
    | error e =>
      rw [hf] at ha
      cases ha
    | ok bf =>
      obtain ⟨k, hd, -⟩ := fill_spec hf rfl
      rw [hf] at ha
      simp only [Prod.mk.injEq] at ha
      obtain ⟨hn, -⟩ := ha
      cases hp : (maybePrepareNext C (writeBatch C st.mgr st.disk nonce bf).1
          (writeBatch C st.mgr st.disk nonce bf).2 bf.next).1 with
      | error e =>
        rw [hp] at hn
        cases hn
      | ok u =>
        rw [hp] at hn
        cases hn
        show st.committed ≤ bf.next
        rw [hd.next_eq]
        exact Nat.le_add_right _ _
  · exact le_rfl
  · exact le_rfl

theorem ShardReachable.durable_le (h : ShardReachable C cfg ok st) : st.durable ≤ st.committed := by
  obtain ⟨st₀, hf, hr⟩ := h
  have hf' : st₀.durable ≤ st₀.committed := (fresh_empty hf).2.2.1.le.trans (Nat.zero_le _)
  apply invariant_of_steps (P := fun st => st.durable ≤ st.committed) hr hf'
  rintro a b hle ⟨ev, -, -, rfl⟩
  cases ev with
  | publish _ _ => exact hle
  | commit count nonce checkpoint env =>
    have hg := a.commitBatch_committed_le C cfg count nonce checkpoint env
    have hd := a.commitBatch_durable C cfg count nonce checkpoint env
    exact (hd.le.trans hle).trans hg
  | sync => exact le_rfl
  | idle => exact hle

end LogDb.Pipeline
