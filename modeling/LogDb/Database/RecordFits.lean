import LogDb.Pipeline.Capacity
import LogDb.Database.Run

/-!
Whether the committer makes progress on every record that `append` accepts. The limits on the
content size and on the segment size are checked one without the other, so a record may fit into
no segment at all; the committer then rolls for ever.
-/

namespace LogDb.Database

open Lib Format Storage Pipeline List

/-- The counters stay in range and every appended record fits into an empty segment. -/
def HoldsOneStep : StepCondition :=
  fun cfg st ev => ev.Bounded cfg st ∧ ∀ ts content, ev = .publish ts content → cfg.HoldsOne content

def Rolls (st st' : ShardState) : Prop :=
  st'.mgr.activeId ≠ st.mgr.activeId

section

variable {C : Crates} {cfg : ShardConfig} {st st' : ShardState}

theorem capacity_fresh (h : ShardState.fresh C cfg = .ok st) : Capacity cfg st := by
  unfold ShardState.fresh SegmentManager.create at h
  obtain ⟨seg, d, data, hc, ho, hs⟩ := ActiveSegment.create_of_above C
    Disk.empty 1
    { SegmentHeader.firstSegment (cfg.headerHashInit C) 0 0 1 cfg.hashEnabled hashAlgoBlake3 with
      flags := layoutFlags cfg.hashEnabled cfg.compressed cfg.encryptionKeys.isSome
      encryptionKeyId := cfg.encryptionKeys.elim 0 KeyRing.activeId } zeros32 cfg.compressed
    (fun f hf => absurd hf not_mem_nil)
  simp only [hc] at h
  cases h
  refine ⟨rfl, nofun, nofun, ?_, ?_⟩
  · intro f hf
    rw [hs] at hf
    rw [mem_singleton.mp hf]
    exact le_rfl
  · rw [hs]
    change 1 ≤ 0 + (if seg.offset = segmentHeaderSize then 1 else 0) + 0
    rw [if_pos ho]

/-- What a step does to the position and to the active segment. -/
theorem capacity_step (h : Capacity cfg st) (hs : ShardStep C cfg (HoldsOneStep cfg) st st') :
    Capacity cfg st' ∧ st.committed ≤ st'.committed ∧
      (Rolls st st' → st.mgr.active.offset ≠ segmentHeaderSize ∧
        st'.mgr.active.offset = segmentHeaderSize) ∧
      (st.mgr.active.offset = segmentHeaderSize →
        st.committed < st'.committed ∨ st'.mgr.active.offset = segmentHeaderSize) := by
  obtain ⟨ev, hen, ⟨hb, he⟩, rfl⟩ := hs
  cases ev with
  | publish ts content =>
    refine ⟨⟨h.segmentSize_eq, ?_, h.prepared, h.top, h.files⟩, le_rfl,
      fun hr => absurd rfl hr, .inr⟩
    intro v hv
    rcases mem_append.mp hv with hl | hn
    · exact h.contents v hl
    · rw [mem_singleton.mp hn]
      exact he ts content rfl
  | commit count nonce checkpoint env =>
    obtain ⟨hc, hle⟩ := hen
    by_cases hf : st.mgr.Fits (st.batch count)
    · obtain ⟨ha, hlt, hid⟩ := h.commit_fits (C := C) hc hle hb nonce checkpoint env hf
      exact ⟨ha, hlt.le, fun hr => absurd hid hr, fun _ => .inl hlt⟩
    · obtain ⟨ha, heq, -, ho⟩ := h.commit_full (C := C) hb nonce checkpoint env hf
      exact ⟨ha, heq.ge, fun _ => ⟨h.offset_ne hf, ho⟩, fun _ => .inr ho⟩
  | sync =>
    have hd : st.sync.disk.segments = st.disk.segments := SegmentManager.saveActiveIndex_segments ..
    refine ⟨⟨h.segmentSize_eq, h.contents, h.prepared, ?_, ?_⟩, le_rfl,
      fun hr => absurd rfl hr, .inr⟩
    · change ∀ f ∈ st.sync.disk.segments, _
      rw [hd]
      exact h.top
    · change st.sync.disk.segments.length ≤ _
      rw [hd]
      exact h.files
  | idle =>
    exact ⟨⟨h.segmentSize_eq, h.contents, h.prepared, h.top, h.files⟩, le_rfl,
      fun hr => absurd rfl hr, .inr⟩

theorem capacity_of_isRun {run : ℕ → ShardState} {n k : ℕ}
    (hf : ShardState.fresh C cfg = .ok (run 0))
    (hr : IsRun (ShardStep C cfg (HoldsOneStep cfg)) run n) (hk : k ≤ n) : Capacity cfg (run k) :=
  invariant_of_steps (hr.reaches hk) (capacity_fresh hf) fun _ _ h hs =>
    (capacity_step h hs).1

theorem committed_or_empty {run : ℕ → ShardState} {n i k : ℕ}
    (hf : ShardState.fresh C cfg = .ok (run 0))
    (hr : IsRun (ShardStep C cfg (HoldsOneStep cfg)) run n)
    (ho : Rolls (run i) (run (i + 1))) (hi : i < k) (hk : k ≤ n) :
    (run i).committed < (run k).committed ∨ (run i).committed ≤ (run k).committed ∧
      (run k).mgr.active.offset = segmentHeaderSize := by
  induction k, hi using Nat.le_induction with
  | base =>
    have hc := capacity_of_isRun hf hr (Nat.le_of_succ_le hk)
    obtain ⟨-, hm, he, -⟩ := capacity_step hc (hr i hk)
    exact .inr ⟨hm, (he ho).2⟩
  | succ k hi ih =>
    have hc := capacity_of_isRun hf hr (Nat.le_of_succ_le hk)
    obtain ⟨-, hm, -, hs⟩ := capacity_step hc (hr k hk)
    rcases ih (Nat.le_of_succ_le hk) with hlt | ⟨hle, he⟩
    · exact .inl (hlt.trans_le hm)
    · rcases hs he with hlt | he'
      · exact .inl (hle.trans_lt hlt)
      · exact .inr ⟨hle.trans hm, he'⟩

end

section

variable (C : Crates) {c : Config}

/-- A record is refused by an empty segment exactly when it is too long for any segment. In every
run without such records the committer rolls at most once at each position, onto an empty segment,
and the files are at most two more than the committed records. -/
theorem accepted_records_fit (hc : c.validate = .ok ()) (init : Bytes32) (s : Fin c.shards) :
    (∀ (m : SegmentManager) (d : Disk) (nonce : Nonce) (first : ℕ) (v : ReadView)
      (vs : List ReadView), m.segmentSize = c.segmentSize.toNat →
      m.active.offset = segmentHeaderSize →
      ((m.appendBatch C d nonce first (v :: vs)).1 = .error .full ↔
        c.segmentSize.toNat < segmentHeaderSize + recordSize v.content.length)) ∧
    ∀ (run : ℕ → ShardState) (n : ℕ),
      ShardState.fresh C (c.shard (Config.valid_of_validate hc) init s) = .ok (run 0) →
      IsRun (ShardStep C (c.shard (Config.valid_of_validate hc) init s)
        (HoldsOneStep (c.shard (Config.valid_of_validate hc) init s))) run n →
      (∀ k ≤ n, (run k).disk.segments.length ≤ (run k).committed + 2) ∧
      (∀ i < n, Rolls (run i) (run (i + 1)) →
        (run (i + 1)).mgr.active.offset = segmentHeaderSize) ∧
      ∀ i j, i < j → j < n → Rolls (run i) (run (i + 1)) → Rolls (run j) (run (j + 1)) →
        (run i).committed < (run j).committed := by
  constructor
  · intro m d nonce first v vs hs ho
    rw [SegmentManager.appendBatch_full_iff, hs, ho]
  · intro run n hf hr
    refine ⟨?_, ?_, ?_⟩
    · intro k hk
      have hfs := (capacity_of_isRun hf hr hk).files
      split_ifs at hfs <;> omega
    · intro i hi hro
      have ha := capacity_of_isRun hf hr hi.le
      exact ((capacity_step ha (hr i hi)).2.2.1 hro).2
    · intro i j hij hj hro hr'
      have ha := capacity_of_isRun hf hr hj.le
      have hne := ((capacity_step ha (hr j hj)).2.2.1 hr').1
      rcases committed_or_empty hf hr hro hij hj.le with hlt | ⟨-, he⟩
      · exact hlt
      · exact absurd he hne

end

theorem exists_rolls {run : ℕ → ShardState} {n : ℕ}
    (h : (run n).mgr.activeId ≠ (run 0).mgr.activeId) : ∃ i < n, Rolls (run i) (run (i + 1)) := by
  induction n with
  | zero => exact absurd rfl h
  | succ n ih =>
    by_cases hn : (run n).mgr.activeId = (run 0).mgr.activeId
    · exact ⟨n, lt_add_one n, fun he => h (he.trans hn)⟩
    · obtain ⟨i, hi, hr⟩ := ih hn
      exact ⟨i, hi.trans (lt_add_one n), hr⟩

theorem accepted_records_fit_rolled : ∃ (run : ℕ → ShardState) (n : ℕ),
    IsRun (ShardStep rawCrates rawShard (HoldsOneStep rawShard)) run n ∧
    (∃ i < n, Rolls (run i) (run (i + 1)) ∧
      (run (i + 1)).mgr.active.offset = segmentHeaderSize) ∧
    (run n).committed = 2 ∧ (run n).disk.segments.length ≤ 4 := by
  have hok : ∀ st ev, UnpreparedStep rawCrates rawShard st ev ∧ ev.Appends mediumRecord →
      HoldsOneStep rawShard st ev := by
    rintro st ev ⟨hu, ha⟩
    refine ⟨hu.1.1, fun ts content he => ?_⟩
    subst he
    rw [show content = mediumRecord from ha, ShardConfig.HoldsOne, mediumRecord_length]
    decide
  obtain ⟨-, st, ⟨st₀, hh, hr⟩, ht⟩ := follows_rawSegments.mono hok
  obtain ⟨run, n, hf, hl, hs, -⟩ := exists_isRun (P := fun _ => True)
    (Relation.ReflTransGen.mono (fun _ _ hsp => ⟨hsp, trivial⟩) _ _ hr) trivial
  obtain ⟨hfs, hro, -⟩ := (accepted_records_fit rawCrates rawConfig_validate zeros32
    (0 : Fin 1)).2 run n (hf ▸ hh) hs
  have hc : (run n).committed = 2 := by
    rw [hl, ht.committed_eq]
    rfl
  have hne : (run n).mgr.activeId ≠ (run 0).mgr.activeId := by
    rw [hl, hf, ht.activeId_eq, (refines_fresh hh).activeId_eq]
    decide
  obtain ⟨i, hi, hir⟩ := exists_rolls hne
  refine ⟨run, n, hs, ⟨i, hi, hir, hro i hi hir⟩, hc, ?_⟩
  have hle := hfs n le_rfl
  rwa [hc] at hle

def LimitedStep : ShardState → ShardState → Prop :=
  ShardStep rawCrates rawShard fun st ev => ev.InLimits rawCrates rawShard st

/-- With a first record that is too long for an empty segment, the commit rolls and leaves the
shard where it was. -/
theorem roll_oversized {st : ShardState} {log : Log} {v : ReadView}
    (h : Refines rawCrates rawShard st log) (hs : LogShape rawCrates rawShard log)
    (hp : log.published = [v]) (hc : log.committed = 0)
    (he : log.active.records = []) (hd : log.active.id + 1 < 2 ^ 32)
    (hl : rawShard.segmentSize < segmentHeaderSize + recordSize v.content.length) :
    ∃ st', LimitedStep st st' ∧ Rolls st st' ∧
      Refines rawCrates rawShard st' (log.roll rawShard fun _ => true) := by
  have hb : (log.published.drop log.committed).take 1 = v :: [] := by
    rw [hp, hc]
    rfl
  have hm : rawShard.segmentSize < fileLength rawCrates (log.active.records ++ [v]) := by
    rw [he, nil_append, fileLength_singleton]
    exact hl
  have hr := h.follow_roll hs rfl rfl zeroNonce quietEnv hb hd hm
  refine ⟨_, ⟨.commit 1 zeroNonce 0 quietEnv, ⟨one_pos, ?_⟩,
    h.commit_inLimits ⟨rfl, rfl⟩ hd 1, rfl⟩, ?_, hr⟩
  · rw [h.committed_eq, h.published_eq, hc, hp, length_singleton]
  · have hid : (log.roll rawShard fun _ => true).active.id = log.active.id + 1 := hs.prepared_getD.1
    have hn := hr.activeId_eq.trans hid
    rw [← h.activeId_eq] at hn
    exact fun heq => Nat.succ_ne_self _ (hn.symm.trans heq)

/-- The content is a variable here, so that nothing evaluates a long record. -/
theorem oversized_rolls_twice {content : Bytes} (hl : content.length ≤ rawShard.maxContentSize)
    (ho : rawShard.segmentSize < segmentHeaderSize + recordSize content.length) :
    ∃ st st' st'' : ShardState,
      ShardReachable rawCrates rawShard (fun st ev => ev.InLimits rawCrates rawShard st) st ∧
      LimitedStep st st' ∧ LimitedStep st' st'' ∧ Rolls st st' ∧ Rolls st' st'' ∧
      st.committed = 0 ∧ st'.committed = 0 ∧ st''.committed = 0 ∧
      st''.disk.segments.length = 3 := by
  obtain ⟨hs, st, hh, hr⟩ :=
    (Follows.fresh rawCrates rawShard fun st ev => ev.InLimits rawCrates rawShard st).step
      rawCrates_lawful ⟨rfl, rfl⟩ (admits_inLimits ⟨rfl, rfl⟩) (.publish hl (by decide))
  have hf : (Log.fresh.publish rawShard rawCrates 0 content).active.id + 1 < 2 ^ 32 := by
    change 1 + 1 < 2 ^ 32
    decide
  have hd : ((Log.fresh.publish rawShard rawCrates 0 content).roll rawShard
      fun _ => true).active.id + 1 < 2 ^ 32 := by
    change 2 + 1 < 2 ^ 32
    decide
  obtain ⟨st', hp, hrs, hr'⟩ := roll_oversized hr hs rfl rfl rfl hf ho
  obtain ⟨st'', hs', hrs', hr''⟩ := roll_oversized hr' (hs.roll _ hf) rfl rfl rfl hd ho
  refine ⟨st, st', st'', hh, hp, hs', hrs, hrs', hr.committed_eq,
    hr'.committed_eq, hr''.committed_eq, ?_⟩
  rw [← hr''.files.length_eq]
  rfl

/-- As long as the content may be, and too long for a segment. -/
@[irreducible] def fullRecord : Bytes :=
  List.replicate 1048576 0

theorem fullRecord_length : fullRecord.length = 1048576 := by
  unfold fullRecord
  exact length_replicate

theorem oversized_record_rolls_again : rawConfig.validate = .ok () ∧
    fullRecord.length ≤ rawConfig.maxContentSize ∧
    ∃ st st' st'' : ShardState,
      ShardReachable rawCrates rawShard (fun st ev => ev.InLimits rawCrates rawShard st) st ∧
      LimitedStep st st' ∧ LimitedStep st' st'' ∧ Rolls st st' ∧ Rolls st' st'' ∧
      st.committed = 0 ∧ st'.committed = 0 ∧ st''.committed = 0 ∧
      st''.disk.segments.length = 3 := by
  have hl : fullRecord.length ≤ rawShard.maxContentSize := by
    rw [fullRecord_length]
    decide
  have ho : rawShard.segmentSize < segmentHeaderSize + recordSize fullRecord.length := by
    rw [fullRecord_length]
    decide
  exact ⟨rawConfig_validate, hl, oversized_rolls_twice hl ho⟩

end LogDb.Database
