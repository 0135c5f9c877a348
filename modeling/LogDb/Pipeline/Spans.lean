import LogDb.Pipeline.Durable

/-!
Which records the files hold when calls of the device may fail: as long as the next segment can be
prepared, every file has the records of its own span of sequences, once each.
-/

namespace LogDb.Pipeline

open Lib Format Storage Journal List Function Option SegmentManager Disk DeviceShard

/-- Where the records of a file end: at the offset of the active one, and where the others were
left. -/
def DeviceShard.validEnd (s : DeviceShard) (g : ℕ) : ℕ :=
  if g = s.mgr.active.id then s.mgr.active.offset else s.sealedAt g

/-- File `g` holds the records of the sequences from `cut g` up to `cut (g + 1)`. -/
structure Cut (C : Crates) (cfg : ShardConfig) (s : DeviceShard) (cut : ℕ → ℕ) : Prop where
  mono : Monotone cut
  above : ∀ g, s.mgr.active.id < g → cut g = s.committed
  region : ∀ g, 1 ≤ g → g ≤ s.mgr.active.id → ∃ body,
    Written C cfg ((s.published.take (cut (g + 1))).drop (cut g)) body ∧
      s.journal.Placed segmentHeaderSize g body ∧ segmentHeaderSize + body.length = s.validEnd g

structure SpanInv (C : Crates) (cfg : ShardConfig) (s : DeviceShard) : Prop where
  mounted : Mounted C cfg s
  files : ∀ g, (s.disk.get g).isSome = true → 1 ≤ g ∧ g ≤ s.mgr.activeId + 1
  leftover : s.mgr.preparedSegment = none → (s.disk.get s.mgr.nextId).isSome = true → ¬ s.NextFits
  le : s.committed ≤ s.published.length
  spans : ∃ cut, Cut C cfg s cut

section Steps

variable {C : Crates} {cfg : ShardConfig} {s s' : DeviceShard} {cut : ℕ → ℕ}

theorem Cut.evolves (h : Cut C cfg s cut) (he : Evolves segmentHeaderSize s.journal s'.journal)
    (hid : s'.mgr.active.id = s.mgr.active.id) (ho : s'.mgr.active.offset = s.mgr.active.offset)
    (hu : s'.published = s.published) (hc : s'.committed = s.committed)
    (hs : s'.sealedAt = s.sealedAt) :
    Cut C cfg s' cut where
  mono := h.mono
  above := by
    rw [hid, hc]
    exact h.above
  region := by
    intro g ha hle
    rw [hid] at hle
    obtain ⟨body, hw, hp, hl⟩ := h.region g ha hle
    refine ⟨body, hu ▸ hw, he.placed g body hp, ?_⟩
    unfold validEnd
    rw [hid, ho, hs]
    exact hl

theorem Cut.rests (h : Cut C cfg s cut) (hr : Rests segmentHeaderSize s.journal s'.journal)
    (hp : s'.published = s.published) (hc : s'.committed = s.committed)
    (hs : s'.sealedAt = s.sealedAt) : Cut C cfg s' cut :=
  h.evolves hr.evolves hr.current_eq hr.limit_eq hp hc hs

variable {nonce : Nonce} {count : ℕ} {roll : RollOutcomes} {m : SegmentManager}
  {append : AppendOutcomes}

theorem Cut.appends (h : Cut C cfg s cut) (hle : s.committed ≤ s.published.length) {k : ℕ}
    (hk : k ≤ (s.batch count).length) (hap : Appends segmentHeaderSize s.journal s'.journal
      (batchChunk C cfg nonce ((s.batch count).take k))) (hu : s'.published = s.published)
    (hc : s'.committed = s.committed + k) (hs : s'.sealedAt = s.sealedAt) :
    Cut C cfg s' fun g => if g ≤ s.mgr.active.id then cut g else s.committed + k := by
  have hid : s'.mgr.active.id = s.mgr.active.id := hap.current_eq
  have hbl : ∀ g, g ≤ s.mgr.active.id → cut g ≤ s.committed := by
    intro g hg
    rw [← h.above (s.mgr.active.id + 1) (lt_add_one _)]
    exact h.mono (hg.trans (Nat.le_succ _))
  refine ⟨?_, ?_, ?_⟩
  · intro a b hab
    simp only
    split_ifs with ha hb hb
    · exact h.mono hab
    · exact (hbl a ha).trans (Nat.le_add_right _ _)
    · omega
    · exact le_rfl
  · intro g hg
    rw [hid] at hg
    rw [if_neg (not_le.mpr hg), hc]
  · intro g ho hg
    rw [hid] at hg
    obtain ⟨body, hw, hp, hl⟩ := h.region g ho hg
    unfold validEnd at hl ⊢
    rw [hid, hu, hs, if_pos hg]
    by_cases ht : g = s.mgr.active.id
    · subst ht
      rw [if_pos rfl] at hl ⊢
      rw [h.above _ (lt_add_one _)] at hw
      rw [if_neg (Nat.not_succ_le_self _), take_add, drop_append_of_le_length
        (by rw [length_take_of_le hle]; exact hbl _ le_rfl), ← ShardState.batch_take hk]
      refine ⟨_, hw.batch nonce _, hap.placed body hp hl, ?_⟩
      rw [length_append, ← add_assoc, hl]
      exact hap.limit_eq.symm
    · rw [if_neg ht] at hl ⊢
      have he : g + 1 ≤ s.mgr.active.id := Nat.lt_of_le_of_ne hg ht
      rw [if_pos he]
      exact ⟨body, hw, hap.evolves.placed g body hp, hl⟩

theorem Cut.rolled (h : Cut C cfg s cut) (hn : Mounted C cfg s) (hb : s.mgr.activeId + 1 < 2 ^ 32)
    {vol : Volume} (hr : SegmentManager.RollCase s.mgr s.volume roll (.ok (), m, vol))
    (cp : UInt64) (env : SegmentManager.RollEnv) :
    Cut C cfg
      { s.put m { vol with disk := m.rollCleanup C vol.disk cp env } with
        sealedAt := update s.sealedAt s.mgr.active.id s.mgr.active.offset } cut := by
  have hx := hn.disk.lt_nextId hb
  have hc : s.mgr.nextId = s.mgr.active.id + 1 := by
    unfold nextId
    rw [Nat.mod_eq_of_lt hb, hn.disk.active_id]
  obtain ⟨seg, hm, hs, -, -, hv, -, -⟩ := hr.of_ok hx rfl hn.disk
  obtain rfl : m = s.mgr.swapActive s.mgr.nextId seg := hm
  set m := s.mgr.swapActive s.mgr.nextId seg
  have hid : m.active.id = s.mgr.nextId := hs.id_eq
  have hd : Evolves segmentHeaderSize (m.journal vol)
      (m.journal { vol with disk := m.rollCleanup C vol.disk cp env }) :=
    evolves_deletes (rollCleanup_deletes _ _ _)
  refine ⟨h.mono, ?_, ?_⟩
  · intro g hg
    exact h.above g (hx.trans (hid ▸ hg))
  · intro g ho hg
    have hg' : g ≤ s.mgr.nextId := hid ▸ hg
    by_cases ha : g = s.mgr.nextId
    · refine ⟨[], ?_, ⟨fun _ _ => rfl, hg, fun _ => hs.offset_eq.ge⟩, ?_⟩
      · show Written C cfg ((s.published.take (cut (g + 1))).drop (cut g)) []
        rw [h.above (g + 1) (by omega), h.above g (by omega), drop_take_self]
        exact .nil
      · exact hs.offset_eq.symm.trans (if_pos (ha.trans hid.symm)).symm
    · obtain ⟨body, hw, hp, hl⟩ := h.region g ho (by omega)
      refine ⟨body, hw, (hv.trans hd).placed g body hp, hl.trans ?_⟩
      have he : validEnd { s.put m { vol with
          disk := m.rollCleanup C vol.disk cp env } with
          sealedAt := update s.sealedAt s.mgr.active.id s.mgr.active.offset } g =
          update s.sealedAt s.mgr.active.id s.mgr.active.offset g :=
        if_neg fun heq => ha (heq.trans hid)
      rw [he, update_apply]
      rfl

theorem Cut.publish (h : Cut C cfg s cut) (hle : s.committed ≤ s.published.length)
    (ts : UInt64) (content : Bytes) :
    Cut C cfg (s.publish C cfg ts content) cut := by
  refine ⟨h.mono, h.above, ?_⟩
  intro g ho hg
  obtain ⟨body, hw, hp, hl⟩ := h.region g ho hg
  refine ⟨body, ?_, hp, hl⟩
  have hc : cut (g + 1) ≤ s.published.length := by
    refine le_trans ?_ hle
    rw [← h.above (s.mgr.active.id + 1) (lt_add_one _)]
    exact h.mono (Nat.succ_le_succ hg)
  show Written C cfg (((s.published ++ _).take (cut (g + 1))).drop (cut g)) body
  rwa [take_append_of_le_length hc]

section

variable (h : SpanInv C cfg s)
include h

/-- When the next record fits, no file is in the way of the next segment. -/
theorem SpanInv.get_nextId (hn : s.mgr.preparedSegment = none)
    (hf : s.NextFits) : s.disk.get s.mgr.nextId = none := by
  by_contra hl
  exact h.leftover hn (isSome_iff_ne_none.mpr hl) hf

theorem SpanInv.prepared (ht : s.NextFits) {st : SegmentManager.BatchFill}
    {offset : ℕ} {change : Bytes → Bytes} {r : Except SegmentError Unit × SegmentManager × Disk}
    (hp : SegmentManager.PrepareCase (s.mgr.filled st offset)
      (s.disk.modify s.mgr.active.id change) .done r) :
    r.1 = .ok () ∧ (r.2.1.preparedSegment = none → r.2.2.get s.mgr.nextId = none) := by
  have hf : s.mgr.preparedSegment = none →
      (s.disk.modify s.mgr.active.id change).get s.mgr.nextId = none := by
    intro hn
    rw [← not_isSome_iff_eq_none, isSome_get_modify, h.get_nextId hn ht]
    exact Bool.false_ne_true
  cases hp with
  | skipped => exact ⟨rfl, hf⟩
  | refused e hn hr =>
    rcases hr with hd | hl
    · exact absurd rfl hd
    · have hn' : (s.disk.modify s.mgr.active.id change).get (s.mgr.filled st offset).nextId =
          none := hf hn
      rw [hn'] at hl
      cases hl
  | torn e d' data hn ho hc =>
    obtain ⟨written, hw⟩ := ho
    cases hw
  | created seg d' data hn hs hc => exact ⟨rfl, nofun⟩

theorem SpanInv.commit {cp : UInt64} {env : SegmentManager.RollEnv}
    (hb : s.mgr.activeId + 1 < 2 ^ 32) (hj : 0 < count)
    (hle : s.committed + count ≤ s.published.length) (hdo : append.prepare = .done)
    (hcs : CommitCase C s count nonce cp env append roll s') : SpanInv C cfg s' := by
  have hi := h.mounted.commit hb hcs
  have hx := h.mounted.disk.lt_nextId hb
  have hsc : s.mgr.nextId = s.mgr.activeId + 1 := Nat.mod_eq_of_lt hb
  have hfs : ∀ g, (s'.disk.get g).isSome = true → 1 ≤ g ∧ g ≤ s.mgr.activeId + 1 := by
    intro g hg
    rcases hcs.files hg with ho | rfl
    · exact h.files g ho
    · omega
  obtain ⟨cut, hc⟩ := h.spans
  cases hcs with
  | failed ht st hsm change hkp =>
    refine ⟨hi, hfs, ?_, h.le, cut, ?_⟩
    · intro hnn hf
      exact absurd hf (by
        rw [isSome_get_modify]
        show ¬ (s.disk.get s.mgr.nextId).isSome = true
        rw [h.get_nextId hnn ((fits_batch_iff hj).mp ht)]
        exact Bool.false_ne_true)
    · exact hc.rests (rests_failed s.volume hsm hkp) rfl rfl rfl
  | wrote ht st hsm k hk hkn chunk ha change hkp hh r hpr committed hq =>
    rw [hdo] at hpr
    obtain ⟨hok, he⟩ := h.prepared ((fits_batch_iff hj).mp ht) hpr
    have hd : r.2.1.activeId = s.mgr.activeId := by
      cases hpr <;> rfl
    have hc' : committed = s.committed + k := (hq.resolve_right fun hv => hv.1 hok).2
    have hap := h.mounted.appends_wrote hb hsm ha hkp hh hpr
    refine ⟨hi, ?_, ?_, ?_, _, hc.appends h.le hkn hap rfl hc' rfl⟩
    · intro g hg
      show 1 ≤ g ∧ g ≤ r.2.1.activeId + 1
      rw [hd]
      exact hfs g hg
    · intro hnn hf
      have hn : r.2.1.nextId = s.mgr.nextId := by
        unfold nextId
        rw [hd]
      rw [hn, he hnn] at hf
      cases hf
    · have hl := ShardState.batch_length hle
      show committed ≤ s.published.length
      omega
  | unrolled ht e m vol hr =>
    obtain ⟨hm, hrs⟩ := hr.of_error hx rfl
    obtain rfl : m = s.mgr := hm
    refine ⟨hi, hfs, ?_, h.le, cut, hc.rests hrs rfl rfl rfl⟩
    intro _ _ hns
    exact ht ((fits_batch_iff hj).mpr hns)
  | rolled ht m vol hr =>
    have hu := hc.rolled h.mounted hb hr cp env
    obtain ⟨seg, hm, hs, -⟩ := hr.of_ok hx rfl h.mounted.disk
    obtain rfl : m = s.mgr.swapActive s.mgr.nextId seg := hm
    refine ⟨hi, ?_, ?_, h.le, cut, hu⟩
    · intro g hg
      obtain ⟨hp, hle'⟩ := hfs g hg
      show 1 ≤ g ∧ g ≤ s.mgr.nextId + 1
      omega
    · intro _ hf
      -- no file has an id behind that of the new segment, also when the ids wrap
      obtain ⟨hp, hle'⟩ := hfs _ hf
      have hn : (s.mgr.swapActive s.mgr.nextId seg).nextId = (s.mgr.nextId + 1) % 2 ^ 32 := rfl
      exact absurd hp (by
        show ¬ 1 ≤ (s.mgr.swapActive s.mgr.nextId seg).nextId
        have hle'' : (s.mgr.swapActive s.mgr.nextId seg).nextId ≤ s.mgr.activeId + 1 := hle'
        rw [hn] at hle'' ⊢
        omega)

theorem SpanInv.append_error (hc : 0 < count)
    (hle : s.committed + count ≤ s.published.length) (hd : append.prepare = .done)
    {e : SegmentError} {d : Disk}
    (he : s.mgr.appendBatchWith C s.disk nonce s.committed (s.batch count) append =
      (.error e, m, d)) :
    m.active.id = s.mgr.active.id ∧ m.active.offset = s.mgr.active.offset ∧
      ∀ bytes, s.disk.get s.mgr.active.id = some bytes → ∃ bytes',
        d.get s.mgr.active.id = some bytes' ∧ bytes.take s.mgr.active.offset <+: bytes' := by
  have hcs := appendBatch_cases (C := C) (m := s.mgr) (d := s.disk) nonce
    s.committed append (batch_ne_nil hc hle)
  generalize hr : s.mgr.appendBatchWith C s.disk nonce s.committed (s.batch count) append = r
    at hcs he
  cases hcs with
  | full ht =>
    cases he
    exact ⟨rfl, rfl, fun bytes hg => ⟨bytes, hg, take_prefix _ _⟩⟩
  | failed ht st hm e' change hp ho =>
    cases he
    refine ⟨hm.id_eq, rfl, fun bytes hg => ⟨change bytes, get_modify hg change, ?_⟩⟩
    have hl : 0 + (bytes.take s.mgr.active.offset).length ≤ s.mgr.active.offset := by
      rw [zero_add]
      exact length_take_le _ _
    have hf : field 0 (bytes.take s.mgr.active.offset).length bytes =
        bytes.take s.mgr.active.offset := by
      rw [field_zero]
      exact (prefix_iff_eq_take.mp (List.take_prefix _ _)).symm
    have hke := hp 0 bytes _ hl hf
    rw [field_zero] at hke
    exact prefix_iff_eq_take.mpr hke.symm
  | wrote ht st hm k hk hn chunk ha change hp hh r hpr =>
    rw [hd] at hpr
    obtain ⟨hok, -⟩ := h.prepared ((fits_batch_iff hc).mp ht) hpr
    have hs := congrArg Prod.fst he
    simp only [hok, Except.map] at hs
    cases hs

theorem SpanInv.evolves (hn : Mounted C cfg s')
    (he : Evolves segmentHeaderSize s.journal s'.journal) {queue : List ℕ}
    (hm : s'.mgr = { s.mgr with pendingFsync := queue }) (hg : s'.disk.get = s.disk.get)
    (hp : s'.published = s.published) (hc : s'.committed = s.committed)
    (hs : s'.sealedAt = s.sealedAt) : SpanInv C cfg s' := by
  obtain ⟨cut, hu⟩ := h.spans
  refine ⟨hn, ?_, ?_, ?_, cut, ?_⟩
  · rw [hg, hm]
    exact h.files
  · unfold ShardState.NextFits
    rw [hg, hm, hp, hc]
    exact h.leftover
  · rw [hp, hc]
    exact h.le
  · apply hu.evolves he
    · rw [hm]
    · rw [hm]
    · exact hp
    · exact hc
    · exact hs

theorem SpanInv.syncAll (o : SyncOutcomes) : SpanInv C cfg (s.syncAll o).2 := by
  obtain ⟨hm, hd⟩ := s.mgr.syncAllWith_eq s.volume o
  have he : Evolves segmentHeaderSize s.journal (s.syncAll o).2.journal :=
    evolves_syncAll h.mounted.disk.file o
  exact h.evolves (h.mounted.syncAll o) he hm (congrArg get hd) rfl rfl rfl

theorem SpanInv.advance (o : SyncOutcomes) : SpanInv C cfg (s.advance o) := by
  have hs : (s.advance o).disk.segments = s.disk.segments := saveActiveIndexWith_segments _ _
  have he : Evolves segmentHeaderSize s.journal (s.advance o).journal := by
    rw [s.advance_journal]
    exact .refl _ _
  exact h.evolves (h.mounted.advance o) he rfl (get_congr hs) rfl rfl rfl

theorem SpanInv.drain (ok : ℕ → Bool) : SpanInv C cfg (s.drainPendingFsyncs ok) := by
  have hd : (s.drainPendingFsyncs ok).disk = s.disk :=
    drainPending_disk ok s.mgr.pendingFsync s.volume
  exact h.evolves (h.mounted.drain ok) (s.mgr.evolves_drain s.volume ok) rfl
    (congrArg get hd) rfl rfl rfl

theorem SpanInv.publish (ts : UInt64) (content : Bytes) :
    SpanInv C cfg (s.publish C cfg ts content) := by
  obtain ⟨cut, hc⟩ := h.spans
  have hl : (s.publish C cfg ts content).published.length = s.published.length + 1 := length_append
  refine ⟨h.mounted.publish ts content, h.files, ?_, ?_, cut,
    hc.publish h.le ts content⟩
  · intro hn hf ht
    -- a record that waits is still the next one
    apply h.leftover hn hf
    intro v hv
    apply ht v
    show v ∈ ((s.published ++ _).drop s.committed).head?
    rw [drop_append_of_le_length h.le, head?_append, mem_def.mp hv]
    rfl
  · show s.committed ≤ _
    have hle := h.le
    omega

end

theorem SpanInv.fresh (hf : fresh C cfg = .ok s) : SpanInv C cfg s := by
  obtain ⟨st, hs, rfl⟩ := exists_fresh hf
  have hr := refines_fresh hs
  obtain ⟨hm, hd⟩ := Mounted.fresh hs
  obtain ⟨hu, hc, -, -, ho⟩ := ShardState.fresh_empty hs
  have hid : st.mgr.active.id = 1 := hr.active_id
  have ha : st.mgr.activeId = 1 := hr.activeId_eq
  refine ⟨⟨hm, hd⟩, ?_, ?_, ?_, fun _ => 0, ?_, ?_, ?_⟩
  · intro g hg
    rw [fresh_files hs hg]
    exact ⟨le_rfl, Nat.le_add_left _ _⟩
  · intro _ hl
    have hn : st.mgr.nextId = 1 := fresh_files hs hl
    unfold nextId at hn
    rw [ha] at hn
    exact absurd hn (by decide)
  · rw [show st.committed = 0 from hc]
    exact Nat.zero_le _
  · exact monotone_const
  · exact fun _ _ => hc.symm
  · intro g hp hg
    have hg' : g ≤ 1 := hid ▸ hg
    obtain rfl : g = 1 := le_antisymm hg' hp
    refine ⟨[], .nil, ⟨fun _ _ => rfl, hg, fun _ => ho.ge⟩, ?_⟩
    exact ho.symm.trans (if_pos hid.symm).symm

end Steps

end LogDb.Pipeline
