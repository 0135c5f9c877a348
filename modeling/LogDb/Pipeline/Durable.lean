import LogDb.Pipeline.DeviceCases

/-!
Where the records are on the device: every committed record is in a file that is synced, or will be
before the durable cursor moves over it, as long as no sync of a queued file fails.
-/

namespace LogDb.Pipeline

open Lib Format Storage Journal List

variable {append : AppendOutcomes} {nonce : Nonce} {m : SegmentManager}
  {env : SegmentManager.RollEnv} {checkpoint : UInt64} {count : ℕ}

def batchChunk (C : Crates) (cfg : ShardConfig) (nonce : Nonce) (views : List ReadView) : Bytes :=
  if cfg.framed then
    frameBytes (encodeFramePayload C cfg.compressed (cfg.encryptionKeys.map KeyRing.active) nonce
      (batchBytes C views)) (batchBytes C views).length
  else batchBytes C views

variable {C : Crates} {cfg : ShardConfig} {views : List ReadView} {s : DeviceShard}

theorem batchChunk_raw (hr : cfg.framed = false) (nonce : Nonce) (views : List ReadView) :
    batchChunk C cfg nonce views = batchBytes C views := by
  unfold batchChunk
  rw [hr]
  rfl

/-- The bytes of batches that were written one after the other. -/
inductive Written (C : Crates) (cfg : ShardConfig) : List ReadView → Bytes → Prop where
  | nil : Written C cfg [] []
  | batch {views : List ReadView} {body : Bytes} (h : Written C cfg views body) (nonce : Nonce)
      (more : List ReadView) : Written C cfg (views ++ more) (body ++ batchChunk C cfg nonce more)

/-- The content of a segment file begins with batches that have the record. -/
def HoldsRecord (C : Crates) (cfg : ShardConfig) (bytes : Bytes) (v : ReadView) : Prop :=
  ∃ views body, Written C cfg views body ∧ v ∈ views ∧
    field segmentHeaderSize body.length bytes = body

theorem Written.eq_batchBytes {body : Bytes} (hr : cfg.framed = false)
    (h : Written C cfg views body) : body = batchBytes C views := by
  induction h with
  | nil => rfl
  | batch h nonce more ih => rw [ih, batchChunk_raw hr, batchBytes_append]

theorem HoldsRecord.mem_of_raw {header : Bytes} {stored : List ReadView} {v : ReadView}
    (hr : cfg.framed = false) (hh : header.length = segmentHeaderSize)
    (hl : (batchBytes C stored).length < 2 ^ 32)
    (h : HoldsRecord C cfg (header ++ batchBytes C stored) v) : v ∈ stored := by
  obtain ⟨views, body, hw, hv, hf⟩ := h
  have hb := hw.eq_batchBytes hr
  have ht : (batchBytes C stored).take body.length = body := by
    unfold field at hf
    rwa [← hh, drop_left] at hf
  have hs : batchBytes C views ++ (batchBytes C stored).drop body.length = batchBytes C stored := by
    rw [← hb]
    nth_rewrite 1 [← ht]
    exact take_append_drop _ _
  exact (isPrefix_of_batchBytes hs hl).subset hv

theorem ManagerOf.addedBytes_eq (h : ManagerOf C cfg m) (nonce : Nonce) (views : List ReadView) :
    SegmentManager.addedBytes C m nonce (batchBytes C views) = batchChunk C cfg nonce views := by
  unfold SegmentManager.addedBytes batchChunk ShardConfig.framed
  rw [h.active_compressed, h.keys_eq]

namespace DeviceShard

def journal (s : DeviceShard) : Journal :=
  s.mgr.journal s.volume

theorem advance_journal (s : DeviceShard) (o : SyncOutcomes) : (s.advance o).journal = s.journal :=
  s.mgr.journal_congr s.volume (SegmentManager.saveActiveIndexWith_segments _ _)

end DeviceShard

theorem Mounted.appends_wrote (h : Mounted C cfg s) (hb : s.mgr.activeId + 1 < 2 ^ 32)
    {st : SegmentManager.BatchFill} (hs : ActiveSegment.SameFile st.active s.mgr.active) {chunk : Bytes}
    (ha : chunk = SegmentManager.addedBytes C s.mgr nonce (batchBytes C views))
    {change : Bytes → Bytes} (hk : KeepsContent segmentHeaderSize s.mgr.active.offset change)
    (hc : ∀ bytes, field s.mgr.active.offset chunk.length (change bytes) = chunk)
    {o : FileOutcome} {r : Except SegmentError Unit × SegmentManager × Disk}
    (hp : SegmentManager.PrepareCase (s.mgr.filled st (s.mgr.active.offset + chunk.length))
      (s.disk.modify s.mgr.active.id change) o r) :
    Appends segmentHeaderSize s.journal (r.2.1.journal { s.volume with disk := r.2.2 })
      (batchChunk C cfg nonce views) := by
  rw [h.mgr.addedBytes_eq] at ha
  subst ha
  have hw := SegmentManager.appends_wrote s.volume hs hk hc
  have hn := hs.id_eq.trans_lt (h.disk.lt_nextId hb)
  exact hw.trans_rests (hp.rests hn s.volume)

/-- The record is in a file that meets `ok`, and in `strict` mode with a synced entry. -/
def InFile (C : Crates) (cfg : ShardConfig) (strict : Prop) (j : Journal)
    (ok : ℕ → Bytes → Prop) (v : ReadView) : Prop :=
  ∃ g views body, Written C cfg views body ∧ v ∈ views ∧ j.Placed segmentHeaderSize g body ∧
    ok g body ∧ (strict → j.entries g = true)

structure DeviceInv (C : Crates) (cfg : ShardConfig) (strict : Prop) (s : DeviceShard) : Prop where
  mounted : Mounted C cfg s
  current : ∃ views body, Written C cfg views body ∧
    s.journal.Placed segmentHeaderSize s.mgr.active.id body ∧
    segmentHeaderSize + body.length = s.mgr.active.offset
  entered : strict → s.entries s.mgr.active.id = true
  committed : ∀ i < s.committed, ∃ v, s.published[i]? = some v ∧
    InFile C cfg strict s.journal (s.journal.Accounted segmentHeaderSize) v
  durable : ∀ i < s.durable, ∃ v, s.published[i]? = some v ∧
    InFile C cfg strict s.journal (s.journal.Synced segmentHeaderSize) v

section Steps

variable {C : Crates} {cfg : ShardConfig} {strict : Prop} {j j' : Journal} {v : ReadView}
  {s s' : DeviceShard}

theorem InFile.accounted (h : InFile C cfg strict j (j.Accounted segmentHeaderSize) v)
    (hev : Evolves segmentHeaderSize j j') (hr : Remembers segmentHeaderSize j j') :
    InFile C cfg strict j' (j'.Accounted segmentHeaderSize) v := by
  obtain ⟨g, views, body, hw, hv, hp, ha, he⟩ := h
  exact ⟨g, views, body, hw, hv, hev.placed g body hp, hr g body hp ha,
    fun hs => hev.entries g (he hs)⟩

theorem InFile.synced (h : InFile C cfg strict j (j.Synced segmentHeaderSize) v)
    (hev : Evolves segmentHeaderSize j j') :
    InFile C cfg strict j' (j'.Synced segmentHeaderSize) v := by
  obtain ⟨g, views, body, hw, hv, hp, hs, he⟩ := h
  exact ⟨g, views, body, hw, hv, hev.placed g body hp, hev.synced g body hp hs,
    fun ht => hev.entries g (he ht)⟩

section

variable (h : DeviceInv C cfg strict s) (hz : Mounted C cfg s')
include h hz

theorem DeviceInv.evolves (he : Evolves segmentHeaderSize s.journal s'.journal)
    (hr : Remembers segmentHeaderSize s.journal s'.journal)
    (hid : s'.mgr.active.id = s.mgr.active.id) (ho : s'.mgr.active.offset = s.mgr.active.offset)
    (hu : s'.published = s.published) (hc : s'.committed = s.committed)
    (hd : s'.durable = s.durable) : DeviceInv C cfg strict s' := by
  refine ⟨hz, ?_, ?_, ?_, ?_⟩
  · obtain ⟨views, body, hw, hp, hl⟩ := h.current
    rw [hid, ho]
    exact ⟨views, body, hw, he.placed _ _ hp, hl⟩
  · intro hs
    rw [hid]
    exact he.entries _ (h.entered hs)
  · intro i hi
    rw [hc] at hi
    obtain ⟨v, hv, hn⟩ := h.committed i hi
    exact ⟨v, hu ▸ hv, hn.accounted he hr⟩
  · intro i hi
    rw [hd] at hi
    obtain ⟨v, hv, hn⟩ := h.durable i hi
    exact ⟨v, hu ▸ hv, hn.synced he⟩

theorem DeviceInv.rests (hr : Rests segmentHeaderSize s.journal s'.journal)
    (hp : s'.published = s.published) (hc : s'.committed = s.committed)
    (hd : s'.durable = s.durable) : DeviceInv C cfg strict s' :=
  h.evolves hz hr.evolves hr.remembers hr.current_eq hr.limit_eq hp
    hc hd

theorem DeviceInv.appends {batch : List ReadView}
    (ha : Appends segmentHeaderSize s.journal s'.journal (batchChunk C cfg nonce batch))
    (hu : s'.published = s.published) (hd : s'.durable = s.durable)
    (hc : ∀ i < s'.committed, i < s.committed ∨ ∃ v ∈ batch, s.published[i]? = some v) :
    DeviceInv C cfg strict s' := by
  have hid : s'.mgr.active.id = s.mgr.active.id := ha.current_eq
  have hf : s'.mgr.active.offset =
      s.mgr.active.offset + (batchChunk C cfg nonce batch).length := ha.limit_eq
  obtain ⟨views, body, hw, hp, hl⟩ := h.current
  have hpd : s'.journal.Placed segmentHeaderSize s.mgr.active.id
      (body ++ batchChunk C cfg nonce batch) := ha.placed body hp hl
  have he : strict → s'.entries s.mgr.active.id = true :=
    fun hs => ha.evolves.entries _ (h.entered hs)
  refine ⟨hz, ?_, ?_, ?_, ?_⟩
  · refine ⟨_, _, hw.batch nonce batch, hid ▸ hpd, ?_⟩
    rw [length_append, ← add_assoc, hl, hf]
  · rw [hid]
    exact he
  · intro i hi
    rcases hc i hi with ho | ⟨v, hv, hg⟩
    · obtain ⟨v, hv, hn⟩ := h.committed i ho
      exact ⟨v, hu ▸ hv, hn.accounted ha.evolves ha.remembers⟩
    · exact ⟨v, hu ▸ hg, s.mgr.active.id, _, _, hw.batch nonce batch,
        mem_append_right _ hv, hpd, .inl hid.symm, he⟩
  · intro i hi
    rw [hd] at hi
    obtain ⟨v, hv, hn⟩ := h.durable i hi
    exact ⟨v, hu ▸ hv, hn.synced ha.evolves⟩

end

variable {roll : RollOutcomes} {o : SyncOutcomes}

theorem DeviceInv.rolled (h : DeviceInv C cfg strict s) (hb : s.mgr.activeId + 1 < 2 ^ 32) {vol : Volume}
    (ho : SegmentManager.RollCase s.mgr s.volume roll (.ok (), m, vol))
    (hie : strict → s.mgr.preparedSegment = none) (cp : UInt64)
    (env : SegmentManager.RollEnv) (sealedAt : ℕ → ℕ) :
    DeviceInv C cfg strict
      { s.put m { vol with disk := m.rollCleanup C vol.disk cp env } with
        sealedAt := sealedAt } := by
  obtain ⟨hg, hk⟩ := h.mounted.rolled hb ho cp env
  obtain ⟨seg, hm, hs, -, -, hev, hc, he⟩ :=
    ho.of_ok (h.mounted.disk.lt_nextId hb) rfl h.mounted.disk
  obtain rfl : m = s.mgr.swapActive s.mgr.nextId seg := hm
  set m := s.mgr.swapActive s.mgr.nextId seg
  have hid : m.active.id = s.mgr.nextId := hs.id_eq
  have hd : Evolves segmentHeaderSize (m.journal vol)
      (m.journal { vol with disk := m.rollCleanup C vol.disk cp env }) :=
    SegmentManager.evolves_deletes (SegmentManager.rollCleanup_deletes _ _ _)
  have ha := hev.trans hd
  have hr := hc.trans hev (hd.remembers rfl rfl)
  refine ⟨⟨hg, hk⟩, ?_, ?_, ?_, ?_⟩
  · refine ⟨[], [], .nil, ⟨fun _ _ => rfl, le_rfl, fun _ => hs.offset_eq.ge⟩, ?_⟩
    exact hs.offset_eq.symm
  · intro ht
    exact (congrArg vol.entries hid).trans (he (hie ht))
  · intro i hi
    obtain ⟨v, hv, hn⟩ := h.committed i hi
    exact ⟨v, hv, hn.accounted ha hr⟩
  · intro i hi
    obtain ⟨v, hv, hn⟩ := h.durable i hi
    exact ⟨v, hv, hn.synced ha⟩

theorem exists_of_batch {st : ShardState} {k i : ℕ} (hk : k ≤ (st.batch count).length)
    (hi : i < st.committed + k) (hn : st.committed ≤ i) :
    ∃ v ∈ (st.batch count).take k, st.published[i]? = some v := by
  unfold ShardState.batch at hk ⊢
  rw [length_take, length_drop] at hk
  have hlt : i < st.published.length := by omega
  refine ⟨st.published[i], ?_, getElem?_eq_getElem hlt⟩
  rw [take_take, mem_take_iff_getElem]
  refine ⟨i - st.committed, by rw [length_drop]; omega, ?_⟩
  rw [getElem_drop]
  congr 1
  omega

section

variable (h : DeviceInv C cfg strict s)
include h

theorem DeviceInv.commit (hb : s.mgr.activeId + 1 < 2 ^ 32)
    (hcs : CommitCase C s count nonce checkpoint env append roll s')
    (he : strict → ¬ s.mgr.Fits (s.batch count) → s.mgr.preparedSegment = none) :
    DeviceInv C cfg strict s' := by
  have hz := h.mounted.commit hb hcs
  have hx := h.mounted.disk.lt_nextId hb
  cases hcs with
  | failed hf st hsm change hkp =>
    exact h.rests hz (SegmentManager.rests_failed s.volume hsm hkp) rfl rfl rfl
  | wrote hf st hsm k hk hle chunk ha change hkp hc r hp committed hd =>
    refine h.appends hz (h.mounted.appends_wrote hb hsm ha hkp hc hp) rfl rfl ?_
    intro i hi
    rcases lt_or_ge i s.committed with ho | hn
    · exact .inl ho
    · rcases hd with ⟨-, rfl⟩ | ⟨-, rfl⟩
      · exact .inr (exists_of_batch hle hi hn)
      · exact .inl hi
  | unrolled hf e m vol hr =>
    obtain ⟨hm, hrs⟩ := hr.of_error hx rfl
    obtain rfl : m = s.mgr := hm
    exact h.rests hz hrs rfl rfl rfl
  | rolled hf m vol hr =>
    exact h.rolled hb hr (fun hs => he hs hf) checkpoint env _

section

variable (hok : ∀ id ∈ s.mgr.pendingFsync, o.pending id = true ∧ (s.disk.get id).isSome = true)
include hok

theorem DeviceInv.syncAll : DeviceInv C cfg strict (s.syncAll o).2 := by
  have hm : (s.syncAll o).2.mgr = { s.mgr with pendingFsync := [] } :=
    (s.mgr.syncAllWith_eq s.volume o).1
  apply h.evolves (h.mounted.syncAll o) (SegmentManager.evolves_syncAll h.mounted.disk.file o)
    (SegmentManager.remembers_syncAll h.mounted.disk.file hok)
  · rw [hm]
  · rw [hm]
  · rfl
  · rfl
  · rfl

theorem DeviceInv.advance
    (hd : (s.syncAll o).1 = true) : DeviceInv C cfg strict ((s.syncAll o).2.advance o) := by
  have hy := h.syncAll hok
  have hev : Evolves segmentHeaderSize s.journal (s.syncAll o).2.journal :=
    SegmentManager.evolves_syncAll h.mounted.disk.file o
  have hl : ∀ g body, s.journal.Placed segmentHeaderSize g body →
      s.journal.Accounted segmentHeaderSize g body →
      (s.syncAll o).2.journal.Synced segmentHeaderSize g body :=
    fun g body hp ha => SegmentManager.syncAll_synced h.mounted.disk.file hd hp ha
  set t := (s.syncAll o).2
  have hj := t.advance_journal o
  refine ⟨hy.mounted.advance o, ?_, hy.entered, ?_, ?_⟩
  · rw [hj]
    exact hy.current
  · rw [hj]
    exact hy.committed
  · intro i hi
    obtain ⟨v, hv, g, views, body, hw, hm, hp, ha, he⟩ := h.committed i hi
    rw [hj]
    exact ⟨v, hv, g, views, body, hw, hm, hev.placed g body hp, hl g body hp ha,
      fun hs => hev.entries g (he hs)⟩

end

theorem DeviceInv.drain {ok : ℕ → Bool}
    (hok : ∀ id ∈ s.mgr.pendingFsync, ok id = true ∧ (s.disk.get id).isSome = true) :
    DeviceInv C cfg strict (s.drainPendingFsyncs ok) := by
  have he := s.mgr.evolves_drain s.volume ok
  refine h.evolves (h.mounted.drain ok) he (fun g body hp ha => ?_) rfl rfl rfl rfl rfl
  rcases ha with rfl | hg | hs
  · exact .inl rfl
  · have hy := SegmentManager.drainPending_synced (m := s.mgr) hok hp hg
    exact .inr (.inr hy)
  · exact .inr (.inr (he.synced g body hp hs))

theorem DeviceInv.publish (ts : UInt64) (content : Bytes) :
    DeviceInv C cfg strict (s.publish C cfg ts content) := by
  have hg : ∀ {i : ℕ} {v : ReadView}, s.published[i]? = some v →
      (s.publish C cfg ts content).published[i]? = some v := by
    intro i v hv
    obtain ⟨hlt, rfl⟩ := List.getElem?_eq_some_iff.mp hv
    exact getElem?_append_left hlt ▸ hv
  refine ⟨h.mounted.publish ts content, h.current, h.entered, ?_, ?_⟩
  · intro i hi
    obtain ⟨v, hv, hn⟩ := h.committed i hi
    exact ⟨v, hg hv, hn⟩
  · intro i hi
    obtain ⟨v, hv, hn⟩ := h.durable i hi
    exact ⟨v, hg hv, hn⟩

end

theorem DeviceInv.fresh (h : DeviceShard.fresh C cfg = .ok s) : DeviceInv C cfg strict s := by
  obtain ⟨st, hf, rfl⟩ := DeviceShard.exists_fresh h
  obtain ⟨hm, hk⟩ := Mounted.fresh hf
  obtain ⟨hp, hc, hd, hq, ho⟩ := ShardState.fresh_empty hf
  refine ⟨⟨hm, hk⟩, ?_, fun _ => hk.file, ?_, ?_⟩
  · exact ⟨[], [], .nil, ⟨fun _ _ => rfl, le_rfl, fun _ => ho.ge⟩, ho.symm⟩
  · intro i hi
    rw [show st.committed = 0 from hc] at hi
    exact absurd hi (Nat.not_lt_zero i)
  · intro i hi
    rw [show st.durable = 0 from hd] at hi
    exact absurd hi (Nat.not_lt_zero i)

end Steps

end LogDb.Pipeline
