import LogDb.Pipeline.Committer

/-!
The abstract log of a shard: the committed records, cut into segments. Each segment knows the id
and the hash its header announces, and one segment may be prepared ahead of its use.
-/

namespace LogDb.Pipeline

open Lib Format List

structure LogSegment where
  id : ℕ
  base : UInt64
  prevHash : Bytes32
  records : List ReadView

structure Log where
  closed : List LogSegment
  active : LogSegment
  prepared : Option LogSegment
  published : List ReadView
  committed : ℕ

namespace Log

def fresh : Log where
  closed := []
  active := ⟨1, 0, zeros32, []⟩
  prepared := none
  published := []
  committed := 0

variable (cfg : ShardConfig) (log : Log)

def segments : List LogSegment :=
  log.closed ++ log.active :: log.prepared.toList

def records : List ReadView :=
  log.segments.flatMap LogSegment.records

/-- The segment that follows the active one when it is created now. The manager is never told a
hash, so the header announces zeros. -/
def nextSegment : LogSegment where
  id := log.active.id + 1
  base := cfg.recordId log.committed
  prevHash := zeros32
  records := []

def publish (C : Crates) (timestampNs : UInt64) (content : Bytes) : Log :=
  { log with published := log.published ++ [nextView C cfg log.published timestampNs content] }

def append (k : ℕ) : Log :=
  { log with
    active := { log.active with
      records := log.active.records ++ (log.published.drop log.committed).take k }
    committed := log.committed + k }

def prepare : Log :=
  { log with prepared := some (log.prepared.getD (log.nextSegment cfg)) }

/-- Go on to the prepared segment, or to a new one, and delete the closed ones not kept. -/
def roll (keep : ℕ → Bool) : Log :=
  { log with
    closed := (log.closed ++ [log.active]).filter fun s => keep s.id
    active := log.prepared.getD (log.nextSegment cfg)
    prepared := none }

end Log

/-- The steps of the log. Appends are guarded; `keepAll` says that rolls delete nothing. -/
inductive LogStep (C : Crates) (cfg : ShardConfig) (guard : Log → Prop) (keepAll : Prop) :
    Log → Log → Prop where
  | publish (log : Log) (timestampNs : UInt64) (content : Bytes)
      (hlen : content.length ≤ cfg.maxContentSize)
      (hbound : (log.published.length + 2) * 2 ^ cfg.shardBits.toNat < 2 ^ 64) :
      LogStep C cfg guard keepAll log (log.publish cfg C timestampNs content)
  | append (log : Log) (k : ℕ) (hk : 0 < k) (hle : log.committed + k ≤ log.published.length)
      (hguard : guard log) : LogStep C cfg guard keepAll log (log.append k)
  | prepare (log : Log) (hne : log.active.records ≠ []) (hid : log.active.id + 1 < 2 ^ 32) :
      LogStep C cfg guard keepAll log (log.prepare cfg)
  | roll (log : Log) (keep : ℕ → Bool) (hkeep : keepAll → ∀ id, keep id = true)
      (hid : log.active.id + 1 < 2 ^ 32) : LogStep C cfg guard keepAll log (log.roll cfg keep)

def LogReachable (C : Crates) (cfg : ShardConfig) (guard : Log → Prop) (keepAll : Prop)
    (log : Log) : Prop :=
  Relation.ReflTransGen (LogStep C cfg guard keepAll) Log.fresh log

/-- The shape of the log that holds whatever is deleted. -/
structure LogShape (C : Crates) (cfg : ShardConfig) (log : Log) : Prop where
  active_pos : 0 < log.active.id
  active_lt : log.active.id < 2 ^ 32
  closed_lt : ∀ s ∈ log.closed, s.id < log.active.id
  prepared_eq : ∀ s ∈ log.prepared, s.id = log.active.id + 1 ∧ s.records = []
  prepared_lt : ∀ s ∈ log.prepared, s.id < 2 ^ 32
  zero_hash : ∀ s ∈ log.segments, s.prevHash = zeros32
  committed_le : log.committed ≤ log.published.length
  content_le : ∀ v ∈ log.published, v.content.length ≤ cfg.maxContentSize
  view_eq : ∀ i (hi : i < log.published.length), log.published[i] =
    nextView C cfg (log.published.take i) log.published[i].timestampNs log.published[i].content
  fits : ShardFits cfg.shardId cfg.shardBits log.published.length
  mem_published : ∀ s ∈ log.segments, ∀ v ∈ s.records, v ∈ log.published

section

variable {C : Crates} {cfg : ShardConfig} {guard : Log → Prop} {keepAll : Prop} {log log' : Log}

theorem Log.mem_segments {s : LogSegment} :
    s ∈ log.segments ↔ s ∈ log.closed ∨ s = log.active ∨ s ∈ log.prepared := by
  simp [segments]

theorem Log.active_mem : log.active ∈ log.segments :=
  Log.mem_segments.mpr (.inr (.inl rfl))

theorem Log.mem_segments_of_current {s : LogSegment} (hs : s ∈ log.closed ++ [log.active]) :
    s ∈ log.segments := by
  rcases mem_append.mp hs with hc | ha
  · exact Log.mem_segments.mpr (.inl hc)
  · exact Log.mem_segments.mpr (.inr (.inl (mem_singleton.mp ha)))

section

variable {P : LogSegment → Prop} (h : ∀ s ∈ log.segments, P s)
include h

theorem Log.forall_append {k : ℕ} (ha : P (log.append k).active) :
    ∀ s ∈ (log.append k).segments, P s := by
  intro s hs
  rcases Log.mem_segments.mp hs with hc | rfl | hp
  · exact h s (Log.mem_segments.mpr (.inl hc))
  · exact ha
  · exact h s (Log.mem_segments.mpr (.inr (.inr hp)))

theorem Log.forall_prepare (hn : P (log.prepared.getD (log.nextSegment cfg))) :
    ∀ s ∈ (log.prepare cfg).segments, P s := by
  intro s hs
  rcases Log.mem_segments.mp hs with hc | rfl | hp
  · exact h s (Log.mem_segments.mpr (.inl hc))
  · exact h _ Log.active_mem
  · cases hp
    exact hn

theorem Log.forall_roll {keep : ℕ → Bool} (hn : P (log.prepared.getD (log.nextSegment cfg))) :
    ∀ s ∈ (log.roll cfg keep).segments, P s := by
  intro s hs
  rcases Log.mem_segments.mp hs with hc | rfl | hp
  · exact h s (Log.mem_segments_of_current (mem_filter.mp hc).1)
  · exact hn
  · cases hp

end

theorem logShape_fresh : LogShape C cfg Log.fresh where
  active_pos := one_pos
  active_lt := by decide
  closed_lt s hs := absurd hs not_mem_nil
  prepared_eq s hs := by cases hs
  prepared_lt s hs := by cases hs
  zero_hash s hs := by
    rw [mem_singleton.mp hs]
    rfl
  committed_le := le_rfl
  content_le v hv := absurd hv not_mem_nil
  view_eq i hi := absurd hi (Nat.not_lt_zero i)
  fits := by
    have hle := cfg.bits_le
    refine ⟨hle, cfg.shard_lt, ?_⟩
    calc (0 + 1) * 2 ^ cfg.shardBits.toNat ≤ 2 ^ 8 := by
          rw [zero_add, one_mul]
          exact Nat.pow_le_pow_right (by omega) hle
      _ < 2 ^ 64 := by decide
  mem_published s hs v hv := by
    rw [mem_singleton.mp hs] at hv
    exact absurd hv not_mem_nil

namespace LogShape

section

variable (h : LogShape C cfg log)
include h

theorem publish {ts : UInt64} {content : Bytes} (hl : content.length ≤ cfg.maxContentSize)
    (hb : (log.published.length + 2) * 2 ^ cfg.shardBits.toNat < 2 ^ 64) :
    LogShape C cfg (log.publish cfg C ts content) :=
  { h with
    committed_le := by
      have hle := h.committed_le
      simp only [Log.publish, length_append]
      omega
    content_le := by
      intro v hv
      rcases mem_append.mp hv with ho | hn
      · exact h.content_le v ho
      · rw [mem_singleton.mp hn]
        exact hl
    view_eq := by
      intro i hi
      simp only [Log.publish, length_append, length_singleton] at hi
      rcases Nat.lt_succ_iff_lt_or_eq.mp hi with hlt | rfl
      · simp only [Log.publish, getElem_append_left hlt, take_append_of_le_length hlt.le]
        exact h.view_eq i hlt
      · simp only [Log.publish, getElem_append_right le_rfl, take_left, Nat.sub_self,
          getElem_cons_zero]
        rfl
    fits := by
      refine ⟨h.fits.bits_le, h.fits.shard_lt, ?_⟩
      rwa [Log.publish, length_append, length_singleton]
    mem_published := fun s hs v hv => mem_append_left _ (h.mem_published s hs v hv) }

theorem append {k : ℕ}
    (hle : log.committed + k ≤ log.published.length) : LogShape C cfg (log.append k) :=
  { h with
    zero_hash := Log.forall_append h.zero_hash (h.zero_hash log.active Log.active_mem)
    committed_le := hle
    mem_published := by
      refine Log.forall_append h.mem_published fun v hv => ?_
      rcases mem_append.mp hv with ho | hn
      · exact h.mem_published _ Log.active_mem v ho
      · exact mem_of_mem_drop (mem_of_mem_take hn) }

theorem prepared_getD : (log.prepared.getD (log.nextSegment cfg)).id = log.active.id + 1 ∧
      (log.prepared.getD (log.nextSegment cfg)).prevHash = zeros32 ∧
      (log.prepared.getD (log.nextSegment cfg)).records = [] := by
  cases hp : log.prepared with
  | none => exact ⟨rfl, rfl, rfl⟩
  | some s =>
    have hm : s ∈ log.prepared := hp
    obtain ⟨hid, hr⟩ := h.prepared_eq s hm
    exact ⟨hid, h.zero_hash s (Log.mem_segments.mpr (.inr (.inr hm))), hr⟩

theorem prepare (hn : log.active.id + 1 < 2 ^ 32) : LogShape C cfg (log.prepare cfg) := by
  obtain ⟨hid, hh, hr⟩ := h.prepared_getD
  exact
  { h with
    prepared_eq := by
      intro s hs
      cases hs
      exact ⟨hid, hr⟩
    prepared_lt := by
      intro s hs
      cases hs
      rwa [hid]
    zero_hash := Log.forall_prepare h.zero_hash hh
    mem_published := Log.forall_prepare h.mem_published (by simp [hr]) }

theorem roll (keep : ℕ → Bool) (hn : log.active.id + 1 < 2 ^ 32) :
    LogShape C cfg (log.roll cfg keep) := by
  obtain ⟨hid, hh, hr⟩ := h.prepared_getD
  have ho : ∀ s ∈ (log.roll cfg keep).closed, s ∈ log.closed ∨ s = log.active := by
    intro s hs
    rcases mem_append.mp (mem_filter.mp hs).1 with hc | ha
    · exact .inl hc
    · exact .inr (mem_singleton.mp ha)
  exact
  { h with
    active_pos := by
      rw [show (log.roll cfg keep).active.id = log.active.id + 1 from hid]
      exact Nat.succ_pos _
    active_lt := by
      rwa [show (log.roll cfg keep).active.id = log.active.id + 1 from hid]
    closed_lt := by
      intro s hs
      rw [show (log.roll cfg keep).active.id = log.active.id + 1 from hid]
      rcases ho s hs with hc | rfl
      · exact (h.closed_lt s hc).trans (lt_add_one _)
      · exact lt_add_one _
    prepared_eq := fun s hs => by cases hs
    prepared_lt := fun s hs => by cases hs
    zero_hash := Log.forall_roll h.zero_hash hh
    mem_published := Log.forall_roll h.mem_published (by simp [hr]) }

theorem step (hs : LogStep C cfg guard keepAll log log') : LogShape C cfg log' := by
  cases hs with
  | publish _ _ hl hb => exact h.publish hl hb
  | append k _ hle _ => exact h.append hle
  | prepare _ hid => exact h.prepare hid
  | roll keep _ hid => exact h.roll keep hid

end

theorem of_reachable (h : LogReachable C cfg guard keepAll log) : LogShape C cfg log :=
  invariant_of_steps h logShape_fresh fun _ _ hs hp => hs.step hp

section

variable (h : LogShape C cfg log)
include h

theorem eq_active {s : LogSegment} (hs : s ∈ log.segments)
    (hid : s.id = log.active.id) : s = log.active := by
  rcases Log.mem_segments.mp hs with hc | rfl | hp
  · exact absurd hid (h.closed_lt s hc).ne
  · rfl
  · have hn := (h.prepared_eq s hp).1
    omega

theorem id_lt {s : LogSegment} (hs : s ∈ log.segments) : s.id < 2 ^ 32 := by
  rcases Log.mem_segments.mp hs with hc | rfl | hp
  · exact (h.closed_lt s hc).trans h.active_lt
  · exact h.active_lt
  · exact h.prepared_lt s hp

theorem recordId_eq {i : ℕ} (hi : i < log.published.length) :
    log.published[i].recordId = cfg.recordId i := by
  rw [h.view_eq i hi]
  simp only [nextView, length_take_of_le hi.le]

end

end LogShape

theorem LogShape.records_eq (h : LogShape C cfg log) :
    log.records = log.closed.flatMap LogSegment.records ++ log.active.records := by
  have hp : log.prepared.toList.flatMap LogSegment.records = [] := by
    apply flatMap_eq_nil_iff.mpr
    intro s hs
    exact (h.prepared_eq s (Option.mem_toList.mp hs)).2
  unfold Log.records Log.segments
  rw [flatMap_append, flatMap_cons, hp, append_nil]

/-- When nothing is deleted, the segments together hold exactly the committed records. -/
theorem Log.records_of_reachable (h : LogReachable C cfg guard True log) :
    log.records = log.published.take log.committed := by
  refine invariant_of_reached (P := fun l => l.records = l.published.take l.committed) h rfl ?_
  intro log log' hr hc hp
  have hs : LogShape C cfg log := .of_reachable hr
  rw [hs.records_eq] at hc
  rw [(hs.step hp).records_eq]
  cases hp with
  | publish _ _ _ _ =>
    rw [Log.publish, hc, take_append_of_le_length hs.committed_le]
  | append k _ _ _ =>
    simp only [Log.append, ← append_assoc, hc, take_add]
  | prepare _ _ => exact hc
  | roll keep hk _ =>
    have hf : (log.closed ++ [log.active]).filter (fun s => keep s.id) =
        log.closed ++ [log.active] :=
      filter_eq_self.mpr fun s _ => hk trivial s.id
    have ha : (log.roll cfg keep).active.records = [] := hs.prepared_getD.2.2
    rw [ha, append_nil]
    simp only [Log.roll, hf, flatMap_append, flatMap_singleton, hc]

theorem Log.first_of_reachable (h : LogReachable C cfg guard True log) :
    ∃ s ∈ log.segments, s.id = 1 := by
  apply invariant_of_steps (P := fun l => ∃ s ∈ l.segments, s.id = 1) h
  · exact ⟨_, mem_singleton.mpr rfl, rfl⟩
  · rintro a b ⟨s, hs, hid⟩ hsp
    cases hsp with
    | publish _ _ _ _ => exact ⟨s, hs, hid⟩
    | append k _ _ _ =>
      rcases Log.mem_segments.mp hs with hc | rfl | hp
      · exact ⟨s, Log.mem_segments.mpr (.inl hc), hid⟩
      · exact ⟨(a.append k).active, Log.active_mem, hid⟩
      · exact ⟨s, Log.mem_segments.mpr (.inr (.inr hp)), hid⟩
    | prepare _ _ =>
      rcases Log.mem_segments.mp hs with hc | rfl | hp
      · exact ⟨s, Log.mem_segments.mpr (.inl hc), hid⟩
      · exact ⟨a.active, Log.active_mem, hid⟩
      · have hr : a.prepared = some s := hp
        refine ⟨s, Log.mem_segments.mpr (.inr (.inr ?_)), hid⟩
        rw [Log.prepare, hr]
        rfl
    | roll keep hk _ =>
      have ha : ∀ t ∈ a.closed ++ [a.active], t ∈ (a.roll cfg keep).segments := fun t ht =>
        Log.mem_segments.mpr (.inl (mem_filter.mpr ⟨ht, hk trivial t.id⟩))
      rcases Log.mem_segments.mp hs with hc | rfl | hp
      · exact ⟨s, ha s (mem_append_left _ hc), hid⟩
      · exact ⟨a.active, ha _ (mem_append_right _ mem_cons_self), hid⟩
      · have hr : a.prepared = some s := hp
        refine ⟨s, Log.mem_segments.mpr (.inr (.inl ?_)), hid⟩
        rw [Log.roll, hr]
        rfl

end

end LogDb.Pipeline
