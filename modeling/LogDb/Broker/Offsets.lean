import LogDb.Broker.Coordinator
import LogDb.Lib.MaxMap
import LogDb.Lib.Transition

/-!
The committed offsets as events of the meta stream. A broker that starts scans the stream, replays
the offsets and appends them as one snapshot, while other brokers go on committing.
-/

namespace LogDb.Broker

open Lib MaxMap List Function

variable {w' : Brokers} {numShards : UInt32} {bits : ℕ}

structure OffsetRecord where
  ns : String
  stream : String
  group : String
  shard : ℕ
  seq : ℕ
  deriving DecidableEq

open OffsetRecord

namespace OffsetRecord

def groupKey (r : OffsetRecord) : GroupKey :=
  ⟨r.ns, r.stream, r.group⟩

def pair (r : OffsetRecord) : (GroupKey × ℕ) × ℕ :=
  ((r.groupKey, r.shard), r.seq)

def ofPair (p : (GroupKey × ℕ) × ℕ) : OffsetRecord :=
  ⟨p.1.1.ns, p.1.1.stream, p.1.1.group, p.1.2, p.2⟩

theorem pair_ofPair (p : (GroupKey × ℕ) × ℕ) : (ofPair p).pair = p := rfl

end OffsetRecord

/-- The events of the meta stream; `other` are the leader claims and what does not parse. -/
inductive MetaEvent where
  | offsetCommitted (r : OffsetRecord)
  | offsetSnapshot (recs : List OffsetRecord)
  | other

/-- The offsets as `load_recovered_offsets` collects them. -/
abbrev OffsetMap := MaxMap (GroupKey × ℕ)

/-- A snapshot replaces what was collected before it. -/
def replayStep (state : OffsetMap) : MetaEvent → OffsetMap
  | .offsetSnapshot recs => recordAll ∅ (recs.map pair)
  | .offsetCommitted r => state.record r.pair
  | .other => state

def loadRecoveredOffsets (events : List MetaEvent) : OffsetMap :=
  events.foldl replayStep ∅

/-- The offsets as records; the source lists them in the order of its hash map. -/
def offsetRecords (state : OffsetMap) : List OffsetRecord :=
  state.pairs.map ofPair

/-! ### Brokers on one meta stream -/

/-- A record of the meta stream with its global id. -/
structure MetaRecord where
  gid : ℕ
  event : MetaEvent

open MetaRecord

/-- The Scan RPC returns the records by their global ids. -/
def scanRawMeta (stream : List MetaRecord) : List MetaEvent :=
  (stream.mergeSort fun a b => a.gid ≤ b.gid).map event

inductive BrokerPhase where
  | off
  | loaded (recovered : List OffsetRecord)
  | serving

/-- `pending` are the offsets that are committed in memory and whose append has not returned. -/
structure BrokerState where
  phase : BrokerPhase
  registry : CoordinatorRegistry
  pending : List OffsetRecord

structure Brokers where
  stream : List MetaRecord
  broker : ℕ → BrokerState

namespace Brokers

def init (numShards : UInt32) : Brokers :=
  ⟨[], fun _ => ⟨.off, .new numShards, []⟩⟩

variable (w : Brokers) (b : ℕ)

def set (broker : BrokerState) : Brokers :=
  { w with broker := update w.broker b broker }

def append (gid : ℕ) (event : MetaEvent) : Brokers :=
  { w with stream := w.stream ++ [⟨gid, event⟩] }

end Brokers

/-- The ids of a shard, which the low bits name, ascend; the records of other streams take ids in
between. -/
def FreshGid (bits : ℕ) (stream : List MetaRecord) (gid : ℕ) : Prop :=
  ∀ m ∈ stream, m.gid % 2 ^ bits = gid % 2 ^ bits → m.gid < gid

inductive OffsetEvent where
  | load (b : ℕ) (seen : List MetaRecord) (recovered : List OffsetRecord)
  | compact (b gid : ℕ)
  | compactFailed (b : ℕ)
  | commit (b : ℕ) (r : OffsetRecord)
  | append (b : ℕ) (r : OffsetRecord) (gid : ℕ)
  | appendFailed (b : ℕ) (r : OffsetRecord)
  | claim (gid : ℕ)

/-- What an event does. A broker that loads is one that has just been started; the offsets of the
others are only in the stream and in their own memory. It sees what is in the files already: an
append is acknowledged before. -/
inductive OffsetTrans (bits : ℕ) : Brokers → OffsetEvent → Brokers → Prop where
  | load {w : Brokers} {b : ℕ} {seen : List MetaRecord} {recovered : List OffsetRecord}
      (hseen : seen.Sublist w.stream)
      (hrecovered : recovered.Perm (offsetRecords (loadRecoveredOffsets (scanRawMeta seen)))) :
      OffsetTrans bits w (.load b seen recovered) (w.set b
        { phase := .loaded recovered
          registry := recovered.foldl (fun reg r => (reg.commitOffset r.groupKey r.shard r.seq).1)
            (.new (w.broker b).registry.numShards)
          pending := [] })
  | compact {w : Brokers} {b gid : ℕ} {recovered : List OffsetRecord}
      (hphase : (w.broker b).phase = .loaded recovered) (hgid : FreshGid bits w.stream gid) :
      OffsetTrans bits w (.compact b gid)
        ((w.append gid (.offsetSnapshot recovered)).set b
          { w.broker b with phase := .serving })
  | compactFailed {w : Brokers} {b : ℕ} {recovered : List OffsetRecord}
      (hphase : (w.broker b).phase = .loaded recovered) :
      OffsetTrans bits w (.compactFailed b) (w.set b { w.broker b with phase := .serving })
  | commit {w : Brokers} {b : ℕ} {r : OffsetRecord} (hphase : (w.broker b).phase = .serving) :
      OffsetTrans bits w (.commit b r)
        (let committed := (w.broker b).registry.commitOffset r.groupKey r.shard r.seq
        w.set b { w.broker b with
          registry := committed.1
          pending := if committed.2 then (w.broker b).pending ++ [r] else (w.broker b).pending })
  | append {w : Brokers} {b gid : ℕ} {r : OffsetRecord} (hphase : (w.broker b).phase = .serving)
      (hr : r ∈ (w.broker b).pending) (hgid : FreshGid bits w.stream gid) :
      OffsetTrans bits w (.append b r gid)
        ((w.append gid (.offsetCommitted r)).set b
          { w.broker b with pending := (w.broker b).pending.erase r })
  | appendFailed {w b r} (hr : r ∈ (w.broker b).pending) : OffsetTrans bits w (.appendFailed b r)
        (w.set b { w.broker b with pending := (w.broker b).pending.erase r })
  | claim {w : Brokers} {gid : ℕ} (hgid : FreshGid bits w.stream gid) :
      OffsetTrans bits w (.claim gid) (w.append gid .other)

def OffsetsReachable (numShards : UInt32) (bits : ℕ) (ok : Brokers → OffsetEvent → Prop)
    (w : Brokers) : Prop :=
  Relation.ReflTransGen (fun w w' => ∃ ev, ok w ev ∧ OffsetTrans bits w ev w')
    (.init numShards) w

/-- A broker that starts finds the whole stream in the files. An offset is appended only while no
broker holds offsets that it will append as a snapshot, and behind all the snapshots in the order of
the ids. -/
def OffsetEvent.BehindSnapshots (w : Brokers) : OffsetEvent → Prop
  | .load _ seen _ => seen = w.stream
  | .append _ _ gid =>
    (∀ b recovered, (w.broker b).phase ≠ .loaded recovered) ∧
      ∀ m ∈ w.stream, ∀ recs, m.event = .offsetSnapshot recs → m.gid < gid
  | _ => True

/-! ### What a replay collects -/

section

variable (events : List MetaEvent)

def committedPairs : List ((GroupKey × ℕ) × ℕ) :=
  events.filterMap fun
    | .offsetCommitted r => some r.pair
    | _ => none

/-- The pairs that count: those of the last snapshot and of the commits behind it. -/
def replayPairs : List ((GroupKey × ℕ) × ℕ) :=
  events.foldl (fun pairs event =>
    match event with
    | .offsetSnapshot recs => recs.map pair
    | .offsetCommitted r => pairs ++ [r.pair]
    | .other => pairs) []

theorem replayPairs_snoc (event : MetaEvent) : replayPairs (events ++ [event]) = match event with
      | .offsetSnapshot recs => recs.map pair
      | .offsetCommitted r => replayPairs events ++ [r.pair]
      | .other => replayPairs events := by
  simp [replayPairs]

end

theorem committedPairs_append (xs ys : List MetaEvent) :
    committedPairs (xs ++ ys) = committedPairs xs ++ committedPairs ys :=
  filterMap_append

variable {events : List MetaEvent} {p : (GroupKey × ℕ) × ℕ}

theorem mem_committedPairs :
    p ∈ committedPairs events ↔ ∃ r, .offsetCommitted r ∈ events ∧ r.pair = p := by
  unfold committedPairs
  rw [mem_filterMap]
  constructor
  · rintro ⟨event, hm, heq⟩
    cases event with
    | offsetCommitted r => exact ⟨r, hm, Option.some.inj heq⟩
    | offsetSnapshot recs => cases heq
    | other => cases heq
  · rintro ⟨r, hm, rfl⟩
    exact ⟨_, hm, rfl⟩

theorem loadRecoveredOffsets_eq (events : List MetaEvent) :
    loadRecoveredOffsets events = recordAll ∅ (replayPairs events) := by
  induction events using reverseRecOn with
  | nil => rfl
  | append_singleton events event ih =>
    rw [replayPairs_snoc, loadRecoveredOffsets, foldl_append, ← loadRecoveredOffsets, ih]
    cases event with
    | offsetCommitted r => simp [replayStep, recordAll]
    | offsetSnapshot recs => rfl
    | other => rfl

/-- A commit that comes before a snapshot is in it. -/
def CoveredBy (a b : MetaEvent) : Prop :=
  ∀ r recs, a = .offsetCommitted r → b = .offsetSnapshot recs →
    Covers (recs.map pair) [r.pair]

/-- Nothing that counts is lost if every snapshot covers the commits before it. -/
theorem covers_replayPairs (h : events.Pairwise CoveredBy) :
    Covers (replayPairs events) (committedPairs events) := by
  induction events using reverseRecOn with
  | nil => exact fun p hp => absurd hp not_mem_nil
  | append_singleton events event ih =>
    obtain ⟨he, -, hl⟩ := pairwise_append.mp h
    rw [replayPairs_snoc, committedPairs_append]
    cases event with
    | offsetCommitted r =>
      apply Covers.append
      · exact (ih he).mono (subset_append_left _ _)
      · exact .of_subset (subset_append_right _ _)
    | offsetSnapshot recs =>
      apply Covers.append
      · intro p hp
        obtain ⟨r, hr, rfl⟩ := mem_committedPairs.mp hp
        exact hl _ hr _ mem_cons_self r recs rfl rfl _ mem_cons_self
      · exact fun p hp => absurd hp not_mem_nil
    | other =>
      apply Covers.append (ih he)
      exact fun p hp => absurd hp not_mem_nil

theorem mem_replayPairs (h : p ∈ replayPairs events) : p ∈ committedPairs events ∨
      ∃ recs, .offsetSnapshot recs ∈ events ∧ p ∈ recs.map pair := by
  induction events using reverseRecOn with
  | nil => exact absurd h not_mem_nil
  | append_singleton events event ih =>
    have ho : p ∈ replayPairs events → p ∈ committedPairs (events ++ [event]) ∨
        ∃ recs, .offsetSnapshot recs ∈ events ++ [event] ∧ p ∈ recs.map pair := by
      intro hp
      rcases ih hp with hc | ⟨recs, hr, hm⟩
      · rw [committedPairs_append]
        exact .inl (mem_append_left _ hc)
      · exact .inr ⟨recs, mem_append_left _ hr, hm⟩
    rw [replayPairs_snoc] at h
    cases event with
    | offsetCommitted r =>
      rcases mem_append.mp h with hp | hp
      · exact ho hp
      · rw [committedPairs_append]
        exact .inl (mem_append_right _ hp)
    | offsetSnapshot recs =>
      exact .inr ⟨recs, mem_append_right _ mem_cons_self, h⟩
    | other => exact ho h

/-! ### The invariant of the stream -/

/-- In the order of the ids, a snapshot that comes behind a commit covers it. -/
def OrderedPair (a b : MetaRecord) : Prop :=
  a.gid ≤ b.gid → CoveredBy a.event b.event

def Brokers.committed (w : Brokers) : List ((GroupKey × ℕ) × ℕ) :=
  committedPairs (w.stream.map event)

/-- The records hold the greatest committed offsets and nothing else. -/
def Brokers.Current (w : Brokers) (recs : List OffsetRecord) : Prop :=
  Covers (recs.map pair) w.committed ∧ Covers w.committed (recs.map pair)

structure OffsetsInv (w : Brokers) : Prop where
  order : w.stream.Pairwise fun a b => OrderedPair a b ∧ OrderedPair b a
  sound : ∀ m ∈ w.stream, ∀ recs, m.event = .offsetSnapshot recs →
    Covers w.committed (recs.map pair)
  loaded : ∀ b recovered, (w.broker b).phase = .loaded recovered → w.Current recovered

theorem scanRawMeta_perm (stream : List MetaRecord) :
    (scanRawMeta stream).Perm (stream.map event) :=
  (mergeSort_perm stream _).map _

namespace OffsetsInv

variable {w : Brokers}

section

variable (h : OffsetsInv w)
include h

theorem scan_pairwise : (scanRawMeta w.stream).Pairwise CoveredBy := by
  have hs : (w.stream.mergeSort fun a b => a.gid ≤ b.gid).Pairwise
      fun a b => decide (a.gid ≤ b.gid) = true := by
    apply pairwise_mergeSort
    · intro a b c ha hb
      simp only [decide_eq_true_eq] at ha hb ⊢
      omega
    · intro a b
      simp only [Bool.or_eq_true, decide_eq_true_eq]
      omega
  have ho := h.order.perm (mergeSort_perm w.stream fun a b => a.gid ≤ b.gid).symm
    fun ha => ⟨ha.2, ha.1⟩
  apply pairwise_map.mpr
  exact (hs.and ho).imp fun ha => ha.2.1 (of_decide_eq_true ha.1)

theorem replay_covers : Covers (replayPairs (scanRawMeta w.stream)) w.committed ∧
      Covers w.committed (replayPairs (scanRawMeta w.stream)) := by
  have hpm : (committedPairs (scanRawMeta w.stream)).Perm w.committed :=
    (scanRawMeta_perm w.stream).filterMap _
  constructor
  · exact (covers_replayPairs h.scan_pairwise).trans (.of_subset hpm.symm.subset)
  · intro p hp
    rcases mem_replayPairs hp with hc | ⟨recs, hr, he⟩
    · exact ⟨p, hpm.subset hc, rfl, le_rfl⟩
    · obtain ⟨m, hm, hv⟩ := mem_map.mp ((scanRawMeta_perm w.stream).subset hr)
      exact h.sound m hm recs hv p he

theorem load_lookup (k : GroupKey × ℕ) :
    (loadRecoveredOffsets (scanRawMeta w.stream)).lookup k = maxOf w.committed k := by
  rw [loadRecoveredOffsets_eq, lookup_recordAll_empty]
  exact h.replay_covers.1.maxOf_eq h.replay_covers.2 k

end

theorem init (numShards : UInt32) : OffsetsInv (.init numShards) where
  order := .nil
  sound m hm := absurd hm not_mem_nil
  loaded b recovered hp := by cases hp

/-- A change of a broker that leaves it no more loaded than it was. -/
theorem set (h : OffsetsInv w) (b : ℕ) (broker : BrokerState)
    (hl : ∀ recovered, broker.phase = .loaded recovered → w.Current recovered) :
    OffsetsInv (w.set b broker) where
  order := h.order
  sound := h.sound
  loaded b' recovered hph := by
    by_cases hb : b' = b
    · subst hb
      simp only [Brokers.set, update_self] at hph
      exact hl recovered hph
    · simp only [Brokers.set, update_of_ne hb] at hph
      exact h.loaded b' recovered hph

end OffsetsInv

theorem Brokers.committed_append (w : Brokers) (gid : ℕ) (event : MetaEvent) :
    (w.append gid event).committed = w.committed ++ committedPairs [event] := by
  unfold committed append
  rw [map_append, committedPairs_append]
  rfl

namespace OffsetsInv

variable {w : Brokers}

/-- An append whose event is ordered with all the others and which makes no loaded broker miss a
commit. -/
theorem append (h : OffsetsInv w) {gid : ℕ} {event : MetaEvent}
    (ho : ∀ m ∈ w.stream, OrderedPair m ⟨gid, event⟩ ∧ OrderedPair ⟨gid, event⟩ m)
    (hs : ∀ recs, event = .offsetSnapshot recs → Covers w.committed (recs.map pair))
    (hl : ∀ b recovered, (w.broker b).phase = .loaded recovered →
      Covers (recovered.map pair) (committedPairs [event])) :
    OffsetsInv (w.append gid event) where
  order := by
    refine pairwise_append.mpr ⟨h.order, pairwise_singleton _ _, ?_⟩
    intro m hm m' hm'
    rw [mem_singleton.mp hm']
    exact ho m hm
  sound := by
    intro m hm recs hv
    rw [Brokers.committed_append]
    rcases mem_append.mp hm with hm | hm
    · exact (h.sound m hm recs hv).mono (subset_append_left _ _)
    · rw [mem_singleton.mp hm] at hv
      exact (hs recs hv).mono (subset_append_left _ _)
  loaded := by
    intro b recovered hp
    obtain ⟨hc, ha⟩ := h.loaded b recovered hp
    unfold Brokers.Current
    rw [Brokers.committed_append]
    constructor
    · exact hc.append (hl b recovered hp)
    · exact ha.mono (subset_append_left _ _)

theorem step (h : OffsetsInv w) {ev : OffsetEvent}
    (hok : ev.BehindSnapshots w) (ht : OffsetTrans bits w ev w') : OffsetsInv w' := by
  cases ht with
  | @load b seen recovered _ hrecovered =>
    rw [show seen = w.stream from hok] at hrecovered
    apply h.set
    rintro _ ⟨⟩
    have hps : (recovered.map pair).Perm
        (recordAll ∅ (replayPairs (scanRawMeta w.stream))).pairs := by
      rw [loadRecoveredOffsets_eq] at hrecovered
      have ha := hrecovered.map pair
      rwa [offsetRecords, map_map, show pair ∘ ofPair = id from funext pair_ofPair, map_id] at ha
    constructor
    · exact ((Covers.of_subset hps.symm.subset).trans (covers_pairs _)).trans h.replay_covers.1
    · exact h.replay_covers.2.trans (.of_subset (List.Subset.trans hps.subset (pairs_subset _)))
  | compact hh hg =>
    obtain ⟨hc, ho⟩ := h.loaded _ _ hh
    apply set
    · apply h.append
      · intro m hm
        constructor
        · -- the snapshot has everything that is committed
          intro _ r recs hr hrc
          cases hrc
          intro p hp
          apply hc
          exact mem_committedPairs.mpr ⟨r, mem_map.mpr ⟨m, hm, hr⟩, (mem_singleton.mp hp).symm⟩
        · intro _ r recs hr
          cases hr
      · intro recs hrc
        cases hrc
        exact ho
      · exact fun b recovered _ p hp => absurd hp not_mem_nil
    · intro recovered hs
      cases hs
  | compactFailed hh =>
    apply h.set
    intro recovered hs
    cases hs
  | commit hh =>
    apply h.set
    intro recovered hl
    rw [hh] at hl
    cases hl
  | append hh hr hg =>
    obtain ⟨hn, hb⟩ := hok
    apply set
    · apply h.append
      · intro m hm
        constructor
        · intro _ r recs _ hrc
          cases hrc
        · intro hle r recs _ hrc
          exact absurd hle (not_le.mpr (hb m hm recs hrc))
      · intro recs hrc
        cases hrc
      · exact fun b recovered hl => absurd hl (hn b recovered)
    · intro recovered hl
      rw [hh] at hl
      cases hl
  | @appendFailed b r hr =>
    apply h.set
    exact fun recovered hl => h.loaded b recovered hl
  | claim hg =>
    apply h.append
    · intro m hm
      exact ⟨fun _ r recs _ hrc => (by cases hrc), fun _ r recs hr => (by cases hr)⟩
    · intro recs hrc
      cases hrc
    · exact fun b recovered _ p hp => absurd hp not_mem_nil

theorem of_reachable
    (h : OffsetsReachable numShards bits OffsetEvent.BehindSnapshots w) : OffsetsInv w :=
  invariant_of_steps h (.init numShards) fun _ _ hi ⟨_, hok, ht⟩ => hi.step hok ht

end OffsetsInv

/-- A broker that starts recovers, for every group and shard, the greatest offset that was ever
committed to the stream. -/
theorem recovered_offsets_exact {numShards : UInt32} {bits : ℕ} {w : Brokers}
    (h : OffsetsReachable numShards bits OffsetEvent.BehindSnapshots w) (k : GroupKey × ℕ) :
    (loadRecoveredOffsets (scanRawMeta w.stream)).lookup k =
      maxOf (committedPairs (w.stream.map event)) k :=
  (OffsetsInv.of_reachable h).load_lookup k

def firstOffset : OffsetRecord :=
  ⟨"orders", "created", "billing", 0, 5⟩

private theorem scanRawMeta_of_ascending {stream : List MetaRecord}
    (h : stream.Pairwise fun a b => decide (a.gid ≤ b.gid) = true) :
    scanRawMeta stream = stream.map event := by
  rw [scanRawMeta, mergeSort_of_pairwise h]

private theorem load_empty : offsetRecords (loadRecoveredOffsets (scanRawMeta [])) = [] := by
  rw [scanRawMeta_of_ascending .nil]
  rfl

/-- A broker starts on an empty stream, and an offset is committed. -/
theorem recovered_offsets_exact_one_commit : ∃ w,
    OffsetsReachable 1 0 OffsetEvent.BehindSnapshots w ∧
      w.stream.map event = [.offsetSnapshot [], .offsetCommitted firstOffset] ∧
      ∀ k, (loadRecoveredOffsets (scanRawMeta w.stream)).lookup k =
        maxOf (committedPairs (w.stream.map event)) k := by
  have hit : OffsetsReachable 1 0 OffsetEvent.BehindSnapshots (.init 1) := .refl
  have hl := hit.step (.load 0 [] []) rfl (.load .slnil (.of_eq load_empty.symm))
  have hs := hl.step (.compact 0 0) trivial (.compact rfl fun m hm => absurd hm not_mem_nil)
  have hc := hs.step (.commit 0 firstOffset) trivial (.commit rfl)
  have hh : ∀ m ∈ [(⟨0, .offsetSnapshot []⟩ : MetaRecord)], m.gid < 1 := by
    intro m hm
    rw [mem_singleton.mp hm]
    exact one_pos
  have ha := hc.step (.append 0 firstOffset 1)
    ⟨fun b recovered => by
        by_cases hb : b = 0 <;> simp [Brokers.set, Brokers.append, Brokers.init, hb],
      fun m hm _ _ => hh m hm⟩
    (.append rfl (by decide) fun m hm _ => hh m hm)
  exact ⟨_, ha, rfl, recovered_offsets_exact ha⟩

/-- A second broker starts while the first one commits an offset: its snapshot, which was taken
before the commit and comes behind it, hides the offset from every later start. -/
theorem committed_offset_lost : ∃ w, OffsetsReachable 1 0 (fun _ _ => True) w ∧
    maxOf (committedPairs (w.stream.map event)) firstOffset.pair.1 = some 5 ∧
      (loadRecoveredOffsets (scanRawMeta w.stream)).lookup firstOffset.pair.1 = none := by
  have hit : OffsetsReachable 1 0 (fun _ _ => True) (.init 1) := .refl
  have hf := (hit.step (.load 0 [] []) trivial (.load .slnil (.of_eq load_empty.symm))).step
    (.compact 0 0) trivial (.compact rfl fun m hm => absurd hm not_mem_nil)
  have hl : offsetRecords (loadRecoveredOffsets (scanRawMeta [⟨0, .offsetSnapshot []⟩])) = [] := by
    rw [scanRawMeta_of_ascending (by decide)]
    rfl
  have hd := hf.step (.load 1 _ []) trivial (.load (.refl _) (.of_eq hl.symm))
  have hc := (hd.step (.commit 0 firstOffset) trivial (.commit rfl)).step
    (.append 0 firstOffset 1) trivial (.append rfl (by decide) fun m hm _ => by
      rw [mem_singleton.mp hm]
      exact one_pos)
  have hcd := hc.step (.compact 1 2) trivial (.compact rfl fun m hm _ => by
    rcases mem_append.mp hm with hm | hm <;> rw [mem_singleton.mp hm] <;> decide)
  refine ⟨_, hcd, by decide, ?_⟩
  rw [scanRawMeta_of_ascending (by decide)]
  decide

end LogDb.Broker
