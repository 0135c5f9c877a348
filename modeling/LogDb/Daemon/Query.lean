import LogDb.Daemon.Rebuild
import LogDb.Daemon.Quota
import LogDb.Lib.Forall2

/-!
The records that the Query call works on.
-/

namespace LogDb.Daemon

open Lib Format List Engine

section

variable {n : ℕ} (st : Storage n) (t : TombstoneTracker) (stream : UInt64)

/-- What the Query handler hands to the engine: the live records of the stream from a scan up to the
committed cursor. -/
def queryRecords : Except StorageError (List DecodedRecord) := do
  let all ← st.scan 0 st.committedGid
  return all.filter fun r => r.streamId = stream ∧ t.isLive stream r.seq.toNat

/-- The content of a live record of the stream. -/
def isLiveContent (content : Bytes) : Bool :=
  (contentIds content).any fun ids => ids.1 = stream ∧ t.isLive stream ids.2

def Engine.isCommitted (db : Engine n) (gid : ℕ) : Bool :=
  let id := splitGid n gid
  if h : id.1 < n then id.2 < db.committed ⟨id.1, h⟩ else false

def liveCommitted : List (ℕ × Bytes) :=
  (st.db.scan 0 (2 ^ 64 - 1)).filter fun r => st.db.isCommitted r.1 ∧ isLiveContent t stream r.2

/-- The list contains every live committed record of the stream, as often as the log does. -/
def QueryComplete : Prop :=
  ∃ records, queryRecords st t stream = .ok records ∧
    List.Subperm ((liveCommitted st t stream).map fun r => decodeAt n r.1 r.2)
      (records.map .ok)

end

section

variable {n : ℕ} {st : Storage n} {t : TombstoneTracker} {stream : UInt64}

theorem Engine.isCommitted_gidOf {db : Engine n} {s : Fin n} {i : ℕ}
    (h : i ≤ (db.contents s).length) : db.isCommitted (gidOf s i) = true ↔ i < db.committed s := by
  unfold isCommitted
  rw [db.splitGid_gidOf h]
  simp

/-- The part of the scan that the list comes from. -/
def queriedEntries (st : Storage n) (t : TombstoneTracker) (stream : UInt64) : List (ℕ × Bytes) :=
  (st.db.scan 0 st.db.committedCursor).filter fun r => isLiveContent t stream r.2

theorem scan_nodup (db : Engine n) (fromId toId : ℕ) : (db.scan fromId toId).Nodup :=
  (db.scan_sorted fromId toId).imp fun hlt heq => absurd (congrArg Prod.fst heq) hlt.ne

/-- An id below the least committed cursor is committed on its shard. -/
theorem queriedEntries_subset : queriedEntries st t stream ⊆ liveCommitted st t stream := by
  intro r hr
  obtain ⟨hsc, hl⟩ := mem_filter.mp hr
  obtain ⟨⟨-, hlt⟩, s, i, hs, hid⟩ := mem_scan.mp hsc
  have hi := (lt_of_stored hs).le
  have hc : i < st.db.committed s :=
    calc i ≤ gidOf s i := st.db.le_gidOf hi
      _ < st.db.committedCursor := hid.symm ▸ hlt
      _ ≤ st.db.committed s := minCursor_le _ s
  refine mem_filter.mpr ⟨mem_scan_all.mpr ⟨s, i, hs, hid⟩, ?_⟩
  rw [decide_eq_true_iff, ← hid, isCommitted_gidOf hi]
  exact ⟨hc, hl⟩

theorem exists_decodeAt_iff {gid : ℕ} {content : Bytes} :
    (∃ d, decodeAt n gid content = .ok d) ↔ ∃ d, decodeRecord content = .ok d := by
  simp only [decodeAt_eq_ok]
  exact ⟨fun ⟨_, d, hd, _⟩ => ⟨d, hd⟩, fun ⟨d, hd⟩ => ⟨_, d, hd, rfl⟩⟩

theorem queryRecords_spec (hw : st.db.FromAppends) {records : List DecodedRecord}
    (h : queryRecords st t stream = .ok records) :
    (queriedEntries st t stream).map (fun r => decodeAt n r.1 r.2) = records.map .ok := by
  unfold queryRecords at h
  cases hsc : st.scan 0 st.committedGid with
  | error e =>
    rw [hsc] at h
    cases h
  | ok all =>
    rw [hsc] at h
    cases h
    apply map_filter_of_mapM hsc
    intro r hr d hd
    obtain ⟨-, s, i, hs, -⟩ := mem_scan.mp hr
    obtain ⟨stream', seq, hc⟩ := hw s i _ hs
    obtain ⟨d₀, hd₀, rfl⟩ := decodeAt_eq_ok.mp hd
    obtain ⟨rfl, rfl⟩ := hc.decoded hd₀
    unfold isLiveContent
    rw [hc.contentIds_eq, Option.any_some]

theorem exists_queryRecords_iff : (∃ records, queryRecords st t stream = .ok records) ↔
      ∀ r ∈ st.db.scan 0 st.db.committedCursor, ∃ d, decodeRecord r.2 = .ok d := by
  constructor
  · rintro ⟨records, h⟩ r hr
    unfold queryRecords at h
    cases hs : st.scan 0 st.committedGid with
    | error e =>
      rw [hs] at h
      cases h
    | ok all =>
      obtain ⟨d, -, hd⟩ := exists_of_forall₂ (mapM_eq_ok_iff.mp hs).flip hr
      exact exists_decodeAt_iff.mp ⟨d, hd⟩
  · intro he
    obtain ⟨all, ha⟩ := exists_mapM_eq_ok (f := fun r : ℕ × Bytes => decodeAt n r.1 r.2)
      fun r hr => exists_decodeAt_iff.mpr (he r hr)
    have hs : st.scan 0 st.committedGid = .ok all := ha
    unfold queryRecords
    rw [hs]
    exact ⟨_, rfl⟩

theorem queryComplete_iff_subset (hw : st.db.FromAppends) :
    QueryComplete st t stream ↔ (∃ records, queryRecords st t stream = .ok records) ∧
      liveCommitted st t stream ⊆ queriedEntries st t stream := by
  have hn : (queriedEntries st t stream).Nodup := (scan_nodup _ _ _).filter _
  have hn' : (liveCommitted st t stream).Nodup := (scan_nodup _ _ _).filter _
  constructor
  · rintro ⟨records, hr, hs⟩
    refine ⟨⟨records, hr⟩, ?_⟩
    rw [← queryRecords_spec hw hr] at hs
    -- the list is a part of the live records and has no fewer elements
    have hl := hs.length_le
    rw [length_map, length_map] at hl
    exact ((subperm_of_subset hn queriedEntries_subset).perm_of_length_le hl).symm.subset
  · rintro ⟨⟨records, hr⟩, hs⟩
    refine ⟨records, hr, ?_⟩
    rw [← queryRecords_spec hw hr]
    obtain ⟨part, hm, hp⟩ := subperm_of_subset hn' hs
    exact ⟨_, hm.map _, hp.map _⟩

/-- The Query call works on all live committed records of the stream if and only if everything below
the least committed cursor can be decoded and all of those records have their ids below it. -/
theorem query_complete_iff (hwritten : st.db.FromAppends) : QueryComplete st t stream ↔
      (∀ s i content, st.db.stored s i = some content → gidOf s i < st.db.committedCursor →
        ∃ d, decodeRecord content = .ok d) ∧
      ∀ s i seq, st.db.Holds s i stream seq → i < st.db.committed s → t.isLive stream seq = true →
        gidOf s i < st.db.committedCursor := by
  rw [queryComplete_iff_subset hwritten, exists_queryRecords_iff]
  apply and_congr
  · constructor
    · intro hd s i content hs hlt
      exact hd (gidOf s i, content) (mem_scan.mpr ⟨⟨start_zero _ _, hlt⟩, s, i, hs, rfl⟩)
    · intro hd r hr
      obtain ⟨⟨-, hlt⟩, s, i, hs, hid⟩ := mem_scan.mp hr
      exact hd s i r.2 hs (hid.symm ▸ hlt)
  · constructor
    · rintro hu s i seq ⟨content, hs, hc⟩ hi hl
      have hm : (gidOf s i, content) ∈ liveCommitted st t stream := by
        refine mem_filter.mpr ⟨mem_scan_all.mpr ⟨s, i, hs, rfl⟩, ?_⟩
        rw [decide_eq_true_iff, isCommitted_gidOf (lt_of_stored hs).le]
        refine ⟨hi, ?_⟩
        simp [isLiveContent, hc.contentIds_eq, hl]
      exact (mem_scan.mp (mem_filter.mp (hu hm)).1).1.2
    · intro hb r hr
      obtain ⟨hsc, hk⟩ := mem_filter.mp hr
      obtain ⟨s, i, hs, hid⟩ := mem_scan_all.mp hsc
      obtain ⟨stream', seq, hc⟩ := hwritten s i _ hs
      rw [decide_eq_true_iff, ← hid, isCommitted_gidOf (lt_of_stored hs).le] at hk
      obtain ⟨hi, hl⟩ := hk
      have hq : stream' = stream ∧ t.isLive stream seq = true := by
        simpa [isLiveContent, hc.contentIds_eq] using hl
      obtain ⟨rfl, hl'⟩ := hq
      have hlt := hb s i seq ⟨_, hs, hc⟩ hi hl'
      exact mem_filter.mpr ⟨mem_scan.mpr ⟨⟨start_zero _ _, hid ▸ hlt⟩, s, i, hs, hid⟩, hl⟩

end

theorem query_complete_one_shard : oneShardDb.Holds 0 0 1 1 ∧ 0 < oneShardDb.committed 0 ∧
    QueryComplete (Storage.new oneShardDb) .new 1 := by
  have hd : ∀ s i, oneShardDb.stored s i = (firstShardOnly 1 s)[i]? := stored_ofContents
  obtain ⟨hw, hds, -⟩ := firstShardOnly_written hd
  refine ⟨⟨_, hd 0 0, _, encodeRecord_bareEnvelope 1 1, rfl, rfl⟩, one_pos, ?_⟩
  have hn := Storage.new_db oneShardDb
  refine (query_complete_iff (hn ▸ hw)).mpr ⟨?_, ?_⟩
  · rw [hn]
    exact fun s i content ht _ => hds s i content ht
  · rw [hn]
    rintro s i seq ⟨content, ht, -⟩ - -
    obtain ⟨⟨hs, rfl⟩, -⟩ := firstShardOnly_stored hd ht
    rw [Fin.fin_one_eq_zero s]
    exact one_pos

/-- With nothing on the second shard the bound of the scan is 0: the committed record on the first
shard is not in the list. -/
theorem query_misses_committed : twoShardDb.FromAppends ∧ twoShardDb.Holds 0 0 1 1 ∧
    0 < twoShardDb.committed 0 ∧ TombstoneTracker.new.isLive 1 1 = true ∧
    queryRecords (Storage.new twoShardDb) .new 1 = .ok [] ∧
    ¬ QueryComplete (Storage.new twoShardDb) .new 1 := by
  have hd : ∀ s i, twoShardDb.stored s i = (firstShardOnly 2 s)[i]? := stored_ofContents
  obtain ⟨hw, -, -⟩ := firstShardOnly_written hd
  have hc : Carries (bareContent 1 1) 1 1 := ⟨_, encodeRecord_bareEnvelope 1 1, rfl, rfl⟩
  have hn := Storage.new_db twoShardDb
  refine ⟨hw, ⟨_, hd 0 0, hc⟩, one_pos, rfl, rfl, ?_⟩
  rw [queryComplete_iff_subset (hn ▸ hw)]
  rintro ⟨-, hs⟩
  have hm : (0, bareContent 1 1) ∈ liveCommitted (Storage.new twoShardDb) .new 1 := by
    refine mem_filter.mpr ⟨?_, ?_⟩
    · rw [hn]
      exact mem_scan_all.mpr ⟨0, 0, hd 0 0, rfl⟩
    · rw [decide_eq_true_iff, hn]
      exact ⟨rfl, by simp [isLiveContent, hc.contentIds_eq]; rfl⟩
  have hsc := (mem_filter.mp (hs hm)).1
  rw [hn] at hsc
  exact absurd (mem_scan.mp hsc).1.2 (Nat.not_lt_zero _)

end LogDb.Daemon
