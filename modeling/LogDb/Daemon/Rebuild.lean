import LogDb.Daemon.Storage
import LogDb.Lib.MaxMap

/-!
What `Storage::new` finds again of a reopened log.
-/

namespace LogDb.Daemon

open Lib Format List Option Engine MaxMap

/-! ## The rebuilt maps -/

theorem rebuildMapping_concat (records : List (ℕ × Bytes)) (r : ℕ × Bytes) :
    rebuildMapping (records ++ [r]) = rebuildStep (rebuildMapping records) r :=
  foldl_concat ..

variable {records : List (ℕ × Bytes)}

theorem gidAt_rebuildMapping {stream : UInt64} {seq gid : ℕ}
    (h : (rebuildMapping records).1.gidAt stream seq = some gid) :
    ∃ r ∈ records, r.1 = gid ∧
      ∃ d, decodeRecord r.2 = .ok d ∧ d.streamId = stream ∧ d.seq.toNat = seq := by
  induction records using reverseRecOn with
  | nil => simp [rebuildMapping] at h
  | append_singleton records r ih =>
    rw [rebuildMapping_concat, rebuildStep] at h
    have ho : (rebuildMapping records).1.gidAt stream seq = some gid →
        ∃ x ∈ records ++ [r], x.1 = gid ∧
          ∃ d, decodeRecord x.2 = .ok d ∧ d.streamId = stream ∧ d.seq.toNat = seq := by
      intro ho
      obtain ⟨x, hx, hd⟩ := ih ho
      exact ⟨x, mem_append_left _ hx, hd⟩
    cases he : decodeRecord r.2 with
    | error e =>
      rw [he] at h
      exact ho h
    | ok d =>
      rw [he] at h
      simp only [SeqMap.gidAt_store] at h
      split_ifs at h with hk
      · refine ⟨r, by simp, some.inj h, d, he, hk.1.symm, hk.2.symm⟩
      · exact ho h

theorem exists_gidAt_rebuildMapping {r : ℕ × Bytes} {d : DecodedRecord} (hr : r ∈ records)
    (hd : decodeRecord r.2 = .ok d) :
    ∃ gid, (rebuildMapping records).1.gidAt d.streamId d.seq.toNat = some gid := by
  induction records using reverseRecOn with
  | nil => exact absurd hr not_mem_nil
  | append_singleton records x ih =>
    rw [rebuildMapping_concat, rebuildStep]
    cases hx : decodeRecord x.2 with
    | error e =>
      rcases mem_append.mp hr with hr | hr
      · exact ih hr
      · rw [mem_singleton.mp hr, hx] at hd
        cases hd
    | ok dx =>
      simp only [SeqMap.gidAt_store]
      split_ifs with hk
      · exact ⟨x.1, rfl⟩
      · rcases mem_append.mp hr with hr | hr
        · exact ih hr
        · rw [mem_singleton.mp hr, hx] at hd
          cases hd
          exact absurd ⟨rfl, rfl⟩ hk

/-- The number behind each one that a decoded record uses. -/
def nextAfter (records : List (ℕ × Bytes)) : List (UInt64 × ℕ) :=
  records.filterMap fun r => (decodeRecord r.2).toOption.map fun d => (d.streamId, d.seq.toNat + 1)

theorem NextSeqs.bump_eq_record (nexts : NextSeqs) (stream : UInt64) (seq : ℕ) :
    nexts.bump stream seq = record nexts (stream, seq + 1) := by
  unfold bump next record
  cases nexts.lookup stream with
  | none =>
    dsimp only [getD_none]
    congr 1
    split_ifs <;> omega
  | some cur =>
    dsimp only [getD_some]
    congr 1
    split_ifs <;> omega

theorem rebuildMapping_nextSeqs (records : List (ℕ × Bytes)) :
    (rebuildMapping records).2 = recordAll ∅ (nextAfter records) := by
  induction records using reverseRecOn with
  | nil => rfl
  | append_singleton records r ih =>
    have hb : recordAll ∅ (nextAfter (records ++ [r])) =
        recordAll (rebuildMapping records).2 (nextAfter [r]) := by
      rw [ih, nextAfter, filterMap_append]
      exact foldl_append
    rw [rebuildMapping_concat, hb, rebuildStep, nextAfter]
    cases hd : decodeRecord r.2 with
    | error e => simp [hd, Except.toOption, recordAll]
    | ok d => simp [hd, Except.toOption, recordAll, NextSeqs.bump_eq_record]

/-! ## What is found again -/

/-- Every record is mapped, and the next number of a stream follows the greatest one in it. -/
structure Storage.Exact {n : ℕ} (st : Storage n) : Prop where
  mapped : ∀ s i stream seq, st.db.Holds s i stream seq →
    st.seqMap.gidAt stream seq = some (gidOf s i)
  next : ∀ s i stream seq, st.db.Holds s i stream seq →
    ∃ top, st.nextSeqs.lookup stream = some (1 + top) ∧ (∃ t j, st.db.Holds t j stream top) ∧
      ∀ t j seq', st.db.Holds t j stream seq' → seq' ≤ top

def Engine.Decodes {n : ℕ} (db : Engine n) : Prop :=
  ∀ s i content, db.stored s i = some content → ∃ d, decodeRecord content = .ok d

section

variable {n : ℕ} {db : Engine n}

theorem Storage.new_db (db : Engine n) : (Storage.new db).db = db := by
  unfold Storage.new
  split_ifs <;> rfl

theorem Storage.new_empty (hs : n ≤ 256) :
    Storage.new (Engine.empty hs) = ⟨Engine.empty hs, ∅, ∅⟩ := by
  unfold Storage.new
  rw [scan_empty]
  split_ifs <;> rfl

/-- Either every shard has something durable, or some shard has not and nothing is rebuilt. -/
theorem Storage.new_cases (db : Engine n) : (∀ s, db.durable s ≠ 0) ∧ n ≠ 0 ∧ Storage.new db =
        ⟨db, (rebuildMapping (db.scan 0 (2 ^ 64 - 1))).1,
          (rebuildMapping (db.scan 0 (2 ^ 64 - 1))).2⟩ ∨
      (n = 0 ∨ ∃ s, db.durable s = 0) ∧ Storage.new db = ⟨db, ∅, ∅⟩ := by
  unfold Storage.new
  split_ifs with hz
  · refine .inr ⟨?_, rfl⟩
    by_cases hn : n = 0
    · exact .inl hn
    · obtain ⟨s, hs⟩ := exists_minCursor_eq db.durable (pos_of_ne_zero hn)
      exact .inr ⟨s, hs.trans hz⟩
  · refine .inl ⟨fun s hs => hz ?_, ?_, rfl⟩
    · have hle := minCursor_le db.durable s
      rw [hs] at hle
      exact Nat.le_zero.mp hle
    · rintro rfl
      exact hz rfl

variable {stream : UInt64} {s : Fin n} {i seq : ℕ} {st : Storage n}

theorem mem_scan_of_holds {content : Bytes} (h : db.stored s i = some content) :
    (gidOf s i, content) ∈ db.scan 0 (2 ^ 64 - 1) :=
  mem_scan_all.mpr ⟨s, i, h, rfl⟩

section

variable (hwritten : db.FromAppends)
include hwritten

theorem exists_holds_of_gidAt {gid : ℕ}
    (h : (rebuildMapping (db.scan 0 (2 ^ 64 - 1))).1.gidAt stream seq = some gid) :
    ∃ s i content, db.stored s i = some content ∧ gidOf s i = gid ∧
      (∃ d, decodeRecord content = .ok d) ∧ Carries content stream seq := by
  obtain ⟨r, hr, hg, d, hd, rfl, rfl⟩ := gidAt_rebuildMapping h
  obtain ⟨s, i, hs, hid⟩ := mem_scan_all.mp hr
  obtain ⟨stream, seq, hc⟩ := hwritten s i _ hs
  obtain ⟨ht, hq⟩ := hc.decoded hd
  exact ⟨s, i, r.2, hs, hid.trans hg, ⟨d, hd⟩, ht ▸ hq ▸ hc⟩

theorem mem_nextAfter_iff (hds : db.Decodes) {next : ℕ} :
    (stream, next) ∈ nextAfter (db.scan 0 (2 ^ 64 - 1)) ↔
      ∃ s i seq, db.Holds s i stream seq ∧ next = 1 + seq := by
  unfold nextAfter
  rw [mem_filterMap]
  constructor
  · rintro ⟨r, hr, hd⟩
    obtain ⟨s, i, hs, -⟩ := mem_scan_all.mp hr
    obtain ⟨stream', seq', hc⟩ := hwritten s i _ hs
    obtain ⟨d, he⟩ := hds s i _ hs
    rw [he] at hd
    obtain ⟨rfl, rfl⟩ := Prod.mk.inj (some.inj hd)
    obtain ⟨ht, hq⟩ := hc.decoded he
    exact ⟨s, i, seq', ⟨r.2, hs, ht ▸ hc⟩, by omega⟩
  · rintro ⟨s, i, seq, ⟨content, hs, hc⟩, rfl⟩
    obtain ⟨d, he⟩ := hds s i _ hs
    obtain ⟨rfl, rfl⟩ := hc.decoded he
    exact ⟨_, mem_scan_of_holds hs, by simp [he, Except.toOption, add_comm]⟩

theorem exact_of_rebuilt (hds : db.Decodes) (hdt : db.Distinct) :
    Storage.Exact ⟨db, (rebuildMapping (db.scan 0 (2 ^ 64 - 1))).1,
      (rebuildMapping (db.scan 0 (2 ^ 64 - 1))).2⟩ where
  mapped := by
    intro s i stream seq hh
    obtain ⟨content, hs, hc⟩ := hh
    obtain ⟨d, hd⟩ := hds s i content hs
    obtain ⟨gid, hg⟩ := exists_gidAt_rebuildMapping (mem_scan_of_holds hs) hd
    obtain ⟨rfl, rfl⟩ := hc.decoded hd
    obtain ⟨t, j, content', hs', hid, -, hc'⟩ := exists_holds_of_gidAt hwritten hg
    obtain ⟨rfl, rfl⟩ := hdt s i t j _ _ ⟨content, hs, hc⟩ ⟨content', hs', hc'⟩
    rw [hid]
    exact hg
  next := by
    intro s i stream seq hh
    show ∃ top, AList.lookup stream (rebuildMapping (db.scan 0 (2 ^ 64 - 1))).2 = _ ∧ _
    rw [rebuildMapping_nextSeqs, lookup_recordAll_empty]
    cases hx : maxOf (nextAfter (db.scan 0 (2 ^ 64 - 1))) stream with
    | none =>
      have hm := (mem_nextAfter_iff hwritten hds).mpr ⟨s, i, seq, hh, rfl⟩
      exact absurd hm (maxOf_eq_none_iff.mp hx _)
    | some next =>
      obtain ⟨hm, hle⟩ := maxOf_eq_some_iff.mp hx
      obtain ⟨t, j, top, ht, rfl⟩ := (mem_nextAfter_iff hwritten hds).mp hm
      refine ⟨top, rfl, ⟨t, j, ht⟩, ?_⟩
      intro t' j' seq' hq'
      have hle' := hle _ ((mem_nextAfter_iff hwritten hds).mpr ⟨t', j', seq', hq', rfl⟩)
      omega

theorem exact_empty_iff : Storage.Exact ⟨db, ∅, ∅⟩ ↔ ∀ s i, db.stored s i = none := by
  constructor
  · intro hex s i
    cases hs : db.stored s i with
    | none => rfl
    | some content =>
      obtain ⟨stream, seq, hc⟩ := hwritten s i content hs
      have hm := hex.mapped s i stream seq ⟨content, hs, hc⟩
      rw [SeqMap.gidAt_empty] at hm
      cases hm
  · intro hn
    have hh : ∀ s i stream seq, ¬ db.Holds s i stream seq := by
      rintro s i stream seq ⟨content, hs, -⟩
      rw [hn s i] at hs
      cases hs
    exact ⟨fun s i stream seq h => absurd h (hh s i stream seq),
      fun s i stream seq h => absurd h (hh s i stream seq)⟩

end

theorem decodes_distinct_of_empty (hn : ∀ s i, db.stored s i = none) :
    db.Decodes ∧ db.Distinct := by
  constructor
  · intro s i content hs
    rw [hn s i] at hs
    cases hs
  · rintro s i t j stream seq ⟨content, hs, -⟩ -
    rw [hn s i] at hs
    cases hs

theorem exact_new_iff (hwritten : db.FromAppends) :
    (Storage.new db).Exact ↔ db.Decodes ∧ db.Distinct ∧
      ((∀ s i, db.stored s i = none) ∨ ∀ s, db.durable s ≠ 0) := by
  rcases Storage.new_cases db with ⟨hd, -, hn⟩ | ⟨hz, hn⟩
  · rw [hn]
    constructor
    · intro hex
      refine ⟨?_, ?_, .inr hd⟩
      · intro s i content ho
        obtain ⟨stream, seq, hc⟩ := hwritten s i content ho
        obtain ⟨t, j, content', hs', hid, he, -⟩ := exists_holds_of_gidAt hwritten
          (hex.mapped s i stream seq ⟨content, ho, hc⟩)
        obtain ⟨rfl, rfl⟩ := db.gidOf_inj (lt_of_stored hs').le (lt_of_stored ho).le hid
        rw [ho] at hs'
        cases hs'
        exact he
      · intro s i t j stream seq hs ht
        have heq := (hex.mapped s i stream seq hs).symm.trans (hex.mapped t j stream seq ht)
        obtain ⟨content, ho, -⟩ := hs
        obtain ⟨content', hs', -⟩ := ht
        exact db.gidOf_inj (lt_of_stored ho).le (lt_of_stored hs').le (some.inj heq)
    · rintro ⟨hds, hdt, -⟩
      exact exact_of_rebuilt hwritten hds hdt
  · rw [hn, exact_empty_iff hwritten]
    constructor
    · intro hnn
      obtain ⟨hds, hdt⟩ := decodes_distinct_of_empty hnn
      exact ⟨hds, hdt, .inl hnn⟩
    · rintro ⟨-, -, hnn | hd⟩
      · exact hnn
      · rcases hz with rfl | ⟨s, hs⟩
        · exact fun s => s.elim0
        · exact absurd hs (hd s)

theorem Storage.Exact.lt_next (h : st.Exact) (hh : st.db.Holds s i stream seq) :
    seq < (st.allocate stream).1 := by
  obtain ⟨top, hl, -, hle⟩ := h.next s i stream seq hh
  have hq := hle s i seq hh
  unfold Storage.allocate NextSeqs.next
  simp only [hl, getD_some]
  omega

end

def firstShardOnly (n : ℕ) (s : Fin n) : List Bytes :=
  if (s : ℕ) = 0 then [bareContent 1 1] else []

section

variable {n : ℕ} {db : Engine n}

section

variable (hdb : ∀ s i, db.stored s i = (firstShardOnly n s)[i]?)
include hdb

theorem firstShardOnly_stored {s : Fin n} {i : ℕ} {content : Bytes}
    (h : db.stored s i = some content) : ((s : ℕ) = 0 ∧ i = 0) ∧ content = bareContent 1 1 := by
  rw [hdb, firstShardOnly] at h
  split_ifs at h with hs
  · obtain ⟨hi, rfl⟩ := List.getElem?_eq_some_iff.mp h
    have hz : i = 0 := Nat.lt_one_iff.mp hi
    subst hz
    exact ⟨⟨hs, rfl⟩, rfl⟩
  · cases h

/-- Such a log meets all conditions but the one on the cursors. -/
theorem firstShardOnly_written : db.FromAppends ∧ db.Decodes ∧ db.Distinct := by
  refine ⟨?_, ?_, ?_⟩
  · intro s i content ho
    obtain ⟨-, rfl⟩ := firstShardOnly_stored hdb ho
    exact ⟨1, 1, _, encodeRecord_bareEnvelope 1 1, rfl, rfl⟩
  · intro s i content ho
    obtain ⟨-, rfl⟩ := firstShardOnly_stored hdb ho
    exact ⟨_, decodeRecord_bareContent 1 1⟩
  · rintro s i t j stream seq ⟨_, hs, -⟩ ⟨_, ht, -⟩
    obtain ⟨⟨hs, hi⟩, -⟩ := firstShardOnly_stored hdb hs
    obtain ⟨⟨ht, hj⟩, -⟩ := firstShardOnly_stored hdb ht
    exact ⟨Fin.ext (hs.trans ht.symm), hi.trans hj.symm⟩

end

end

def oneShardDb : Engine 1 :=
  .ofContents (firstShardOnly 1) one_le_256 (by decide)

def twoShardDb : Engine 2 :=
  .ofContents (firstShardOnly 2) two_le_256 (by decide)

end LogDb.Daemon
