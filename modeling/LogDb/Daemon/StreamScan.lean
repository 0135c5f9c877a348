import LogDb.Daemon.Quota
import LogDb.Daemon.Written

/-!
The Scan call: the records of a stream page by page. The handler scans all ids, so a page comes in
the order of the ids, while the next one is asked for by number.
-/

namespace LogDb.Daemon

open Lib Format List Function Engine

structure ScanRequest where
  fromSeq : ℕ
  toSeq : ℕ
  limit : ℕ

structure ScanResponse where
  records : List Envelope
  nextSeq : ℕ
  hasMore : Bool

/-- The chunks of at most `limit` records, each with the number behind its last record. -/
def pages (limit : ℕ) (records : List Envelope) : List ScanResponse :=
  let total := (records.length + limit - 1) / limit
  (List.range total).map fun i =>
    let chunk := (records.drop (i * limit)).take limit
    { records := chunk
      nextSeq := ((chunk.getLast?.map fun e => e.seq.toNat).getD 0 + 1) % 2 ^ 64
      hasMore := i + 1 < total }

namespace ScanRequest

variable (req : ScanRequest) (t : TombstoneTracker) (stream : UInt64) (e : Envelope)

/-- What the handler keeps of a scan. It does not look at the upper bound. -/
def keeps : Bool :=
  e.streamId = stream ∧ req.fromSeq ≤ e.seq.toNat ∧ t.isLive stream e.seq.toNat

def asks : Bool :=
  req.keeps t stream e ∧ (req.toSeq = 0 ∨ e.seq.toNat ≤ req.toSeq)

/-- No limit means a large one. -/
def pageSize : ℕ :=
  if req.limit = 0 then 10000 else req.limit

theorem pageSize_pos : 0 < req.pageSize := by
  unfold pageSize
  split_ifs <;> omega

end ScanRequest

section

variable {n : ℕ} (st : Storage n) (t : TombstoneTracker) (stream : UInt64) (req : ScanRequest)

def Storage.scanStream : Except StorageError (List ScanResponse) := do
  let all ← st.scan 0 (2 ^ 64 - 1)
  return pages req.pageSize ((all.filter fun r => req.keeps t stream r.toEnvelope).map
    DecodedRecord.toEnvelope)

/-- The records that are asked for come once each and in the order of their numbers, and the number
that comes with a page leads to the pages behind it. -/
def PagesExact : Prop :=
  ∃ responses, st.scanStream t stream req = .ok responses ∧
    (responses.flatMap ScanResponse.records).Perm
      ((st.db.reopen.records.map fun x => x.2.toEnvelope).filter (req.asks t stream)) ∧
    (responses.flatMap ScanResponse.records).Pairwise (fun a b => a.seq.toNat < b.seq.toNat) ∧
    ∀ i r, responses[i]? = some r → ∃ rest,
      st.scanStream t stream { req with fromSeq := r.nextSeq } = .ok rest ∧
        rest.flatMap ScanResponse.records = (responses.drop (i + 1)).flatMap ScanResponse.records

/-- What the log must be like for this request. -/
structure Pageable : Prop where
  decodes : st.db.Decodes
  written : ∀ x ∈ st.db.reopen.records, req.asks t stream x.2.toEnvelope → x ∈ st.db.records
  upTo : ∀ x ∈ st.db.records, req.keeps t stream x.2.toEnvelope →
    req.toSeq = 0 ∨ x.2.seq.toNat ≤ req.toSeq
  ordered : ∀ x ∈ st.db.records, ∀ y ∈ st.db.records, req.keeps t stream x.2.toEnvelope →
    req.keeps t stream y.2.toEnvelope → x.1 < y.1 → x.2.seq.toNat < y.2.seq.toNat
  last : ∀ x ∈ st.db.records, req.keeps t stream x.2.toEnvelope → x.2.seq.toNat + 1 < 2 ^ 64

end

/-! ## Pages -/

section

variable {k : ℕ} {xs : List Envelope}

theorem flatMap_chunks (k : ℕ) (xs : List Envelope) (m : ℕ) :
    (List.range m).flatMap (fun i => (xs.drop (i * k)).take k) = xs.take (m * k) := by
  induction m with
  | zero => simp
  | succ m ih => rw [range_succ, flatMap_append, ih, Nat.succ_mul, take_add]; simp

theorem flatMap_pages (hk : 0 < k) (xs : List Envelope) :
    (pages k xs).flatMap ScanResponse.records = xs := by
  unfold pages
  rw [flatMap_map, flatMap_chunks, take_of_length_le]
  have := Nat.div_add_mod (xs.length + k - 1) k
  have := Nat.mod_lt (xs.length + k - 1) hk
  rw [mul_comm]
  omega

/-- A page ends with some record, and the pages behind it hold what comes after this record. -/
theorem split_of_page (hk : 0 < k) {i : ℕ} {r : ScanResponse} (h : (pages k xs)[i]? = some r) :
    ∃ front a rest, xs = front ++ a :: rest ∧ r.nextSeq = (a.seq.toNat + 1) % 2 ^ 64 ∧
      ((pages k xs).drop (i + 1)).flatMap ScanResponse.records = rest := by
  have hm := h
  rw [pages, getElem?_map, Option.map_eq_some_iff] at hm
  obtain ⟨j, hj, rfl⟩ := hm
  obtain ⟨hi, hij⟩ := List.getElem?_eq_some_iff.mp hj
  obtain rfl : i = j := by rw [← hij, getElem_range]
  rw [length_range] at hi
  have hb := (Nat.lt_div_iff_mul_lt hk).mp hi
  set chunk := (xs.drop (i * k)).take k with hc
  have hne : chunk ≠ [] := by
    have : 0 < chunk.length := by simp only [hc, length_take, length_drop]; omega
    exact ne_nil_of_length_pos this
  have hs : xs = (xs.take (i * k) ++ chunk) ++ xs.drop ((i + 1) * k) := by
    rw [hc, ← take_add, Nat.succ_mul, take_append_drop]
  refine ⟨xs.take (i * k) ++ chunk.dropLast, chunk.getLast hne, xs.drop ((i + 1) * k), ?_, ?_, ?_⟩
  · conv_lhs => rw [hs, ← dropLast_append_getLast hne]
    simp
  · simp [getLast?_eq_getLast_of_ne_nil hne]
  · have ha := flatMap_pages hk xs
    rw [← take_append_drop (i + 1) (pages k xs), flatMap_append] at ha
    have hf : ((pages k xs).take (i + 1)).flatMap ScanResponse.records = xs.take ((i + 1) * k) := by
      rw [pages, ← map_take, take_range, min_eq_left, flatMap_map, flatMap_chunks]
      exact hi
    rw [hf] at ha
    exact append_cancel_left (ha.trans (take_append_drop _ xs).symm)

theorem exists_last_page (hk : 0 < k) (front : List Envelope) (a : Envelope) :
    ∃ i r, (pages k (front ++ [a]))[i]? = some r ∧ r.nextSeq = (a.seq.toNat + 1) % 2 ^ 64 ∧
      ((pages k (front ++ [a])).drop (i + 1)).flatMap ScanResponse.records = [] := by
  set ps := pages k (front ++ [a]) with hp
  have hne : ps ≠ [] := by
    intro hn
    have ha := flatMap_pages hk (front ++ [a])
    simp [← hp, hn] at ha
  have hl := getLast?_eq_getLast_of_ne_nil hne
  rw [getLast?_eq_getElem?] at hl
  have hd : (ps.drop (ps.length - 1 + 1)).flatMap ScanResponse.records = [] := by
    rw [drop_of_length_le (by omega), flatMap_nil]
  obtain ⟨front', a', rest, hs, hx, hr⟩ := split_of_page hk hl
  obtain rfl : [] = rest := hd.symm.trans hr
  obtain ⟨-, rfl⟩ := append_inj' hs rfl |>.imp_right (cons.inj · |>.1)
  exact ⟨_, _, hl, hx, hd⟩

theorem filter_behind {front rest : List Envelope} {a : Envelope}
    (h : (front ++ a :: rest).Pairwise fun x y => x.seq.toNat < y.seq.toNat) :
    ((front ++ a :: rest).filter fun e => a.seq.toNat + 1 ≤ e.seq.toNat) = rest := by
  obtain ⟨-, hr, hf⟩ := pairwise_append.mp h
  have hb : front.filter (fun e => a.seq.toNat + 1 ≤ e.seq.toNat) = [] := by
    rw [filter_eq_nil_iff]
    intro e he
    have := hf e he a mem_cons_self
    simp only [decide_eq_true_eq]
    omega
  rw [filter_append, hb, nil_append, filter_cons_of_neg (by simp), filter_eq_self]
  exact fun e he => decide_eq_true ((pairwise_cons.mp hr).1 e he)

end

/-! ## The call -/

section

variable {n : ℕ} {st : Storage n} {t : TombstoneTracker} {stream : UInt64} {req : ScanRequest}

/-- The kept records of the files, in the order of the ids. -/
def Engine.kept (db : Engine n) (t : TombstoneTracker) (stream : UInt64) (req : ScanRequest) :
    List Envelope :=
  (db.records.filter fun x => req.keeps t stream x.2.toEnvelope).map fun x => x.2.toEnvelope

theorem scanStream_eq (h : st.db.Decodes) (t : TombstoneTracker) (stream : UInt64)
    (req : ScanRequest) : st.scanStream t stream req =
      .ok (pages req.pageSize (st.db.kept t stream req)) := by
  have hk : ((st.db.records.map Prod.snd).filter fun r => req.keeps t stream r.toEnvelope).map
      DecodedRecord.toEnvelope = st.db.kept t stream req := by
    rw [filter_map, map_map]
    rfl
  unfold Storage.scanStream
  rw [Storage.scan_all_eq_records h, ← hk]
  rfl

theorem decodes_of_scanStream {responses : List ScanResponse}
    (h : st.scanStream t stream req = .ok responses) : st.db.Decodes := by
  intro s i content hs
  cases hc : st.scan 0 (2 ^ 64 - 1) with
  | error e =>
    rw [Storage.scanStream, hc] at h
    cases h
  | ok all =>
  obtain ⟨d, -, hd⟩ := exists_of_forall₂ (mapM_eq_ok_iff.mp hc).flip
    (show (gidOf s i, content) ∈ _ from mem_scan_all.mpr ⟨s, i, hs, rfl⟩)
  obtain ⟨d', hd', -⟩ := decodeAt_eq_ok.mp hd
  exact ⟨d', hd'⟩

theorem mem_kept {e : Envelope} : e ∈ st.db.kept t stream req ↔
    ∃ x ∈ st.db.records, req.keeps t stream x.2.toEnvelope ∧ x.2.toEnvelope = e := by
  simp only [kept, mem_map, mem_filter, and_assoc]

theorem reopen_records_of_records {x : ℕ × DecodedRecord} (h : x ∈ st.db.records) :
    x ∈ st.db.reopen.records := by
  obtain ⟨s, i, content, hs, hr⟩ := mem_records.mp h
  obtain ⟨⟨hf, -⟩, hc⟩ := stored_eq_some_iff.mp hs
  exact mem_records.mpr ⟨s, i, content, stored_eq_some_iff.mpr ⟨⟨hf, lt_of_stored hs⟩, hc⟩, hr⟩

theorem pageable_of_pagesExact (h : PagesExact st t stream req) : Pageable st t stream req := by
  obtain ⟨responses, hc, hp, ho, hre⟩ := h
  have hd := decodes_of_scanStream hc
  obtain rfl := Except.ok.inj ((scanStream_eq hd t stream req).symm.trans hc)
  rw [flatMap_pages req.pageSize_pos] at hp ho
  have has : ∀ x ∈ st.db.records, req.keeps t stream x.2.toEnvelope →
      req.asks t stream x.2.toEnvelope := fun x hx hk =>
    (mem_filter.mp (hp.subset (mem_kept.mpr ⟨x, hx, hk, rfl⟩))).2
  have hs : (st.db.records.filter fun x => req.keeps t stream x.2.toEnvelope).Subperm
      (st.db.reopen.records.filter fun x => req.asks t stream x.2.toEnvelope) := by
    refine subperm_of_subset (st.db.records_nodup.filter _) fun x hx => ?_
    obtain ⟨hx, hk⟩ := mem_filter.mp hx
    exact mem_filter.mpr ⟨reopen_records_of_records hx, has x hx hk⟩
  -- both have as many elements as the answer
  have hl := hp.length_eq
  rw [kept, length_map, filter_map, length_map] at hl
  have hsm := hs.perm_of_length_le hl.ge
  refine ⟨hd, fun x hx hx' => ?_, fun x hx hk => ?_, ?_, fun x hx hk => ?_⟩
  · exact (mem_filter.mp (hsm.symm.subset (mem_filter.mpr ⟨hx, hx'⟩))).1
  · have := has x hx hk
    simp only [ScanRequest.asks, decide_eq_true_eq] at this
    exact this.2
  · intro x hx y hy hkx hky
    rw [kept, pairwise_map] at ho
    have hb := (st.db.records_sorted.filter _).and ho
    exact List.Pairwise.forall_of_forall_of_flip
      (R := fun x y => x.1 < y.1 → x.2.seq.toNat < y.2.seq.toNat)
      (fun _ _ hlt => absurd hlt (lt_irrefl _)) (hb.imp fun h _ => h.2)
      (hb.imp fun h hlt => absurd hlt h.1.not_gt)
      (mem_filter.mpr ⟨hx, hkx⟩) (mem_filter.mpr ⟨hy, hky⟩)
  · have hm := mem_kept.mpr ⟨x, hx, hk, rfl⟩
    obtain hn | ⟨front, a, hls⟩ := (st.db.kept t stream req).eq_nil_or_concat'
    · rw [hn] at hm
      cases hm
    obtain ⟨i, r, hr, hnx, ht⟩ := exists_last_page req.pageSize_pos front a
    rw [← hls] at hr ht
    obtain ⟨rest, hrn, he⟩ := hre i r hr
    obtain rfl := Except.ok.inj ((scanStream_eq hd t stream _).symm.trans hrn)
    rw [ht, flatMap_pages (ScanRequest.pageSize_pos _)] at he
    by_contra hov
    have hle : x.2.seq.toNat ≤ a.seq.toNat := by
      rw [hls] at hm ho
      rcases mem_append.mp hm with hf | hx
      · exact ((pairwise_append.mp ho).2.2 _ hf a mem_cons_self).le
      · rw [mem_singleton.mp hx]
    have ha := a.seq.toNat_lt
    rw [show a.seq.toNat + 1 = 2 ^ 64 by omega, Nat.mod_self] at hnx
    have hx0 : x.2.toEnvelope ∈ st.db.kept t stream { req with fromSeq := r.nextSeq } := by
      refine mem_kept.mpr ⟨x, hx, ?_, rfl⟩
      simp only [ScanRequest.keeps, decide_eq_true_eq, hnx] at hk ⊢
      exact ⟨hk.1, Nat.zero_le _, hk.2.2⟩
    rw [he] at hx0
    cases hx0

/-- The scan is right when the files hold what was asked for and nothing more of what is kept, with
numbers in the order of the ids, none of them the largest. -/
theorem scanStream_pages_iff (st : Storage n) (t : TombstoneTracker) (stream : UInt64)
    (req : ScanRequest) : PagesExact st t stream req ↔ Pageable st t stream req := by
  refine ⟨pageable_of_pagesExact, fun h => ?_⟩
  have he : st.db.kept t stream req =
      (st.db.reopen.records.map fun x => x.2.toEnvelope).filter (req.asks t stream) := by
    rw [kept, filter_map]
    refine congrArg _ (eq_of_ascending (st.db.records_sorted.filter _)
      (st.db.reopen.records_sorted.filter _) fun x => ?_)
    simp only [mem_filter, comp_apply]
    constructor
    · rintro ⟨hx, hk⟩
      exact ⟨reopen_records_of_records hx, decide_eq_true ⟨hk, h.upTo x hx hk⟩⟩
    · rintro ⟨hx, ha⟩
      exact ⟨h.written x hx ha, (of_decide_eq_true ha).1⟩
  have ho : (st.db.kept t stream req).Pairwise fun a b => a.seq.toNat < b.seq.toNat := by
    rw [kept, pairwise_map]
    refine (st.db.records_sorted.filter _).imp_of_mem fun hx hy hlt => ?_
    obtain ⟨hx, hkx⟩ := mem_filter.mp hx
    obtain ⟨hy, hky⟩ := mem_filter.mp hy
    exact h.ordered _ hx _ hy hkx hky hlt
  refine ⟨_, scanStream_eq h.decodes t stream req, ?_, ?_, fun i r hr => ?_⟩
  · rw [flatMap_pages req.pageSize_pos, he]
  · rwa [flatMap_pages req.pageSize_pos]
  obtain ⟨front, a, rest, hs, hn, ht⟩ := split_of_page req.pageSize_pos hr
  refine ⟨_, scanStream_eq h.decodes t stream _, ?_⟩
  rw [ht, flatMap_pages (ScanRequest.pageSize_pos _)]
  obtain ⟨x, hx, hk, rfl⟩ := mem_kept.mp (hs ▸ mem_append_right front mem_cons_self)
  rw [Nat.mod_eq_of_lt (h.last x hx hk)] at hn
  rw [hs] at ho
  rw [← filter_behind ho, ← hs, kept, kept, filter_map, filter_filter]
  refine congrArg _ (filter_congr fun y _ => ?_)
  rw [Bool.eq_iff_iff]
  simp only [ScanRequest.keeps, decide_eq_true_eq, Bool.and_eq_true, comp_apply, hn] at hk ⊢
  constructor
  · exact fun hy => ⟨hy.2.1, hy.1, by omega, hy.2.2⟩
  · exact fun hy => ⟨hy.2.1, hy.1, hy.2.2.2⟩

end

/-- The first record of a stream came to the second shard and the second one to the first shard. -/
def crossedDb : Engine 2 :=
  .ofContents (fun s => [bareContent 1 (if s = 0 then 2 else 1)]) two_le_256 (by decide)

/-- The record behind the upper bound is sent, and without a bound it comes before the other one. -/
theorem crossed_not_pagesExact : ¬ PagesExact ⟨crossedDb, ∅, ∅⟩ .new 1 ⟨1, 1, 1⟩ ∧
      ¬ PagesExact ⟨crossedDb, ∅, ∅⟩ .new 1 ⟨1, 0, 1⟩ := by
  have hb : ∀ (s : Fin 2) i, crossedDb.stored s i = [bareContent 1 (if s = 0 then 2 else 1)][i]? :=
    stored_ofContents
  have hd : (gidOf (0 : Fin 2) 0, ⟨bareEnvelope 1 2, 0⟩) ∈ crossedDb.records :=
    mem_records.mpr ⟨0, 0, _, hb 0 0, rfl,
      decodeAt_eq_ok.mpr ⟨_, decodeRecord_bareContent 1 2, rfl⟩⟩
  have hf : (gidOf (1 : Fin 2) 0, ⟨bareEnvelope 1 1, 1⟩) ∈ crossedDb.records :=
    mem_records.mpr ⟨1, 0, _, hb 1 0, rfl,
      decodeAt_eq_ok.mpr ⟨_, decodeRecord_bareContent 1 1, rfl⟩⟩
  constructor
  · exact fun h => absurd ((pageable_of_pagesExact h).upTo _ hd rfl) (by decide)
  · exact fun h => absurd ((pageable_of_pagesExact h).ordered _ hd _ hf rfl rfl
      (by decide)) (by decide)

end LogDb.Daemon
