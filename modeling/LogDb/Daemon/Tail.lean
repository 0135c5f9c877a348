import LogDb.Daemon.Appends
import LogDb.Daemon.Quota
import LogDb.Lib.Forall2

/-!
`run_tail_loop`: a Tail collects the ids of its stream from the map, reads those that are durable,
drops deleted records and sends the rest. Appends, commits and deletions go on between its steps.
-/

namespace LogDb.Daemon

open Lib Format List Engine SortedMap

variable {entries : List (ℕ × ℕ)} {m : SeqMap} {α : Type*} {gid last limit n : ℕ}

/-- The arguments of one Tail. No shard ids stand for all shards. -/
structure TailRequest where
  stream : UInt64
  fromSeq : ℕ
  shardIds : List ℕ
  batchSize : ℕ
  batch_pos : 0 < batchSize

def TailRequest.wantsShard (req : TailRequest) (shard : ℕ) : Bool :=
  req.shardIds.isEmpty || req.shardIds.contains shard

/-- The entries of the map that `scan_stream_filtered` takes. -/
def SeqMap.collect (m : SeqMap) (n : ℕ) (req : TailRequest) (fromSeq limit : ℕ) : List (ℕ × ℕ) :=
  ((((m.lookup req.stream).getD ∅).rangeFrom fromSeq).filter fun e =>
    req.wantsShard (splitGid n e.2).1).take limit

def durableAt (durable : Fin n → ℕ) (gid : ℕ) : Bool :=
  if h : (splitGid n gid).1 < n then (splitGid n gid).2 < durable ⟨(splitGid n gid).1, h⟩ else false

/-- `LogDb::read_batch` with the cursors it has loaded. What is not durable is left out. -/
def Engine.readBatch (db : Engine n) (durable : Fin n → ℕ) (gids : List ℕ) :
    List (ℕ × Bytes) :=
  gids.filterMap fun gid =>
    if durableAt durable gid then (db.read gid).map fun content => (gid, content) else none

def Engine.finds (db : Engine n) (durable : Fin n → ℕ) (gid : ℕ) : Bool :=
  durableAt durable gid && db.reaches gid gid

/-- The second half of `scan_stream_filtered`. -/
def Engine.readRecords (db : Engine n) (durable : Fin n → ℕ) (gids : List ℕ) :
    Except StorageError (List DecodedRecord) :=
  (db.readBatch durable gids).mapM fun r => decodeAt n r.1 r.2

inductive TailPhase where
  | idle
  | collected (gids : List ℕ)
  | checking (all rest kept : List DecodedRecord)
  | stopped

/-- One Tail among the writers. `sent` has the number of every record that was sent, and the cutoff
of the stream at that moment. -/
structure TailState (n : ℕ) where
  writers : Writers n
  tombstones : TombstoneTracker
  phase : TailPhase
  lastSeq : ℕ
  sent : List (ℕ × ℕ)

inductive TailEvent (n : ℕ) where
  | write (ev : WriteEvent n)
  | tombstone (stream : UInt64) (seq : ℕ)
  | collect
  | read (durable : Fin n → ℕ)
  | check
  | deliver
  | skip
  | stop

namespace TailState

variable {n : ℕ} (st : TailState n) (req : TailRequest)

def cutoff : ℕ := st.tombstones.cutoff req.stream

def seqs : List ℕ := st.sent.map Prod.fst

def start (db : Engine n) (tombstones : TombstoneTracker) : TailState n :=
  ⟨Writers.start db, tombstones, .idle, req.fromSeq, []⟩

end TailState

inductive TailTrans {n : ℕ} (req : TailRequest) : TailState n → TailEvent n → TailState n → Prop
  | write {st ev writers} (htrans : WriteTrans st.writers ev writers) :
    TailTrans req st (.write ev) { st with writers }
  /- A deletion, or the publisher that comes across its record. -/
  | tombstone {st stream seq} :
    TailTrans req st (.tombstone stream seq)
      { st with tombstones := st.tombstones.record stream seq }
  | collect {st} (hphase : st.phase = .idle) :
    TailTrans req st .collect
      { st with
        phase := .collected ((st.writers.storage.seqMap.collect n req st.lastSeq
          (req.batchSize * 4)).map Prod.snd) }
  /- The cursors of the shards are loaded one by one; some may have moved on since. -/
  | read {st durable gids all} (hphase : st.phase = .collected gids)
    (hdurable : ∀ s, durable s ≤ st.writers.storage.db.durable s)
    (hread : st.writers.storage.db.readRecords durable gids = .ok all) :
    TailTrans req st (.read durable) { st with phase := .checking all all [] }
  | readError {st durable gids e} (hphase : st.phase = .collected gids)
    (hdurable : ∀ s, durable s ≤ st.writers.storage.db.durable s)
    (hread : st.writers.storage.db.readRecords durable gids = .error e) :
    TailTrans req st (.read durable) { st with phase := .stopped }
  | check {st all r rest kept} (hphase : st.phase = .checking all (r :: rest) kept)
    (hroom : kept.length < req.batchSize) :
    TailTrans req st .check
      { st with
        phase := .checking all rest
          (if st.tombstones.isLive req.stream r.seq.toNat then kept ++ [r] else kept) }
  | deliver {st all rest kept} (hphase : st.phase = .checking all rest kept)
    (hdone : rest = [] ∨ kept.length = req.batchSize) (hkept : kept ≠ []) :
    TailTrans req st .deliver
      { st with
        phase := .idle
        lastSeq := (kept.getLast hkept).seq.toNat + 1
        sent := st.sent ++ kept.map fun r => (r.seq.toNat, st.cutoff req) }
  /- All records of the scan are deleted; they are not read again. -/
  | skip {st all} (hphase : st.phase = .checking all [] []) :
    TailTrans req st .skip
      { st with
        phase := .idle
        lastSeq := (all.getLast?.map fun r => r.seq.toNat + 1).getD st.lastSeq }
  | stop {st} : TailTrans req st .stop { st with phase := .stopped }

/-- No call in flight has a smaller number than an entry that the Tail collects, and of the entries
it reads it finds the first ones. -/
def TailEvent.InOrder (req : TailRequest) (st : TailState n) : TailEvent n → Prop
  | .write ev => ev.InRange st.writers
  | .collect => ∀ c seq mapped gid, (st.writers.calls c).key = some (req.stream, seq) →
    st.lastSeq ≤ seq → st.writers.storage.seqMap.gidAt req.stream mapped = some gid → mapped < seq
  | .read durable => ∀ gids, st.phase = .collected gids →
    gids.Pairwise fun a b => st.writers.storage.db.finds durable b →
      st.writers.storage.db.finds durable a
  | _ => True

/-- Numbers fit into 64 bits; the order is arbitrary. -/
def TailEvent.InRange (st : TailState n) : TailEvent n → Prop
  | .write ev => ev.InRange st.writers
  | _ => True

def TailReachable (req : TailRequest) (ok : TailState n → TailEvent n → Prop)
    (start st : TailState n) : Prop :=
  Relation.ReflTransGen (fun a b => ∃ ev, ok a ev ∧ TailTrans req a ev b) start st

/-! ## What lies behind the Tail -/

/-- All records of the stream that were ever given a number below `last`, are wanted and are not
below the cutoff are in the log already, and in `found`. -/
def Writers.Clear (w : Writers n) (req : TailRequest) (cut : ℕ) (found : List ℕ)
    (last : ℕ) : Prop :=
  ∀ t, req.fromSeq ≤ t → t < last → cut < t →
    t < w.next req.stream ∧ (∀ c, (w.calls c).key ≠ some (req.stream, t)) ∧
      ∀ s i, w.InLog s i req.stream t → req.wantsShard s → t ∈ found

section

variable {n : ℕ} {w w' : Writers n} {req : TailRequest}

theorem Writers.StepShape.refl (w : Writers n) : w.StepShape w :=
  ⟨fun _ => le_rfl, fun _ _ _ hk => .inl hk, fun _ _ _ hg => hg, fun _ _ _ _ hl => .inl hl⟩

variable {cut last : ℕ} {found : List ℕ}

/-- Numbers that are handed out later are greater. -/
theorem Writers.Clear.step (h : w.Clear req cut found last) (hs : w.StepShape w') :
    w'.Clear req cut found last := by
  intro t hf hls hu
  obtain ⟨hx, hk, hl⟩ := h t hf hls hu
  refine ⟨hx.trans_le (hs.next_le _), ?_, ?_⟩
  · intro c hc
    rcases hs.key c _ _ hc with ho | rfl
    · exact hk c ho
    · exact absurd hx (lt_irrefl _)
  · intro s i hn hw
    rcases hs.inLog s i _ _ hn with ho | ⟨c, hc⟩
    · exact hl s i ho hw
    · exact absurd hc (hk c)

theorem Writers.Clear.mono {cut' : ℕ} {found' : List ℕ} (h : w.Clear req cut found last)
    (hc : cut ≤ cut') (hf : ∀ t ∈ found, t < last → cut' < t → t ∈ found') :
    w.Clear req cut' found' last := by
  intro t hm hs ht
  obtain ⟨hn, hk, hl⟩ := h t hm hs (hc.trans_lt ht)
  exact ⟨hn, hk, fun s i hi hw => hf t (hl s i hi hw) hs ht⟩

theorem Writers.Clear.succ (hi : WritersInv w) (h : w.Clear req cut found last)
    (hm : w.storage.seqMap.gidAt req.stream last = some gid)
    (hl : cut < last → last ∈ found) : w.Clear req cut found (last + 1) := by
  intro t hf ht hu
  rcases lt_or_eq_of_le (Nat.le_of_lt_succ ht) with hlt | rfl
  · exact h t hf hlt hu
  · refine ⟨hi.mapped_lt _ _ _ hm, ?_, fun _ _ _ _ => hl hu⟩
    intro c hc
    rw [hi.unmapped c _ _ hc] at hm
    cases hm

end

/-- Records in the hands of the Tail. -/
structure TailState.Pending {n : ℕ} (req : TailRequest) (st : TailState n) (found : List ℕ) :
    Prop where
  sorted : found.Pairwise (· < ·)
  ge : ∀ u ∈ found, st.lastSeq ≤ u
  mapped : ∀ u ∈ found, ∃ gid, st.writers.storage.seqMap.gidAt req.stream u = some gid
  clear : ∀ u ∈ found, st.writers.Clear req (st.cutoff req) (st.seqs ++ found) u

def TailState.PhaseInv (req : TailRequest) (st : TailState n) : TailPhase → Prop
  | .collected gids => ∃ entries : List (ℕ × ℕ), gids = entries.map Prod.snd ∧
    st.Pending req (entries.map Prod.fst) ∧
    ∀ e ∈ entries, st.writers.storage.seqMap.gidAt req.stream e.1 = some e.2
  | .checking all rest kept => st.Pending req (all.map fun r => r.seq.toNat) ∧
    ∃ done, all = done ++ rest ∧ kept.Sublist done ∧
      ∀ r ∈ done, r ∈ kept ∨ r.seq.toNat ≤ st.cutoff req
  | _ => True

structure TailInv {n : ℕ} (req : TailRequest) (st : TailState n) : Prop where
  writers : WritersInv st.writers
  from_le : req.fromSeq ≤ st.lastSeq
  clear : st.writers.Clear req (st.cutoff req) st.seqs st.lastSeq
  ascending : st.seqs.Pairwise (· < ·)
  sent_lt : ∀ t ∈ st.seqs, t < st.lastSeq
  sent_clear : ∀ before x after, st.sent = before ++ x :: after →
    st.writers.Clear req x.2 (before.map Prod.fst) x.1
  phase : st.PhaseInv req st.phase

/-! ## Reading -/

section

variable {n : ℕ} {w : Writers n} {stream : UInt64} {durable : Fin n → ℕ} {req : TailRequest}

theorem WritersInv.read_mapped (h : WritersInv w) {seq : ℕ}
    (hm : w.storage.seqMap.gidAt stream seq = some gid)
    (hd : ∀ s, durable s ≤ w.storage.db.durable s) (ha : w.storage.db.finds durable gid) :
    ∃ content, w.storage.db.read gid = some content ∧ Carries content stream seq := by
  obtain ⟨s, i, ⟨hi, content, ht, hc⟩, rfl⟩ := h.mapped stream seq gid hm
  have hl := (List.getElem?_eq_some_iff.mp ht).1
  have hs := w.storage.db.splitGid_gidOf hl.le
  obtain ⟨ha, hr⟩ := Bool.and_eq_true_iff.mp ha
  unfold durableAt at ha
  unfold Engine.read
  rw [hs] at ha ⊢
  simp only [Fin.is_lt, Fin.eta, dite_true, decide_eq_true_eq] at ha ⊢
  have hlt := ha.trans_le (hd s)
  have hw := hlt.trans_le ((w.storage.db.durable_le s).trans (w.storage.db.committed_le s))
  exact ⟨content, by rw [if_neg hlt.not_ge, if_pos hr, Engine.stored, if_pos ⟨hi, hw⟩, ht], hc⟩

/-- The scan has the records of the entries that are durable and reached. -/
theorem WritersInv.seqs_readRecords (h : WritersInv w) {all : List DecodedRecord}
    (hm : ∀ e ∈ entries, w.storage.seqMap.gidAt stream e.1 = some e.2)
    (hu : ∀ s, durable s ≤ w.storage.db.durable s)
    (hr : w.storage.db.readRecords durable (entries.map Prod.snd) = .ok all) :
    all.map (fun r => r.seq.toNat) =
      (entries.filter fun e => w.storage.db.finds durable e.2).map Prod.fst := by
  have ha := mapM_eq_ok_iff.mp hr
  clear hr
  induction entries generalizing all with
  | nil =>
    cases ha
    rfl
  | cons e entries ih =>
    have hl := fun e' he' => hm e' (mem_cons_of_mem e he')
    unfold readBatch at ha
    rw [map_cons, filterMap_cons] at ha
    by_cases ht : w.storage.db.finds durable e.2
    · obtain ⟨content, hct, hc⟩ := h.read_mapped (hm e mem_cons_self) hu ht
      simp only [if_pos (Bool.and_eq_true_iff.mp ht).1, hct, Option.map_some] at ha
      cases ha with
      | cons ha' hrt =>
        obtain ⟨d, hd, rfl⟩ := decodeAt_eq_ok.mp ha'
        obtain ⟨-, hq⟩ := hc.decoded hd
        rw [filter_cons, if_pos ht, map_cons, map_cons, ih hl hrt]
        exact congrArg (· :: _) hq
    · have hn : durableAt durable e.2 → w.storage.db.read e.2 = none := by
        intro hd
        simp [Engine.read, show w.storage.db.reaches e.2 e.2 = false by simpa [finds, hd] using ht]
      rw [filter_cons, if_neg ht]
      by_cases hd : durableAt durable e.2
      · simp only [if_pos hd, hn hd, Option.map_none] at ha
        exact ih hl ha
      · simp only [if_neg hd] at ha
        exact ih hl ha

theorem SeqMap.mem_collect_of_lt {t u gid' : ℕ} (hu : (u, gid') ∈ m.collect n req last limit)
    (htu : t < u) (hls : last ≤ t) (hm : m.gidAt req.stream t = some gid)
    (hw : req.wantsShard (splitGid n gid).1) : (t, gid) ∈ m.collect n req last limit := by
  unfold collect at hu ⊢
  set es := (((m.lookup req.stream).getD ∅).rangeFrom last).filter fun e =>
    req.wantsShard (splitGid n e.2).1 with he
  have hs : es.Pairwise fun a b => a.1 < b.1 := (rangeFrom_sorted _ _).filter _
  have ha : (t, gid) ∈ es := by
    rw [he, mem_filter, mem_rangeFrom]
    refine ⟨⟨?_, hls⟩, hw⟩
    unfold gidAt at hm
    cases hl : m.lookup req.stream with
    | none =>
      rw [hl] at hm
      cases hm
    | some seqs =>
      rw [hl] at hm
      exact (lookup_eq_some_iff _).mp hm
  -- an entry that is cut off by the limit comes after those that are not
  rcases mem_append.mp ((take_append_drop limit es).symm ▸ ha) with ht | hd
  · exact ht
  · rw [← take_append_drop limit es, pairwise_append] at hs
    exact absurd (hs.2.2 _ hu _ hd) (lt_asymm htu)

theorem SeqMap.of_mem_collect {e : ℕ × ℕ} (he : e ∈ m.collect n req last limit) :
    m.gidAt req.stream e.1 = some e.2 ∧ last ≤ e.1 := by
  have hm := (mem_filter.mp (mem_of_mem_take he)).1
  obtain ⟨hn, hle⟩ := (mem_rangeFrom _).mp hm
  refine ⟨?_, hle⟩
  unfold gidAt
  cases hl : m.lookup req.stream with
  | none =>
    rw [hl] at hn
    cases hn
  | some seqs =>
    rw [hl] at hn
    exact (lookup_eq_some_iff _).mpr hn

end

/-! ## The steps of the Tail -/

theorem append_eq_append_cons {xs ys before after : List α} {x : α}
    (h : xs ++ ys = before ++ x :: after) :
    (∃ mid, xs = before ++ x :: mid) ∨ ∃ mid, before = xs ++ mid ∧ ys = mid ++ x :: after := by
  rcases append_eq_append_iff.mp h with ⟨mid, rfl, hm⟩ | ⟨mid, rfl, hm⟩
  · exact .inr ⟨mid, rfl, hm⟩
  · cases mid with
    | nil => exact .inr ⟨[], by simp, hm.symm⟩
    | cons y mid =>
      obtain ⟨rfl, -⟩ := cons.inj hm
      exact .inl ⟨mid, rfl⟩

theorem mem_left_of_lt {f : α → ℕ} {xs ys : List α} {x y : α}
    (hs : ((xs ++ ys).map f).Pairwise (· < ·)) (hy : y ∈ xs ++ ys) (hx : x ∈ xs)
    (hlt : f y < f x) : y ∈ xs := by
  rcases mem_append.mp hy with hl | hr
  · exact hl
  · rw [map_append, pairwise_append] at hs
    exact absurd hlt (lt_asymm (hs.2.2 _ (mem_map_of_mem hx) _ (mem_map_of_mem hr)))

/-- What changes around the Tail while it does nothing. -/
structure TailState.Around {n : ℕ} (req : TailRequest) (st st' : TailState n) : Prop where
  shape : st.writers.StepShape st'.writers
  cutoff_le : st.cutoff req ≤ st'.cutoff req
  phase : st'.phase = st.phase
  lastSeq : st'.lastSeq = st.lastSeq
  sent : st'.sent = st.sent

section

variable {n : ℕ} {req : TailRequest} {st st' : TailState n}

theorem TailState.Pending.around {found : List ℕ} (h : st.Pending req found)
    (ha : st.Around req st') : st'.Pending req found where
  sorted := h.sorted
  ge := by
    rw [ha.lastSeq]
    exact h.ge
  mapped := by
    intro u hu
    obtain ⟨gid, hg⟩ := h.mapped u hu
    exact ⟨gid, ha.shape.gidAt _ _ _ hg⟩
  clear := by
    intro u hu
    rw [TailState.seqs, ha.sent]
    exact ((h.clear u hu).step ha.shape).mono ha.cutoff_le fun t ht _ _ => ht

namespace TailInv

theorem around (h : TailInv req st) (hw : WritersInv st'.writers)
    (har : st.Around req st') : TailInv req st' where
  writers := hw
  from_le := by
    rw [har.lastSeq]
    exact h.from_le
  clear := by
    rw [TailState.seqs, har.sent, har.lastSeq]
    exact (h.clear.step har.shape).mono har.cutoff_le fun t ht _ _ => ht
  ascending := by
    rw [TailState.seqs, har.sent]
    exact h.ascending
  sent_lt := by
    rw [TailState.seqs, har.sent, har.lastSeq]
    exact h.sent_lt
  sent_clear := by
    rw [har.sent]
    exact fun before x after hs => (h.sent_clear before x after hs).step har.shape
  phase := by
    have hp := h.phase
    rw [har.phase]
    cases hc : st.phase with
    | idle => trivial
    | stopped => trivial
    | collected gids =>
      rw [hc] at hp
      obtain ⟨entries, hg, hn, hm⟩ := hp
      exact ⟨entries, hg, hn.around har, fun e he => har.shape.gidAt _ _ _ (hm e he)⟩
    | checking all rest kept =>
      rw [hc] at hp
      obtain ⟨hn, done, ha, hk, hd⟩ := hp
      exact ⟨hn.around har, done, ha, hk,
        fun r hr => (hd r hr).imp_right fun hle => hle.trans har.cutoff_le⟩

theorem setPhase (h : TailInv req st) {phase : TailPhase} (hh : st.PhaseInv req phase) :
    TailInv req { st with phase } where
  writers := h.writers
  from_le := h.from_le
  clear := h.clear
  ascending := h.ascending
  sent_lt := h.sent_lt
  sent_clear := h.sent_clear
  phase := by
    cases phase with
    | idle => trivial
    | stopped => trivial
    | collected gids =>
      obtain ⟨entries, hg, hp, hm⟩ := hh
      exact ⟨entries, hg, ⟨hp.sorted, hp.ge, hp.mapped, hp.clear⟩, hm⟩
    | checking all rest kept =>
      obtain ⟨hp, hr⟩ := hh
      exact ⟨⟨hp.sorted, hp.ge, hp.mapped, hp.clear⟩, hr⟩

theorem pending_collect (h : TailInv req st) (hok : TailEvent.InOrder req st .collect) (limit : ℕ) :
    st.Pending req ((st.writers.storage.seqMap.collect n req st.lastSeq limit).map Prod.fst) := by
  refine ⟨pairwise_map.mpr (((rangeFrom_sorted _ _).filter _).sublist (take_sublist _ _)), ?_, ?_, ?_⟩
  · intro u hu
    obtain ⟨e, he, rfl⟩ := mem_map.mp hu
    exact (SeqMap.of_mem_collect he).2
  · intro u hu
    obtain ⟨e, he, rfl⟩ := mem_map.mp hu
    exact ⟨e.2, (SeqMap.of_mem_collect he).1⟩
  · intro u hu t hf ht hb
    obtain ⟨e, he, rfl⟩ := mem_map.mp hu
    have hm := (SeqMap.of_mem_collect he).1
    by_cases hls : t < st.lastSeq
    · obtain ⟨hn, hk, hl⟩ := h.clear t hf hls hb
      exact ⟨hn, hk, fun s i hi hw => mem_append_left _ (hl s i hi hw)⟩
    · have hge := not_lt.mp hls
      have hfe : ∀ c, (st.writers.calls c).key ≠ some (req.stream, t) :=
        fun c hc => lt_asymm ht (hok c t e.1 e.2 hc hge hm)
      refine ⟨ht.trans (h.writers.mapped_lt _ _ _ hm), hfe, ?_⟩
      intro s i hi hw
      rcases h.writers.found s i _ _ hi with hg | ⟨c, hc⟩
      · obtain ⟨-, content, hct, -⟩ := hi
        have hs := st.writers.storage.db.splitGid_gidOf (List.getElem?_eq_some_iff.mp hct).1.le
        have ha := SeqMap.mem_collect_of_lt he ht hge hg (by rw [hs]; exact hw)
        exact mem_append_right _ (mem_map_of_mem ha)
      · exact absurd (by rw [hc]; rfl) (hfe c)

variable {all rest kept : List DecodedRecord} {r : DecodedRecord}

theorem pending_read (h : TailInv req st) {durable : Fin n → ℕ}
    (hp : st.Pending req (entries.map Prod.fst))
    (hm : ∀ e ∈ entries, st.writers.storage.seqMap.gidAt req.stream e.1 = some e.2)
    (hd : ∀ s, durable s ≤ st.writers.storage.db.durable s)
    (ho : (entries.map Prod.snd).Pairwise fun a b => st.writers.storage.db.finds durable b →
      st.writers.storage.db.finds durable a)
    (hr : st.writers.storage.db.readRecords durable (entries.map Prod.snd) = .ok all) :
    st.Pending req (all.map fun r => r.seq.toNat) := by
  rw [h.writers.seqs_readRecords hm hd hr]
  set found := st.writers.storage.db.finds durable
  have hs : ((entries.filter fun e => found e.2).map Prod.fst).Sublist
      (entries.map Prod.fst) := filter_sublist.map _
  refine ⟨hp.sorted.sublist hs, fun u hu => hp.ge u (hs.subset hu),
    fun u hu => hp.mapped u (hs.subset hu), ?_⟩
  intro u hu
  refine (hp.clear u (hs.subset hu)).mono le_rfl ?_
  intro t ht htu _
  rcases mem_append.mp ht with hn | hf
  · exact mem_append_left _ hn
  · -- a smaller entry comes first, so it is found too
    obtain ⟨e, he, rfl⟩ := mem_map.mp hu
    obtain ⟨he, ha⟩ := mem_filter.mp he
    obtain ⟨e', he', rfl⟩ := mem_map.mp hf
    have hb : entries.Pairwise fun a b =>
        a.1 < b.1 ∧ (found b.2 → found a.2) :=
      (pairwise_map.mp hp.sorted).and (pairwise_map.mp ho)
    have hat : found e'.2 := by
      obtain ⟨i, hi, rfl⟩ := mem_iff_getElem.mp he
      obtain ⟨j, hj, rfl⟩ := mem_iff_getElem.mp he'
      rw [pairwise_iff_getElem] at hb
      rcases lt_trichotomy i j with hij | rfl | hji
      · exact absurd (hb i j hi hj hij).1 (lt_asymm htu)
      · exact ha
      · exact (hb j i hj hi hji).2 ha
    exact mem_append_right _ (mem_map_of_mem (mem_filter.mpr ⟨he', hat⟩))

theorem clear_kept {done : List DecodedRecord}
    (hp : st.Pending req (all.map fun r => r.seq.toNat)) (ha : all = done ++ rest)
    (hd : ∀ r ∈ done, r ∈ kept ∨ r.seq.toNat ≤ st.cutoff req) (hr : r ∈ done) :
    st.writers.Clear req (st.cutoff req) (st.seqs ++ kept.map fun r => r.seq.toNat)
      r.seq.toNat := by
  subst ha
  refine (hp.clear _ (mem_map_of_mem (mem_append_left _ hr))).mono le_rfl ?_
  intro t ht htr hc
  rcases mem_append.mp ht with hs | hf
  · exact mem_append_left _ hs
  · obtain ⟨r', hr', rfl⟩ := mem_map.mp hf
    have hm := mem_left_of_lt hp.sorted hr' hr htr
    have hk := (hd r' hm).resolve_right hc.not_ge
    exact mem_append_right _ (mem_map_of_mem hk)

section

variable (h : TailInv req st)
include h

theorem check (hh : st.phase = .checking all (r :: rest) kept) : st.PhaseInv req (.checking all rest
      (if st.tombstones.isLive req.stream r.seq.toNat then kept ++ [r] else kept)) := by
  have hi := h.phase
  rw [hh] at hi
  obtain ⟨hp, done, ha, hk, hd⟩ := hi
  refine ⟨hp, done ++ [r], by rw [ha, append_assoc]; rfl, ?_, ?_⟩
  · split_ifs
    · exact hk.append_right _
    · exact hk.trans (sublist_append_left _ _)
  · intro r' hr'
    rcases mem_append.mp hr' with ho | hn
    · refine (hd r' ho).imp_left fun hm => ?_
      split_ifs
      · exact mem_append_left _ hm
      · exact hm
    · obtain rfl := mem_singleton.mp hn
      split_ifs with hl
      · exact .inl (mem_append_right _ mem_cons_self)
      · exact .inr (not_lt.mp fun hlt => hl (decide_eq_true hlt))

theorem deliver (hh : st.phase = .checking all rest kept) (hne : kept ≠ []) : TailInv req { st with
      phase := .idle
      lastSeq := (kept.getLast hne).seq.toNat + 1
      sent := st.sent ++ kept.map fun r => (r.seq.toNat, st.cutoff req) } := by
  have hi := h.phase
  rw [hh] at hi
  obtain ⟨hp, done, ha, hk, hdo⟩ := hi
  have hc := fun r hr => clear_kept hp ha hdo (r := r) (hk.subset hr)
  have hss : (st.sent ++ kept.map fun r => (r.seq.toNat, st.cutoff req)).map Prod.fst =
      st.seqs ++ kept.map fun r => r.seq.toNat := by
    rw [map_append, map_map]
    rfl
  have hs : (kept.map fun r => r.seq.toNat).Sublist (all.map fun r => r.seq.toNat) := by
    rw [ha]
    exact (hk.trans (sublist_append_left _ _)).map _
  have hso : (kept.map fun r => r.seq.toNat).Pairwise (· < ·) := hp.sorted.sublist hs
  have hge : ∀ r ∈ kept, st.lastSeq ≤ r.seq.toNat :=
    fun r hr => hp.ge _ (hs.subset (mem_map_of_mem hr))
  have hl : ∀ r ∈ kept, r.seq.toNat ≤ (kept.getLast hne).seq.toNat := by
    intro r hr
    rw [← dropLast_append_getLast hne] at hr hso
    rcases mem_append.mp hr with hf | he
    · rw [map_append, pairwise_append] at hso
      exact (hso.2.2 _ (mem_map_of_mem hf) _ (by simp)).le
    · rw [mem_singleton.mp he]
  have hgt := hge _ (getLast_mem hne)
  refine ⟨h.writers, ?_, ?_, ?_, ?_, ?_, trivial⟩
  · exact h.from_le.trans (hgt.trans (Nat.le_succ _))
  · unfold TailState.seqs
    rw [hss]
    obtain ⟨gid, hg⟩ := hp.mapped _ (hs.subset (mem_map_of_mem (getLast_mem hne)))
    exact (hc _ (getLast_mem hne)).succ h.writers hg
      fun _ => mem_append_right _ (mem_map_of_mem (getLast_mem hne))
  · unfold TailState.seqs
    rw [hss]
    refine pairwise_append.mpr ⟨h.ascending, hso, ?_⟩
    intro t ht u hu
    obtain ⟨r, hr, rfl⟩ := mem_map.mp hu
    exact (h.sent_lt t ht).trans_le (hge r hr)
  · unfold TailState.seqs
    rw [hss]
    intro t ht
    rcases mem_append.mp ht with hsn | hn
    · exact (h.sent_lt t hsn).trans_le (hgt.trans (Nat.le_succ _))
    · obtain ⟨r, hr, rfl⟩ := mem_map.mp hn
      exact Nat.lt_succ_of_le (hl r hr)
  · intro before x after hsn
    rcases append_eq_append_cons hsn with ⟨mid, ho⟩ | ⟨mid, rfl, hd⟩
    · exact h.sent_clear before x mid ho
    · -- the record is one of those just kept
      obtain ⟨front, back, rfl, hf, hb⟩ := map_eq_append_iff.mp hd
      obtain ⟨r, later, rfl, rfl, -⟩ := map_eq_cons_iff.mp hb
      refine (hc r (by simp)).mono le_rfl ?_
      intro t ht htr _
      rw [map_append, ← hf, map_map]
      rcases mem_append.mp ht with hsn | hn
      · exact mem_append_left _ hsn
      · obtain ⟨r', hr', rfl⟩ := mem_map.mp hn
        rw [append_cons] at hso hr'
        have hm := mem_left_of_lt hso hr' (by simp) htr
        rcases mem_append.mp hm with hm | hm
        · exact mem_append_right _ (mem_map_of_mem hm)
        · rw [mem_singleton.mp hm] at htr
          exact absurd htr (lt_irrefl _)

theorem skip (hh : st.phase = .checking all [] []) : TailInv req { st with
      phase := .idle
      lastSeq := (all.getLast?.map fun r => r.seq.toNat + 1).getD st.lastSeq } := by
  have hi := h.phase
  rw [hh] at hi
  obtain ⟨hp, done, ha, -, hd⟩ := hi
  cases hl : all.getLast? with
  | none => exact h.setPhase trivial
  | some r =>
    have hr : r ∈ all := mem_of_getLast? hl
    have he : r ∈ done := by
      rw [ha, append_nil] at hr
      exact hr
    have hge := hp.ge _ (mem_map_of_mem hr)
    obtain ⟨gid, hg⟩ := hp.mapped _ (mem_map_of_mem hr)
    have hb : r.seq.toNat ≤ st.cutoff req := (hd r he).resolve_left not_mem_nil
    have hc := clear_kept hp ha hd he
    rw [map_nil, append_nil] at hc
    exact ⟨h.writers, h.from_le.trans (hge.trans (Nat.le_succ _)),
      hc.succ h.writers hg fun hlt => absurd hlt hb.not_gt, h.ascending,
      fun t ht => (h.sent_lt t ht).trans_le (hge.trans (Nat.le_succ _)), h.sent_clear, trivial⟩

theorem step {ev : TailEvent n} (hok : ev.InOrder req st)
    (ht : TailTrans req st ev st') : TailInv req st' := by
  cases ht with
  | write ht =>
    exact h.around (h.writers.step hok ht) ⟨h.writers.shape hok ht, le_rfl, rfl, rfl, rfl⟩
  | @tombstone stream seq =>
    refine h.around h.writers ⟨.refl _, ?_, rfl, rfl, rfl⟩
    unfold TailState.cutoff
    rw [TombstoneTracker.cutoff_record]
    split_ifs
    · exact le_max_left _ _
    · exact le_rfl
  | collect hp =>
    exact h.setPhase ⟨_, rfl, h.pending_collect hok _, fun e he => (SeqMap.of_mem_collect he).1⟩
  | read hp hd hrd =>
    have hi := h.phase
    rw [hp] at hi
    obtain ⟨entries, rfl, hn, hm⟩ := hi
    refine h.setPhase ⟨h.pending_read hn hm hd (hok _ hp) hrd, [], rfl, .refl _, ?_⟩
    exact fun r hr => absurd hr not_mem_nil
  | readError hp hd hrd => exact h.setPhase trivial
  | check hp hrm => exact h.setPhase (h.check hp)
  | deliver hp ho hk => exact h.deliver hp hk
  | skip hp => exact h.skip hp
  | stop => exact h.setPhase trivial

end

theorem start {db : Engine n} (hw : db.FromAppends)
    (hfs : ∀ s, db.written s = (db.contents s).length) (hex : (Storage.new db).Exact)
    (tombstones : TombstoneTracker) : TailInv req (TailState.start req db tombstones) where
  writers := .start hw hfs hex
  from_le := le_rfl
  clear := fun t hf hlt => absurd hlt (not_lt.mpr hf)
  ascending := .nil
  sent_lt := fun t ht => absurd ht not_mem_nil
  sent_clear := by
    intro before x after hs
    exact absurd hs.symm (by simp [TailState.start])
  phase := trivial

theorem reachable {start : TailState n} (hs : TailInv req start)
    (hr : TailReachable req (fun st ev => ev.InOrder req st) start st) : TailInv req st :=
  invariant_of_steps hr hs fun _ _ h ⟨_, hok, ht⟩ => h.step hok ht

end TailInv

end

/-- In every run on a log that the map of the daemon covers, in which the Tail collects its ids while
no call is in flight with a smaller number and finds no record behind one that it does not find, the
numbers it sends ascend. When it has sent a record, every record of the stream that is wanted,
was not deleted then and has a smaller number that is not below the start was sent before, also if
it came into the log afterwards. -/
theorem tail_delivers_without_gaps {n : ℕ} {req : TailRequest} {db : Engine n}
    {tombstones : TombstoneTracker} {st : TailState n} (hwritten : db.FromAppends)
    (hfiles : ∀ s, db.written s = (db.contents s).length) (hexact : (Storage.new db).Exact)
    (hreach : TailReachable req (fun st ev => ev.InOrder req st)
      (TailState.start req db tombstones) st) :
    st.seqs.Pairwise (· < ·) ∧
      ∀ before seq cutoff after, st.sent = before ++ (seq, cutoff) :: after →
        ∀ s i t, st.writers.InLog s i req.stream t → req.wantsShard s → req.fromSeq ≤ t →
          t < seq → cutoff < t → t ∈ before.map Prod.fst := by
  have h := TailInv.reachable (.start hwritten hfiles hexact tombstones) hreach
  refine ⟨h.ascending, ?_⟩
  intro before seq cutoff after hs s i t hl hw hf hlt hc
  exact (h.sent_clear before (seq, cutoff) after hs t hf hlt hc).2.2 s i hl hw

/-! ## Runs with and without a gap -/

variable {n : ℕ} {req : TailRequest} {ok : TailState n → TailEvent n → Prop}
  {start st : TailState n}

theorem Storage.exact_new_empty (hs : n ≤ 256) :
    (Engine.empty hs).FromAppends ∧ (Storage.new (Engine.empty hs)).Exact := by
  have hn : ∀ s i, (empty hs).stored s i = none := stored_empty
  have hw : (empty hs).FromAppends := by
    intro s i content ht
    rw [hn s i] at ht
    cases ht
  obtain ⟨hds, hd⟩ := decodes_distinct_of_empty hn
  exact ⟨hw, (exact_new_iff hw).mpr ⟨hds, hd, .inl hn⟩⟩

/-- Writers go on between two steps of the Tail. -/
theorem TailReachable.writes {w : Writers n} (h : TailReachable req ok start st)
    (hok : ∀ st ev, ev.InRange st.writers → ok st (.write ev)) (hw : WriteReachable st.writers w) :
    TailReachable req ok start { st with writers := w } := by
  induction hw with
  | refl => exact h
  | tail _ hl ih =>
    obtain ⟨ev, hr, ht⟩ := hl
    exact ih.step (.write ev) (hok _ ev hr) (.write ht)

def bareRequest : AppendRequest := ⟨1, 1, "", "", ∅, 0, []⟩

def tailAll : TailRequest := ⟨1, 1, [], 2, two_pos⟩

def firstOfTwo : Storage 1 :=
  ((Storage.new (Engine.empty one_le_256)).append bareRequest (.ok 0)).2

/-- However appends have overlapped, once none is under way the map has exactly the records of the
log. -/
theorem seqMap_exact_when_idle {n : ℕ} {db : Engine n} {w : Writers n} (hw : db.FromAppends)
    (hf : ∀ s, db.written s = (db.contents s).length) (hex : (Storage.new db).Exact)
    (hr : WriteReachable (Writers.start db) w) (hi : ∀ i, w.calls i = .idle) (stream : UInt64)
    (seq gid : ℕ) : w.storage.seqMap.gidAt stream seq = some gid ↔
      ∃ s i, w.InLog s i stream seq ∧ gidOf s i = gid := by
  have h : WritersInv w := invariant_of_steps hr (.start hw hf hex) fun _ _ h ⟨_, hok, ht⟩ =>
    h.step hok ht
  constructor
  · exact h.mapped stream seq gid
  · rintro ⟨s, i, hl, rfl⟩
    rcases h.found s i stream seq hl with hg | ⟨c, hc⟩
    · exact hg
    · rw [hi] at hc
      cases hc

theorem seqMap_exact_when_idle_one : ∃ s i, Writers.InLog ⟨firstOfTwo, fun _ => .idle⟩ s i 1 1 ∧
    gidOf s i = 0 := by
  have hs := Storage.exact_new_empty one_le_256
  have ha : (Storage.new (empty one_le_256)).append bareRequest (.ok 0) =
    (.ok ⟨0, 1⟩, firstOfTwo) := rfl
  exact (seqMap_exact_when_idle hs.1 (fun _ => rfl) hs.2
    (.append ha (i := 0) rfl (show 1 + 1 < 2 ^ 64 by decide)) (fun _ => rfl) 1 1 0).mp rfl

def bothOnOne : Storage 1 :=
  (firstOfTwo.append bareRequest (.ok 0)).2

def bothSynced : Engine 1 :=
  bothOnOne.db.synced (fun _ => 2) (by decide) (by decide)

theorem tail_delivers_without_gaps_two_records :
    ∃ st : TailState 1, st.sent = [(1, 0), (2, 0)] ∧ st.seqs.Pairwise (· < ·) ∧
      ∀ s i t, st.writers.InLog s i 1 t → 1 ≤ t → t < 2 → 0 < t → t ∈ [1] := by
  have hs := Storage.exact_new_empty (show 1 ≤ 256 by decide)
  have hh : TailReachable tailAll (fun st ev => ev.InOrder tailAll st)
      (TailState.start tailAll (empty (by decide)) .new)
      ⟨⟨bothOnOne, fun _ => .idle⟩, .new, .idle, 1, []⟩ := by
    have ha₁ : (Storage.new (empty (by decide))).append bareRequest (.ok 0) =
      (.ok ⟨0, 1⟩, firstOfTwo) := rfl
    have ha₂ : firstOfTwo.append bareRequest (.ok 0) = (.ok ⟨1, 2⟩, bothOnOne) := rfl
    have hf : WriteReachable (Writers.start (empty (by decide)))
        ⟨firstOfTwo, fun _ => .idle⟩ :=
      .append ha₁ (i := 0) rfl (show 1 + 1 < 2 ^ 64 by decide)
    have hd : WriteReachable ⟨firstOfTwo, fun _ => .idle⟩ ⟨bothOnOne, fun _ => .idle⟩ :=
      .append ha₂ (i := 0) rfl (show 2 + 1 < 2 ^ 64 by decide)
    exact TailReachable.writes .refl (fun _ _ h => h) (hf.trans hd)
  have hy := hh.step (.write (.progress bothSynced)) trivial (.write (.progress
    (.synced fun _ => Nat.zero_le _)))
  have hc := hy.step .collect (fun c seq mapped gid hk => nomatch hk) (.collect rfl)
  have hr := hc.step (.read fun _ => 2)
    (by
      intro gids hp
      cases hp
      exact pairwise_pair.mpr fun _ => rfl)
    (.read rfl (fun _ => le_rfl)
      (show readRecords _ _ _ = .ok [⟨bareEnvelope 1 1, 0⟩, ⟨bareEnvelope 1 2, 0⟩] from rfl))
  have hn := hr.step .check trivial (.check rfl two_pos)
    |>.step .check trivial (.check rfl one_lt_two)
    |>.step .deliver trivial (.deliver rfl (.inl rfl) (cons_ne_nil _ _))
  obtain ⟨ha, hb⟩ := tail_delivers_without_gaps hs.1 (fun _ => rfl) hs.2 hn
  exact ⟨_, rfl, ha, fun s i t hl h1 h2 h3 =>
    hb [(1, 0)] 2 0 [] rfl s i t hl rfl h1 h2 h3⟩

def firstOnFirst : Storage 2 :=
  ((Storage.new (Engine.empty two_le_256)).append bareRequest (.ok 0)).2

def secondOnSecond : Storage 2 :=
  (firstOnFirst.append bareRequest (.ok 1)).2

def secondSynced : Engine 2 :=
  secondOnSecond.db.synced (fun s => s) (by decide) (by decide)

/-- A call has taken the first number; another one is over. -/
def secondOvertakes : Storage 1 :=
  (((Storage.new (Engine.empty one_le_256)).allocate 1).2.append bareRequest (.ok 0)).2

def overtakerSynced : Engine 1 :=
  secondOvertakes.db.synced (fun _ => 1) (by decide) (by decide)

def overtakenLogged : Engine 1 :=
  (overtakerSynced.append 0 (bareContent 1 1)).getD overtakerSynced

theorem tail_passes_unsynced_record : ∃ st : TailState 2, TailReachable tailAll TailEvent.InRange
        (TailState.start tailAll (Engine.empty (by decide)) .new) st ∧
      st.sent = [(2, 0)] ∧ st.lastSeq = 3 ∧ st.writers.InLog 0 0 1 1 := by
  have ha₁ : (Storage.new (empty (by decide))).append bareRequest (.ok 0) =
    (.ok ⟨0, 1⟩, firstOnFirst) := rfl
  have ha₂ : firstOnFirst.append bareRequest (.ok 1) = (.ok ⟨1, 2⟩, secondOnSecond) := rfl
  have hf : WriteReachable (Writers.start (empty (by decide)))
      ⟨firstOnFirst, fun _ => .idle⟩ :=
    .append ha₁ (i := 0) rfl (show 1 + 1 < 2 ^ 64 by decide)
  have hd : WriteReachable ⟨firstOnFirst, fun _ => .idle⟩ ⟨secondOnSecond, fun _ => .idle⟩ :=
    .append ha₂ (i := 0) rfl (show 2 + 1 < 2 ^ 64 by decide)
  have hb : TailReachable tailAll TailEvent.InRange
      (TailState.start tailAll (empty (by decide)) .new)
      ⟨⟨secondOnSecond, fun _ => .idle⟩, .new, .idle, 1, []⟩ :=
    TailReachable.writes .refl (fun _ _ h => h) (hf.trans hd)
  have hr := hb.step (.write (.progress secondSynced)) trivial (.write (.progress
      (.synced fun _ => Nat.zero_le _)))
    |>.step .collect trivial (.collect rfl)
    |>.step (.read secondSynced.durable) trivial (.read rfl (fun _ => le_rfl)
      (show readRecords _ _ _ = .ok [⟨bareEnvelope 1 2, 1⟩] from rfl))
  have hs := hr.step .check trivial (.check rfl two_pos)
    |>.step .deliver trivial (.deliver rfl (.inl rfl) (cons_ne_nil _ _))
  exact ⟨_, hs, rfl, rfl, Nat.zero_le _, _, rfl, _, encodeRecord_bareEnvelope 1 1, rfl, rfl⟩

theorem tail_passes_record_in_flight : ∃ st : TailState 1, TailReachable tailAll TailEvent.InRange
        (TailState.start tailAll (Engine.empty (by decide)) .new) st ∧
      st.sent = [(2, 0)] ∧ st.lastSeq = 3 ∧ st.writers.InLog 0 1 1 1 := by
  have ha : ((Storage.new (empty (by decide))).allocate 1).2.append bareRequest
    (.ok 0) = (.ok ⟨0, 2⟩, secondOvertakes) := rfl
  have ht : TailReachable tailAll TailEvent.InRange
      (TailState.start tailAll (empty (n := 1) (by decide)) .new) _ :=
    Relation.ReflTransGen.step .refl (.write (.allocate 0 bareRequest)) (show 1 + 1 < 2 ^ 64 by decide)
      (.write (.allocate rfl))
  have hd := ht.writes (fun _ _ h => h) (.append ha (i := 1) rfl (show 2 + 1 < 2 ^ 64 by decide))
  have hr := hd.step (.write (.progress overtakerSynced)) trivial (.write (.progress
      (.synced fun _ => Nat.zero_le _)))
    |>.step .collect trivial (.collect rfl)
    |>.step (.read fun _ => 1) trivial (.read rfl (fun _ => le_rfl)
      (show readRecords _ _ _ = .ok [⟨bareEnvelope 1 2, 0⟩] from rfl))
  have hs := hr.step .check trivial (.check rfl two_pos)
    |>.step .deliver trivial (.deliver rfl (.inl rfl) (cons_ne_nil _ _))
  have hl := hs.step (.write (.log 0 0)) trivial (.write (.log rfl rfl
      (show append _ 0 (bareContent 1 1) = some overtakenLogged from rfl)))
    |>.step (.write (.map 0)) trivial (.write (.map rfl))
  exact ⟨_, hl, rfl, rfl, Nat.zero_le _, _, rfl, _, encodeRecord_bareEnvelope 1 1, rfl, rfl⟩

/-- A Tail of all records from 1 on sends record 2 and goes on at 3. Record 1 is in the log, it was
not deleted, and it has not been sent. Its shard synced late, or its call was overtaken. -/
theorem tail_leaves_gap : (∃ st : TailState 2, TailReachable tailAll TailEvent.InRange
        (TailState.start tailAll (Engine.empty (by decide)) .new) st ∧
      st.sent = [(2, 0)] ∧ st.lastSeq = 3 ∧ st.writers.InLog 0 0 1 1) ∧
    ∃ st : TailState 1, TailReachable tailAll TailEvent.InRange
        (TailState.start tailAll (Engine.empty (by decide)) .new) st ∧
      st.sent = [(2, 0)] ∧ st.lastSeq = 3 ∧ st.writers.InLog 0 1 1 1 :=
  ⟨tail_passes_unsynced_record, tail_passes_record_in_flight⟩

end LogDb.Daemon
