import LogDb.Daemon.Service
import LogDb.Daemon.Written
import LogDb.Lib.Transition

/-!
Over every history of write calls the trackers in memory hold what the whole log adds up to.
-/

namespace LogDb.Daemon

open Lib Format TombstoneTracker List Engine

def Engine.allRecords {n : ℕ} (db : Engine n) : List DecodedRecord :=
  db.reopen.records.map Prod.snd

/-- The incremental trackers hold what the whole log adds up to. -/
structure Service.Tracked {n : ℕ} (nsOf : UInt64 → UInt32) (svc : Service n) : Prop where
  written : svc.storage.Written nsOf
  cutoff : ∀ stream, svc.tombstones.cutoff stream =
    (rebuildFromRecords svc.storage.db.allRecords).cutoff stream
  usage : ∀ ns stream, svc.quota.usage ns stream =
    totalUsage (svc.storage.db.allRecords.filter (countsFor svc.tombstones.isLive ns stream))

section

variable {n : ℕ} {nsOf : UInt64 → UInt32} {st : Storage n} {d : DecodedRecord}

theorem Storage.Written.mem_allRecords (h : st.Written nsOf) :
    d ∈ st.db.allRecords → 0 < d.seq.toNat ∧ d.seq.toNat < st.nextSeqs.next d.streamId ∧
      d.namespaceId = nsOf d.streamId := by
  intro hd
  obtain ⟨⟨g, d'⟩, hm, rfl⟩ := mem_map.mp hd
  obtain ⟨s, i, content, e, hc, he, hf, -, rfl⟩ := h.mem_records.mp hm
  obtain ⟨e', he', hf', hp, hlt, hn⟩ := h.records s i content hc
  have hs := decodeRecord_encodeRecord he hf
  rw [decodeRecord_encodeRecord he' hf'] at hs
  cases hs
  exact ⟨hp, hlt, hn⟩

theorem mem_tombstonesOf_perm {records records' : List DecodedRecord}
    (h : records'.Perm (d :: records)) {stream : UInt64} {seq : ℕ} :
    (stream, seq) ∈ tombstonesOf records' ↔
      (d.eventType = streamDeletedEvent ∧ d.streamId = stream ∧ d.seq.toNat = seq) ∨
        (stream, seq) ∈ tombstonesOf records := by
  rw [mem_tombstonesOf, mem_tombstonesOf]
  constructor
  · rintro ⟨r, hr, hq⟩
    rcases mem_cons.mp (h.mem_iff.mp hr) with rfl | hr
    · exact .inl hq
    · exact .inr ⟨r, hr, hq⟩
  · rintro (hq | ⟨r, hr, hq⟩)
    · exact ⟨d, h.mem_iff.mpr mem_cons_self, hq⟩
    · exact ⟨r, h.mem_iff.mpr (mem_cons_of_mem _ hr), hq⟩

end

namespace Service.Tracked

variable {n : ℕ} {nsOf : UInt64 → UInt32} {svc : Service n}

theorem cutoff_spec (h : svc.Tracked nsOf) (stream : UInt64) : (svc.tombstones.cutoff stream = 0 ∨
      (stream, svc.tombstones.cutoff stream) ∈ tombstonesOf svc.storage.db.allRecords) ∧
    ∀ seq, (stream, seq) ∈ tombstonesOf svc.storage.db.allRecords →
      seq ≤ svc.tombstones.cutoff stream := by
  rw [h.cutoff stream]
  exact cutoff_rebuildFromRecords _ stream

theorem cutoff_lt_next (h : svc.Tracked nsOf) (stream : UInt64) :
    svc.tombstones.cutoff stream < svc.storage.nextSeqs.next stream := by
  rcases (h.cutoff_spec stream).1 with hz | hm
  · rw [hz]
    exact h.written.next_pos stream
  · obtain ⟨r, hr, -, hs, hq⟩ := mem_tombstonesOf.mp hm
    rw [← hq, ← hs]
    exact (h.written.mem_allRecords hr).2.1

variable {st : Storage n} {d : DecodedRecord}

theorem frame (h : svc.Tracked nsOf) {t : TombstoneTracker} (hw : st.Written nsOf)
    (hr : st.db.allRecords = svc.storage.db.allRecords)
    (ht : ∀ stream, t.cutoff stream = svc.tombstones.cutoff stream) :
    Service.Tracked nsOf { svc with storage := st, tombstones := t }  where
  written := hw
  cutoff stream := by
    show t.cutoff stream = (rebuildFromRecords st.db.allRecords).cutoff stream
    rw [hr, ht, h.cutoff]
  usage ns stream := by
    show svc.quota.usage ns stream = totalUsage (st.db.allRecords.filter (countsFor t.isLive ns stream))
    rw [hr, isLive_congr ht, h.usage]

theorem add (h : svc.Tracked nsOf) (hw : st.Written nsOf)
    (hr : st.db.allRecords.Perm (d :: svc.storage.db.allRecords))
    (hv : d.eventType ≠ streamDeletedEvent)
    (hq : d.seq.toNat = svc.storage.nextSeqs.next d.streamId) :
    Service.Tracked nsOf { svc with
      storage := st
      quota := svc.quota.add d.namespaceId d.streamId d.userContent.length }  where
  written := hw
  cutoff stream := by
    show svc.tombstones.cutoff stream = _
    obtain ⟨hc, hle⟩ := h.cutoff_spec stream
    symm
    apply cutoff_rebuildFromRecords_eq
    · exact hc.imp_right fun hm => (mem_tombstonesOf_perm hr).mpr (.inr hm)
    · intro seq hm
      rcases (mem_tombstonesOf_perm hr).mp hm with ⟨ht, -⟩ | hm
      · exact absurd ht hv
      · exact hle seq hm
  usage ns stream := by
    show (svc.quota.add d.namespaceId d.streamId d.userContent.length).usage ns stream =
      totalUsage (st.db.allRecords.filter (countsFor svc.tombstones.isLive ns stream))
    rw [QuotaTracker.usage_add, totalUsage_perm (hr.filter _)]
    have hl : svc.tombstones.isLive d.streamId d.seq.toNat = true := by
      apply decide_eq_true
      rw [hq]
      exact h.cutoff_lt_next d.streamId
    split_ifs with hk
    · obtain ⟨rfl, rfl⟩ := Prod.mk.inj hk
      rw [filter_cons_of_pos (by simp [countsFor, hv, hl]), totalUsage_cons, h.usage]
    · rw [filter_cons_of_neg, h.usage]
      simp only [countsFor, decide_eq_true_iff, not_and]
      rintro - - rfl rfl
      exact hk rfl

theorem delete (h : svc.Tracked nsOf) (hw : st.Written nsOf)
    (hrc : st.db.allRecords.Perm (d :: svc.storage.db.allRecords))
    (hv : d.eventType = streamDeletedEvent)
    (hq : d.seq.toNat = svc.storage.nextSeqs.next d.streamId)
    (hns : d.namespaceId = nsOf d.streamId) :
    Service.Tracked nsOf {
      storage := st
      tombstones := svc.tombstones.record d.streamId d.seq.toNat
      quota := svc.quota.reset d.namespaceId d.streamId }  where
  written := hw
  cutoff stream := by
    show (svc.tombstones.record d.streamId d.seq.toNat).cutoff stream = _
    obtain ⟨hu, hle⟩ := h.cutoff_spec stream
    symm
    apply cutoff_rebuildFromRecords_eq
    · rw [cutoff_record]
      split_ifs with hs
      · subst hs
        rw [hq, max_eq_right (h.cutoff_lt_next d.streamId).le]
        exact .inr ((mem_tombstonesOf_perm hrc).mpr (.inl ⟨hv, rfl, hq⟩))
      · exact hu.imp_right fun hm => (mem_tombstonesOf_perm hrc).mpr (.inr hm)
    · intro seq hm
      rw [cutoff_record]
      rcases (mem_tombstonesOf_perm hrc).mp hm with ⟨-, rfl, rfl⟩ | hm
      · rw [if_pos rfl]
        exact le_max_right _ _
      · split_ifs
        · exact (hle seq hm).trans (le_max_left _ _)
        · exact hle seq hm
  usage ns stream := by
    show (svc.quota.reset d.namespaceId d.streamId).usage ns stream = totalUsage
      (st.db.allRecords.filter (countsFor (svc.tombstones.record d.streamId d.seq.toNat).isLive
        ns stream))
    rw [QuotaTracker.usage_reset, totalUsage_perm (hrc.filter _),
      filter_cons_of_neg (by simp [countsFor, hv])]
    by_cases hs : stream = d.streamId
    · subst hs
      -- no record of the stream is live any more
      have hnn : svc.storage.db.allRecords.filter (countsFor
          (svc.tombstones.record d.streamId d.seq.toNat).isLive ns d.streamId) = [] := by
        rw [filter_eq_nil_iff]
        intro r hr hc
        obtain ⟨-, hl, -, hs⟩ := of_decide_eq_true hc
        have hlt := (h.written.mem_allRecords hr).2.1
        have hl' := of_decide_eq_true hl
        rw [cutoff_record, hs, if_pos rfl, hq] at hl'
        rw [hs] at hlt
        exact absurd hlt (not_lt.mpr ((le_max_right _ _).trans hl'.le))
      rw [hnn]
      split_ifs with hk
      · rfl
      · -- records of the stream are in its namespace
        rw [h.usage, filter_eq_nil_iff.mpr]
        intro r hr hc
        obtain ⟨-, -, hn', hs⟩ := of_decide_eq_true hc
        have hn := (h.written.mem_allRecords hr).2.2
        rw [hs, ← hns, hn'] at hn
        exact hk (by rw [hn])
    · rw [if_neg fun hk => hs (Prod.mk.inj hk).2, h.usage]
      congr 1
      apply filter_congr
      intro r _
      unfold countsFor isLive
      by_cases hr : r.streamId = stream
      · rw [cutoff_record, if_neg fun heq => hs (hr ▸ heq.symm)]
      · simp [hr]

end Service.Tracked

/-! ## Histories -/

/-- A call whose fields fit into the envelope and that does not pose as a tombstone. -/
structure AppendCall.Plain (call : AppendCall) : Prop where
  noTombstone : call.eventType ≠ streamDeletedEvent
  eventType : (strBytes call.eventType).length < 2 ^ 16
  contentType : (strBytes call.contentType).length < 2 ^ 16
  keys : ∀ entry ∈ call.metadata.entries, (strBytes entry.1).length < 2 ^ 8

theorem AppendCall.Plain.fits {call : AppendCall} (h : call.Plain) (ids : UInt32 × UInt64) :
    (call.request ids).Fits where
  eventType := h.eventType
  contentType := by
    unfold AppendCall.request
    dsimp only
    split_ifs
    · decide
    · exact h.contentType
  keys := h.keys

theorem tombstoneRequest_fits (ids : UInt32 × UInt64) : (tombstoneRequest ids).Fits where
  eventType := by
    show (strBytes streamDeletedEvent).length < 2 ^ 16
    decide
  contentType := by
    show (strBytes "application/json").length < 2 ^ 16
    decide
  keys := fun _ he => absurd he not_mem_nil

/-- Write calls, polls of the publisher, and progress of the committers. -/
inductive ServiceEvent (n : ℕ) where
  | append (call : AppendCall) (route : Except String (Fin n))
  | batchAppend (calls : List (AppendCall × Except String (Fin n)))
  | deleteStream (ns stream : String) (route : Except String (Fin n))
  | observe (last : ℕ)
  | progress (db : Engine n)

def Service.SeqRoom {n : ℕ} (svc : Service n) (k : ℕ) : Prop :=
  ∀ stream, svc.storage.nextSeqs.next stream + k ≤ 2 ^ 64

def ServiceEvent.Plain {n : ℕ} (svc : Service n) : ServiceEvent n → Prop
  | .append call _ => call.Plain ∧ svc.SeqRoom 1
  | .batchAppend calls => (∀ c ∈ calls, c.1.Plain) ∧ svc.SeqRoom calls.length
  | .deleteStream .. => svc.SeqRoom 1
  | .observe _ => True
  | .progress _ => True

section

variable {n : ℕ} (names : Names) (quotas : List StreamQuota)

/-- The calls are executed one at a time. -/
inductive ServiceTrans : Service n → ServiceEvent n → Service n → Prop
  | append {svc call route} :
    ServiceTrans svc (.append call route) (svc.append names quotas call route).2
  | batchAppend {svc calls} :
    ServiceTrans svc (.batchAppend calls) (svc.batchAppend names quotas calls).2
  | deleteStream {svc ns stream route} :
    ServiceTrans svc (.deleteStream ns stream route) (svc.deleteStream names ns stream route).2
  | observe {svc last} : ServiceTrans svc (.observe last) (svc.observe last)
  | progress {svc : Service n} {db : Engine n}
    (hcontents : db.contents = svc.storage.db.contents)
    (hfirst : db.first = svc.storage.db.first) :
    ServiceTrans svc (.progress db) { svc with storage := { svc.storage with db } }

def ServiceReachable (hshards : n ≤ 256) (ok : Service n → ServiceEvent n → Prop)
    (svc : Service n) : Prop :=
  Relation.ReflTransGen (fun svc svc' => ∃ ev, ok svc ev ∧ ServiceTrans names quotas svc ev svc')
    (Service.start (Engine.empty hshards)) svc

end

theorem Service.start_empty {n : ℕ} (hs : n ≤ 256) :
    Service.start (Engine.empty hs) = ⟨⟨Engine.empty hs, ∅, ∅⟩, .new, .new⟩ := by
  simp only [Service.start, Storage.scan, Storage.new_empty, scan_empty]
  rfl

namespace Service.Tracked

variable {n : ℕ} {names : Names} {quotas : List StreamQuota} {svc : Service n}
  {ids : UInt32 × UInt64} {call : AppendCall}

theorem appendRecord (h : svc.Tracked names.nsOf) (route : Except String (Fin n)) (hp : call.Plain)
    (hn : names.nsOf ids.2 = ids.1) (hr : svc.storage.nextSeqs.next ids.2 < 2 ^ 64) :
    (svc.appendRecord ids call route).2.Tracked names.nsOf := by
  unfold Service.appendRecord
  cases ha : svc.storage.append (call.request ids) route with
  | mk result st' =>
    rcases Storage.append_cases _ _ _ ha with ⟨e, rfl, rfl⟩ |
      ⟨s, content, db, he, hd, rfl, rfl⟩
    · exact h.frame (h.written.allocate ids.2) rfl fun _ => rfl
    · have hq := Storage.Written.seq_envelope (call.request ids) hr
      exact h.add (h.written.push hr (hp.fits ids) hn.symm he hd _)
        (h.written.records_push hr (hp.fits ids) hn.symm he hd)
        hp.noTombstone hq

theorem next_appendRecord (svc : Service n) (ids : UInt32 × UInt64) (call : AppendCall)
    (route : Except String (Fin n)) (stream : UInt64) :
    (svc.appendRecord ids call route).2.storage.nextSeqs.next stream ≤
      svc.storage.nextSeqs.next stream + 1 := by
  have hn : (svc.storage.allocate ids.2).2.nextSeqs.next stream ≤
      svc.storage.nextSeqs.next stream + 1 := by
    rw [Storage.Written.next_allocate]
    split_ifs with hs
    · rw [hs]
    · exact Nat.le_succ _
  unfold Service.appendRecord
  cases ha : svc.storage.append (call.request ids) route with
  | mk result st' =>
    rcases Storage.append_cases _ _ _ ha with ⟨e, rfl, rfl⟩ |
      ⟨s, content, db, he, hd, rfl, rfl⟩
    · exact hn
    · exact hn

/-- The induction is on the calls; each takes one of the numbers that are left. -/
theorem appendAll (hns : names.nsOf ids.2 = ids.1)
    (calls : List (AppendCall × Except String (Fin n))) (hl : ∀ c ∈ calls, c.1.Plain)
    (done : List AppendResult) (h : svc.Tracked names.nsOf) (hm : svc.SeqRoom calls.length) :
    (Service.appendAll ids svc calls done).2.Tracked names.nsOf := by
  induction calls generalizing svc done with
  | nil => exact h
  | cons c calls ih =>
    obtain ⟨call, route⟩ := c
    have ho : svc.storage.nextSeqs.next ids.2 < 2 ^ 64 := by
      have hs := hm ids.2
      rw [length_cons] at hs
      omega
    have hn := next_appendRecord svc ids call route
    have hp := h.appendRecord route (hl _ mem_cons_self) hns ho
    unfold Service.appendAll
    cases hr : svc.appendRecord ids call route with
    | mk result svc' =>
      rw [hr] at hp hn
      cases result with
      | error e => exact hp
      | ok result =>
        apply ih (fun c hc => hl c (mem_cons_of_mem _ hc)) _ hp
        intro stream
        have hs := hm stream
        have hle := hn stream
        rw [length_cons] at hs
        show svc'.storage.nextSeqs.next stream + calls.length ≤ 2 ^ 64
        dsimp only at hle
        omega

section

variable (h : svc.Tracked names.nsOf)
include h

theorem append (route : Except String (Fin n)) (hp : call.Plain) (hr : svc.SeqRoom 1) :
    (svc.append names quotas call route).2.Tracked names.nsOf := by
  unfold Service.append
  cases hi : names.resolve call.ns call.stream with
  | error e => exact h
  | ok ids =>
    dsimp only
    cases checkQuota quotas svc.quota call.ns call.stream ids 1 call.content.length with
    | error e => exact h
    | ok _ => exact h.appendRecord route hp (names.nsOf_eq _ _ ids hi) (hr ids.2)

theorem batchAppend {calls : List (AppendCall × Except String (Fin n))}
    (hp : ∀ c ∈ calls, c.1.Plain) (hr : svc.SeqRoom calls.length) :
    (svc.batchAppend names quotas calls).2.Tracked names.nsOf := by
  unfold Service.batchAppend
  cases calls with
  | nil => exact h
  | cons c rest =>
    obtain ⟨first, route⟩ := c
    dsimp only
    split_ifs
    · exact h
    · cases hi : names.resolve first.ns first.stream with
      | error e => exact h
      | ok ids =>
        dsimp only
        split
        · exact h
        · exact appendAll (names.nsOf_eq _ _ ids hi) _ hp [] h hr

theorem deleteStream (ns stream : String) (route : Except String (Fin n)) (hr : svc.SeqRoom 1) :
    (svc.deleteStream names ns stream route).2.Tracked names.nsOf := by
  unfold Service.deleteStream
  cases hi : names.resolve ns stream with
  | error e => exact h
  | ok ids =>
    have hn := names.nsOf_eq _ _ ids hi
    dsimp only
    cases ha : svc.storage.append (tombstoneRequest ids) route with
    | mk result st' =>
      rcases Storage.append_cases _ _ _ ha with ⟨e, rfl, rfl⟩ |
        ⟨s, content, db, he, hb, rfl, rfl⟩
      · exact h.frame (h.written.allocate ids.2) rfl fun _ => rfl
      · have hf := tombstoneRequest_fits ids
        have ho : svc.storage.nextSeqs.next (tombstoneRequest ids).streamId < 2 ^ 64 := hr ids.2
        have hq := Storage.Written.seq_envelope (tombstoneRequest ids) ho
        have hp := h.written.push ho hf hn.symm he hb (gidOf s (svc.storage.db.contents s).length)
        have hd := h.delete hp (h.written.records_push ho hf hn.symm he hb) rfl hq hn.symm
        rw [hq] at hd
        exact hd

theorem observe (last : ℕ) : (svc.observe last).Tracked names.nsOf := by
  unfold Service.observe
  cases hsc : svc.storage.scan last svc.storage.durableGid with
  | error e => exact h
  | ok records =>
    apply h.frame h.written rfl
    apply cutoff_recordAll_of_le
    intro stream seq hm
    apply (h.cutoff_spec stream).2
    obtain ⟨r, hr, hv, hq⟩ := mem_tombstonesOf.mp hm
    refine mem_tombstonesOf.mpr ⟨r, ?_, hv, hq⟩
    obtain ⟨x, hx, hd⟩ := exists_of_forall₂ (mapM_eq_ok_iff.mp hsc) hr
    obtain ⟨-, s, i, hs, hid⟩ := mem_scan.mp hx
    have hc := (stored_eq_some_iff.mp hs).2
    refine mem_map.mpr ⟨(x.1, r), mem_records.mpr ⟨s, i, x.2, ?_, hid, hd⟩, rfl⟩
    rw [h.written.stored_reopen, hc]

theorem progress {db : Engine n}
    (hc : db.contents = svc.storage.db.contents) (hf : db.first = svc.storage.db.first) :
    Service.Tracked names.nsOf { svc with storage := { svc.storage with db } } := by
  have hr := reopen_congr hc hf
  have hw : Storage.Written names.nsOf { svc.storage with db } := by
    refine ⟨fun s => ?_, h.written.next_pos, ?_, ?_⟩
    · show db.first s = 0
      rw [hf]
      exact h.written.first s
    · show ∀ (s : Fin n) (i : ℕ) content, (db.contents s)[i]? = some content → _
      rw [hc]
      exact h.written.records
    · unfold Distinct Holds
      rw [hr]
      exact h.written.distinct
  have hrc : db.allRecords = svc.storage.db.allRecords := by
    unfold allRecords records
    rw [scan_congr hr]
  exact h.frame hw hrc fun _ => rfl

theorem step {ev : ServiceEvent n} {svc' : Service n} (hok : ev.Plain svc)
    (ht : ServiceTrans names quotas svc ev svc') : svc'.Tracked names.nsOf := by
  cases ht with
  | append => exact h.append _ hok.1 hok.2
  | batchAppend => exact h.batchAppend hok.1 hok.2
  | deleteStream => exact h.deleteStream _ _ _ hok
  | observe => exact h.observe _
  | progress hc hf => exact h.progress hc hf

end

theorem start (hs : n ≤ 256) : (Service.start (Engine.empty hs)).Tracked names.nsOf := by
  have hr : (empty hs).allRecords = [] := by
    show ((empty hs).records).map Prod.snd = []
    rw [records, scan_empty]
    rfl
  rw [Service.start_empty]
  refine ⟨⟨fun s => rfl, fun stream => one_pos, ?_, ?_⟩, ?_, ?_⟩
  · intro s i content hc
    cases hc
  · rintro s i t j stream seq ⟨content, hc, -⟩ -
    rw [show (empty hs).reopen.stored s i = none from stored_empty s i] at hc
    cases hc
  · intro stream
    rw [hr]
    rfl
  · intro ns stream
    rw [hr]
    rfl

theorem reachable {hs : n ≤ 256} (h : ServiceReachable names quotas hs ServiceEvent.Plain svc) :
    svc.Tracked names.nsOf :=
  invariant_of_steps h (start hs) fun _ _ h ⟨_, hok, ht⟩ => h.step hok ht

end Service.Tracked

end LogDb.Daemon
