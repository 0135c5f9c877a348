import LogDb.Daemon.Batch
import LogDb.Daemon.Replication

/-!
What callers without the admin role can do to the records of others: deletions are records of the log,
and every path that writes records or reads tombstones back has to keep them apart.
-/

namespace LogDb.Daemon

open Lib Format List TombstoneTracker

variable {content : Bytes} {n : ℕ}

def Engine.Tombstone (db : Engine n) (stream : UInt64) (seq : ℕ) : Prop :=
  ∃ (s : Fin n) (i : ℕ) (content : Bytes) (d : DecodedRecord),
    (db.contents s)[i]? = some content ∧ decodeRecord content = .ok d ∧
    d.eventType = streamDeletedEvent ∧ d.streamId = stream ∧ d.seq.toNat = seq

/-- Calls that need no admin role, polls of the publisher, progress of the committers and restarts.
`ReplicationService::sync` asks for no role at all; its records come one by one. -/
inductive ClientEvent (n : ℕ) where
  | append (call : AppendCall) (route : Except String (Fin n))
  | batchAppend (calls : List (AppendCall × Except String (Fin n)))
  | replicate (maxContentSize : ℕ) (fault : Option ReplicateFault) (gid : ℕ) (content : Bytes)
  | progress (db : Engine n)
  | poll (last : ℕ)
  | restart (db : Engine n)

inductive ClientTrans {n : ℕ} (names : Names) (quotas : List StreamQuota) :
    Service n → ClientEvent n → Service n → Prop
  | append {svc call route} :
    ClientTrans names quotas svc (.append call route) (svc.append names quotas call route).2
  | batchAppend {svc calls} :
    ClientTrans names quotas svc (.batchAppend calls) (svc.batchAppend names quotas calls).2
  | replicate {svc maxContentSize fault gid content} :
    ClientTrans names quotas svc (.replicate maxContentSize fault gid content)
      { svc with storage := (svc.storage.replicate maxContentSize fault gid content).2 }
  /- Retention may remove records too. -/
  | progress {svc db} (hcontents : db.contents = svc.storage.db.contents) :
    ClientTrans names quotas svc (.progress db) { svc with storage := { svc.storage with db } }
  | poll {svc last} : ClientTrans names quotas svc (.poll last) (svc.observe last)
  /- A crash may cut off the end of each shard. -/
  | restart {svc db}
    (hcontents : ∀ s, db.contents s <+: svc.storage.db.contents s) :
    ClientTrans names quotas svc (.restart db) (Service.start db)

/-- No record that is written poses as a tombstone. -/
def ClientEvent.NoTombstones : ClientEvent n → Prop
  | .append call _ => call.Plain
  | .batchAppend calls => ∀ c ∈ calls, c.1.Plain
  | .replicate _ _ _ content =>
    ∀ d, decodeRecord content = .ok d → d.eventType ≠ streamDeletedEvent
  | _ => True

def ClientReachable (names : Names) (quotas : List StreamQuota) (ok : ClientEvent n → Prop)
    (svc₀ svc : Service n) : Prop :=
  Relation.ReflTransGen (fun a b => ∃ ev, ok ev ∧ ClientTrans names quotas a ev b) svc₀ svc

/-- The tombstones of the log and the cutoffs stay within bounds. -/
structure Service.DeletesUpTo {n : ℕ} (bound : UInt64 → ℕ) (svc : Service n) : Prop where
  log : ∀ stream seq, svc.storage.db.Tombstone stream seq → seq ≤ bound stream
  cutoff : ∀ stream, svc.tombstones.cutoff stream ≤ bound stream

section

variable {n : ℕ} {db db' : Engine n} {stream : UInt64} {seq : ℕ}

theorem Engine.Tombstone.of_append {s : Fin n} (ha : db.append s content = some db')
    (hp : ∀ d, decodeRecord content = .ok d → d.eventType ≠ streamDeletedEvent)
    (h : db'.Tombstone stream seq) : db.Tombstone stream seq := by
  obtain ⟨t, i, content', d, hc, hd, hv, hi⟩ := h
  rcases (Engine.getElem?_append ha).mp hc with ho | ⟨-, rfl⟩
  · exact ⟨t, i, content', d, ho, hd, hv, hi⟩
  · exact absurd hv (hp d hd)

theorem Engine.Tombstone.of_shorter (hs : ∀ s, db'.contents s <+: db.contents s)
    (h : db'.Tombstone stream seq) : db.Tombstone stream seq := by
  obtain ⟨t, i, content, d, hc, hr⟩ := h
  refine ⟨t, i, content, d, ?_, hr⟩
  obtain ⟨later, hl⟩ := hs t
  rw [← hl, getElem?_append_left (List.getElem?_eq_some_iff.mp hc).1]
  exact hc

variable {records : List DecodedRecord}

theorem Storage.tombstone_of_scan {st : Storage n} {fromGid toGid : ℕ}
    (hc : st.scan fromGid toGid = .ok records) (h : (stream, seq) ∈ tombstonesOf records) :
    st.db.Tombstone stream seq := by
  obtain ⟨r, hr, hv, hi⟩ := mem_tombstonesOf.mp h
  obtain ⟨x, hx, he⟩ := exists_of_forall₂ (mapM_eq_ok_iff.mp hc) hr
  obtain ⟨-, s, i, hs, -⟩ := Engine.mem_scan.mp hx
  obtain ⟨d, hd, rfl⟩ := decodeAt_eq_ok.mp he
  exact ⟨s, i, x.2, d, (Engine.stored_eq_some_iff.mp hs).2, hd, hv, hi⟩

theorem TombstoneTracker.cutoff_recordAll_le {t : TombstoneTracker} {bound : UInt64 → ℕ}
    (ht : ∀ stream, t.cutoff stream ≤ bound stream)
    (hc : ∀ stream seq, (stream, seq) ∈ tombstonesOf records → seq ≤ bound stream)
    (stream : UInt64) : (t.recordAll records).cutoff stream ≤ bound stream := by
  unfold recordAll
  induction records generalizing t with
  | nil => exact ht stream
  | cons r records ih =>
    rw [foldl_cons]
    apply ih
    · intro stream'
      split_ifs with hr
      · rw [cutoff_record]
        split_ifs with hs
        · have hle := hc r.streamId r.seq.toNat
            (mem_tombstonesOf.mpr ⟨r, mem_cons_self, hr, rfl, rfl⟩)
          rw [hs] at hle
          exact max_le (ht stream') hle
        · exact ht stream'
      · exact ht stream'
    · intro stream' seq' hm
      obtain ⟨r', hr', hq⟩ := mem_tombstonesOf.mp hm
      exact hc stream' seq' (mem_tombstonesOf.mpr ⟨r', mem_cons_of_mem _ hr', hq⟩)

end

namespace Service.DeletesUpTo

variable {n : ℕ} {bound : UInt64 → ℕ} {svc : Service n} {names : Names} {quotas : List StreamQuota}
  {svc' : Service n} {ids : UInt32 × UInt64} {call : AppendCall}

theorem setStorage (h : svc.DeletesUpTo bound) (ht : svc'.tombstones = svc.tombstones)
    (hl : ∀ stream seq, svc'.storage.db.Tombstone stream seq →
      svc.storage.db.Tombstone stream seq) : svc'.DeletesUpTo bound :=
  ⟨fun stream seq hq => h.log stream seq (hl stream seq hq), ht ▸ h.cutoff⟩

theorem appendRecord (h : svc.DeletesUpTo bound) (route : Except String (Fin n)) (hp : call.Plain) :
    (svc.appendRecord ids call route).2.DeletesUpTo bound := by
  rcases svc.appendRecord_cases ids call route with ⟨-, e, hr⟩ |
    ⟨s, content, db, -, -, he, ha, hr⟩
  · rw [hr]
    exact h.setStorage rfl fun _ _ hq => hq
  · rw [hr]
    refine h.setStorage rfl fun stream seq hq => hq.of_append ha ?_
    intro d hd
    rw [decodeRecord_encodeRecord he ((hp.fits ids).envelope _)] at hd
    cases hd
    exact hp.noTombstone

theorem appendAll (calls : List (AppendCall × Except String (Fin n)))
    (hp : ∀ c ∈ calls, c.1.Plain) (done : List AppendResult) (h : svc.DeletesUpTo bound) :
    (Service.appendAll ids svc calls done).2.DeletesUpTo bound := by
  induction calls generalizing svc done with
  | nil => exact h
  | cons c calls ih =>
    obtain ⟨call, route⟩ := c
    have hs : (svc.appendRecord ids call route).2.DeletesUpTo bound :=
      h.appendRecord route (hp _ mem_cons_self)
    unfold Service.appendAll
    cases hr : svc.appendRecord ids call route with
    | mk result svc' =>
      rw [hr] at hs
      cases result with
      | error e => exact hs
      | ok result => exact ih (fun c hc => hp c (mem_cons_of_mem _ hc)) _ hs

section

variable (h : svc.DeletesUpTo bound)
include h

theorem append (route : Except String (Fin n)) (hp : call.Plain) :
    (svc.append names quotas call route).2.DeletesUpTo bound := by
  unfold Service.append
  split
  · exact h
  · split
    · exact h
    · exact h.appendRecord route hp

theorem batchAppend {calls : List (AppendCall × Except String (Fin n))}
    (hp : ∀ c ∈ calls, c.1.Plain) : (svc.batchAppend names quotas calls).2.DeletesUpTo bound := by
  unfold Service.batchAppend
  split
  · exact h
  · split_ifs
    · exact h
    · split
      · exact h
      · dsimp only
        split
        · exact h
        · exact h.appendAll _ hp _

theorem replicate {maxLen gid : ℕ} {fault : Option ReplicateFault}
    (hp : ∀ d, decodeRecord content = .ok d → d.eventType ≠ streamDeletedEvent) :
    Service.DeletesUpTo bound
      { svc with storage := (svc.storage.replicate maxLen fault gid content).2 } := by
  refine h.setStorage rfl fun stream seq hq => ?_
  rcases svc.storage.replicate_db maxLen fault gid content with hs | ⟨s, ha⟩
  · dsimp only at hq
    rw [hs] at hq
    exact hq
  · exact hq.of_append ha hp

theorem poll (last : ℕ) : (svc.observe last).DeletesUpTo bound := by
  unfold Service.observe
  split
  · rename_i records hs
    refine ⟨h.log, cutoff_recordAll_le h.cutoff ?_⟩
    exact fun stream seq hm => h.log stream seq (Storage.tombstone_of_scan hs hm)
  · exact h

theorem restart {db : Engine n} (hc : ∀ s, db.contents s <+: svc.storage.db.contents s) :
    (Service.start db).DeletesUpTo bound := by
  have hl : ∀ stream seq, (Storage.new db).db.Tombstone stream seq → seq ≤ bound stream := by
    intro stream seq hq
    rw [Storage.new_db] at hq
    exact h.log stream seq (hq.of_shorter hc)
  refine ⟨hl, cutoff_recordAll_le (fun _ => Nat.zero_le _) ?_⟩
  intro stream seq hm
  cases hs : (Storage.new db).scan 0 (Storage.new db).committedGid with
  | error e =>
    rw [hs] at hm
    cases hm
  | ok records =>
    rw [hs] at hm
    exact hl stream seq (Storage.tombstone_of_scan hs hm)

theorem step {ev : ClientEvent n} (hok : ev.NoTombstones)
    (ht : ClientTrans names quotas svc ev svc') : svc'.DeletesUpTo bound := by
  cases ht with
  | append => exact h.append _ hok
  | batchAppend => exact h.batchAppend hok
  | replicate => exact h.replicate hok
  | progress hc =>
    refine h.setStorage rfl fun stream seq hq => hq.of_shorter fun s => ?_
    simp only [hc, prefix_refl]
  | poll => exact h.poll _
  | restart hc => exact h.restart hc

end

end Service.DeletesUpTo

/-- In every run from a state whose cutoffs cover the tombstones of the log, in which no caller writes
a record that poses as a tombstone, all records that were live stay live. -/
theorem only_delete_stream_deletes {n : ℕ} {names : Names} {quotas : List StreamQuota}
    {svc₀ svc : Service n}
    (hcovered : ∀ stream seq, svc₀.storage.db.Tombstone stream seq →
      seq ≤ svc₀.tombstones.cutoff stream)
    (hreach : ClientReachable names quotas ClientEvent.NoTombstones svc₀ svc) :
    ∀ stream seq, svc₀.tombstones.isLive stream seq → svc.tombstones.isLive stream seq := by
  have h : svc.DeletesUpTo svc₀.tombstones.cutoff := by
    apply invariant_of_steps hreach
    · exact ⟨hcovered, fun _ => le_rfl⟩
    · intro a b ha hs
      obtain ⟨ev, hok, ht⟩ := hs
      exact ha.step hok ht
  intro stream seq hl
  unfold isLive at hl ⊢
  rw [decide_eq_true_eq] at hl ⊢
  exact (h.cutoff stream).trans_lt hl

def polledOnce : Service 1 :=
  (appendedOnce.append oneStream [] plainCall (.ok 0)).2.observe 0

theorem only_delete_stream_deletes_one_shard : appendedOnce.tombstones.isLive 1 1 = true ∧
      (Service.start polledOnce.storage.db.reopen).tombstones.isLive 1 1 = true := by
  have he : (Service.start (Engine.empty (n := 1) (by decide))).DeletesUpTo fun _ => 0 := by
    rw [Service.start_empty]
    refine ⟨?_, fun _ => le_rfl⟩
    rintro stream seq ⟨s, i, content, d, hc, -⟩
    cases hc
  have ho : appendedOnce.DeletesUpTo fun _ => 0 := he.append (.ok 0) plainCall_plain
  have hl : appendedOnce.tombstones.isLive 1 1 = true := rfl
  have hr : ClientReachable oneStream [] ClientEvent.NoTombstones appendedOnce
      (Service.start polledOnce.storage.db.reopen) :=
    Relation.ReflTransGen.step .refl (.append plainCall (.ok 0)) plainCall_plain .append
    |>.step (.poll 0) trivial .poll
    |>.step (.restart polledOnce.storage.db.reopen) trivial (.restart fun _ => prefix_refl _)
  refine ⟨hl, only_delete_stream_deletes ?_ hr 1 1 hl⟩
  exact fun stream seq hq => (ho.log stream seq hq).trans (Nat.zero_le _)

def forgedDurable : Service 1 :=
  { forgedTombstone with
    storage := { forgedTombstone.storage with db := forgedTombstone.storage.db.reopen } }

/-- A record on the first shard; the tombstone is on the second. -/
def deletedOnSecond : Service 2 :=
  (recordFirst.deleteStream oneStream "n" "s" (.ok 1)).2

def deletionForgotten : Service 2 :=
  Service.start deletedOnSecond.storage.db.reopen

def moreOnBoth : Service 2 :=
  (((deletionForgotten.append oneStream [] plainCall (.ok 0)).2).append oneStream [] plainCall
    (.ok 1)).2

def moreDurable : Service 2 :=
  { moreOnBoth with storage := { moreOnBoth.storage with db := moreOnBoth.storage.db.reopen } }

/-- A writer deletes a record: its own record poses as a tombstone, and the publisher takes it for
one. Without such a record, a deletion that a restart has forgotten comes back with the next poll. -/
theorem writer_deletes :
    (ClientReachable oneStream [] (fun _ => True) appendedOnce (forgedDurable.observe 0) ∧
      appendedOnce.storage.db.reopen.Holds 0 0 1 1 ∧
      appendedOnce.tombstones.isLive 1 1 = true ∧
      (forgedDurable.observe 0).tombstones.isLive 1 1 = false) ∧
    (ClientReachable oneStream [] ClientEvent.NoTombstones deletionForgotten
        (moreDurable.observe 0) ∧
      deletionForgotten.storage.db.Holds 0 0 1 1 ∧
      deletionForgotten.tombstones.isLive 1 1 = true ∧
      (moreDurable.observe 0).tombstones.isLive 1 1 = false) := by
  refine ⟨⟨?_, ⟨_, rfl, (plainCall.request (1, 1)).envelope 1, rfl, rfl, rfl⟩, rfl,
    by decide +kernel⟩, ?_, ⟨_, rfl, (plainCall.request (1, 1)).envelope 1, rfl, rfl, rfl⟩,
    by decide +kernel, by decide +kernel⟩
  · exact Relation.ReflTransGen.step .refl (.append _ (.ok 0)) trivial .append
      |>.step (.progress forgedTombstone.storage.db.reopen) trivial (.progress rfl)
      |>.step (.poll 0) trivial .poll
  · exact Relation.ReflTransGen.step .refl (.append plainCall (.ok 0)) plainCall_plain .append
      |>.step (.append plainCall (.ok 1)) plainCall_plain .append
      |>.step (.progress moreOnBoth.storage.db.reopen) trivial (.progress rfl)
      |>.step (.poll 0) trivial .poll

end LogDb.Daemon
