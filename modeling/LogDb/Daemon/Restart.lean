import LogDb.Daemon.Tracked

/-!
Which histories of write calls leave the trackers as a restart rebuilds them.
-/

namespace LogDb.Daemon

open Lib Format TombstoneTracker List Engine Service ServiceEvent

variable {i n seq : ℕ}

def Engine.seedRecords (db : Engine n) : List DecodedRecord :=
  (db.records.filter fun x => x.1 < db.committedCursor).map Prod.snd

section

variable {n : ℕ}

end

namespace Service.Tracked

variable {n : ℕ} {nsOf : UInt64 → UInt32} {svc : Service n}
  {stream : UInt64} {g : ℕ} {d : DecodedRecord} {seq : ℕ} {drained : Fin n → Bool}

section

variable (db : Engine n) (q : DecodedRecord → Bool)

end

section

variable (h : svc.Tracked nsOf) (hd : (g, d) ∈ svc.storage.db.reopen.records)
include h hd

end

end Service.Tracked

def oneStream : Names where
  resolve _ _ := .ok (1, 1)
  nsOf _ := 1
  nsOf_eq := by
    rintro _ _ _ ⟨⟩
    rfl

def plainCall : AppendCall := ⟨"n", "s", "", "", ∅, 0, []⟩

theorem plainCall_plain : plainCall.Plain :=
  ⟨by decide, by decide, by decide, fun _ he => absurd he not_mem_nil⟩

variable {n : ℕ} {svc : Service n} {stream : UInt64}

theorem seqRoom_of_insert {nexts : NextSeqs} (hn : svc.storage.nextSeqs = nexts.insert stream seq)
    (hq : seq < 2 ^ 64) (hr : ∀ stream, nexts.next stream + 1 ≤ 2 ^ 64) : svc.SeqRoom 1 := by
  intro stream'
  rw [hn, NextSeqs.next_insert]
  split_ifs
  · exact hq
  · exact hr stream'

theorem seqRoom_start (hs : n ≤ 256) : (start (Engine.empty hs)).SeqRoom 1 := by
  rw [start_empty]
  exact fun stream => (show 1 + 1 ≤ 2 ^ 64 by decide)

def appendedOnce : Service 1 :=
  ((start (Engine.empty one_le_256)).append oneStream [] plainCall (.ok 0)).2

def recordFirst : Service 2 :=
  ((start (Engine.empty two_le_256)).append oneStream [] plainCall (.ok 0)).2

def recordDeleted : Service 2 :=
  (recordFirst.deleteStream oneStream "n" "s" (.ok 0)).2

def deletedBetween : Service 2 :=
  (recordDeleted.append oneStream [] plainCall (.ok 0)).2

theorem serviceReachable_deletedBetween :
    ServiceReachable oneStream [] (by decide) Plain deletedBetween := by
  have hn₁ : recordFirst.storage.nextSeqs = AList.insert 1 2 (∅ : NextSeqs) := rfl
  have hn₂ : recordDeleted.storage.nextSeqs =
      AList.insert 1 3 (AList.insert 1 2 (∅ : NextSeqs)) := rfl
  have hr₁ := seqRoom_of_insert hn₁ (by decide) fun _ => (show 1 + 1 ≤ 2 ^ 64 by decide)
  have hf : ServiceReachable oneStream [] (by decide) Plain recordFirst :=
    Relation.ReflTransGen.step .refl (.append plainCall (.ok 0)) ⟨plainCall_plain, seqRoom_start _⟩ .append
  have he : ServiceReachable oneStream [] (by decide) Plain recordDeleted :=
    hf.step (.deleteStream "n" "s" (.ok 0)) hr₁ .deleteStream
  refine he.step (.append plainCall (.ok 0)) ⟨plainCall_plain, ?_⟩ .append
  exact seqRoom_of_insert hn₂ (by decide) fun stream => hn₁ ▸ hr₁ stream

/-- After every run of plain calls the trackers hold what a count over the whole log gives. -/
theorem trackers_recount {n : ℕ} {names : Names} {quotas : List StreamQuota} {hs : n ≤ 256}
    {svc : Service n} (h : ServiceReachable names quotas hs Plain svc) :
    (∀ stream, svc.tombstones.cutoff stream =
      (rebuildFromRecords svc.storage.db.allRecords).cutoff stream) ∧
    ∀ ns stream, svc.quota.usage ns stream =
      totalUsage (svc.storage.db.allRecords.filter (countsFor svc.tombstones.isLive ns stream)) :=
  ⟨(Tracked.reachable h).cutoff, (Tracked.reachable h).usage⟩

theorem trackers_recount_deleted : deletedBetween.tombstones.cutoff 1 =
    (rebuildFromRecords deletedBetween.storage.db.allRecords).cutoff 1 :=
  (trackers_recount serviceReachable_deletedBetween).1 1

/-- A call with the event type of tombstones, behind another record. -/
def forgedTombstone : Service 1 :=
  (appendedOnce.append oneStream [] { plainCall with eventType := streamDeletedEvent } (.ok 0)).2

end LogDb.Daemon
