import LogDb.Database.Read
import LogDb.Reader.Exact
import LogDb.Daemon.Engine

/-!
Scans and reads of the daemon's view of the database are those of the shard directories.
-/

namespace LogDb.Daemon

open Lib Format Reader

def recordEntry (r : Record) : ℕ × Bytes :=
  (r.id.sequence.toNat, r.content)

/-- The directories of the shards are well formed and hold the records of the database. The header
bases then separate the segments, so that a reader reaches every id behind its start. -/
structure Engine.OnDisk (C : Crates) (keys : Option KeyRing) {n : ℕ} (db : Engine n)
    (disks : Fin n → Storage.Disk) (segs : Fin n → List StoredSegment) : Prop where
  directory : ∀ s : Fin n, ShardDirectory C keys n s (disks s) (segs s)
  entries : ∀ s, (recordsOf (segs s)).map recordEntry = db.entries s
  reaches : ∀ fromId gid, fromId ≤ gid → db.reaches fromId gid

namespace Engine.OnDisk

variable {C : Crates} {keys : Option KeyRing} {n : ℕ} {db : Engine n} {disks : Fin n → Storage.Disk}
  {segs : Fin n → List StoredSegment}

section

variable (h : db.OnDisk C keys disks segs)
include h

theorem exists_stored {s : Fin n} {r : Record} (hr : r ∈ recordsOf (segs s)) :
    ∃ i, db.stored s i = some r.content ∧ gidOf s i = r.id.sequence.toNat := by
  have he := List.mem_map_of_mem (f := recordEntry) hr
  rw [h.entries s] at he
  exact mem_entries.mp he

theorem exists_record {s : Fin n} {i : ℕ} {content : Bytes} (hs : db.stored s i = some content) :
    ∃ r ∈ recordsOf (segs s), r.id.sequence.toNat = gidOf s i ∧ r.content = content := by
  have he : (gidOf s i, content) ∈ db.entries s := mem_entries.mpr ⟨i, hs, rfl⟩
  rw [← h.entries s] at he
  obtain ⟨r, hr, heq⟩ := List.mem_map.mp he
  exact ⟨r, hr, congrArg Prod.fst heq, congrArg Prod.snd heq⟩

theorem engine_scan_eq (fromId toId : UInt64) :
    (scanIter C keys (List.ofFn disks) fromId toId).map recordEntry =
      db.scan fromId.toNat toId.toNat := by
  obtain ⟨hm, ho⟩ := scanIter_exact h.directory fromId toId
  have hs' : ((scanIter C keys (List.ofFn disks) fromId toId).map recordEntry).Pairwise
      fun a b => a.1 < b.1 :=
    List.pairwise_map.mpr (ho.imp fun hlt => UInt64.lt_iff_toNat_lt.mp hlt)
  apply eq_of_ascending hs' (db.scan_sorted _ _)
  intro x
  rw [List.mem_map, mem_scan]
  constructor
  · rintro ⟨r, hr, rfl⟩
    obtain ⟨⟨hge, hlt⟩, s, hs⟩ := (hm r).mp hr
    obtain ⟨i, hi⟩ := h.exists_stored hs
    have hge := UInt64.le_iff_toNat_le.mp hge
    exact ⟨⟨⟨hge, h.reaches _ _ hge⟩, UInt64.lt_iff_toNat_lt.mp hlt⟩, s, i, hi⟩
  · rintro ⟨⟨⟨hge, -⟩, hlt⟩, s, i, ht, hid⟩
    obtain ⟨r, hr, hd, hc⟩ := h.exists_record ht
    have hx : recordEntry r = x := Prod.ext (hd.trans hid) hc
    subst hx
    exact ⟨r, (hm r).mpr ⟨⟨UInt64.le_iff_toNat_le.mpr hge, UInt64.lt_iff_toNat_lt.mpr hlt⟩, s, hr⟩,
      rfl⟩

end

end Engine.OnDisk

def pairDb : Engine 2 :=
  .ofContents (fun s => [(pairView s).content]) two_le_256 (by decide)

theorem onDisk_pair : pairDb.OnDisk rawCrates none pairDisk fun s => [pairSegment s] :=
  ⟨shardDirectory_pair, by decide, fun _ _ _ => rfl⟩

theorem engine_scan_eq_pair :
    (scanIter rawCrates none (List.ofFn pairDisk) 0 2).map recordEntry = pairDb.scan 0 2 :=
  onDisk_pair.engine_scan_eq 0 2

theorem Engine.OnDisk.engine_read_eq {C : Crates} {c : Database.Config} {db : Engine c.shards}
    {disks : Fin c.shards → Storage.Disk} {segs : Fin c.shards → List StoredSegment}
    (h : db.OnDisk C c.encryptionKeys disks segs) (recordId : UInt64) :
    (Database.read C c db.durable disks recordId).map (Option.map Record.content) =
      .ok (db.read recordId.toNat) := by
  unfold Database.read Engine.read splitGid
  rw [UInt64.ofNat_toNat, h.reaches _ _ le_rfl]
  simp only [if_true]
  split_ifs with hsd hd
  · rfl
  · set s : Fin c.shards := ⟨(decodeRecordId recordId (shardBits c.shards)).1, hsd⟩
    set i := (decodeRecordId recordId (shardBits c.shards)).2
    have hi : i ≤ (db.contents s).length :=
      (not_le.mp hd).le.trans
        ((db.durable_le s).trans ((db.committed_le s).trans (db.written_le s)))
    have hid : encodeRecordId s i (shardBits c.shards) = recordId := by
      apply decodeRecordId_inj (db.fits s)
      rw [decodeRecordId_encodeRecordId (db.fits s) hi]
    obtain ⟨found, hrd, hf⟩ := (h.directory s).read_eq recordId
    rw [hrd]
    show Except.ok (found.map Record.content) = .ok (db.stored s i)
    congr 1
    refine Option.ext fun content => ?_
    rw [Option.map_eq_some_iff]
    constructor
    · rintro ⟨r, hr, rfl⟩
      obtain ⟨hq, hm⟩ := (hf r).mp hr
      obtain ⟨j, hs, hg⟩ := h.exists_stored hm
      obtain ⟨-, rfl⟩ := db.gidOf_inj (Engine.lt_of_stored hs).le hi (by rw [hg, hq, ← hid]; rfl)
      exact hs
    · intro hs
      obtain ⟨r, hr, ha, hc⟩ := h.exists_record hs
      refine ⟨r, (hf r).mpr ⟨UInt64.toNat_inj.mp ?_, hr⟩, hc⟩
      rw [ha, ← hid]
      rfl
  · rfl

theorem engine_read_eq_pair :
    (Database.read rawCrates { Database.rawConfig with shards := 2 } pairDb.durable pairDisk 1).map
      (Option.map Record.content) = .ok (pairDb.read 1) :=
  Engine.OnDisk.engine_read_eq (c := { Database.rawConfig with shards := 2 }) onDisk_pair 1

end LogDb.Daemon
