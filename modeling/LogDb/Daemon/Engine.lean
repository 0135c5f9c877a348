import LogDb.Format.ShardId
import LogDb.Lib.SortedMap

/-!
The database as the daemon sees it: the records of every shard by their local sequence numbers, and
the cursors that say how far each shard has written, committed and synced them.
-/

namespace LogDb.Daemon

open Lib Format List Option

variable {n toId : ℕ} {r : ℕ × Bytes}

/-- The records of every shard. Those from `first` to `written` are in the segment files; retention
has removed the ones before. `lastStart` is the last id from which a reader still opens the segment
of a record, where there is a segment behind it. -/
structure Engine (n : ℕ) where
  contents : Fin n → List Bytes
  first : Fin n → ℕ
  written : Fin n → ℕ
  committed : Fin n → ℕ
  durable : Fin n → ℕ
  lastStart : ℕ → Option ℕ := fun _ => none
  shards_le : n ≤ 256
  room : ∀ s, ((contents s).length + 1) * 2 ^ (shardBits n).toNat < 2 ^ 64
  first_le : ∀ s, first s ≤ written s
  written_le : ∀ s, written s ≤ (contents s).length
  committed_le : ∀ s, committed s ≤ written s
  durable_le : ∀ s, durable s ≤ committed s

def gidOf (s : Fin n) (i : ℕ) : ℕ :=
  (encodeRecordId s i (shardBits n)).toNat

def splitGid (n g : ℕ) : ℕ × ℕ :=
  decodeRecordId (UInt64.ofNat g) (shardBits n)

def minCursor (cursors : Fin n → ℕ) : ℕ :=
  (List.ofFn cursors).min?.getD 0

namespace Engine

variable {n : ℕ} (db : Engine n)

def stored (s : Fin n) (i : ℕ) : Option Bytes :=
  if db.first s ≤ i ∧ i < db.written s then (db.contents s)[i]? else none

def entries (s : Fin n) : List (ℕ × Bytes) :=
  (List.range (db.written s)).filterMap fun i => (db.stored s i).map fun content =>
    (gidOf s i, content)

/-- A reader begins with the last segment whose header base is not above `fromId`. It misses the
records that were written to an earlier one after that segment was prepared. -/
def reaches (fromId gid : ℕ) : Bool :=
  (db.lastStart gid).all (fromId ≤ ·)

/-- `LogDb::scan`: what a reader finds in a range of ids, in order. -/
def scan (fromId toId : ℕ) : List (ℕ × Bytes) :=
  ((List.ofFn db.entries).flatten.filter fun r =>
    (fromId ≤ r.1 ∧ db.reaches fromId r.1) ∧ r.1 < toId).insertionSort fun a b => a.1 ≤ b.1

/-- `LogDb::read`: a record is looked for once its shard has made it durable. -/
def read (recordId : ℕ) : Option Bytes :=
  let id := splitGid n recordId
  if h : id.1 < n then
    if db.durable ⟨id.1, h⟩ ≤ id.2 then none
    else if db.reaches recordId recordId then db.stored ⟨id.1, h⟩ id.2 else none
  else none

def committedCursor : ℕ := minCursor db.committed
def durableCursor : ℕ := minCursor db.durable

end Engine

/-! ## Ids -/

section

variable {n : ℕ} {db : Engine n} {s t : Fin n} {i j : ℕ}

section

variable (db : Engine n)

theorem Engine.fits (s : Fin n) : ShardFits s (shardBits n) (db.contents s).length :=
  ⟨(shardBits_spec db.shards_le s.2).1, (shardBits_spec db.shards_le s.2).2, db.room s⟩

theorem Engine.gidOf_eq (h : i ≤ (db.contents s).length) :
    gidOf s i = i * 2 ^ (shardBits n).toNat + s :=
  encodeRecordId_toNat (db.fits s) h

theorem Engine.splitGid_gidOf (h : i ≤ (db.contents s).length) :
    splitGid n (gidOf s i) = ((s : ℕ), i) := by
  unfold splitGid gidOf
  rw [UInt64.ofNat_toNat]
  exact decodeRecordId_encodeRecordId (db.fits s) h

theorem Engine.gidOf_inj (hi : i ≤ (db.contents s).length)
    (hj : j ≤ (db.contents t).length) (h : gidOf s i = gidOf t j) : s = t ∧ i = j := by
  have hs := db.splitGid_gidOf hi
  rw [h, db.splitGid_gidOf hj] at hs
  obtain ⟨ht, hij⟩ := Prod.mk.inj hs
  exact ⟨Fin.ext ht.symm, hij.symm⟩

theorem Engine.le_gidOf (h : i ≤ (db.contents s).length) : i ≤ gidOf s i := by
  have hp : 0 < 2 ^ (shardBits n).toNat := Nat.two_pow_pos _
  rw [db.gidOf_eq h]
  have hm := Nat.le_mul_of_pos_right i hp
  omega

theorem Engine.gidOf_lt_max (h : i ≤ (db.contents s).length) : gidOf s i < 2 ^ 64 - 1 := by
  have hs := (db.fits s).shard_lt
  have hr := db.room s
  have hm := Nat.mul_le_mul_right (2 ^ (shardBits n).toNat) (Nat.succ_le_succ h)
  rw [db.gidOf_eq h]
  simp only [Nat.succ_eq_add_one, add_mul, one_mul] at hm hr
  omega

end

end

/-! ## Scans -/

namespace Engine

variable {n : ℕ} {db : Engine n} {s t : Fin n} {i j : ℕ} {content : Bytes}

theorem stored_eq_some_iff : db.stored s i = some content ↔
    (db.first s ≤ i ∧ i < db.written s) ∧ (db.contents s)[i]? = some content := by
  unfold stored
  split_ifs with h
  · simp [h]
  · simp [h]

theorem lt_of_stored (h : db.stored s i = some content) : i < (db.contents s).length :=
  (stored_eq_some_iff.mp h).1.2.trans_le (db.written_le s)

theorem mem_entries : r ∈ db.entries s ↔ ∃ i, db.stored s i = some r.2 ∧ gidOf s i = r.1 := by
  unfold entries
  rw [mem_filterMap]
  constructor
  · rintro ⟨i, -, hi⟩
    obtain ⟨content, hs, rfl⟩ := map_eq_some_iff.mp hi
    exact ⟨i, hs, rfl⟩
  · rintro ⟨i, hs, hid⟩
    refine ⟨i, mem_range.mpr (stored_eq_some_iff.mp hs).1.2, ?_⟩
    rw [hs, map_some, hid]

theorem start_zero (db : Engine n) (gid : ℕ) : 0 ≤ gid ∧ db.reaches 0 gid :=
  ⟨Nat.zero_le _, by cases h : db.lastStart gid <;> simp [reaches, h]⟩

theorem mem_scan {fromId : ℕ} : r ∈ db.scan fromId toId ↔
      ((fromId ≤ r.1 ∧ db.reaches fromId r.1) ∧ r.1 < toId) ∧
        ∃ s i, db.stored s i = some r.2 ∧ gidOf s i = r.1 := by
  unfold scan
  rw [mem_insertionSort, mem_filter, decide_eq_true_iff, mem_flatten, and_comm]
  apply and_congr_right
  intro _
  constructor
  · rintro ⟨_, hs, hr⟩
    obtain ⟨s, rfl⟩ := mem_ofFn.mp hs
    exact ⟨s, mem_entries.mp hr⟩
  · rintro ⟨s, hr⟩
    exact ⟨_, mem_ofFn.mpr ⟨s, rfl⟩, mem_entries.mpr hr⟩

theorem mem_scan_all :
    r ∈ db.scan 0 (2 ^ 64 - 1) ↔ ∃ s i, db.stored s i = some r.2 ∧ gidOf s i = r.1 := by
  rw [mem_scan]
  constructor
  · exact fun h => h.2
  · rintro ⟨s, i, hs, hid⟩
    have hlt := db.gidOf_lt_max (lt_of_stored hs).le
    exact ⟨⟨db.start_zero _, hid ▸ hlt⟩, s, i, hs, hid⟩

theorem entries_sorted (db : Engine n) (s : Fin n) :
    (db.entries s).Pairwise fun a b => a.1 < b.1 := by
  unfold entries
  apply List.Pairwise.filterMap (R := fun i j => i < j) _ _ pairwise_lt_range
  intro i j hij a ha b hb
  obtain ⟨content, hi, rfl⟩ := map_eq_some_iff.mp ha
  obtain ⟨content', hj, rfl⟩ := map_eq_some_iff.mp hb
  have hp : 0 < 2 ^ (shardBits n).toNat := Nat.two_pow_pos _
  show gidOf s i < gidOf s j
  rw [db.gidOf_eq (lt_of_stored hi).le, db.gidOf_eq (lt_of_stored hj).le]
  exact Nat.add_lt_add_right (Nat.mul_lt_mul_of_pos_right hij hp) _

theorem scan_sorted (db : Engine n) (fromId toId : ℕ) :
    (db.scan fromId toId).Pairwise fun a b => a.1 < b.1 := by
  have hne : (ofFn db.entries).flatten.Pairwise fun a b => a.1 ≠ b.1 := by
    rw [pairwise_flatten]
    constructor
    · intro l hl
      obtain ⟨s, rfl⟩ := mem_ofFn.mp hl
      exact (db.entries_sorted s).imp fun h => h.ne
    · rw [pairwise_ofFn]
      intro s t ht a ha b hb heq
      obtain ⟨i, hi, hia⟩ := mem_entries.mp ha
      obtain ⟨j, hj, hjb⟩ := mem_entries.mp hb
      have hn := db.gidOf_inj (lt_of_stored hi).le (lt_of_stored hj).le (by rw [hia, hjb, heq])
      exact ht.ne hn.1
  have hs := pairwise_insertionSort (fun a b : ℕ × Bytes => a.1 ≤ b.1)
    ((ofFn db.entries).flatten.filter fun r =>
      (fromId ≤ r.1 ∧ db.reaches fromId r.1) ∧ r.1 < toId)
  have hd : (db.scan fromId toId).Pairwise fun a b => a.1 ≠ b.1 :=
    (perm_insertionSort _ _).symm.pairwise (hne.filter _) fun h => h.symm
  exact (hs.and hd).imp fun h => lt_of_le_of_ne h.1 h.2

theorem scan_eq_filter (db : Engine n) (h : toId ≤ 2 ^ 64 - 1) :
    db.scan 0 toId = (db.scan 0 (2 ^ 64 - 1)).filter fun r => r.1 < toId := by
  apply eq_of_ascending (db.scan_sorted _ _) ((db.scan_sorted _ _).filter _)
  intro r
  rw [mem_filter, mem_scan, mem_scan, decide_eq_true_iff]
  constructor
  · rintro ⟨⟨hge, hlt⟩, hr⟩
    exact ⟨⟨⟨hge, hlt.trans_le h⟩, hr⟩, hlt⟩
  · rintro ⟨⟨⟨hge, -⟩, hr⟩, hlt⟩
    exact ⟨⟨hge, hlt⟩, hr⟩

theorem scan_congr {db' : Engine n} (h : db'.stored = db.stored) :
    db'.scan 0 toId = db.scan 0 toId := by
  apply eq_of_ascending (db'.scan_sorted _ _) (db.scan_sorted _ _)
  simp [mem_scan, start_zero, h]

end Engine

/-! ## Reopened databases -/

/-- Reopen a database that was closed cleanly. The last segment of a shard in `drained` is empty. -/
def Engine.reopen (db : Engine n) (drained : Fin n → Bool := fun _ => false) : Engine n :=
  { db with
    written := fun s => (db.contents s).length
    committed := fun s => if drained s then 0 else (db.contents s).length
    durable := fun s => if drained s then 0 else (db.contents s).length
    first_le := fun s => (db.first_le s).trans (db.written_le s)
    written_le := fun _ => le_rfl
    committed_le := fun s => by split_ifs <;> omega
    durable_le := fun _ => le_rfl }

/-- A reopened database from which nothing was removed. -/
def Engine.ofContents (contents : Fin n → List Bytes) (hshards : n ≤ 256)
    (hroom : ∀ s, ((contents s).length + 1) * 2 ^ (shardBits n).toNat < 2 ^ 64) : Engine n where
  contents := contents
  first := fun _ => 0
  written := fun s => (contents s).length
  committed := fun s => (contents s).length
  durable := fun s => (contents s).length
  shards_le := hshards
  room := hroom
  first_le := fun _ => Nat.zero_le _
  written_le := fun _ => le_rfl
  committed_le := fun _ => le_rfl
  durable_le := fun _ => le_rfl

theorem Engine.reopen_congr {db db' : Engine n} (hc : db'.contents = db.contents)
    (hf : db'.first = db.first) : db'.reopen.stored = db.reopen.stored := by
  funext s i
  show ite (db'.first s ≤ i ∧ i < (db'.contents s).length) (db'.contents s)[i]? none = _
  rw [hc, hf]
  rfl

theorem Engine.stored_reopen {db : Engine n} {s : Fin n} (hf : db.first s = 0)
    (i : ℕ) : db.reopen.stored s i = (db.contents s)[i]? := by
  refine ext fun content => ?_
  rw [stored_eq_some_iff]
  constructor
  · exact fun h => h.2
  · exact fun h => ⟨⟨hf.trans_le (Nat.zero_le i), (List.getElem?_eq_some_iff.mp h).1⟩, h⟩

theorem Engine.stored_ofContents {contents : Fin n → List Bytes} {hs : n ≤ 256}
    {hr : ∀ s, ((contents s).length + 1) * 2 ^ (shardBits n).toNat < 2 ^ 64} (s : Fin n)
    (i : ℕ) : (ofContents contents hs hr).stored s i = (contents s)[i]? :=
  show (ofContents contents hs hr).reopen.stored s i = _ from stored_reopen rfl i

-- Named once: engines of one and of two shards are defined in several modules.
theorem one_le_256 : 1 ≤ 256 := by decide

theorem two_le_256 : 2 ≤ 256 := by decide

scoped instance neZero_one : NeZero 1 := ⟨one_ne_zero⟩

scoped instance neZero_two : NeZero 2 := ⟨two_ne_zero⟩

def Engine.empty (hshards : n ≤ 256) : Engine n :=
  .ofContents (fun _ => []) hshards fun s => by
    have hbits := (shardBits_spec hshards s.2).1
    have hpow : 2 ^ (shardBits n).toNat ≤ 2 ^ 8 := Nat.pow_le_pow_right (by decide) hbits
    simp only [length_nil]
    omega

theorem Engine.stored_empty {hs : n ≤ 256} (s : Fin n) (i : ℕ) :
    (Engine.empty hs).stored s i = none :=
  stored_ofContents s i

theorem Engine.scan_empty {hs : n ≤ 256} (fromId toId : ℕ) :
    (Engine.empty hs).scan fromId toId = [] := by
  rw [eq_nil_iff_forall_not_mem]
  intro r hr
  obtain ⟨-, s, i, hr, -⟩ := mem_scan.mp hr
  rw [stored_empty] at hr
  cases hr

/-! ## Cursors -/

section

variable {n : ℕ} (cursors : Fin n → ℕ)

theorem minCursor_le (s : Fin n) : minCursor cursors ≤ cursors s := by
  unfold minCursor
  cases hm : (ofFn cursors).min? with
  | none => exact Nat.zero_le _
  | some m =>
    exact (min?_eq_some_iff.mp hm).2 _ (mem_ofFn.mpr ⟨s, rfl⟩)

theorem exists_minCursor_eq (hn : 0 < n) : ∃ s, cursors s = minCursor cursors := by
  unfold minCursor
  cases hm : (ofFn cursors).min? with
  | none =>
    have he := min?_eq_none_iff.mp hm
    rw [ofFn_eq_nil_iff] at he
    omega
  | some m =>
    obtain ⟨s, hs⟩ := mem_ofFn.mp (min?_eq_some_iff.mp hm).1
    exact ⟨s, hs⟩

end

end LogDb.Daemon
