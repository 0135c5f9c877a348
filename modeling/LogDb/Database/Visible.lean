import LogDb.Database.Read

/-!
What readers see while the shards go on. Point reads look at the durable cursor first. Scans do not:
a scanner opens one segment file after the other, each as it is then, and hands out what it found
later on.
-/

namespace LogDb.Database

open Lib Format Storage Reader Pipeline List Function Option

variable {c : Config} {C : Crates} {ids : List UInt64} {e : ManifestEntry} {r : Record}
  {cfg : ShardConfig} {st : ShardState} {ok : StepCondition} {fromId toId : UInt64}

/-- A `ShardScanner`: the entries that are left, and what the current iterator still yields. -/
structure Scanner where
  fromId : UInt64
  toId : UInt64
  segments : List ManifestEntry
  cur : List Record

namespace Scanner

def new (entries : List ManifestEntry) (fromId toId : UInt64) : Scanner where
  fromId := fromId
  toId := toId
  segments := segmentsFrom entries fromId
  cur := []

/-- One round of `load_next_segment`: the next entry is opened, skipped when it cannot be, or left
when it begins past the range. -/
def load (C : Crates) (keys : Option KeyRing) (d : Disk) (sc : Scanner) : Scanner :=
  match sc.segments with
  | [] => sc
  | e :: es =>
    { sc with
      segments := es
      cur := if sc.toId ≤ e.baseSequence then []
        else (iterForSegment C d keys sc.fromId sc.toId e).getD [] }

end Scanner

/-- A database with its cached manifests and one scan. `peeked` are the records that the scan has
pulled from its scanners and returns next; a scan of one shard uses one scanner only. The committed
cursor of a shard is stored when the batch is in the file already. -/
structure ScanState (n : ℕ) where
  db : Fin n → ShardState
  cache : Fin n → List ManifestEntry
  scanners : Fin n → Scanner
  peeked : Fin n → Option Record
  cursor : Fin n → ℕ

section

variable (C : Crates) {c : Config} (hc : c.Valid) (inits : Fin c.shards → Bytes32)
  (ok : StepCondition) (loadOk : ShardState → ℕ → Prop)

/-- Shards, manifests and the scan take their steps in any order. Files are opened in states that
meet `loadOk`. -/
inductive ScanStep : ScanState c.shards → ScanState c.shards → Prop where
  | db (s : ScanState c.shards) (db : Fin c.shards → ShardState)
      (h : DbStep C hc inits ok s.db db) : ScanStep s { s with db := db }
  | store (s : ScanState c.shards) (cursor : Fin c.shards → ℕ)
      (h : ∀ k, cursor k = s.cursor k ∨ cursor k = (s.db k).committed) : ScanStep s { s with cursor }
  | refresh (s : ScanState c.shards) (k : Fin c.shards) :
      ScanStep s { s with cache := update s.cache k (manifest C (s.db k).disk) }
  | build (s : ScanState c.shards) (fromId toId : UInt64) :
      ScanStep s { s with
        scanners := fun k => .new (s.cache k) fromId toId
        peeked := fun _ => none }
  | load (s : ScanState c.shards) (k : Fin c.shards) (hempty : (s.scanners k).cur = [])
      (hok : loadOk (s.db k) (s.cursor k)) :
      ScanStep s { s with
        scanners := update s.scanners k
          ((s.scanners k).load C c.encryptionKeys (s.db k).disk) }
  | pull (s : ScanState c.shards) (k : Fin c.shards) (r : Record) (rs : List Record)
      (hcur : (s.scanners k).cur = r :: rs) (hnone : s.peeked k = none) :
      ScanStep s { s with
        scanners := update s.scanners k { s.scanners k with cur := rs }
        peeked := update s.peeked k (some r) }
  | return (s : ScanState c.shards) (k : Fin c.shards) (r : Record) (hpeeked : s.peeked k = some r) :
      ScanStep s { s with peeked := update s.peeked k none }

/-- The states reached from a fresh database with nothing cached. -/
def ScanReachable (s : ScanState c.shards) : Prop :=
  ∃ db₀ scanners₀, (∀ k, ShardState.fresh C (shardConfig hc inits k) = .ok (db₀ k)) ∧
    (∀ k, (scanners₀ k).segments = [] ∧ (scanners₀ k).cur = []) ∧
    Relation.ReflTransGen (ScanStep C hc inits ok loadOk)
      ⟨db₀, fun _ => [], scanners₀, fun _ => none, fun _ => 0⟩ s

end

/-- The record is below the durable cursor of its shard. -/
def Visible (c : Config) (durable : Fin c.shards → ℕ) (r : Record) : Prop :=
  ∃ s : Fin c.shards, ∃ i < durable s,
    decodeRecordId r.id.sequence (shardBits c.shards) = ((s : ℕ), i)

/-- The cursor covers what is written to the files, and all of it is synced. -/
def AllSynced (st : ShardState) (cursor : ℕ) : Prop :=
  cursor = st.committed ∧ st.durable = cursor

section Point

variable {C : Crates} {c : Config} {durable : Fin c.shards → ℕ} {disks : Fin c.shards → Disk}

theorem mem_liveTargets {s : Fin c.shards} {t : ℕ × UInt64}
    (h : t ∈ liveTargets c durable ids s) : ids[t.1]? = some t.2 ∧
      ∃ i < durable s, decodeRecordId t.2 (shardBits c.shards) = ((s : ℕ), i) := by
  unfold liveTargets at h
  obtain ⟨⟨id, slot⟩, hm, hl⟩ := mem_filterMap.mp h
  simp only at hl
  split_ifs at hl with hd
  cases hl
  exact ⟨mem_zipIdx_iff_getElem?.mp hm, _, hd.2, Prod.ext hd.1 rfl⟩

/-- Every record stands in the slot of its id and is visible. -/
def AllVisible (c : Config) (durable : Fin c.shards → ℕ) (ids : List UInt64)
    (results : List (Option Record)) : Prop :=
  ∀ (j : ℕ) (r : Record), results[j]? = some (some r) →
    ids[j]? = some r.id.sequence ∧ Visible c durable r

theorem readBatch_visible {order : List (Fin c.shards)}
    {results results' : List (Option Record)} (h : AllVisible c durable ids results)
    (hr : readBatch C c durable disks ids order results = .ok results') :
    AllVisible c durable ids results' := by
  induction order generalizing results with
  | nil =>
    cases hr
    exact h
  | cons s order ih =>
    unfold readBatch at hr
    simp only at hr
    split_ifs at hr with hl
    · exact ih h hr
    · split at hr
      · cases hr
      · rename_i batch hb
        refine ih (storeResults_forall h fun slot r hm => ?_) hr
        -- the slot of the batch is the one of the id that was asked for
        obtain ⟨k, hk, hg⟩ := getElem_of_mem hm
        rw [length_zip, length_map, Nat.lt_min] at hk
        rw [getElem_zip, getElem_map, Prod.mk.injEq] at hg
        have hid := readBatch_requested hb k r
          ((getElem?_eq_getElem hk.2).trans (congrArg some hg.2))
        rw [getElem?_map, getElem?_eq_getElem hk.1, map_some, some.injEq] at hid
        obtain ⟨hs, i, hi, hd⟩ := mem_liveTargets (getElem_mem hk.1)
        rw [hg.1, hid] at hs
        rw [hid] at hd
        exact ⟨hs, s, i, hi, hd⟩

end Point

section Scans

variable {C : Crates} {c : Config} {hc : c.Valid} {inits : Fin c.shards → Bytes32}
  {ok : StepCondition} {loadOk : ShardState → ℕ → Prop} {s s' : ScanState c.shards}

theorem ScanReachable.db (h : ScanReachable C hc inits ok loadOk s) :
    DbReachable C hc inits ok s.db := by
  obtain ⟨db₀, scanners₀, hf, -, hr⟩ := h
  refine ⟨db₀, hf, ?_⟩
  induction hr with
  | refl => exact .refl
  | tail _ hs ih =>
    cases hs with
    | db db hd => exact ih.tail hd
    | _ => exact ih

/-- The entry was made for a segment of the shard with this configuration. -/
def EntryOf (C : Crates) (cfg : ShardConfig) (e : ManifestEntry) : Prop :=
  ∃ seg : LogSegment, e = seg.entry C cfg

/-- An old entry leads to the records that are committed now. -/
theorem mem_iterForSegment {log : Log}
    (h : Refines C cfg st log) (hh : LogShape C cfg log) (ho : LogOrder cfg log) (he : EntryOf C cfg e)
    (hr : r ∈ (iterForSegment C st.disk cfg.encryptionKeys fromId toId e).getD []) :
    ∃ i < st.committed, ∃ v, st.published[i]? = some v ∧ r = v.toRecord := by
  obtain ⟨old, rfl⟩ := he
  cases hg : st.disk.get old.id with
  | none =>
    unfold iterForSegment at hr
    rw [show (old.entry C cfg).segmentId = old.id from rfl, hg] at hr
    exact absurd hr not_mem_nil
  | some data =>
    obtain ⟨seg, hs, hf⟩ := exists_of_forall₂ h.files (Disk.mem_of_get hg)
    have hid : old.id = seg.id := hf.1
    -- opening an entry does not look at its base
    have hm : iterForSegment C st.disk cfg.encryptionKeys fromId toId (old.entry C cfg) =
        iterForSegment C st.disk cfg.encryptionKeys fromId toId (seg.entry C cfg) := by
      unfold LogSegment.entry LogSegment.header
      simp only [hid]
      rfl
    rw [hm, h.iterForSegment_eq hh ho hs] at hr
    obtain ⟨v, hv, rfl⟩ := mem_map.mp (mem_filter.mp hr).1
    obtain ⟨i, k, hi, hn⟩ := ho.spans seg hs
    obtain ⟨j, hj, -, hlt, rfl⟩ := hn.exists_getElem hv
    refine ⟨j, ?_, log.published[j], ?_, rfl⟩
    · rw [h.committed_eq]
      omega
    · rw [h.published_eq]
      exact getElem?_eq_getElem hj

def VisibleIn (c : Config) (db : Fin c.shards → ShardState) (k : Fin c.shards) (r : Record) : Prop :=
  ∃ i < (db k).durable, decodeRecordId r.id.sequence (shardBits c.shards) = ((k : ℕ), i)

/-- All that a scan holds is visible, and it only opens segments of its shards. -/
structure ScanInv (C : Crates) {c : Config} (hc : c.Valid) (inits : Fin c.shards → Bytes32)
    (s : ScanState c.shards) : Prop where
  cached : ∀ k, ∀ e ∈ s.cache k, EntryOf C (shardConfig hc inits k) e
  listed : ∀ k, ∀ e ∈ (s.scanners k).segments, EntryOf C (shardConfig hc inits k) e
  held : ∀ k, ∀ r ∈ (s.scanners k).cur, VisibleIn c s.db k r
  peeked : ∀ k, ∀ r ∈ s.peeked k, VisibleIn c s.db k r

theorem exists_ordered (hC : C.Lawful) (h : ShardReachable C cfg (BoundedStep C cfg) st) :
    ∃ log, Refines C cfg st log ∧ LogShape C cfg log ∧ LogOrder cfg log := by
  obtain ⟨log, hr, hh⟩ :=
    refines_of_reachable (fun _ => True) False hC (fun _ _ hok => hok)
      (fun _ _ _ _ _ _ _ _ _ _ => trivial) (fun hf => hf.elim) h
  exact ⟨log, hr, .of_reachable hh, .of_reachable hh⟩

theorem VisibleIn.step {db db' : Fin c.shards → ShardState} {k : Fin c.shards}
    (h : VisibleIn c db k r) (hr : DbReachable C hc inits ok db)
    (hs : DbStep C hc inits ok db db') : VisibleIn c db' k r := by
  obtain ⟨i, hi, hd⟩ := h
  refine ⟨i, hi.trans_le ?_, hd⟩
  cases hs with
  | shard t st hsd =>
    by_cases hk : k = t
    · subst hk
      obtain ⟨ev, -, -, rfl⟩ := hsd
      rw [update_self]
      cases ev with
      | commit count nonce checkpoint env =>
        exact ((db k).commitBatch_durable C _ count nonce checkpoint env).ge
      | sync => exact (hr.shard k).durable_le
      | _ => exact le_rfl
    · rw [update_of_ne hk]

section

variable (h : ScanInv C hc inits s) (k : Fin c.shards)
include h

theorem ScanInv.setScanner (sc : Scanner)
    (hl : ∀ e ∈ sc.segments, EntryOf C (shardConfig hc inits k) e)
    (hh : ∀ r ∈ sc.cur, VisibleIn c s.db k r) :
    ScanInv C hc inits { s with scanners := update s.scanners k sc } where
  cached := h.cached
  listed := (forall_update_iff s.scanners fun j sc => ∀ e ∈ sc.segments,
    EntryOf C (shardConfig hc inits j) e).mpr ⟨hl, fun j _ => h.listed j⟩
  held := (forall_update_iff s.scanners fun j sc => ∀ r ∈ sc.cur, VisibleIn c s.db j r).mpr
    ⟨hh, fun j _ => h.held j⟩
  peeked := h.peeked

theorem ScanInv.setPeeked {p : Option Record} (hp : ∀ r ∈ p, VisibleIn c s.db k r) :
    ScanInv C hc inits { s with peeked := update s.peeked k p } :=
  ⟨h.cached, h.listed, h.held, (forall_update_iff s.peeked fun j p => ∀ r ∈ p,
    VisibleIn c s.db j r).mpr ⟨hp, fun j _ => h.peeked j⟩⟩

end

theorem ScanInv.step (hC : C.Lawful) (hrh : DbReachable C hc inits (BoundedStep C) s.db)
    (h : ScanInv C hc inits s) (hp : ScanStep C hc inits (BoundedStep C) AllSynced s s') :
    ScanInv C hc inits s' := by
  cases hp with
  | db db hd =>
    exact ⟨h.cached, h.listed, fun k r hr => (h.held k r hr).step hrh hd,
      fun k r hr => (h.peeked k r hr).step hrh hd⟩
  | store _ _ => exact ⟨h.cached, h.listed, h.held, h.peeked⟩
  | refresh k =>
    refine ⟨(forall_update_iff s.cache fun j es => ∀ e ∈ es,
      EntryOf C (shardConfig hc inits j) e).mpr ⟨fun e he => ?_, fun j _ => h.cached j⟩,
      h.listed, h.held, h.peeked⟩
    obtain ⟨log, hf, -, -⟩ := exists_ordered hC (hrh.shard k)
    rw [hf.manifest_eq] at he
    obtain ⟨seg, -, rfl⟩ := mem_map.mp he
    exact ⟨seg, rfl⟩
  | build fromId toId =>
    refine ⟨h.cached, fun k e he => h.cached k e (mem_of_mem_drop he), ?_, ?_⟩
    · exact fun k r hr => absurd hr not_mem_nil
    · exact fun k r hr => by cases hr
  | load k hm hy =>
    unfold Scanner.load
    cases hg : (s.scanners k).segments with
    | nil => exact h.setScanner k _ (h.listed k) (h.held k)
    | cons e es =>
      have hl := h.listed k
      rw [hg, forall_mem_cons] at hl
      refine h.setScanner k _ hl.2 fun r hr => ?_
      dsimp only at hr
      split_ifs at hr
      · exact absurd hr not_mem_nil
      · obtain ⟨log, hf, hs, ha⟩ := exists_ordered hC (hrh.shard k)
        obtain ⟨i, hi, v, hv, rfl⟩ := mem_iterForSegment hf hs ha hl.1 hr
        rw [hf.published_eq] at hv
        obtain ⟨hlt, rfl⟩ := List.getElem?_eq_some_iff.mp hv
        refine ⟨i, (hy.2.trans hy.1).symm ▸ hi, ?_⟩
        rw [show log.published[i].toRecord.id.sequence = log.published[i].recordId from rfl,
          hs.recordId_eq hlt]
        exact decodeRecordId_encodeRecordId hs.fits hlt.le
  | pull k r rs hu hnn =>
    have hh : ∀ x ∈ r :: rs, VisibleIn c s.db k x := fun x hx => h.held k x (hu ▸ hx)
    rw [forall_mem_cons] at hh
    exact (h.setScanner k { s.scanners k with cur := rs } (h.listed k) hh.2).setPeeked k
      fun x hx => Option.some.inj hx ▸ hh.1
  | «return» k r hpk => exact h.setPeeked k fun x hx => by cases hx

theorem ScanInv.of_reachable (hC : C.Lawful)
    (h : ScanReachable C hc inits (BoundedStep C) AllSynced s) : ScanInv C hc inits s := by
  obtain ⟨db₀, scanners₀, hf, hm, hu⟩ := h
  induction hu with
  | refl =>
    constructor
    · exact fun k e he => absurd he not_mem_nil
    · intro k e he
      rw [(hm k).1] at he
      exact absurd he not_mem_nil
    · intro k r hr
      rw [(hm k).2] at hr
      exact absurd hr not_mem_nil
    · exact fun k r hr => by cases hr
  | @tail a b hu hsp ih =>
    have hh : ScanReachable C hc inits (BoundedStep C) AllSynced a := ⟨db₀, scanners₀, hf, hm, hu⟩
    exact ih.step hC hh.db hsp

end Scans

/-- Point reads and batch reads return visible records only. A scan does when it opens its files
in states in which all that is written to them is committed and synced. -/
theorem visible_of_returned {C : Crates} (hC : C.Lawful) {c : Config} (hc : c.Valid)
    (inits : Fin c.shards → Bytes32) :
    (∀ (durable : Fin c.shards → ℕ) (disks : Fin c.shards → Disk) (recordId : UInt64) (r : Record),
      read C c durable disks recordId = .ok (some r) → Visible c durable r) ∧
    (∀ (durable : Fin c.shards → ℕ) (disks : Fin c.shards → Disk) (ids : List UInt64)
      (order : List (Fin c.shards)) (results : List (Option Record)),
      readBatch C c durable disks ids order (List.replicate ids.length none) = .ok results →
        ∀ r, some r ∈ results → Visible c durable r) ∧
    ∀ s : ScanState c.shards, ScanReachable C hc inits (BoundedStep C) AllSynced s →
      ∀ (k : Fin c.shards) (r : Record), s.peeked k = some r →
        ∃ i < (s.db k).durable, decodeRecordId r.id.sequence (shardBits c.shards) = ((k : ℕ), i) := by
  refine ⟨?_, ?_, ?_⟩
  · intro durable disks recordId r hd
    unfold read at hd
    simp only at hd
    split_ifs at hd with hsd hlt
    · cases hd
    · refine ⟨⟨_, hsd⟩, _, not_le.mp hlt, ?_⟩
      rw [read_id hd]
    · cases hd
  · intro durable disks ids order results hd r hr
    have hn : AllVisible c durable ids (replicate ids.length none) := by
      intro j r hj
      cases (mem_replicate.mp (mem_of_getElem? hj)).2
    obtain ⟨j, hj, hg⟩ := getElem_of_mem hr
    exact (readBatch_visible hn hd j r ((getElem?_eq_getElem hj).trans (congrArg some hg))).2
  · intro s hs k r hp
    exact (ScanInv.of_reachable hC hs).peeked k r hp

theorem scanReachable_of_db {hc : c.Valid}
    {inits : Fin c.shards → Bytes32} (loadOk : ShardState → ℕ → Prop)
    {db : Fin c.shards → ShardState} (h : DbReachable C hc inits ok db) :
    ScanReachable C hc inits ok loadOk
      ⟨db, fun _ => [], fun _ => .new [] 0 0, fun _ => none, fun _ => 0⟩ := by
  obtain ⟨db₀, hf, hr⟩ := h
  refine ⟨db₀, fun _ => .new [] 0 0, hf, fun k => ⟨drop_nil, rfl⟩, ?_⟩
  exact hr.lift (ScanState.mk · _ _ _ _) fun _ _ hs => ScanStep.db _ _ hs

theorem exists_pulled_twoRecords (loadOk : ShardState → ℕ → Prop)
    (hh : DbReachable rawCrates rawConfig_valid (fun _ => zeros32) ok fun _ => st)
    (hs : Refines rawCrates rawShard st twoRecords) (hl : loadOk st st.committed) :
    ∃ s : ScanState rawConfig.shards,
      ScanReachable rawCrates rawConfig_valid (fun _ => zeros32) ok loadOk s ∧
      s.db = (fun _ => st) ∧
      s.peeked (0 : Fin 1) = some (nextView rawCrates rawShard [] 0 smallRecord).toRecord := by
  set v := nextView rawCrates rawShard [] 0 smallRecord
  set w := nextView rawCrates rawShard [v] 0 smallRecord
  set first : LogSegment := twoRecords.active
  have hm : manifest rawCrates st.disk = [first.entry rawCrates rawShard] := hs.manifest_eq
  have hu : (iterForSegment rawCrates st.disk rawShard.encryptionKeys 0 0xFFFFFFFFFFFFFFFF
      (first.entry rawCrates rawShard)).getD [] = [v.toRecord, w.toRecord] := by
    rw [hs.iterForSegment_eq (.of_reachable logReachable_twoRecords)
      (.of_reachable logReachable_twoRecords) mem_cons_self]
    rfl
  obtain ⟨db₀, scanners₀, hf, he, hr⟩ := scanReachable_of_db loadOk hh
  have hd := (((hr.tail (.store _ (fun _ => st.committed) fun _ => .inr rfl)).tail
    (.refresh _ (0 : Fin 1))).tail (.build _ 0 0xFFFFFFFFFFFFFFFF)).tail
    (.load _ (0 : Fin 1) rfl hl)
  refine ⟨_, ⟨db₀, scanners₀, hf, he, hd.tail
    (.pull _ (0 : Fin 1) v.toRecord [w.toRecord] ?_ rfl)⟩, rfl, ?_⟩
  · simp only [hm]
    exact hu
  · rfl

theorem visible_of_returned_two_records : ∃ s : ScanState rawConfig.shards,
    s.peeked (0 : Fin 1) = some (nextView rawCrates rawShard [] 0 smallRecord).toRecord ∧
      ∃ i < (s.db (0 : Fin 1)).durable, i = 0 := by
  obtain ⟨hh, st, hr, ht⟩ := follows_twoRecords
  have hy : ShardReachable rawCrates rawShard (BoundedStep rawCrates rawShard) st.sync :=
    (hr.mono fun _ _ hok => ⟨hok.1.1, hok.1.2.2⟩).step
      (show ShardEvent.sync.Enabled rawShard st from trivial) ⟨trivial, trivial⟩
  obtain ⟨s, hs, -, hp⟩ := exists_pulled_twoRecords AllSynced (dbReachable_raw hy)
    (ht.sync hh) ⟨rfl, rfl⟩
  obtain ⟨-, -, hsc⟩ := visible_of_returned rawCrates_lawful rawConfig_valid (fun _ => zeros32)
  obtain ⟨i, hi, hd⟩ := hsc s hs (0 : Fin 1) _ hp
  refine ⟨s, hp, i, hi, ?_⟩
  exact (congrArg Prod.snd hd).symm

/-- A scan that opens the file between the write and the sync returns a record that is not
durable. -/
theorem scan_returns_unsynced : ∃ s : ScanState rawConfig.shards,
    ScanReachable rawCrates rawConfig_valid (fun _ => zeros32)
      (fun cfg st ev => ev.InLimits rawCrates cfg st) (fun _ _ => True) s ∧
    (s.db (0 : Fin 1)).durable = 0 ∧
    s.peeked (0 : Fin 1) = some (nextView rawCrates rawShard [] 0 smallRecord).toRecord := by
  obtain ⟨-, st, hr, ht⟩ := follows_twoRecords_unsynced
  have hl : ShardReachable rawCrates rawShard (ShardEvent.InLimits rawCrates rawShard) st :=
    hr.mono fun _ _ hok => hok.1.1
  obtain ⟨s, hs, hd, hp⟩ := exists_pulled_twoRecords (fun _ _ => True)
    (dbReachable_raw hl) ht trivial
  refine ⟨s, hs, ?_, hp⟩
  rw [hd]
  exact durable_of_unsynced hr

end LogDb.Database
