import LogDb.Pipeline.ShardScan
import LogDb.Database.Run

/-!
The scan over all shards is the merge of their scans.

`LogDb::read` and `LogDb::read_batch`: an id belongs to one shard, and only what that shard has made
durable is read.
-/

namespace LogDb.Database

open Lib Format Reader Pipeline List Storage

section

variable {C : Crates} {c : Config} {hc : c.Valid} {inits : Fin c.shards → Bytes32}
  {db : Fin c.shards → ShardState} {logs : Fin c.shards → Log}

theorem recordId_ne {s t : Fin c.shards} (hst : s ≠ t)
    (hs : LogShape C (shardConfig hc inits s) (logs s))
    (ht : LogShape C (shardConfig hc inits t) (logs t)) {v w : ReadView}
    (hv : v ∈ (logs s).published) (hw : w ∈ (logs t).published) : v.recordId ≠ w.recordId := by
  obtain ⟨i, hi, rfl⟩ := getElem_of_mem hv
  obtain ⟨j, hj, rfl⟩ := getElem_of_mem hw
  rw [hs.recordId_eq hi, ht.recordId_eq hj]
  intro heq
  have hs' : decodeRecordId ((shardConfig hc inits s).recordId i) (shardBits c.shards) =
      ((s : ℕ), i) := decodeRecordId_encodeRecordId hs.fits hi.le
  have ht' : decodeRecordId ((shardConfig hc inits t).recordId j) (shardBits c.shards) =
      ((t : ℕ), j) := decodeRecordId_encodeRecordId ht.fits hj.le
  rw [heq, ht'] at hs'
  exact hst (Fin.ext (congrArg Prod.fst hs').symm)

theorem mem_records {log : Log} {cfg : ShardConfig} (hs : LogShape C cfg log) {v : ReadView}
    (hv : v ∈ log.records) : v ∈ log.published := by
  obtain ⟨seg, he, hm⟩ := mem_flatMap.mp hv
  exact hs.mem_published seg he v hm

theorem scanIter_of_shards {fromId toId : UInt64}
    (hs : ∀ s, LogShape C (shardConfig hc inits s) (logs s))
    (ho : ∀ s, LogOrder (shardConfig hc inits s) (logs s))
    (hsc : ∀ s, shardScanner C (db s).disk c.encryptionKeys fromId toId =
      ((logs s).records.map ReadView.toRecord).filter (inRange fromId toId)) :
    (scanIter C c.encryptionKeys ((List.finRange c.shards).map fun s => (db s).disk) fromId
        toId).Perm
        ((List.finRange c.shards).flatMap fun s =>
          ((logs s).records.map ReadView.toRecord).filter (inRange fromId toId)) ∧
      (scanIter C c.encryptionKeys ((List.finRange c.shards).map fun s => (db s).disk) fromId
        toId).Pairwise fun a b => recordKey a < recordKey b := by
  have hp := scanIter_spec C c.encryptionKeys
    ((finRange c.shards).map fun s => (db s).disk) fromId toId (by
      intro d hd
      obtain ⟨s, -, rfl⟩ := mem_map.mp hd
      rw [hsc s]
      exact (pairwise_toRecord ((ho s).records_sorted (hs s))).filter _) (by
      apply pairwise_map.mpr
      apply (nodup_finRange c.shards).imp
      intro s t ht a ha b hb heq
      rw [hsc s] at ha
      rw [hsc t] at hb
      obtain ⟨v, hv, rfl⟩ := mem_map.mp (mem_filter.mp ha).1
      obtain ⟨w, hw, rfl⟩ := mem_map.mp (mem_filter.mp hb).1
      exact recordId_ne ht (hs s) (hs t) (mem_records (hs s) hv)
        (mem_records (hs t) hw) (UInt64.toNat_inj.mp heq))
  simp only [flatMap_map, hsc] at hp
  exact hp

end

section

variable (C : Crates) (c : Config) (durable : Fin c.shards → ℕ) (disks : Fin c.shards → Disk)

/-- `LogDb::read`. The cursor of a shard that does not exist counts as 0. -/
def read (recordId : UInt64) : Except ReadError (Option Record) :=
  let id := decodeRecordId recordId (shardBits c.shards)
  if h : id.1 < c.shards then
    if durable ⟨id.1, h⟩ ≤ id.2 then .ok none
    else Reader.read C (disks ⟨id.1, h⟩) c.encryptionKeys recordId
  else .ok none

/-- The ids that are durable in a shard, each with its slot in the result. -/
def liveTargets (ids : List UInt64) (s : Fin c.shards) : List (ℕ × UInt64) :=
  ids.zipIdx.filterMap fun i =>
    let id := decodeRecordId i.1 (shardBits c.shards)
    if id.1 = s ∧ id.2 < durable s then some (i.2, i.1) else none

/-- `LogDb::read_batch`, with the order in which the map from shards to slots is walked. Shards that
do not exist have nothing durable and are passed over. -/
def readBatch (ids : List UInt64) : List (Fin c.shards) → List (Option Record) →
    Except ReadError (List (Option Record))
  | [], results => .ok results
  | s :: order, results =>
    let live := liveTargets c durable ids s
    if live = [] then readBatch ids order results
    else
      match Reader.readBatch C (disks s) c.encryptionKeys (live.map Prod.snd) with
      | .error e => .error e
      | .ok batch => readBatch ids order (storeResults results ((live.map Prod.fst).zip batch))

end

section

variable {C : Crates} {c : Config} {hc : c.Valid} {inits : Fin c.shards → Bytes32}
  {logs : Fin c.shards → Log}

theorem eq_singleton {l : List Record} {x : Record}
    (hs : l.Pairwise fun a b => recordKey a < recordKey b) (hl : ∀ r ∈ l, r = x)
    (hx : x ∈ l) : l = [x] := by
  cases l with
  | nil => exact absurd hx not_mem_nil
  | cons a l =>
    obtain ⟨ha, -⟩ := pairwise_cons.mp hs
    obtain rfl := hl a mem_cons_self
    cases l with
    | nil => rfl
    | cons b l =>
      have hlt := ha b mem_cons_self
      rw [hl b (mem_cons_of_mem _ mem_cons_self)] at hlt
      exact absurd hlt (lt_irrefl _)

theorem inRange_succ_iff {id : UInt64} (hid : id < 0xFFFFFFFFFFFFFFFF) {r : Record} :
    inRange id (id + 1) r = true ↔ r.id.sequence = id := by
  have hn : id.toNat < 2 ^ 64 - 1 := UInt64.lt_iff_toNat_lt.mp hid
  have hs : (id + 1).toNat = id.toNat + 1 := by
    rw [UInt64.toNat_add]
    exact Nat.mod_eq_of_lt (by simp; omega)
  unfold inRange
  rw [decide_eq_true_iff, UInt64.le_iff_toNat_le, UInt64.lt_iff_toNat_lt, hs, ← UInt64.toNat_inj]
  omega

theorem eq_of_recordId (hs : ∀ s, LogShape C (shardConfig hc inits s) (logs s))
    {s t : Fin c.shards} {v w : ReadView} (hv : v ∈ (logs s).published)
    (hw : w ∈ (logs t).published) (heq : v.recordId = w.recordId) : v = w := by
  by_cases ht : s = t
  · subst ht
    obtain ⟨i, hi, rfl⟩ := getElem_of_mem hv
    obtain ⟨j, hj, rfl⟩ := getElem_of_mem hw
    rw [(hs s).recordId_eq hi, (hs s).recordId_eq hj] at heq
    rcases lt_trichotomy i j with hij | rfl | hji
    · exact absurd heq (UInt64.ne_of_lt ((hs s).recordId_lt hij hj.le))
    · rfl
    · exact absurd heq.symm (UInt64.ne_of_lt ((hs s).recordId_lt hji hi.le))
  · exact absurd heq (recordId_ne ht (hs s) (hs t) hv hw)

end

/-- In every run whose steps are in the limits and never pass by a prepared segment, a record that is
durable is found under its id, and a scan of this id alone gives exactly this record. -/
theorem read_of_durable {C : Crates} (hC : C.Lawful) {c : Config} (hc : c.Valid)
    {inits : Fin c.shards → Bytes32} {db : Fin c.shards → ShardState}
    (h : DbReachable C hc inits (UnpreparedStep C) db) (s : Fin c.shards) {i : ℕ}
    (hi : i < (db s).durable) :
    ∃ v, (db s).published[i]? = some v ∧ v.recordId = (shardConfig hc inits s).recordId i ∧
      read C c (fun t => (db t).durable) (fun t => (db t).disk) v.recordId =
        .ok (some v.toRecord) ∧
      scanIter C c.encryptionKeys ((List.finRange c.shards).map fun t => (db t).disk) v.recordId
        (v.recordId + 1) = [v.toRecord] := by
  -- an unprepared run is one of a separated log with all committed records
  choose logs he hh using fun t =>
    refines_of_reachable (fun l => l.prepared = none) True hC (fun _ _ hok => ⟨hok.1.1, hok.1.2.2⟩)
      (fun _ _ ht _ _ _ _ _ hok hf => ht.unprepared hok.2 hf)
      (fun _ _ _ hok => hok.1.2.1) (h.shard t)
  have hs := fun t => LogShape.of_reachable (hh t)
  have ho := fun t => LogOrder.of_reachable (hh t)
  have hp := fun t => LogSeparated.of_reachable (fun _ hl => hl) (hh t)
  have hrc := Log.records_of_reachable (hh s)
  have hcom : i < (logs s).committed := by
    rw [← (he s).committed_eq]
    exact hi.trans_le (h.shard s).durable_le
  have hlt : i < (logs s).published.length := hcom.trans_le (hs s).committed_le
  set v := (logs s).published[i]
  have hv : (db s).published[i]? = some v := by
    rw [(he s).published_eq]
    exact getElem?_eq_getElem hlt
  have hid : v.recordId = (shardConfig hc inits s).recordId i := (hs s).recordId_eq hlt
  have hm : v ∈ (logs s).records := by
    rw [hrc]
    exact mem_take_iff_getElem.mpr ⟨i, lt_min hcom hlt, rfl⟩
  refine ⟨v, hv, hid, ?_, ?_⟩
  · have hd : decodeRecordId v.recordId (shardBits c.shards) = ((s : ℕ), i) := by
      rw [hid]
      exact decodeRecordId_encodeRecordId (hs s).fits hlt.le
    unfold read
    simp only [hd]
    rw [dif_pos s.2, if_neg (not_le.mpr hi)]
    exact (he s).read_eq (hs s) (ho s) (hp s) hm
  · have hx : v.recordId < 0xFFFFFFFFFFFFFFFF := by
      rw [hid]
      exact (hs s).recordId_lt_max hlt.le
    have hsc := fun t => (he t).shardScanner_separated (hs t) (ho t) (hp t)
      v.recordId (v.recordId + 1)
    obtain ⟨hpm, hso⟩ := scanIter_of_shards hs ho hsc
    apply eq_singleton hso
    · intro r hr
      obtain ⟨t, -, hr⟩ := mem_flatMap.mp (hpm.mem_iff.mp hr)
      obtain ⟨hr, hn⟩ := mem_filter.mp hr
      obtain ⟨w, hw, rfl⟩ := mem_map.mp hr
      have heq := (inRange_succ_iff hx).mp hn
      rw [eq_of_recordId hs (mem_records (hs t) hw) (mem_records (hs s) hm) heq]
    · apply hpm.mem_iff.mpr
      apply mem_flatMap.mpr
      refine ⟨s, mem_finRange s, mem_filter.mpr ⟨mem_map_of_mem hm, ?_⟩⟩
      exact (inRange_succ_iff hx).mpr rfl

theorem read_of_durable_two_records : ∃ (st : ShardState) (v : ReadView),
    st.durable = 2 ∧ v.content = [104, 105] ∧
      read rawCrates rawConfig (fun _ => st.durable) (fun _ => st.disk) 1 =
        .ok (some v.toRecord) ∧
      scanIter rawCrates rawConfig.encryptionKeys [st.disk] 1 2 = [v.toRecord] := by
  obtain ⟨-, st, hr, ht⟩ := follows_twoRecords
  have hy : ShardReachable rawCrates rawShard (UnpreparedStep rawCrates rawShard) st.sync :=
    hr.step (show ShardEvent.sync.Enabled rawShard st from trivial)
      ⟨⟨trivial, trivial, trivial⟩, trivial⟩
  have hd : st.sync.durable = 2 := ht.committed_eq
  obtain ⟨v, hv, hid, hrd, hs⟩ := read_of_durable rawCrates_lawful rawConfig_valid
    (dbReachable_raw hy) (0 : Fin 1) (hd.symm ▸ one_lt_two)
  have hid' : v.recordId = 1 := hid
  rw [hid'] at hrd hs
  refine ⟨st.sync, v, hd, ?_, hrd, hs⟩
  have hp : st.published = twoRecords.published := ht.published_eq
  have hv' : st.published[1]? = some v := hv
  rw [hp] at hv'
  cases hv'
  rfl

/-- The second record goes to the first segment after the next one was prepared with its id as
base: it is durable, but a point read and a scan look for it in the empty segment. -/
theorem durable_record_not_read : ∃ st : ShardState,
    DbReachable rawCrates rawConfig_valid (fun _ => zeros32)
      (fun cfg st ev => ev.InLimits rawCrates cfg st) (fun _ => st) ∧
    st.durable = 2 ∧ st.published.length = 2 ∧
    read rawCrates rawConfig (fun _ => st.durable) (fun _ => st.disk) 1 = .ok none ∧
    scanIter rawCrates rawConfig.encryptionKeys [st.disk] 1 2 = [] := by
  obtain ⟨hs, st, hh, ht⟩ := follows_rawStale
  have ho : LogOrder rawShard _ := .of_reachable logReachable_rawStale
  set log := stalePrepared rawCrates rawShard largeRecord smallRecord
  set first : LogSegment := log.active
  set second : LogSegment := ⟨2, 1, zeros32, []⟩
  have hy : ShardReachable rawCrates rawShard (ShardEvent.InLimits rawCrates rawShard) st.sync :=
    hh.step (show ShardEvent.sync.Enabled rawShard st from trivial) ⟨trivial, trivial, trivial⟩
  have hr := ht.sync hs
  have hd : second ∈ log.segments := mem_cons_of_mem first mem_cons_self
  have hm : manifest rawCrates st.sync.disk =
      [first.entry rawCrates rawShard, second.entry rawCrates rawShard] := hr.manifest_eq
  have hp : partitionPoint (fun e : ManifestEntry => decide (e.baseSequence ≤ 1))
      (manifest rawCrates st.sync.disk) = 2 := by
    have ha : ∀ e ∈ manifest rawCrates st.sync.disk, decide (e.baseSequence ≤ 1) = true := by
      rw [hm]
      intro e he
      rcases mem_cons.mp he with rfl | he
      · decide
      · rw [mem_singleton.mp he]
        decide
    have hl := partitionPoint_append ha (fun e he => absurd he not_mem_nil)
    rw [append_nil] at hl
    rw [hl, hm]
    rfl
  have hf : findInCache (manifest rawCrates st.sync.disk) 1 =
      some (second.entry rawCrates rawShard) := by
    unfold findInCache
    simp only [hp]
    rw [hm]
    rfl
  have hu : st.sync.durable = 2 := ht.committed_eq
  refine ⟨st.sync, dbReachable_raw hy, hu, ?_, ?_, ?_⟩
  · exact congrArg length ht.published_eq
  · have hrd := hr.read_empty hs ho hd rfl hf
    have hdec : decodeRecordId 1 (shardBits rawConfig.shards) = (0, 1) := by decide
    unfold read
    simp only [hdec, hu]
    exact hrd
  · show shardScanner rawCrates st.sync.disk rawShard.encryptionKeys 1 2 = []
    unfold shardScanner segmentsFrom
    rw [hp, hm]
    show scanSegments rawCrates st.sync.disk _ 1 2 [second.entry rawCrates rawShard] = []
    unfold scanSegments
    rw [if_neg (by decide), hr.iterForSegment_eq hs ho hd]
    rfl

end LogDb.Database
