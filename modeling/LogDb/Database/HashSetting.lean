import LogDb.Database.Layout
import LogDb.Database.Reopen

/-!
Sessions with different hash settings on one directory. Whether a record gets a chain hash is
decided by the session, whether recovery checks it by the first header: a session without hashing
on a directory that was created with it writes records that the next open cuts off.
-/

namespace LogDb.Database

open Lib Format Storage Recovery Reader Pipeline List ReadView DirEvent ShardDir

section

variable (C : Crates)

/-- The directory between two sessions. -/
structure ClosedShard (keys : Option KeyRing) (n s : ℕ) (d : Disk) (header : SegmentHeader)
    (views : List ReadView) (hdr body : Bytes) : Prop extends
    KeptShard C keys n s d header views hdr body where
  chain : header.hashEnabled = true → ChainFrom C (chainKeyOf C header keys views.head?) zeros32
    (views.map toRecord)

/-- Such a session, with the records in a hash chain if the segment is to have one. -/
structure ChainedSession (keys : Option KeyRing) (n s : ℕ) (ss : Session) (d : Disk)
    (header : SegmentHeader) (old : List ReadView) (hdr body : Bytes) : Prop extends
    SingleSession C keys n s ss d header old hdr body where
  lastHash_eq : ss.lastHash = old.getLast?.elim zeros32 ReadView.hashN
  chain : header.hashEnabled = true →
    ChainFrom C ss.hashInit zeros32 ((old ++ ss.published).map toRecord)
  key : header.hashEnabled = true →
    FindsChainKey C header keys (old ++ ss.published).head? ss.hashInit

/-- All sessions have the keys and the number of shards of `c`, and stay within one segment. -/
def DirEvent.OneSegment (c : Config) : ShardDir → DirEvent → Prop
  | .closed _, .open c' _ => c'.encryptionKeys = c.encryptionKeys ∧ c'.shards = c.shards
  | .running ss d, .commit count nonce checkpoint env =>
    ∀ f ∈ (ss.commitBatch C d count nonce checkpoint env).2.segments, f.1 = 1
  | _, _ => True

/-- A session on a directory that was created with hashing hashes its records too. Besides, the
first record tells the chain key from the other candidates, ids and frame lengths do not wrap. -/
def DirEvent.KeepsChain (c : Config) : ShardDir → DirEvent → Prop
  | .running ss d, .publish _ content =>
    (ss.mgr.hashEnabled = true → ss.config.hashEnabled = true) ∧
      (ss.next = 0 → ∀ header ∈ SegmentManager.readSegmentHeaderById C d 1,
        Unmistakable C header c.encryptionKeys ss.hashInit content) ∧
      (ss.next + 2) * 2 ^ (shardBits c.shards).toNat < 2 ^ 64
  | .running ss _, .commit count nonce _ _ => ss.FramesFit C count nonce
  | _, _ => True

def DirEvent.KeepsRecords (c : Config) (st : ShardDir) (ev : DirEvent) : Prop :=
  ev.OneSegment C c st ∧ ev.KeepsChain C c st

def ShardDir.Holding (keys : Option KeyRing) (n s : ℕ) (views : List ReadView) : ShardDir → Prop
  | .closed d => d = Disk.empty ∧ views = [] ∨
    ∃ header hdr body, ClosedShard C keys n s d header views hdr body
  | .running ss d => ∃ header old hdr body,
    ChainedSession C keys n s ss d header old hdr body ∧ views = old ++ ss.written

end

section

variable {C : Crates} {keys : Option KeyRing} {c : Config} {n s : ℕ} {ss : Session} {d : Disk}
  {header : SegmentHeader} {old views : List ReadView} {hdr body : Bytes} {o : OpenShard}

namespace ChainedSession

theorem ofOpen {chainKey : Bytes32} (hc : c.Valid)
    (he : KeptShard C c.encryptionKeys c.shards s o.disk header old hdr body)
    (hr : Resumes c header old (hdr ++ body).length chainKey o)
    (hch : header.hashEnabled = true → ChainFrom C chainKey zeros32 (old.map toRecord))
    (hk : header.hashEnabled = true → FindsChainKey C header c.encryptionKeys old.head? chainKey) :
    ChainedSession C c.encryptionKeys c.shards s (Session.ofOpen c s o) o.disk header old hdr
      body := by
  have hit : (Session.ofOpen c s o).hashInit = chainKey := hr.hashInit_eq
  refine { SingleSession.ofOpen hc he hr with lastHash_eq := hr.lastHash_eq, chain := ?_, key := ?_ }
  · intro hh
    rw [hit]
    simpa [Session.ofOpen] using hch hh
  · intro hh
    rw [hit]
    simpa [Session.ofOpen] using hk hh

section

variable (h : ChainedSession C keys n s ss d header old hdr body)
include h

theorem publish {ts : UInt64} {content : Bytes} (he : content.length ≤ ss.config.maxContentSize)
    (hha : ss.mgr.hashEnabled = true → ss.config.hashEnabled = true)
    (hd : ss.next = 0 → Unmistakable C header keys ss.hashInit content)
    (hl : (ss.next + 2) * 2 ^ (shardBits n).toNat < 2 ^ 64) :
    ChainedSession C keys n s (ss.publish C ts content) d header old hdr body := by
  set v := ss.nextView C ts content with hv
  have hp : (ss.publish C ts content).published = ss.published ++ [v] := rfl
  have hk : header.hashEnabled = true →
      blake3KeyedChain C ss.hashInit (hashAfter zeros32 ((old ++ ss.published).map
        toRecord)) v.content = v.hashN := by
    intro hh
    rw [← h.appends.hash_eq] at hh
    have hls : ss.chainHash = hashAfter zeros32 ((old ++ ss.published).map toRecord) := by
      rw [hashAfter_eq, Session.chainHash, h.lastHash_eq, map_append, getLast?_append,
        getLast?_map, getLast?_map]
      cases ss.published.getLast? <;> cases old.getLast? <;> rfl
    rw [← hls]
    simp [hv, Session.nextView, hha hh]
  refine { h.toSingleSession.publish he hl with
    lastHash_eq := h.lastHash_eq, chain := ?_, key := ?_ }
  · intro hh
    rw [hp, ← append_assoc, map_append, chainFrom_append]
    exact ⟨h.chain hh, hk hh, trivial⟩
  · intro hh
    have hf := h.key hh
    have hs := hk hh
    have hn := h.length_eq
    rw [hp, ← append_assoc]
    cases ha : old ++ ss.published with
    | nil =>
      rw [ha] at hf hs hn
      refine chainKeyOf_first hf ?_ (hd hn.symm)
      rw [h.kept.prev_eq]
      exact hs
    | cons w ws =>
      rw [ha] at hf
      exact hf

theorem sync : ChainedSession C keys n s (ss.sync d).1 (ss.sync d).2 header old hdr body :=
  { h.toSingleSession.sync with lastHash_eq := h.lastHash_eq, chain := h.chain, key := h.key }

theorem close (ha : ss.committed = ss.next) :
    ClosedShard C keys n s (ss.sync d).2 header (old ++ ss.written) hdr body := by
  refine { h.sync.kept with chain := ?_ }
  intro hh
  have hc := h.chain hh
  have hk := h.key hh
  rw [SingleSession.written_eq ha]
  cases hv : old ++ ss.published with
  | nil => trivial
  | cons v vs =>
    rw [hv] at hc hk
    rw [head?_cons, show chainKeyOf C header keys (some v) = ss.hashInit from hk]
    exact hc

end

end ChainedSession

theorem ShardDir.Holding.open (hc : c.Valid) (hs : s < c.shards)
    (h : (closed d).Holding C c.encryptionKeys c.shards s views) (freshInit : Bytes32) :
    ∃ o, openShard C c s freshInit d = .ok o ∧
      (running (Session.ofOpen c s o) o.disk).Holding C c.encryptionKeys c.shards s
        views := by
  rcases h with ⟨rfl, rfl⟩ | ⟨header, hdr, body, hl⟩
  · obtain ⟨o, ho, he, hr⟩ := openShard_fresh C hc hs freshInit
    refine ⟨o, ho, _, [], _, [], ChainedSession.ofOpen hc he hr ?_ ?_, ?_⟩
    · exact fun _ => trivial
    · intro hh
      rw [(c.firstHeader_flags C freshInit).2.2] at hh
      show KnownChainKey C (c.firstHeader C freshInit) c.encryptionKeys freshInit
      have hit : (c.firstHeader C freshInit).hashInit = c.headerHashInit C freshInit := rfl
      cases hk : c.encryptionKeys with
      | none => simp [KnownChainKey, hit, Config.headerHashInit, hk]
      | some ring =>
        right
        refine ⟨ring.active, by simp [candidateKeys, KeyRing.decryptKeys], ?_⟩
        unfold unmasked
        rw [hit]
        simp only [Config.headerHashInit, hk, hh, if_true]
        exact xor32_cancel _ _
    · rw [Session.written_ofOpen, append_nil]
  · obtain ⟨o, ho, hd, hr⟩ := openShard_kept hl.toKeptShard freshInit hl.chain
    refine ⟨o, ho, header, views, hdr, body, ?_, ?_⟩
    · apply ChainedSession.ofOpen hc _ hr hl.chain
      · exact fun _ => findsChainKey_chainKeyOf _
      · rw [hd]
        exact hl.toKeptShard
    · rw [Session.written_ofOpen, append_nil]

theorem ShardDir.Holding.step (hC : C.Lawful) {st st' : ShardDir}
    (h : st.Holding C c.encryptionKeys c.shards s views)
    (hsp : DirStep C s (KeepsRecords C c) st st') :
    ∃ more, st'.Holding C c.encryptionKeys c.shards s (views ++ more) := by
  obtain ⟨ev, ⟨hd, hc⟩, ht⟩ := hsp
  cases ht with
  | «open» hs hv hop =>
    obtain ⟨hk, hb⟩ := hd
    rw [← hk, ← hb] at h ⊢
    obtain ⟨o', ho', hh⟩ := h.open (Config.valid_of_validate hv) hs _
    cases hop.symm.trans ho'
    refine ⟨[], ?_⟩
    rw [append_nil]
    exact hh
  | publish hn =>
    obtain ⟨header, old, hdr, body, he, rfl⟩ := h
    obtain ⟨hha, hdt, hl⟩ := hc
    refine ⟨[], header, old, hdr, body, he.publish hn hha ?_ hl, ?_⟩
    · exact fun hz => hdt hz header he.kept.readHeader
    · rw [append_nil, he.written_publish]
  | commit ho hle =>
    obtain ⟨header, old, hdr, body, he, rfl⟩ := h
    obtain ⟨body', hse, more, hm⟩ := he.toSingleSession.commit hC ho hle hc hd
    -- the batch leaves the hashes of the session as they were
    obtain ⟨-, hp, -, hit, hls⟩ := Session.commitBatch_keeps
    refine ⟨more, header, old, hdr, body',
      { hse with lastHash_eq := ?_, chain := ?_, key := ?_ }, ?_⟩
    · rw [hls]
      exact he.lastHash_eq
    · rw [hp, hit]
      exact he.chain
    · rw [hp, hit]
      exact he.key
    · rw [append_assoc, hm]
  | sync =>
    obtain ⟨header, old, hdr, body, he, rfl⟩ := h
    refine ⟨[], header, old, hdr, body, he.sync, ?_⟩
    rw [append_nil]
    rfl
  | close ha =>
    obtain ⟨header, old, hdr, body, he, rfl⟩ := h
    refine ⟨[], .inr ⟨header, hdr, body, ?_⟩⟩
    rw [append_nil]
    exact he.close ha

theorem ShardDir.Holding.run (hC : C.Lawful) {st st' : ShardDir}
    (h : st.Holding C c.encryptionKeys c.shards s views)
    (hr : Relation.ReflTransGen (DirStep C s (KeepsRecords C c)) st st') :
    ∃ more, st'.Holding C c.encryptionKeys c.shards s (views ++ more) := by
  induction hr with
  | refl => exact ⟨[], by rwa [append_nil]⟩
  | tail _ hs ih =>
    obtain ⟨more, hm⟩ := ih
    obtain ⟨last, hl⟩ := hm.step hC hs
    exact ⟨more ++ last, by rwa [← append_assoc]⟩

theorem ShardDir.Holding.shardDirectory (h : (running ss d).Holding C keys n s views) :
    ∃ segs, ShardDirectory C keys n s d segs ∧ ∀ v ∈ views,
      v.toRecord ∈ recordsOf segs ∧ v.recordId < 0xFFFFFFFFFFFFFFFF := by
  obtain ⟨header, old, hdr, body, hs, rfl⟩ := h
  have hk := hs.kept
  refine ⟨_, hk.shardDirectory, fun v hv => ⟨?_, ?_⟩⟩
  · exact mem_recordsOf.mpr ⟨_, mem_singleton_self _, v, hv, rfl⟩
  · obtain ⟨i, hi, rfl⟩ := getElem_of_mem hv
    have hlt := encodeRecordId_lt hk.limit hi le_rfl
    rw [← hk.ids i _ (getElem?_eq_getElem hi)] at hlt
    exact UInt64.lt_of_lt_of_le hlt (UInt64.le_iff_toNat_le.mpr (Nat.le_of_lt_succ (UInt64.toNat_lt _)))

/-- In every history of sessions with any hash settings that hash the records wherever recovery will
check them, the database opens again after any close, and a scan gives every record that some close
before made durable. -/
theorem durable_records_survive (hC : C.Lawful) (hc : c.validate = .ok ())
    (freshInits : Fin c.shards → Bytes32) {disks : Fin c.shards → Disk}
    (hreach : ∀ s : Fin c.shards,
      DirReachable C s (KeepsRecords C c) (.closed (disks s))) :
    ∃ opened, openDb C c freshInits disks = .ok opened ∧
      ∀ (s : Fin c.shards) (ss : Session) (d : Disk),
        DirReachable C s (KeepsRecords C c) (.running ss d) →
        ss.committed = ss.next →
        Relation.ReflTransGen (DirStep C s (KeepsRecords C c))
          (.closed (ss.sync d).2) (.closed (disks s)) →
        ∀ v ∈ ss.published, v.toRecord ∈ scan C c opened 0 0xFFFFFFFFFFFFFFFF := by
  have hl := Config.valid_of_validate hc
  have hit : ∀ s : Fin c.shards, (closed Disk.empty).Holding C c.encryptionKeys c.shards s [] :=
    fun s => .inl ⟨rfl, rfl⟩
  have hp : ∀ s : Fin c.shards, ∃ o views, openShard C c s (freshInits s) (disks s) = .ok o ∧
        (running (Session.ofOpen c s o) o.disk).Holding C c.encryptionKeys c.shards s
          views := by
    intro s
    obtain ⟨more, hmo⟩ := (hit s).run hC (hreach s)
    obtain ⟨o, ho, hh⟩ := hmo.open hl s.2 (freshInits s)
    exact ⟨o, _, ho, hh⟩
  choose o views ho hh using hp
  refine ⟨_, openDb_eq hc ho, ?_⟩
  intro s ss d hs ha hr v hv
  -- the records at the close are a part of those that the shard holds in the end
  obtain ⟨before, hb⟩ := (hit s).run hC hs
  obtain ⟨header, old, hdr, body, he, -⟩ := hb
  have hhl : (closed (ss.sync d).2).Holding C c.encryptionKeys c.shards s
      (old ++ ss.written) := .inr ⟨header, hdr, body, he.close ha⟩
  obtain ⟨more, hmo⟩ := hhl.run hC hr
  obtain ⟨o', ho', hh'⟩ := hmo.open hl s.2 (freshInits s)
  obtain rfl : o' = o s := Except.ok.inj (ho'.symm.trans (ho s))
  have hds : ∀ t : Fin c.shards, ∃ segs,
      ShardDirectory C c.encryptionKeys c.shards t (o t).disk segs ∧
        (t = s → v.toRecord ∈ recordsOf segs ∧ v.recordId < 0xFFFFFFFFFFFFFFFF) := by
    intro t
    by_cases ht : t = s
    · subst ht
      obtain ⟨segs, hg, hm⟩ := hh'.shardDirectory
      refine ⟨segs, hg, fun _ => hm v ?_⟩
      rw [SingleSession.written_eq ha]
      simp [hv]
    · obtain ⟨segs, hg, -⟩ := (hh t).shardDirectory
      exact ⟨segs, hg, fun heq => absurd heq ht⟩
  choose segs hg hm using hds
  have hsc := (scanIter_exact hg 0 0xFFFFFFFFFFFFFFFF).1 v.toRecord
  have hd : ((finRange c.shards).map o).map OpenShard.disk = ofFn fun t => (o t).disk := by
    rw [map_map, ofFn_eq_map]
    rfl
  unfold scan
  rw [hd]
  exact hsc.mpr ⟨⟨UInt64.zero_le, (hm s rfl).2⟩, s, (hm s rfl).1⟩

end

def hashedConfig : Config :=
  { rawConfig with hashEnabled := true }

theorem hashedConfig_validate : hashedConfig.validate = .ok () := by
  decide

set_option maxRecDepth 20000 in
/-- One record of a hashing session, read after an open without hashing. -/
theorem durable_records_survive_one_record : ∃ (disk : Disk) (v : ReadView) (opened : List OpenShard),
    openDb rawCrates rawConfig (fun _ => zeros32) (fun _ => disk) = .ok opened ∧
      v.content = [104, 105] ∧ v.toRecord ∈ scan rawCrates rawConfig opened 0 0xFFFFFFFFFFFFFFFF := by
  have he : okAnd (openShard rawCrates hashedConfig 0 zeros32 Disk.empty) (fun o =>
      (Session.ofOpen hashedConfig 0 o).next = 0 ∧
      (o.mgr.active.compressed || o.mgr.encryptionKeys.isSome) = false ∧
      (∀ f ∈ (firstCommit hashedConfig o).2.segments, f.1 = 1) ∧
      (firstCommit hashedConfig o).1.committed = (firstCommit hashedConfig o).1.next ∧
      (firstCommit hashedConfig o).1.published =
        [(Session.ofOpen hashedConfig 0 o).nextView rawCrates 7 [104, 105]]) = true := by
    decide +kernel
  obtain ⟨o, hop, hf⟩ := exists_of_okAnd he
  obtain ⟨hn, hw, hon, ha, hp⟩ := of_decide_eq_true hf
  have hsa : DirReachable rawCrates 0 (KeepsRecords rawCrates rawConfig)
      (.running (Session.ofOpen hashedConfig 0 o) o.disk) :=
    DirReachable.opened .refl (by decide) hashedConfig_validate hop ⟨⟨rfl, rfl⟩, trivial⟩
  have hph : KeepsRecords rawCrates rawConfig
      (.running (Session.ofOpen hashedConfig 0 o) o.disk) (.publish 7 [104, 105]) := by
    refine ⟨trivial, fun _ => rfl, fun _ header _ ring hg => ?_, ?_⟩
    · cases hg
    · rw [hn]
      decide
  have hr : DirReachable rawCrates 0 (KeepsRecords rawCrates rawConfig)
      (.running (firstCommit hashedConfig o).1 (firstCommit hashedConfig o).2) :=
    hsa.first_record 7 [104, 105] zeroNonce 0 quietEnv (by decide) hph
      ⟨hon, fun hfr => absurd hfr (Bool.eq_false_iff.mp hw)⟩
  have hh : ∀ s : Fin rawConfig.shards, DirReachable rawCrates s
      (KeepsRecords rawCrates rawConfig)
      (.closed ((firstCommit hashedConfig o).1.sync (firstCommit hashedConfig o).2).2) := by
    intro s
    have hs : (s : ℕ) = 0 := by
      revert s
      decide
    rw [hs]
    exact hr.closed ha ⟨trivial, trivial⟩
  obtain ⟨opened, ho, hc⟩ := durable_records_survive rawCrates_lawful rawConfig_validate
    (fun _ => zeros32) hh
  refine ⟨_, (Session.ofOpen hashedConfig 0 o).nextView rawCrates 7 [104, 105], opened, ho, rfl,
    hc ⟨0, by decide⟩ _ _ hr ha .refl _ ?_⟩
  rw [hp]
  exact mem_singleton_self _

set_option maxRecDepth 20000 in
/-- The first session hashes, the second does not: the record of the second is gone after the next
open. -/
theorem unhashed_record_lost : ∃ (ss : Session) (d : Disk) (opened : List OpenShard),
    DirReachable rawCrates 0 (OneSegment rawCrates rawConfig) (.running ss d) ∧
      ss.committed = ss.next ∧
      openDb rawCrates rawConfig (fun _ => zeros32) (fun _ => (ss.sync d).2) = .ok opened ∧
      ∃ v ∈ ss.published, v.toRecord ∉ scan rawCrates rawConfig opened 0 0xFFFFFFFFFFFFFFFF := by
  have hs : okAnd (openShard rawCrates hashedConfig 0 zeros32 Disk.empty) (fun o =>
      okAnd (openShard rawCrates rawConfig 0 zeros32
        ((Session.ofOpen hashedConfig 0 o).sync o.disk).2) fun o' =>
        (∀ f ∈ (firstCommit rawConfig o').2.segments, f.1 = 1) ∧
        (firstCommit rawConfig o').1.committed = (firstCommit rawConfig o').1.next ∧
        okAnd (openDb rawCrates rawConfig (fun _ => zeros32)
          fun _ => ((firstCommit rawConfig o').1.sync (firstCommit rawConfig o').2).2) fun opened =>
          ∃ v ∈ (firstCommit rawConfig o').1.published,
            v.toRecord ∉ scan rawCrates rawConfig opened 0 0xFFFFFFFFFFFFFFFF) = true := by
    decide +kernel
  obtain ⟨o, hp, hd⟩ := exists_of_okAnd hs
  obtain ⟨o', ho', hl⟩ := exists_of_okAnd hd
  obtain ⟨hn, ha, hl⟩ := of_decide_eq_true hl
  obtain ⟨opened, ho, hl⟩ := exists_of_okAnd hl
  have hf : DirReachable rawCrates 0 (OneSegment rawCrates rawConfig)
      (.running (Session.ofOpen hashedConfig 0 o) o.disk) :=
    DirReachable.opened .refl (by decide) hashedConfig_validate hp ⟨rfl, rfl⟩
  have hd := (hf.closed rfl trivial).opened (by decide) rawConfig_validate ho' ⟨rfl, rfl⟩
  exact ⟨_, _, opened, hd.first_record 7 [104, 105] zeroNonce 0 quietEnv (by decide) trivial hn,
    ha, ho, of_decide_eq_true hl⟩

end LogDb.Database
