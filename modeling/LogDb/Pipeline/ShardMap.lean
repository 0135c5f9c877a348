import LogDb.Format.ShardId
import LogDb.Pipeline.Barrier

/-!
What `LogDb` and `ShardMap` compute over all shards: the one drain target the sealers of every shard
are compared with, the shard a thread appends to, and the recovery report.
-/

namespace LogDb.Pipeline

open Lib Format List

variable {C : Crates} {cfg : DbConfig} {s s' : DbState}

def DbState.shouldStop (s : DbState) (processedCursor : ℕ) : Bool :=
  match s.phase, s.drainTarget with
  | .abort, _ => true
  | .drain, some target => target ≤ processedCursor
  | _, _ => false

/-- `target` is the largest producer cursor. -/
def DbState.IsMaxCursor (cfg : DbConfig) (s : DbState) (target : ℕ) : Prop :=
  ∀ n, target ≤ n ↔ ∀ k < cfg.shards, s.producerCursor k ≤ n

theorem DbStep.drainTarget_cases (h : DbStep C cfg s s') : s'.drainTarget = s.drainTarget ∨
    ∃ t targets, s.callers t = .storeTarget targets ∧
      s'.drainTarget = some (targets.foldr max 0) := by
  cases h with
  | append t h => cases h <;> exact .inl rfl
  | background h => cases h <;> exact .inl rfl
  | barrier t h =>
    cases h with
    | storeTarget targets hp => exact .inr ⟨t, targets, hp, rfl⟩
    | _ => exact .inl rfl

private theorem foldr_max_le_iff (l : List ℕ) (n : ℕ) : l.foldr max 0 ≤ n ↔ ∀ x ∈ l, x ≤ n := by
  induction l with
  | nil => simp
  | cons x l ih => simp [ih]

/-- The target is stored when the producer cursors no longer move. -/
theorem DbReachable.drainTarget_eq (h : DbReachable C cfg s) : ∀ target ∈ s.drainTarget,
    s.Frozen ∧ s.IsMaxCursor cfg target := by
  refine (invariant_of_steps (P := fun s => DbInv C cfg s ∧ ∀ n ∈ s.drainTarget,
    s.Frozen ∧ s.IsMaxCursor cfg n) h ⟨.init C cfg, nofun⟩ fun a b ⟨hi, hx⟩ hs => ?_).2
  obtain ⟨hg, hi'⟩ := hi.step hs
  have hkp : ∀ n, a.Frozen ∧ a.IsMaxCursor cfg n → b.Frozen ∧ b.IsMaxCursor cfg n := by
    intro n ⟨hf, heq⟩
    obtain ⟨hf', hc⟩ := hg.frozen hf
    exact ⟨hf', by simpa only [DbState.IsMaxCursor, hc] using heq⟩
  refine ⟨hi', fun n hb => hkp n ?_⟩
  obtain heq | ⟨t, targets, hp, heq⟩ := hs.drainTarget_cases
  · exact hx n (heq ▸ hb)
  · obtain ⟨hl, hf, hcs⟩ := hi.caller_at hp
    obtain rfl : _ = n := Option.some.inj (heq.symm.trans hb)
    refine ⟨hf, fun m => ?_⟩
    simp only [foldr_max_le_iff, forall_mem_iff_getElem, hl]
    exact forall₂_congr fun k hk => by rw [hcs k _ (getElem?_eq_getElem (hl ▸ hk))]

/-- The sealer of a fully sealed shard is told to stop exactly if no shard has got further. -/
theorem sealer_stops_iff (C : Crates) (cfg : DbConfig) (s : DbState) (hreach : DbReachable C cfg s)
    (target : ℕ) (hstored : s.drainTarget = some target) (k : ℕ)
    (hsealed : (s.rings k).sealerNext = s.producerCursor k) :
    s.shouldStop (s.rings k).sealerNext = true ↔
      s.phase = .abort ∨ ∀ j < cfg.shards, s.producerCursor j ≤ s.producerCursor k := by
  obtain ⟨⟨hp, -⟩, hx⟩ := hreach.drainTarget_eq target hstored
  rw [hsealed, ← hx]
  unfold DbState.shouldStop
  rw [hstored]
  cases h : s.phase with
  | run => exact absurd h hp
  | drain => simp
  | abort => simp

def twoShards : DbConfig where
  shards := 2
  shards_pos := by decide
  hashEnabled := true
  ring k := { oneShard.ring 0 with
    hashEnabled := true
    initial := 1 - k
    initial_lt := by omega }

private theorem twoShards_drained : ∃ s, DbReachable rawCrates twoShards s ∧
    s.drainTarget = some 1 ∧ s.phase = .drain ∧ s.rings = twoShards.init.rings :=
  ⟨_, (((((Relation.ReflTransGen.single (.barrier 0 (.startDrain rfl))).tail
    (.barrier 0 (.observed rfl rfl))).tail
    (.barrier 0 (.load _ [] rfl (by decide)))).tail
    (.barrier 0 (.load _ [1] rfl (by decide)))).tail
    (.barrier 0 (.drainLoaded [1, 0] rfl rfl))).tail
    (.barrier 0 (.storeTarget [1, 0] rfl)), rfl, rfl, rfl⟩

theorem sealer_stops_iff_two : ∃ s, DbReachable rawCrates twoShards s ∧
    s.shouldStop (s.rings 0).sealerNext = true := by
  obtain ⟨s, hr, hs, -, hg⟩ := twoShards_drained
  have hc : ∀ k, s.producerCursor k = 1 - k := fun k => by
    unfold DbState.producerCursor
    rw [hg]
    rfl
  refine ⟨s, hr, (sealer_stops_iff _ _ s hr 1 hs 0 ?_).mpr (.inr fun j _ => ?_)⟩
  · rw [hc, hg]
    rfl
  · rw [hc, hc]
    omega

/-- The other sealer has nothing left to seal and waits for sequence 1 of a shard that is empty. -/
theorem sealer_never_stops : ∃ s, DbReachable rawCrates twoShards s ∧ s.drainTarget = some 1 ∧
    (s.rings 1).sealerNext = s.producerCursor 1 ∧
    s.shouldStop (s.rings 1).sealerNext = false := by
  obtain ⟨s, hr, hs, hp, hg⟩ := twoShards_drained
  refine ⟨s, hr, hs, ?_⟩
  unfold DbState.shouldStop DbState.producerCursor
  rw [hs, hp, hg]
  exact ⟨rfl, rfl⟩

/-- A map has at least one ring; only their number is read here. -/
structure ShardMap where
  numShards : UInt64
  pos : 0 < numShards

/-- `usize::MAX`, the key of a thread that has not selected yet, and `u64::MAX`. -/
def usizeMax : UInt64 :=
  0xFFFFFFFFFFFFFFFF

/-- `ShardMap::select_shard` by a thread whose id hashes to `finish`: the shard it returns is also the
thread's key from then on. -/
def ShardMap.selectShard (m : ShardMap) (finish key : UInt64) : UInt64 :=
  if key = usizeMax then finish % m.numShards else key

/-- The calls of one thread, on a map each. -/
def selectShards (finish : UInt64) : UInt64 → List ShardMap → List UInt64
  | _, [] => []
  | key, m :: maps =>
    m.selectShard finish key :: selectShards finish (m.selectShard finish key) maps

theorem selectShards_of_ne {finish key : UInt64} (hk : key ≠ usizeMax) (maps : List ShardMap) :
    Forall₂ (· < ·) (selectShards finish key maps) (maps.map (·.numShards)) ↔
      ∀ m ∈ maps, key < m.numShards := by
  induction maps with
  | nil => simp [selectShards]
  | cons m maps ih => simp [selectShards, ShardMap.selectShard, hk, ih]

/-- Every call is in range exactly if the choice for the first map fits all of them. -/
theorem selectShards_inRange_iff (finish : UInt64) (maps : List ShardMap) :
    Forall₂ (· < ·) (selectShards finish usizeMax maps) (maps.map (·.numShards)) ↔
      ∀ first ∈ maps.head?, ∀ m ∈ maps, finish % first.numShards < m.numShards := by
  cases maps with
  | nil => simp [selectShards]
  | cons first maps =>
    have hf : finish % first.numShards < first.numShards := UInt64.mod_lt _ first.pos
    have hk : finish % first.numShards ≠ usizeMax := by
      have hlt := first.numShards.toNat_lt
      rw [UInt64.lt_iff_toNat_lt] at hf
      intro heq
      rw [heq, show usizeMax.toNat = 2 ^ 64 - 1 from rfl] at hf
      omega
    simp [selectShards, ShardMap.selectShard, selectShards_of_ne hk, hf]

theorem selectShards_outOfRange :
    ¬ Forall₂ (· < ·) (selectShards 5 usizeMax [⟨8, by decide⟩, ⟨4, by decide⟩]) [8, 4] := by
  decide

def divCeil (a b : UInt64) : UInt64 :=
  if 0 < a % b then a / b + 1 else a / b

/-- The first local sequence of shard `s` whose id is not below the checkpoint. -/
def firstLocal (bits : UInt32) (cp : UInt64) (s : ℕ) : UInt64 :=
  if cp ≤ UInt64.ofNat s then 0 else divCeil (cp - UInt64.ofNat s) (idStride bits)

structure RecoveryReport where
  fromSequence : UInt64
  toSequence : UInt64
  count : UInt64

/-- One shard in the loop of `recovery_report`, on the count and the watermark. -/
def reportShard (bits : UInt32) (durable : ℕ → UInt64) (cp : UInt64) (acc : UInt64 × UInt64)
    (s : ℕ) : UInt64 × UInt64 :=
  let first := firstLocal bits cp s
  let wm := (durable s <<< bits.toUInt64) ||| UInt64.ofNat s
  (acc.1 + (if first ≤ durable s then durable s - first else 0), if wm < acc.2 then wm else acc.2)

def recoveryReport (numShards : ℕ) (durable : ℕ → UInt64) (cp : UInt64) : RecoveryReport :=
  let acc := (range numShards).foldl (reportShard (shardBits numShards) durable cp) (0, usizeMax)
  ⟨cp, if acc.2 = usizeMax then 0 else acc.2, acc.1⟩

theorem divCeil_le_iff (a b : UInt64) (hb : 0 < b.toNat) (l : ℕ) :
    (divCeil a b).toNat ≤ l ↔ a.toNat ≤ l * b.toNat := by
  have hd := Nat.div_add_mod a.toNat b.toNat
  have hr : 0 < a % b ↔ 0 < a.toNat % b.toNat := by simp [UInt64.lt_iff_toNat_lt]
  unfold divCeil
  split_ifs with h <;> rw [hr] at h
  · have hlt := a.toNat_lt
    have hle := Nat.le_mul_of_pos_left (a.toNat / b.toNat) hb
    rw [UInt64.toNat_add, UInt64.toNat_div, UInt64.toNat_one, Nat.mod_eq_of_lt (by omega),
      Nat.succ_le_iff, Nat.div_lt_iff_lt_mul hb]
    refine ⟨Nat.le_of_lt, fun hle => lt_of_le_of_ne hle fun heq => ?_⟩
    simp [heq] at h
  · rw [UInt64.toNat_div, ← Nat.mul_le_mul_right_iff hb,
      Nat.div_mul_cancel (Nat.dvd_of_mod_eq_zero (by omega))]

section

variable {n : ℕ} {bits : UInt32} {durable : ℕ → UInt64} {cp : UInt64}

/-- The local sequences of a shard that `recovery_report` has to count. -/
def toReplay (bits : UInt32) (durable : ℕ → UInt64) (cp : UInt64) (s : ℕ) : Finset ℕ :=
  {l ∈ Finset.range (durable s).toNat | cp ≤ encodeRecordId s l bits}

structure ReportedTo (bits : UInt32) (durable : ℕ → UInt64) (cp : UInt64) (n : ℕ)
    (acc : UInt64 × UInt64) : Prop where
  count : acc.1.toNat = ∑ s ∈ Finset.range n, (toReplay bits durable cp s).card
  count_le : acc.1.toNat ≤ n * 2 ^ 55
  le : ∀ s < n, acc.2 ≤ encodeRecordId s (durable s).toNat bits
  mem : acc.2 = usizeMax ∨ ∃ s < n, acc.2 = encodeRecordId s (durable s).toNat bits

theorem card_toReplay {s : ℕ} (h : ShardFits s bits (2 ^ 55)) (hlt : (durable s).toNat < 2 ^ 55) :
    (toReplay bits durable cp s).card = (durable s).toNat - (firstLocal bits cp s).toNat := by
  have heq : toReplay bits durable cp s =
      Finset.Ico (firstLocal bits cp s).toNat (durable s).toNat := by
    ext l
    rw [toReplay, Finset.mem_filter, Finset.mem_range, Finset.mem_Ico, and_comm]
    refine and_congr_left fun hl => ?_
    have hs : (UInt64.ofNat s).toNat = s := by
      have hlt := h.shard_lt
      have hle : 2 ^ bits.toNat ≤ 2 ^ 8 := Nat.pow_le_pow_right (by decide) h.bits_le
      exact UInt64.toNat_ofNat_of_lt' (show s < 2 ^ 64 by omega)
    rw [UInt64.le_iff_toNat_le, encodeRecordId_toNat h (by omega)]
    unfold firstLocal
    split_ifs with hc <;> rw [UInt64.le_iff_toNat_le, hs] at hc
    · simp
      omega
    · rw [divCeil_le_iff _ _ (by simp [idStride_toNat h.bits_le]), idStride_toNat h.bits_le,
        UInt64.toNat_sub_of_le _ _ (by rw [UInt64.le_iff_toNat_le, hs]; omega), hs]
      omega
  rw [heq, Nat.card_Ico]

theorem ReportedTo.step {acc : UInt64 × UInt64} (ht : ShardFits n bits (2 ^ 55))
    (hlt : (durable n).toNat < 2 ^ 55) (hn : n < 256) (h : ReportedTo bits durable cp n acc) :
    ReportedTo bits durable cp (n + 1) (reportShard bits durable cp acc n) := by
  have hc : (reportShard bits durable cp acc n).1.toNat =
      acc.1.toNat + (toReplay bits durable cp n).card := by
    have hle := h.count_le
    rw [card_toReplay ht hlt]
    simp only [reportShard]
    split_ifs with hf <;> rw [UInt64.le_iff_toNat_le] at hf
    · rw [UInt64.toNat_add, UInt64.toNat_sub_of_le _ _ (UInt64.le_iff_toNat_le.mpr hf)]
      omega
    · rw [UInt64.add_zero]
      omega
  have hw : (durable n <<< bits.toUInt64) ||| UInt64.ofNat n =
      encodeRecordId n (durable n).toNat bits := by
    have hd := ht.shard_lt
    unfold encodeRecordId
    split_ifs with hz
    · subst hz
      obtain rfl : n = 0 := by simpa using hd
      simp
    · rw [UInt64.ofNat_toNat]
  have hm : (reportShard bits durable cp acc n).2 = if encodeRecordId n (durable n).toNat bits <
      acc.2 then encodeRecordId n (durable n).toNat bits else acc.2 := by simp only [reportShard, hw]
  refine ⟨?_, ?_, ?_, ?_⟩
  · rw [hc, Finset.sum_range_succ, h.count]
  · have hle := h.count_le
    rw [hc, card_toReplay ht hlt]
    omega
  · intro s hs
    rw [hm]
    rcases Nat.lt_succ_iff_lt_or_eq.mp hs with hs | rfl
    · have hle := h.le s hs
      split_ifs with hw
      · exact UInt64.le_trans (UInt64.le_of_lt hw) hle
      · exact hle
    · split_ifs with hw
      · exact UInt64.le_refl _
      · exact UInt64.not_lt.mp hw
  · rw [hm]
    split_ifs with hw
    · exact .inr ⟨n, n.lt_succ_self, rfl⟩
    · exact h.mem.imp_right fun ⟨s, hs, heq⟩ => ⟨s, by omega, heq⟩

theorem encodeRecordId_lt_iff {s s' l l' : ℕ} (h : ShardFits s bits (2 ^ 55))
    (h' : ShardFits s' bits (2 ^ 55)) (hl : l ≤ 2 ^ 55) (hl' : l' ≤ 2 ^ 55) :
    encodeRecordId s l bits < encodeRecordId s' l' bits ↔ l < l' ∨ l = l' ∧ s < s' := by
  have hs := h.shard_lt
  have hs' := h'.shard_lt
  rw [UInt64.lt_iff_toNat_lt, encodeRecordId_toNat h hl, encodeRecordId_toNat h' hl']
  obtain hlt | rfl | hlt := lt_trichotomy l l'
  · have hm := Nat.mul_le_mul_right (2 ^ bits.toNat) (Nat.succ_le_of_lt hlt)
    rw [Nat.succ_mul] at hm
    omega
  · omega
  · have hm := Nat.mul_le_mul_right (2 ^ bits.toNat) (Nat.succ_le_of_lt hlt)
    rw [Nat.succ_mul] at hm
    omega

/-- Ids and pairs of a shard and a local sequence correspond, in the order of the local sequence and
then of the shard; the report counts the durable ids from the checkpoint on. -/
theorem recoveryReport_spec (numShards : ℕ) (hmin : 1 ≤ numShards) (hmax : numShards ≤ 256)
    (bits : UInt32) (hbits : bits = shardBits numShards) (durable : ℕ → UInt64)
    (hdurable : ∀ s < numShards, (durable s).toNat < 2 ^ 55) (cp : UInt64) :
    (∀ s < numShards, ∀ l < 2 ^ 55, decodeRecordId (encodeRecordId s l bits) bits = (s, l)) ∧
    (∀ id, encodeRecordId (decodeRecordId id bits).1 (decodeRecordId id bits).2 bits = id) ∧
    (∀ s < numShards, ∀ s' < numShards, ∀ l < 2 ^ 55, ∀ l' < 2 ^ 55,
      encodeRecordId s l bits < encodeRecordId s' l' bits ↔ l < l' ∨ l = l' ∧ s < s') ∧
    (recoveryReport numShards durable cp).count.toNat = ((Finset.range numShards).sigma fun s =>
      {l ∈ Finset.range (durable s).toNat | cp ≤ encodeRecordId s l bits}).card ∧
    IsLeast {id | ∃ s < numShards, id = encodeRecordId s (durable s).toNat bits}
      (recoveryReport numShards durable cp).toSequence := by
  subst hbits
  have hf : ∀ s < numShards, ShardFits s (shardBits numShards) (2 ^ 55) := fun s hs =>
    have hbits := shardBits_spec hmax hs
    ⟨hbits.1, hbits.2, (Nat.mul_le_mul_left _ (Nat.pow_le_pow_right (by decide) hbits.1)).trans_lt
      (by decide)⟩
  have hp : ∀ n ≤ numShards, ReportedTo (shardBits numShards) durable cp n
      ((range n).foldl (reportShard (shardBits numShards) durable cp) (0, usizeMax)) := by
    intro n hn
    induction n with
    | zero => exact ⟨by simp, by simp, nofun, .inl rfl⟩
    | succ n ih =>
      rw [range_succ, foldl_append]
      exact (ih (by omega)).step (hf n hn) (hdurable n hn) (by omega)
  obtain ⟨hc, -, hle, hm⟩ := hp numShards le_rfl
  refine ⟨fun s hs l hl => decodeRecordId_encodeRecordId (hf s hs) hl.le,
    encodeRecordId_decodeRecordId (hf 0 hmin).bits_le, fun s hs s' hs' l hl l' hl' =>
      encodeRecordId_lt_iff (hf s hs) (hf s' hs') hl.le hl'.le, ?_, ?_⟩
  · rw [Finset.card_sigma]
    exact hc
  · have hne : ((range numShards).foldl (reportShard (shardBits numShards) durable cp)
        (0, usizeMax)).2 ≠ usizeMax := by
      have hz := hle 0 hmin
      have hi := (hf 0 hmin).limit_lt
      have hu := Nat.mul_le_mul_right (2 ^ (shardBits numShards).toNat) (hdurable 0 hmin)
      intro heq
      rw [heq, UInt64.le_iff_toNat_le, encodeRecordId_toNat (hf 0 hmin) (hdurable 0 hmin).le,
        show usizeMax.toNat = 2 ^ 64 - 1 from rfl] at hz
      rw [Nat.succ_mul] at hi hu
      omega
    simp only [recoveryReport, if_neg hne]
    exact ⟨hm.resolve_left hne, fun id ⟨s, hs, heq⟩ => heq ▸ hle s hs⟩

theorem recoveryReport_spec_three : (recoveryReport 3 (fun _ => 2) 5).count.toNat = 2 :=
  (recoveryReport_spec 3 (by decide) (by decide) 2 (by decide) (fun _ => 2) (by decide)
    5).2.2.2.1.trans (by decide)

end

end LogDb.Pipeline
