import LogDb.Broker.Rebalance

/-!
The shards of a consumer group over whole runs of joins and leaves: they stay split evenly among
the members, and a change of the membership moves no more of them than it must.
-/

namespace LogDb.Broker

open Lib List

variable {members : List ConsumerId} {kept : Assignments}

theorem lookup_keepPresent (hn : members.Nodup) (old : Assignments) (id : ConsumerId) :
    (keepPresent old members).lookup id =
      if id ∈ members then some ((old.lookup id).getD []) else none := by
  unfold keepPresent
  rw [lookup_foldl_insert (fun id shards => shards.getD [] ++ (old.lookup id).getD []) hn]
  simp

theorem lookup_sortShards (assignments : Assignments) (id : ConsumerId) :
    (sortShards assignments).lookup id =
      (assignments.lookup id).map fun shards => shards.insertionSort (· ≤ ·) := by
  unfold sortShards
  rw [lookup_foldl_insert (fun _ shards => (shards.getD []).insertionSort (· ≤ ·))
    assignments.keys_nodup]
  cases hl : assignments.lookup id with
  | none =>
    have hm : id ∉ assignments.keys := AList.lookup_eq_none.mp hl
    simp [hm]
  | some shards =>
    have hm : id ∈ assignments.keys := AList.lookup_isSome.mp (by simp [hl])
    simp [hm]

theorem mem_valuesAt_flatten (hk : ∀ id, id ∈ kept → id ∈ members) {s : ℕ} :
    s ∈ (valuesAt [] members kept).flatten ↔ (kept.entries.any fun e => e.2.contains s) = true := by
  simp only [valuesAt, mem_flatten, mem_map, any_eq_true, contains_iff_mem]
  constructor
  · rintro ⟨_, ⟨id, -, rfl⟩, hs⟩
    cases hl : kept.lookup id with
    | none => simp [hl] at hs
    | some shards =>
      rw [hl, Option.getD_some] at hs
      exact ⟨⟨id, shards⟩, AList.mem_lookup_iff.mp hl, hs⟩
  · rintro ⟨⟨id, shards⟩, hm, hs⟩
    have hl : kept.lookup id = some shards := AList.mem_lookup_iff.mpr hm
    refine ⟨_, ⟨id, hk id (AList.lookup_isSome.mp (by simp [hl])), rfl⟩, ?_⟩
    rwa [hl]

namespace GroupState

/-- The shards of a consumer, none for one that is not a member. -/
def own (g : GroupState) (id : ConsumerId) : List ℕ :=
  (g.assignments.lookup id).getD []

/-- The lists of the members with no shard in two places, at the start of a rebalance. -/
structure Disjoint (g : GroupState) : Prop where
  nodup : g.members.Nodup
  size : g.members.length < 2 ^ 32
  shards : (g.members.flatMap g.own).Nodup
  range : ∀ s ∈ g.members.flatMap g.own, s < g.numShards.toNat

variable {g : GroupState} {id : ConsumerId}

theorem valuesAt_keepPresent (hn : g.members.Nodup) :
    valuesAt [] g.members (keepPresent g.assignments g.members) = g.members.map g.own := by
  refine map_congr_left fun id hid => ?_
  rw [lookup_keepPresent hn, if_pos hid, Option.getD_some]
  rfl

theorem mem_of_mem_keepPresent (hd : g.members.Nodup)
    (hid : id ∈ keepPresent g.assignments g.members) : id ∈ g.members := by
  have hs := AList.lookup_isSome.mpr hid
  rw [lookup_keepPresent hd] at hs
  by_contra hn
  simp [hn] at hs

def pool (g : GroupState) : List ℕ :=
  freeShards g.numShards.toNat (keepPresent g.assignments g.members)

theorem flatten_own_append_pool_perm (h : g.Disjoint) :
    ((g.members.map g.own).flatten ++ g.pool).Perm (List.range g.numShards.toNat) := by
  have hf : (g.members.map g.own).flatten = g.members.flatMap g.own := flatMap_def.symm
  have ha : (g.members.flatMap g.own).Perm ((range g.numShards.toNat).filter fun s =>
      (keepPresent g.assignments g.members).entries.any fun e => e.2.contains s) := by
    refine (perm_ext_iff_of_nodup h.shards (nodup_range.filter _)).mpr fun s => ?_
    rw [mem_filter, mem_range, ← mem_valuesAt_flatten fun id hid =>
      mem_of_mem_keepPresent h.nodup hid, valuesAt_keepPresent h.nodup, hf]
    exact ⟨fun hs => ⟨h.range s hs, hs⟩, fun hs => hs.2⟩
  rw [hf]
  exact (ha.append_right _).trans (filter_append_perm _ _)

/-- Both loops over the members are passes over the list of their shards. -/
theorem valuesAt_fillAll (hn : g.members.Nodup) : valuesAt [] g.members g.fillAll.1 =
      balancedLists g.members.length g.target (g.members.map g.own) g.pool := by
  have hs := (foldl_keyedStep [] (shed g.members.length g.target) hn 0
    (keepPresent g.assignments g.members) g.pool).1
  have hf := (foldl_keyedStep [] (fill g.target) hn 0 g.shedAll.1 g.shedAll.2).1
  rw [valuesAt_keepPresent hn] at hs
  have hs' : (valuesAt [] g.members g.shedAll.1, g.shedAll.2) =
      sweep (shed g.members.length g.target) 0 (g.members.map g.own) g.pool := hs
  unfold balancedLists
  rw [← hs']
  exact congrArg Prod.fst hf

theorem lookup_rebalance_getD (g : GroupState) (id : ConsumerId) :
    (g.rebalance.lookup id).getD [] = ((g.fillAll.1.lookup id).getD []).insertionSort (· ≤ ·) := by
  unfold rebalance
  rw [lookup_sortShards]
  cases g.fillAll.1.lookup id <;> rfl

theorem mem_rebalance_iff (hn : g.members.Nodup) : id ∈ g.rebalance ↔ id ∈ g.members := by
  have hs := (foldl_keyedStep [] (shed g.members.length g.target) hn 0
    (keepPresent g.assignments g.members) g.pool).2 id
  have hf : g.fillAll.1.lookup id = if id ∈ g.members then
      some ((g.fillAll.1.lookup id).getD []) else g.shedAll.1.lookup id :=
    (foldl_keyedStep [] (fill g.target) hn 0 g.shedAll.1 g.shedAll.2).2 id
  rw [← AList.lookup_isSome, rebalance, lookup_sortShards, Option.isSome_map, hf]
  split_ifs with hid
  · simp [hid]
  · rw [if_neg hid, lookup_keepPresent hn, if_neg hid] at hs
    rw [show g.shedAll.1.lookup id = none from hs]
    simp [hid]

section

variable (h : g.Disjoint) (hne : g.members ≠ [])
include h hne

theorem fillAll_spec :
    (valuesAt [] g.members g.fillAll.1).flatten.Perm (List.range g.numShards.toNat) ∧
      ∀ i id, g.members[i]? = some id →
        Sticky (fairShare g.numShards.toNat g.members.length i) (g.own id)
          ((g.fillAll.1.lookup id).getD []) := by
  have ht : g.target = fairShare g.numShards.toNat g.members.length := by
    unfold target fairShare
    rw [asU32_of_lt h.size]
  have ha := flatten_own_append_pool_perm h
  have hlt := g.numShards.toNat_lt
  have hs : ∀ shards ∈ g.members.map g.own, shards.length < 2 ^ 32 := by
    intro shards hm
    have hle := (sublist_flatten_of_mem hm).length_le
    have ho := ha.length_eq
    rw [length_append, length_range] at ho
    omega
  have hu : ((range (g.members.map g.own).length).map g.target).sum = g.numShards.toNat := by
    rw [length_map, ht]
    exact sum_fairShare _ (length_pos_iff.mpr hne)
  have htt : ∀ i, g.target i < 2 ^ 32 := fun i =>
    (ht ▸ fairShare_le _ _ i : g.target i ≤ _).trans_lt hlt
  obtain ⟨hp, hl⟩ := balancedLists_spec (n := g.members.length) hs htt hu ha
  rw [← valuesAt_fillAll h.nodup] at hp hl
  refine ⟨hp, fun i id hid => ?_⟩
  obtain ⟨new, hn, hy⟩ := hl i (g.own id) (by simp [hid])
  obtain rfl : (g.fillAll.1.lookup id).getD [] = new := by simpa [valuesAt, hid] using hn
  rwa [ht] at hy

theorem rebalance_perm : (g.members.flatMap fun id => (g.rebalance.lookup id).getD []).Perm
      (List.range g.numShards.toNat) := by
  have hs : (g.members.flatMap fun id => (g.rebalance.lookup id).getD []).Perm
      (g.members.flatMap fun id => (g.fillAll.1.lookup id).getD []) := by
    refine List.Perm.flatMap_left _ fun id _ => ?_
    rw [lookup_rebalance_getD]
    exact perm_insertionSort _ _
  have hf := (fillAll_spec h hne).1
  rw [valuesAt, ← flatMap_def] at hf
  exact hs.trans hf

theorem rebalance_sticky {i : ℕ} (hid : g.members[i]? = some id) :
    Sticky (fairShare g.numShards.toNat g.members.length i) (g.own id)
      ((g.rebalance.lookup id).getD []) := by
  have hf := (fillAll_spec h hne).2 i id hid
  have hp := perm_insertionSort (· ≤ ·) ((g.fillAll.1.lookup id).getD [])
  rw [lookup_rebalance_getD]
  exact ⟨hp.length_eq.trans hf.length_eq, fun hle => List.Subset.trans hp.subset (hf.shrinks hle),
    fun hle => List.Subset.trans (hf.grows hle) hp.symm.subset⟩

theorem rebalance_ascending (hid : id ∈ g.members) :
    ((g.rebalance.lookup id).getD []).Pairwise (· < ·) := by
  have hn : ((g.rebalance.lookup id).getD []).Nodup := by
    refine ((rebalance_perm h hne).nodup_iff.mpr nodup_range).sublist ?_
    exact sublist_flatten_of_mem (mem_map.mpr ⟨id, hid, rfl⟩)
  have hs : ((g.rebalance.lookup id).getD []).Pairwise (· ≤ ·) := by
    rw [lookup_rebalance_getD]
    exact pairwise_insertionSort _ _
  exact (hs.and hn).imp fun hle => lt_of_le_of_ne hle.1 hle.2

end

/-! ### The invariant -/

/-- The shards are split evenly among the members, in the order in which they joined. -/
structure Balanced (g : GroupState) : Prop where
  nodup : g.members.Nodup
  size : g.members.length < 2 ^ 32
  keys : ∀ id, id ∈ g.assignments → id ∈ g.members
  entries : 0 < g.numShards.toNat → ∀ id ∈ g.members, id ∈ g.assignments
  covers : g.members ≠ [] → (g.members.flatMap g.own).Perm (List.range g.numShards.toNat)
  shares : ∀ i id, g.members[i]? = some id →
    (g.own id).length = fairShare g.numShards.toNat g.members.length i
  ascending : ∀ id ∈ g.members, (g.own id).Pairwise (· < ·)

theorem Balanced.own_of_notMem (h : g.Balanced) (hid : id ∉ g.members) : g.own id = [] := by
  have hn : g.assignments.lookup id = none := AList.lookup_eq_none.mpr fun hm =>
    hid (h.keys id hm)
  simp [own, hn]

theorem Balanced.disjoint (h : g.Balanced) : g.Disjoint := by
  rcases eq_or_ne g.members [] with hn | hne
  · exact ⟨h.nodup, h.size, by simp [hn], by simp [hn]⟩
  · have hc := h.covers hne
    refine ⟨h.nodup, h.size, hc.nodup_iff.mpr nodup_range, fun s hs => ?_⟩
    exact mem_range.mp (hc.subset hs)

theorem balanced_of_nil (hm : g.members = []) (ha : g.assignments = ∅) : g.Balanced  where
  nodup := by simp [hm]
  size := by simp [hm]
  keys := by simp [ha]
  entries := by simp [hm]
  covers := by simp [hm]
  shares := by simp [hm]
  ascending := by simp [hm]

theorem balanced_new (numShards : UInt32) : (new numShards).Balanced :=
  balanced_of_nil rfl rfl

theorem balanced_rebalance (h : g.Disjoint) (hne : g.members ≠ []) (changed : Finset ConsumerId) :
    (rebalanced ({ g with assignments := g.rebalance }, changed)).Balanced  where
  nodup := h.nodup
  size := h.size
  keys := fun _ hid => (mem_rebalance_iff h.nodup).mp hid
  entries := fun _ _ hid => (mem_rebalance_iff h.nodup).mpr hid
  covers := fun _ => rebalance_perm h hne
  shares := fun _ _ hid => (rebalance_sticky h hne hid).length_eq
  ascending := fun _ hid => rebalance_ascending h hne hid

/-! ### The first member -/

theorem recomputeRoundRobin_added (hi : g.members = []) (id : ConsumerId) :
    ((g.added id).recomputeRoundRobin).assignments = if g.numShards.toNat = 0 then ∅
      else AList.singleton id (List.range g.numShards.toNat) := by
  have hm : (g.added id).members = [id] := by simp [added, hi]
  have hg : ∀ k : Fin (g.added id).members.length, (g.added id).members.get k = id := by
    intro k
    have he : (g.added id).members.get k ∈ [id] := hm ▸ get_mem _ k
    exact mem_singleton.mp he
  unfold recomputeRoundRobin
  rw [dif_pos (by simp [hm])]
  simp only [hg]
  have hu : (g.added id).numShards = g.numShards := rfl
  rw [hu]
  split_ifs with hz
  · rw [hz]
    rfl
  · obtain ⟨n, hn⟩ := Nat.exists_eq_succ_of_ne_zero hz
    rw [hn]
    clear hn
    induction n with
    | zero => rfl
    | succ n ih =>
      have hl : (AList.singleton id (range (n + 1)) : Assignments).lookup id =
          some (range (n + 1)) := by
        rw [← AList.insert_empty]
        exact AList.lookup_insert _
      rw [range_succ, foldl_append, ih, foldl_cons, foldl_nil, pushShard, hl,
        AList.insert_singleton_eq, Option.getD_some]

theorem balanced_first (hi : g.members = []) (id : ConsumerId) (changed : Finset ConsumerId) :
    (rebalanced ((g.added id).recomputeRoundRobin, changed)).Balanced := by
  set g' := rebalanced ((g.added id).recomputeRoundRobin, changed) with hg'
  have ha : g'.assignments = if g.numShards.toNat = 0 then ∅
      else AList.singleton id (range g.numShards.toNat) := recomputeRoundRobin_added hi id
  have hm : g'.members = [id] := by
    simp [hg', rebalanced, recomputeRoundRobin, added, hi]
  have hn : g'.numShards = g.numShards := by
    simp [hg', rebalanced, recomputeRoundRobin, added, hi]
  have hk : ∀ id', id' ∈ g'.assignments ↔ g.numShards.toNat ≠ 0 ∧ id' = id := by
    intro id'
    rw [ha]
    split_ifs with hz
    · simp [hz]
    · simp [hz, AList.mem_keys]
  have ho : g'.own id = range g.numShards.toNat := by
    unfold own
    rw [ha]
    split_ifs with hz
    · simp [hz]
    · rw [← AList.insert_empty, AList.lookup_insert, Option.getD_some]
  constructor
  · simp [hm]
  · simp [hm]
  · intro id' hid'
    simp [hm, ((hk id').mp hid').2]
  · intro hp id' hid'
    rw [hm, mem_singleton] at hid'
    exact (hk id').mpr ⟨by rw [hn] at hp; omega, hid'⟩
  · intro _
    rw [hm, hn, flatMap_singleton, ho]
  · intro i id' hid'
    rw [hm] at hid' ⊢
    obtain ⟨rfl, rfl⟩ : i = 0 ∧ id = id' := by simpa [getElem?_singleton] using hid'
    rw [ho, hn, length_range, length_singleton, fairShare_one]
  · intro id' hid'
    rw [hm, mem_singleton] at hid'
    rw [hid', ho]
    exact pairwise_lt_range

end GroupState

end LogDb.Broker
