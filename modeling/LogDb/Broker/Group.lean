import LogDb.Broker.Membership

/-!
Runs of a consumer group: every shard has one owner, the owners share evenly, and a join or a
leave changes no more owners than it must.
-/

namespace LogDb.Broker

open Lib List Option AList

theorem mem_changedConsumers {old new : Assignments} {members : List ConsumerId}
    (hn : ∀ c ∈ new, c ∈ members) {c : ConsumerId} :
    c ∈ changedConsumers old new members ↔ new.lookup c ≠ old.lookup c := by
  by_cases hc : c ∈ members
  · simp [changedConsumers, hc]
  · have hnn : new.lookup c = none := lookup_eq_none.mpr fun hm => hc (hn c hm)
    rw [hnn, ne_comm, Option.ne_none_iff_isSome, lookup_isSome, AList.mem_keys]
    simp [changedConsumers, hc]

namespace GroupState

variable {g g' : GroupState} {id : ConsumerId}

/-! ### What a call can do -/

variable {calls : List Call} {s pos : ℕ} {r : JoinResult} {m : ConsumerId}

theorem join_cases (h : g.join id = some (g', r)) : (id ∈ g.members ∧ g' = g) ∨ (g.members = [] ∧
        g' = rebalanced ((g.added id).recomputeRoundRobin, (g.added id).members.toFinset)) ∨
      id ∉ g.members ∧ g.members ≠ [] ∧ asU32 (g.members.length + 1) ≠ 0 ∧
        g' = rebalanced ({ g.added id with assignments := (g.added id).rebalance },
          changedConsumers g.assignments (g.added id).rebalance (g.added id).members) := by
  have hl : (g.added id).members.length = g.members.length + 1 := by simp [added]
  unfold join at h
  split_ifs at h with hm hn
  · exact .inl ⟨hm, (congrArg Prod.fst (some.inj h)).symm⟩
  · exact .inr (.inl ⟨hn, (congrArg Prod.fst (some.inj h)).symm⟩)
  · unfold recomputeSticky at h
    rw [hl, if_neg (Nat.succ_ne_zero _)] at h
    split_ifs at h with hz
    · cases h
    · exact .inr (.inr ⟨hm, hn, hz, (congrArg Prod.fst (some.inj h)).symm⟩)

theorem leave_cases {present : Bool} (h : g.leave id = some (g', present)) :
    (id ∉ g.members ∧ g' = g ∧ present = false) ∨
      ∃ pos, g.members.idxOf? id = some pos ∧ present = true ∧ (((g.removed id pos).members = [] ∧
          g' = rebalanced ({ g.removed id pos with assignments := ∅ },
            (g.removed id pos).assignments.keys.toFinset)) ∨
        (g.removed id pos).members ≠ [] ∧
          g' = rebalanced ({ g.removed id pos with assignments := (g.removed id pos).rebalance },
            changedConsumers (g.removed id pos).assignments (g.removed id pos).rebalance
              (g.removed id pos).members)) := by
  unfold leave at h
  cases hp : g.members.idxOf? id with
  | none =>
    rw [hp] at h
    obtain ⟨rfl, rfl⟩ := Prod.ext_iff.mp (some.inj h)
    exact .inl ⟨idxOf?_eq_none_iff.mp hp, rfl, rfl⟩
  | some pos =>
    rw [hp] at h
    simp only [recomputeSticky] at h
    refine .inr ⟨pos, rfl, ?_⟩
    split_ifs at h with hn hz
    · obtain ⟨rfl, rfl⟩ := Prod.ext_iff.mp (some.inj h)
      exact ⟨rfl, .inl ⟨length_eq_zero_iff.mp hn, rfl⟩⟩
    · cases h
    · obtain ⟨rfl, rfl⟩ := Prod.ext_iff.mp (some.inj h)
      exact ⟨rfl, .inr ⟨fun hn' => hn (by rw [hn']; rfl), rfl⟩⟩

theorem commitOffset_cases (g : GroupState) (shard seq : ℕ) :
    ∃ offsets, (g.commitOffset shard seq).1 = { g with shardOffsets := offsets } := by
  by_cases h : (g.shardOffsets.lookup shard).getD 0 < seq
  · exact ⟨g.shardOffsets.insert shard seq, by simp [commitOffset, h]⟩
  · exact ⟨g.shardOffsets.insert shard ((g.shardOffsets.lookup shard).getD 0),
      by simp [commitOffset, h]⟩

/-! ### The invariant along a run -/

theorem Balanced.added_disjoint (h : g.Balanced) (hid : id ∉ g.members)
    (hs : asU32 (g.members.length + 1) ≠ 0) : (g.added id).Disjoint := by
  have ho : (g.added id).own = g.own := rfl
  have hm : (g.added id).members = g.members ++ [id] := rfl
  have hf : (g.added id).members.flatMap (g.added id).own = g.members.flatMap g.own := by
    rw [hm, ho, flatMap_append, flatMap_singleton, h.own_of_notMem hid, append_nil]
  constructor
  · rw [hm]
    rw [← concat_eq_append]
    exact h.nodup.concat hid
  · have hlt := h.size
    have hne : g.members.length + 1 ≠ 2 ^ 32 := fun heq => hs (by rw [heq]; rfl)
    rw [hm, length_append, length_singleton]
    omega
  · rw [hf]
    exact h.disjoint.shards
  · rw [hf]
    exact h.disjoint.range

theorem removed_members (hp : g.members.idxOf? id = some pos) :
    (g.removed id pos).members = g.members.erase id := by
  rw [erase_eq_eraseIdx, hp]
  rfl

theorem removed_own (hm : m ≠ id) : (g.removed id pos).own m = g.own m := by
  unfold own
  rw [show (g.removed id pos).assignments = g.assignments.erase id from rfl, lookup_erase_ne hm]

theorem Balanced.removed_disjoint (h : g.Balanced) (hp : g.members.idxOf? id = some pos) :
    (g.removed id pos).Disjoint := by
  have hu : (g.members.erase id).Sublist g.members := erase_sublist
  have hf : ((g.removed id pos).members.flatMap (g.removed id pos).own).Sublist
      (g.members.flatMap g.own) := by
    rw [removed_members hp]
    have ho : (g.members.erase id).flatMap (g.removed id pos).own =
        (g.members.erase id).flatMap g.own := by
      rw [flatMap_def, flatMap_def]
      refine congrArg flatten (map_congr_left fun m hm => ?_)
      exact removed_own ((h.nodup.mem_erase_iff).mp hm).1
    rw [ho]
    exact hu.flatMap g.own
  constructor
  · rw [removed_members hp]
    exact h.nodup.sublist hu
  · rw [removed_members hp]
    exact hu.length_le.trans_lt h.size
  · exact h.disjoint.shards.sublist hf
  · exact fun s hs => h.disjoint.range s (hf.subset hs)

/-- A new member stands behind the others, and nobody else gains a shard. -/
theorem Balanced.join_new (h : g.Balanced) (hid : id ∉ g.members) (hj : g.join id = some (g', r)) :
    g'.Balanced ∧ g'.members = g.members ++ [id] ∧ g'.numShards = g.numShards ∧
      ∀ m ∈ g.members, g'.own m ⊆ g.own m := by
  rcases join_cases hj with ⟨he, -⟩ | ⟨hn, rfl⟩ | ⟨-, hne, hz, rfl⟩
  · exact absurd he hid
  · refine ⟨balanced_first hn id _, ?_, ?_, by simp [hn]⟩
    · simp [rebalanced, recomputeRoundRobin, added]
    · simp [rebalanced, recomputeRoundRobin, added]
  · have hd := h.added_disjoint hid hz
    have ha : (g.added id).members ≠ [] := by simp [added]
    refine ⟨balanced_rebalance hd ha _, rfl, rfl, ?_⟩
    intro m hm
    obtain ⟨i, hi⟩ := mem_iff_getElem?.mp hm
    have hi' : (g.added id).members[i]? = some m := by
      have hlt := (List.getElem?_eq_some_iff.mp hi).1
      rw [show (g.added id).members = g.members ++ [id] from rfl, getElem?_append_left hlt, hi]
    refine (rebalance_sticky hd ha hi').shrinks ?_
    have hl : (g.added id).members.length = g.members.length + 1 := by simp [added]
    have hs := h.shares i m hi
    rw [hl, show (g.added id).own m = g.own m from rfl, hs]
    exact fairShare_succ_le i (length_pos_iff.mpr hne)

theorem Balanced.leave_present (h : g.Balanced) (hv : g.leave id = some (g', true)) :
    id ∈ g.members ∧ g'.Balanced ∧ g'.members = g.members.erase id ∧
      g'.numShards = g.numShards ∧ ∀ m ∈ g'.members, g.own m ⊆ g'.own m := by
  rcases leave_cases hv with ⟨-, -, hf⟩ | ⟨pos, hp, -, hc⟩
  · cases hf
  have hid : id ∈ g.members := isSome_idxOf?.mp (by simp [hp])
  have hb := removed_members hp
  refine ⟨hid, ?_⟩
  rcases hc with ⟨ha, rfl⟩ | ⟨hne, rfl⟩
  · refine ⟨balanced_of_nil ha rfl, hb, rfl, ?_⟩
    intro m hm
    have hm' : m ∈ (g.removed id pos).members := hm
    simp [ha] at hm'
  · have hd := h.removed_disjoint hp
    refine ⟨balanced_rebalance hd hne _, hb, rfl, ?_⟩
    intro m hm
    have hm' : m ∈ g.members.erase id := hb ▸ hm
    obtain ⟨i, hi⟩ := mem_iff_getElem?.mp hm
    have hi' : (g.removed id pos).members[i]? = some m := hi
    have hr := (rebalance_sticky hd hne hi').grows
    rw [removed_own ((h.nodup.mem_erase_iff).mp hm').1] at hr
    refine hr ?_
    -- the member stood at the same place or one further back
    obtain ⟨j, hij, hj⟩ : ∃ j, i ≤ j ∧ g.members[j]? = some m := by
      have hg : (g.members.eraseIdx pos)[i]? = some m := hi
      rw [getElem?_eraseIdx] at hg
      split_ifs at hg
      · exact ⟨i, le_rfl, hg⟩
      · exact ⟨i + 1, Nat.le_succ i, hg⟩
    obtain ⟨n, hn⟩ : ∃ n, g.members.length = n + 1 :=
      Nat.exists_eq_succ_of_ne_zero (length_pos_of_mem hid).ne'
    have hl : (g.removed id pos).members.length = n := by
      rw [hb, length_erase_of_mem hid, hn]
      rfl
    have hp' : 0 < n := hl ▸ length_pos_iff.mpr hne
    rw [h.shares j m hj, hl, hn]
    exact (fairShare_succ_le j hp').trans (fairShare_anti hij)

theorem Balanced.apply {call : Call} (h : g.Balanced) (hc : g.apply call = some g') :
    g'.Balanced ∧ g'.numShards = g.numShards := by
  cases call with
  | join id =>
    obtain ⟨⟨g'', r⟩, hj, rfl⟩ := map_eq_some_iff.mp hc
    by_cases hid : id ∈ g.members
    · rcases join_cases hj with ⟨-, rfl⟩ | ⟨hi, -⟩ | ⟨ho, -⟩
      · exact ⟨h, rfl⟩
      · simp [hi] at hid
      · exact absurd hid ho
    · obtain ⟨hb, -, hn, -⟩ := h.join_new hid hj
      exact ⟨hb, hn⟩
  | leave id =>
    obtain ⟨⟨g'', present⟩, hl, rfl⟩ := map_eq_some_iff.mp hc
    cases present with
    | true =>
      obtain ⟨-, hb, -, hn, -⟩ := h.leave_present hl
      exact ⟨hb, hn⟩
    | false =>
      rcases leave_cases hl with ⟨-, rfl, -⟩ | ⟨_, _, ht, _⟩
      · exact ⟨h, rfl⟩
      · cases ht
  | commitOffset shard seq =>
    obtain rfl := some.inj hc
    obtain ⟨offsets, heq⟩ := g.commitOffset_cases shard seq
    rw [heq]
    exact ⟨⟨h.nodup, h.size, h.keys, h.entries, h.covers, h.shares, h.ascending⟩, rfl⟩

theorem Balanced.run (h : g.Balanced) (hr : g.run calls = some g') :
    g'.Balanced ∧ g'.numShards = g.numShards := by
  induction calls generalizing g with
  | nil =>
    obtain rfl := some.inj hr
    exact ⟨h, rfl⟩
  | cons call calls ih =>
    obtain ⟨g₁, hc, ht⟩ := bind_eq_some_iff.mp hr
    obtain ⟨hb, hn⟩ := h.apply hc
    obtain ⟨hf, hn'⟩ := ih hb ht
    exact ⟨hf, hn'.trans hn⟩

/-! ### Generations -/

theorem apply_frame {call : Call} (hcl : g.apply call = some g') :
    g'.generation.toNat = min (g.generation.toNat + if g.Changes call then 1 else 0) (2 ^ 32 - 1) ∧
      g'.members.length ≤ g.members.length + (if g.Changes call then 1 else 0) ∧
      ((∀ shard seq, call ≠ .commitOffset shard seq) → g'.shardOffsets = g.shardOffsets) := by
  have hs : ∀ g₁ : GroupState,
      g₁.generation.toNat = min (g₁.generation.toNat + 0) (2 ^ 32 - 1) := by
    intro g₁
    have hlt := g₁.generation.toNat_lt
    omega
  cases call with
  | join id =>
    obtain ⟨⟨g'', r⟩, hj, rfl⟩ := map_eq_some_iff.mp hcl
    rcases join_cases hj with ⟨hm, rfl⟩ | ⟨hi, rfl⟩ | ⟨hn, -, -, rfl⟩
    · have hsm : ¬ g''.Changes (.join id) := fun h => h hm
      rw [if_neg hsm]
      exact ⟨hs _, le_rfl, fun _ => rfl⟩
    · have hc : g.Changes (.join id) := by simp [Changes, hi]
      rw [if_pos hc, ← saturatingSucc_toNat]
      simp [rebalanced, recomputeRoundRobin, added]
    · have hc : g.Changes (.join id) := hn
      rw [if_pos hc, ← saturatingSucc_toNat]
      simp [rebalanced, added]
  | leave id =>
    obtain ⟨⟨g'', present⟩, hv, rfl⟩ := map_eq_some_iff.mp hcl
    rcases leave_cases hv with ⟨hn, rfl, -⟩ | ⟨pos, hp, -, hcs⟩
    · have hsm : ¬ g''.Changes (.leave id) := hn
      rw [if_neg hsm]
      exact ⟨hs _, le_rfl, fun _ => rfl⟩
    · have hc : g.Changes (.leave id) := isSome_idxOf?.mp (by simp [hp])
      have hl : (g.removed id pos).members.length ≤ g.members.length + 1 :=
        (eraseIdx_sublist ..).length_le.trans (Nat.le_succ _)
      rw [if_pos hc, ← saturatingSucc_toNat]
      rcases hcs with ⟨-, rfl⟩ | ⟨-, rfl⟩
      · exact ⟨rfl, hl, fun _ => rfl⟩
      · exact ⟨rfl, hl, fun _ => rfl⟩
  | commitOffset shard seq =>
    obtain rfl := some.inj hcl
    obtain ⟨offsets, heq⟩ := g.commitOffset_cases shard seq
    have hsm : ¬ g.Changes (.commitOffset shard seq) := fun h => h
    rw [heq, if_neg hsm]
    exact ⟨hs g, le_rfl, fun h => absurd rfl (h shard seq)⟩

theorem run_generation (hr : g.run calls = some g') :
    g'.generation.toNat = min (g.generation.toNat + g.changes calls) (2 ^ 32 - 1) := by
  induction calls generalizing g with
  | nil =>
    obtain rfl := some.inj hr
    have hlt := g.generation.toNat_lt
    simp only [changes]
    omega
  | cons call calls ih =>
    obtain ⟨g₁, hl, ht⟩ := bind_eq_some_iff.mp hr
    have hs := (apply_frame hl).1
    have hc : g.changes (call :: calls) =
        (if g.Changes call then 1 else 0) + g₁.changes calls := by simp [changes, hl]
    rw [ih ht, hc]
    omega

theorem run_members_length (hr : g.run calls = some g') :
    g'.members.length ≤ g.members.length + g.changes calls := by
  induction calls generalizing g with
  | nil =>
    obtain rfl := some.inj hr
    exact Nat.le_add_right _ _
  | cons call calls ih =>
    obtain ⟨g₁, hcl, ht⟩ := bind_eq_some_iff.mp hr
    have hs := (apply_frame hcl).2.1
    have hc : g.changes (call :: calls) =
        (if g.Changes call then 1 else 0) + g₁.changes calls := by simp [changes, hcl]
    have hl := ih ht
    omega

theorem run_shardOffsets (ha : ∀ call ∈ calls, ∀ shard seq, call ≠ .commitOffset shard seq)
    (hr : g.run calls = some g') : g'.shardOffsets = g.shardOffsets := by
  induction calls generalizing g with
  | nil =>
    obtain rfl := some.inj hr
    rfl
  | cons call calls ih =>
    obtain ⟨g₁, hl, ht⟩ := bind_eq_some_iff.mp hr
    have hs := (apply_frame hl).2.2 (ha call mem_cons_self)
    exact (ih (fun c hc => ha c (mem_cons_of_mem call hc)) ht).trans hs

def shardOffset (g : GroupState) (shard : ℕ) : ℕ :=
  (g.shardOffsets.lookup shard).getD 0

theorem shardOffset_commitOffset (g : GroupState) (k seq shard : ℕ) :
    (g.commitOffset k seq).1.shardOffset shard =
      if shard = k then max (g.shardOffset k) seq else g.shardOffset shard := by
  unfold commitOffset shardOffset
  dsimp only
  split_ifs with hs hk hk
  · rw [hk, lookup_insert, getD_some, max_eq_right hs.le]
  · rw [lookup_insert_ne hk]
  · rw [hk, lookup_insert, getD_some, max_eq_left (not_lt.mp hs)]
  · rw [lookup_insert_ne hk]

/-- Whatever joins and leaves lie between, a shard's offset is the largest that was committed. -/
theorem shardOffset_largest (hr : g.run calls = some g') (shard n : ℕ) : g'.shardOffset shard ≤ n ↔
      g.shardOffset shard ≤ n ∧ ∀ seq, .commitOffset shard seq ∈ calls → seq ≤ n := by
  induction calls generalizing g with
  | nil =>
    cases hr
    simp
  | cons call calls ih =>
    obtain ⟨g₁, hc, hr⟩ := bind_eq_some_iff.mp hr
    rw [ih hr]
    cases call with
    | commitOffset k seq =>
      cases hc
      rw [shardOffset_commitOffset]
      split_ifs with hk
      · subst hk
        simp [and_assoc]
      · simp [hk]
    | _ => simp [shardOffset, (apply_frame hc).2.2 nofun]

theorem shardOffset_largest_one :
    ∃ g, (new 4).run [.join "a", .commitOffset 0 5, .leave "a"] = some g ∧ g.shardOffset 0 ≤ 5 := by
  obtain ⟨g, hg⟩ : ∃ g, (new 4).run [.join "a", .commitOffset 0 5, .leave "a"] = some g := ⟨_, rfl⟩
  exact ⟨g, hg, (shardOffset_largest hg 0 5).mpr (by simp [new, shardOffset])⟩

theorem recomputeSticky_isSome (h : g.members.length < 2 ^ 32) : g.recomputeSticky.isSome := by
  unfold recomputeSticky
  split_ifs with hn hz
  · rfl
  · rw [asU32_of_lt h] at hz
    exact absurd hz hn
  · rfl

theorem join_isSome (h : g.members.length + 1 < 2 ^ 32) (id : ConsumerId) : (g.join id).isSome := by
  have hs : (g.added id).recomputeSticky.isSome := recomputeSticky_isSome (by simpa [added] using h)
  unfold join
  split_ifs
  · rfl
  · rfl
  · simpa using hs

theorem leave_isSome (h : g.members.length < 2 ^ 32) (id : ConsumerId) : (g.leave id).isSome := by
  unfold leave
  split
  · rename_i pos _
    have hs : (g.removed id pos).recomputeSticky.isSome :=
      recomputeSticky_isSome ((eraseIdx_sublist ..).length_le.trans_lt h)
    simpa using hs
  · rfl

/-! ### The owner of a shard -/

theorem Disjoint.eq_of_mem_own (h : g.Disjoint) {m' : ConsumerId} (hm : m ∈ g.members)
    (hm' : m' ∈ g.members) (hs : s ∈ g.own m) (hs' : s ∈ g.own m') : m = m' := by
  have hp := (nodup_flatMap.mp h.shards).2
  have hsm : Std.Symm (Function.onFun List.Disjoint g.own) := ⟨fun _ _ hd => hd.symm⟩
  by_contra hne
  exact hp.forall hm hm' hne hs hs'

def owner (g : GroupState) (shard : ℕ) : Option ConsumerId :=
  g.members.find? fun id => shard ∈ g.own id

theorem Balanced.owner_eq_some_iff (h : g.Balanced) :
    g.owner s = some id ↔ id ∈ g.members ∧ s ∈ g.own id := by
  constructor
  · intro ho
    exact ⟨mem_of_find?_eq_some ho, by simpa using find?_some ho⟩
  · rintro ⟨hid, hs⟩
    cases ho : g.owner s with
    | none => exact absurd hs (by simpa using find?_eq_none.mp ho id hid)
    | some m =>
      have hs' : s ∈ g.own m := by simpa using find?_some ho
      rw [h.disjoint.eq_of_mem_own (mem_of_find?_eq_some ho) hid hs' hs]

theorem Balanced.exists_owner (h : g.Balanced) (hne : g.members ≠ []) (hs : s < g.numShards.toNat) :
    ∃ m ∈ g.members, s ∈ g.own m :=
  mem_flatMap.mp ((h.covers hne).symm.subset (mem_range.mpr hs))

theorem Balanced.lt_of_mem_own (h : g.Balanced) (hid : id ∈ g.members) (hs : s ∈ g.own id) :
    s < g.numShards.toNat :=
  h.disjoint.range s (mem_flatMap.mpr ⟨id, hid, hs⟩)

/-- In every state of a group's life the shards are split evenly: each has one owner, the member
at index `i` has its fair share in ascending order, and no offset is touched by a rebalance. -/
theorem shards_partitioned {numShards : UInt32} {calls : List Call}
    (hpos : 0 < numShards.toNat) (hrun : (new numShards).run calls = some g)
    (hgeneration : g.generation.toNat < 2 ^ 32 - 1) :
    (g.members ≠ [] → ∀ shard < numShards.toNat,
      ∃! id, ∃ shards, g.assigned id = some shards ∧ shard ∈ shards) ∧
    (∀ id shards, g.assigned id = some shards →
      id ∈ g.members ∧ ∀ shard ∈ shards, shard < numShards.toNat) ∧
    (∀ i id, g.members[i]? = some id → ∃ shards, g.assigned id = some shards ∧
      shards.length = numShards.toNat / g.members.length +
        (if i < numShards.toNat % g.members.length then 1 else 0) ∧
      shards.Pairwise (· < ·)) ∧
    g.generation.toNat = (new numShards).changes calls ∧
    (∀ moves g', (∀ call ∈ moves, ∀ shard seq, call ≠ .commitOffset shard seq) →
      g.run moves = some g' → g'.shardOffsets = g.shardOffsets) ∧
    ∀ id, (g.join id).isSome ∧ (g.leave id).isSome := by
  obtain ⟨h, hn⟩ := (balanced_new numShards).run hrun
  have hn' : g.numShards = numShards := hn
  have hse : ∀ id ∈ g.members, g.assigned id = some (g.own id) := by
    intro id hid
    have hm := lookup_isSome.mpr (h.entries (hn' ▸ hpos) id hid)
    obtain ⟨shards, hshs⟩ := isSome_iff_exists.mp hm
    simp [assigned, own, hshs]
  have hr : ∀ id shards, g.assigned id = some shards → id ∈ g.members ∧ g.own id = shards := by
    intro id shards ha
    have hk : g.assignments.lookup id = some shards := ha
    exact ⟨h.keys id (lookup_isSome.mp (by simp [hk])), by simp [own, hk]⟩
  have hg := run_generation hrun
  have hl := run_members_length hrun
  have hz : (new numShards).generation.toNat = 0 := rfl
  have he : (new numShards).members.length = 0 := rfl
  refine ⟨?_, ?_, ?_, by omega, fun moves g' hms => run_shardOffsets hms, fun id =>
    ⟨join_isSome (by omega) id, leave_isSome h.size id⟩⟩
  · intro hne shard hd
    obtain ⟨id, hid, hs⟩ := h.exists_owner hne (hn' ▸ hd)
    refine ⟨id, ⟨g.own id, hse id hid, hs⟩, ?_⟩
    rintro id' ⟨shards, ha, hs'⟩
    obtain ⟨hid', rfl⟩ := hr id' shards ha
    exact h.disjoint.eq_of_mem_own hid' hid hs' hs
  · intro id shards ha
    obtain ⟨hid, rfl⟩ := hr id shards ha
    exact ⟨hid, fun s hs => hn' ▸ h.lt_of_mem_own hid hs⟩
  · intro i id hid
    have hm := mem_of_getElem? hid
    refine ⟨g.own id, hse id hm, ?_, h.ascending id hm⟩
    have hh := h.shares i id hid
    rw [hn'] at hh
    exact hh

theorem shards_partitioned_two : ∃ g, (new 4).run [.join "a", .join "b"] = some g ∧
    g.members = ["a", "b"] ∧
    ∀ shard < 4, ∃! id, ∃ shards, g.assigned id = some shards ∧ shard ∈ shards := by
  obtain ⟨g, hr, hm, hg⟩ : ∃ g, (new 4).run [.join "a", .join "b"] = some g ∧
      g.members = ["a", "b"] ∧ g.generation.toNat = 2 := ⟨_, rfl, rfl, rfl⟩
  have hp := shards_partitioned (by decide) hr (by rw [hg]; decide)
  exact ⟨g, hr, hm, hp.1 (by simp [hm])⟩

/-- The shards whose owner a call changes. -/
def moved (g g' : GroupState) : Finset ℕ :=
  (Finset.range g.numShards.toNat).filter fun shard => g'.owner shard ≠ g.owner shard

/-- A join takes shards from the others only for the joiner, and a leave gives the others only the
leaver's. -/
theorem rebalance_moves_least {numShards : UInt32} {calls : List Call}
    (hrun : (new numShards).run calls = some g) :
    (∀ id g' r, id ∉ g.members → g.join id = some (g', r) →
      (∀ m ∈ g.members, g'.own m ⊆ g.own m) ∧ moved g g' = (g'.own id).toFinset ∧
        (moved g g').card = fairShare numShards.toNat (g.members.length + 1) g.members.length) ∧
    ∀ id g', g.leave id = some (g', true) →
      (∀ m ∈ g'.members, g.own m ⊆ g'.own m) ∧ moved g g' = (g.own id).toFinset := by
  obtain ⟨h, hu⟩ := (balanced_new numShards).run hrun
  have hn₀ : g.numShards = numShards := hu
  constructor
  · intro id g' r hid hj
    obtain ⟨h', hb, hn', hss⟩ := h.join_new hid hj
    have hid' : id ∈ g'.members := by simp [hb]
    have hv : moved g g' = (g'.own id).toFinset := by
      ext s
      rw [moved, Finset.mem_filter, Finset.mem_range, List.mem_toFinset]
      constructor
      · rintro ⟨hs, hne⟩
        obtain ⟨m, hm, hsm⟩ := h'.exists_owner (by simp [hb]) (hn' ▸ hs)
        by_contra hn
        have hi : m ≠ id := fun heq => hn (heq ▸ hsm)
        have hm₀ : m ∈ g.members := by simpa [hb, hi] using hm
        rw [h'.owner_eq_some_iff.mpr ⟨hm, hsm⟩, h.owner_eq_some_iff.mpr ⟨hm₀, hss m hm₀ hsm⟩] at hne
        exact hne rfl
      · intro hs
        refine ⟨hn' ▸ h'.lt_of_mem_own hid' hs, ?_⟩
        rw [h'.owner_eq_some_iff.mpr ⟨hid', hs⟩]
        exact fun heq => hid (h.owner_eq_some_iff.mp heq.symm).1
    refine ⟨hss, hv, ?_⟩
    have hd : (g'.own id).Nodup := (h'.ascending id hid').imp fun hlt => hlt.ne
    have hl : g'.members[g.members.length]? = some id := by simp [hb]
    rw [hv, toFinset_card_of_nodup hd, h'.shares _ id hl, hn', hn₀, hb,
      length_append, length_singleton]
  · intro id g' hlv
    obtain ⟨hid, h', hb, hn', hg⟩ := h.leave_present hlv
    refine ⟨hg, ?_⟩
    ext s
    rw [moved, Finset.mem_filter, Finset.mem_range, List.mem_toFinset]
    constructor
    · rintro ⟨hs, hne⟩
      obtain ⟨m, hm, hsm⟩ := h.exists_owner (ne_nil_of_mem hid) hs
      by_contra hn
      have hi : m ≠ id := fun heq => hn (heq ▸ hsm)
      have hm' : m ∈ g'.members := by
        rw [hb]
        exact h.nodup.mem_erase_iff.mpr ⟨hi, hm⟩
      rw [h'.owner_eq_some_iff.mpr ⟨hm', hg m hm' hsm⟩, h.owner_eq_some_iff.mpr ⟨hm, hsm⟩] at hne
      exact hne rfl
    · intro hs
      refine ⟨h.lt_of_mem_own hid hs, ?_⟩
      rw [h.owner_eq_some_iff.mpr ⟨hid, hs⟩]
      intro heq
      have he := (h'.owner_eq_some_iff.mp heq).1
      rw [hb] at he
      exact (h.nodup.mem_erase_iff.mp he).1 rfl

theorem rebalance_moves_least_one : ∃ g, (new 4).run [.join "a"] = some g ∧
    (∃ g' r, g.join "b" = some (g', r) ∧ (moved g g').card = 2) ∧
    ∃ g', g.leave "a" = some (g', true) ∧ moved g g' = (g.own "a").toFinset := by
  obtain ⟨g, hr, hm, hv⟩ : ∃ g, (new 4).run [.join "a"] = some g ∧
      g.members = ["a"] ∧ ∃ g', g.leave "a" = some (g', true) := ⟨_, rfl, rfl, _, rfl⟩
  obtain ⟨g', hg'⟩ := hv
  obtain ⟨⟨g'', r⟩, hn⟩ := isSome_iff_exists.mp (join_isSome (g := g) (by rw [hm]; decide) "b")
  obtain ⟨hj, hl⟩ := rebalance_moves_least hr
  obtain ⟨-, -, hc⟩ := hj "b" g'' r (by simp [hm]) hn
  refine ⟨g, hr, ⟨g'', r, hn, ?_⟩, g', hg', (hl "a" g' hg').2⟩
  rw [hc, hm]
  rfl

/-! ### The consumers that a call touches -/

/-- `last_changed` names the consumers whose shards a call changed. -/
def ChangedExactly (g g' : GroupState) : Prop :=
  ∀ c, c ∈ g'.lastChanged ↔ g'.assigned c ≠ g.assigned c

theorem changedExactly_self : ChangedExactly g g ↔ g.lastChanged = ∅ := by
  simp [ChangedExactly, Finset.eq_empty_iff_forall_notMem]

theorem Balanced.join_changedExactly (h : g.Balanced) (hid : id ∉ g.members)
    (hj : g.join id = some (g', r)) :
    ChangedExactly g g' ↔ (g.members = [] → g.numShards.toNat ≠ 0) := by
  obtain ⟨hm, -⟩ | ⟨hn, rfl⟩ | ⟨-, hne, hs, rfl⟩ := join_cases hj
  · exact absurd hm hid
  · have hb : ∀ c, g.assigned c = none := fun c =>
      lookup_eq_none.mpr fun hc => by simpa [hn] using h.keys c hc
    have hcd : (g.added id).members.toFinset = {id} := by simp [added, hn]
    simp only [ChangedExactly, hb, Option.ne_none_iff_isSome]
    simp only [rebalanced, hcd, assigned, recomputeRoundRobin_added hn, lookup_isSome,
      Finset.mem_singleton]
    split_ifs with hz
    · simp [hn, hz]
    · simp [hz, AList.mem_keys]
  · have hd := (h.added_disjoint hid hs).nodup
    refine ⟨fun _ hn => absurd hn hne, fun _ c => ?_⟩
    exact mem_changedConsumers fun c hc => (mem_rebalance_iff hd).mp hc

/-- The entry of the member that leaves is gone before the lists are compared. -/
theorem Balanced.mem_lastChanged_leave (h : g.Balanced) (hl : g.leave id = some (g', true)) :
    m ∈ g'.lastChanged ↔ g'.assigned m ≠ (g.assignments.erase id).lookup m := by
  obtain ⟨-, -, ⟨⟩⟩ | ⟨pos, hp, -, ⟨-, rfl⟩ | ⟨-, rfl⟩⟩ := leave_cases hl
  · have he : m ∈ (g.removed id pos).assignments.keys.toFinset ↔
        m ∈ changedConsumers (g.assignments.erase id) ∅ [] := by
      simp [changedConsumers, removed]
    exact he.trans (mem_changedConsumers (by simp))
  · have hn := (h.removed_disjoint hp).nodup
    exact mem_changedConsumers fun c hc => (mem_rebalance_iff hn).mp hc

theorem Balanced.leave_changedExactly (h : g.Balanced) (hl : g.leave id = some (g', true)) :
    ChangedExactly g g' ↔ g.assigned id = none := by
  obtain ⟨-, h', hm, -, -⟩ := h.leave_present hl
  have hg : g'.assigned id = none := lookup_eq_none.mpr fun hid =>
    h.nodup.not_mem_erase (hm ▸ h'.keys id hid)
  have hd := fun c => h.mem_lastChanged_leave (m := c) hl
  constructor
  · intro hex
    have hid := (hd id).symm.trans (hex id)
    rw [hg, lookup_erase] at hid
    by_contra hs
    exact hid.mpr (Ne.symm hs) rfl
  · intro hn c
    rw [hd]
    rcases eq_or_ne c id with rfl | hc
    · rw [lookup_erase, hn]
    · rw [lookup_erase_ne hc, assigned]
      rfl

theorem lastChanged_exact_iff {numShards : UInt32} (hrun : (new numShards).run calls = some g) :
    (∀ id g' r, g.join id = some (g', r) → (ChangedExactly g g' ↔
      if id ∈ g.members then g.lastChanged = ∅ else g.members = [] → g.numShards.toNat ≠ 0)) ∧
    ∀ id g' present, g.leave id = some (g', present) → (ChangedExactly g g' ↔
      if id ∈ g.members then g.assigned id = none else g.lastChanged = ∅) := by
  obtain ⟨h, -⟩ := (balanced_new numShards).run hrun
  constructor
  · intro id g' r hj
    split_ifs with hid
    · rw [join, if_pos hid] at hj
      cases hj
      exact changedExactly_self
    · exact h.join_changedExactly hid hj
  · intro id g' present hl
    split_ifs with hid
    · obtain ⟨hn, -⟩ | ⟨-, -, rfl, -⟩ := leave_cases hl
      · exact absurd hid hn
      · exact h.leave_changedExactly hl
    · rw [leave, idxOf?_eq_none_iff.mpr hid] at hl
      cases hl
      exact changedExactly_self

theorem lastChanged_exact_second : ∃ g, (new 4).run [.join "a"] = some g ∧
    ∃ g' r, g.join "b" = some (g', r) ∧ ChangedExactly g g' := by
  obtain ⟨g, hr, hm⟩ : ∃ g, (new 4).run [.join "a"] = some g ∧ g.members = ["a"] := ⟨_, rfl, rfl⟩
  obtain ⟨⟨g', r⟩, hj⟩ := isSome_iff_exists.mp (join_isSome (g := g) (by rw [hm]; decide) "b")
  refine ⟨g, hr, g', r, hj, ((lastChanged_exact_iff hr).1 "b" g' r hj).mpr ?_⟩
  simp [hm]

/-- The only member leaves, and no consumer counts as changed. -/
theorem lastChanged_misses_leaver : ∃ g, (new 4).run [.join "a"] = some g ∧
    ∃ g', g.leave "a" = some (g', true) ∧ "a" ∉ g'.lastChanged ∧
      g.assigned "a" = some [0, 1, 2, 3] ∧ g'.assigned "a" = none :=
  ⟨_, rfl, _, rfl, by decide, rfl, rfl⟩

end GroupState

end LogDb.Broker
