import LogDb.Broker.Coordinator

/-!
What a sticky rebalance does to the lists of shards, in the order of the members: no shard is lost
or doubled, everyone ends with the fair share, and a list only shrinks or only grows.
-/

namespace LogDb.Broker

open Lib List

variable {lists : List (List ℕ)} {shards : List ℕ} {s : ℕ} {target : ℕ → ℕ}

/-! ### One member -/

section

variable (n idx surplus : ℕ) (shards toShed : List ℕ)

theorem retainOurs_perm :
    ((retainOurs n idx surplus shards toShed).1 ++ (retainOurs n idx surplus shards toShed).2).Perm
      (shards ++ toShed) := by
  induction shards generalizing toShed with
  | nil => exact .refl _
  | cons s shards ih =>
    unfold retainOurs
    split_ifs
    · exact (ih toShed).cons s
    · exact (ih toShed).cons s
    · have hm : (shards ++ (toShed ++ [s])).Perm (s :: (shards ++ toShed)) := by
        rw [← append_assoc]
        exact perm_append_singleton s _
      exact (ih (toShed ++ [s])).trans hm

theorem retainOurs_sublist : (retainOurs n idx surplus shards toShed).1.Sublist shards := by
  induction shards generalizing toShed with
  | nil => exact .refl _
  | cons s shards ih =>
    unfold retainOurs
    split_ifs
    · exact (ih toShed).cons_cons s
    · exact (ih toShed).cons_cons s
    · exact (ih _).cons s

theorem retainOurs_length (hle : toShed.length ≤ surplus) (hlt : surplus < 2 ^ 32) :
    (retainOurs n idx surplus shards toShed).2.length ≤ surplus := by
  induction shards generalizing toShed with
  | nil => exact hle
  | cons s shards ih =>
    unfold retainOurs
    split_ifs with hf
    · exact ih toShed hle
    · exact ih toShed hle
    · rw [asU32_of_lt (by omega)] at hf
      refine ih _ ?_
      rw [length_append, length_singleton]
      omega

end

theorem shedOwn_concat {target : ℕ} (toShed : List ℕ) (h : target < asU32 (shards ++ [s]).length) :
    shedOwn target (shards ++ [s]) toShed = shedOwn target shards (toShed ++ [s]) := by
  rw [shedOwn, if_pos h]
  split
  · rename_i s' hl
    obtain rfl : s = s' := by simpa using hl
    rw [dropLast_concat]
  · rename_i hl
    simp at hl

theorem shedOwn_spec (target : ℕ) (shards toShed : List ℕ) (hlt : shards.length < 2 ^ 32) :
    ((shedOwn target shards toShed).1 ++ (shedOwn target shards toShed).2).Perm
        (shards ++ toShed) ∧
      (shedOwn target shards toShed).1.Sublist shards ∧
      (shedOwn target shards toShed).1.length = min shards.length target := by
  induction shards using reverseRecOn generalizing toShed with
  | nil =>
    rw [shedOwn, if_neg (by simp [asU32])]
    simp
  | append_singleton shards s ih =>
    have hl : (shards ++ [s]).length = shards.length + 1 := by simp
    by_cases ho : target < asU32 (shards ++ [s]).length
    · rw [shedOwn_concat toShed ho]
      rw [asU32_of_lt hlt] at ho
      obtain ⟨hp, hs, hn⟩ := ih (toShed ++ [s]) (by omega)
      refine ⟨hp.trans ?_, hs.trans (sublist_append_left _ _), by omega⟩
      rw [append_assoc]
      exact perm_append_comm.append_left shards
    · rw [shedOwn, if_neg ho]
      rw [asU32_of_lt hlt] at ho
      have hm : min (shards ++ [s]).length target = (shards ++ [s]).length := min_eq_left (by omega)
      exact ⟨.refl _, .refl _, hm.symm⟩

/-- A member over its target keeps as many shards as the target, the others lose nothing. -/
theorem shed_spec (n : ℕ) (target : ℕ → ℕ) (idx : ℕ) (shards free : List ℕ)
    (hlt : shards.length < 2 ^ 32) :
    ((shed n target idx shards free).1 ++ (shed n target idx shards free).2).Perm
        (shards ++ free) ∧
      (shed n target idx shards free).1.Sublist shards ∧
      (shed n target idx shards free).1.length = min shards.length (target idx) := by
  set r := retainOurs n idx (asU32 shards.length - target idx) shards [] with hr
  have hd : (r.1 ++ r.2).Perm shards := by
    simpa using retainOurs_perm n idx (asU32 shards.length - target idx) shards []
  have hs : r.1.Sublist shards := retainOurs_sublist ..
  have hc : asU32 shards.length = shards.length := asU32_of_lt hlt
  have hsd : r.2.length ≤ asU32 shards.length - target idx :=
    retainOurs_length n idx _ shards [] (Nat.zero_le _) (by omega)
  have hl := hd.length_eq
  rw [length_append] at hl
  obtain ⟨hp, hs', hm⟩ := shedOwn_spec (target idx) r.1 r.2 (by omega)
  have heq : shed n target idx shards free =
      ((shedOwn (target idx) r.1 r.2).1, free ++ (shedOwn (target idx) r.1 r.2).2) := rfl
  rw [heq]
  refine ⟨?_, hs'.trans hs, hm.trans (by omega)⟩
  calc (shedOwn (target idx) r.1 r.2).1 ++ (free ++ (shedOwn (target idx) r.1 r.2).2)
      |>.Perm ((shedOwn (target idx) r.1 r.2).1 ++ ((shedOwn (target idx) r.1 r.2).2 ++ free)) :=
        perm_append_comm.append_left _
    _ |>.Perm (((shedOwn (target idx) r.1 r.2).1 ++ (shedOwn (target idx) r.1 r.2).2) ++ free) := by
        rw [append_assoc]
    _ |>.Perm (shards ++ free) := (hp.trans hd).append_right free

theorem fillUp_concat {target : ℕ} (free : List ℕ) (h : asU32 shards.length < target) :
    fillUp target shards (free ++ [s]) = fillUp target (shards ++ [s]) free := by
  rw [fillUp, if_pos h]
  split
  · rename_i s' hl
    obtain rfl : s = s' := by simpa using hl
    rw [dropLast_concat]
  · rename_i hl
    simp at hl

theorem fillUp_spec (target : ℕ) (shards free : List ℕ) (hlt : target < 2 ^ 32)
    (hle : shards.length ≤ target) :
    ((fillUp target shards free).1 ++ (fillUp target shards free).2).Perm (shards ++ free) ∧
      shards <+: (fillUp target shards free).1 ∧
      (fillUp target shards free).1.length = min target (shards.length + free.length) := by
  induction free using reverseRecOn generalizing shards with
  | nil =>
    rw [fillUp]
    split_ifs
    · exact ⟨.refl _, prefix_refl _, by simp; omega⟩
    · exact ⟨.refl _, prefix_refl _, by simp; omega⟩
  | append_singleton free s ih =>
    have hc : asU32 shards.length = shards.length := asU32_of_lt (by omega)
    by_cases hu : asU32 shards.length < target
    · rw [fillUp_concat free hu]
      obtain ⟨hm, hp, hl⟩ := ih (shards ++ [s]) (by simp; omega)
      refine ⟨hm.trans ?_, (prefix_append _ _).trans hp, ?_⟩
      · rw [append_assoc]
        exact perm_append_comm.append_left shards
      · simp only [length_append, length_singleton] at hl ⊢
        omega
    · rw [fillUp, if_neg hu]
      exact ⟨.refl _, prefix_refl _, by simp; omega⟩

/-! ### All members -/

/-- What the members from index `i` on still need. -/
def deficit (target : ℕ → ℕ) : ℕ → List (List ℕ) → ℕ
  | _, [] => 0
  | i, shards :: rest => (target i - shards.length) + deficit target (i + 1) rest

/-- When the pool holds what the members need, everyone is filled up and the pool runs empty. -/
theorem sweep_fill {target : ℕ → ℕ} (hlt : ∀ i, target i < 2 ^ 32) {lists : List (List ℕ)} {i : ℕ}
    {free : List ℕ} (hle : ∀ k shards, lists[k]? = some shards → shards.length ≤ target (i + k))
    (hp : free.length = deficit target i lists) :
    (sweep (fill target) i lists free).2 = [] ∧
      ((sweep (fill target) i lists free).1.flatten).Perm (lists.flatten ++ free) ∧
      ∀ k shards, lists[k]? = some shards → ∃ filled,
        (sweep (fill target) i lists free).1[k]? = some filled ∧ shards <+: filled ∧
          filled.length = target (i + k) := by
  induction lists generalizing i free with
  | nil =>
    obtain rfl := eq_nil_of_length_eq_zero hp
    simp
  | cons shards rest ih =>
    have hh : shards.length ≤ target i := hle 0 shards rfl
    unfold deficit at hp
    obtain ⟨hm, hr, hl⟩ := fillUp_spec (target i) shards free (hlt i) hh
    have ha := hm.length_eq
    simp only [length_append] at ha
    have ht : ∀ k shards, rest[k]? = some shards → shards.length ≤ target (i + 1 + k) := by
      intro k shards' hk
      have := hle (k + 1) shards' (by simpa using hk)
      rwa [show i + (k + 1) = i + 1 + k by omega] at this
    obtain ⟨he, hf, hi⟩ := @ih (i + 1) (fill target i shards free).2 ht (by unfold fill; omega)
    refine ⟨he, ?_, ?_⟩
    · simp only [sweep, flatten_cons]
      calc (fill target i shards free).1 ++
            (sweep (fill target) (i + 1) rest (fill target i shards free).2).1.flatten
          |>.Perm ((fill target i shards free).1 ++
              (rest.flatten ++ (fill target i shards free).2)) := hf.append_left _
        _ |>.Perm ((fill target i shards free).1 ++
              ((fill target i shards free).2 ++ rest.flatten)) :=
            perm_append_comm.append_left _
        _ |>.Perm ((fill target i shards free).1 ++ (fill target i shards free).2 ++
              rest.flatten) := by rw [append_assoc]
        _ |>.Perm (shards ++ free ++ rest.flatten) := hm.append_right _
        _ |>.Perm (shards ++ rest.flatten ++ free) := by
            rw [append_assoc, append_assoc]
            exact perm_append_comm.append_left _
    · intro k shards' hk
      cases k with
      | zero =>
        obtain rfl : shards = shards' := by simpa using hk
        refine ⟨(fill target i shards free).1, rfl, hr, hl.trans ?_⟩
        rw [add_zero]
        omega
      | succ k =>
        obtain ⟨filled, hg, hp', hl'⟩ := hi k shards' (by simpa using hk)
        refine ⟨filled, by simpa using hg, hp', ?_⟩
        rwa [show i + (k + 1) = i + 1 + k by omega]

theorem deficit_add_length {i : ℕ}
    (hle : ∀ k shards, lists[k]? = some shards → shards.length ≤ target (i + k)) :
    deficit target i lists + lists.flatten.length =
      ((List.range' i lists.length).map target).sum := by
  induction lists generalizing i with
  | nil => rfl
  | cons shards rest ih =>
    have hh : shards.length ≤ target i := hle 0 shards rfl
    have hr := ih (i := i + 1) fun k shards' hk => by
      have := hle (k + 1) shards' (by simpa using hk)
      rwa [show i + (k + 1) = i + 1 + k by omega] at this
    simp only [deficit, flatten_cons, length_append, length_cons, range'_succ, map_cons, sum_cons]
    omega

/-- The lists after the rebalance, in the order of the members. -/
def balancedLists (n : ℕ) (target : ℕ → ℕ) (lists : List (List ℕ)) (free : List ℕ) :
    List (List ℕ) :=
  let afterShed := sweep (shed n target) 0 lists free
  (sweep (fill target) 0 afterShed.1 afterShed.2).1

/-- How the new shards of a member relate to the old ones. -/
structure Sticky (target : ℕ) (old new : List ℕ) : Prop where
  length_eq : new.length = target
  shrinks : target ≤ old.length → new ⊆ old
  grows : old.length ≤ target → old ⊆ new

theorem balancedLists_spec {n total : ℕ} {free : List ℕ}
    (hs : ∀ shards ∈ lists, shards.length < 2 ^ 32) (hlt : ∀ i, target i < 2 ^ 32)
    (hj : ((List.range lists.length).map target).sum = total)
    (ha : (lists.flatten ++ free).Perm (List.range total)) :
    (balancedLists n target lists free).flatten.Perm (List.range total) ∧
      ∀ k old, lists[k]? = some old → ∃ new, (balancedLists n target lists free)[k]? = some new ∧
        Sticky (target k) old new := by
  set r := sweep (shed n target) 0 lists free with hr
  have hpm : (r.1.flatten ++ r.2).Perm (range total) :=
    (sweep_perm (fun i b hb acc => (shed_spec n target i b acc (hs b hb)).1) 0 free).trans ha
  have hke : ∀ k old, lists[k]? = some old → ∃ kept, r.1[k]? = some kept ∧
      kept.Sublist old ∧ kept.length = min old.length (target k) := by
    intro k old ho
    have := sweep_getElem? (R := fun i old kept => kept.Sublist old ∧
      kept.length = min old.length (target i))
      (fun i b hb acc => (shed_spec n target i b acc (hs b hb)).2) 0 free ho
    rwa [zero_add] at this
  have hln : r.1.length = lists.length := length_sweep ..
  have hle : ∀ k shards, r.1[k]? = some shards → shards.length ≤ target (0 + k) := by
    intro k shards hk
    have hlt : k < lists.length := by
      rw [← hln]
      exact (List.getElem?_eq_some_iff.mp hk).1
    obtain ⟨kept, hg, -, hl⟩ := hke k (lists.get ⟨k, hlt⟩) (by simp)
    obtain rfl : kept = shards := Option.some.inj (hg.symm.trans hk)
    rw [zero_add, hl]
    exact min_le_right _ _
  -- the pool holds exactly what is missing, since all shards together are the sum of the targets
  have hp : r.2.length = deficit target 0 r.1 := by
    have hd := deficit_add_length hle
    rw [hln, ← range_eq_range', hj] at hd
    have := hpm.length_eq
    rw [length_append, length_range] at this
    omega
  obtain ⟨-, hf, hi⟩ := sweep_fill hlt hle hp
  refine ⟨hf.trans hpm, ?_⟩
  intro k old ho
  obtain ⟨kept, hg, hc, hm⟩ := hke k old ho
  obtain ⟨new, hn, he, hl⟩ := hi k kept hg
  rw [zero_add] at hl
  refine ⟨new, hn, hl, fun hv => ?_, fun hu => ?_⟩
  · have heq : kept = new := he.eq_of_length (by omega)
    exact heq ▸ hc.subset
  · have heq : kept = old := hc.eq_of_length (by omega)
    exact heq ▸ he.subset

end LogDb.Broker
