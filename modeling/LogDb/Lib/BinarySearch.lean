import Mathlib

/-!
Binary search as the standard library of the source does it: the base moves up while the element
in the middle is not greater than the target.
-/

namespace LogDb.Lib

open List

variable {α : Type*}

/-- The search loop over `[base, base + size)`. -/
def bisect (cmpAt : ℕ → Ordering) : ℕ → ℕ → ℕ → ℕ
  | 0, base, _ => base
  | fuel + 1, base, size =>
    if size ≤ 1 then base
    else
      let half := size / 2
      let mid := base + half
      bisect cmpAt fuel (if cmpAt mid = .gt then base else mid) (size - half)

def comparisonAt (cmp : α → Ordering) (l : List α) (i : ℕ) : Ordering :=
  (l[i]?).elim .gt cmp

/-- The position of a match, or as an error the position to insert at. -/
def binarySearchBy (cmp : α → Ordering) (l : List α) : Except ℕ ℕ :=
  if l.isEmpty then .error 0
  else
    let base := bisect (comparisonAt cmp l) l.length 0 l.length
    match comparisonAt cmp l base with
    | .eq => .ok base
    | .lt => .error (base + 1)
    | .gt => .error base

def partitionPoint (p : α → Bool) (l : List α) : ℕ :=
  match binarySearchBy (fun a => if p a then .lt else .gt) l with
  | .ok i => i
  | .error i => i

/-- `l` is split after its first `k` elements, those that are not greater. -/
def SplitAt (cmp : α → Ordering) (l : List α) (k : ℕ) : Prop :=
  k ≤ l.length ∧ ∀ i, comparisonAt cmp l i = .gt ↔ k ≤ i

theorem bisect_eq {cmpAt : ℕ → Ordering} {k : ℕ} (hs : ∀ i, cmpAt i = .gt ↔ k ≤ i) :
    ∀ fuel base size, size ≤ fuel → 0 < size → base ≤ k - 1 → k ≤ base + size →
      bisect cmpAt fuel base size = k - 1 := by
  intro fuel
  induction fuel with
  | zero =>
    intro base size hf hp
    omega
  | succ fuel ih =>
    intro base size hf hp hb he
    unfold bisect
    by_cases ho : size ≤ 1
    · rw [if_pos ho]
      omega
    · rw [if_neg ho]
      by_cases hgt : cmpAt (base + size / 2) = .gt
      · have hk := (hs _).mp hgt
        simp only [if_pos hgt]
        exact ih base (size - size / 2) (by omega) (by omega) hb (by omega)
      · have hk : base + size / 2 < k := not_le.mp fun hle => hgt ((hs _).mpr hle)
        simp only [if_neg hgt]
        exact ih (base + size / 2) (size - size / 2) (by omega) (by omega) (by omega) (by omega)

theorem binarySearchBy_of_split {cmp : α → Ordering} {l : List α} {k : ℕ} (h : SplitAt cmp l k) :
    binarySearchBy cmp l =
      if k = 0 then .error 0 else if comparisonAt cmp l (k - 1) = .eq then .ok (k - 1) else .error k := by
  obtain ⟨hk, hs⟩ := h
  unfold binarySearchBy
  rcases Nat.eq_zero_or_pos l.length with hn | hp
  · obtain rfl := length_eq_zero_iff.mp hn
    rw [if_pos (by omega : k = 0)]
    rfl
  · have hne : l.isEmpty = false := isEmpty_eq_false_iff.mpr (length_pos_iff.mp hp)
    rw [hne, if_neg Bool.false_ne_true]
    simp only [bisect_eq hs l.length 0 l.length (le_rfl) hp (Nat.zero_le _) (by omega)]
    by_cases hz : k = 0
    · have hgt := (hs (k - 1)).mpr (by omega)
      rw [hgt, if_pos hz, hz]
    · have hg : comparisonAt cmp l (k - 1) ≠ .gt := fun hgt => by
        have := (hs (k - 1)).mp hgt
        omega
      rw [if_neg hz]
      cases hc : comparisonAt cmp l (k - 1) with
      | lt =>
        simp only [reduceCtorEq, if_false, Except.error.injEq]
        omega
      | eq => simp
      | gt => exact absurd hc hg

theorem splitAt_append {cmp : α → Ordering} {xs ys : List α} (hx : ∀ x ∈ xs, cmp x ≠ .gt)
    (hs : ∀ y ∈ ys, cmp y = .gt) : SplitAt cmp (xs ++ ys) xs.length := by
  refine ⟨by simp, fun i => ?_⟩
  unfold comparisonAt
  rcases lt_or_ge i xs.length with hlt | hge
  · rw [getElem?_append_left hlt, getElem?_eq_getElem hlt]
    constructor
    · intro hgt
      exact absurd hgt (hx _ (getElem_mem hlt))
    · omega
  · rw [getElem?_append_right hge]
    refine ⟨fun _ => hge, fun _ => ?_⟩
    cases hy : ys[i - xs.length]? with
    | none => rfl
    | some y => exact hs y (mem_of_getElem? hy)

theorem partitionPoint_append {p : α → Bool} {xs ys : List α} (hxs : ∀ x ∈ xs, p x = true)
    (hys : ∀ y ∈ ys, p y = false) : partitionPoint p (xs ++ ys) = xs.length := by
  have hs : SplitAt (fun a => if p a then .lt else .gt) (xs ++ ys) xs.length := by
    apply splitAt_append
    · intro x hx
      simp [hxs x hx]
    · intro y hy
      simp [hys y hy]
  have hne : ∀ i, comparisonAt (fun a => if p a then .lt else .gt) (xs ++ ys) i ≠ .eq := by
    intro i
    unfold comparisonAt
    cases (xs ++ ys)[i]? with
    | none => simp
    | some a =>
      simp only [Option.elim_some]
      split_ifs <;> simp
  unfold partitionPoint
  rw [binarySearchBy_of_split hs]
  by_cases hz : xs.length = 0
  · rw [if_pos hz]
    exact hz.symm
  · rw [if_neg hz, if_neg (hne _)]

theorem exists_split_of_sorted {β : Type*} [LinearOrder β] {key : α → β} {l : List α}
    (hs : l.Pairwise fun a b => key a ≤ key b) (bound : β) :
    ∃ xs ys, l = xs ++ ys ∧ (∀ x ∈ xs, key x ≤ bound) ∧ ∀ y ∈ ys, bound < key y := by
  induction l with
  | nil => exact ⟨[], [], rfl, fun _ h => absurd h not_mem_nil, fun _ h => absurd h not_mem_nil⟩
  | cons a l ih =>
    obtain ⟨ha, hl⟩ := pairwise_cons.mp hs
    rcases le_or_gt (key a) bound with hle | hgt
    · obtain ⟨xs, ys, rfl, hxs, hys⟩ := ih hl
      refine ⟨a :: xs, ys, rfl, fun x hx => ?_, hys⟩
      rcases mem_cons.mp hx with rfl | hm
      · exact hle
      · exact hxs x hm
    · refine ⟨[], a :: l, rfl, fun _ h => absurd h not_mem_nil, fun y hy => ?_⟩
      rcases mem_cons.mp hy with rfl | hm
      · exact hgt
      · exact hgt.trans_le (ha y hm)

end LogDb.Lib
