import Mathlib

/-!
The even split of a number of items among `n` holders: everyone gets the quotient, and the first
holders get one more until the remainder is used up.
-/

namespace LogDb.Lib

open List

def fairShare (total n i : ℕ) : ℕ :=
  total / n + if i < total % n then 1 else 0

theorem fairShare_anti {total n i j : ℕ} (h : i ≤ j) : fairShare total n j ≤ fairShare total n i := by
  unfold fairShare
  split_ifs <;> omega

theorem fairShare_succ_le {total n : ℕ} (i : ℕ) (hn : 0 < n) :
    fairShare total (n + 1) i ≤ fairShare total n i := by
  have hq : total / (n + 1) ≤ total / n := Nat.div_le_div_left (Nat.le_succ n) hn
  have hn' := Nat.div_add_mod total n
  have hs := Nat.div_add_mod total (n + 1)
  rw [add_mul, one_mul] at hs
  unfold fairShare
  rcases hq.lt_or_eq with hlt | heq
  · split_ifs <;> omega
  · -- with equal quotients the remainder loses the new holder's part
    rw [heq] at hs ⊢
    have hr : total % (n + 1) ≤ total % n := by linarith [Nat.zero_le (total / n)]
    split_ifs <;> omega

theorem fairShare_le (total n i : ℕ) : fairShare total n i ≤ total := by
  unfold fairShare
  have hd := Nat.div_add_mod total n
  rcases Nat.eq_zero_or_pos n with rfl | hn
  · rw [Nat.mod_zero, Nat.div_zero]
    split_ifs <;> omega
  · have hm : total / n ≤ n * (total / n) := Nat.le_mul_of_pos_left _ hn
    split_ifs <;> omega

theorem fairShare_one (total : ℕ) : fairShare total 1 0 = total := by
  simp [fairShare, Nat.mod_one]

private theorem sum_extra (n r : ℕ) :
    ((List.range n).map fun i => if i < r then 1 else 0).sum = min n r := by
  induction n with
  | zero => simp
  | succ n ih =>
    rw [range_succ, map_append, sum_append, ih]
    simp only [map_cons, map_nil, sum_cons, sum_nil]
    split_ifs <;> omega

theorem sum_fairShare {n : ℕ} (total : ℕ) (hn : 0 < n) :
    ((List.range n).map (fairShare total n)).sum = total := by
  have hs : (range n).map (fairShare total n) =
      (range n).map fun i => total / n + if i < total % n then 1 else 0 := rfl
  have hm := Nat.mod_lt total hn
  rw [hs, sum_map_add, sum_extra, map_const', sum_replicate, length_range,
    smul_eq_mul, min_eq_right hm.le]
  exact Nat.div_add_mod total n

end LogDb.Lib
