import Mathlib

/-!
Loops given by one iteration and a decreasing measure. `Loop.run` recurses structurally on a
bound for the measure, so loops evaluate, and `Loop.run_eq` is the equation proofs use.
-/

namespace LogDb.Lib

/-- One iteration either continues from a new state or leaves the loop with a result. -/
structure Loop (σ ρ : Type*) where
  step : σ → σ ⊕ ρ
  measure : σ → ℕ
  decreasing : ∀ s s', step s = .inl s' → measure s' < measure s

namespace Loop

variable {σ ρ : Type*} (L : Loop σ ρ)

/-- Iterate at most `n` times, where `n` bounds the measure of the state. -/
def iter : (n : ℕ) → (s : σ) → L.measure s < n → ρ
  | 0, _, h => absurd h (Nat.not_lt_zero _)
  | n + 1, s, h =>
    match hs : L.step s with
    | .inl s' => iter n s' (Nat.lt_of_lt_of_le (L.decreasing s s' hs) (Nat.le_of_lt_succ h))
    | .inr r => r

def run (s : σ) : ρ :=
  L.iter (L.measure s + 1) s (Nat.lt_succ_self _)

theorem iter_of_inl {n : ℕ} {s s' : σ} (h : L.measure s < n + 1) (hs : L.step s = .inl s')
    (h' : L.measure s' < n) : L.iter (n + 1) s h = L.iter n s' h' := by
  rw [iter]
  split
  · next t ht =>
    rw [hs] at ht
    cases ht
    rfl
  · next r hr =>
    rw [hs] at hr
    cases hr

theorem iter_of_inr {n : ℕ} {s : σ} {r : ρ} (h : L.measure s < n + 1) (hs : L.step s = .inr r) :
    L.iter (n + 1) s h = r := by
  rw [iter]
  split
  · next t ht =>
    rw [hs] at ht
    cases ht
  · next q hq =>
    rw [hs] at hq
    cases hq
    rfl

/-- The bound does not matter as long as it exceeds the measure. -/
theorem iter_eq_iter (n m : ℕ) (s : σ) (hn : L.measure s < n) (hm : L.measure s < m) :
    L.iter n s hn = L.iter m s hm := by
  induction n generalizing m s with
  | zero => exact absurd hn (Nat.not_lt_zero _)
  | succ n ih =>
    obtain ⟨m, rfl⟩ := Nat.exists_eq_succ_of_ne_zero (Nat.ne_zero_of_lt hm)
    cases hs : L.step s with
    | inl s' =>
      have hd := L.decreasing s s' hs
      rw [L.iter_of_inl hn hs (by omega), L.iter_of_inl hm hs (by omega)]
      exact ih m s' _ _
    | inr r => rw [L.iter_of_inr hn hs, L.iter_of_inr hm hs]

theorem run_of_inl {s s' : σ} (hs : L.step s = .inl s') : L.run s = L.run s' := by
  have hd := L.decreasing s s' hs
  rw [run, L.iter_of_inl _ hs hd]
  exact L.iter_eq_iter _ _ s' _ _

theorem run_of_inr {s : σ} {r : ρ} (hs : L.step s = .inr r) : L.run s = r :=
  L.iter_of_inr _ hs

/-- An invariant kept by every iteration gives the postcondition of the exit it reaches. -/
theorem run_invariant (Inv : σ → Prop) (Post : ρ → Prop)
    (hp : ∀ s s', Inv s → L.step s = .inl s' → Inv s')
    (he : ∀ s r, Inv s → L.step s = .inr r → Post r) {s : σ} (hs : Inv s) : Post (L.run s) := by
  induction hm : L.measure s using Nat.strongRecOn generalizing s with
  | _ m ih =>
    cases ht : L.step s with
    | inl s' =>
      rw [L.run_of_inl ht]
      exact ih _ (hm ▸ L.decreasing s s' ht) (hp s s' hs ht) rfl
    | inr r =>
      rw [L.run_of_inr ht]
      exact he s r hs ht

end Loop

/-- Fold a list until one of its items ends the fold. -/
def foldUntil {α β ρ : Type*} (next : α → β → α ⊕ ρ) (last : α → ρ) : List β → α → ρ
  | [], acc => last acc
  | x :: xs, acc =>
    match next acc x with
    | .inl acc' => foldUntil next last xs acc'
    | .inr r => r

/-- A loop over a string of encoded items is the fold of its step on one item. -/
theorem Loop.run_items {σ ρ α β γ : Type*} (L : Loop σ ρ) {P : β → Prop} {enc : β → List γ}
    (state : ℕ → α → σ) {next : α → β → α ⊕ ρ} {last : α → ρ} {data : List γ}
    (hi : ∀ pre x rest acc, P x → data = pre ++ (enc x ++ rest) →
      L.step (state pre.length acc) = (next acc x).map (state (pre ++ enc x).length) id)
    (he : ∀ acc, L.step (state data.length acc) = .inr (last acc)) (xs : List β)
    (hx : ∀ x ∈ xs, P x) (pre : List γ) (hd : data = pre ++ (xs.map enc).flatten) (acc : α) :
    L.run (state pre.length acc) = foldUntil next last xs acc := by
  induction xs generalizing pre acc with
  | nil =>
    rw [List.map_nil, List.flatten_nil, List.append_nil] at hd
    rw [← hd]
    exact L.run_of_inr (he acc)
  | cons x xs ih =>
    rw [List.map_cons, List.flatten_cons] at hd
    have hs := hi pre x _ acc (hx x List.mem_cons_self) hd
    unfold foldUntil
    cases hn : next acc x with
    | inl acc' =>
      rw [hn] at hs
      rw [L.run_of_inl hs]
      exact ih (fun y hy => hx y (List.mem_cons_of_mem x hy)) _ (by rw [hd, List.append_assoc]) acc'
    | inr r =>
      rw [hn] at hs
      exact L.run_of_inr hs

end LogDb.Lib
