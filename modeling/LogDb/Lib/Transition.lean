import Mathlib

/-!
The rule behind every result about whole runs.
-/

/-- A run goes on with an event that meets the condition on it. -/
theorem Relation.ReflTransGen.step {σ ε : Type*} {ok : σ → ε → Prop} {trans : σ → ε → σ → Prop}
    {s₀ s s' : σ} (h : ReflTransGen (fun a b => ∃ ev, ok a ev ∧ trans a ev b) s₀ s) (ev : ε)
    (hok : ok s ev) (ht : trans s ev s') :
    ReflTransGen (fun a b => ∃ ev, ok a ev ∧ trans a ev b) s₀ s' :=
  h.tail ⟨ev, hok, ht⟩

namespace LogDb.Lib

variable {σ : Type*} {step : σ → σ → Prop} {P : σ → Prop} {s₀ s : σ}

/-- What holds at the start and is kept by every step from a state reached holds in all of them. -/
theorem invariant_of_reached (hr : Relation.ReflTransGen step s₀ s) (hit : P s₀)
    (hs : ∀ a b, Relation.ReflTransGen step s₀ a → P a → step a b → P b) : P s := by
  induction hr with
  | refl => exact hit
  | tail hh hl ih => exact hs _ _ hh ih hl

theorem invariant_of_steps (hr : Relation.ReflTransGen step s₀ s) (hit : P s₀)
    (hs : ∀ a b, P a → step a b → P b) : P s :=
  invariant_of_reached hr hit fun a b _ => hs a b

/-- The states of a run one by one, the first `n` steps of it. -/
def IsRun (step : σ → σ → Prop) (run : ℕ → σ) (n : ℕ) : Prop :=
  ∀ k < n, step (run k) (run (k + 1))

theorem IsRun.reaches {run : ℕ → σ} {n : ℕ} (hr : IsRun step run n) {k : ℕ} (hk : k ≤ n) :
    Relation.ReflTransGen step (run 0) (run k) := by
  induction k with
  | zero => exact .refl
  | succ k ih => exact (ih (Nat.le_of_succ_le hk)).tail (hr k hk)

theorem IsRun.snoc {run : ℕ → σ} {n : ℕ} {b : σ} (hr : IsRun step run n) (hs : step (run n) b) :
    ∃ run', (∀ k ≤ n, run' k = run k) ∧ run' (n + 1) = b ∧ IsRun step run' (n + 1) := by
  refine ⟨fun k => if k ≤ n then run k else b, ?_, ?_, ?_⟩
  · intro k hk
    exact if_pos hk
  · exact if_neg (Nat.not_succ_le_self n)
  · intro k hk
    rcases Nat.lt_or_eq_of_le (Nat.le_of_lt_succ hk) with hlt | rfl
    · simpa [Nat.le_of_lt hlt, Nat.succ_le_of_lt hlt] using hr k hlt
    · simpa [Nat.not_succ_le_self] using hs

theorem exists_isRun (hr : Relation.ReflTransGen (fun a b => step a b ∧ P b) s₀ s) (hit : P s₀) :
    ∃ run n, run 0 = s₀ ∧ run n = s ∧ IsRun step run n ∧ ∀ k ≤ n, P (run k) := by
  induction hr with
  | refl =>
    refine ⟨fun _ => s₀, 0, rfl, rfl, ?_, fun _ _ => hit⟩
    intro k hk
    exact absurd hk (Nat.not_lt_zero k)
  | tail _ hl ih =>
    obtain ⟨run, n, hf, he, hs, ha⟩ := ih
    obtain ⟨run', hm, he', hs'⟩ := hs.snoc (he ▸ hl.1)
    refine ⟨run', n + 1, (hm 0 (Nat.zero_le n)).trans hf, he', hs', ?_⟩
    intro k hk
    rcases Nat.lt_or_eq_of_le hk with hlt | rfl
    · have hn := Nat.le_of_lt_succ hlt
      rw [hm k hn]
      exact ha k hn
    · rw [he']
      exact hl.2

end LogDb.Lib
