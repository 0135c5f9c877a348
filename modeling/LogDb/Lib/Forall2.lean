import Mathlib

/-!
Lists that are related element by element.
-/

namespace LogDb.Lib

open List

variable {α β γ : Type} {R : α → β → Prop}
  {xs : List α} {ys : List β} {ε : Type} {f : α → Except ε β}

theorem forall₂_append_inv {ys : List α} {zs : List β} (h : List.Forall₂ R (xs ++ ys) zs) :
    ∃ us vs, zs = us ++ vs ∧ List.Forall₂ R xs us ∧ List.Forall₂ R ys vs := by
  induction xs generalizing zs with
  | nil => exact ⟨[], zs, rfl, .nil, h⟩
  | cons x xs ih =>
    obtain ⟨z, zs, hz, hs, rfl⟩ := forall₂_cons_left_iff.mp h
    obtain ⟨us, vs, rfl, hu, hv⟩ := ih hs
    exact ⟨z :: us, vs, rfl, .cons hz hu, hv⟩

theorem forall₂_split_right {zs : List β} {y : β} (h : List.Forall₂ R xs (ys ++ y :: zs)) :
    ∃ us x vs, xs = us ++ x :: vs ∧ List.Forall₂ R us ys ∧ R x y ∧ List.Forall₂ R vs zs := by
  have hf := forall₂_take_append xs ys (y :: zs) h
  have hb := forall₂_drop_append xs ys (y :: zs) h
  obtain ⟨x, vs, hx, hv, hd⟩ := forall₂_cons_right_iff.mp hb
  refine ⟨xs.take ys.length, x, vs, ?_, hf, hx, hv⟩
  rw [← hd, take_append_drop]

theorem mapM_eq_ok_iff : xs.mapM f = .ok ys ↔ List.Forall₂ (fun x y => f x = .ok y) xs ys := by
  induction xs generalizing ys with
  | nil => simp [pure, Except.pure, eq_comm]
  | cons x xs ih =>
    rw [mapM_cons, forall₂_cons_left_iff]
    cases hx : f x with
    | error e => simp [bind, Except.bind]
    | ok y =>
      cases hs : xs.mapM f with
      | error e =>
        have hn : ∀ zs, ¬ List.Forall₂ (fun x y => f x = .ok y) xs zs := by
          intro zs hz
          rw [← ih, hs] at hz
          cases hz
        simp [bind, Except.bind, hn]
      | ok zs =>
        simp [bind, Except.bind, pure, Except.pure, ← ih, hs, eq_comm]

theorem forM_eq_ok_iff {f : α → Except ε Unit} : xs.forM f = .ok () ↔ ∀ x ∈ xs, f x = .ok () := by
  induction xs with
  | nil => simp [pure, Except.pure, List.forM]
  | cons x xs ih =>
    rw [forall_mem_cons, ← ih]
    cases hx : f x with
    | error e => simp [List.forM, hx, bind, Except.bind]
    | ok _ => simp [List.forM, hx, bind, Except.bind]

theorem exists_mapM_eq_ok (h : ∀ x ∈ xs, ∃ y, f x = .ok y) : ∃ ys, xs.mapM f = .ok ys := by
  induction xs with
  | nil => exact ⟨[], rfl⟩
  | cons x xs ih =>
    obtain ⟨y, hy⟩ := h x mem_cons_self
    obtain ⟨ys, hs⟩ := ih fun x hx => h x (mem_cons_of_mem _ hx)
    exact ⟨y :: ys, mapM_eq_ok_iff.mpr (.cons hy (mapM_eq_ok_iff.mp hs))⟩

theorem map_filter_of_mapM {p : α → Bool} {q : β → Bool} (h : xs.mapM f = .ok ys)
    (hq : ∀ x ∈ xs, ∀ y, f x = .ok y → p x = q y) :
    (xs.filter p).map f = (ys.filter q).map .ok := by
  have hf := mapM_eq_ok_iff.mp h
  clear h
  induction hf with
  | nil => rfl
  | @cons x y xs ys hy _ ih =>
    have hh := hq x mem_cons_self y hy
    have ht := ih fun x hx => hq x (mem_cons_of_mem _ hx)
    cases hp : p x with
    | true =>
      rw [filter_cons_of_pos hp, filter_cons_of_pos (hh ▸ hp), map_cons, map_cons, hy, ht]
    | false =>
      rw [filter_cons_of_neg (by simp [hp]), filter_cons_of_neg (by simp [← hh, hp]), ht]

section

variable (h : List.Forall₂ R xs ys)
include h

theorem exists_of_forall₂ {y : β} (hy : y ∈ ys) : ∃ x ∈ xs, R x y := by
  induction h with
  | nil => exact absurd hy not_mem_nil
  | cons hxy _ ih =>
    rcases mem_cons.mp hy with rfl | hm
    · exact ⟨_, mem_cons_self, hxy⟩
    · obtain ⟨x, hx, hR⟩ := ih hm
      exact ⟨x, mem_cons_of_mem _ hx, hR⟩

theorem pairwise_of_forall₂ {P : α → α → Prop} {Q : β → β → Prop} (hs : xs.Pairwise P)
    (hp : ∀ x x' y y', R x y → R x' y' → P x x' → Q y y') : ys.Pairwise Q := by
  induction h with
  | nil => exact .nil
  | @cons x y xs ys hxy hrt ih =>
    obtain ⟨hx, hs⟩ := pairwise_cons.mp hs
    refine pairwise_cons.mpr ⟨fun y' hy' => ?_, ih hs⟩
    obtain ⟨x', hx', hxy'⟩ := exists_of_forall₂ hrt hy'
    exact hp x x' y y' hxy hxy' (hx x' hx')

theorem flatMap_eq_of_forall₂ {f : α → List γ} {g : β → List γ}
    (hf : ∀ x ∈ xs, ∀ y, R x y → g y = f x) : ys.flatMap g = xs.flatMap f := by
  induction h with
  | nil => rfl
  | cons hy _ ih =>
    rw [flatMap_cons, flatMap_cons, hf _ mem_cons_self _ hy,
      ih fun x hx => hf x (mem_cons_of_mem _ hx)]

end

end LogDb.Lib
