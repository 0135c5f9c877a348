import Mathlib

/-!
Loops over the keys of a map that rewrite the value of each key in turn. Such a loop with an
accumulator is, on the list of the values, one pass from left to right.
-/

namespace LogDb.Lib

open List Option AList

variable {α β σ : Type*}

/-- Rewrite each element with its index, threading an accumulator. -/
@[simp] def sweep (f : ℕ → β → σ → β × σ) : ℕ → List β → σ → List β × σ
  | _, [], acc => ([], acc)
  | i, b :: bs, acc =>
    let r := f i b acc
    let rest := sweep f (i + 1) bs r.2
    (r.1 :: rest.1, rest.2)

theorem length_sweep (f : ℕ → β → σ → β × σ) (i : ℕ) (bs : List β) (acc : σ) :
    (sweep f i bs acc).1.length = bs.length := by
  induction bs generalizing i acc with
  | nil => rfl
  | cons b bs ih => simp [ih]

/-- A pass that only moves elements between the lists and the pool keeps them all. -/
theorem sweep_perm {f : ℕ → List β → List β → List β × List β} {bs : List (List β)}
    (hf : ∀ i, ∀ b ∈ bs, ∀ acc, ((f i b acc).1 ++ (f i b acc).2).Perm (b ++ acc)) (i : ℕ)
    (acc : List β) :
    ((sweep f i bs acc).1.flatten ++ (sweep f i bs acc).2).Perm (bs.flatten ++ acc) := by
  induction bs generalizing i acc with
  | nil => exact .refl _
  | cons b bs ih =>
    have hb := hf i b mem_cons_self acc
    have hr := ih (fun i b' hb' => hf i b' (mem_cons_of_mem b hb')) (i + 1) (f i b acc).2
    simp only [sweep, flatten_cons, append_assoc]
    calc (f i b acc).1 ++ ((sweep f (i + 1) bs (f i b acc).2).1.flatten ++
          (sweep f (i + 1) bs (f i b acc).2).2)
        |>.Perm ((f i b acc).1 ++ (bs.flatten ++ (f i b acc).2)) := hr.append_left _
      _ |>.Perm ((f i b acc).1 ++ ((f i b acc).2 ++ bs.flatten)) :=
        perm_append_comm.append_left _
      _ |>.Perm (((f i b acc).1 ++ (f i b acc).2) ++ bs.flatten) := by rw [append_assoc]
      _ |>.Perm ((b ++ acc) ++ bs.flatten) := hb.append_right _
      _ |>.Perm (b ++ (bs.flatten ++ acc)) := by
        rw [append_assoc]
        exact perm_append_comm.append_left _

theorem sweep_getElem? {f : ℕ → β → σ → β × σ} {R : ℕ → β → β → Prop} {bs : List β}
    (hf : ∀ i, ∀ b ∈ bs, ∀ acc, R i b (f i b acc).1) (i : ℕ) (acc : σ) {k : ℕ} {b : β}
    (hb : bs[k]? = some b) : ∃ b', (sweep f i bs acc).1[k]? = some b' ∧ R (i + k) b b' := by
  induction bs generalizing i acc k with
  | nil => simp at hb
  | cons a bs ih =>
    cases k with
    | zero =>
      obtain rfl : a = b := by simpa using hb
      exact ⟨_, rfl, hf i a mem_cons_self acc⟩
    | succ k =>
      have hb' : bs[k]? = some b := by simpa using hb
      obtain ⟨b', hg, hr⟩ :=
        ih (fun i b' hb' => hf i b' (mem_cons_of_mem a hb')) (i + 1) (f i a acc).2 hb'
      refine ⟨b', by simpa using hg, ?_⟩
      rwa [show i + (k + 1) = i + 1 + k by omega]

section Maps

variable [DecidableEq α]

/-- The values of the keys in their order; a missing key has the default value. -/
def valuesAt (default : β) (keys : List α) (m : AList fun _ : α => β) : List β :=
  keys.map fun k => (m.lookup k).getD default

/-- The loop that rewrites the value of each key from the value it has. -/
theorem lookup_foldl_insert (g : α → Option β → β) {keys : List α} (hk : keys.Nodup)
    (m : AList fun _ : α => β) (k : α) :
    (keys.foldl (fun m k => m.insert k (g k (m.lookup k))) m).lookup k =
      if k ∈ keys then some (g k (m.lookup k)) else m.lookup k := by
  induction keys generalizing m with
  | nil => simp
  | cons a keys ih =>
    obtain ⟨ha, hk⟩ := nodup_cons.mp hk
    rw [foldl_cons, ih hk]
    by_cases hka : k = a
    · subst hka
      simp [ha]
    · simp [hka, lookup_insert_ne hka]

section

variable (default : β) (f : ℕ → β → σ → β × σ)

/-- One turn of a loop over the enumerated keys with an accumulator. -/
def keyedStep (acc : (AList fun _ : α => β) × σ)
    (key : α × ℕ) : (AList fun _ : α => β) × σ :=
  let r := f key.2 ((acc.1.lookup key.1).getD default) acc.2
  (acc.1.insert key.1 r.1, r.2)

theorem foldl_keyedStep {keys : List α}
    (hs : keys.Nodup) (i : ℕ) (m : AList fun _ : α => β) (acc : σ) :
    (valuesAt default keys ((keys.zipIdx i).foldl (keyedStep default f) (m, acc)).1,
        ((keys.zipIdx i).foldl (keyedStep default f) (m, acc)).2) =
      sweep f i (valuesAt default keys m) acc ∧
    ∀ k, ((keys.zipIdx i).foldl (keyedStep default f) (m, acc)).1.lookup k = if k ∈ keys then
        some ((((keys.zipIdx i).foldl (keyedStep default f) (m, acc)).1.lookup k).getD default)
      else m.lookup k := by
  induction keys generalizing i m acc with
  | nil => simp [valuesAt]
  | cons a keys ih =>
    obtain ⟨ha, hs⟩ := nodup_cons.mp hs
    set r := f i ((m.lookup a).getD default) acc with hr
    have hp : ((a :: keys).zipIdx i).foldl (keyedStep default f) (m, acc) =
        (keys.zipIdx (i + 1)).foldl (keyedStep default f) (m.insert a r.1, r.2) := rfl
    obtain ⟨hv, hl⟩ := ih hs (i + 1) (m.insert a r.1) r.2
    have ht : valuesAt default keys (m.insert a r.1) = valuesAt default keys m := by
      refine map_congr_left fun k hk => ?_
      have hne : k ≠ a := fun h => ha (h ▸ hk)
      rw [lookup_insert_ne hne]
    have hh := hl a
    rw [if_neg ha, lookup_insert] at hh
    rw [hp]
    rw [ht] at hv
    constructor
    · rw [Prod.ext_iff] at hv ⊢
      obtain ⟨hf, hd⟩ := hv
      refine ⟨?_, hd⟩
      simp only [valuesAt, map_cons, hh, getD_some, sweep] at hf ⊢
      rw [← hr, ← hf]
    · intro k
      by_cases hka : k = a
      · subst hka
        rw [if_pos mem_cons_self, hh, getD_some]
      · have hk := hl k
        rw [lookup_insert_ne hka] at hk
        simpa [hka] using hk

end

end Maps

end LogDb.Lib
