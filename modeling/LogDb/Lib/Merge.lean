import Mathlib

/-!
A k-way merge of streams. Each source has its next element peeked; a heap holds the keys of the
peeked elements, each with the number of its source.
-/

namespace LogDb.Lib

open List Option

variable {α : Type}

/-- A stream whose next element may have been taken out already. -/
structure Source (α : Type) where
  peeked : Option α
  rest : List α

namespace Source

def pending (s : Source α) : List α :=
  s.peeked.toList ++ s.rest

def refilled (s : Source α) : Source α :=
  ⟨s.rest.head?, s.rest.tail⟩

theorem pending_refilled (s : Source α) : s.refilled.pending = s.rest := by
  obtain ⟨peeked, rest⟩ := s
  cases rest <;> rfl

end Source

/-- The heap is kept as a list: of a binary heap only the entry that `pop` returns can be seen. -/
structure Merge (α : Type) where
  sources : List (Source α)
  heap : List (ℕ ×ₗ ℕ)

namespace Merge

variable (key : α → ℕ)

/-- Peek the next element of source `i` and push its key. -/
def refill (m : Merge α) (i : ℕ) : Merge α :=
  match m.sources[i]? with
  | none => m
  | some s =>
    { sources := m.sources.set i s.refilled
      heap := s.rest.head?.toList.map (fun x => toLex (key x, i)) ++ m.heap }

/-- Peek every stream once. -/
def new (streams : List (List α)) : Merge α :=
  (List.range streams.length).foldl (refill key) ⟨streams.map (⟨none, ·⟩), []⟩

/-- Pop the least entry, hand out the element peeked for it and refill its source. A popped entry
always has a peeked element. -/
def next (m : Merge α) : Option (α × Merge α) :=
  match m.heap.min? with
  | none => none
  | some entry =>
    let i := (ofLex entry).2
    match m.sources[i]? with
    | some ⟨some x, rest⟩ =>
      some (x, refill key ⟨m.sources.set i ⟨none, rest⟩, m.heap.erase entry⟩ i)
    | _ => none

def pending (m : Merge α) : List α :=
  m.sources.flatMap Source.pending

variable {m : Merge α} {x : α} {m' : Merge α} {front back ss : List (Source α)}

theorem refill_split {s : Source α} (hs : m.sources = front ++ s :: back) :
    m.refill key front.length =
      { sources := front ++ s.refilled :: back
        heap := s.rest.head?.toList.map (fun x => toLex (key x, front.length)) ++ m.heap } := by
  have hg : m.sources[front.length]? = some s := by
    rw [hs, getElem?_append_right le_rfl, Nat.sub_self, getElem?_cons_zero]
  unfold refill
  simp only [hg]
  rw [hs, set_append_right _ _ le_rfl, Nat.sub_self, set_cons_zero]

/-- What one call of `next` does, around the source it takes from. -/
theorem next_eq_some (h : m.next key = some (x, m')) :
    ∃ front rest back, m.sources = front ++ ⟨some x, rest⟩ :: back ∧
      (∃ entry, m.heap.min? = some entry ∧ (ofLex entry).2 = front.length ∧
        m' = refill key ⟨front ++ ⟨none, rest⟩ :: back, m.heap.erase entry⟩ front.length) := by
  unfold next at h
  cases hm : m.heap.min? with
  | none =>
    rw [hm] at h
    cases h
  | some entry =>
    rw [hm] at h
    simp only at h
    split at h
    · rename_i y rest hg
      cases h
      obtain ⟨hi, hg'⟩ := List.getElem?_eq_some_iff.mp hg
      have hl : (m.sources.take (ofLex entry).2).length = (ofLex entry).2 := length_take_of_le hi.le
      refine ⟨m.sources.take (ofLex entry).2, rest, m.sources.drop ((ofLex entry).2 + 1), ?_,
        entry, rfl, hl.symm, ?_⟩
      · rw [← hg', ← drop_eq_getElem_cons hi, take_append_drop]
      · rw [hl, set_eq_take_append_cons_drop, if_pos hi]
    · cases h

theorem pending_next (h : m.next key = some (x, m')) : m.pending.Perm (x :: m'.pending) := by
  obtain ⟨front, rest, back, hs, entry, -, -, rfl⟩ := next_eq_some key h
  rw [refill_split key rfl]
  unfold pending
  rw [hs]
  simp only [flatMap_append, flatMap_cons, Source.pending_refilled]
  exact perm_middle

/-- Everything that is handed out until the heap is empty. -/
def drain (m : Merge α) : List α :=
  match _hnext : m.next key with
  | none => []
  | some (x, m') => x :: drain m'
termination_by m.pending.length
decreasing_by
  rw [(pending_next key _hnext).length_eq, length_cons]
  exact Nat.lt_succ_self _

/-- The entries that belong into the heap when the sources are numbered from `i` on. -/
def heads : ℕ → List (Source α) → List (ℕ ×ₗ ℕ)
  | _, [] => []
  | i, s :: ss => s.peeked.toList.map (fun x => toLex (key x, i)) ++ heads (i + 1) ss

theorem heads_append (i : ℕ) (xs ys : List (Source α)) :
    heads key i (xs ++ ys) = heads key i xs ++ heads key (i + xs.length) ys := by
  induction xs generalizing i with
  | nil => rfl
  | cons x xs ih =>
    rw [cons_append, heads, heads, ih, append_assoc, length_cons, Nat.add_assoc i 1, Nat.add_comm 1]

theorem getElem?_of_mem_heads {i : ℕ} {e : ℕ ×ₗ ℕ} (h : e ∈ heads key i ss) :
    ∃ x rest, i ≤ (ofLex e).2 ∧ ss[(ofLex e).2 - i]? = some ⟨some x, rest⟩ ∧
      (ofLex e).1 = key x := by
  induction ss generalizing i with
  | nil => exact absurd h not_mem_nil
  | cons s ss ih =>
    rcases mem_append.mp h with hh | ht
    · obtain ⟨x, hx, rfl⟩ := mem_map.mp hh
      obtain ⟨peeked, rest⟩ := s
      cases mem_toList.mp hx
      refine ⟨x, rest, le_rfl, ?_, rfl⟩
      show (_ :: ss)[i - i]? = _
      rw [Nat.sub_self]
      rfl
    · obtain ⟨x, rest, hle, hg, hk⟩ := ih ht
      refine ⟨x, rest, by omega, ?_, hk⟩
      rw [show (ofLex e).2 - i = (ofLex e).2 - (i + 1) + 1 by omega, getElem?_cons_succ]
      exact hg

theorem exists_mem_heads {i : ℕ} {s : Source α} (hs : s ∈ ss) (hx : s.peeked = some x) :
    ∃ j, toLex (key x, j) ∈ heads key i ss := by
  induction ss generalizing i with
  | nil => exact absurd hs not_mem_nil
  | cons t ss ih =>
    rcases mem_cons.mp hs with rfl | hm
    · refine ⟨i, mem_append_left _ ?_⟩
      rw [hx]
      exact mem_singleton.mpr rfl
    · obtain ⟨j, hj⟩ := ih (i := i + 1) hm
      exact ⟨j, mem_append_right _ hj⟩

/-- The heap holds the keys of the peeked elements, and a source without one is at its end. -/
structure Primed (m : Merge α) : Prop where
  heap_perm : m.heap.Perm (heads key 0 m.sources)
  ended : ∀ s ∈ m.sources, s.peeked = none → s.rest = []

theorem refilled_ended (s : Source α) (h : s.refilled.peeked = none) : s.refilled.rest = [] := by
  obtain ⟨peeked, rest⟩ := s
  cases rest with
  | nil => rfl
  | cons x xs => cases h

theorem heap_refill {rest : List α} (hs : m.sources = front ++ ⟨none, rest⟩ :: back)
    (hh : m.heap.Perm (heads key 0 m.sources)) :
    (m.refill key front.length).heap.Perm
      (heads key 0 (front ++ Source.refilled ⟨none, rest⟩ :: back)) := by
  rw [refill_split key hs]
  rw [hs, heads_append, Nat.zero_add] at hh
  rw [heads_append, Nat.zero_add]
  refine (hh.append_left _).trans ?_
  rw [← append_assoc]
  refine (perm_append_comm.append_right _).trans ?_
  rw [append_assoc]
  rfl

theorem Primed.next (h : Primed key m) (hnx : m.next key = some (x, m')) :
    Primed key m' ∧ ∀ e ∈ m.heap, key x ≤ (ofLex e).1 := by
  obtain ⟨front, rest, back, hr, entry, hi, hx, rfl⟩ := next_eq_some key hnx
  obtain ⟨hm, hle⟩ := min?_eq_some_iff.mp hi
  obtain ⟨y, rest', -, hg, hk⟩ := getElem?_of_mem_heads key (h.heap_perm.mem_iff.mp hm)
  rw [hr, hx, Nat.sub_zero, getElem?_append_right le_rfl, Nat.sub_self, getElem?_cons_zero] at hg
  obtain ⟨rfl, rfl⟩ : x = y ∧ rest = rest' := by
    cases hg
    exact ⟨rfl, rfl⟩
  have ht : entry = toLex (key x, front.length) := by
    rw [← hk, ← hx]
    rfl
  have hhp : (m.heap.erase entry).Perm (heads key 0 (front ++ ⟨none, rest⟩ :: back)) := by
    have hp : m.heap.Perm (heads key 0 front ++ entry :: heads key (front.length + 1) back) := by
      have hh := h.heap_perm
      rw [hr, heads_append, heads, Nat.zero_add] at hh
      rw [ht]
      exact hh
    rw [heads_append, heads, Nat.zero_add]
    have hee := (hp.trans perm_middle).erase entry
    rwa [erase_cons_head] at hee
  refine ⟨⟨?_, ?_⟩, ?_⟩
  · have hp := heap_refill key (m := ⟨front ++ ⟨none, rest⟩ :: back, m.heap.erase entry⟩) rfl hhp
    rwa [refill_split key rfl] at hp ⊢
  · rw [refill_split key rfl]
    intro s hs hn
    rcases mem_append.mp hs with hf | hb
    · exact h.ended s (hr ▸ mem_append_left _ hf) hn
    · rcases mem_cons.mp hb with rfl | hm'
      · exact refilled_ended _ hn
      · exact h.ended s (hr ▸ mem_append_right _ (mem_cons_of_mem _ hm')) hn
  · intro e he
    rw [← hk]
    exact Prod.Lex.monotone_fst _ _ (hle e he)

theorem Primed.pending_eq_nil (h : Primed key m) (hn : m.next key = none) : m.pending = [] := by
  apply flatMap_eq_nil_iff.mpr
  intro s hs
  have hnn : s.peeked = none := by
    by_contra hne
    obtain ⟨x, hx⟩ := ne_none_iff_exists'.mp hne
    obtain ⟨j, hj⟩ := exists_mem_heads key (i := 0) hs hx
    have hh := h.heap_perm.mem_iff.mpr hj
    obtain ⟨entry, hm⟩ : ∃ entry, m.heap.min? = some entry := by
      apply ne_none_iff_exists'.mp
      intro he
      rw [min?_eq_none_iff.mp he] at hh
      exact absurd hh not_mem_nil
    obtain ⟨y, rest, -, hg, -⟩ :=
      getElem?_of_mem_heads key (h.heap_perm.mem_iff.mp (min?_eq_some_iff.mp hm).1)
    rw [Nat.sub_zero] at hg
    unfold Merge.next at hn
    simp only [hm, hg] at hn
    cases hn
  unfold Source.pending
  rw [hnn, h.ended s hs hnn]
  rfl

theorem drain_none (h : m.next key = none) : m.drain key = [] := by
  rw [drain]
  split
  · rfl
  · rename_i heq
    rw [h] at heq
    cases heq

theorem drain_some (h : m.next key = some (x, m')) : m.drain key = x :: m'.drain key := by
  rw [drain]
  split
  · rename_i heq
    rw [h] at heq
    cases heq
  · rename_i heq
    rw [h] at heq
    cases heq
    rfl

theorem drain_perm (h : Primed key m) : (m.drain key).Perm m.pending := by
  induction hn : m.pending.length using Nat.strongRecOn generalizing m with
  | ind n ih =>
    cases hx : m.next key with
    | none => rw [drain_none key hx, h.pending_eq_nil key hx]
    | some r =>
      obtain ⟨x, m'⟩ := r
      have hp := pending_next key hx
      have hl := hp.length_eq
      rw [length_cons] at hl
      rw [drain_some key hx]
      exact ((ih _ (by omega) (h.next key hx).1 rfl).cons x).trans hp.symm

theorem drain_sorted (h : Primed key m)
    (ho : ∀ s ∈ m.sources, s.pending.Pairwise fun a b => key a ≤ key b) :
    (m.drain key).Pairwise fun a b => key a ≤ key b := by
  induction hn : m.pending.length using Nat.strongRecOn generalizing m with
  | ind n ih =>
    cases hx : m.next key with
    | none =>
      rw [drain_none key hx]
      exact .nil
    | some r =>
      obtain ⟨x, m'⟩ := r
      obtain ⟨hd, hi⟩ := h.next key hx
      have hl := (pending_next key hx).length_eq
      rw [length_cons] at hl
      -- a peeked element is the least of its source, and `x` is the least of the peeked ones
      have hlt : ∀ y ∈ m.pending, key x ≤ key y := by
        intro y hy
        obtain ⟨s, hs, hys⟩ := mem_flatMap.mp hy
        have hp := ho s hs
        have he := h.ended s hs
        unfold Source.pending at hys hp
        cases hk : s.peeked with
        | none =>
          rw [hk, he hk] at hys
          exact absurd hys not_mem_nil
        | some z =>
          obtain ⟨j, hj⟩ := exists_mem_heads key (i := 0) hs hk
          have hz := hi _ (h.heap_perm.mem_iff.mpr hj)
          rw [hk] at hys hp
          rcases mem_cons.mp hys with rfl | ht
          · exact hz
          · exact hz.trans ((pairwise_cons.mp hp).1 y ht)
      have hs' : ∀ s ∈ m'.sources, s.pending.Pairwise fun a b => key a ≤ key b := by
        obtain ⟨front, rest, back, hr, entry, -, -, rfl⟩ := next_eq_some key hx
        rw [hr] at ho
        rw [refill_split key rfl]
        intro s hs
        rcases mem_append.mp hs with hf | hb
        · exact ho s (mem_append_left _ hf)
        · rcases mem_cons.mp hb with rfl | hm
          · rw [Source.pending_refilled]
            exact (pairwise_cons.mp (ho _ (mem_append_right _ mem_cons_self))).2
          · exact ho s (mem_append_right _ (mem_cons_of_mem _ hm))
      rw [drain_some key hx]
      refine pairwise_cons.mpr ⟨?_, ih _ (by omega) hd hs' rfl⟩
      intro y hy
      apply hlt
      rw [(pending_next key hx).mem_iff]
      exact mem_cons_of_mem x ((drain_perm key hd).mem_iff.mp hy)

section

variable (streams : List (List α))

private theorem foldl_refill {k : ℕ} (hk : k ≤ streams.length) :
    ((List.range k).foldl (refill key) ⟨streams.map (⟨none, ·⟩), []⟩).sources =
        (streams.take k).map (fun xs => Source.refilled ⟨none, xs⟩) ++
          (streams.drop k).map (⟨none, ·⟩) ∧
      ((List.range k).foldl (refill key) ⟨streams.map (⟨none, ·⟩), []⟩).heap.Perm (heads key 0
        ((streams.take k).map (fun xs => Source.refilled ⟨none, xs⟩) ++
          (streams.drop k).map (⟨none, ·⟩))) := by
  induction k with
  | zero =>
    refine ⟨rfl, ?_⟩
    rw [take_zero, drop_zero, map_nil, nil_append]
    have hn : ∀ i (xs : List (List α)), heads key i (xs.map (⟨none, ·⟩)) = [] := by
      intro i xs
      induction xs generalizing i with
      | nil => rfl
      | cons x xs ih => exact ih (i + 1)
    rw [hn]
    exact .refl _
  | succ k ih =>
    obtain ⟨hr, hh⟩ := ih (by omega)
    have hlt : k < streams.length := by omega
    have hl : ((streams.take k).map fun xs => Source.refilled ⟨none, xs⟩).length = k := by
      rw [length_map, length_take_of_le hlt.le]
    rw [drop_eq_getElem_cons hlt, map_cons] at hr hh
    rw [← hr] at hh
    have hp := heap_refill key hr hh
    rw [hl] at hp
    have hs := refill_split key hr
    rw [hl] at hs
    rw [range_succ, foldl_append, foldl_cons, foldl_nil,
      take_succ_eq_append_getElem hlt, map_append, map_singleton, append_assoc]
    exact ⟨congrArg Merge.sources hs, hp⟩

theorem new_sources :
    (new key streams).sources = streams.map fun xs => Source.refilled ⟨none, xs⟩ := by
  have h := (foldl_refill key streams le_rfl).1
  rwa [take_length, drop_length, map_nil, append_nil] at h

theorem primed_new : Primed key (new key streams) := by
  constructor
  · have h := (foldl_refill key streams le_rfl).2
    rw [take_length, drop_length, map_nil, append_nil] at h
    rw [new_sources]
    exact h
  · rw [new_sources]
    intro s hs hn
    obtain ⟨xs, -, rfl⟩ := mem_map.mp hs
    exact refilled_ended _ hn

theorem drain_new (ho : ∀ xs ∈ streams, xs.Pairwise fun a b => key a ≤ key b) :
    ((new key streams).drain key).Perm streams.flatten ∧
      ((new key streams).drain key).Pairwise fun a b => key a ≤ key b := by
  have hp := primed_new key streams
  constructor
  · have hm := drain_perm key hp
    unfold pending at hm
    rw [new_sources, flatMap_map] at hm
    simp only [Source.pending_refilled, flatMap_id'] at hm
    exact hm
  · apply drain_sorted key hp
    rw [new_sources]
    intro s hs
    obtain ⟨xs, hx, rfl⟩ := mem_map.mp hs
    rw [Source.pending_refilled]
    exact ho xs hx

end

end Merge

end LogDb.Lib
