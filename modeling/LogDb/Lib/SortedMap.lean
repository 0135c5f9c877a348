import Mathlib

/-!
Ordered maps as strictly ascending lists of entries.
-/

namespace LogDb.Lib

open List

theorem eq_of_ascending {α κ : Type*} [Preorder κ] {f : α → κ} {xs ys : List α}
    (hx : xs.Pairwise fun a b => f a < f b) (hy : ys.Pairwise fun a b => f a < f b)
    (hm : ∀ x, x ∈ xs ↔ x ∈ ys) : xs = ys := by
  have hn : ∀ {zs : List α}, zs.Pairwise (fun a b => f a < f b) → zs.Nodup :=
    fun hz => hz.imp fun hlt heq => absurd (congrArg f heq) hlt.ne
  exact List.Perm.eq_of_pairwise (fun a b _ _ ha hb => absurd ha hb.not_gt) hx hy
    ((perm_ext_iff_of_nodup (hn hx) (hn hy)).mpr hm)

/-- A map whose entries ascend by key. -/
structure SortedMap (κ β : Type*) [LT κ] where
  entries : List (κ × β)
  sorted : entries.Pairwise fun a b => a.1 < b.1

namespace SortedMap

variable {κ β : Type*} [LinearOrder κ]

/-- Put an entry in its place, or in the place of the one with its key. -/
def insertEntry (k : κ) (b : β) : List (κ × β) → List (κ × β)
  | [] => [(k, b)]
  | e :: es =>
    if k < e.1 then (k, b) :: e :: es
    else if k = e.1 then (k, b) :: es
    else e :: insertEntry k b es

variable {k : κ} {es : List (κ × β)} {b : β} {x : κ × β}

theorem mem_insertEntry (hs : es.Pairwise fun a b => a.1 < b.1) :
    x ∈ insertEntry k b es ↔ x = (k, b) ∨ x ∈ es ∧ x.1 ≠ k := by
  induction es with
  | nil => simp [insertEntry]
  | cons e es ih =>
    obtain ⟨hh, ht⟩ := pairwise_cons.mp hs
    unfold insertEntry
    split_ifs with hlt heq
    · have hne : ∀ y ∈ e :: es, y.1 ≠ k := by
        intro y hy
        rcases mem_cons.mp hy with rfl | hy
        · exact hlt.ne'
        · exact (hlt.trans (hh y hy)).ne'
      rw [mem_cons]
      exact or_congr_right ⟨fun hy => ⟨hy, hne x hy⟩, fun hy => hy.1⟩
    · have hne : ∀ y ∈ es, y.1 ≠ k := by
        intro y hy
        rw [heq]
        exact (hh y hy).ne'
      simp only [mem_cons]
      constructor
      · rintro (rfl | hy)
        · exact .inl rfl
        · exact .inr ⟨.inr hy, hne x hy⟩
      · rintro (rfl | ⟨rfl | hy, hx⟩)
        · exact .inl rfl
        · exact absurd heq.symm hx
        · exact .inr hy
    · rw [mem_cons, ih ht, mem_cons]
      constructor
      · rintro (rfl | rfl | ⟨hx, hne⟩)
        · exact .inr ⟨.inl rfl, Ne.symm heq⟩
        · exact .inl rfl
        · exact .inr ⟨.inr hx, hne⟩
      · rintro (rfl | ⟨rfl | hx, hne⟩)
        · exact .inr (.inl rfl)
        · exact .inl rfl
        · exact .inr (.inr ⟨hx, hne⟩)

theorem insertEntry_sorted (k : κ) (b : β) (hs : es.Pairwise fun a b => a.1 < b.1) :
    (insertEntry k b es).Pairwise fun a b => a.1 < b.1 := by
  induction es with
  | nil => simp [insertEntry]
  | cons e es ih =>
    obtain ⟨hh, ht⟩ := pairwise_cons.mp hs
    unfold insertEntry
    split_ifs with hlt heq
    · refine pairwise_cons.mpr ⟨?_, hs⟩
      intro y hy
      rcases mem_cons.mp hy with rfl | hy
      · exact hlt
      · exact hlt.trans (hh y hy)
    · refine pairwise_cons.mpr ⟨?_, ht⟩
      intro y hy
      rw [heq]
      exact hh y hy
    · refine pairwise_cons.mpr ⟨?_, ih ht⟩
      intro y hy
      rcases (mem_insertEntry ht).mp hy with rfl | ⟨hy, -⟩
      · exact lt_of_le_of_ne (not_lt.mp hlt) (Ne.symm heq)
      · exact hh y hy

theorem insertEntry_append (h : ∀ e ∈ es, e.1 < k) : insertEntry k b es = es ++ [(k, b)] := by
  induction es with
  | nil => rfl
  | cons e es ih =>
    have hlt := h e mem_cons_self
    rw [insertEntry, if_neg hlt.not_gt, if_neg hlt.ne', cons_append,
      ih fun e he => h e (mem_cons_of_mem _ he)]

instance : EmptyCollection (SortedMap κ β) where
  emptyCollection := ⟨[], List.Pairwise.nil⟩

@[simp] theorem entries_empty : (∅ : SortedMap κ β).entries = [] := rfl

@[ext] theorem ext {m m' : SortedMap κ β} (h : m.entries = m'.entries) : m = m' := by
  cases m
  cases m'
  cases h
  rfl

variable (m : SortedMap κ β)

def insert (k : κ) (b : β) : SortedMap κ β :=
  ⟨insertEntry k b m.entries, insertEntry_sorted k b m.sorted⟩

def lookup (k : κ) : Option β :=
  (m.entries.find? fun e => e.1 = k).map Prod.snd

def rangeFrom (k : κ) : List (κ × β) :=
  m.entries.filter fun e => k ≤ e.1

theorem mem_entries_insert : x ∈ (m.insert k b).entries ↔ x = (k, b) ∨ x ∈ m.entries ∧ x.1 ≠ k :=
  mem_insertEntry m.sorted

theorem find_eq_some_iff (hs : es.Pairwise fun a b => a.1 < b.1) :
    es.find? (fun e => e.1 = k) = some x ↔ x ∈ es ∧ x.1 = k := by
  induction es with
  | nil => simp
  | cons e es ih =>
    obtain ⟨hh, ht⟩ := pairwise_cons.mp hs
    by_cases he : e.1 = k
    · rw [find?_cons_of_pos (by simpa using he), Option.some.injEq, mem_cons]
      constructor
      · rintro rfl
        exact ⟨.inl rfl, he⟩
      · rintro ⟨rfl | hx, hk⟩
        · rfl
        · exact absurd (hk.trans he.symm) (hh x hx).ne'
    · rw [find?_cons_of_neg (by simpa using he), ih ht, mem_cons]
      constructor
      · exact fun ⟨hx, hk⟩ => ⟨.inr hx, hk⟩
      · rintro ⟨rfl | hx, hk⟩
        · exact absurd hk he
        · exact ⟨hx, hk⟩

theorem lookup_eq_some_iff : m.lookup k = some b ↔ (k, b) ∈ m.entries := by
  unfold lookup
  rw [Option.map_eq_some_iff]
  constructor
  · rintro ⟨⟨k', b'⟩, hf, rfl⟩
    obtain ⟨hm, rfl⟩ := (find_eq_some_iff m.sorted).mp hf
    exact hm
  · exact fun hm => ⟨(k, b), (find_eq_some_iff m.sorted).mpr ⟨hm, rfl⟩, rfl⟩

@[simp] theorem lookup_empty (k : κ) : (∅ : SortedMap κ β).lookup k = none := rfl

theorem lookup_insert (k k' : κ) (b : β) :
    (m.insert k b).lookup k' = if k' = k then some b else m.lookup k' := by
  refine Option.ext fun v => ?_
  rw [lookup_eq_some_iff, mem_entries_insert]
  split_ifs with hk
  · subst hk
    simp [eq_comm]
  · rw [lookup_eq_some_iff]
    simp [hk]

theorem entries_foldl_insert (hs : es.Pairwise fun a b => a.1 < b.1)
    (hb : ∀ e ∈ m.entries, ∀ e' ∈ es, e.1 < e'.1) :
    (es.foldl (fun m e => m.insert e.1 e.2) m).entries = m.entries ++ es := by
  induction es generalizing m with
  | nil => simp
  | cons e es ih =>
    obtain ⟨hh, ht⟩ := pairwise_cons.mp hs
    have hi : (m.insert e.1 e.2).entries = m.entries ++ [e] :=
      insertEntry_append fun x hx => hb x hx e mem_cons_self
    have hn : ∀ x ∈ (m.insert e.1 e.2).entries, ∀ y ∈ es, x.1 < y.1 := by
      intro x hx y hy
      rw [hi] at hx
      rcases mem_append.mp hx with hx | hx
      · exact hb x hx y (mem_cons_of_mem _ hy)
      · rw [mem_singleton.mp hx]
        exact hh y hy
    rw [foldl_cons, ih _ ht hn, hi, append_assoc, singleton_append]

theorem foldl_insert_entries : m.entries.foldl (fun m e => m.insert e.1 e.2) ∅ = m := by
  apply ext
  rw [entries_foldl_insert _ m.sorted (by simp), entries_empty, nil_append]

theorem mem_rangeFrom : x ∈ m.rangeFrom k ↔ x ∈ m.entries ∧ k ≤ x.1 := by
  simp [rangeFrom]

theorem rangeFrom_sorted (k : κ) : (m.rangeFrom k).Pairwise fun a b => a.1 < b.1 :=
  m.sorted.filter _

end SortedMap

end LogDb.Lib
