import LogDb.Lib.Slice

/-!
The directory of one shard: segment files in ascending order of their ids, each with an optional
index file beside it.
-/

namespace LogDb.Storage

open Lib List Function

structure Disk where
  segments : List (ℕ × Bytes)
  sorted : segments.Pairwise fun a b => a.1 < b.1
  indexes : ℕ → Option Bytes

namespace Disk

def empty : Disk :=
  ⟨[], .nil, fun _ => none⟩

def get (d : Disk) (id : ℕ) : Option Bytes :=
  (d.segments.find? fun f => f.1 == id).map Prod.snd

/-- Put a new file at its place among the others. -/
def insertSorted (id : ℕ) (data : Bytes) : List (ℕ × Bytes) → List (ℕ × Bytes)
  | [] => [(id, data)]
  | f :: fs => if f.1 < id then f :: insertSorted id data fs else (id, data) :: f :: fs

variable {id : ℕ} {d : Disk} {data : Bytes} {fs : List (ℕ × Bytes)} {d' : Disk} {f : ℕ × Bytes}

theorem mem_insertSorted (h : f ∈ insertSorted id data fs) : f = (id, data) ∨ f ∈ fs := by
  induction fs with
  | nil => exact .inl (mem_singleton.mp h)
  | cons g fs ih =>
    unfold insertSorted at h
    split_ifs at h with hlt
    · rcases mem_cons.mp h with rfl | hm
      · exact .inr mem_cons_self
      · exact (ih hm).imp_right (mem_cons_of_mem g)
    · exact mem_cons.mp h

theorem insertSorted_sorted (hs : fs.Pairwise fun a b => a.1 < b.1) (hn : ∀ f ∈ fs, f.1 ≠ id) :
    (insertSorted id data fs).Pairwise fun a b => a.1 < b.1 := by
  induction fs with
  | nil => exact pairwise_singleton _ _
  | cons g fs ih =>
    obtain ⟨hg, hfs⟩ := pairwise_cons.mp hs
    have hne := hn g mem_cons_self
    unfold insertSorted
    split_ifs with hlt
    · refine pairwise_cons.mpr ⟨fun f hf => ?_, ih hfs fun f hf => hn f (mem_cons_of_mem g hf)⟩
      rcases mem_insertSorted hf with rfl | hm
      · exact hlt
      · exact hg f hm
    · have hid : id < g.1 := by omega
      refine pairwise_cons.mpr ⟨fun f hf => ?_, hs⟩
      rcases mem_cons.mp hf with rfl | hm
      · exact hid
      · exact hid.trans (hg f hm)

section

variable (d : Disk)

/-- Create a file that must not exist yet. -/
def create (id : ℕ) (data : Bytes) : Option Disk :=
  if hnew : ∀ f ∈ d.segments, f.1 ≠ id then
    some { d with
      segments := insertSorted id data d.segments
      sorted := insertSorted_sorted d.sorted hnew }
  else none

def modify (id : ℕ) (change : Bytes → Bytes) : Disk :=
  { d with
    segments := d.segments.map fun f => if f.1 = id then (f.1, change f.2) else f
    sorted := by
      refine pairwise_map.mpr (d.sorted.imp fun {a b} hab => ?_)
      split_ifs <;> exact hab }

def remove (id : ℕ) : Disk :=
  { d with
    segments := d.segments.filter fun f => f.1 ≠ id
    sorted := d.sorted.filter _ }

def pwrite (id offset : ℕ) (data : Bytes) : Disk :=
  d.modify id (writeAt offset data)

def writeIndex (id : ℕ) (data : Bytes) : Disk :=
  { d with indexes := fun i => if i = id then some data else d.indexes i }

theorem writeIndex_self (id : ℕ) (data : Bytes) : (d.writeIndex id data).indexes id = some data :=
  if_pos rfl

end

theorem insertSorted_of_above (data : Bytes) (ha : ∀ f ∈ fs, f.1 < id) :
    insertSorted id data fs = fs ++ [(id, data)] := by
  induction fs with
  | nil => rfl
  | cons f fs ih =>
    unfold insertSorted
    rw [if_pos (ha f mem_cons_self), ih fun g hg => ha g (mem_cons_of_mem f hg), cons_append]

theorem create_of_above (data : Bytes) (ha : ∀ f ∈ d.segments, f.1 < id) :
    ∃ d', d.create id data = some d' ∧ d'.segments = d.segments ++ [(id, data)] ∧
      d'.indexes = d.indexes := by
  have hn : ∀ f ∈ d.segments, f.1 ≠ id := fun f hf => (ha f hf).ne
  unfold create
  rw [dif_pos hn]
  exact ⟨_, rfl, insertSorted_of_above data ha, rfl⟩

section

variable {d : Disk} {front back : List (ℕ × Bytes)} {id : ℕ} {data : Bytes}
  (hp : d.segments = front ++ (id, data) :: back)

include hp

private theorem ne_of_split : (∀ f ∈ front, f.1 ≠ id) ∧ ∀ f ∈ back, f.1 ≠ id := by
  have hs := d.sorted
  rw [hp] at hs
  obtain ⟨-, hm, hc⟩ := pairwise_append.mp hs
  constructor
  · intro f hf
    exact (hc f hf (id, data) mem_cons_self).ne
  · intro f hf
    exact (rel_of_pairwise_cons hm hf).ne'

theorem modify_of_split (change : Bytes → Bytes) :
    (d.modify id change).segments = front ++ (id, change data) :: back := by
  obtain ⟨hr, hb⟩ := ne_of_split hp
  have hk : ∀ fs : List (ℕ × Bytes), (∀ f ∈ fs, f.1 ≠ id) →
      fs.map (fun f => if f.1 = id then (f.1, change f.2) else f) = fs := by
    intro fs hs
    rw [map_congr_left fun f hf => if_neg (hs f hf), map_id']
  unfold modify
  simp only [hp, map_append, map_cons, if_true]
  rw [hk front hr, hk back hb]

theorem get_of_split : d.get id = some data := by
  obtain ⟨hr, -⟩ := ne_of_split hp
  have hn : front.find? (fun f => f.1 == id) = none := by
    apply find?_eq_none.mpr
    intro f hf
    simpa using hr f hf
  unfold get
  rw [hp, find?_append, hn, Option.none_or, find?_cons_of_pos (by simp)]
  rfl

end

theorem eq_of_segments (hs : d.segments = d'.segments) (hx : d.indexes = d'.indexes) : d = d' := by
  cases d
  cases d'
  cases hs
  cases hx
  rfl

theorem get_congr (h : d'.segments = d.segments) : d'.get = d.get := by
  funext id
  unfold get
  rw [h]

theorem exists_split_of_get (h : d.get id = some data) :
    ∃ front back, d.segments = front ++ (id, data) :: back := by
  obtain ⟨f, hf, rfl⟩ := Option.map_eq_some_iff.mp h
  obtain ⟨hid, front, back, hp, -⟩ := find?_eq_some_iff_append.mp hf
  refine ⟨front, back, hp.trans ?_⟩
  rw [← eq_of_beq hid]

theorem get_of_mem (h : f ∈ d.segments) : d.get f.1 = some f.2 := by
  obtain ⟨front, back, hp⟩ := append_of_mem h
  exact get_of_split hp

section

variable (h : d.get id = some data)
include h

theorem mem_of_get : (id, data) ∈ d.segments := by
  obtain ⟨front, back, hp⟩ := exists_split_of_get h
  rw [hp]
  exact mem_append_right _ mem_cons_self

theorem modify_self : d.modify id (fun _ => data) = d := by
  obtain ⟨front, back, hp⟩ := exists_split_of_get h
  apply eq_of_segments
  · rw [modify_of_split hp, hp]
  · rfl

theorem get_modify (change : Bytes → Bytes) : (d.modify id change).get id = some (change data) := by
  obtain ⟨front, back, hp⟩ := exists_split_of_get h
  exact get_of_split (modify_of_split hp change)

end

theorem get_modify_ne (d : Disk) {id' : ℕ} (hne : id' ≠ id) (change : Bytes → Bytes) :
    (d.modify id change).get id' = d.get id' := by
  unfold get modify
  simp only
  induction d.segments with
  | nil => rfl
  | cons f fs ih =>
    rw [map_cons, find?_cons, find?_cons]
    by_cases hf : f.1 = id
    · have hf' : (f.1 == id') = false := by
        rw [hf]
        exact beq_false_of_ne (Ne.symm hne)
      simp only [if_pos hf, hf']
      exact ih
    · simp only [if_neg hf]
      cases f.1 == id' with
      | true => rfl
      | false => exact ih

theorem modify_id (d : Disk) (id : ℕ) : d.modify id (fun data => data) = d := by
  apply eq_of_segments
  · unfold modify
    simp only [Prod.mk.eta, ite_self, map_id']
  · rfl

theorem modify_modify (d : Disk) (id : ℕ) (first second : Bytes → Bytes) :
    (d.modify id first).modify id second = d.modify id (second ∘ first) := by
  apply eq_of_segments
  · unfold modify
    simp only [map_map]
    apply map_congr_left
    intro f _
    by_cases hf : f.1 = id <;> simp [hf]
  · rfl

theorem get_eq_none_iff : d.get id = none ↔ ∀ f ∈ d.segments, f.1 ≠ id := by
  unfold get
  simp only [Option.map_eq_none_iff, find?_eq_none, beq_iff_eq]

private theorem find_insertSorted (data : Bytes) (hn : ∀ f ∈ fs, f.1 ≠ id) (g : ℕ) :
    (insertSorted id data fs).find? (fun f => f.1 == g) =
      if g = id then some (id, data) else fs.find? fun f => f.1 == g := by
  induction fs with
  | nil =>
    by_cases hg : g = id
    · simp [insertSorted, hg]
    · simp [insertSorted, hg, Ne.symm hg]
  | cons f fs ih =>
    have hne := hn f mem_cons_self
    have hr := ih fun f' hf' => hn f' (mem_cons_of_mem f hf')
    unfold insertSorted
    by_cases hg : g = id
    · subst hg
      rw [if_pos rfl] at hr ⊢
      split_ifs
      · rw [find?_cons_of_neg (by simpa using hne), hr]
      · rw [find?_cons_of_pos (by simp)]
    · have he : ¬ id = g := Ne.symm hg
      rw [if_neg hg] at hr ⊢
      split_ifs
      · rw [find?_cons, find?_cons, hr]
      · rw [find?_cons_of_neg (by simpa using he)]

theorem get_create (h : d.create id data = some d') (g : ℕ) :
    d'.get g = if g = id then some data else d.get g := by
  unfold create at h
  split_ifs at h with hn
  cases h
  unfold get
  simp only [find_insertSorted data hn]
  split_ifs <;> rfl

theorem create_of_get (data : Bytes) (h : d.get id = none) : ∃ d', d.create id data = some d' := by
  unfold create
  rw [dif_pos (get_eq_none_iff.mp h)]
  exact ⟨_, rfl⟩

section

variable (d : Disk) (id : ℕ) (change : Bytes → Bytes)

theorem get_modify_eq : (d.modify id change).get = update d.get id ((d.get id).map change) := by
  funext g
  by_cases hg : g = id
  · subst hg
    rw [update_self]
    cases he : d.get g with
    | none =>
      apply get_eq_none_iff.mpr
      intro f hf
      obtain ⟨f', hf', rfl⟩ := mem_map.mp hf
      have hne := get_eq_none_iff.mp he f' hf'
      rwa [if_neg hne]
    | some data => exact get_modify he change
  · rw [update_of_ne hg, get_modify_ne d hg]

theorem isSome_get_modify (g : ℕ) : ((d.modify id change).get g).isSome = (d.get g).isSome := by
  rw [get_modify_eq]
  by_cases hg : g = id
  · subst hg
    rw [update_self, Option.isSome_map]
  · rw [update_of_ne hg]

end

theorem get_create_eq (h : d.create id data = some d') : d'.get = update d.get id (some data) := by
  funext g
  rw [get_create h, update_apply]

end Disk

end LogDb.Storage
