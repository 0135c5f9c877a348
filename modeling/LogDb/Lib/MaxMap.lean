import Mathlib

/-!
Maps that keep the greatest value recorded for each key. What such a map holds depends on the
greatest records alone, not on their order or on the others.

Maps that are built by one insertion after the other from a list of entries.
-/

namespace LogDb.Lib

open List AList

abbrev MaxMap (κ : Type*) := AList fun _ : κ => ℕ

namespace MaxMap

variable {κ : Type*} {ps qs rs : List (κ × ℕ)} {k : κ} {v : ℕ}

/-- For every record of `ps` there is one of the same key in `qs` that is not less. -/
def Covers (qs ps : List (κ × ℕ)) : Prop :=
  ∀ p ∈ ps, ∃ q ∈ qs, q.1 = p.1 ∧ p.2 ≤ q.2

namespace Covers

theorem of_subset (h : ps ⊆ qs) : Covers qs ps :=
  fun p hp => ⟨p, h hp, rfl, le_rfl⟩

theorem trans (h : Covers rs qs) (h' : Covers qs ps) : Covers rs ps := by
  intro p hp
  obtain ⟨q, hq, hk, hle⟩ := h' p hp
  obtain ⟨r, hr, hk', hle'⟩ := h q hq
  exact ⟨r, hr, hk'.trans hk, le_trans hle hle'⟩

theorem append (h : Covers rs ps) (h' : Covers rs qs) : Covers rs (ps ++ qs) := by
  intro p hp
  rcases mem_append.mp hp with hp | hp
  · exact h p hp
  · exact h' p hp

theorem mono (h : Covers qs ps) (hs : qs ⊆ rs) : Covers rs ps :=
  (of_subset hs).trans h

end Covers

variable [DecidableEq κ]

def record (m : MaxMap κ) (p : κ × ℕ) : MaxMap κ :=
  match m.lookup p.1 with
  | some w => m.insert p.1 (max w p.2)
  | none => m.insert p.1 p.2

def recordAll (m : MaxMap κ) (ps : List (κ × ℕ)) : MaxMap κ :=
  ps.foldl record m

def pairs (m : MaxMap κ) : List (κ × ℕ) :=
  m.entries.map fun e => (e.1, e.2)

def valuesOf (ps : List (κ × ℕ)) (k : κ) : List ℕ :=
  (ps.filter fun p => p.1 = k).map Prod.snd

def maxOf (ps : List (κ × ℕ)) (k : κ) : Option ℕ :=
  (valuesOf ps k).max?

theorem mem_valuesOf : v ∈ valuesOf ps k ↔ (k, v) ∈ ps := by
  simp [valuesOf]

theorem maxOf_eq_none_iff : maxOf ps k = none ↔ ∀ v, (k, v) ∉ ps := by
  rw [maxOf, max?_eq_none_iff, eq_nil_iff_forall_not_mem]
  simp only [mem_valuesOf]

theorem maxOf_eq_some_iff : maxOf ps k = some v ↔ (k, v) ∈ ps ∧ ∀ w, (k, w) ∈ ps → w ≤ v := by
  rw [maxOf, max?_eq_some_iff]
  simp only [mem_valuesOf]

theorem mem_pairs {m : MaxMap κ} : (k, v) ∈ m.pairs ↔ m.lookup k = some v := by
  rw [← Option.mem_def, mem_lookup_iff, pairs, mem_map]
  constructor
  · rintro ⟨⟨k', v'⟩, hm, heq⟩
    cases heq
    exact hm
  · intro hm
    exact ⟨⟨k, v⟩, hm, rfl⟩

theorem lookup_record (m : MaxMap κ) (p : κ × ℕ) (k : κ) : (m.record p).lookup k =
      if p.1 = k then some (((m.lookup k).map (max · p.2)).getD p.2) else m.lookup k := by
  unfold record
  split_ifs with hk
  · subst hk
    cases m.lookup p.1 <;> simp
  · cases m.lookup p.1 <;> exact lookup_insert_ne (Ne.symm hk)

/-- The induction is on the records; the old value of the key stands in front of them. -/
theorem lookup_recordAll (m : MaxMap κ) (ps : List (κ × ℕ)) (k : κ) :
    (m.recordAll ps).lookup k = ((m.lookup k).toList ++ valuesOf ps k).max? := by
  induction ps generalizing m with
  | nil =>
    rw [recordAll, foldl_nil]
    cases m.lookup k <;> rfl
  | cons p ps ih =>
    rw [recordAll, foldl_cons, ← recordAll, ih, lookup_record]
    by_cases hk : p.1 = k
    · have hv : valuesOf (p :: ps) k = p.2 :: valuesOf ps k := by simp [valuesOf, hk]
      rw [if_pos hk, hv]
      cases m.lookup k <;> rfl
    · have hv : valuesOf (p :: ps) k = valuesOf ps k := by simp [valuesOf, hk]
      rw [if_neg hk, hv]

theorem lookup_recordAll_empty (ps : List (κ × ℕ)) (k : κ) :
    (recordAll ∅ ps).lookup k = maxOf ps k := by
  rw [lookup_recordAll, lookup_empty]
  rfl

theorem Covers.maxOf_eq (h : Covers qs ps) (h' : Covers ps qs) (k : κ) : maxOf qs k = maxOf ps k := by
  cases hx : maxOf ps k with
  | none =>
    rw [maxOf_eq_none_iff] at hx ⊢
    intro v hv
    obtain ⟨⟨k', w⟩, hp, hk, -⟩ := h' _ hv
    cases hk
    exact hx w hp
  | some v =>
    obtain ⟨hv, hle⟩ := maxOf_eq_some_iff.mp hx
    have hb : ∀ w, (k, w) ∈ qs → w ≤ v := by
      intro w hw
      obtain ⟨⟨k', u⟩, hp, hk, hu⟩ := h' _ hw
      cases hk
      exact le_trans hu (hle u hp)
    obtain ⟨⟨k', w⟩, hq, hk, hvw⟩ := h _ hv
    cases hk
    obtain rfl : w = v := le_antisymm (hb w hq) hvw
    exact maxOf_eq_some_iff.mpr ⟨hq, hb⟩

theorem pairs_subset (ps : List (κ × ℕ)) : (recordAll ∅ ps).pairs ⊆ ps := by
  rintro ⟨k, v⟩ hm
  rw [mem_pairs, lookup_recordAll_empty] at hm
  exact (maxOf_eq_some_iff.mp hm).1

theorem covers_pairs (ps : List (κ × ℕ)) : Covers (recordAll ∅ ps).pairs ps := by
  rintro ⟨k, v⟩ hm
  cases hx : maxOf ps k with
  | none => exact absurd hm (maxOf_eq_none_iff.mp hx v)
  | some w =>
    refine ⟨(k, w), ?_, rfl, (maxOf_eq_some_iff.mp hx).2 v hm⟩
    rw [mem_pairs, lookup_recordAll_empty, hx]

end MaxMap

variable {κ β : Type*} [DecidableEq κ]

def insertAll (m : AList fun _ : κ => β) (entries : List (κ × β)) : AList fun _ : κ => β :=
  entries.foldl (fun m e => m.insert e.1 e.2) m

/-- If the entries never disagree on a key, the map holds what it held and the entries. -/
theorem lookup_insertAll {f : κ → Option β} {m : AList fun _ : κ => β} {entries : List (κ × β)}
    (hm : ∀ k b, m.lookup k = some b → f k = some b) (hf : ∀ e ∈ entries, f e.1 = some e.2) (k : κ)
    (b : β) : (insertAll m entries).lookup k = some b ↔ m.lookup k = some b ∨ (k, b) ∈ entries := by
  induction entries generalizing m with
  | nil => simp [insertAll]
  | cons e entries ih =>
    obtain ⟨k', b'⟩ := e
    have hh : f k' = some b' := hf _ List.mem_cons_self
    have hi : ∀ k b, (m.insert k' b').lookup k = some b ↔ m.lookup k = some b ∨
        (k, b) = (k', b') := by
      intro k b
      by_cases hk : k = k'
      · subst hk
        rw [AList.lookup_insert]
        constructor
        · intro heq
          cases heq
          exact .inr rfl
        · rintro (hl | heq)
          · rw [← hh, hm k b hl]
          · cases heq
            rfl
      · rw [AList.lookup_insert_ne hk]
        constructor
        · exact .inl
        · rintro (hl | heq)
          · exact hl
          · cases heq
            exact absurd rfl hk
    have hm' : ∀ k b, (m.insert k' b').lookup k = some b → f k = some b := by
      intro k b hl
      rcases (hi k b).mp hl with ho | heq
      · exact hm k b ho
      · cases heq
        exact hh
    have hr := ih hm' fun e he => hf e (List.mem_cons_of_mem _ he)
    rw [show insertAll m ((k', b') :: entries) = insertAll (m.insert k' b') entries from rfl, hr,
      hi, List.mem_cons, or_assoc]

end LogDb.Lib
