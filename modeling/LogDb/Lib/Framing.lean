import LogDb.Lib.Slice

/-!
Self-delimiting byte strings. A framing reads the length of the chunk at the front of a byte
string; splitting a string by it gives the chunks and the tail at which no further chunk starts.
-/

namespace LogDb.Lib

open List

/-- A rule that finds the length of the chunk at the front, looking only at that chunk. -/
structure Framing where
  next : Bytes → Option ℕ
  next_pos : ∀ {bs n}, next bs = some n → 0 < n
  next_le : ∀ {bs n}, next bs = some n → n ≤ bs.length
  next_local : ∀ {bs n}, next bs = some n → ∀ rest, next (bs.take n ++ rest) = some n

namespace Framing

variable (F : Framing)

/-- Split off at most `k` chunks. -/
def splitN : ℕ → Bytes → List Bytes × Bytes
  | 0, bs => ([], bs)
  | k + 1, bs =>
    match F.next bs with
    | none => ([], bs)
    | some n =>
      let r := splitN k (bs.drop n)
      (bs.take n :: r.1, r.2)

/-- All chunks of a byte string, and the tail that starts no chunk. -/
def split (bs : Bytes) : List Bytes × Bytes :=
  F.splitN bs.length bs

def IsChunk (c : Bytes) : Prop :=
  F.next c = some c.length

theorem splitN_eq_splitN (k m : ℕ) (bs : Bytes) (hk : bs.length ≤ k) (hm : bs.length ≤ m) :
    F.splitN k bs = F.splitN m bs := by
  induction k generalizing m bs with
  | zero =>
    obtain rfl : bs = [] := length_eq_zero_iff.mp (by omega)
    cases m with
    | zero => rfl
    | succ m =>
      cases hn : F.next [] with
      | none => simp [splitN, hn]
      | some n =>
        have hp := F.next_pos hn
        have hle := F.next_le hn
        simp at hle
        omega
  | succ k ih =>
    cases hn : F.next bs with
    | none => cases m <;> simp [splitN, hn]
    | some n =>
      have hp := F.next_pos hn
      have hle := F.next_le hn
      obtain ⟨m, rfl⟩ : ∃ m', m = m' + 1 := ⟨m - 1, by omega⟩
      have htl : F.splitN k (bs.drop n) = F.splitN m (bs.drop n) :=
        ih m (bs.drop n) (by rw [length_drop]; omega) (by rw [length_drop]; omega)
      simp only [splitN, hn, htl]

theorem split_of_none {bs : Bytes} (h : F.next bs = none) : F.split bs = ([], bs) := by
  unfold split
  cases bs.length <;> simp [splitN, h]

theorem split_of_some {bs : Bytes} {n : ℕ} (h : F.next bs = some n) :
    F.split bs = (bs.take n :: (F.split (bs.drop n)).1, (F.split (bs.drop n)).2) := by
  have hp := F.next_pos h
  have hle := F.next_le h
  obtain ⟨k, hk⟩ : ∃ k, bs.length = k + 1 := ⟨bs.length - 1, by omega⟩
  have htl : F.splitN k (bs.drop n) = F.splitN (bs.drop n).length (bs.drop n) :=
    F.splitN_eq_splitN _ _ _ (by rw [length_drop]; omega) le_rfl
  rw [split, hk, splitN, h]
  simp only [htl, split]

/-- Induction along the chunks of a byte string. -/
theorem split_induction {P : Bytes → Prop} (hnn : ∀ bs, F.next bs = none → P bs)
    (hse : ∀ bs n, F.next bs = some n → P (bs.drop n) → P bs) (bs : Bytes) : P bs := by
  induction hm : bs.length using Nat.strong_induction_on generalizing bs with
  | _ m ih =>
    cases hn : F.next bs with
    | none => exact hnn bs hn
    | some n =>
      have hp := F.next_pos hn
      have hle := F.next_le hn
      exact hse bs n hn (ih (bs.drop n).length (by rw [length_drop]; omega) _ rfl)

theorem split_flatten (bs : Bytes) : (F.split bs).1.flatten ++ (F.split bs).2 = bs := by
  induction bs using F.split_induction with
  | hnn bs hn => simp [F.split_of_none hn]
  | hse bs n hn ih =>
    rw [F.split_of_some hn, flatten_cons, append_assoc, ih, take_append_drop]

theorem isChunk_take {bs : Bytes} {n : ℕ} (h : F.next bs = some n) : F.IsChunk (bs.take n) := by
  have hle := F.next_le h
  have hl := F.next_local h []
  rw [append_nil] at hl
  rw [IsChunk, hl, length_take_of_le hle]

theorem isChunk_of_mem_split (bs : Bytes) : ∀ c ∈ (F.split bs).1, F.IsChunk c := by
  induction bs using F.split_induction with
  | hnn bs hn => simp [F.split_of_none hn]
  | hse bs n hn ih =>
    rw [F.split_of_some hn]
    intro c hc
    rcases mem_cons.mp hc with rfl | hc
    · exact F.isChunk_take hn
    · exact ih c hc

theorem IsChunk.next_append {F : Framing} {c : Bytes} (h : F.IsChunk c) (rest : Bytes) :
    F.next (c ++ rest) = some c.length := by
  have hl := F.next_local h rest
  rwa [take_length] at hl

theorem IsChunk.length_pos {F : Framing} {c : Bytes} (h : F.IsChunk c) : 0 < c.length :=
  F.next_pos h

theorem split_append {cs : List Bytes} (h : ∀ c ∈ cs, F.IsChunk c) (rest : Bytes) :
    F.split (cs.flatten ++ rest) = (cs ++ (F.split rest).1, (F.split rest).2) := by
  induction cs with
  | nil => rfl
  | cons c cs ih =>
    have hc : F.IsChunk c := h c (by simp)
    have hcs : ∀ d ∈ cs, F.IsChunk d := fun d hd => h d (by simp [hd])
    have hnx := hc.next_append (cs.flatten ++ rest)
    rw [flatten_cons, append_assoc, F.split_of_some hnx, take_left, drop_left, ih hcs, cons_append]

theorem next_nil : F.next [] = none := by
  cases hn : F.next [] with
  | none => rfl
  | some n =>
    have hp := F.next_pos hn
    have hle := F.next_le hn
    simp at hle
    omega

theorem split_eq_nil_iff (bs : Bytes) : ((F.split bs).1 = [] ∧ (F.split bs).2 = []) ↔ bs = [] := by
  constructor
  · intro h
    have hft := F.split_flatten bs
    rw [h.1, h.2] at hft
    exact hft.symm
  · intro h
    rw [h, F.split_of_none F.next_nil]
    exact ⟨rfl, rfl⟩

theorem split_flatten_chunks {cs : List Bytes} (h : ∀ c ∈ cs, F.IsChunk c) :
    F.split cs.flatten = (cs, []) := by
  have ha := F.split_append h []
  rw [F.split_of_none F.next_nil] at ha
  simpa using ha

end Framing

end LogDb.Lib
