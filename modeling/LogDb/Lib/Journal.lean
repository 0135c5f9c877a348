import LogDb.Lib.Slice

/-!
A journal: files that are written one after the other, each behind a limit that only grows. A file
that is left is queued for its last sync, and may be deleted later. The first `reserve` bytes of a
file are not part of its content and may be written again.
-/

namespace LogDb.Lib

open Function Option

/-- `stable` are the bytes of a file at its last sync, `entries` the files whose directory entry is
synced. -/
structure Journal where
  files : ℕ → Option Bytes
  stable : ℕ → Option Bytes
  entries : ℕ → Bool
  current : ℕ
  limit : ℕ
  queue : List ℕ

namespace Journal

variable {reserve : ℕ} {j j' j'' : Journal} {g : ℕ} {body : Bytes}

/-- The content of the file begins with `body`, which stays there as long as the file does. -/
structure Placed (reserve : ℕ) (j : Journal) (g : ℕ) (body : Bytes) : Prop where
  file : ∀ bytes, j.files g = some bytes → field reserve body.length bytes = body
  le : g ≤ j.current
  below : g = j.current → reserve + body.length ≤ j.limit

section

variable (reserve : ℕ) (j : Journal) (g : ℕ) (body : Bytes)

/-- The content of the file began with `body` at its last sync. -/
def Synced : Prop :=
  ∃ bytes, j.stable g = some bytes ∧ field reserve body.length bytes = body

/-- The content is synced, or the file will be. -/
def Accounted : Prop :=
  g = j.current ∨ g ∈ j.queue ∨ j.Synced reserve g body

end

/-- No content is lost on the way from `j` to `j'`, except with its file. -/
structure Evolves (reserve : ℕ) (j j' : Journal) : Prop where
  placed : ∀ g body, j.Placed reserve g body → j'.Placed reserve g body
  synced : ∀ g body, j.Placed reserve g body → j.Synced reserve g body → j'.Synced reserve g body
  entries : ∀ g, j.entries g = true → j'.entries g = true

/-- No file with content is forgotten on the way from `j` to `j'`. -/
def Remembers (reserve : ℕ) (j j' : Journal) : Prop :=
  ∀ g body, j.Placed reserve g body → j.Accounted reserve g body → j'.Accounted reserve g body

namespace Evolves

theorem refl (reserve : ℕ) (j : Journal) : Evolves reserve j j :=
  ⟨fun _ _ h => h, fun _ _ _ h => h, fun _ h => h⟩

theorem trans (h : Evolves reserve j j') (h' : Evolves reserve j' j'') : Evolves reserve j j'' where
  placed g body hp := h'.placed g body (h.placed g body hp)
  synced g body hp hs := h'.synced g body (h.placed g body hp) (h.synced g body hp hs)
  entries g he := h'.entries g (h.entries g he)

end Evolves

theorem Remembers.trans (h : Remembers reserve j j') (he : Evolves reserve j j')
    (h' : Remembers reserve j' j'') : Remembers reserve j j'' :=
  fun g body hp ha => h' g body (he.placed g body hp) (h g body hp ha)

/-- The steps that leave the current file and the queue alone remember all. -/
theorem Evolves.remembers (h : Evolves reserve j j') (hc : j'.current = j.current)
    (hq : j'.queue = j.queue) : Remembers reserve j j' := by
  intro g body hp ha
  unfold Accounted
  rw [hc, hq]
  exact ha.imp_right (.imp_right (h.synced g body hp))

/-- What happens besides is not about the current file or the queue, and deletes nothing. -/
structure Rests (reserve : ℕ) (j j' : Journal) : Prop where
  evolves : Evolves reserve j j'
  files : ∀ g, (j.files g).isSome = true → (j'.files g).isSome = true
  current_eq : j'.current = j.current
  limit_eq : j'.limit = j.limit
  queue_eq : j'.queue = j.queue

/-- The chunk is added to the content of the current file. -/
structure Appends (reserve : ℕ) (j j' : Journal) (chunk : Bytes) : Prop where
  evolves : Evolves reserve j j'
  files : ∀ g, (j.files g).isSome = true → (j'.files g).isSome = true
  current_eq : j'.current = j.current
  limit_eq : j'.limit = j.limit + chunk.length
  queue_eq : j'.queue = j.queue
  placed : ∀ body, j.Placed reserve j.current body → reserve + body.length = j.limit →
    j'.Placed reserve j.current (body ++ chunk)

theorem Rests.refl (reserve : ℕ) (j : Journal) : Rests reserve j j :=
  ⟨.refl _ _, fun _ h => h, rfl, rfl, rfl⟩

theorem Rests.trans (h : Rests reserve j j') (h' : Rests reserve j' j'') : Rests reserve j j'' where
  evolves := h.evolves.trans h'.evolves
  files g hf := h'.files g (h.files g hf)
  current_eq := h'.current_eq.trans h.current_eq
  limit_eq := h'.limit_eq.trans h.limit_eq
  queue_eq := h'.queue_eq.trans h.queue_eq

theorem Rests.remembers (h : Rests reserve j j') : Remembers reserve j j' :=
  h.evolves.remembers h.current_eq h.queue_eq

variable {chunk : Bytes} {limit k : ℕ}

theorem Appends.remembers (h : Appends reserve j j' chunk) : Remembers reserve j j' :=
  h.evolves.remembers h.current_eq h.queue_eq

theorem Appends.trans_rests (h : Appends reserve j j' chunk) (h' : Rests reserve j' j'') :
    Appends reserve j j'' chunk  where
  evolves := h.evolves.trans h'.evolves
  files g hf := h'.files g (h.files g hf)
  current_eq := h'.current_eq.trans h.current_eq
  limit_eq := h'.limit_eq.trans h.limit_eq
  queue_eq := h'.queue_eq.trans h.queue_eq
  placed body hp hl := h'.evolves.placed _ _ (h.placed body hp hl)

/-- A change of the current file that keeps its content up to the limit. -/
def KeepsContent (reserve limit : ℕ) (change : Bytes → Bytes) : Prop :=
  ∀ bytes body, reserve + body.length ≤ limit → field reserve body.length bytes = body →
    field reserve body.length (change bytes) = body

theorem keepsContent_behind {off : ℕ} (data : Bytes → Bytes) (h : limit ≤ off) :
    KeepsContent reserve limit fun bytes => writeAt off (data bytes) bytes :=
  fun _ _ hl hf => field_writeAt_before _ hf (hl.trans h)

theorem keepsContent_reserve {off : ℕ} {data : Bytes → Bytes}
    (h : ∀ bytes, off + (data bytes).length ≤ reserve) :
    KeepsContent reserve limit fun bytes => writeAt off (data bytes) bytes :=
  fun bytes _ _ hf => field_writeAt_after hf (h bytes)

theorem KeepsContent.comp {first second : Bytes → Bytes} (hf : KeepsContent reserve limit first)
    (hd : KeepsContent reserve limit second) : KeepsContent reserve limit (second ∘ first) :=
  fun bytes body hl ha =>
    hd (first bytes) body hl (hf bytes body hl ha)

def modify (j : Journal) (change : Bytes → Bytes) : Journal :=
  { j with files := update j.files j.current ((j.files j.current).map change) }

theorem rests_modify {change : Bytes → Bytes} (h : KeepsContent reserve j.limit change) :
    Rests reserve j (j.modify change) where
  evolves :=
    { placed := by
        intro g body hp
        refine ⟨?_, hp.le, hp.below⟩
        intro bytes ht
        by_cases hg : g = j.current
        · have hl := hp.below hg
          subst hg
          simp only [modify, update_self] at ht
          obtain ⟨old, ho, rfl⟩ := map_eq_some_iff.mp ht
          exact h old body hl (hp.file old ho)
        · simp only [modify, update_of_ne hg] at ht
          exact hp.file bytes ht
      synced := fun _ _ _ hs => hs
      entries := fun _ he => he }
  files := by
    intro g hf
    by_cases hg : g = j.current
    · subst hg
      simp only [modify, update_self, isSome_map, hf]
    · simp only [modify, update_of_ne hg, hf]
  current_eq := rfl
  limit_eq := rfl
  queue_eq := rfl

def create (j : Journal) (g : ℕ) (data : Bytes) : Journal :=
  { j with files := update j.files g (some data) }

theorem rests_create (data : Bytes) (hk : j.current < k) : Rests reserve j (j.create k data)  where
  evolves :=
    { placed := by
        intro g body hp
        have hne : g ≠ k := (hp.le.trans_lt hk).ne
        refine ⟨?_, hp.le, hp.below⟩
        intro bytes ht
        simp only [create, update_of_ne hne] at ht
        exact hp.file bytes ht
      synced := fun _ _ _ hs => hs
      entries := fun _ he => he }
  files := by
    intro g hf
    by_cases hg : g = k
    · subst hg
      simp only [create, update_self, isSome_some]
    · simp only [create, update_of_ne hg, hf]
  current_eq := rfl
  limit_eq := rfl
  queue_eq := rfl

def sync (j : Journal) (g : ℕ) : Journal :=
  { j with stable := update j.stable g (j.files g) }

theorem Placed.synced (h : j.Placed reserve g body) (hf : (j.files g).isSome = true) :
    (j.sync g).Synced reserve g body := by
  obtain ⟨bytes, hg⟩ := isSome_iff_exists.mp hf
  refine ⟨bytes, ?_, h.file bytes hg⟩
  simp only [sync, update_self, hg]

theorem rests_sync (hfl : (j.files k).isSome = true) : Rests reserve j (j.sync k)  where
  evolves :=
    { placed := fun _ _ hp => ⟨hp.file, hp.le, hp.below⟩
      synced := by
        intro g body hp hs
        by_cases hg : g = k
        · subst hg
          exact hp.synced hfl
        · obtain ⟨bytes, ht, hl⟩ := hs
          refine ⟨bytes, ?_, hl⟩
          simp only [sync, update_of_ne hg, ht]
      entries := fun _ he => he }
  files _ hf := hf
  current_eq := rfl
  limit_eq := rfl
  queue_eq := rfl

def syncDir (j : Journal) : Journal :=
  { j with entries := fun g => j.entries g || (j.files g).isSome }

theorem rests_syncDir : Rests reserve j j.syncDir where
  evolves :=
    { placed := fun _ _ hp => ⟨hp.file, hp.le, hp.below⟩
      synced := fun _ _ _ hs => hs
      entries := fun g he => by simp only [syncDir, he, Bool.true_or] }
  files _ hf := hf
  current_eq := rfl
  limit_eq := rfl
  queue_eq := rfl

/-- The limit moves over what was written behind it. -/
def extend (j : Journal) (n : ℕ) : Journal :=
  { j with limit := j.limit + n }

theorem evolves_extend (n : ℕ) : Evolves reserve j (j.extend n) where
  placed _ _ hp := ⟨hp.file, hp.le, fun hg => (hp.below hg).trans (Nat.le_add_right _ _)⟩
  synced _ _ _ hs := hs
  entries _ he := he

/-- A chunk that was written behind the limit is added when the limit moves over it. -/
theorem Rests.appends (h : Rests reserve j j') (hc : ∀ bytes, j'.files j.current = some bytes →
      field j.limit chunk.length bytes = chunk) :
    Appends reserve j (j'.extend chunk.length) chunk  where
  evolves := h.evolves.trans (evolves_extend _)
  files := h.files
  current_eq := h.current_eq
  limit_eq := congrArg (· + chunk.length) h.limit_eq
  queue_eq := h.queue_eq
  placed body hp hl := by
    have hp' := h.evolves.placed _ _ hp
    refine ⟨fun bytes hg => field_adjacent (hp'.file bytes hg) ?_, hp'.le, fun _ => ?_⟩
    · rw [hl]
      exact hc bytes hg
    · show _ ≤ j'.limit + chunk.length
      rw [h.limit_eq, List.length_append, ← add_assoc, hl]

/-- Go on to another file and queue the current one. -/
def switch (reserve : ℕ) (j : Journal) (g : ℕ) : Journal :=
  { j with
    current := g
    limit := reserve
    queue := j.queue ++ [j.current] }

theorem evolves_switch (hk : j.current < k) : Evolves reserve j (j.switch reserve k)  where
  placed g body hp := by
    have hlt : g < k := hp.le.trans_lt hk
    exact ⟨hp.file, hlt.le, fun hg => absurd hg hlt.ne⟩
  synced _ _ _ hs := hs
  entries _ he := he

theorem remembers_switch (k : ℕ) : Remembers reserve j (j.switch reserve k) := by
  intro g body _ ha
  rcases ha with rfl | hq | hy
  · exact .inr (.inl (List.mem_append_right _ List.mem_cons_self))
  · exact .inr (.inl (List.mem_append_left _ hq))
  · exact .inr (.inr hy)

end Journal

end LogDb.Lib
