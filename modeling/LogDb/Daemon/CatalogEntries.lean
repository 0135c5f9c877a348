import LogDb.Daemon.Catalog

/-!
What a catalog and a snapshot say of names and ids: a snapshot holds the entries of the catalog it
was made from, and loading it brings them back.
-/

namespace LogDb.Daemon

open Lib List AList

/-! ### Entries of catalogs and snapshots -/

inductive CatalogEntry where
  | ns (name : String) (id : ℕ)
  | stream (nsId : ℕ) (name : String) (id : ℕ)

def Catalog.Has (cat : Catalog) : CatalogEntry → Prop
  | .ns name id => cat.namespaces.lookup name = some id
  | .stream nsId name id => cat.streams.lookup (nsId, name) = some id

section

variable (snap : CatalogSnapshot)

def nsEntries : List (String × ℕ) :=
  snap.map fun e => (e.name, e.id)

def streamEntries : List ((ℕ × String) × ℕ) :=
  snap.flatMap fun e => e.streams.map fun s => ((e.id, s.2), s.1)

def SnapshotHas : CatalogEntry → Prop
  | .ns name id => (name, id) ∈ nsEntries snap
  | .stream nsId name id => ((nsId, name), id) ∈ streamEntries snap

end

/-- Ids name one thing each and are below the next ones, and every stream has a namespace. -/
structure Catalog.Valid (cat : Catalog) : Prop where
  nsInjective : ∀ ns ns' id, cat.Has (.ns ns id) → cat.Has (.ns ns' id) → ns = ns'
  nsBelow : ∀ ns id, cat.Has (.ns ns id) → id < cat.nextNsId
  streamInjective : ∀ nsId nsId' s s' id, cat.Has (.stream nsId s id) →
    cat.Has (.stream nsId' s' id) → nsId = nsId' ∧ s = s'
  streamBelow : ∀ nsId s id, cat.Has (.stream nsId s id) → id < cat.nextStreamId
  owned : ∀ nsId s id, cat.Has (.stream nsId s id) → ∃ ns, cat.Has (.ns ns nsId)
  nextNsId_lt : cat.nextNsId < 2 ^ 32
  nextStreamId_lt : cat.nextStreamId < 2 ^ 64

namespace Catalog

variable {cat cat' : Catalog} {snap : CatalogSnapshot}

theorem valid_new : Valid new where
  nsInjective ns ns' id h := by cases h
  nsBelow ns id h := by cases h
  streamInjective nsId nsId' s s' id h := by cases h
  streamBelow nsId s id h := by cases h
  owned nsId s id h := by cases h
  nextNsId_lt := by decide
  nextStreamId_lt := by decide

/-! ### Serialising and loading -/

theorem mem_entries_iff {κ β : Type*} [DecidableEq κ] (m : AList fun _ : κ => β) (k : κ) (b : β) :
    (k, b) ∈ m.entries.map (fun e => (e.1, e.2)) ↔ m.lookup k = some b := by
  rw [mem_map]
  constructor
  · rintro ⟨⟨k', b'⟩, hm, heq⟩
    cases heq
    exact mem_lookup_iff.mpr hm
  · intro hl
    exact ⟨⟨k, b⟩, mem_lookup_iff.mp hl, rfl⟩

theorem Serializes.has_iff (h : cat.Serializes snap) (hv : cat.Valid) (e : CatalogEntry) :
    SnapshotHas snap e ↔ cat.Has e := by
  obtain ⟨nsOrder, streamOrder, hns, hs, rfl⟩ := h
  have hn : ∀ name id, (name, id) ∈ nsOrder ↔ cat.namespaces.lookup name = some id :=
    fun name id => hns.mem_iff.trans (mem_entries_iff ..)
  have hsm : ∀ k id, (k, id) ∈ streamOrder ↔ cat.streams.lookup k = some id :=
    fun k id => hs.mem_iff.trans (mem_entries_iff ..)
  cases e with
  | ns name id =>
    have he : nsEntries (serialize nsOrder streamOrder) = nsOrder := by
      simp [nsEntries, serialize, Function.comp_def]
    show (name, id) ∈ nsEntries (serialize nsOrder streamOrder) ↔ _
    rw [he]
    exact hn name id
  | stream nsId name id =>
    show ((nsId, name), id) ∈ streamEntries (serialize nsOrder streamOrder) ↔ _
    simp only [streamEntries, serialize, mem_flatMap, mem_map, mem_filter,
      decide_eq_true_eq, exists_exists_and_eq_and]
    constructor
    · rintro ⟨⟨ns, nsId'⟩, -, ⟨⟨k, s⟩, id'⟩, ⟨hm, rfl⟩, heq⟩
      cases heq
      exact (hsm _ _).mp hm
    · intro hh
      obtain ⟨ns, hn'⟩ := hv.owned nsId name id hh
      refine ⟨(ns, nsId), (hn ns nsId).mpr hn', ((nsId, name), id), ?_, rfl⟩
      exact ⟨(hsm _ _).mpr hh, rfl⟩

theorem foldl_loadStream (nsId : ℕ) (streams : List (ℕ × String)) (cat : Catalog) :
    (streams.foldl (loadStream nsId) cat).namespaces = cat.namespaces ∧
      (streams.foldl (loadStream nsId) cat).streams =
        insertAll cat.streams (streams.map fun s => ((nsId, s.2), s.1)) := by
  induction streams generalizing cat with
  | nil => exact ⟨rfl, rfl⟩
  | cons s streams ih => exact ih (loadStream nsId cat s)

theorem foldl_loadNamespace (snap : CatalogSnapshot) (cat : Catalog) :
    (snap.foldl loadNamespace cat).namespaces = insertAll cat.namespaces (nsEntries snap) ∧
      (snap.foldl loadNamespace cat).streams = insertAll cat.streams (streamEntries snap) := by
  induction snap generalizing cat with
  | nil => exact ⟨rfl, rfl⟩
  | cons e snap ih =>
    obtain ⟨hn, hs⟩ := ih (loadNamespace cat e)
    obtain ⟨hn', hs'⟩ := foldl_loadStream e.id e.streams
      { cat with
        namespaces := cat.namespaces.insert e.name e.id
        namespaceNames := cat.namespaceNames.insert e.id e.name }
    constructor
    · rw [foldl_cons, hn, loadNamespace, hn']
      rfl
    · rw [foldl_cons, hs, loadNamespace, hs',
        show streamEntries (e :: snap) =
          (e.streams.map fun s => ((e.id, s.2), s.1)) ++ streamEntries snap from rfl]
      exact foldl_append.symm

theorem loadSnapshot_has_iff (h : ∀ e, SnapshotHas snap e → cat.Has e) (e : CatalogEntry) :
    (loadSnapshot snap).Has e ↔ SnapshotHas snap e := by
  obtain ⟨hn, hs⟩ := foldl_loadNamespace snap new
  cases e with
  | ns name id =>
    show (snap.foldl loadNamespace new).namespaces.lookup name = some id ↔ _
    rw [hn, lookup_insertAll (f := fun name => cat.namespaces.lookup name)]
    · exact or_iff_right fun hm => by cases hm
    · intro k b hm
      cases hm
    · exact fun e he => h (.ns e.1 e.2) he
  | stream nsId name id =>
    show (snap.foldl loadNamespace new).streams.lookup (nsId, name) = some id ↔ _
    rw [hs, lookup_insertAll (f := fun k => cat.streams.lookup k)]
    · exact or_iff_right fun hm => by cases hm
    · intro k b hm
      cases hm
    · exact fun e he => h (.stream e.1.1 e.1.2 e.2) he

theorem foldl_max_le_iff {α : Type*} (f : α → ℕ) (l : List α) (a n : ℕ) :
    l.foldl (fun m x => max m (f x)) a ≤ n ↔ a ≤ n ∧ ∀ x ∈ l, f x ≤ n := by
  induction l generalizing a with
  | nil => simp
  | cons x l ih => simp only [foldl_cons, ih, Nat.max_le, forall_mem_cons, and_assoc]

theorem maxNsId_le_iff (snap : CatalogSnapshot) (n : ℕ) :
    maxNsId snap ≤ n ↔ ∀ name id, SnapshotHas snap (.ns name id) → id ≤ n := by
  unfold maxNsId
  rw [foldl_max_le_iff]
  simp only [Nat.zero_le, true_and, SnapshotHas, nsEntries, mem_map, Prod.mk.injEq]
  constructor
  · rintro h name id ⟨e, he, -, rfl⟩
    exact h e he
  · exact fun h e he => h e.name e.id ⟨e, he, rfl, rfl⟩

theorem maxStreamId_le_iff (snap : CatalogSnapshot) (n : ℕ) :
    maxStreamId snap ≤ n ↔ ∀ nsId name id, SnapshotHas snap (.stream nsId name id) → id ≤ n := by
  have hf : ∀ a, snap.foldl (fun m e => e.streams.foldl (fun m s => max m s.1) m) a ≤ n ↔
      a ≤ n ∧ ∀ e ∈ snap, ∀ s ∈ e.streams, s.1 ≤ n := by
    induction snap with
    | nil => simp
    | cons e snap ih =>
      intro a
      rw [foldl_cons, ih, foldl_max_le_iff]
      simp [and_assoc]
  unfold maxStreamId
  rw [hf]
  simp only [Nat.zero_le, true_and, SnapshotHas, streamEntries, mem_flatMap, mem_map, Prod.mk.injEq]
  constructor
  · rintro h nsId name id ⟨e, he, s, hs, -, rfl⟩
    exact h e he s hs
  · exact fun h e he s hs => h e.id s.2 s.1 ⟨e, he, s, hs, ⟨rfl, rfl⟩, rfl⟩

theorem Valid.loadSnapshot (hv : cat.Valid) (h : ∀ e, SnapshotHas snap e ↔ cat.Has e) :
    (loadSnapshot snap).Valid := by
  have hh : ∀ e, (Catalog.loadSnapshot snap).Has e ↔ cat.Has e := fun e =>
    (loadSnapshot_has_iff (fun e => (h e).mp) e).trans (h e)
  have hnx : maxNsId snap ≤ 2 ^ 32 - 2 := by
    rw [maxNsId_le_iff]
    intro name id hid
    have hb := hv.nsBelow name id ((h _).mp hid)
    have hlt := hv.nextNsId_lt
    omega
  have hx : maxStreamId snap ≤ 2 ^ 64 - 2 := by
    rw [maxStreamId_le_iff]
    intro nsId name id hid
    have hb := hv.streamBelow nsId name id ((h _).mp hid)
    have hlt := hv.nextStreamId_lt
    omega
  have hn : (Catalog.loadSnapshot snap).nextNsId = maxNsId snap + 1 := Nat.mod_eq_of_lt (by omega)
  have ht : (Catalog.loadSnapshot snap).nextStreamId = maxStreamId snap + 1 :=
    Nat.mod_eq_of_lt (by omega)
  constructor
  · intro ns ns' id hns hn'
    exact hv.nsInjective ns ns' id ((hh _).mp hns) ((hh _).mp hn')
  · intro ns id hns
    rw [hn]
    exact Nat.lt_succ_of_le ((maxNsId_le_iff snap _).mp le_rfl ns id ((h _).mpr ((hh _).mp hns)))
  · intro nsId nsId' s s' id hs hs'
    exact hv.streamInjective nsId nsId' s s' id ((hh _).mp hs) ((hh _).mp hs')
  · intro nsId s id hs
    rw [ht]
    exact Nat.lt_succ_of_le ((maxStreamId_le_iff snap _).mp le_rfl nsId s id
      ((h _).mpr ((hh _).mp hs)))
  · intro nsId s id hs
    obtain ⟨ns, hns⟩ := hv.owned nsId s id ((hh _).mp hs)
    exact ⟨ns, (hh _).mpr hns⟩
  · rw [hn]
    omega
  · rw [ht]
    omega

/-! ### The sections of `resolve` -/

variable {nsId : ℕ} {created : Bool} {stream : String} {streamId : ℕ}

theorem resolveNamespace_has {ns : String} (h : cat.resolveNamespace ns = (cat', nsId, created)) :
    cat'.Has (.ns ns nsId) ∧ (created = false → cat' = cat) ∧
      ∀ e, cat'.Has e ↔ cat.Has e ∨ e = .ns ns nsId := by
  unfold resolveNamespace at h
  cases hl : cat.namespaces.lookup ns with
  | some id =>
    rw [hl] at h
    cases h
    refine ⟨hl, fun _ => rfl, fun e => ⟨.inl, ?_⟩⟩
    rintro (hh | rfl)
    · exact hh
    · exact hl
  | none =>
    rw [hl] at h
    cases h
    refine ⟨lookup_insert _, fun hf => (by cases hf), fun e => ?_⟩
    cases e with
    | ns name id =>
      show (cat.namespaces.insert ns cat.nextNsId).lookup name = some id ↔
        cat.namespaces.lookup name = some id ∨ _
      by_cases hn : name = ns
      · subst hn
        simp [hl, eq_comm]
      · simp [lookup_insert_ne hn, hn]
    | stream nsId name id =>
      simp [Has]

theorem resolveStream_has (h : cat.resolveStream nsId stream = (cat', streamId, created)) :
    cat'.Has (.stream nsId stream streamId) ∧ (created = false → cat' = cat) ∧
      ∀ e, cat'.Has e ↔ cat.Has e ∨ e = .stream nsId stream streamId := by
  unfold resolveStream at h
  cases hl : cat.streams.lookup (nsId, stream) with
  | some id =>
    rw [hl] at h
    cases h
    refine ⟨hl, fun _ => rfl, fun e => ⟨.inl, ?_⟩⟩
    rintro (hh | rfl)
    · exact hh
    · exact hl
  | none =>
    rw [hl] at h
    cases h
    refine ⟨lookup_insert _, fun hf => (by cases hf), fun e => ?_⟩
    cases e with
    | ns name id => simp [Has]
    | stream nsId' name id =>
      show (cat.streams.insert (nsId, stream) cat.nextStreamId).lookup (nsId', name) = some id ↔
        cat.streams.lookup (nsId', name) = some id ∨ _
      by_cases hk : (nsId', name) = (nsId, stream)
      · cases hk
        simp [hl, eq_comm]
      · rw [lookup_insert_ne hk]
        simp only [CatalogEntry.stream.injEq]
        constructor
        · exact .inl
        · rintro (hh | ⟨rfl, rfl, -⟩)
          · exact hh
          · exact absurd rfl hk

theorem Valid.resolveNamespace {ns : String} (hv : cat.Valid)
    (hx : cat.namespaces.lookup ns = none → cat.nextNsId + 1 < 2 ^ 32)
    (h : cat.resolveNamespace ns = (cat', nsId, created)) : cat'.Valid := by
  have hh := (resolveNamespace_has h).2.2
  unfold Catalog.resolveNamespace at h
  cases hl : cat.namespaces.lookup ns with
  | some id =>
    rw [hl] at h
    cases h
    exact hv
  | none =>
    rw [hl] at h
    cases h
    have hlt := hx hl
    have hn : ∀ name, cat.Has (.ns name cat.nextNsId) → False := fun name ha =>
      lt_irrefl _ (hv.nsBelow name _ ha)
    constructor
    · intro ns₁ ns₂ id h₁ h₂
      rcases (hh _).mp h₁ with h₁ | h₁ <;> rcases (hh _).mp h₂ with h₂ | h₂
      · exact hv.nsInjective ns₁ ns₂ id h₁ h₂
      · cases h₂
        exact (hn _ h₁).elim
      · cases h₁
        exact (hn _ h₂).elim
      · cases h₁
        cases h₂
        rfl
    · intro name id ha
      show id < (cat.nextNsId + 1) % 2 ^ 32
      rw [Nat.mod_eq_of_lt hlt]
      rcases (hh _).mp ha with ho | ho
      · exact Nat.lt_succ_of_lt (hv.nsBelow name id ho)
      · cases ho
        exact Nat.lt_succ_self _
    · exact hv.streamInjective
    · exact hv.streamBelow
    · intro nsId s id hs
      obtain ⟨name, ha⟩ := hv.owned nsId s id hs
      exact ⟨name, (hh _).mpr (.inl ha)⟩
    · exact Nat.mod_lt _ (Nat.two_pow_pos _)
    · exact hv.nextStreamId_lt

theorem Valid.resolveStream (hv : cat.Valid) (hns : ∃ ns, cat.Has (.ns ns nsId))
    (hx : cat.streams.lookup (nsId, stream) = none → cat.nextStreamId + 1 < 2 ^ 64)
    (h : cat.resolveStream nsId stream = (cat', streamId, created)) : cat'.Valid := by
  have hh := (resolveStream_has h).2.2
  unfold Catalog.resolveStream at h
  cases hl : cat.streams.lookup (nsId, stream) with
  | some id =>
    rw [hl] at h
    cases h
    exact hv
  | none =>
    rw [hl] at h
    cases h
    have hlt := hx hl
    have hn : ∀ nsId name, cat.Has (.stream nsId name cat.nextStreamId) → False :=
      fun nsId name ha => lt_irrefl _ (hv.streamBelow nsId name _ ha)
    constructor
    · exact hv.nsInjective
    · exact hv.nsBelow
    · intro nsId₁ nsId₂ s₁ s₂ id h₁ h₂
      rcases (hh _).mp h₁ with h₁ | h₁ <;> rcases (hh _).mp h₂ with h₂ | h₂
      · exact hv.streamInjective nsId₁ nsId₂ s₁ s₂ id h₁ h₂
      · cases h₂
        exact (hn _ _ h₁).elim
      · cases h₁
        exact (hn _ _ h₂).elim
      · cases h₁
        cases h₂
        exact ⟨rfl, rfl⟩
    · intro nsId' s id hs
      show id < (cat.nextStreamId + 1) % 2 ^ 64
      rw [Nat.mod_eq_of_lt hlt]
      rcases (hh _).mp hs with ho | ho
      · exact Nat.lt_succ_of_lt (hv.streamBelow nsId' s id ho)
      · cases ho
        exact Nat.lt_succ_self _
    · intro nsId' s id hs
      rcases (hh _).mp hs with ho | ho
      · exact hv.owned nsId' s id ho
      · cases ho
        exact hns
    · exact hv.nextNsId_lt
    · exact Nat.mod_lt _ (Nat.two_pow_pos _)

end Catalog

end LogDb.Daemon
