import Mathlib

/-!
Hash chains: every entry carries the hash of its predecessor's hash and its own body. Two chains of
one length that end in the same hash are the same chain, as long as no two of the hashed pairs
collide.
-/

namespace LogDb.Lib

variable {H B : Type*}

/-- A chain of bodies with their hashes that continues the hash `prev`. -/
def Linked (hash : H → B → H) : H → List (B × H) → Prop
  | _, [] => True
  | prev, e :: es => hash prev e.1 = e.2 ∧ Linked hash e.2 es

/-- The pairs that are hashed along a chain. -/
def linkInputs : H → List (B × H) → List (H × B)
  | _, [] => []
  | prev, e :: es => (prev, e.1) :: linkInputs e.2 es

/-- The hash that the next entry continues. -/
def linkEnd : H → List (B × H) → H
  | prev, [] => prev
  | _, e :: es => linkEnd e.2 es

/-- The last hash commits to the chain, and to the hash that it started from. -/
theorem linked_eq_of_linkEnd_eq {hash : H → B → H} {S : Set (H × B)}
    (hi : S.InjOn fun p => hash p.1 p.2) {prev prev' : H} {es es' : List (B × H)}
    (hk : Linked hash prev es) (hl' : Linked hash prev' es') (hm : ∀ p ∈ linkInputs prev es, p ∈ S)
    (hm' : ∀ p ∈ linkInputs prev' es', p ∈ S) (hl : es.length = es'.length)
    (he : linkEnd prev es = linkEnd prev' es') : prev = prev' ∧ es = es' := by
  induction es generalizing prev prev' es' with
  | nil =>
    obtain rfl : es' = [] := List.length_eq_zero_iff.mp hl.symm
    exact ⟨he, rfl⟩
  | cons e es ih =>
    cases es' with
    | nil => cases hl
    | cons e' es' =>
      -- the tails are equal, so the two heads carry one hash
      obtain ⟨hh, hes⟩ := ih hk.2 hl'.2 (fun p hp => hm p (List.mem_cons_of_mem _ hp))
        (fun p hp => hm' p (List.mem_cons_of_mem _ hp)) (Nat.succ.inj hl) he
      have hs : hash prev e.1 = hash prev' e'.1 := by
        rw [hk.1, hl'.1, hh]
      have hr : (prev, e.1) = (prev', e'.1) :=
        hi (hm _ List.mem_cons_self) (hm' _ List.mem_cons_self) hs
      obtain ⟨hv, hb⟩ := Prod.mk.inj hr
      exact ⟨hv, by rw [hes, Prod.ext hb hh]⟩

theorem linkEnd_of_ne_nil {es : List (B × H)} (h : es ≠ []) (prev prev' : H) :
    linkEnd prev es = linkEnd prev' es := by
  cases es with
  | nil => exact absurd rfl h
  | cons e es => rfl

/-- As `linked_eq_of_linkEnd_eq`, where the last hash of an empty chain is anything. -/
theorem linked_eq_of_last_eq {hash : H → B → H} {S : Set (H × B)}
    (hi : S.InjOn fun p => hash p.1 p.2) {prev prev' last last' : H} {es es' : List (B × H)}
    (hk : Linked hash prev es) (hl' : Linked hash prev' es')
    (hm : ∀ p ∈ linkInputs prev es, p ∈ S) (hm' : ∀ p ∈ linkInputs prev' es', p ∈ S)
    (hl : es.length = es'.length) (he : linkEnd last es = linkEnd last' es') : es = es' := by
  by_cases hn : es = []
  · rw [hn] at hl ⊢
    exact (List.length_eq_zero_iff.mp hl.symm).symm
  · have hn' : es' ≠ [] := fun hz => hn (List.length_eq_zero_iff.mp (by rw [hl, hz]; rfl))
    rw [linkEnd_of_ne_nil hn _ prev, linkEnd_of_ne_nil hn' _ prev'] at he
    exact (linked_eq_of_linkEnd_eq hi hk hl' hm hm' hl he).2

end LogDb.Lib
