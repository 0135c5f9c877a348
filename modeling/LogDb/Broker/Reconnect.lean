import LogDb.Lib.Transition

/-!
The sessions of one consumer over its reconnects. Every Consume registers a handle of its own under
the same key. A forward task removes whatever is registered there when its forward has ended, and
can be aborted only before that.
-/

namespace LogDb.Broker

open Function

/-- A task is `leaving` when it has passed its last await and not yet removed a session. -/
inductive ForwardPhase where
  | running
  | leaving
  | over
deriving DecidableEq

/-- Handles and tasks are numbered as they are made. -/
structure Reconnects where
  opened : ℕ
  registered : Option ℕ
  forward : ℕ → Option ℕ
  spawned : ℕ
  session : ℕ → ℕ
  phase : ℕ → ForwardPhase

namespace Reconnects

def new : Reconnects :=
  ⟨0, none, fun _ => none, 0, fun _ => 0, fun _ => .over⟩

variable (w : Reconnects)

def abortForward (n : ℕ) : Reconnects :=
  match w.forward n with
  | some t => { w with
      forward := update w.forward n none
      phase := update w.phase t (if w.phase t = .running then .over else w.phase t) }
  | none => w

def setForward (t : ℕ) : Reconnects :=
  let old := w.abortForward (w.session t)
  { old with forward := update old.forward (w.session t) (some t) }

def insert : Reconnects :=
  { w.registered.elim w w.abortForward with opened := w.opened + 1, registered := some w.opened }

def remove : Reconnects :=
  { w.registered.elim w w.abortForward with registered := none }

end Reconnects

inductive ReconnectEvent where
  | insert
  | spawn (n : ℕ)
  | setForward (t : ℕ)
  | abortForward (n : ℕ)
  | finish (t : ℕ)
  | deregister (t : ℕ)
  | evict

/-- What an event does. Consume and the rebalances spawn the task of a handle and install it in the
handle later. -/
inductive ReconnectTrans : Reconnects → ReconnectEvent → Reconnects → Prop where
  | insert {w} : ReconnectTrans w .insert w.insert
  | spawn {w n} (hopened : n < w.opened) : ReconnectTrans w (.spawn n) { w with
      spawned := w.spawned + 1
      session := update w.session w.spawned n
      phase := update w.phase w.spawned .running }
  | setForward {w t} (hspawned : t < w.spawned) : ReconnectTrans w (.setForward t) (w.setForward t)
  | abortForward {w n} : ReconnectTrans w (.abortForward n) (w.abortForward n)
  | finish {w t} (hrunning : w.phase t = .running) :
      ReconnectTrans w (.finish t) { w with phase := update w.phase t .leaving }
  | deregister {w t} (hleaving : w.phase t = .leaving) : ReconnectTrans w (.deregister t)
      { w.remove with phase := update w.remove.phase t .over }
  | evict {w} : ReconnectTrans w .evict w.remove

/-- A handle is registered only while the one task that is not over is running and can be aborted
through the handle that is replaced, and tasks are spawned only for the handle that is registered. -/
def ReconnectEvent.Orderly (w : Reconnects) : ReconnectEvent → Prop
  | .insert => ∀ t, w.phase t ≠ .over →
      w.phase t = .running ∧ ∃ n, w.registered = some n ∧ w.forward n = some t
  | .spawn n => w.registered = some n
  | _ => True

/-- Every task that is not over belongs to the handle that is registered. -/
def Reconnects.Own (w : Reconnects) : Prop :=
  ∀ t m, w.phase t ≠ .over → w.registered = some m → w.session t = m

section

variable {w w' : Reconnects} {t n m : ℕ}

theorem Reconnects.abortForward_frame (w : Reconnects) (n : ℕ) :
    (w.abortForward n).registered = w.registered ∧ (w.abortForward n).session = w.session ∧
      ∀ t, (w.abortForward n).phase t ≠ .over → w.phase t ≠ .over := by
  unfold abortForward
  split
  · refine ⟨rfl, rfl, fun t ht ho => ht ?_⟩
    rename_i t' _
    rcases eq_or_ne t t' with rfl | hne
    · simp [ho]
    · simpa [update_of_ne hne] using ho
  · exact ⟨rfl, rfl, fun _ ht => ht⟩

theorem Reconnects.Own.abortForward (h : w.Own) (n : ℕ) : (w.abortForward n).Own := by
  obtain ⟨hr, hs, hp⟩ := w.abortForward_frame n
  intro t m ht hm
  rw [hs]
  exact h t m (hp t ht) (hr ▸ hm)

theorem Reconnects.Own.step {ev : ReconnectEvent} (h : w.Own) (hok : ev.Orderly w)
    (htr : ReconnectTrans w ev w') : w'.Own := by
  cases htr with
  | insert =>
    intro t m ht
    refine absurd ?_ ht
    by_cases hv : w.phase t = .over
    · cases he : w.registered with
      | none => simpa [insert, he] using hv
      | some n =>
        by_contra hne
        exact (w.abortForward_frame n).2.2 t (by simpa [insert, he] using hne) hv
    · obtain ⟨hr, n, he, hf⟩ := hok t hv
      simp [insert, he, Reconnects.abortForward, hf, hr]
  | spawn ho =>
    intro t m ht hm
    rcases eq_or_ne t w.spawned with rfl | hne
    · simpa using Option.some.inj (hok.symm.trans hm)
    · simp only [update_of_ne hne] at ht ⊢
      exact h t m ht hm
  | setForward hs => exact h.abortForward _
  | abortForward => exact h.abortForward _
  | @finish t hr =>
    intro t' m ht hm
    refine h t' m (fun hv => ht ?_) hm
    rcases eq_or_ne t' t with rfl | hne
    · simp [hr] at hv
    · simpa [update_of_ne hne] using hv
  | _ => exact fun t m ht hm => by cases hm

end

end LogDb.Broker
