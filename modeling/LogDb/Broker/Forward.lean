import LogDb.Lib.Transition

/-!
The tasks behind one Consume stream. A forward task spawns one tail for each of its shards when it
is first polled, without a point at which it could be stopped in between, and then awaits them.
Aborting it stops it at its next await; the tails are tasks of their own, and the handles that are
dropped with the forward task leave them running.
-/

namespace LogDb.Broker

structure ForwardTask where
  shards : Finset ℕ
  unspawned : List ℕ
  polled : Bool
  aborted : Bool

/-- The tasks are numbered as they are created. A tail is known by its task and its shard. -/
structure SessionTasks where
  task : ℕ → ForwardTask
  created : ℕ
  forward : Option ℕ
  live : Finset (ℕ × ℕ)
  ended : Finset (ℕ × ℕ)

namespace SessionTasks

def new : SessionTasks :=
  ⟨fun _ => ⟨∅, [], false, false⟩, 0, none, ∅, ∅⟩

variable (w : SessionTasks)

def setTask (p : ℕ) (t : ForwardTask) : SessionTasks :=
  { w with task := Function.update w.task p t }

def abortForward : SessionTasks :=
  match w.forward with
  | some p => { w.setTask p { w.task p with aborted := true } with forward := none }
  | none => w

/-- Spawn a forward task for the shards and install it. The loop over the shards will see them in
the order of a hash map. -/
def setForward (order : List ℕ) : SessionTasks :=
  let old := w.abortForward
  { old.setTask w.created ⟨order.toFinset, order, false, false⟩ with
    created := w.created + 1
    forward := some w.created }

def liveShards : Finset ℕ :=
  w.live.image Prod.snd

def currentShards : Finset ℕ :=
  w.forward.elim ∅ fun p => (w.task p).shards

/-- The forward task has spawned its tails, and they are still running. -/
def Quiescent : Prop :=
  ∀ p, w.forward = some p →
    (w.task p).polled = true ∧ (w.task p).unspawned = [] ∧ ∀ s, (p, s) ∉ w.ended

end SessionTasks

inductive TaskEvent where
  | setForward (order : List ℕ)
  | abortForward
  | poll (p : ℕ)
  | spawn (p : ℕ)
  | send (p s : ℕ)
  | finish (p s : ℕ)

/-- What an event does. A task that is aborted before its first poll never runs; one that is
aborted in its first poll spawns its tails before it stops. -/
inductive TaskTrans : SessionTasks → TaskEvent → SessionTasks → Prop where
  | setForward {w order} (hnodup : order.Nodup) :
      TaskTrans w (.setForward order) (w.setForward order)
  | abortForward {w} : TaskTrans w .abortForward w.abortForward
  | poll {w p} (hcreated : p < w.created) (hpolled : (w.task p).polled = false)
      (haborted : (w.task p).aborted = false) :
      TaskTrans w (.poll p) (w.setTask p { w.task p with polled := true })
  | spawn {w p s rest} (hpolled : (w.task p).polled = true)
      (hnext : (w.task p).unspawned = s :: rest) : TaskTrans w (.spawn p)
        { w.setTask p { w.task p with unspawned := rest } with live := insert (p, s) w.live }
  | send {w p s} (hlive : (p, s) ∈ w.live) : TaskTrans w (.send p s) w
  | finish {w p s} (hlive : (p, s) ∈ w.live) : TaskTrans w (.finish p s)
        { w with live := w.live.erase (p, s), ended := insert (p, s) w.ended }

def TasksReachable (ok : SessionTasks → TaskEvent → Prop) (w : SessionTasks) : Prop :=
  Relation.ReflTransGen (fun w w' => ∃ ev, ok w ev ∧ TaskTrans w ev w') .new w

/-! ### The condition and the invariant -/

/-- The forward task has not run, or all the tails that it shall spawn have run and ended. -/
def SessionTasks.Replaceable (w : SessionTasks) : Prop :=
  ∀ p, w.forward = some p →
    (w.task p).polled = false ∨ (w.task p).unspawned = [] ∧ ∀ s, (p, s) ∉ w.live

/-- A forward task is replaced only when no tail of it can outlive it. -/
def TaskEvent.Clean (w : SessionTasks) : TaskEvent → Prop
  | .setForward _ => w.Replaceable
  | .abortForward => w.Replaceable
  | _ => True

/-- The tails of a task: those to come, those that run and those that ended. -/
structure TaskInv (w : SessionTasks) (p : ℕ) : Prop where
  accounted : ∀ s, s ∈ (w.task p).shards ↔
    s ∈ (w.task p).unspawned ∨ (p, s) ∈ w.live ∨ (p, s) ∈ w.ended
  waiting : (w.task p).polled = false → ∀ s, (p, s) ∉ w.live
  stopped : w.forward ≠ some p → (∀ s, (p, s) ∉ w.live) ∧
    ((w.task p).polled = true → (w.task p).unspawned = []) ∧
      (p < w.created → (w.task p).polled = false → (w.task p).aborted = true)

structure TasksInv (w : SessionTasks) : Prop where
  tasks : ∀ p, TaskInv w p
  fresh : ∀ p, w.created ≤ p → (w.task p).polled = false ∧ ∀ s, (p, s) ∉ w.live ∧ (p, s) ∉ w.ended
  current : ∀ p, w.forward = some p → p < w.created

section

variable {w w' : SessionTasks} {p q s : ℕ}

section

variable (w : SessionTasks) (p : ℕ) (t : ForwardTask)

@[simp] theorem SessionTasks.task_setTask_self : (w.setTask p t).task p = t :=
  Function.update_self ..

@[simp] theorem SessionTasks.setTask_live : (w.setTask p t).live = w.live := rfl

@[simp] theorem SessionTasks.setTask_ended : (w.setTask p t).ended = w.ended := rfl

@[simp] theorem SessionTasks.setTask_created : (w.setTask p t).created = w.created := rfl

@[simp] theorem SessionTasks.setTask_forward : (w.setTask p t).forward = w.forward := rfl

end

theorem SessionTasks.task_setTask_ne (w : SessionTasks) (t : ForwardTask) (h : q ≠ p) :
    (w.setTask p t).task q = w.task q :=
  Function.update_of_ne h ..

namespace TasksInv

theorem new : TasksInv .new := by
  constructor
  · intro p
    constructor
    · simp [SessionTasks.new]
    · simp [SessionTasks.new]
    · simp [SessionTasks.new]
  · simp [SessionTasks.new]
  · simp [SessionTasks.new]

section

variable (h : TasksInv w)
include h

theorem abortForward (hok : w.Replaceable) : TasksInv w.abortForward := by
  unfold SessionTasks.abortForward
  cases hf : w.forward with
  | none => exact h
  | some p =>
    have hp := h.tasks p
    have hv : ∀ s, (p, s) ∉ w.live := by
      rcases hok p hf with hl | ⟨-, hnn⟩
      · exact hp.waiting hl
      · exact hnn
    have hs : (w.task p).polled = true → (w.task p).unspawned = [] := by
      intro hl
      rcases hok p hf with hn | ⟨hi, -⟩
      · rw [hl] at hn
        cases hn
      · exact hi
    constructor
    · intro q
      by_cases hq : q = p
      · subst hq
        constructor
        · simpa using hp.accounted
        · simpa using hp.waiting
        · simpa [hv] using hs
      · have ho := h.tasks q
        have hne : w.forward ≠ some q := by
          rw [hf]
          exact fun heq => hq (Option.some.inj heq).symm
        constructor
        · simpa [w.task_setTask_ne _ hq] using ho.accounted
        · simpa [w.task_setTask_ne _ hq] using ho.waiting
        · simpa [w.task_setTask_ne _ hq] using ho.stopped hne
    · intro q hq
      have hne : q ≠ p := by
        have hlt := h.current p hf
        have hle : w.created ≤ q := hq
        omega
      simpa [w.task_setTask_ne _ hne] using h.fresh q hq
    · intro q hq
      cases hq

theorem install (hnn : w.forward = none) (order : List ℕ) :
    TasksInv { w.setTask w.created ⟨order.toFinset, order, false, false⟩ with
      created := w.created + 1
      forward := some w.created } := by
  obtain ⟨-, hn⟩ := h.fresh w.created le_rfl
  constructor
  · intro q
    by_cases hq : q = w.created
    · subst hq
      constructor
      · simp [hn]
      · simp [hn]
      · simp
    · have ho := h.tasks q
      have hs := ho.stopped (by simp [hnn])
      constructor
      · simpa [w.task_setTask_ne _ hq] using ho.accounted
      · simpa [w.task_setTask_ne _ hq] using ho.waiting
      · intro _
        obtain ⟨hd, hp, ha⟩ := hs
        simp only [w.task_setTask_ne _ hq]
        refine ⟨hd, hp, fun hc => ha ?_⟩
        have hle : q < w.created + 1 := hc
        omega
  · intro q hq
    have hle : w.created + 1 ≤ q := hq
    have hne : q ≠ w.created := by omega
    have hf := h.fresh q (by omega)
    simpa [w.task_setTask_ne _ hne] using hf
  · intro q hq
    cases hq
    exact Nat.lt_succ_self _

theorem setForward (hok : w.Replaceable) (order : List ℕ) : TasksInv (w.setForward order) := by
  have hc : w.abortForward.created = w.created := by
    unfold SessionTasks.abortForward
    cases w.forward <;> rfl
  have hn : w.abortForward.forward = none := by
    unfold SessionTasks.abortForward
    cases hf : w.forward with
    | none => exact hf
    | some p => rfl
  have hi := (h.abortForward hok).install hn order
  rw [hc] at hi
  exact hi

theorem poll (hr : p < w.created) (hp : (w.task p).polled = false)
    (ha : (w.task p).aborted = false) :
    TasksInv (w.setTask p { w.task p with polled := true }) := by
  -- Only the current task can be polled for the first time: the others were aborted before.
  have hc : w.forward = some p := by
    by_contra hne
    have hs := ((h.tasks p).stopped hne).2.2 hr hp
    rw [ha] at hs
    cases hs
  constructor
  · intro q
    have hq' := h.tasks q
    by_cases hq : q = p
    · subst hq
      constructor
      · simpa using hq'.accounted
      · simp
      · simp [hc]
    · constructor
      · simpa [w.task_setTask_ne _ hq] using hq'.accounted
      · simpa [w.task_setTask_ne _ hq] using hq'.waiting
      · simpa [w.task_setTask_ne _ hq] using hq'.stopped
  · intro q hq
    have hle : w.created ≤ q := hq
    have hne : q ≠ p := by omega
    simpa [w.task_setTask_ne _ hne] using h.fresh q hle
  · exact h.current

theorem spawn {rest : List ℕ} (ho : (w.task p).polled = true)
    (hx : (w.task p).unspawned = s :: rest) :
    TasksInv { w.setTask p { w.task p with unspawned := rest } with
      live := insert (p, s) w.live } := by
  have hp := h.tasks p
  have hc : w.forward = some p := by
    by_contra hne
    have hn := (hp.stopped hne).2.1 ho
    rw [hx] at hn
    cases hn
  constructor
  · intro q
    have hq' := h.tasks q
    by_cases hq : q = p
    · subst hq
      constructor
      · intro t
        have ha := hp.accounted t
        rw [hx] at ha
        simp only [SessionTasks.task_setTask_self, ha, List.mem_cons, Finset.mem_insert,
          Prod.mk.injEq, true_and]
        tauto
      · simp [ho]
      · simp [hc]
    · constructor
      · simpa [w.task_setTask_ne _ hq, hq] using hq'.accounted
      · simpa [w.task_setTask_ne _ hq, hq] using hq'.waiting
      · simpa [w.task_setTask_ne _ hq, hq] using hq'.stopped
  · intro q hq
    have hne : q ≠ p := by
      rintro rfl
      have hf := (h.fresh q hq).1
      rw [ho] at hf
      cases hf
    simpa [w.task_setTask_ne _ hne, hne] using h.fresh q hq
  · exact h.current

theorem finish (hl : (p, s) ∈ w.live) :
    TasksInv { w with live := w.live.erase (p, s), ended := insert (p, s) w.ended } := by
  constructor
  · intro q
    have hq := h.tasks q
    constructor
    · intro t
      have ha := hq.accounted t
      by_cases ht : (q, t) = (p, s)
      · simp only [ha, ht, Finset.mem_insert, true_or, or_true, iff_true]
        exact .inr (.inl hl)
      · simp [ha, ht]
    · intro hn t ht
      exact hq.waiting hn t (Finset.mem_of_mem_erase ht)
    · intro hne
      obtain ⟨hnn, hr⟩ := hq.stopped hne
      exact ⟨fun t ht => hnn t (Finset.mem_of_mem_erase ht), hr⟩
  · intro q hq
    obtain ⟨hn, hnn⟩ := h.fresh q hq
    refine ⟨hn, fun t => ⟨fun ht => (hnn t).1 (Finset.mem_of_mem_erase ht), ?_⟩⟩
    intro ht
    rcases Finset.mem_insert.mp ht with heq | ht
    · cases heq
      exact (hnn s).1 hl
    · exact (hnn t).2 ht
  · exact h.current

theorem step {ev : TaskEvent} (hok : ev.Clean w) (ht : TaskTrans w ev w') : TasksInv w' := by
  cases ht with
  | setForward _ => exact h.setForward hok _
  | abortForward => exact h.abortForward hok
  | poll hc hp ha => exact h.poll hc hp ha
  | spawn hp hn => exact h.spawn hp hn
  | send _ => exact h
  | finish hl => exact h.finish hl

end

theorem reachable (h : TasksReachable (fun w ev => ev.Clean w) w) : TasksInv w :=
  Lib.invariant_of_steps h .new fun _ _ h ⟨_, hok, ht⟩ => h.step hok ht

/-- Every running tail belongs to the forward task that the session holds. -/
theorem forward_of_live (h : TasksInv w) (hl : (p, s) ∈ w.live) : w.forward = some p := by
  by_contra hne
  exact ((h.tasks p).stopped hne).1 s hl

end TasksInv

end

/-- If a forward task is replaced only when no tail of it can outlive it, then a record that is
sent comes from the forward task that the session holds, and at rest the running tails are those of
its shards. -/
theorem one_tail_per_shard {w : SessionTasks} (h : TasksReachable (fun w ev => ev.Clean w) w) :
    (∀ p s w', TaskTrans w (.send p s) w' → w.forward = some p) ∧
      (w.Quiescent → w.liveShards = w.currentShards) := by
  have hi := TasksInv.reachable h
  constructor
  · intro p s w' ht
    cases ht with
    | send hl => exact hi.forward_of_live hl
  · intro hq
    ext s
    unfold SessionTasks.liveShards SessionTasks.currentShards
    rw [Finset.mem_image]
    constructor
    · rintro ⟨⟨p, s'⟩, hl, rfl⟩
      rw [hi.forward_of_live hl]
      exact ((hi.tasks p).accounted s').mpr (.inr (.inl hl))
    · intro hs
      cases hf : w.forward with
      | none => simp [hf] at hs
      | some p =>
        obtain ⟨-, hp, hd⟩ := hq p hf
        rw [hf] at hs
        rcases ((hi.tasks p).accounted s).mp hs with hu | hl | he
        · simp [hp] at hu
        · exact ⟨(p, s), hl, rfl⟩
        · exact absurd he (hd s)

/-- A forward task that was not polled yet is swapped for one that runs. -/
theorem one_tail_per_shard_swapped :
    ∃ w, TasksReachable (fun w ev => ev.Clean w) w ∧ w.forward = some 1 ∧
      w.liveShards = w.currentShards ∧ w.liveShards = {1} := by
  have h₀ : TasksReachable (fun w ev => ev.Clean w) .new := .refl
  have hr := h₀.step (.setForward [0]) (by
      intro p hp
      cases hp) (.setForward (by decide))
    |>.step (.setForward [1]) (by
      intro p hp
      cases hp
      exact .inl rfl) (.setForward (by decide))
    |>.step (.poll 1) trivial (.poll (by decide) rfl rfl)
    |>.step (.spawn 1) trivial (.spawn rfl rfl)
  refine ⟨_, hr, rfl, (one_tail_per_shard hr).2 ?_, by decide⟩
  intro p hp
  cases hp
  exact ⟨rfl, rfl, fun s => Finset.notMem_empty _⟩

/-- A session that is moved from shard 0 to shard 1 is still fed from shard 0. -/
theorem replaced_tail_sends :
    ∃ w, TasksReachable (fun _ _ => True) w ∧ w.Quiescent ∧ w.forward = some 1 ∧
      w.currentShards = {1} ∧ w.liveShards = {0, 1} ∧ TaskTrans w (.send 0 0) w := by
  have h₀ : TasksReachable (fun _ _ => True) .new := .refl
  have hr := h₀.step (.setForward [0]) trivial (.setForward (by decide))
    |>.step (.poll 0) trivial (.poll (by decide) rfl rfl)
    |>.step (.spawn 0) trivial (.spawn rfl rfl)
    |>.step (.setForward [1]) trivial (.setForward (by decide))
    |>.step (.poll 1) trivial (.poll (by decide) rfl rfl)
    |>.step (.spawn 1) trivial (.spawn rfl rfl)
  refine ⟨_, hr, ?_, rfl, rfl, by decide, .send (by decide)⟩
  intro p hp
  cases hp
  exact ⟨rfl, rfl, fun s => Finset.notMem_empty _⟩

end LogDb.Broker
