import LogDb.Broker.Group
import LogDb.Broker.Sessions

/-!
When the forward tasks follow the assignment: a session that a membership change leaves with the
wrong shards is one that a handler is about to put right.
-/

namespace LogDb.Broker

open List Function Option Service AList Handler CoordinatorRegistry

/-! ### The consumers that a change leaves alone -/

namespace GroupState

variable {g g' : GroupState} {id c : ConsumerId}

theorem Balanced.own_join (h : g.Balanced) {r : JoinResult} (hj : g.join id = some (g', r))
    (hc : c ∉ g'.lastChanged) : g'.own c = g.own c := by
  by_cases hid : id ∈ g.members
  · rcases join_cases hj with ⟨-, rfl⟩ | ⟨hn, -⟩ | ⟨ho, -⟩
    · rfl
    · simp [hn] at hid
    · exact absurd hid ho
  · obtain ⟨hb, ha, -⟩ := h.join_new hid hj
    by_cases hm : c ∈ g'.members
    · rcases join_cases hj with ⟨hi, -⟩ | ⟨hn, rfl⟩ | ⟨-, -, -, rfl⟩
      · exact absurd hi hid
      · refine absurd ?_ hc
        rw [ha] at hm
        simpa [rebalanced, added, or_comm] using hm
      · have hs : (g.added id).rebalance.lookup c = g.assignments.lookup c :=
          by_contra fun hne => hc (Finset.mem_union_left _ (by simpa using ⟨hm, hne⟩))
        exact congrArg (fun shards => shards.getD []) hs
    · rw [hb.own_of_notMem hm, h.own_of_notMem]
      exact fun hi => hm (ha ▸ mem_append_left _ hi)

end GroupState

/-! ### What the registry says of a consumer -/

namespace CoordinatorRegistry

variable {reg reg' : CoordinatorRegistry} {key : GroupKey} {c : ConsumerId}

def own (reg : CoordinatorRegistry) (key : GroupKey) (c : ConsumerId) : List ℕ :=
  (reg.entry key).own c

theorem entry_of_lookup {g : GroupState} (h : reg.groups.lookup key = some g) :
    reg.entry key = g := by
  simp [entry, h]

section

variable (reg : CoordinatorRegistry) (key : GroupKey)

theorem lookup_setGroup (g : GroupState) : (reg.setGroup key g).groups.lookup key = some g :=
  lookup_insert _

theorem entry_setGroup (g : GroupState) : (reg.setGroup key g).entry key = g :=
  entry_of_lookup (reg.lookup_setGroup key g)

theorem lastChanged_setGroup (g : GroupState) :
    (reg.setGroup key g).lastChanged key = g.lastChanged := by
  unfold lastChanged
  rw [lookup_setGroup]
  rfl

theorem lastChanged_eq : reg.lastChanged key = (reg.entry key).lastChanged := by
  unfold lastChanged entry
  cases reg.groups.lookup key <;> rfl

end

variable {snap : GroupSnapshot}

theorem shards_groupSnapshot (h : reg.groupSnapshot key = some snap) (c : ConsumerId) :
    snap.shards c = if c ∈ (reg.entry key).members then some (reg.own key c) else none := by
  obtain ⟨g, hl, rfl⟩ := map_eq_some_iff.mp h
  rw [own, entry_of_lookup hl]
  show ((g.members.map _).find? _).map _ = _
  induction g.members with
  | nil => rfl
  | cons id members ih =>
    by_cases hid : id = c
    · subst hid
      simp [GroupState.own, GroupState.assigned]
    · simp only [map_cons, find?_cons, hid, decide_false, ih, mem_cons, Ne.symm hid, false_or]

theorem leave_spec {present : Bool} (hb : (reg.entry key).Balanced)
    (h : reg.leave key c = some (reg', present)) :
    (reg'.entry key).Balanced ∧ (c ∉ (reg.entry key).members → reg'.entry key = reg.entry key) ∧
      ∀ c', c' ≠ c → c' ∉ reg'.lastChanged key → reg'.own key c' = reg.own key c' := by
  unfold leave at h
  cases hk : reg.groups.lookup key with
  | none =>
    rw [hk] at h
    cases h
    exact ⟨hb, fun _ => rfl, fun _ _ _ => rfl⟩
  | some g =>
    rw [hk] at h
    obtain ⟨⟨g', present'⟩, hl, heq⟩ := map_eq_some_iff.mp h
    cases heq
    rw [entry_of_lookup hk] at hb ⊢
    rw [lastChanged_setGroup]
    unfold own
    rw [entry_setGroup, entry_of_lookup hk]
    have ha : g.apply (.leave c) = some g' := by
      simp [GroupState.apply, hl]
    refine ⟨(hb.apply ha).1, ?_, ?_⟩
    · intro hm
      rcases GroupState.leave_cases hl with ⟨-, rfl, -⟩ | ⟨pos, hp, -⟩
      · rfl
      · exact absurd (isSome_idxOf?.mp (by simp [hp])) hm
    · intro c' hne hc'
      cases present' with
      | true =>
        have hs := not_not.mp (mt (hb.mem_lastChanged_leave hl).mpr hc')
        rw [lookup_erase_ne hne] at hs
        exact congrArg (fun shards => shards.getD []) hs
      | false =>
        rcases GroupState.leave_cases hl with ⟨-, rfl, -⟩ | ⟨pos, -, ht, -⟩
        · rfl
        · cases ht

end CoordinatorRegistry

/-! ### The condition -/

/-- The handler has changed the membership or read the assignment and has more to do. -/
def Handler.Busy : Handler → Prop
  | consuming _ _ => True
  | opened _ _ _ => True
  | rebalance _ _ => True
  | _ => False

/-- The membership changes only while no other handler is busy, and a consumer leaves only without
an open session. -/
def ServiceEvent.Serial (key : GroupKey) (w : Service) : ServiceEvent → Prop
  | .join i c => c ∉ (w.registry.entry key).members → ∀ j, j ≠ i → ¬ (w.handler j).Busy
  | .leave i c => c ∈ (w.registry.entry key).members →
    (∀ j, j ≠ i → ¬ (w.handler j).Busy) ∧ c ∉ w.sessions
  | .evictLeave i => ∀ c stale, w.handler i = .evicting c stale →
    c ∈ (w.registry.entry key).members → (∀ j, j ≠ i → ¬ (w.handler j).Busy) ∧ c ∉ w.sessions
  | _ => True

/-! ### The invariant -/

/-- A forward task for the shards, none if there are none. -/
def forwardFor (shards : List ℕ) : Option (List ℕ) :=
  if shards = [] then none else some shards

/-- What a handler holds of the registry is what the registry says. -/
def Handler.Current (reg : CoordinatorRegistry) (key : GroupKey) : Handler → Prop
  | consuming c shards => reg.own key c = shards ∧ shards ≠ []
  | opened c _ shards => reg.own key c = shards ∧ shards ≠ []
  | rebalance (.snapped _ snap) _ => ∀ c, (snap.shards c).getD [] = reg.own key c
  | rebalance (.loop _ snap changed) _ =>
    (∀ c, (snap.shards c).getD [] = reg.own key c) ∧ changed = reg.lastChanged key
  | rebalance (.signalled c _ shards _ snap changed) _ => reg.own key c = shards ∧
    (∀ c, (snap.shards c).getD [] = reg.own key c) ∧ changed = reg.lastChanged key
  | rebalance (.aborted c _ shards _ snap changed) _ => (reg.own key c = shards ∧ shards ≠ []) ∧
    (∀ c, (snap.shards c).getD [] = reg.own key c) ∧ changed = reg.lastChanged key
  | _ => True

/-- The handler is about to give the session a new forward task. -/
def Handler.Fixes (lastChanged : Finset ConsumerId) (c : ConsumerId) (n : ℕ) : Handler → Prop
  | opened c' n' _ => c = c' ∧ n = n'
  | rebalance .start _ => c ∈ lastChanged
  | rebalance (.listed sessions) _ => (c, n) ∈ sessions ∧ c ∈ lastChanged
  | rebalance (.snapped sessions _) _ => (c, n) ∈ sessions ∧ c ∈ lastChanged
  | rebalance (.loop sessions _ changed) _ => (c, n) ∈ sessions ∧ c ∈ changed
  | rebalance (.signalled c' n' _ sessions _ changed) _ =>
    (c = c' ∧ n = n') ∨ (c, n) ∈ sessions ∧ c ∈ changed
  | rebalance (.aborted c' n' _ sessions _ changed) _ =>
    (c = c' ∧ n = n') ∨ (c, n) ∈ sessions ∧ c ∈ changed
  | _ => False

/-- The forward task of a session covers the shards of its consumer. -/
def Service.Covered (w : Service) (key : GroupKey) (c : ConsumerId) (n : ℕ) : Prop :=
  w.forward c n = forwardFor (w.registry.own key c)

structure ServiceInv (key : GroupKey) (w : Service) : Prop where
  balanced : (w.registry.entry key).Balanced
  current : ∀ i, (w.handler i).Current w.registry key
  follows : ∀ c n, w.sessions.lookup c = some n → ¬ w.Covered key c n →
    ∃ i, (w.handler i).Fixes (w.registry.lastChanged key) c n

section

variable {key : GroupKey} {w w' : Service} {i : ℕ} {h₀ h' : Handler} {c : ConsumerId} {n : ℕ}

theorem Handler.current_of_not_busy (reg : CoordinatorRegistry) {h : Handler} (hn : ¬ h.Busy) :
    h.Current reg key := by
  cases h with
  | idle => trivial
  | evict c stale => trivial
  | evicting c stale => trivial
  | _ => exact absurd trivial hn

theorem Handler.not_fixes_of_not_busy {lastChanged : Finset ConsumerId} {h : Handler}
    (hn : ¬ h.Busy) : ¬ h.Fixes lastChanged c n := by
  cases h with
  | opened c n shards => exact absurd trivial hn
  | rebalance point stale => exact absurd trivial hn
  | _ => exact id

theorem Handler.not_busy_next (stale : List ConsumerId) : ¬ (next stale).Busy := by
  cases stale with
  | nil => exact id
  | cons c stale => exact id

section

variable (w : Service)

theorem Service.handler_set_self (i : ℕ) (h : Handler) : (w.set i h).handler i = h :=
  update_self ..

theorem Service.handler_set_ne {j : ℕ} (h : Handler) (hne : j ≠ i) :
    (w.set i h).handler j = w.handler j :=
  update_of_ne hne ..

theorem Service.forward_setForward_self (c : ConsumerId) (n : ℕ)
    (task : Option (List ℕ)) : (w.setForward c n task).forward c n = task :=
  if_pos ⟨rfl, rfl⟩

theorem Service.forward_setForward_ne {c' : ConsumerId} {n' : ℕ} (task : Option (List ℕ))
    (hne : ¬ (c' = c ∧ n' = n)) : (w.setForward c n task).forward c' n' = w.forward c' n' :=
  if_neg hne

section

variable (c : ConsumerId)

theorem Service.remove_handler : (w.remove c).handler = w.handler := by
  unfold remove
  cases w.sessions.lookup c <;> rfl

theorem Service.insert_handler : (w.insert c).handler = w.handler := by
  unfold insert
  cases w.sessions.lookup c <;> rfl

theorem Service.insert_registry : (w.insert c).registry = w.registry := by
  unfold insert
  cases w.sessions.lookup c <;> rfl

theorem Service.lookup_remove : (w.remove c).sessions.lookup c = none := by
  unfold remove
  cases hl : w.sessions.lookup c with
  | none => exact hl
  | some n => exact lookup_erase _ _

end

end

namespace ServiceInv

theorem new (numShards : UInt32) : ServiceInv key (.new numShards) where
  balanced := GroupState.balanced_new numShards
  current _ := trivial
  follows c n hl := by cases hl

section

variable (h : ServiceInv key w)
include h

/-- A handler goes on: it stays up to date, and what it was about to put right it still is or has
done. -/
theorem handle (hh : w.handler i = h₀) (hc : h₀.Current w.registry key → h'.Current w.registry key)
    (hx : ∀ c n, w.sessions.lookup c = some n → h₀.Fixes (w.registry.lastChanged key) c n →
      h'.Fixes (w.registry.lastChanged key) c n) :
    ServiceInv key (w.set i h') where
  balanced := h.balanced
  current := (forall_update_iff _ _).mpr
    ⟨hc (hh ▸ h.current i), fun j _ => h.current j⟩
  follows c n hl hn := by
    obtain ⟨j, hj⟩ := h.follows c n hl hn
    refine (exists_update_iff _ fun _ h => Fixes _ c n h).mpr ?_
    by_cases hi : j = i
    · exact .inl (hx c n hl (hh ▸ hi ▸ hj))
    · exact .inr ⟨j, hi, hj⟩

theorem remove (c : ConsumerId) : ServiceInv key (w.remove c) := by
  unfold Service.remove
  cases hl : w.sessions.lookup c with
  | none => exact h
  | some n =>
    refine ⟨h.balanced, h.current, ?_⟩
    intro c' n' hl' hn
    have hne : c' ≠ c := by
      rintro rfl
      rw [lookup_erase] at hl'
      cases hl'
    rw [lookup_erase_ne hne] at hl'
    refine h.follows c' n' hl' fun hc => hn ?_
    exact (w.forward_setForward_ne none fun heq => hne heq.1).trans hc

/-- A session gets the right forward task, or one that its handler will replace. -/
theorem setForward {task : Option (List ℕ)} (hh : w.handler i = h₀)
    (hc : h₀.Current w.registry key → h'.Current w.registry key)
    (hf : h₀.Current w.registry key → task = forwardFor (w.registry.own key c) ∨
      h'.Fixes (w.registry.lastChanged key) c n)
    (hx : ∀ c' n', ¬ (c' = c ∧ n' = n) → h₀.Fixes (w.registry.lastChanged key) c' n' →
      h'.Fixes (w.registry.lastChanged key) c' n') :
    ServiceInv key ((w.setForward c n task).set i h') where
  balanced := h.balanced
  current := (forall_update_iff _ _).mpr
    ⟨hc (hh ▸ h.current i), fun j _ => h.current j⟩
  follows c' n' hlk hn := by
    refine (exists_update_iff _ fun _ h => Fixes _ c' n' h).mpr ?_
    by_cases hs : c' = c ∧ n' = n
    · obtain ⟨rfl, rfl⟩ := hs
      refine .inl ((hf (hh ▸ h.current i)).resolve_left fun ht => hn ?_)
      exact (w.forward_setForward_self c' n' task).trans ht
    · have hn' : ¬ w.Covered key c' n' := fun ho =>
        hn ((w.forward_setForward_ne task hs).trans ho)
      obtain ⟨j, hj⟩ := h.follows c' n' hlk hn'
      by_cases hi : j = i
      · exact .inl (hx c' n' hs (hh ▸ hi ▸ hj))
      · exact .inr ⟨j, hi, hj⟩

theorem insert {shards : List ℕ} (hhn : w.handler i = .consuming c shards) :
    ServiceInv key ((w.insert c).set i (.opened c w.opened shards)) := by
  have hu := h.current i
  rw [hhn] at hu
  have hf : ∀ c' n', c' ≠ c → (w.insert c).forward c' n' = w.forward c' n' := by
    intro c' n' hne
    have hs : ∀ n : ℕ, ¬ (c' = c ∧ n' = n) := fun n heq => hne heq.1
    unfold Service.insert
    cases w.sessions.lookup c with
    | none => exact w.forward_setForward_ne none (hs _)
    | some m =>
      exact ((w.setForward c m none).forward_setForward_ne none (hs _)).trans
        (w.forward_setForward_ne none (hs _))
  have hr := w.insert_registry c
  have hh := w.insert_handler c
  constructor
  · show ((w.insert c).registry.entry key).Balanced
    rw [hr]
    exact h.balanced
  · refine (forall_update_iff _ _).mpr ⟨hr ▸ hu, fun j _ => ?_⟩
    show Current (w.insert c).registry key ((w.insert c).handler j)
    rw [hr, hh]
    exact h.current j
  · intro c' n' hl hn
    have hl' : (w.sessions.insert c w.opened).lookup c' = some n' := hl
    by_cases hc : c' = c
    · subst hc
      rw [lookup_insert] at hl'
      cases hl'
      refine ⟨i, ?_⟩
      rw [handler_set_self]
      exact ⟨rfl, rfl⟩
    · rw [lookup_insert_ne hc] at hl'
      have hn' : ¬ w.Covered key c' n' := by
        intro ho
        apply hn
        show (w.insert c).forward c' n' = forwardFor ((w.insert c).registry.own key c')
        rw [hf c' n' hc, hr]
        exact ho
      obtain ⟨j, hj⟩ := h.follows c' n' hl' hn'
      have hi : j ≠ i := by
        rintro rfl
        rw [hhn] at hj
        exact hj
      refine ⟨j, ?_⟩
      show Fixes ((w.insert c).registry.lastChanged key) c' n' _
      rw [hr, handler_set_ne _ _ hi, hh]
      exact hj

end

variable {reg : CoordinatorRegistry} {stale : List ConsumerId}

section

variable (h : ServiceInv key w)
include h

/-- A membership change that no other busy handler sees: the sessions it leaves with the wrong
shards are those that it reports as changed. -/
theorem change (hb : (reg.entry key).Balanced)
    (hh : ¬ (w.handler i).Busy) (ha : ∀ j, j ≠ i → ¬ (w.handler j).Busy)
    (ho : ∀ c n, w.sessions.lookup c = some n → c ∉ reg.lastChanged key →
      reg.own key c = w.registry.own key c) :
    ServiceInv key ({ w with registry := reg }.set i (.rebalance .start stale))  where
  balanced := hb
  current := (forall_update_iff _ _).mpr
    ⟨trivial, fun j hj => current_of_not_busy _ (ha j hj)⟩
  follows c n hlk hn := by
    refine ⟨i, ?_⟩
    rw [handler_set_self]
    show c ∈ reg.lastChanged key
    by_contra hc
    have hn' : ¬ w.Covered key c n := by
      intro hv
      apply hn
      show w.forward c n = forwardFor (reg.own key c)
      rw [ho c n hlk hc]
      exact hv
    obtain ⟨j, hj⟩ := h.follows c n hlk hn'
    by_cases hi : j = i
    · subst hi
      exact not_fixes_of_not_busy hh hj
    · exact not_fixes_of_not_busy (ha j hi) hj

theorem unchanged (he : reg.entry key = w.registry.entry key) (hh : ¬ (w.handler i).Busy) :
    ServiceInv key ({ w with registry := reg }.set i (.rebalance .start stale)) := by
  have ho : reg.own key = w.registry.own key := by
    funext c
    unfold own
    rw [he]
  have hl : reg.lastChanged key = w.registry.lastChanged key := by
    rw [reg.lastChanged_eq, w.registry.lastChanged_eq, he]
  have ht : ∀ {h : Handler}, h.Current w.registry key → h.Current reg key := by
    intro h hc
    unfold Current at hc ⊢
    rw [ho, hl]
    exact hc
  have hr : ServiceInv key { w with registry := reg } := by
    refine ⟨?_, fun j => ht (h.current j), ?_⟩
    · show (reg.entry key).Balanced
      rw [he]
      exact h.balanced
    · intro c n hk hn
      show ∃ j, (w.handler j).Fixes (reg.lastChanged key) c n
      rw [hl]
      refine h.follows c n hk fun hv => hn ?_
      show w.forward c n = forwardFor (reg.own key c)
      rw [ho]
      exact hv
  exact hr.handle rfl (fun _ => trivial) fun c n _ hx =>
    absurd hx (not_fixes_of_not_busy hh)

theorem join {r : JoinResult} (hi : w.handler i = .idle)
    (hj : w.registry.join key c = some (reg, r)) (hok : (ServiceEvent.join i c).Serial key w) :
    ServiceInv key ({ w with registry := reg }.set i (.rebalance .start [])) := by
  obtain ⟨⟨g, r'⟩, hg, heq⟩ := map_eq_some_iff.mp hj
  cases heq
  have hn : ¬ (w.handler i).Busy := by
    rw [hi]
    exact id
  by_cases hm : c ∈ (w.registry.entry key).members
  · refine h.unchanged ?_ hn
    rw [entry_setGroup]
    rcases GroupState.join_cases hg with ⟨-, rfl⟩ | ⟨hl, -⟩ | ⟨he, -⟩
    · rfl
    · simp [hl] at hm
    · exact absurd hm he
  · have ha : (w.registry.entry key).apply (.join c) = some g := by
      simp [GroupState.apply, hg]
    refine h.change ?_ hn (hok hm) ?_
    · rw [entry_setGroup]
      exact (h.balanced.apply ha).1
    · intro c' _ _ hc'
      rw [lastChanged_setGroup] at hc'
      unfold own
      rw [entry_setGroup]
      exact h.balanced.own_join hg hc'

theorem leave {present : Bool} (hn : ¬ (w.handler i).Busy)
    (hv : w.registry.leave key c = some (reg, present))
    (hok : c ∈ (w.registry.entry key).members →
      (∀ j, j ≠ i → ¬ (w.handler j).Busy) ∧ c ∉ w.sessions) :
    ServiceInv key ({ w with registry := reg }.set i (.rebalance .start stale)) := by
  obtain ⟨hb, hs, ho⟩ := leave_spec h.balanced hv
  by_cases hm : c ∈ (w.registry.entry key).members
  · obtain ⟨ha, hc⟩ := hok hm
    refine h.change hb hn ha ?_
    intro c' n hl hc'
    refine ho c' ?_ hc'
    rintro rfl
    rw [lookup_eq_none.mpr hc] at hl
    cases hl
  · exact h.unchanged (hs hm) hn

theorem step {ev : ServiceEvent} (hok : ev.Serial key w)
    (ht : ServiceTrans key w ev w') : ServiceInv key w' := by
  cases ht with
  | join hi hj => exact h.join hi hj hok
  | leave hi hv =>
    refine h.leave ?_ hv hok
    rw [hi]
    exact id
  | consume hi hn _ hs hne =>
    rw [shards_groupSnapshot hn] at hs
    split_ifs at hs
    exact h.handle hi (fun _ => ⟨some.inj hs, hne⟩) nofun
  | insert hh => exact h.insert hh
  | spawn hh =>
    refine h.setForward hh (fun _ => trivial) (fun hc => .inl ?_) fun c' n' hne hx => absurd hx hne
    rw [hc.1, forwardFor, if_neg hc.2]
  | evictStale hi _ =>
    exact h.handle hi (fun _ => current_of_not_busy _ (not_busy_next _)) nofun
  | evictRemove hh =>
    exact (h.remove _).handle ((congrFun (w.remove_handler _) _).trans hh) (fun _ => trivial) nofun
  | evictLeave hh hv =>
    refine h.leave ?_ hv (hok _ _ hh)
    rw [hh]
    exact id
  | listEmpty hh he =>
    refine h.handle hh (fun _ => current_of_not_busy _ (not_busy_next _)) ?_
    intro c n hk
    rw [he] at hk
    cases hk
  | list hh hl _ =>
    refine h.handle hh (fun _ => trivial) fun c n hk hx => ⟨?_, hx⟩
    exact hl.symm.subset (mem_map.mpr ⟨⟨c, n⟩, mem_lookup_iff.mp hk, rfl⟩)
  | snapshotNone hh hn =>
    refine h.handle hh (fun _ => current_of_not_busy _ (not_busy_next _)) ?_
    intro c n _ hx
    have hnn : w.registry.lastChanged key = ∅ := by
      unfold lastChanged
      rw [map_eq_none_iff.mp hn]
      rfl
    rw [hnn] at hx
    simp [Fixes] at hx
  | snapshot hh hn =>
    refine h.handle hh (fun _ c => ?_) fun _ _ _ => id
    rw [shards_groupSnapshot hn]
    split_ifs with hm
    · rfl
    · exact (h.balanced.own_of_notMem hm).symm
  | changed hh =>
    exact h.handle hh (fun hc => ⟨hc, rfl⟩) fun _ _ _ => id
  | skip hh hsm =>
    refine h.handle hh id fun c' n' _ hx => ⟨?_, hx.2⟩
    refine (mem_cons.mp hx.1).resolve_left ?_
    rintro heq
    cases heq
    exact hsm hx.2
  | @signal i _ c n _ _ _ hh _ =>
    refine h.handle hh (fun hc => ⟨(hc.1 c).symm, hc⟩) ?_
    intro c' n' _ hx
    refine (mem_cons.mp hx.1).imp (fun heq => ?_) fun hm => ⟨hm, hx.2⟩
    cases heq
    exact ⟨rfl, rfl⟩
  | @gone i _ c n _ _ _ hh _ =>
    refine (h.remove c).handle ((congrFun (w.remove_handler c) i).trans hh) id
      fun c' n' hk hx => ⟨?_, hx.2⟩
    refine (mem_cons.mp hx.1).resolve_left fun heq => ?_
    cases heq
    rw [w.lookup_remove] at hk
    cases hk
  | abort hh hne =>
    exact h.setForward hh (fun hc => ⟨⟨hc.1, hne⟩, hc.2⟩)
      (fun _ => .inr (.inl ⟨rfl, rfl⟩)) fun _ _ _ => id
  | abortLast hh =>
    refine h.setForward hh (fun hc => hc.2) (fun hc => .inl ?_)
      fun c' n' hne hx => hx.resolve_left hne
    rw [hc.1]
    rfl
  | resume hh =>
    refine h.setForward hh (fun hc => hc.2) (fun hc => .inl ?_)
      fun c' n' hne hx => hx.resolve_left hne
    rw [hc.1.1, forwardFor, if_neg hc.1.2]
  | finish hh =>
    refine h.handle hh (fun _ => current_of_not_busy _ (not_busy_next _)) ?_
    exact fun c n _ hx => absurd hx.1 not_mem_nil
  | deregister => exact h.remove _

end

theorem reachable {numShards : UInt32}
    (h : ServiceReachable key numShards (fun w ev => ev.Serial key w) w) : ServiceInv key w :=
  Lib.invariant_of_steps h (.new numShards) fun _ _ h ⟨_, hok, ht⟩ => h.step hok ht

end ServiceInv

end

/-- If the membership changes only between the handlers and nobody leaves with an open session,
then at rest every open session forwards the shards of its consumer, and nothing for a consumer
that is no member. -/
theorem sessions_follow_assignments {key : GroupKey} {numShards : UInt32} {w : Service}
    (h : ServiceReachable key numShards (fun w ev => ev.Serial key w) w)
    (hrest : ∀ i, w.handler i = .idle) {c : ConsumerId} {n : ℕ}
    (hopen : w.sessions.lookup c = some n) :
    (w.forward c n).getD [] = (w.registry.entry key).own c ∧
      (c ∉ (w.registry.entry key).members → w.forward c n = none) := by
  have hi := ServiceInv.reachable h
  have hc : w.Covered key c n := by
    by_contra hnot
    obtain ⟨i, hx⟩ := hi.follows c n hopen hnot
    rw [hrest i] at hx
    exact hx
  have hf : w.forward c n = forwardFor ((w.registry.entry key).own c) := hc
  constructor
  · rw [hf]
    unfold forwardFor
    split_ifs with hn
    · exact hn.symm
    · rfl
  · intro hm
    rw [hf, hi.balanced.own_of_notMem hm]
    rfl

/-- A consumer joins, opens its stream and gets the only shard. -/
theorem sessions_follow_assignments_one_consumer :
    ∃ w, ServiceReachable ⟨"n", "s", "g"⟩ 1 (fun w ev => ev.Serial ⟨"n", "s", "g"⟩ w) w ∧
      w.sessions.lookup "c" = some 0 ∧
      (w.forward "c" 0).getD [] = (w.registry.entry ⟨"n", "s", "g"⟩).own "c" := by
  have h₀ : ServiceReachable ⟨"n", "s", "g"⟩ 1 (fun w ev => ev.Serial ⟨"n", "s", "g"⟩ w)
      (.new 1) := .refl
  have hr := h₀.step (.join 0 "c") (fun _ _ _ => id) (.join rfl rfl)
    |>.step (.list 0) trivial (.listEmpty rfl rfl)
    |>.step (.consume 0 "c" 1) trivial (.consume rfl rfl rfl rfl (by decide))
    |>.step (.insert 0) trivial (.insert rfl)
    |>.step (.spawn 0) trivial (.spawn rfl)
  refine ⟨_, hr, rfl, (sessions_follow_assignments hr ?_ rfl).1⟩
  rintro (_ | i) <;> rfl

/-- A consumer that leaves keeps its forward task, since the rebalance does not count it among the
changed; and a stream that is opened while its consumer leaves gets one behind the rebalance. -/
theorem departed_session_forwards :
    (∃ w, ServiceReachable ⟨"n", "s", "g"⟩ 1 (fun _ _ => True) w ∧ (∀ i, w.handler i = .idle) ∧
      w.sessions.lookup "c" = some 0 ∧ "c" ∉ (w.registry.entry ⟨"n", "s", "g"⟩).members ∧
      w.forward "c" 0 = some [0]) ∧
    ∃ w, ServiceReachable ⟨"n", "s", "g"⟩ 1
        (fun w ev => ∀ i, ev = .leave i "c" → "c" ∉ w.sessions) w ∧
      (∀ i, w.handler i = .idle) ∧ w.sessions.lookup "c" = some 0 ∧
      "c" ∉ (w.registry.entry ⟨"n", "s", "g"⟩).members ∧ w.forward "c" 0 = some [0] := by
  constructor
  · have h₀ : ServiceReachable ⟨"n", "s", "g"⟩ 1 (fun _ _ => True) (.new 1) := .refl
    have hr := h₀.step (.join 0 "c") trivial (.join rfl rfl)
      |>.step (.list 0) trivial (.listEmpty rfl rfl)
      |>.step (.consume 0 "c" 1) trivial (.consume rfl rfl rfl rfl (by decide))
      |>.step (.insert 0) trivial (.insert rfl)
      |>.step (.spawn 0) trivial (.spawn rfl)
      |>.step (.leave 0 "c") trivial (.leave rfl rfl)
      |>.step (.list 0) trivial (.list rfl (.refl _) fun h => by cases h)
      |>.step (.snapshot 0) trivial (.snapshot rfl rfl)
      |>.step (.changed 0) trivial (.changed rfl)
      |>.step (.skip 0) trivial (.skip rfl (by decide))
      |>.step (.finish 0) trivial (.finish rfl)
    refine ⟨_, hr, ?_, rfl, by decide, rfl⟩
    rintro (_ | i) <;> rfl
  · have h₀ : ServiceReachable ⟨"n", "s", "g"⟩ 1
        (fun w ev => ∀ i, ev = .leave i "c" → "c" ∉ w.sessions) (.new 1) := .refl
    have hr := h₀.step (.join 0 "c") nofun (.join rfl rfl)
      |>.step (.list 0) nofun (.listEmpty rfl rfl)
      |>.step (.consume 0 "c" 1) nofun (.consume rfl rfl rfl rfl (by decide))
      |>.step (.leave 1 "c") (fun _ _ => by decide) (.leave rfl rfl)
      |>.step (.list 1) nofun (.listEmpty rfl rfl)
      |>.step (.insert 0) nofun (.insert rfl)
      |>.step (.spawn 0) nofun (.spawn rfl)
    refine ⟨_, hr, ?_, rfl, by decide, rfl⟩
    rintro (_ | _ | i) <;> rfl

end LogDb.Broker
