import LogDb.Daemon.Restart

/-!
Append calls that run at the same time: each checks the quota, appends its records and counts every
one after it was appended. `append` is `batch_append` with one record.
-/

namespace LogDb.Daemon

open Lib Format List Function Option Service

variable {quotas : List StreamQuota} {n : ℕ}

def StreamQuota.Allows (q : StreamQuota) (u : Usage) : Prop :=
  (∀ max, q.maxRecords = some max → u.records ≤ max) ∧ ∀ max, q.maxBytes = some max → u.bytes ≤ max

def Usage.plusAll (u : Usage) (calls : List (AppendCall × Except String (Fin n))) : Usage :=
  ⟨u.records + calls.length, u.bytes + (calls.map fun c => c.1.content.length).sum⟩

/-- What the live records of a stream add up to in the log. -/
def Service.liveUsage (svc : Service n) (ids : UInt32 × UInt64) : Usage :=
  totalUsage (svc.storage.db.allRecords.filter (countsFor svc.tombstones.isLive ids.1 ids.2))

inductive QuotaPhase (n : ℕ) where
  | idle
  | appending (ids : UInt32 × UInt64) (rest : List (AppendCall × Except String (Fin n)))
  | adding (ids : UInt32 × UInt64) (bytes : ℕ) (rest : List (AppendCall × Except String (Fin n)))

namespace QuotaPhase

variable {n : ℕ}

def target : QuotaPhase n → Option (UInt32 × UInt64)
  | .idle => none
  | .appending ids _ => some ids
  | .adding ids _ _ => some ids

def rest : QuotaPhase n → List (AppendCall × Except String (Fin n))
  | .idle => []
  | .appending _ rest => rest
  | .adding _ _ rest => rest

/-- The usage with the record that was appended and not yet counted. -/
def counted (u : Usage) : QuotaPhase n → Usage
  | .adding _ bytes _ => u.plus bytes
  | _ => u

end QuotaPhase

structure QuotaState (n : ℕ) where
  svc : Service n
  calls : ℕ → QuotaPhase n

open QuotaState

def QuotaState.setCall (st : QuotaState n) (i : ℕ) (phase : QuotaPhase n) :
    ℕ → QuotaPhase n :=
  Function.update st.calls i phase

inductive QuotaEvent (n : ℕ) where
  | check (i : ℕ) (ns stream : String) (batch : List (AppendCall × Except String (Fin n)))
  | append (i : ℕ)
  | add (i : ℕ)
  | finish (i : ℕ)

inductive QuotaTrans {n : ℕ} (names : Names) (quotas : List StreamQuota) :
    QuotaState n → QuotaEvent n → QuotaState n → Prop
  | check {st i ns stream ids batch} (hcall : st.calls i = .idle)
    (hsame : ∀ c ∈ batch, c.1.ns = ns ∧ c.1.stream = stream)
    (hids : names.resolve ns stream = .ok ids)
    (hquota : checkQuota quotas st.svc.quota ns stream ids batch.length
      (batch.map fun c => c.1.content.length).sum = .ok ()) :
    QuotaTrans names quotas st (.check i ns stream batch)
      { st with calls := st.setCall i (.appending ids batch) }
  | append {st i ids call route rest result storage}
    (hcall : st.calls i = .appending ids ((call, route) :: rest))
    (happend : st.svc.storage.append (call.request ids) route = (.ok result, storage)) :
    QuotaTrans names quotas st (.append i)
      ⟨{ st.svc with storage }, st.setCall i (.adding ids call.content.length rest)⟩
  | appendError {st i ids call route rest e storage}
    (hcall : st.calls i = .appending ids ((call, route) :: rest))
    (happend : st.svc.storage.append (call.request ids) route = (.error e, storage)) :
    QuotaTrans names quotas st (.append i) ⟨{ st.svc with storage }, st.setCall i .idle⟩
  | add {st i ids bytes rest} (hcall : st.calls i = .adding ids bytes rest) :
    QuotaTrans names quotas st (.add i)
      ⟨{ st.svc with quota := st.svc.quota.add ids.1 ids.2 bytes },
        st.setCall i (.appending ids rest)⟩
  | finish {st i ids} (hcall : st.calls i = .appending ids []) :
    QuotaTrans names quotas st (.finish i) { st with calls := st.setCall i .idle }

/-- A call checks the quota of a stream while no other call is under way on it. -/
def QuotaEvent.Alone (names : Names) (st : QuotaState n) : QuotaEvent n → Prop
  | .check _ ns stream batch => (∀ c ∈ batch, c.1.Plain) ∧
    ∀ ids, names.resolve ns stream = .ok ids → ∀ j, (st.calls j).target ≠ some ids
  | .append _ => st.svc.SeqRoom 1
  | _ => True

def QuotaReachable (names : Names) (quotas : List StreamQuota)
    (ok : QuotaState n → QuotaEvent n → Prop) (svc : Service n) (st : QuotaState n) : Prop :=
  Relation.ReflTransGen (fun a b => ∃ ev, ok a ev ∧ QuotaTrans names quotas a ev b)
    ⟨svc, fun _ => .idle⟩ st

/-! ## The check -/

theorem checkQuota_eq_ok {q : QuotaTracker} {ns stream : String} {ids : UInt32 × UInt64}
    {records bytes : ℕ} (h : checkQuota quotas q ns stream ids records bytes = .ok ())
    {quota : StreamQuota} (hm : quota ∈ quotas) (hn : quota.ns = ns) (hs : quota.stream = stream) :
    quota.Allows ⟨(q.usage ids.1 ids.2).records + records, (q.usage ids.1 ids.2).bytes + bytes⟩ := by
  have hq := forM_eq_ok_iff.mp h quota hm
  dsimp only at hq
  rw [if_pos ⟨hn, hs⟩] at hq
  constructor
  · intro max hx
    by_contra hgt
    rw [hx] at hq
    simp only [if_pos (not_le.mp hgt)] at hq
    cases hq
  · intro max hx
    by_contra hgt
    rw [hx] at hq
    simp only [if_pos (not_le.mp hgt)] at hq
    split at hq
    · split_ifs at hq
      cases hq
    · cases hq

theorem StreamQuota.Allows.mono {q : StreamQuota} {u v : Usage} (h : q.Allows v)
    (hr : u.records ≤ v.records) (hb : u.bytes ≤ v.bytes) : q.Allows u :=
  ⟨fun max hx => hr.trans (h.1 max hx), fun max hx => hb.trans (h.2 max hx)⟩

/-! ## Calls that do not overlap -/

structure QuotaState.Free {n : ℕ} (names : Names) (quotas : List StreamQuota) (st : QuotaState n)
    (ids : UInt32 × UInt64) : Prop where
  none : ∀ j, (st.calls j).target ≠ some ids
  counted : st.svc.liveUsage ids = st.svc.quota.usage ids.1 ids.2
  within : ∀ q ∈ quotas, names.resolve q.ns q.stream = .ok ids → q.Allows (st.svc.liveUsage ids)

/-- One call is under way on the stream, and what it has still to append fits. -/
structure QuotaState.Busy {n : ℕ} (names : Names) (quotas : List StreamQuota) (st : QuotaState n)
    (ids : UInt32 × UInt64) (i : ℕ) (phase : QuotaPhase n) : Prop where
  call : st.calls i = phase
  target : phase.target = some ids
  only : ∀ j, (st.calls j).target = some ids → j = i
  ns : names.nsOf ids.2 = ids.1
  plain : ∀ c ∈ phase.rest, c.1.Plain
  counted : st.svc.liveUsage ids = phase.counted (st.svc.quota.usage ids.1 ids.2)
  fits : ∀ q ∈ quotas, names.resolve q.ns q.stream = .ok ids →
    q.Allows ((st.svc.liveUsage ids).plusAll phase.rest)

def QuotaState.StreamInv (names : Names) (quotas : List StreamQuota) (st : QuotaState n)
    (ids : UInt32 × UInt64) : Prop :=
  st.Free names quotas ids ∨ ∃ i phase, st.Busy names quotas ids i phase

structure QuotaInv {n : ℕ} (names : Names) (quotas : List StreamQuota) (st : QuotaState n) :
    Prop where
  tracked : ∃ quota, Service.Tracked names.nsOf { st.svc with quota }
  streams : ∀ ids, st.StreamInv names quotas ids

section

variable {n : ℕ} {names : Names} {quotas : List StreamQuota} {st : QuotaState n}
  {ids : UInt32 × UInt64} {i : ℕ} {phase phase' : QuotaPhase n} {svc : Service n}

/-- The live records after an append, and what a tracker that counts at once would hold. -/
theorem Service.liveUsage_append {call : AppendCall} {route : Except String (Fin n)}
    {result : Except StorageError AppendResult} {storage : Storage n}
    (h : ∃ quota, Service.Tracked names.nsOf { svc with quota }) (hp : call.Plain)
    (hn : names.nsOf ids.2 = ids.1) (hr : svc.SeqRoom 1)
    (ha : svc.storage.append (call.request ids) route = (result, storage)) :
    (∃ quota, Service.Tracked names.nsOf { svc with storage, quota }) ∧
      ∀ ids', liveUsage { svc with storage } ids' =
        if result.isOk ∧ ids' = ids then (svc.liveUsage ids).plus call.content.length
        else svc.liveUsage ids' := by
  obtain ⟨quota, h⟩ := h
  have hs := h.appendRecord route hp hn (hr ids.2)
  have ho : ∀ ids', svc.liveUsage ids' = quota.usage ids'.1 ids'.2 := fun ids' =>
    (h.usage _ _).symm
  unfold appendRecord at hs
  dsimp only at hs
  rw [ha] at hs
  cases result with
  | error e =>
    refine ⟨⟨quota, hs⟩, fun ids' => ?_⟩
    rw [if_neg (by simp [Except.isOk, Except.toBool]), ho]
    exact (hs.usage _ _).symm
  | ok r =>
    refine ⟨⟨_, hs⟩, fun ids' => ?_⟩
    rw [ho, ho]
    refine (hs.usage ids'.1 ids'.2).symm.trans ?_
    rw [QuotaTracker.usage_add]
    simp [Except.isOk, Except.toBool]

theorem QuotaState.only_setCall (h : ∀ j, (st.calls j).target = some ids → j = i) :
    ∀ j, (st.setCall i phase j).target = some ids → j = i := by
  intro j hj
  by_contra hne
  rw [setCall, update_of_ne hne] at hj
  exact hne (h j hj)

namespace QuotaInv

theorem busy (h : QuotaInv names quotas st) (hc : st.calls i = phase)
    (ht : phase.target = some ids) : st.Busy names quotas ids i phase := by
  subst hc
  rcases h.streams ids with hf | ⟨j, _, hb⟩
  · exact absurd ht (hf.none i)
  · obtain rfl := hb.only i ht
    rw [hb.call]
    exact hb

theorem free_of_busy (h : st.Busy names quotas ids i phase)
    (hc : svc.liveUsage ids = svc.quota.usage ids.1 ids.2)
    (hl : svc.liveUsage ids = st.svc.liveUsage ids) :
    Free names quotas ⟨svc, st.setCall i .idle⟩ ids where
  none j hj := by
    obtain rfl := only_setCall h.only j hj
    simp [setCall, QuotaPhase.target] at hj
  counted := hc
  within q hq hi := by
    show q.Allows (svc.liveUsage ids)
    rw [hl]
    exact (h.fits q hq hi).mono (Nat.le_add_right _ _) (Nat.le_add_right _ _)

/-- A step of one call leaves the other streams alone. -/
theorem frame (h : QuotaInv names quotas st) (ho : (st.calls i).target ≠ some ids)
    (hn : phase'.target ≠ some ids) (hl : svc.liveUsage ids = st.svc.liveUsage ids)
    (hu : svc.quota.usage ids.1 ids.2 = st.svc.quota.usage ids.1 ids.2) :
    StreamInv names quotas ⟨svc, st.setCall i phase'⟩ ids := by
  have ht : ∀ j, (st.setCall i phase' j).target = some ids → (st.calls j).target = some ids := by
    intro j hj
    by_cases hi : j = i
    · rw [hi, setCall, update_self] at hj
      exact absurd hj hn
    · rwa [setCall, update_of_ne hi] at hj
  rcases h.streams ids with hf | ⟨j, phase, hb⟩
  · left
    exact ⟨fun j hj => hf.none j (ht j hj), by rw [hl, hu, hf.counted], by rw [hl]; exact hf.within⟩
  · have hi : j ≠ i := fun heq => ho (by rw [← heq, hb.call]; exact hb.target)
    right
    exact ⟨j, phase, (update_of_ne hi _ _).trans hb.call, hb.target,
      fun k hk => hb.only k (ht k hk), hb.ns, hb.plain,
      by rw [hl, hu, hb.counted], by rw [hl]; exact hb.fits⟩

theorem advance (h : QuotaInv names quotas st) (hb : st.Busy names quotas ids i phase)
    (hq : ∃ quota, Service.Tracked names.nsOf { svc with quota })
    (ht : phase'.target = some ids ∨ phase'.target = none)
    (hs : ∀ ids', ids' ≠ ids → svc.liveUsage ids' = st.svc.liveUsage ids' ∧
      svc.quota.usage ids'.1 ids'.2 = st.svc.quota.usage ids'.1 ids'.2)
    (ho : StreamInv names quotas ⟨svc, st.setCall i phase'⟩ ids) :
    QuotaInv names quotas ⟨svc, st.setCall i phase'⟩ := by
  refine ⟨hq, fun ids' => ?_⟩
  by_cases hi : ids' = ids
  · rw [hi]
    exact ho
  · apply h.frame _ _ (hs ids' hi).1 (hs ids' hi).2
    · rw [hb.call, hb.target]
      exact fun heq => hi (some.inj heq).symm
    · rcases ht with ht | ht
      · rw [ht]
        exact fun heq => hi (some.inj heq).symm
      · rw [ht]
        nofun

theorem step (hn : ∀ a b a' b' ids, names.resolve a b = .ok ids → names.resolve a' b' = .ok ids →
      a = a' ∧ b = b')
    (h : QuotaInv names quotas st) {ev : QuotaEvent n} {st' : QuotaState n}
    (hok : ev.Alone names st) (hr : QuotaTrans names quotas st ev st') :
    QuotaInv names quotas st' := by
  cases hr with
  | @check i ns stream ids batch hcl _ hi hquo =>
    obtain ⟨hp, hal⟩ := hok
    have hf : st.Free names quotas ids := by
      rcases h.streams ids with hf | ⟨j, _, hb⟩
      · exact hf
      · exact absurd (hb.call ▸ hb.target) (hal ids hi j)
    refine ⟨h.tracked, fun ids' => ?_⟩
    by_cases heq : ids' = ids
    · subst heq
      refine .inr ⟨i, _, update_self _ _ _, rfl,
        only_setCall fun j hj => absurd hj (hal _ hi j), names.nsOf_eq _ _ _ hi,
        hp, hf.counted, fun q hq hq' => ?_⟩
      obtain ⟨hns, hs⟩ := hn _ _ _ _ _ hq' hi
      show q.Allows ((st.svc.liveUsage ids').plusAll batch)
      rw [hf.counted]
      exact checkQuota_eq_ok hquo hq hns hs
    · refine h.frame ?_ (fun ht => heq (some.inj ht).symm) rfl rfl
      rw [hcl]
      nofun
  | @append i ids call route rest result storage hcl ha =>
    have hb := h.busy hcl rfl
    obtain ⟨hd, hl⟩ := liveUsage_append h.tracked (hb.plain _ mem_cons_self) hb.ns hok ha
    have ho := hl ids
    rw [if_pos ⟨rfl, rfl⟩] at ho
    refine h.advance hb hd (.inl rfl)
      (fun ids' hne => ⟨(hl ids').trans (if_neg fun heq => hne heq.2), rfl⟩)
      (.inr ⟨i, .adding ids call.content.length rest, ?_⟩)
    refine ⟨update_self _ _ _, rfl, only_setCall hb.only, hb.ns,
      fun c hc => hb.plain c (mem_cons_of_mem _ hc), ?_, fun q hq hi => ?_⟩
    · exact ho.trans (congrArg (Usage.plus · _) hb.counted)
    · show q.Allows ((liveUsage _ ids).plusAll rest)
      have hft : q.Allows (Usage.plusAll _ ((call, route) :: rest)) := hb.fits q hq hi
      simp only [Usage.plusAll, length_cons, map_cons, sum_cons] at hft
      simp only [ho, Usage.plusAll, Usage.plus]
      convert hft using 2 <;> omega
  | @appendError i ids call route rest e storage hcl ha =>
    have hb := h.busy hcl rfl
    obtain ⟨hd, hl⟩ := liveUsage_append h.tracked (hb.plain _ mem_cons_self) hb.ns hok ha
    have hm : ∀ ids', liveUsage { st.svc with storage } ids' = st.svc.liveUsage ids' :=
      fun ids' => (hl ids').trans (if_neg fun heq => Bool.false_ne_true heq.1)
    exact h.advance hb hd (.inr rfl) (fun ids' _ => ⟨hm ids', rfl⟩)
      (.inl (free_of_busy hb ((hm ids).trans hb.counted) (hm ids)))
  | @add i ids bytes rest hcl =>
    have hb := h.busy hcl rfl
    refine h.advance hb h.tracked (.inl rfl) (fun ids' hne => ⟨rfl, ?_⟩)
      (.inr ⟨i, .appending ids rest, ?_⟩)
    · exact (QuotaTracker.usage_add ..).trans (if_neg hne)
    · refine ⟨update_self _ _ _, rfl, only_setCall hb.only, hb.ns, hb.plain, ?_, hb.fits⟩
      exact hb.counted.trans ((QuotaTracker.usage_add ..).trans (if_pos rfl)).symm
  | @finish i ids hcl =>
    have hb := h.busy hcl rfl
    exact h.advance hb h.tracked (.inr rfl) (fun _ _ => ⟨rfl, rfl⟩)
      (.inl (free_of_busy hb hb.counted rfl))

end QuotaInv

end

/-- In every run in which a call checks the quota of a stream while no other call is under way on it,
the live records of the stream stay within every quota. -/
theorem quota_never_exceeded {n : ℕ} {names : Names} {quotas : List StreamQuota} {svc : Service n}
    {st : QuotaState n}
    (hinj : ∀ a b a' b' ids, names.resolve a b = .ok ids → names.resolve a' b' = .ok ids →
      a = a' ∧ b = b')
    (htracked : svc.Tracked names.nsOf)
    (hwithin : ∀ q ∈ quotas, ∀ ids, names.resolve q.ns q.stream = .ok ids →
      q.Allows (svc.liveUsage ids))
    (hreach : QuotaReachable names quotas (fun st ev => ev.Alone names st) svc st) :
    ∀ q ∈ quotas, ∀ ids, names.resolve q.ns q.stream = .ok ids → q.Allows (st.svc.liveUsage ids) := by
  have hs : QuotaInv names quotas ⟨svc, fun _ => .idle⟩ :=
    ⟨⟨svc.quota, htracked⟩, fun ids => .inl ⟨fun _ => nofun, (htracked.usage _ _).symm,
      fun q hq hi => hwithin q hq ids hi⟩⟩
  have hn : QuotaInv names quotas st :=
    invariant_of_steps hreach hs fun _ _ h ⟨_, hok, ht⟩ => h.step hinj hok ht
  intro q hq ids hi
  rcases hn.streams ids with hf | ⟨i, phase, hb⟩
  · exact hf.within q hq hi
  · exact (hb.fits q hq hi).mono (Nat.le_add_right _ _) (Nat.le_add_right _ _)

def onlyStream : Names where
  resolve ns stream := if ns = "n" ∧ stream = "s" then .ok (1, 1) else .error ""
  nsOf _ := 1
  nsOf_eq := by
    intro ns stream ids hids
    split_ifs at hids
    cases hids
    rfl

theorem resolve_onlyStream : onlyStream.resolve "n" "s" = .ok (1, 1) := by
  decide

def oneRecordQuota : StreamQuota := ⟨"n", "s", some 1, none⟩

def quotaStart : Service 1 := Service.start (Engine.empty one_le_256)

def onceAppended : Storage 1 := (quotaStart.storage.append (plainCall.request (1, 1)) (.ok 0)).2

theorem quota_never_exceeded_one_record : ∃ st : QuotaState 1, st.svc.liveUsage (1, 1) = ⟨1, 0⟩ ∧
      oneRecordQuota.Allows (st.svc.liveUsage (1, 1)) := by
  have hn : ∀ a b a' b' ids, onlyStream.resolve a b = .ok ids → onlyStream.resolve a' b' = .ok ids →
      a = a' ∧ b = b' := by
    intro a b a' b' ids h h'
    simp only [onlyStream] at h h'
    split_ifs at h h' with hb ha'
    rw [hb.1, hb.2, ha'.1, ha'.2]
    exact ⟨rfl, rfl⟩
  have hw : ∀ q ∈ [oneRecordQuota], ∀ ids, onlyStream.resolve q.ns q.stream = .ok ids →
      q.Allows (quotaStart.liveUsage ids) := by
    intro q hq ids hi
    rw [mem_singleton.mp hq] at hi ⊢
    cases hi
    exact ⟨fun max _ => (show 0 ≤ max from Nat.zero_le max), nofun⟩
  have hc : QuotaReachable onlyStream [oneRecordQuota] (fun st ev => ev.Alone onlyStream st)
      quotaStart ⟨quotaStart, _⟩ :=
    Relation.ReflTransGen.step .refl (.check 0 "n" "s" [(plainCall, .ok 0)])
      ⟨by simpa using plainCall_plain, fun _ _ _ => nofun⟩
      (.check rfl (by simp [plainCall]) resolve_onlyStream rfl)
  have ha := hc.step (.append 0) (seqRoom_start _)
    (.append rfl (show Storage.append _ _ _ = (.ok ⟨0, 1⟩, onceAppended) from rfl))
  exact ⟨_, rfl, quota_never_exceeded hn (Service.Tracked.start _) hw ha _
    mem_cons_self _ resolve_onlyStream⟩

/-- Two calls check the quota before either appends its record: both records are appended, where
one is allowed. -/
theorem quota_exceeded_by_two :
    ∃ st : QuotaState 1, QuotaReachable onlyStream [oneRecordQuota] (fun _ _ => True) quotaStart st ∧
      st.svc.liveUsage (1, 1) = ⟨2, 0⟩ ∧ ¬ oneRecordQuota.Allows (st.svc.liveUsage (1, 1)) := by
  have hc : QuotaReachable onlyStream [oneRecordQuota] (fun _ _ => True) quotaStart
      ⟨quotaStart, _⟩ :=
    Relation.ReflTransGen.step .refl (.check 0 "n" "s" [(plainCall, .ok 0)]) trivial
      (.check rfl (by simp [plainCall]) resolve_onlyStream rfl)
    |>.step (.check 1 "n" "s" [(plainCall, .ok 0)]) trivial
      (.check rfl (by simp [plainCall]) resolve_onlyStream rfl)
  have ha := hc.step (.append 0) trivial
      (.append rfl (show Storage.append _ _ _ = (.ok ⟨0, 1⟩, onceAppended) from rfl))
    |>.step (.append 1) trivial (.append rfl (show Storage.append _ _ _ =
        (.ok ⟨1, 2⟩, (onceAppended.append (plainCall.request (1, 1)) (.ok 0)).2) from rfl))
  exact ⟨_, ha, rfl, fun hs => absurd (hs.1 1 rfl) (by decide)⟩

end LogDb.Daemon
