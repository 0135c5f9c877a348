import LogDb.Daemon.Restart

/-!
`batch_append`: the records of a batch are appended one after the other, and the first error ends the
call.
-/

namespace LogDb.Daemon

open Lib Format List Function Engine Service

variable {n : ℕ}

/-- The size checks of the record encoder. -/
def AppendCall.Encodes (call : AppendCall) : Prop :=
  call.metadata.entries.length ≤ maxMetadataCount ∧
    metadataBytes call.metadata.entries ≤ maxMetadataBytes ∧ call.content.length ≤ 2 ^ 32 - 1

def Engine.HasRoom (db : Engine n) (s : Fin n) (k : ℕ) : Prop :=
  ((db.contents s).length + k + 1) * 2 ^ (shardBits n).toNat < 2 ^ 64

def routedTo (calls : List (AppendCall × Except String (Fin n))) (s : Fin n) : ℕ :=
  calls.countP fun c => c.2.toOption = some s

def Engine.TakesAll (db : Engine n) (calls : List (AppendCall × Except String (Fin n))) :
    Prop :=
  (∀ c ∈ calls, c.1.Encodes ∧ ∃ s, c.2 = .ok s) ∧ ∀ s, db.HasRoom s (routedTo calls s)

/-- A call's record is in the log, behind what was there before, under the id and the number that
were returned. -/
def AppendCall.Appended (ids : UInt32 × UInt64) (db db' : Engine n) (call : AppendCall)
    (result : AppendResult) : Prop :=
  ∃ s i content, (db.contents s).length ≤ i ∧ (db'.contents s)[i]? = some content ∧
    encodeRecord ((call.request ids).envelope result.streamSeq) = .ok content ∧
    ((call.request ids).envelope result.streamSeq).seq.toNat = result.streamSeq ∧
    gidOf s i = result.gid

/-- An error leaves the log, the next number and the usage of the stream as they were. Without an
error all records are in the log, under ascending numbers. -/
def Service.AllOrNothing (names : Names) (ns stream : String) (svc : Service n)
    (calls : List (AppendCall × Except String (Fin n))) :
    Except ServiceError (List AppendResult) × Service n → Prop
  | (.error _, svc') => svc'.storage.db.contents = svc.storage.db.contents ∧
    ∀ ids, names.resolve ns stream = .ok ids →
      svc'.storage.nextSeqs.next ids.2 = svc.storage.nextSeqs.next ids.2 ∧
      svc'.quota.usage ids.1 ids.2 = svc.quota.usage ids.1 ids.2
  | (.ok results, svc') => (results.map AppendResult.streamSeq).Pairwise (· < ·) ∧
    results.length = calls.length ∧ ∀ ids, names.resolve ns stream = .ok ids →
      List.Forall₂ (fun c r => c.1.Appended ids svc.storage.db svc'.storage.db r) calls results

section

variable {n : ℕ} {ids : UInt32 × UInt64}

theorem exists_encodeRecord_iff (call : AppendCall) (ids : UInt32 × UInt64) (seq : ℕ) :
    (∃ content, encodeRecord ((call.request ids).envelope seq) = .ok content) ↔ call.Encodes := by
  constructor
  · rintro ⟨content, he⟩
    obtain ⟨hc, hb, hl, -⟩ := encodeRecord_eq_ok.mp he
    exact ⟨hc, hb, hl⟩
  · rintro ⟨hc, hb, hl⟩
    exact ⟨_, encodeRecord_eq_ok.mpr ⟨hc, hb, hl, rfl⟩⟩

theorem Engine.exists_append_iff (db : Engine n) (s : Fin n) (content : Bytes) :
    (∃ db', db.append s content = some db') ↔ db.HasRoom s 1 := by
  unfold append HasRoom
  constructor
  · rintro ⟨db', h⟩
    by_contra hr
    rw [dif_neg hr] at h
    cases h
  · intro hr
    exact ⟨_, dif_pos hr⟩

/-- One record: it is stored and counted, or only its number is gone. -/
theorem Service.appendRecord_cases (svc : Service n) (ids : UInt32 × UInt64) (call : AppendCall)
    (route : Except String (Fin n)) :
    (¬ (call.Encodes ∧ ∃ s, route = .ok s ∧ svc.storage.db.HasRoom s 1) ∧
      ∃ e, svc.appendRecord ids call route =
        (.error e, { svc with storage := (svc.storage.allocate ids.2).2 })) ∨
    ∃ s content db, route = .ok s ∧ call.Encodes ∧
      encodeRecord ((call.request ids).envelope (svc.storage.nextSeqs.next ids.2)) = .ok content ∧
      svc.storage.db.append s content = some db ∧
      svc.appendRecord ids call route =
        (.ok ⟨gidOf s (svc.storage.db.contents s).length, svc.storage.nextSeqs.next ids.2⟩,
          { svc with
            storage := { (svc.storage.allocate ids.2).2 with db }.storeMapping ids.2
              (svc.storage.nextSeqs.next ids.2) (gidOf s (svc.storage.db.contents s).length)
            quota := svc.quota.add ids.1 ids.2 call.content.length }) := by
  have hec := exists_encodeRecord_iff call ids (svc.storage.nextSeqs.next ids.2)
  unfold appendRecord Storage.append
  simp only [Storage.allocate]
  cases he : encodeRecord ((call.request ids).envelope
    (svc.storage.nextSeqs.next (call.request ids).streamId)) with
  | error e =>
    refine .inl ⟨?_, .internal (.record e), rfl⟩
    rintro ⟨hc, -⟩
    obtain ⟨content, hct⟩ := hec.mpr hc
    cases he.symm.trans hct
  | ok content =>
    have hc := hec.mp ⟨content, he⟩
    cases route with
    | error e =>
      refine .inl ⟨?_, .internal (.logDb s!"append: {e}"), rfl⟩
      rintro ⟨-, s, hs, -⟩
      cases hs
    | ok s =>
      cases ha : svc.storage.db.append s content with
      | none =>
        refine .inl ⟨?_, .internal (.logDb "append: SequenceExhausted"), by simp only [ha]; rfl⟩
        rintro ⟨-, t, ht, hr⟩
        cases ht
        obtain ⟨db, hd⟩ := (svc.storage.db.exists_append_iff s content).mpr hr
        cases ha.symm.trans hd
      | some db =>
        exact .inr ⟨s, content, db, rfl, hc, he, ha, by simp only [ha]; rfl⟩

variable {calls : List (AppendCall × Except String (Fin n))} {call : AppendCall}

theorem Engine.takesAll_cons {db db' : Engine n} {s : Fin n} {content : Bytes}
    (hc : call.Encodes) (ha : db.append s content = some db') :
    db.TakesAll ((call, .ok s) :: calls) ↔ db'.TakesAll calls := by
  have hs := (append_eq_some ha).1
  have hr : ∀ t, (db.contents t).length + routedTo ((call, .ok s) :: calls) t =
      (db'.contents t).length + routedTo calls t := by
    intro t
    unfold routedTo
    rw [countP_cons, hs]
    by_cases ht : t = s
    · subst ht
      rw [update_self]
      simp [Except.toOption]
      omega
    · rw [update_of_ne ht]
      simp [Except.toOption, Ne.symm ht]
  unfold TakesAll HasRoom
  simp only [hr, forall_mem_cons]
  constructor
  · rintro ⟨⟨-, hrt⟩, hm⟩
    exact ⟨hrt, hm⟩
  · rintro ⟨hrt, hm⟩
    exact ⟨⟨⟨hc, s, rfl⟩, hrt⟩, hm⟩

theorem Engine.TakesAll.head {db : Engine n} {route : Except String (Fin n)}
    (h : db.TakesAll ((call, route) :: calls)) :
    call.Encodes ∧ ∃ s, route = .ok s ∧ db.HasRoom s 1 := by
  obtain ⟨hc, s, hs⟩ := h.1 _ mem_cons_self
  refine ⟨hc, s, hs, ?_⟩
  have hm := h.2 s
  have hr : 1 ≤ routedTo ((call, route) :: calls) s := by
    unfold routedTo
    rw [countP_cons, if_pos (by rw [show route = .ok s from hs]; simp [Except.toOption])]
    omega
  unfold HasRoom at hm ⊢
  exact (Nat.mul_le_mul_right _ (by omega)).trans_lt hm

/-- The whole loop. A batch that is not taken ends with an error, behind at least one number that is
gone. -/
theorem Service.appendAll_cases (calls : List (AppendCall × Except String (Fin n)))
    (svc : Service n) (done : List AppendResult)
    (hm : svc.storage.nextSeqs.next ids.2 + calls.length ≤ 2 ^ 64) :
    (svc.storage.db.TakesAll calls ∧ ∃ results svc',
      appendAll ids svc calls done = (.ok (done ++ results), svc') ∧
      (∀ s, svc.storage.db.contents s <+: svc'.storage.db.contents s) ∧
      List.Forall₂ (fun c r => c.1.Appended ids svc.storage.db svc'.storage.db r) calls results ∧
      results.map AppendResult.streamSeq =
        List.range' (svc.storage.nextSeqs.next ids.2) calls.length) ∨
    (¬ svc.storage.db.TakesAll calls ∧ ∃ e svc', appendAll ids svc calls done = (.error e, svc') ∧
      svc.storage.nextSeqs.next ids.2 < svc'.storage.nextSeqs.next ids.2) := by
  induction calls generalizing svc done with
  | nil =>
    refine .inl ⟨⟨fun c hc => absurd hc not_mem_nil, fun s => svc.storage.db.room s⟩, [], svc,
      ?_, fun s => prefix_refl _, .nil, rfl⟩
    rw [append_nil]
    rfl
  | cons c calls ih =>
    obtain ⟨call, route⟩ := c
    rw [length_cons] at hm
    unfold appendAll
    rcases svc.appendRecord_cases ids call route with ⟨hn, e, hr⟩ |
      ⟨s, content, db, rfl, hcl, he, hp, hr⟩
    · refine .inr ⟨fun ht => hn ht.head, e, _, by rw [hr], ?_⟩
      rw [Storage.Written.next_allocate, if_pos rfl]
      exact lt_add_one _
    · rw [hr, takesAll_cons hcl hp]
      set svc₁ : Service n := { svc with
        storage := { (svc.storage.allocate ids.2).2 with db }.storeMapping ids.2
          (svc.storage.nextSeqs.next ids.2) (gidOf s (svc.storage.db.contents s).length)
        quota := svc.quota.add ids.1 ids.2 call.content.length } with hs₁
      have hx : svc₁.storage.nextSeqs.next ids.2 = svc.storage.nextSeqs.next ids.2 + 1 := by
        rw [show svc₁.storage.nextSeqs = (svc.storage.allocate ids.2).2.nextSeqs from rfl,
          Storage.Written.next_allocate, if_pos rfl]
      have hcs : svc₁.storage.db.contents =
          update svc.storage.db.contents s (svc.storage.db.contents s ++ [content]) :=
        (append_eq_some hp).1
      rcases ih svc₁ (done ++ [⟨gidOf s (svc.storage.db.contents s).length,
        svc.storage.nextSeqs.next ids.2⟩]) (by omega) with ⟨ht, results, svc', ha, hg,
        happended, hss⟩ | ⟨hn, e, svc', ha, hlt⟩
      · have hf : ∀ t, svc.storage.db.contents t <+: svc₁.storage.db.contents t := by
          intro t
          rw [hcs]
          by_cases hts : t = s
          · rw [hts, update_self]
            exact prefix_append _ _
          · simp only [update_of_ne hts, prefix_refl]
        have hs : (svc'.storage.db.contents s)[(svc.storage.db.contents s).length]? =
            some content := by
          obtain ⟨later, hl⟩ := hg s
          rw [hcs, update_self] at hl
          rw [← hl]
          simp
        refine .inl ⟨ht, ⟨gidOf s (svc.storage.db.contents s).length,
          svc.storage.nextSeqs.next ids.2⟩ :: results, svc', ?_,
          fun t => (hf t).trans (hg t), ?_, ?_⟩
        · rw [append_cons]
          exact ha
        · refine .cons ⟨s, _, content, le_rfl, hs, he, ?_, rfl⟩ ?_
          · exact UInt64.toNat_ofNat_of_lt' (show svc.storage.nextSeqs.next ids.2 < 2 ^ 64 by omega)
          · refine happended.imp ?_
            rintro c r ⟨t, i, content', hi, hrt⟩
            exact ⟨t, i, content', (hf t).length_le.trans hi, hrt⟩
        · rw [map_cons, hss, hx, length_cons, range'_succ]
      · exact .inr ⟨hn, e, svc', ha, by omega⟩

theorem Service.batchAppend_eq (names : Names) (quotas : List StreamQuota) (svc : Service n)
    {ns stream : String} (hne : calls ≠ []) (hm : ∀ c ∈ calls, c.1.ns = ns ∧ c.1.stream = stream) :
    svc.batchAppend names quotas calls = match names.resolve ns stream with
      | .error e => (.error (.invalidArgument s!"invalid namespace/stream: {e}"), svc)
      | .ok ids =>
        match checkQuota quotas svc.quota ns stream ids calls.length
          (calls.map fun c => c.1.content.length).sum with
        | .error e => (.error (.resourceExhausted e), svc)
        | .ok () => appendAll ids svc calls [] := by
  cases calls with
  | nil => exact absurd rfl hne
  | cons first rest =>
    obtain ⟨call, route⟩ := first
    obtain ⟨rfl, rfl⟩ := hm _ mem_cons_self
    have ha : rest.any (fun c => c.1.ns != call.ns || c.1.stream != call.stream) = false := by
      rw [any_eq_false]
      intro c hc
      obtain ⟨hn, hs⟩ := hm c (mem_cons_of_mem _ hc)
      simp [hn, hs]
    unfold batchAppend
    simp only [ha]
    rfl

end

/-- A batch for one stream is all or nothing if and only if it is rejected before its first record is
appended, or all of its records can be encoded, routed and stored. -/
theorem batch_all_or_nothing_iff {n : ℕ} (names : Names) (quotas : List StreamQuota)
    {svc : Service n} {ns stream : String} {calls : List (AppendCall × Except String (Fin n))}
    (hsame : ∀ c ∈ calls, c.1.ns = ns ∧ c.1.stream = stream) (hroom : svc.SeqRoom calls.length) :
    svc.AllOrNothing names ns stream calls (svc.batchAppend names quotas calls) ↔
      ∀ ids, names.resolve ns stream = .ok ids →
        checkQuota quotas svc.quota ns stream ids calls.length
          (calls.map fun c => c.1.content.length).sum = .ok () →
        svc.storage.db.TakesAll calls := by
  by_cases hne : calls = []
  · subst hne
    constructor
    · intro _ _ _ _
      exact ⟨fun c hc => absurd hc not_mem_nil, svc.storage.db.room⟩
    · intro _
      exact ⟨.nil, rfl, fun _ _ => .nil⟩
  rw [svc.batchAppend_eq names quotas hne hsame]
  cases hi : names.resolve ns stream with
  | error e =>
    constructor
    · intro _ ids h
      cases h
    · intro _
      refine ⟨rfl, fun ids h => ?_⟩
      cases hi.symm.trans h
  | ok ids =>
    simp only [Except.ok.injEq, forall_eq']
    cases hq : checkQuota quotas svc.quota ns stream ids calls.length
      (calls.map fun c => c.1.content.length).sum with
    | error e =>
      constructor
      · intro _ h
        cases h
      · intro _
        exact ⟨rfl, fun _ _ => ⟨rfl, rfl⟩⟩
    | ok _ =>
      rcases appendAll_cases calls svc [] (hroom ids.2) with ⟨ht, results, svc', ha, -,
        hp, hs⟩ | ⟨hn, e, svc', ha, hlt⟩
      · refine ⟨fun _ _ => ht, fun _ => ?_⟩
        rw [ha, nil_append]
        refine ⟨?_, hp.length_eq.symm, fun ids' h => ?_⟩
        · rw [hs]
          exact pairwise_lt_range'
        · cases hi.symm.trans h
          exact hp
      · rw [ha]
        constructor
        · rintro ⟨-, hsame⟩
          exact absurd (hsame ids hi).1 hlt.ne'
        · intro ht
          exact absurd (ht rfl) hn

theorem batch_all_or_nothing_two_records :
    Service.AllOrNothing oneStream "n" "s" (Service.start (Engine.empty (by decide)))
      [(plainCall, .ok (0 : Fin 1)), (plainCall, .ok 0)]
      (batchAppend oneStream [⟨"n", "s", some 2, none⟩]
        (Service.start (Engine.empty (by decide)))
        [(plainCall, .ok 0), (plainCall, .ok 0)]) := by
  have he : plainCall.Encodes := ⟨by decide, by decide, by decide⟩
  have ht : Engine.TakesAll (empty (by decide))
      [(plainCall, .ok (0 : Fin 1)), (plainCall, .ok 0)] := by
    constructor
    · intro c hc
      obtain rfl | rfl := mem_pair.mp hc
      · exact ⟨he, 0, rfl⟩
      · exact ⟨he, 0, rfl⟩
    · intro s
      rw [Fin.fin_one_eq_zero s]
      show (0 + 2 + 1) * 2 ^ 0 < 2 ^ 64
      decide
  refine (batch_all_or_nothing_iff oneStream _ ?_ ?_).mpr fun _ _ _ => ?_
  · intro c hc
    obtain rfl | rfl := mem_pair.mp hc
    · exact ⟨rfl, rfl⟩
    · exact ⟨rfl, rfl⟩
  · rw [start_empty]
    exact fun stream => (show 1 + 2 ≤ 2 ^ 64 by decide)
  · rw [start_empty]
    exact ht

/-- The second of two records is refused by the database. -/
def brokenBatch : List (AppendCall × Except String (Fin 1)) :=
  [(plainCall, .ok 0), (plainCall, .error "ShuttingDown")]

def afterBrokenBatch : Except ServiceError (List AppendResult) × Service 1 :=
  (Service.start (Engine.empty one_le_256)).batchAppend oneStream [] brokenBatch

/-- The call fails; the first record stays in the log and is counted, and two numbers are gone. -/
theorem batch_half_done : afterBrokenBatch.1 = .error (.internal (.logDb "append: ShuttingDown")) ∧
      (afterBrokenBatch.2.storage.db.contents 0).length = 1 ∧
      afterBrokenBatch.2.storage.nextSeqs.next 1 = 3 ∧
      afterBrokenBatch.2.quota.usage 1 1 = ⟨1, 0⟩ ∧
      ¬ Service.AllOrNothing oneStream "n" "s" (Service.start (Engine.empty (by decide))) brokenBatch
        afterBrokenBatch := by
  refine ⟨rfl, rfl, rfl, rfl, ?_⟩
  rintro ⟨-, hs⟩
  have hn := (hs (1, 1) rfl).1
  cases hn

end LogDb.Daemon
