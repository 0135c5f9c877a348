import LogDb.Daemon.Rebuild
import LogDb.Lib.Transition

/-!
Calls of `Storage::append` that run at the same time. A call takes a number, appends the record to
the log and enters it into the map in three steps.
-/

namespace LogDb.Daemon

open Lib Format Function Option

variable {gid j n seq : ℕ}

inductive AppendPhase where
  | idle
  | allocated (e : Envelope)
  | logged (stream : UInt64) (seq gid : ℕ)

/-- The number that a call has taken and not yet entered into the map. -/
def AppendPhase.key : AppendPhase → Option (UInt64 × ℕ)
  | .idle => none
  | .allocated e => some (e.streamId, e.seq.toNat)
  | .logged stream seq _ => some (stream, seq)

structure Writers (n : ℕ) where
  storage : Storage n
  calls : ℕ → AppendPhase

/-- The committers move the cursors on. -/
structure Engine.Advances {n : ℕ} (db db' : Engine n) : Prop where
  contents : db'.contents = db.contents
  first : db'.first = db.first
  written : ∀ s, db.written s ≤ db'.written s
  committed : ∀ s, db.committed s ≤ db'.committed s
  durable : ∀ s, db.durable s ≤ db'.durable s

/-- The committers have written and synced some records of each shard. -/
def Engine.synced (db : Engine n) (cursors : Fin n → ℕ)
    (hge : ∀ s, db.first s ≤ cursors s) (hle : ∀ s, cursors s ≤ (db.contents s).length) :
    Engine n :=
  { db with
    written := cursors
    committed := cursors
    durable := cursors
    first_le := hge
    written_le := hle
    committed_le := fun _ => le_rfl
    durable_le := fun _ => le_rfl }

theorem Engine.Advances.synced {db : Engine n} {cursors : Fin n → ℕ}
    {hge : ∀ s, db.first s ≤ cursors s} {hle : ∀ s, cursors s ≤ (db.contents s).length}
    (hw : ∀ s, db.written s ≤ cursors s) : db.Advances (db.synced cursors hge hle) :=
  ⟨rfl, rfl, hw, fun s => (db.committed_le s).trans (hw s),
    fun s => ((db.durable_le s).trans (db.committed_le s)).trans (hw s)⟩

inductive WriteEvent (n : ℕ) where
  | allocate (i : ℕ) (req : AppendRequest)
  | fail (i : ℕ)
  | log (i : ℕ) (s : Fin n)
  | map (i : ℕ)
  | progress (db : Engine n)

namespace Writers

variable {n : ℕ} (w : Writers n)

def next (stream : UInt64) : ℕ :=
  w.storage.nextSeqs.next stream

def setCall (i : ℕ) (c : AppendPhase) : ℕ → AppendPhase :=
  update w.calls i c

/-- The record of a number is in the log. -/
def InLog (s : Fin n) (i : ℕ) (stream : UInt64) (seq : ℕ) : Prop :=
  w.storage.db.first s ≤ i ∧
    ∃ content, (w.storage.db.contents s)[i]? = some content ∧ Carries content stream seq

def start (db : Engine n) : Writers n :=
  ⟨Storage.new db, fun _ => .idle⟩

end Writers

inductive WriteTrans {n : ℕ} : Writers n → WriteEvent n → Writers n → Prop
  | allocate {w i req} (hcall : w.calls i = .idle) :
    WriteTrans w (.allocate i req)
      ⟨(w.storage.allocate req.streamId).2,
        w.setCall i (.allocated (req.envelope (w.next req.streamId)))⟩
  /- The record cannot be encoded or the database refuses it. -/
  | fail {w i e} (hcall : w.calls i = .allocated e) :
    WriteTrans w (.fail i) { w with calls := w.setCall i .idle }
  | log {w i e s content db} (hcall : w.calls i = .allocated e)
    (hencode : encodeRecord e = .ok content) (happend : w.storage.db.append s content = some db) :
    WriteTrans w (.log i s)
      ⟨{ w.storage with db },
        w.setCall i (.logged e.streamId e.seq.toNat (gidOf s (w.storage.db.contents s).length))⟩
  | map {w i stream seq gid} (hcall : w.calls i = .logged stream seq gid) :
    WriteTrans w (.map i)
      ⟨w.storage.storeMapping stream seq gid, w.setCall i .idle⟩
  | progress {w db} (hadvances : w.storage.db.Advances db) :
    WriteTrans w (.progress db) { w with storage := { w.storage with db } }

/-- The number that is taken and the one after it fit into 64 bits. -/
def WriteEvent.InRange (w : Writers n) : WriteEvent n → Prop
  | .allocate _ req => w.next req.streamId + 1 < 2 ^ 64
  | _ => True

def WriteReachable (w w' : Writers n) : Prop :=
  Relation.ReflTransGen (fun a b => ∃ ev, WriteEvent.InRange a ev ∧ WriteTrans a ev b) w w'

/-- Numbers of records, of calls and in the map agree. -/
structure WritersInv {n : ℕ} (w : Writers n) : Prop where
  key_lt : ∀ i stream seq, (w.calls i).key = some (stream, seq) → seq < w.next stream
  key_unique : ∀ i j k, (w.calls i).key = some k → (w.calls j).key = some k → i = j
  unmapped : ∀ i stream seq, (w.calls i).key = some (stream, seq) →
    w.storage.seqMap.gidAt stream seq = none
  mapped_lt : ∀ stream seq gid, w.storage.seqMap.gidAt stream seq = some gid →
    seq < w.next stream
  mapped : ∀ stream seq gid, w.storage.seqMap.gidAt stream seq = some gid →
    ∃ s i, w.InLog s i stream seq ∧ gidOf s i = gid
  found : ∀ s i stream seq, w.InLog s i stream seq →
    w.storage.seqMap.gidAt stream seq = some (gidOf s i) ∨
      ∃ c, w.calls c = .logged stream seq (gidOf s i)
  logged : ∀ c stream seq gid, w.calls c = .logged stream seq gid →
    ∃ s i, w.InLog s i stream seq ∧ gidOf s i = gid

section

variable {n : ℕ} {w w' : Writers n}

theorem Writers.key_setCall (w : Writers n) (i j : ℕ) (c : AppendPhase) :
    (w.setCall i c j).key = if j = i then c.key else (w.calls j).key := by
  unfold setCall
  split_ifs with hj
  · rw [hj, update_self]
  · rw [update_of_ne hj]

variable {i : ℕ} {stream : UInt64} {seq : ℕ}

theorem Writers.key_setCall_idle {k : UInt64 × ℕ} :
    (w.setCall i .idle j).key = some k ↔ j ≠ i ∧ (w.calls j).key = some k := by
  rw [key_setCall]
  split_ifs with hj <;> simp [hj, AppendPhase.key]

theorem Writers.setCall_eq_logged {c : AppendPhase} (h : w.setCall i c j = .logged stream seq gid) :
    c = .logged stream seq gid ∨ w.calls j = .logged stream seq gid := by
  rw [setCall, update_apply] at h
  split_ifs at h
  · exact .inl h
  · exact .inr h

theorem Writers.setCall_of_logged (hj : w.calls j = .logged stream seq gid)
    (hi : ∀ stream seq gid, w.calls i ≠ .logged stream seq gid) (c : AppendPhase) :
    w.setCall i c j = .logged stream seq gid := by
  rw [setCall, update_of_ne, hj]
  rintro rfl
  exact hi _ _ _ hj

theorem Writers.inLog_append {calls : ℕ → AppendPhase} {s t : Fin n} {content : Bytes}
    {db : Engine n} (ha : w.storage.db.append s content = some db) :
    Writers.InLog ⟨{ w.storage with db }, calls⟩ t i stream seq ↔ w.InLog t i stream seq ∨
        (t = s ∧ i = (w.storage.db.contents s).length) ∧ Carries content stream seq := by
  have hf := (Engine.append_eq_some ha).2.1
  unfold InLog
  dsimp only
  rw [hf]
  simp only [Engine.getElem?_append ha]
  constructor
  · rintro ⟨hi, content', ho | ⟨hp, rfl⟩, hc⟩
    · exact .inl ⟨hi, content', ho, hc⟩
    · exact .inr ⟨hp, hc⟩
  · rintro (⟨hi, content', ho, hc⟩ | ⟨⟨rfl, rfl⟩, hc⟩)
    · exact ⟨hi, content', .inl ho, hc⟩
    · exact ⟨(w.storage.db.first_le t).trans (w.storage.db.written_le t), content,
        .inr ⟨⟨rfl, rfl⟩, rfl⟩, hc⟩

theorem Writers.inLog_congr {s : Fin n} (hc : w'.storage.db.contents = w.storage.db.contents)
    (hf : w'.storage.db.first = w.storage.db.first) :
    w'.InLog s i stream seq ↔ w.InLog s i stream seq := by
  unfold InLog
  rw [hc, hf]

end

section

variable {n : ℕ} {w : Writers n} {i : ℕ} {req : AppendRequest}

theorem Writers.seq_envelope_next (hok : w.next req.streamId + 1 < 2 ^ 64) :
    (req.envelope (w.next req.streamId)).seq.toNat = w.next req.streamId :=
  UInt64.toNat_ofNat_of_lt' (Nat.lt_of_succ_lt hok)

theorem Writers.setCall_idle (hc : w.calls i = .idle) (a b : AppendPhase) :
    update (update (update w.calls i a) i b) i .idle = w.calls := by
  rw [update_idem, update_idem, ← hc, update_eq_self]

/-- A call that no other step interrupts is `Storage.append`. -/
theorem WriteReachable.append {s : Fin n} {result : AppendResult} {st : Storage n}
    (ha : w.storage.append req (.ok s) = (.ok result, st)) (hc : w.calls i = .idle)
    (hr : w.next req.streamId + 1 < 2 ^ 64) : WriteReachable w ⟨st, w.calls⟩ := by
  rcases w.storage.append_cases req (.ok s) ha with ⟨e, he, -⟩ | ⟨t, content, db, hn, hdb, -, rfl⟩
  · cases he
  · have hd : WriteTrans w (.allocate i req) _ := .allocate hc
    let w₁ : Writers n := ⟨(w.storage.allocate req.streamId).2,
      w.setCall i (.allocated (req.envelope (w.next req.streamId)))⟩
    let w₂ : Writers n := ⟨{ w₁.storage with db }, w₁.setCall i (.logged req.streamId
      (req.envelope (w.next req.streamId)).seq.toNat (gidOf t (w.storage.db.contents t).length))⟩
    have hl : WriteTrans w₁ (.log i t) w₂ := .log (update_self ..) hn hdb
    have hm : WriteTrans w₂ (.map i) _ := .map (update_self ..)
    have hca : w₂.setCall i .idle = w.calls := Writers.setCall_idle hc _ _
    rw [hca, Writers.seq_envelope_next hr] at hm
    exact ((Relation.ReflTransGen.refl.tail ⟨.allocate i req, hr, hd⟩).tail
      ⟨.log i t, trivial, hl⟩).tail ⟨.map i, trivial, hm⟩

end

/-- What one step can do to the numbers, the calls, the map and the log. -/
structure Writers.StepShape {n : ℕ} (w w' : Writers n) : Prop where
  next_le : ∀ stream, w.next stream ≤ w'.next stream
  key : ∀ i stream seq, (w'.calls i).key = some (stream, seq) →
    (w.calls i).key = some (stream, seq) ∨ seq = w.next stream
  gidAt : ∀ stream seq gid, w.storage.seqMap.gidAt stream seq = some gid →
    w'.storage.seqMap.gidAt stream seq = some gid
  inLog : ∀ s i stream seq, w'.InLog s i stream seq →
    w.InLog s i stream seq ∨ ∃ c, (w.calls c).key = some (stream, seq)

namespace WritersInv

variable {n : ℕ} {w w' : Writers n} {ev : WriteEvent n}

theorem next_allocate (w : Writers n) (calls : ℕ → AppendPhase) (stream stream' : UInt64) :
    Writers.next ⟨(w.storage.allocate stream).2, calls⟩ stream' =
      if stream' = stream then w.next stream + 1 else w.next stream' :=
  NextSeqs.next_insert ..

variable {i : ℕ} {e : Envelope} {db : Engine n} {content : Bytes} {stream : UInt64}

theorem carries_of_allocated (he : encodeRecord e = .ok content) (hc : Carries content stream seq) :
    e.streamId = stream ∧ e.seq.toNat = seq := by
  have hi := hc.contentIds_eq
  rw [contentIds_of_encodeRecord he] at hi
  exact Prod.mk.inj (some.inj hi)

section

variable (h : WritersInv w)
include h

theorem shape (hok : ev.InRange w) (ht : WriteTrans w ev w') : w.StepShape w' := by
  cases ht with
  | @allocate i req hcl =>
    have hq := Writers.seq_envelope_next hok
    refine ⟨fun stream => ?_, fun j stream seq hk => ?_, fun _ _ _ hg => hg,
      fun _ _ _ _ hl => .inl hl⟩
    · rw [next_allocate]
      split_ifs with hs
      · rw [hs]
        exact Nat.le_succ _
      · exact le_rfl
    · rw [Writers.key_setCall] at hk
      split_ifs at hk
      · obtain ⟨rfl, rfl⟩ := Prod.mk.inj (some.inj hk)
        exact .inr hq
      · exact .inl hk
  | fail hcl =>
    exact ⟨fun _ => le_rfl, fun _ _ _ hk => .inl (Writers.key_setCall_idle.mp hk).2,
      fun _ _ _ hg => hg, fun _ _ _ _ hl => .inl hl⟩
  | @log i e s content db hcl he ha =>
    refine ⟨fun _ => le_rfl, fun j stream seq hk => ?_, fun _ _ _ hg => hg,
      fun t j stream seq hl => ?_⟩
    · rw [Writers.key_setCall] at hk
      split_ifs at hk with hj
      · left
        rw [hj, hcl]
        exact hk
      · exact .inl hk
    · rcases (Writers.inLog_append ha).mp hl with ho | ⟨-, hc⟩
      · exact .inl ho
      · obtain ⟨rfl, rfl⟩ := carries_of_allocated he hc
        exact .inr ⟨i, by rw [hcl]; rfl⟩
  | @map i stream seq gid hcl =>
    refine ⟨fun _ => le_rfl, fun _ _ _ hk => .inl (Writers.key_setCall_idle.mp hk).2,
      fun stream' seq' gid' hg => ?_, fun _ _ _ _ hl => .inl hl⟩
    show (w.storage.seqMap.store stream seq gid).gidAt stream' seq' = some gid'
    rw [SeqMap.gidAt_store]
    split_ifs with hk
    · -- a call's number is not in the map yet
      have hn := h.unmapped i stream seq (by rw [hcl]; rfl)
      rw [hk.1, hk.2, hn] at hg
      cases hg
    · exact hg
  | progress hd =>
    exact ⟨fun _ => le_rfl, fun _ _ _ hk => .inl hk, fun _ _ _ hg => hg,
      fun _ _ _ _ hl => .inl ((Writers.inLog_congr hd.contents hd.first).mp hl)⟩

theorem allocate {req : AppendRequest} (hok : w.next req.streamId + 1 < 2 ^ 64)
    (hcl : w.calls i = .idle) :
    WritersInv ⟨(w.storage.allocate req.streamId).2,
      w.setCall i (.allocated (req.envelope (w.next req.streamId)))⟩ := by
  have hs := h.shape (show WriteEvent.InRange w (.allocate i req) from hok) (.allocate hcl)
  have hq := Writers.seq_envelope_next hok
  -- a key is the new one or an old one of another call
  have hk : ∀ j stream seq, (w.setCall i
      (.allocated (req.envelope (w.next req.streamId))) j).key = some (stream, seq) →
      (j = i ∧ stream = req.streamId ∧ seq = w.next req.streamId) ∨
        (j ≠ i ∧ (w.calls j).key = some (stream, seq)) := by
    intro j stream seq hj
    rw [Writers.key_setCall] at hj
    split_ifs at hj with heq
    · obtain ⟨rfl, rfl⟩ := Prod.mk.inj (some.inj hj)
      exact .inl ⟨heq, rfl, hq⟩
    · exact .inr ⟨heq, hj⟩
  refine ⟨?_, ?_, ?_, ?_, h.mapped, ?_, ?_⟩
  · intro j stream seq hj
    rcases hk j stream seq hj with ⟨-, rfl, rfl⟩ | ⟨-, hj⟩
    · rw [next_allocate, if_pos rfl]
      exact lt_add_one _
    · exact (h.key_lt j stream seq hj).trans_le (hs.next_le stream)
  · rintro j j' ⟨stream, seq⟩ hj hj'
    rcases hk j stream seq hj with ⟨rfl, rfl, rfl⟩ | ⟨-, ho⟩
    · rcases hk j' _ _ hj' with ⟨rfl, -⟩ | ⟨-, ho'⟩
      · rfl
      · exact absurd (h.key_lt j' _ _ ho') (lt_irrefl _)
    · rcases hk j' _ _ hj' with ⟨rfl, rfl, rfl⟩ | ⟨-, ho'⟩
      · exact absurd (h.key_lt j _ _ ho) (lt_irrefl _)
      · exact h.key_unique j j' _ ho ho'
  · intro j stream seq hj
    rcases hk j stream seq hj with ⟨-, rfl, rfl⟩ | ⟨-, hj⟩
    · cases hg : w.storage.seqMap.gidAt req.streamId (w.next req.streamId) with
      | none => exact hg
      | some gid => exact absurd (h.mapped_lt _ _ gid hg) (lt_irrefl _)
    · exact h.unmapped j stream seq hj
  · intro stream seq gid hg
    exact (h.mapped_lt stream seq gid hg).trans_le (hs.next_le stream)
  · intro s j stream seq hl
    rcases h.found s j stream seq hl with hg | ⟨c, hc⟩
    · exact .inl hg
    · exact .inr ⟨c, Writers.setCall_of_logged hc (hcl ▸ nofun) _⟩
  · exact fun c stream seq gid hc =>
      h.logged c stream seq gid ((Writers.setCall_eq_logged hc).resolve_left nofun)

theorem fail (hcl : w.calls i = .allocated e) :
    WritersInv { w with calls := w.setCall i .idle } := by
  have hk : ∀ j k, (w.setCall i .idle j).key = some k → (w.calls j).key = some k :=
    fun j k hj => (Writers.key_setCall_idle.mp hj).2
  refine ⟨fun j stream seq hj => h.key_lt j stream seq (hk j _ hj),
    fun j j' k hj hj' => h.key_unique j j' k (hk j k hj) (hk j' k hj'),
    fun j stream seq hj => h.unmapped j stream seq (hk j _ hj), h.mapped_lt, h.mapped, ?_, ?_⟩
  · intro s j stream seq hl
    rcases h.found s j stream seq hl with hg | ⟨c, hc⟩
    · exact .inl hg
    · exact .inr ⟨c, Writers.setCall_of_logged hc (hcl ▸ nofun) _⟩
  · exact fun c stream seq gid hc =>
      h.logged c stream seq gid ((Writers.setCall_eq_logged hc).resolve_left nofun)

theorem log {s : Fin n} (hcl : w.calls i = .allocated e)
    (he : encodeRecord e = .ok content) (ha : w.storage.db.append s content = some db) :
    WritersInv ⟨{ w.storage with db },
      w.setCall i (.logged e.streamId e.seq.toNat (gidOf s (w.storage.db.contents s).length))⟩ := by
  have hk : ∀ j, (w.setCall i (.logged e.streamId e.seq.toNat
      (gidOf s (w.storage.db.contents s).length)) j).key = (w.calls j).key := by
    intro j
    rw [Writers.key_setCall]
    split_ifs with hj
    · rw [hj, hcl]
      rfl
    · rfl
  have hr : Carries content e.streamId e.seq.toNat := ⟨e, he, rfl, rfl⟩
  refine ⟨fun j stream seq hj => h.key_lt j stream seq ((hk j).symm.trans hj),
    fun j j' k hj hj' => h.key_unique j j' k ((hk j).symm.trans hj) ((hk j').symm.trans hj'),
    fun j stream seq hj => h.unmapped j stream seq ((hk j).symm.trans hj), h.mapped_lt,
    ?_, ?_, ?_⟩
  · intro stream seq gid hg
    obtain ⟨t, j, hl, hid⟩ := h.mapped stream seq gid hg
    exact ⟨t, j, (Writers.inLog_append ha).mpr (.inl hl), hid⟩
  · intro t j stream seq hl
    rcases (Writers.inLog_append ha).mp hl with hl | ⟨⟨rfl, rfl⟩, hr⟩
    · rcases h.found t j stream seq hl with hg | ⟨c, hc⟩
      · exact .inl hg
      · exact .inr ⟨c, Writers.setCall_of_logged hc (hcl ▸ nofun) _⟩
    · obtain ⟨rfl, rfl⟩ := carries_of_allocated he hr
      exact .inr ⟨i, update_self ..⟩
  · intro c stream seq gid hc
    rcases Writers.setCall_eq_logged hc with hc | hc
    · cases hc
      exact ⟨s, _, (Writers.inLog_append ha).mpr (.inr ⟨⟨rfl, rfl⟩, hr⟩), rfl⟩
    · obtain ⟨t, j, hl, hid⟩ := h.logged c stream seq gid hc
      exact ⟨t, j, (Writers.inLog_append ha).mpr (.inl hl), hid⟩

theorem map (hcl : w.calls i = .logged stream seq gid) :
    WritersInv ⟨w.storage.storeMapping stream seq gid, w.setCall i .idle⟩ := by
  have hs := h.shape (show WriteEvent.InRange w (.map i) from trivial) (.map hcl)
  have hy : (w.calls i).key = some (stream, seq) := by
    rw [hcl]
    rfl
  have hk : ∀ j k, (w.setCall i .idle j).key = some k → j ≠ i ∧ (w.calls j).key = some k :=
    fun _ _ => Writers.key_setCall_idle.mp
  have hgt : ∀ stream' seq' gid', (w.storage.seqMap.store stream seq gid).gidAt stream' seq' =
      some gid' → (stream' = stream ∧ seq' = seq) ∧ gid' = gid ∨
        w.storage.seqMap.gidAt stream' seq' = some gid' := by
    intro stream' seq' gid' hg
    rw [SeqMap.gidAt_store] at hg
    split_ifs at hg with heq
    · exact .inl ⟨heq, (some.inj hg).symm⟩
    · exact .inr hg
  refine ⟨fun j stream' seq' hj => h.key_lt j stream' seq' (hk j _ hj).2,
    fun j j' k hj hj' => h.key_unique j j' k (hk j k hj).2 (hk j' k hj').2, ?_, ?_, ?_, ?_, ?_⟩
  · intro j stream' seq' hj
    obtain ⟨hne, ho⟩ := hk j _ hj
    show (w.storage.seqMap.store stream seq gid).gidAt stream' seq' = none
    rw [SeqMap.gidAt_store, if_neg, h.unmapped j stream' seq' ho]
    rintro ⟨rfl, rfl⟩
    exact hne (h.key_unique j i _ ho hy)
  · intro stream' seq' gid' hg
    rcases hgt stream' seq' gid' hg with ⟨⟨rfl, rfl⟩, -⟩ | hg
    · exact h.key_lt i stream' seq' hy
    · exact h.mapped_lt stream' seq' gid' hg
  · intro stream' seq' gid' hg
    rcases hgt stream' seq' gid' hg with ⟨⟨rfl, rfl⟩, rfl⟩ | hg
    · exact h.logged i stream' seq' gid' hcl
    · exact h.mapped stream' seq' gid' hg
  · intro s j stream' seq' hl
    rcases h.found s j stream' seq' hl with hg | ⟨c, hc⟩
    · exact .inl (hs.gidAt stream' seq' _ hg)
    · by_cases hi : c = i
      · subst hi
        rw [hcl] at hc
        cases hc
        left
        show (w.storage.seqMap.store stream seq _).gidAt stream seq = _
        rw [SeqMap.gidAt_store, if_pos ⟨rfl, rfl⟩]
      · refine .inr ⟨c, ?_⟩
        show w.setCall i .idle c = _
        rw [Writers.setCall, update_of_ne hi, hc]
  · exact fun c stream' seq' gid' hc =>
      h.logged c stream' seq' gid' ((Writers.setCall_eq_logged hc).resolve_left nofun)

theorem progress (ha : w.storage.db.Advances db) :
    WritersInv { w with storage := { w.storage with db } } := by
  have hl : ∀ s i stream seq,
      Writers.InLog { w with storage := { w.storage with db } } s i stream seq ↔
        w.InLog s i stream seq :=
    fun s i stream seq => Writers.inLog_congr ha.contents ha.first
  refine ⟨h.key_lt, h.key_unique, h.unmapped, h.mapped_lt, ?_, ?_, ?_⟩
  · intro stream seq gid hg
    obtain ⟨s, i, ho, hid⟩ := h.mapped stream seq gid hg
    exact ⟨s, i, (hl s i stream seq).mpr ho, hid⟩
  · exact fun s i stream seq hn => h.found s i stream seq ((hl s i stream seq).mp hn)
  · intro c stream seq gid hc
    obtain ⟨s, i, ho, hid⟩ := h.logged c stream seq gid hc
    exact ⟨s, i, (hl s i stream seq).mpr ho, hid⟩

theorem step (hok : ev.InRange w) (ht : WriteTrans w ev w') : WritersInv w' := by
  cases ht with
  | allocate hc => exact h.allocate hok hc
  | fail hc => exact h.fail hc
  | log hc he ha => exact h.log hc he ha
  | map hc => exact h.map hc
  | progress hd => exact h.progress hd

end

theorem start (hw : db.FromAppends) (hf : ∀ s, db.written s = (db.contents s).length)
    (hex : (Storage.new db).Exact) : WritersInv (Writers.start db) := by
  have hd := Storage.new_db db
  have hl : ∀ s i stream seq, (Writers.start db).InLog s i stream seq ↔
      db.Holds s i stream seq := by
    intro s i stream seq
    unfold Writers.InLog Writers.start Engine.Holds
    dsimp only
    rw [hd]
    constructor
    · rintro ⟨hi, content, ht, ha⟩
      refine ⟨content, Engine.stored_eq_some_iff.mpr ⟨⟨hi, ?_⟩, ht⟩, ha⟩
      rw [hf]
      exact (List.getElem?_eq_some_iff.mp ht).1
    · rintro ⟨content, hs, ha⟩
      obtain ⟨⟨hi, -⟩, ht⟩ := Engine.stored_eq_some_iff.mp hs
      exact ⟨hi, content, ht, ha⟩
  -- what is mapped is held, whether the map was rebuilt or is empty
  have hm : ∀ stream seq gid, (Storage.new db).seqMap.gidAt stream seq = some gid →
      ∃ s i, db.Holds s i stream seq ∧ gidOf s i = gid := by
    intro stream seq gid hg
    rcases Storage.new_cases db with ⟨-, -, hn⟩ | ⟨-, hn⟩
    · rw [hn] at hg
      obtain ⟨s, i, content, hs, hid, -, ha⟩ := exists_holds_of_gidAt hw hg
      exact ⟨s, i, ⟨content, hs, ha⟩, hid⟩
    · rw [hn, SeqMap.gidAt_empty] at hg
      cases hg
  have hnn : ∀ i k, ((Writers.start db).calls i).key ≠ some k := by
    intro i k hk
    cases hk
  refine ⟨fun i stream seq hk => absurd hk (hnn i _), fun i j k hk => absurd hk (hnn i k),
    fun i stream seq hk => absurd hk (hnn i _), ?_, ?_, ?_, ?_⟩
  · intro stream seq gid hg
    obtain ⟨s, i, hh, -⟩ := hm stream seq gid hg
    rw [← hd] at hh
    exact hex.lt_next hh
  · intro stream seq gid hg
    obtain ⟨s, i, hh, hid⟩ := hm stream seq gid hg
    exact ⟨s, i, (hl s i stream seq).mpr hh, hid⟩
  · intro s i stream seq hsa
    have hh := (hl s i stream seq).mp hsa
    rw [← hd] at hh
    exact .inl (hex.mapped s i stream seq hh)
  · intro c stream seq gid hc
    cases hc

end WritersInv

end LogDb.Daemon
