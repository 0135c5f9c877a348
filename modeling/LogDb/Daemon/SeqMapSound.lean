import LogDb.Daemon.Replication
import LogDb.Daemon.Written

/-!
What the map from sequence numbers to ids says about the log, over appends and replicated records in
any order.
-/

namespace LogDb.Daemon

open Lib Format Engine Storage

variable {n : ℕ} {db db' : Engine n} {st st' : Storage n} {content : Bytes}

/-- The record with an id, whether it is in the files yet or not, has a number in a stream. -/
def Engine.DecodesTo (db : Engine n) (gid : ℕ) (stream : UInt64) (seq : ℕ) : Prop :=
  ∃ s i content d, gidOf s i = gid ∧ (db.contents s)[i]? = some content ∧
    decodeRecord content = .ok d ∧ d.streamId = stream ∧ d.seq.toNat = seq

def Storage.Sound (st : Storage n) : Prop :=
  ∀ stream seq gid, st.seqMap.gidAt stream seq = some gid → st.db.DecodesTo gid stream seq

inductive StorageCall (n : ℕ) where
  | append (req : AppendRequest) (route : Except String (Fin n))
  | replicate (maxContentSize : ℕ) (fault : Option ReplicateFault) (gid : ℕ) (content : Bytes)

def StorageCall.perform (st : Storage n) : StorageCall n → Except StorageError Unit × Storage n
  | .append req route => ((st.append req route).1.map fun _ => (), (st.append req route).2)
  | .replicate maxContentSize fault gid content => st.replicate maxContentSize fault gid content

/-- What is appended can be read back, and an id that the log has already comes with the content
that it has there. -/
def StorageCall.Faithful (st : Storage n) : StorageCall n → Prop
  | .append req _ => req.Fits ∧ st.nextSeqs.next req.streamId < 2 ^ 64
  | .replicate _ _ gid content => ∀ s, gid < (st.db.contents s).length →
      (st.db.contents s)[gid]? = some content

theorem Engine.DecodesTo.append {gid seq : ℕ} {stream : UInt64} {s : Fin n}
    (h : db.DecodesTo gid stream seq) (ha : db.append s content = some db') :
    db'.DecodesTo gid stream seq := by
  obtain ⟨t, i, content', d, hg, hc, hd⟩ := h
  exact ⟨t, i, content', d, hg, (getElem?_append ha).mpr (.inl hc), hd⟩

theorem Storage.sound_new (db : Engine n) : (Storage.new db).Sound := by
  intro stream seq gid hg
  unfold new at hg ⊢
  split_ifs at hg ⊢
  · simp at hg
  · obtain ⟨r, hr, rfl, d, hd, hi⟩ := gidAt_rebuildMapping hg
    obtain ⟨-, s, i, hs, hid⟩ := mem_scan.mp hr
    exact ⟨s, i, r.2, d, hid, (stored_eq_some_iff.mp hs).2, hd, hi⟩

theorem Storage.Sound.append (h : st.Sound) {req : AppendRequest} (route : Except String (Fin n))
    (hf : req.Fits) (hr : st.nextSeqs.next req.streamId < 2 ^ 64) :
    (st.append req route).2.Sound := by
  cases hc : st.append req route with
  | mk result st' =>
    rcases append_cases st req route hc with
      ⟨e, -, rfl⟩ | ⟨s, content, db, he, ha, -, rfl⟩
    · exact h
    · intro stream seq gid hg
      simp only [storeMapping, SeqMap.gidAt_store] at hg
      split_ifs at hg with hk
      · cases hg
        exact ⟨s, _, content, _, rfl, (getElem?_append ha).mpr (.inr ⟨⟨rfl, rfl⟩, rfl⟩),
          decodeRecord_encodeRecord he (hf.envelope _), hk.1.symm,
          (Written.seq_envelope req hr).trans hk.2.symm⟩
      · exact (h stream seq gid hg).append ha

theorem Storage.Sound.replicate (h : st.Sound) {gid : ℕ} (maxLen : ℕ)
    (fault : Option ReplicateFault) (hs : ∀ s, gid < (st.db.contents s).length →
      (st.db.contents s)[gid]? = some content) :
    (st.replicate maxLen fault gid content).2.Sound := by
  unfold Storage.replicate
  cases hr : st.db.replicate maxLen fault gid content with
  | error e => exact h
  | ok db =>
    obtain ⟨rfl, s, hc⟩ := replicate_cases hr
    have hh : (db.contents s)[gid]? = some content ∧
        ∀ gid stream seq, st.db.DecodesTo gid stream seq → db.DecodesTo gid stream seq := by
      rcases hc with ⟨hlt, rfl⟩ | ⟨rfl, ha⟩
      · exact ⟨hs s hlt, fun _ _ _ hd => hd⟩
      · exact ⟨(getElem?_append ha).mpr (.inr ⟨⟨rfl, rfl⟩, rfl⟩), fun _ _ _ hd => hd.append ha⟩
    cases he : decodeRecord content with
    | error e => exact fun stream seq gid hg => hh.2 _ _ _ (h stream seq gid hg)
    | ok d =>
      intro stream seq gid' hg
      simp only [SeqMap.gidAt_store] at hg
      split_ifs at hg with hk
      · cases hg
        refine ⟨s, gid, content, d, ?_, hh.1, he, hk.1.symm, hk.2.symm⟩
        rw [db.gidOf_eq (List.getElem?_eq_some_iff.mp hh.1).1.le, Fin.eq_zero s]
        simp [shardBits]
      · exact hh.2 _ _ _ (h stream seq gid' hg)

def CallsReachable (ok : Storage n → StorageCall n → Prop) (st st' : Storage n) : Prop :=
  Relation.ReflTransGen (fun a b => ∃ call, ok a call ∧ (call.perform a).2 = b) st st'

/-- In every run of faithful calls the map is sound, and no call that fails changes it. -/
theorem seqMap_sound (hrun : CallsReachable (fun st call => call.Faithful st) (Storage.new db) st) :
    st.Sound ∧ ∀ (call : StorageCall n) e, (call.perform st).1 = .error e →
      (call.perform st).2.seqMap = st.seqMap := by
  constructor
  · refine invariant_of_steps hrun (sound_new db) ?_
    rintro a b h ⟨call, hok, rfl⟩
    cases call with
    | append req route => exact h.append route hok.1 hok.2
    | replicate maxContentSize fault gid content => exact h.replicate maxContentSize fault hok
  · intro call e he
    cases call with
    | append req route =>
      simp only [StorageCall.perform] at he ⊢
      cases hc : st.append req route with
      | mk result st' =>
        rw [hc] at he
        rcases Storage.append_cases st req route hc with
          ⟨e, -, rfl⟩ | ⟨s, content, db, -, -, rfl, -⟩
        · rfl
        · cases he
    | replicate maxContentSize fault gid content =>
      simp only [StorageCall.perform, Storage.replicate] at he ⊢
      split at he
      · rfl
      · split at he
        · rfl
        · cases he

def emptyStorage : Storage 1 :=
  Storage.new (Engine.empty one_le_256)

/-- Two records that were replicated with the id 0. -/
def replicatedTwice (seq : UInt64) : Storage 1 :=
  ((emptyStorage.replicate 1024 none 0 (bareContent 1 1)).2.replicate 1024 none 0
    (bareContent 1 seq)).2

theorem seqMap_sound_repeated : (replicatedTwice 1).Sound := by
  have hr : CallsReachable (fun st call => call.Faithful st) emptyStorage (replicatedTwice 1) := by
    refine .tail (.single ⟨.replicate 1024 none 0 (bareContent 1 1), ?_, rfl⟩)
      ⟨.replicate 1024 none 0 (bareContent 1 1), ?_, rfl⟩
    · exact fun s hlt => absurd hlt (Nat.not_lt_zero _)
    · intro s hlt
      rw [Fin.eq_zero s]
      rfl
  exact (seqMap_sound hr).1

/-- The second record has another number, and the log keeps the first one. -/
theorem seqMap_unsound : CallsReachable (fun _ _ => True) emptyStorage (replicatedTwice 2) ∧
    (replicatedTwice 2).seqMap.gidAt 1 2 = some 0 ∧ ¬(replicatedTwice 2).db.DecodesTo 0 1 2 := by
  refine ⟨.tail (.single ⟨.replicate 1024 none 0 (bareContent 1 1), trivial, rfl⟩)
    ⟨.replicate 1024 none 0 (bareContent 1 2), trivial, rfl⟩, rfl, ?_⟩
  rintro ⟨s, i, content, d, -, hc, hd, -, hq⟩
  have hl : (replicatedTwice 2).db.contents s = [bareContent 1 1] := by
    rw [Fin.eq_zero s]
    rfl
  rw [hl] at hc
  rw [List.mem_singleton.mp (List.mem_of_getElem? hc), decodeRecord_bareContent] at hd
  cases hd
  cases hq

end LogDb.Daemon
