import LogDb.Lib.Transition
import LogDb.Tailer.Progress
import LogDb.Format.Crates

/-!
Calls of `checkpoint` from several threads: the maximum in memory, and the file that every call
replaces with its own number through one temporary file.
-/

namespace LogDb.Database

open Lib Format Tailer Function Option

/-- What `save_checkpoint` writes. -/
def checkpointBytes (C : Crates) (seq : ℕ) : Bytes :=
  withChecksum C (leBytes 8 seq)

def loadCheckpoint (C : Crates) (file : Option Bytes) : ℕ :=
  match file with
  | none => 0
  | some data =>
    if data.length = 12 then
      if (C.crc32c (field 0 8 data)).toNat = leVal (field 8 4 data) then leVal (field 0 8 data)
      else 0
    else 0

/-- What a call is about to do to the files; `inode` is the one it has open. -/
inductive CheckpointPhase where
  | create
  | write (inode : ℕ)
  | rename

/-- The checkpoint in memory, the files by inode, the two directory entries, and the calls under
way. `top` is the largest number that was ever passed. -/
structure Checkpoints where
  sequence : ℕ
  contents : ℕ → Bytes
  tmp : Option ℕ
  dat : Option ℕ
  calls : ℕ → Option (ℕ × CheckpointPhase)
  top : ℕ

namespace Checkpoints

def start : Checkpoints :=
  ⟨0, fun _ => [], none, none, fun _ => none, 0⟩

def set (st : Checkpoints) (t : ℕ) (call : Option (ℕ × CheckpointPhase)) : Checkpoints :=
  { st with calls := update st.calls t call }

def load (C : Crates) (st : Checkpoints) : ℕ :=
  loadCheckpoint C (st.dat.map st.contents)

def Idle (st : Checkpoints) : Prop :=
  ∀ t, st.calls t = none

end Checkpoints

/-- `ok` is the condition on a new call. -/
inductive CheckpointStep (C : Crates) (ok : Checkpoints → ℕ → Prop) :
    Checkpoints → Checkpoints → Prop
  /- The loop around `compare_exchange_weak` has its effect in one step. -/
  | begin {st} (t seq) (hnone : st.calls t = none) (hseq : seq < 2 ^ 64) (hok : ok st seq) :
    CheckpointStep C ok st
      { st.set t (some (seq, .create)) with
        sequence := max st.sequence seq
        top := max st.top seq }
  /- The temporary file is truncated when it is there, and a new one otherwise. -/
  | create {st t seq} (inode) (hcall : st.calls t = some (seq, .create))
    (hinode : st.tmp = some inode ∨ st.tmp = none ∧ st.dat ≠ some inode ∧
      ∀ u seq', st.calls u ≠ some (seq', .write inode)) :
    CheckpointStep C ok st
      { st.set t (some (seq, .write inode)) with
        contents := update st.contents inode []
        tmp := some inode }
  | write {st t seq inode} (hcall : st.calls t = some (seq, .write inode)) :
    CheckpointStep C ok st
      { st.set t (some (seq, .rename)) with
        contents := update st.contents inode
          (writeAt 0 (checkpointBytes C seq) (st.contents inode)) }
  /- An error, when another call has taken the temporary file away, is ignored. -/
  | rename {st t seq} (hcall : st.calls t = some (seq, .rename)) :
    CheckpointStep C ok st { st.set t none with tmp := none, dat := st.tmp.or st.dat }
  | reopen {st} (hidle : st.Idle) : CheckpointStep C ok st { st with sequence := st.load C }

def CheckpointsReachable (C : Crates) (ok : Checkpoints → ℕ → Prop) (st : Checkpoints) : Prop :=
  Relation.ReflTransGen (CheckpointStep C ok) .start st

/-- The calls follow one another, and none passes a lower number. -/
def OneByOne (st : Checkpoints) (seq : ℕ) : Prop :=
  st.Idle ∧ st.sequence ≤ seq

theorem loadCheckpoint_checkpointBytes (C : Crates) {seq : ℕ} (hq : seq < 2 ^ 64) :
    loadCheckpoint C (some (checkpointBytes C seq)) = seq := by
  obtain ⟨hs, hb, hc⟩ := withChecksum_fields C (leBytes 8 seq)
  rw [leBytes_length] at hs hb hc
  simp only [loadCheckpoint, checkpointBytes, hs, hb, hc, if_true]
  exact leVal_leBytes_of_lt (hq.trans_eq (by norm_num))

variable {C : Crates} {st : Checkpoints}

def CheckpointPhase.Holds (C : Crates) (st : Checkpoints) (seq : ℕ) : CheckpointPhase → Prop
  | .create => st.tmp = none
  | .write inode => st.tmp = some inode ∧ st.contents inode = []
  | .rename => ∃ inode, st.tmp = some inode ∧ st.contents inode = checkpointBytes C seq

def CheckpointInv (C : Crates) (st : Checkpoints) : Prop :=
  st.sequence = st.top ∧ (st.Idle ∧ st.tmp = none ∧ st.load C = st.sequence ∨
    ∃ t phase, st.calls = update (fun _ : ℕ => none) t (some (st.sequence, phase)) ∧
      st.sequence < 2 ^ 64 ∧ phase.Holds C st st.sequence)

theorem CheckpointInv.calling (h : CheckpointInv C st) {t seq : ℕ} {phase : CheckpointPhase}
    (hc : st.calls t = some (seq, phase)) :
    seq = st.sequence ∧ st.sequence < 2 ^ 64 ∧ phase.Holds C st seq ∧
      ∀ call, (st.set t call).calls = update (fun _ : ℕ => none) t call := by
  rcases h with ⟨-, ⟨hi, -⟩ | ⟨u, phase', ha, hq, hp⟩⟩
  · simp [hi t] at hc
  · rw [ha] at hc
    obtain rfl : t = u := by grind
    simp only [update_self, some.injEq, Prod.mk.injEq] at hc
    obtain ⟨rfl, rfl⟩ := hc
    exact ⟨rfl, hq, hp, fun call => by simp [Checkpoints.set, ha]⟩

theorem CheckpointInv.idle (h : CheckpointInv C st) (hi : st.Idle) :
    st.tmp = none ∧ st.load C = st.sequence := by
  rcases h with ⟨-, ⟨-, h⟩ | ⟨t, phase, hc, -⟩⟩
  · exact h
  · simpa [hc] using hi t

theorem CheckpointInv.step {st' : Checkpoints} (h : CheckpointInv C st)
    (hp : CheckpointStep C OneByOne st st') : CheckpointInv C st' := by
  cases hp with
  | begin t seq hnn hq hok =>
    have hx : max st.sequence seq = seq := max_eq_right hok.2
    refine ⟨congrArg (max · seq) h.1, .inr ⟨t, .create, ?_, by rwa [hx], (h.idle hok.1).1⟩⟩
    simp only [Checkpoints.set, funext hok.1, hx]
  | create inode hc hi =>
    obtain ⟨rfl, hq, -, hs⟩ := h.calling hc
    exact ⟨h.1, .inr ⟨_, _, hs _, hq, rfl, update_self ..⟩⟩
  | write hc =>
    obtain ⟨rfl, hq, ⟨ht, hn⟩, hs⟩ := h.calling hc
    refine ⟨h.1, .inr ⟨_, _, hs _, hq, _, ht, ?_⟩⟩
    simp [hn, writeAt, setLen, Checkpoints.set]
  | rename hc =>
    obtain ⟨rfl, hq, ⟨inode, ht, hcs⟩, hs⟩ := h.calling hc
    refine ⟨h.1, .inl ⟨fun u => (congrFun (hs none) u).trans (by simp), rfl, ?_⟩⟩
    simp only [Checkpoints.load, Checkpoints.set, ht, some_or, map_some, hcs]
    exact loadCheckpoint_checkpointBytes C hq
  | reopen hil =>
    obtain ⟨ht, hl⟩ := h.idle hil
    exact ⟨hl.trans h.1, .inl ⟨hil, ht, rfl⟩⟩

/-- When the calls follow one another and none passes a lower number, what a reopen loads is the
checkpoint in memory, the largest number that was passed. -/
theorem checkpoint_persisted (hreach : CheckpointsReachable C OneByOne st) (hidle : st.Idle) :
    st.load C = st.sequence ∧ st.sequence = st.top := by
  have h := invariant_of_steps hreach ⟨rfl, .inl ⟨fun _ => rfl, rfl, rfl⟩⟩
    fun _ _ h hs => CheckpointInv.step h hs
  exact ⟨(h.idle hidle).2, h.1⟩

def Checkpoints.called (C : Crates) (st : Checkpoints) (seq inode : ℕ) : Checkpoints :=
  ⟨max st.sequence seq, update st.contents inode (checkpointBytes C seq), none,
    some inode, fun _ => none, max st.top seq⟩

theorem CheckpointsReachable.called {ok : Checkpoints → ℕ → Prop}
    (hh : CheckpointsReachable C ok st) (hi : st.Idle) (ht : st.tmp = none) {seq : ℕ}
    (hq : seq < 2 ^ 64) (hok : ok st seq) (inode : ℕ) (hd : st.dat ≠ some inode) :
    CheckpointsReachable C ok (st.called C seq inode) := by
  have hc : st.calls = fun _ => none := funext hi
  have hcr := (hh.tail (.begin 0 seq (hi 0) hq hok)).tail
    (.create (t := 0) inode rfl (.inr ⟨ht, hd, fun u seq' => by
      by_cases hu : u = 0 <;> simp [Checkpoints.set, hu, hc]⟩))
  have hr := (hcr.tail (.write (t := 0) rfl)).tail (.rename (t := 0) rfl)
  unfold CheckpointsReachable
  simpa [Checkpoints.set, Checkpoints.called, hc, writeAt, setLen] using hr

theorem checkpoint_persisted_two_calls :
    ((Checkpoints.start.called rawCrates 10 0).called rawCrates 20 1).load rawCrates = 20 := by
  have ht : CheckpointsReachable rawCrates OneByOne (Checkpoints.start.called rawCrates 10 0) :=
    .called .refl (fun _ => rfl) rfl (by decide) ⟨fun _ => rfl, Nat.zero_le _⟩ 0 nofun
  exact (checkpoint_persisted (ht.called (fun _ => rfl) rfl (by decide)
    ⟨fun _ => rfl, by decide⟩ 1 (some_injective _ |>.ne Nat.zero_ne_one)) fun _ => rfl).1

/-- After 10 and then 5, the memory says 10 and the file 5. -/
theorem checkpoint_file_falls :
    ∃ st, CheckpointsReachable rawCrates (fun _ _ => True) st ∧ st.Idle ∧ st.sequence = 10 ∧
      st.top = 10 ∧ st.load rawCrates = 5 := by
  have ht : CheckpointsReachable rawCrates (fun _ _ => True)
      (Checkpoints.start.called rawCrates 10 0) :=
    .called .refl (fun _ => rfl) rfl (by decide) trivial 0 nofun
  exact ⟨_, ht.called (fun _ => rfl) rfl (show 5 < 2 ^ 64 by decide) trivial 1
    (some_injective _ |>.ne Nat.zero_ne_one), fun _ => rfl, rfl, rfl,
    loadCheckpoint_checkpointBytes rawCrates (by decide)⟩

end LogDb.Database
