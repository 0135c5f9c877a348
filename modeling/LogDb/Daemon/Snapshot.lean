import LogDb.Lib.Slice

/-!
Installing a received snapshot on a standby: the segment files of the target directory are removed
one by one, then the received ones are moved in one by one. Files without the extension `log` stay,
and what comes behind the two loops cleans up and syncs only.
-/

namespace LogDb.Daemon

open Lib List Function

/-- The segment files of a directory by name. -/
abbrev SegmentFiles := String → Option Bytes

/-- What the steps of `install_snapshot` do to the target: a file goes, in the order of the listing,
or gets the content that was received under its name. -/
def installSnapshot (tmp : SegmentFiles) (old files : List String) : List (String × Option Bytes) :=
  old.map (fun name => (name, none)) ++ files.map fun name => (name, tmp name)

namespace SegmentFiles

/-- The target when `k` steps are done and an error or a crash stops the installation. -/
def interrupted (target : SegmentFiles) (steps : List (String × Option Bytes)) (k : ℕ) :
    SegmentFiles :=
  (steps.take k).foldl (fun files s => update files s.1 s.2) target

def received (tmp : SegmentFiles) (files : List String) : SegmentFiles := fun name =>
  if name ∈ files then tmp name else none

variable {target tmp new : SegmentFiles} {old files : List String}

/-- After a second change of another file, the files are neither what they were before the first
change nor what they were after it. -/
theorem not_atomic_of_updates {a b : String} {x y : Option Bytes} (hb : b ≠ a) (hx : x ≠ target a)
    (hy : y ≠ target b) (ho : update target a x = target ∨ update target a x = new) :
    ¬(update (update target a x) b y = target ∨ update (update target a x) b y = new) := by
  obtain rfl := ho.resolve_left fun h => hx (by simpa using congrFun h a)
  rintro (h | h)
  · exact hx (by simpa [update_of_ne hb.symm] using congrFun h a)
  · exact hy (by simpa [update_of_ne hb] using congrFun h b)

/-- Wherever the installation stops, the segment files are the old ones or the received ones, if and
only if there is at most one file to remove or to move in. -/
theorem install_atomic_iff (hold : ∀ name, name ∈ old ↔ (target name).isSome) (hnodup : old.Nodup)
    (hfiles : ∀ name ∈ files, (tmp name).isSome) (hdistinct : files.Nodup) :
    (∀ k, target.interrupted (installSnapshot tmp old files) k = target ∨
      target.interrupted (installSnapshot tmp old files) k = received tmp files) ↔
      old.length + files.length ≤ 1 := by
  have ht : ∀ name ∈ old, none ≠ target name := fun name ha heq => by
    simpa [← heq] using (hold name).mp ha
  have hnn : ∀ name ∉ old, target name = none := fun name hn => by simpa [hold] using hn
  have hm : ∀ name ∈ files, name ∉ old → tmp name ≠ target name := by
    intro name ha hn heq
    simpa [heq, hnn name hn] using hfiles name ha
  match old, files with
  | [], [] => simp [interrupted, installSnapshot]
  | [a], [] =>
    refine iff_of_true (fun k => ?_) le_rfl
    cases k with
    | zero => exact .inl rfl
    | succ k =>
      right
      funext name
      rcases eq_or_ne name a with rfl | hne
      · simp [interrupted, installSnapshot, received]
      · simp [interrupted, installSnapshot, received, hne, hnn name (by simpa using hne)]
  | [], [f] =>
    refine iff_of_true (fun k => ?_) le_rfl
    cases k with
    | zero => exact .inl rfl
    | succ k =>
      right
      funext name
      rcases eq_or_ne name f with rfl | hne
      · simp [interrupted, installSnapshot, received]
      · simp [interrupted, installSnapshot, received, hne, hnn name not_mem_nil]
  | a :: b :: old, files =>
    have hb : b ≠ a := fun heq => by simp [heq] at hnodup
    refine iff_of_false (fun h => ?_) (by simp only [length_cons]; omega)
    exact not_atomic_of_updates hb (ht a (by simp)) (ht b (by simp)) (h 1) (h 2)
  | [a], f :: files =>
    refine iff_of_false (fun h => ?_) (by simp only [length_cons]; omega)
    by_cases hf : f = a
    · -- the file is in both sets, but it is gone in between
      subst hf
      rcases h 1 with ho | ho
      · exact ht f (by simp) (by simpa [interrupted, installSnapshot] using congrFun ho f)
      · have hgo : none = tmp f := by
          simpa [interrupted, installSnapshot, received] using congrFun ho f
        simpa [← hgo] using hfiles f (by simp)
    · exact not_atomic_of_updates hf (ht a (by simp)) (hm f (by simp) (by simpa using hf))
        (h 1) (h 2)
  | [], f :: g :: files =>
    have hg : g ≠ f := fun heq => by simp [heq] at hdistinct
    refine iff_of_false (fun h => ?_) (by simp only [length_cons]; omega)
    exact not_atomic_of_updates hg (hm f (by simp) not_mem_nil)
      (hm g (by simp) not_mem_nil) (h 1) (h 2)

def singleFile (data : Bytes) : SegmentFiles :=
  update (fun _ => none) "1.log" (some data)

theorem install_atomic_empty :
    interrupted (fun _ => none) (installSnapshot (singleFile [1]) [] ["1.log"]) 1 =
      (fun _ => none) ∨
    interrupted (fun _ => none) (installSnapshot (singleFile [1]) [] ["1.log"]) 1 =
      received (singleFile [1]) ["1.log"] :=
  (install_atomic_iff (by simp) (by simp) (by simp [singleFile]) (by simp)).mpr (by simp) 1

/-- The old file is removed, and the received one is not there yet. -/
theorem install_interrupted : ∃ k,
    interrupted (singleFile [1]) (installSnapshot (singleFile [2]) ["1.log"] ["1.log"]) k ≠
      singleFile [1] ∧
    interrupted (singleFile [1]) (installSnapshot (singleFile [2]) ["1.log"] ["1.log"]) k ≠
      received (singleFile [2]) ["1.log"] := by
  refine ⟨1, fun h => ?_, fun h => ?_⟩ <;>
    simpa [interrupted, installSnapshot, singleFile, received] using congrFun h "1.log"

end SegmentFiles

end LogDb.Daemon
