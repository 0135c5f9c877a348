import LogDb.Lib.FairShare
import LogDb.Lib.KeyedFold

/-!
One consumer group of the broker: its members in join order, the shards each of them reads, and
the offsets committed for the shards. Shards are the numbers below `numShards`. A call that would
panic has no result.

The registry of a broker: one group for each namespace, stream and group name. A group is kept when
its last member leaves.
-/

namespace LogDb.Broker

open Lib

abbrev ConsumerId := String

/-- The shards of each consumer; an unordered map in the source. -/
abbrev Assignments := AList fun _ : ConsumerId => List ℕ

structure JoinResult where
  generation : UInt32
  assignedShards : List ℕ

structure GroupState where
  generation : UInt32
  members : List ConsumerId
  assignments : Assignments
  shardOffsets : AList fun _ : ℕ => ℕ
  lastChanged : Finset ConsumerId
  numShards : UInt32

def asU32 (n : ℕ) : ℕ :=
  n % 2 ^ 32

theorem asU32_of_lt {n : ℕ} (h : n < 2 ^ 32) : asU32 n = n :=
  Nat.mod_eq_of_lt h

/-- `saturating_add(1)`. -/
def saturatingSucc (n : UInt32) : UInt32 :=
  if n.toNat = 2 ^ 32 - 1 then n else n + 1

theorem saturatingSucc_toNat (n : UInt32) :
    (saturatingSucc n).toNat = min (n.toNat + 1) (2 ^ 32 - 1) := by
  have hlt := n.toNat_lt
  unfold saturatingSucc
  split_ifs with h
  · omega
  · rw [UInt32.toNat_add, UInt32.toNat_one, Nat.mod_eq_of_lt] <;> omega

/-! ### Moving shards between a member and the free pool -/

/-- The closure of `retain`: foreign shards go until the surplus is shed. -/
def retainOurs (n idx surplus : ℕ) : List ℕ → List ℕ → List ℕ × List ℕ
  | [], toShed => ([], toShed)
  | s :: shards, toShed =>
    if surplus ≤ asU32 toShed.length then
      let r := retainOurs n idx surplus shards toShed
      (s :: r.1, r.2)
    else if s % n = idx then
      let r := retainOurs n idx surplus shards toShed
      (s :: r.1, r.2)
    else retainOurs n idx surplus shards (toShed ++ [s])

/-- The loop that sheds from the end while there are more shards than the target. -/
def shedOwn (target : ℕ) (shards toShed : List ℕ) : List ℕ × List ℕ :=
  if target < asU32 shards.length then
    match _h : shards.getLast? with
    | some s => shedOwn target shards.dropLast (toShed ++ [s])
    | none => (shards, toShed)
  else (shards, toShed)
termination_by shards.length
decreasing_by
  have hne : shards ≠ [] := by
    rintro rfl
    cases _h
  have hpos := List.length_pos_iff.mpr hne
  rw [List.length_dropLast]
  omega

/-- Shed the surplus of one member into the free pool. -/
def shed (n : ℕ) (target : ℕ → ℕ) (idx : ℕ) (shards free : List ℕ) : List ℕ × List ℕ :=
  let surplus := asU32 shards.length - target idx
  let retained := retainOurs n idx surplus shards []
  let r := shedOwn (target idx) retained.1 retained.2
  (r.1, free ++ r.2)

/-- The loop that fills one member up from the end of the free pool. -/
def fillUp (target : ℕ) (shards free : List ℕ) : List ℕ × List ℕ :=
  if asU32 shards.length < target then
    match _h : free.getLast? with
    | some s => fillUp target (shards ++ [s]) free.dropLast
    | none => (shards, free)
  else (shards, free)
termination_by free.length
decreasing_by
  have hne : free ≠ [] := by
    rintro rfl
    cases _h
  have hpos := List.length_pos_iff.mpr hne
  rw [List.length_dropLast]
  omega

def fill (target : ℕ → ℕ) (idx : ℕ) (shards free : List ℕ) : List ℕ × List ℕ :=
  fillUp (target idx) shards free

/-- `entry(owner).or_default().push(shard)`. -/
def pushShard (assignments : Assignments) (owner : ConsumerId) (shard : ℕ) : Assignments :=
  assignments.insert owner ((assignments.lookup owner).getD [] ++ [shard])

/-- The old shards of the members that are still present. -/
def keepPresent (old : Assignments) (members : List ConsumerId) : Assignments :=
  members.foldl
    (fun kept id => kept.insert id ((kept.lookup id).getD [] ++ (old.lookup id).getD [])) ∅

def freeShards (numShards : ℕ) (kept : Assignments) : List ℕ :=
  (List.range numShards).filter fun s => !kept.entries.any fun e => e.2.contains s

def sortShards (assignments : Assignments) : Assignments :=
  assignments.keys.foldl
    (fun sorted id => sorted.insert id (((sorted.lookup id).getD []).insertionSort (· ≤ ·)))
    assignments

/-- The members whose shards differ, and the consumers that are gone. -/
def changedConsumers (old new : Assignments) (members : List ConsumerId) : Finset ConsumerId :=
  (members.filter fun id => new.lookup id ≠ old.lookup id).toFinset ∪
    (old.keys.filter fun id => id ∉ members).toFinset

namespace GroupState

def new (numShards : UInt32) : GroupState :=
  ⟨0, [], ∅, ∅, ∅, numShards⟩

section

variable (g : GroupState)

def assigned (id : ConsumerId) : Option (List ℕ) :=
  g.assignments.lookup id

def recomputeRoundRobin : GroupState :=
  if h : 0 < g.members.length then
    { g with
      assignments := (List.range g.numShards.toNat).foldl
        (fun assignments shard =>
          pushShard assignments (g.members.get ⟨shard % g.members.length, Nat.mod_lt _ h⟩) shard)
        ∅ }
  else { g with assignments := ∅ }

/-- The number of shards the member at an index shall have. -/
def target (idx : ℕ) : ℕ :=
  g.numShards.toNat / asU32 g.members.length +
    if idx < g.numShards.toNat % g.members.length then 1 else 0

/-- The old shards of the present members and the free pool, after the surplus is shed. -/
def shedAll : Assignments × List ℕ :=
  let kept := keepPresent g.assignments g.members
  g.members.zipIdx.foldl (keyedStep [] (shed g.members.length g.target))
    (kept, freeShards g.numShards.toNat kept)

def fillAll : Assignments × List ℕ :=
  g.members.zipIdx.foldl (keyedStep [] (fill g.target)) g.shedAll

def rebalance : Assignments :=
  sortShards g.fillAll.1

def recomputeSticky : Option (GroupState × Finset ConsumerId) :=
  if g.members.length = 0 then some ({ g with assignments := ∅ }, g.assignments.keys.toFinset)
  -- the number of members as a `u32` divides the number of shards
  else if asU32 g.members.length = 0 then none
  else some ({ g with assignments := g.rebalance },
    changedConsumers g.assignments g.rebalance g.members)

end

/-- The state after a rebalance, with the consumers it touched. -/
def rebalanced (r : GroupState × Finset ConsumerId) : GroupState :=
  { r.1 with lastChanged := r.2 }

section

variable (g : GroupState) (id : ConsumerId)

def joinResult : GroupState × JoinResult :=
  (g, ⟨g.generation, (g.assignments.lookup id).getD []⟩)

/-- The new member stands behind the others, with no shards yet. -/
def added : GroupState :=
  { g with members := g.members ++ [id], generation := saturatingSucc g.generation }

/-- The member at a position is gone, and its shards are nobody's. -/
def removed (pos : ℕ) : GroupState :=
  { g with
    members := g.members.eraseIdx pos
    assignments := g.assignments.erase id
    generation := saturatingSucc g.generation }

def join : Option (GroupState × JoinResult) :=
  if id ∈ g.members then some (g.joinResult id)
  else if g.members = [] then
    some ((rebalanced ((g.added id).recomputeRoundRobin, (g.added id).members.toFinset)).joinResult
      id)
  else ((g.added id).recomputeSticky.map rebalanced).map fun g' => g'.joinResult id

def leave : Option (GroupState × Bool) :=
  match g.members.idxOf? id with
  | some pos => ((g.removed id pos).recomputeSticky.map rebalanced).map fun g' => (g', true)
  | none => some (g, false)

end

def commitOffset (g : GroupState) (shard seq : ℕ) : GroupState × Bool :=
  let entry := (g.shardOffsets.lookup shard).getD 0
  if entry < seq then ({ g with shardOffsets := g.shardOffsets.insert shard seq }, true)
  else ({ g with shardOffsets := g.shardOffsets.insert shard entry }, false)

end GroupState

/-! ### Runs of a group -/

inductive Call where
  | join (id : ConsumerId)
  | leave (id : ConsumerId)
  | commitOffset (shard seq : ℕ)

namespace GroupState

def apply (g : GroupState) : Call → Option GroupState
  | .join id => (g.join id).map Prod.fst
  | .leave id => (g.leave id).map Prod.fst
  | .commitOffset shard seq => some (g.commitOffset shard seq).1

def run (g : GroupState) : List Call → Option GroupState
  | [] => some g
  | call :: calls => (g.apply call).bind fun g' => g'.run calls

def Changes (g : GroupState) : Call → Prop
  | .join id => id ∉ g.members
  | .leave id => id ∈ g.members
  | .commitOffset _ _ => False

instance (g : GroupState) : (call : Call) → Decidable (g.Changes call)
  | .join id => inferInstanceAs (Decidable (id ∉ g.members))
  | .leave id => inferInstanceAs (Decidable (id ∈ g.members))
  | .commitOffset _ _ => inferInstanceAs (Decidable False)

def changes (g : GroupState) : List Call → ℕ
  | [] => 0
  | call :: calls =>
    (if g.Changes call then 1 else 0) + ((g.apply call).map fun g' => g'.changes calls).getD 0

end GroupState

structure GroupKey where
  ns : String
  stream : String
  group : String
  deriving DecidableEq

structure GroupSnapshot where
  generation : UInt32
  members : List (ConsumerId × List ℕ)

structure CoordinatorRegistry where
  numShards : UInt32
  groups : AList fun _ : GroupKey => GroupState

namespace CoordinatorRegistry

def new (numShards : UInt32) : CoordinatorRegistry :=
  ⟨numShards, ∅⟩

variable (reg : CoordinatorRegistry) (key : GroupKey)

/-- The group, a new one if there is none yet. -/
def entry : GroupState :=
  (reg.groups.lookup key).getD (GroupState.new reg.numShards)

def setGroup (g : GroupState) : CoordinatorRegistry :=
  { reg with groups := reg.groups.insert key g }

def join (id : ConsumerId) : Option (CoordinatorRegistry × JoinResult) :=
  ((reg.entry key).join id).map fun r => (reg.setGroup key r.1, r.2)

def leave (id : ConsumerId) : Option (CoordinatorRegistry × Bool) :=
  match reg.groups.lookup key with
  | some g => (g.leave id).map fun r => (reg.setGroup key r.1, r.2)
  | none => some (reg, false)

def lastChanged : Finset ConsumerId :=
  (reg.groups.lookup key).elim ∅ GroupState.lastChanged

def groupSnapshot : Option GroupSnapshot :=
  (reg.groups.lookup key).map fun g =>
    ⟨g.generation, g.members.map fun id => (id, (g.assigned id).getD [])⟩

def commitOffset (shard seq : ℕ) : CoordinatorRegistry × Bool :=
  let r := (reg.entry key).commitOffset shard seq
  (reg.setGroup key r.1, r.2)

end CoordinatorRegistry

end LogDb.Broker
