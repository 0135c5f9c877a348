import LogDb.Broker.Coordinator
import LogDb.Daemon.Names
import LogDb.Lib.Transition

/-!
Leader election over the meta stream. Each broker scans the claims of all groups, decides which
groups it leads or may take over, appends its own claims and then replaces its view of the
leadership. The brokers read one clock.
-/

namespace LogDb.Broker

/-! ### Group names in claims -/

/-- The text before the first slash and the text behind it. -/
def splitSlash (cs : List Char) : Option (List Char × List Char) :=
  match cs.dropWhile (· != '/') with
  | [] => none
  | _ :: rest => some (cs.takeWhile (· != '/'), rest)

theorem splitSlash_append {cs rest : List Char} (h : '/' ∉ cs) :
    splitSlash (cs ++ '/' :: rest) = some (cs, rest) := by
  have ha : ∀ c ∈ cs, (c != '/') = true := by
    intro c hc
    rw [bne_iff_ne]
    rintro rfl
    exact h hc
  unfold splitSlash
  rw [List.dropWhile_append_of_pos ha, List.takeWhile_append_of_pos ha]
  simp

theorem splitSlash_eq_some {cs front rest : List Char} (h : splitSlash cs = some (front, rest)) :
    '/' ∉ front := by
  unfold splitSlash at h
  split at h
  · cases h
  · cases h
    intro hm
    have hne := List.mem_takeWhile_imp hm
    simp at hne

namespace GroupKey

def path (key : GroupKey) : String :=
  key.ns ++ "/" ++ key.stream ++ "/" ++ key.group

/-- `splitn(3, '/')`, when it has three parts. -/
def parse (text : String) : Option GroupKey :=
  (splitSlash text.toList).bind fun ns =>
    (splitSlash ns.2).map fun stream =>
      ⟨String.ofList ns.1, String.ofList stream.1, String.ofList stream.2⟩

variable {key key' : GroupKey}

theorem slash_notMem_of_parse {text : String} (h : parse text = some key) :
    '/' ∉ key.ns.toList ∧ '/' ∉ key.stream.toList := by
  obtain ⟨⟨ns, rest⟩, hn, hm⟩ := Option.bind_eq_some_iff.mp h
  obtain ⟨⟨stream, group⟩, hs, rfl⟩ := Option.map_eq_some_iff.mp hm
  simpa using ⟨splitSlash_eq_some hn, splitSlash_eq_some hs⟩

/-- A group that was read from a claim is written so that it is read again. -/
theorem parse_path (hn : '/' ∉ key.ns.toList) (hs : '/' ∉ key.stream.toList) :
    parse key.path = some key := by
  have hp : key.path.toList =
      key.ns.toList ++ '/' :: (key.stream.toList ++ '/' :: key.group.toList) := by
    simp [path]
  unfold parse
  rw [hp, splitSlash_append hn, Option.bind_some, splitSlash_append hs]
  simp

theorem slash_notMem_ns {name : String} (h : Daemon.validateNamespaceName name = .ok ()) :
    '/' ∉ name.toList := by
  intro hs
  have hf : (name.toList.find? fun c => !Daemon.isNameChar c).isSome :=
    List.find?_isSome.mpr ⟨'/', hs, rfl⟩
  obtain ⟨c, hc⟩ := Option.isSome_iff_exists.mp hf
  simp only [Daemon.validateNamespaceName, Daemon.validateName, Bool.false_eq_true, if_false,
    hc] at h
  split_ifs at h <;> cases h

/-- Only a slash in a stream name makes a claim be read as another group's. -/
theorem claim_keys_unambiguous_iff (key key' : GroupKey)
    (hns : Daemon.validateNamespaceName key.ns = .ok ())
    (hns' : Daemon.validateNamespaceName key'.ns = .ok ()) :
    (parse key.path = some key ∧ parse key'.path = some key' ∧
      (key ≠ key' → key.path ≠ key'.path)) ↔
      '/' ∉ key.stream.toList ∧ '/' ∉ key'.stream.toList := by
  constructor
  · rintro ⟨hk, hk', -⟩
    exact ⟨(slash_notMem_of_parse hk).2, (slash_notMem_of_parse hk').2⟩
  · rintro ⟨hs, hs'⟩
    have hk := parse_path (slash_notMem_ns hns) hs
    have hk' := parse_path (slash_notMem_ns hns') hs'
    refine ⟨hk, hk', fun hne hp => hne ?_⟩
    rw [hp, hk'] at hk
    exact (Option.some.inj hk).symm

theorem claim_keys_unambiguous_orders : parse (path ⟨"n", "s", "g/h"⟩) = some ⟨"n", "s", "g/h"⟩ ∧
    path ⟨"n", "s", "g/h"⟩ ≠ path ⟨"n", "t", "g"⟩ := by
  have h := (claim_keys_unambiguous_iff ⟨"n", "s", "g/h"⟩ ⟨"n", "t", "g"⟩ (by decide)
    (by decide)).mpr (by decide)
  exact ⟨h.1, h.2.2 (by decide)⟩

theorem claim_key_ambiguous : Daemon.validateNamespaceName "n" = .ok () ∧
    Daemon.validateStreamName "s/t" = .ok () ∧ Daemon.validateStreamName "s" = .ok () ∧
    parse (path ⟨"n", "s/t", "g"⟩) = some ⟨"n", "s", "t/g"⟩ ∧
    path ⟨"n", "s/t", "g"⟩ = path ⟨"n", "s", "t/g"⟩ := by
  decide +kernel

end GroupKey

/-! ### Claims -/

structure LeaderClaim where
  brokerId : String
  address : String
  epoch : ℕ
  timestampMs : ℕ
  group : Option String

namespace LeaderClaim

def key (c : LeaderClaim) : Option GroupKey :=
  c.group.bind GroupKey.parse

def rank (c : LeaderClaim) : ℕ ×ₗ ℕ :=
  toLex (c.epoch, c.timestampMs)

end LeaderClaim

section

variable (claims : List LeaderClaim)

def claimsOf (key : GroupKey) : List LeaderClaim :=
  claims.filter fun c => c.key = some key

def groupKeys : List GroupKey :=
  (claims.filterMap LeaderClaim.key).dedup

/-- The last of the claims with the greatest rank, as `max_by_key` returns it. -/
def latest : Option LeaderClaim :=
  claims.foldl
    (fun best c =>
      match best with
      | none => some c
      | some m => if m.rank ≤ c.rank then some c else some m)
    none

end

/-- `saturating_add(1)` on an epoch. -/
def nextEpoch (epoch : ℕ) : ℕ :=
  if epoch = 2 ^ 64 - 1 then epoch else epoch + 1

/-! ### The view of a broker -/

structure LeaderInfo where
  brokerId : String
  address : String
  epoch : ℕ

inductive Leadership where
  | leader (epoch : ℕ)
  | standby (info : LeaderInfo)

abbrev LeadershipMap := AList fun _ : GroupKey => Leadership

/-- A group that the broker knows no claim of is served. -/
def requireLeader (state : LeadershipMap) (key : GroupKey) : Except String Unit :=
  match state.lookup key with
  | some (.leader _) => .ok ()
  | some (.standby info) => .error s!"not the leader; leader is at {info.address}"
  | none => .ok ()

def ledGroups (state : LeadershipMap) : List (GroupKey × ℕ) :=
  state.entries.filterMap fun e =>
    match e.2 with
    | .leader epoch => some (e.1, epoch)
    | .standby _ => none

/-- What is left to do in a pass of `scan_and_reconcile`. -/
inductive PassOp where
  | judge (key : GroupKey)
  | repost (key : GroupKey) (epoch : ℕ)
  | takeOver (key : GroupKey)
  | fallBack (key : GroupKey)
  | heartbeats
  | write

structure Pass where
  claims : List LeaderClaim
  newState : LeadershipMap
  ops : List PassOp

namespace Pass

/-- The loops over the groups run in the order of a hash map. -/
def start (claims : List LeaderClaim) (judging claiming : List GroupKey) : Pass where
  claims := claims
  newState := ∅
  ops := judging.map .judge ++ claiming.map .takeOver ++ [.heartbeats, .write]

/-- The body of the first loop. A claim that is too old leaves the group for the second loop. -/
def judge (lease now : ℕ) (b : String) (key : GroupKey) (p : Pass) : Pass :=
  match latest (claimsOf p.claims key) with
  | none => p
  | some c =>
    if c.brokerId = b then
      if now - c.timestampMs ≤ lease then
        { p with
          newState := p.newState.insert key (.leader c.epoch)
          ops := .repost key c.epoch :: p.ops }
      else p
    else if now - c.timestampMs ≤ lease then
      { p with
        newState := p.newState.insert key (.standby ⟨c.brokerId, c.address, c.epoch⟩) }
    else p

end Pass

structure ElectionBroker where
  running : Bool
  state : LeadershipMap
  pass : Option Pass

structure Election where
  now : ℕ
  claims : List LeaderClaim
  broker : String → ElectionBroker

/-- An append may fail before it reaches the stream or lose its reply behind it. -/
inductive AppendOutcome where
  | done
  | failed
  | lostReply
  deriving DecidableEq

namespace Election

def init (now : ℕ) (claims : List LeaderClaim) : Election :=
  ⟨now, claims, fun _ => ⟨false, ∅, none⟩⟩

variable (w : Election) (b : String)

def set (broker : ElectionBroker) : Election :=
  { w with broker := Function.update w.broker b broker }

def setPass (p : Pass) : Election :=
  w.set b { w.broker b with pass := some p }

section

variable (address : String → String) (key : GroupKey) (epoch : ℕ)

def claim : LeaderClaim :=
  ⟨b, address b, epoch, w.now, some key.path⟩

def appendClaim (outcome : AppendOutcome) : Election :=
  { w with
    claims := if outcome = .failed then w.claims
      else w.claims ++ [w.claim b address key epoch] }

end

end Election

inductive ElectionEvent where
  | start (b : String)
  | crash (b : String)
  | tick (ms : ℕ)
  | scan (b : String)
  | judge (b : String) (key : GroupKey)
  | repost (b : String) (key : GroupKey) (outcome : AppendOutcome)
  | skip (b : String) (key : GroupKey)
  | takeOver (b : String) (key : GroupKey) (outcome : AppendOutcome)
  | fallBack (b : String) (key : GroupKey) (outcome : AppendOutcome)
  | heartbeats (b : String)
  | write (b : String)

/-- What an event does. A broker that starts knows no group; one that crashes serves nothing. -/
inductive ElectionTrans (lease : ℕ) (address : String → String) :
    Election → ElectionEvent → Election → Prop where
  | start {w b} (hstopped : (w.broker b).running = false) :
      ElectionTrans lease address w (.start b) (w.set b ⟨true, ∅, none⟩)
  | crash {w b} : ElectionTrans lease address w (.crash b) (w.set b ⟨false, ∅, none⟩)
  | tick {w ms} : ElectionTrans lease address w (.tick ms) { w with now := w.now + ms }
  | scan {w b judging claiming}
      (hrunning : (w.broker b).running = true) (hidle : (w.broker b).pass = none)
      (hjudging : judging.Perm (groupKeys w.claims))
      (hclaiming : claiming.Perm (groupKeys w.claims)) :
      ElectionTrans lease address w (.scan b) (w.setPass b (.start w.claims judging claiming))
  | judge {w b p key ops} (hpass : (w.broker b).pass = some p) (hops : p.ops = .judge key :: ops) :
      ElectionTrans lease address w (.judge b key)
        (w.setPass b (({ p with ops := ops } : Pass).judge lease w.now b key))
  | repost {w b p key epoch ops outcome} (hpass : (w.broker b).pass = some p)
      (hops : p.ops = .repost key epoch :: ops) :
      ElectionTrans lease address w (.repost b key outcome)
        ((w.appendClaim b address key epoch outcome).setPass b { p with ops := ops })
  | skip {w b p key ops} (hpass : (w.broker b).pass = some p) (hops : p.ops = .takeOver key :: ops)
      (hkey : key ∈ p.newState) :
      ElectionTrans lease address w (.skip b key) (w.setPass b { p with ops := ops })
  | takeOver {w b p key epoch ops outcome} (hpass : (w.broker b).pass = some p)
      (hops : p.ops = .takeOver key :: ops) (hkey : key ∉ p.newState)
      (hepoch : ((claimsOf p.claims key).map LeaderClaim.epoch).max? = some epoch) :
      ElectionTrans lease address w (.takeOver b key outcome)
        ((w.appendClaim b address key (nextEpoch epoch) outcome).setPass b
          (if outcome = .done then
            { p with newState := p.newState.insert key (.leader (nextEpoch epoch)), ops := ops }
          else { p with ops := .fallBack key :: ops }))
  | fallBack {w b p key ops outcome} (hpass : (w.broker b).pass = some p)
      (hops : p.ops = .fallBack key :: ops) :
      ElectionTrans lease address w (.fallBack b key outcome)
        ((w.appendClaim b address key 1 outcome).setPass b
          (if outcome = .done then
            { p with newState := p.newState.insert key (.leader 1), ops := ops }
          else { p with ops := ops }))
  | heartbeats {w : Election} {b : String} {p : Pass} {ops : List PassOp}
      {led : List (GroupKey × ℕ)} (hpass : (w.broker b).pass = some p)
      (hops : p.ops = .heartbeats :: ops) (hled : led.Perm (ledGroups p.newState)) :
      ElectionTrans lease address w (.heartbeats b)
        (w.setPass b { p with ops := led.map (fun e => .repost e.1 e.2) ++ ops })
  | write {w b p ops} (hpass : (w.broker b).pass = some p) (hops : p.ops = .write :: ops) :
      ElectionTrans lease address w (.write b)
        (w.set b { w.broker b with state := p.newState, pass := none })

def ElectionReachable (lease : ℕ) (address : String → String) (now : ℕ)
    (claims : List LeaderClaim) (ok : Election → ElectionEvent → Prop) (w : Election) : Prop :=
  Relation.ReflTransGen (fun w w' => ∃ ev, ok w ev ∧ ElectionTrans lease address w ev w')
    (.init now claims) w

end LogDb.Broker
