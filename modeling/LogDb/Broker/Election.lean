import LogDb.Broker.Leader

/-!
When the election keeps its promise: passes that do not overlap, claims that do not grow old while
their broker runs, and take-overs whose claims arrive.
-/

namespace LogDb.Broker

open Lib List AList GroupKey

/-! ### The latest claim of a group -/

/-- The broker whose claim counts. -/
def owner (claims : List LeaderClaim) (key : GroupKey) : Option String :=
  (latest (claimsOf claims key)).map LeaderClaim.brokerId

section

variable {claims : List LeaderClaim} {c m : LeaderClaim} {key : GroupKey}

theorem latest_snoc (claims : List LeaderClaim) (c : LeaderClaim) :
    latest (claims ++ [c]) = match latest claims with
      | none => some c
      | some m => if m.rank ≤ c.rank then some c else some m := by
  unfold latest
  rw [foldl_append]
  rfl

theorem latest_mem (h : latest claims = some c) : c ∈ claims := by
  induction claims using reverseRecOn generalizing c with
  | nil => cases h
  | append_singleton claims d ih =>
    rw [latest_snoc] at h
    cases hl : latest claims with
    | none =>
      rw [hl] at h
      cases h
      exact mem_append_right _ mem_cons_self
    | some m =>
      rw [hl] at h
      simp only at h
      split_ifs at h
      · cases h
        exact mem_append_right _ mem_cons_self
      · cases h
        exact mem_append_left _ (ih hl)

theorem claimsOf_snoc_self (h : c.key = some key) :
    claimsOf (claims ++ [c]) key = claimsOf claims key ++ [c] := by
  simp [claimsOf, h]

theorem claimsOf_snoc_ne (h : c.key ≠ some key) :
    claimsOf (claims ++ [c]) key = claimsOf claims key := by
  simp [claimsOf, h]

theorem mem_groupKeys_parse (h : key ∈ groupKeys claims) : parse key.path = some key := by
  obtain ⟨c, -, hk⟩ := mem_filterMap.mp (mem_dedup.mp h)
  obtain ⟨text, -, hp⟩ := Option.bind_eq_some_iff.mp hk
  have hs := slash_notMem_of_parse hp
  exact parse_path hs.1 hs.2

end

/-! ### Appending a claim -/

section

variable {w : Election} {b : String} {address : String → String} {key key' : GroupKey} {epoch : ℕ}
  {outcome : AppendOutcome}

section

variable (w : Election) (b : String) (address : String → String) (key : GroupKey) (epoch : ℕ)
  (outcome : AppendOutcome)

theorem Election.appendClaim_broker :
    (w.appendClaim b address key epoch outcome).broker = w.broker := rfl

theorem Election.appendClaim_now : (w.appendClaim b address key epoch outcome).now = w.now := rfl

end

section

variable (hz : parse key.path = some key)
include hz

theorem Election.claim_key : (w.claim b address key epoch).key = some key := hz

theorem Election.claimsOf_appendClaim_ne (hne : key' ≠ key) :
    claimsOf (w.appendClaim b address key epoch outcome).claims key' = claimsOf w.claims key' := by
  unfold appendClaim
  simp only
  split_ifs
  · rfl
  · apply claimsOf_snoc_ne
    rw [claim_key hz]
    exact fun heq => hne (Option.some.inj heq).symm

theorem Election.owner_appendClaim_ne (hne : key' ≠ key) :
    owner (w.appendClaim b address key epoch outcome).claims key' = owner w.claims key' := by
  unfold owner
  rw [claimsOf_appendClaim_ne hz hne]

theorem Election.owner_appendClaim_own (h : owner w.claims key = some b) :
    owner (w.appendClaim b address key epoch outcome).claims key = some b := by
  unfold appendClaim
  simp only
  split_ifs
  · exact h
  · unfold owner at h ⊢
    rw [claimsOf_snoc_self (claim_key hz), latest_snoc]
    obtain ⟨m, hm, hid⟩ := Option.map_eq_some_iff.mp h
    rw [hm]
    simp only
    split_ifs
    · rfl
    · rw [Option.map_some, hid]

/-- A claim with the next epoch outranks every claim of the group that is not from the future. -/
theorem Election.owner_takeOver
    (he : ((claimsOf w.claims key).map LeaderClaim.epoch).max? = some epoch)
    (hp : ∀ c, latest (claimsOf w.claims key) = some c → c.timestampMs ≤ w.now) :
    owner (w.appendClaim b address key (nextEpoch epoch) .done).claims key = some b := by
  show (latest (claimsOf (w.claims ++ [_]) key)).map LeaderClaim.brokerId = some b
  rw [claimsOf_snoc_self (claim_key hz), latest_snoc]
  cases hm : latest (claimsOf w.claims key) with
  | none => rfl
  | some m =>
    have hle : m.epoch ≤ epoch := (max?_eq_some_iff.mp he).2 _ (mem_map.mpr ⟨m, latest_mem hm, rfl⟩)
    have hn : epoch ≤ nextEpoch epoch := by
      unfold nextEpoch
      split_ifs <;> omega
    have ht := hp m hm
    have hr : m.rank ≤ (w.claim b address key (nextEpoch epoch)).rank := by
      rw [LeaderClaim.rank, LeaderClaim.rank, Prod.Lex.toLex_le_toLex]
      rcases lt_or_eq_of_le (hle.trans hn) with hlt | heq
      · exact .inl hlt
      · exact .inr ⟨heq, ht⟩
    simp only [if_pos hr]
    rfl

end

end

/-! ### The condition and the invariant -/

/-- A broker scans only while no other is in a pass; a claim that a broker finds too old is its own
or of a broker that does not run; and the claim of a take-over is appended. -/
def ElectionEvent.Orderly (lease : ℕ) (w : Election) : ElectionEvent → Prop
  | .scan _ => ∀ b, (w.broker b).pass = none
  | .judge b key => ∀ p, (w.broker b).pass = some p →
    ∀ c, latest (claimsOf p.claims key) = some c → c.brokerId ≠ b →
      (w.broker c.brokerId).running = true → w.now - c.timestampMs ≤ lease
  | .takeOver _ _ outcome => outcome = .done
  | _ => True

def NotLed (state : LeadershipMap) (key : GroupKey) : Prop :=
  ∀ epoch, state.lookup key ≠ some (.leader epoch)

def PassOp.key : PassOp → Option GroupKey
  | judge key => some key
  | repost key _ => some key
  | takeOver key => some key
  | fallBack key => some key
  | heartbeats => none
  | write => none

/-- Only claims that were judged to be the broker's own stand before the judging of a group. -/
def PassOp.Before (a c : PassOp) : Prop :=
  ∀ key, c = .judge key →
    (∃ key' epoch, a = .repost key' epoch) ∨ ∃ key', key' ≠ key ∧ a = .judge key'

/-- No other broker leads the group, and its latest claim is not from the future. -/
structure Vacant (w : Election) (b : String) (claims : List LeaderClaim) (key : GroupKey) :
    Prop where
  others : ∀ b', b' ≠ b → (w.broker b').running = true → NotLed (w.broker b').state key
  past : ∀ c, latest (claimsOf claims key) = some c → c.timestampMs ≤ w.now

structure PassInv (w : Election) (b : String) (p : Pass) : Prop where
  running : (w.broker b).running = true
  leads : ∀ key epoch, p.newState.lookup key = some (.leader epoch) → owner w.claims key = some b
  unclaimed : ∀ key, NotLed p.newState key → claimsOf w.claims key = claimsOf p.claims key
  named : ∀ op ∈ p.ops, ∀ key, op.key = some key → parse key.path = some key
  entered : ∀ key ∈ p.newState, parse key.path = some key
  ordered : p.ops.Pairwise PassOp.Before
  unjudged : ∀ key, .judge key ∈ p.ops → key ∉ p.newState
  vacant : ∀ key, .takeOver key ∈ p.ops → key ∉ p.newState →
    .judge key ∈ p.ops ∨ Vacant w b p.claims key
  reposts : ∀ key epoch, .repost key epoch ∈ p.ops → ¬ NotLed p.newState key
  arrives : ∀ key, .fallBack key ∉ p.ops

structure ElectionInv (w : Election) : Prop where
  exclusive : ∀ b b' p p', (w.broker b).pass = some p → (w.broker b').pass = some p' → b = b'
  leaders : ∀ b, (w.broker b).running = true → ∀ key epoch,
    (w.broker b).state.lookup key = some (.leader epoch) → owner w.claims key = some b
  passes : ∀ b p, (w.broker b).pass = some p → PassInv w b p

variable {state : LeadershipMap} {key : GroupKey}

theorem notLed_of_notMem (h : key ∉ state) : NotLed state key := by
  intro epoch hl
  rw [lookup_eq_none.mpr h] at hl
  cases hl

section

variable {w w' : Election} {b : String} {p p' : Pass} {lease : ℕ} {address : String → String}

/-- What a pass relies on stays true while time goes on and other brokers start or crash. -/
theorem PassInv.frame (h : PassInv w b p) (hs : w'.claims = w.claims) (hn : w.now ≤ w'.now)
    (hrn : (w'.broker b).running = true)
    (ho : ∀ b', b' ≠ b → (w'.broker b').running = true → ∀ key, ¬ NotLed (w'.broker b').state key →
        (w.broker b').running = true ∧ ¬ NotLed (w.broker b').state key) :
    PassInv w' b p :=
  { h with
    running := hrn
    leads := by
      rw [hs]
      exact h.leads
    unclaimed := by
      rw [hs]
      exact h.unclaimed
    vacant := by
      intro key hp hk
      refine (h.vacant key hp hk).imp_right fun hv => ⟨?_, ?_⟩
      · intro b' hb' hr
        by_contra hl
        obtain ⟨hr', hl'⟩ := ho b' hb' hr key hl
        exact hl' (hv.others b' hb' hr')
      · exact fun c hc => (hv.past c hc).trans hn }

theorem Election.broker_set (w : Election) (b b' : String) (broker : ElectionBroker) :
    (w.set b broker).broker b' = if b' = b then broker else w.broker b' :=
  Function.update_apply ..

namespace ElectionInv

theorem init (now : ℕ) (claims : List LeaderClaim) : ElectionInv (.init now claims) where
  exclusive b b' p p' hp := by cases hp
  leaders b hr := by cases hr
  passes b p hp := by cases hp

theorem reset (h : ElectionInv w) (running : Bool) : ElectionInv (w.set b ⟨running, ∅, none⟩) where
  exclusive b₁ b₂ p₁ p₂ h₁ h₂ := by
    rw [Election.broker_set] at h₁ h₂
    split_ifs at h₁ h₂
    exact h.exclusive b₁ b₂ p₁ p₂ h₁ h₂
  leaders b' hr key epoch hk := by
    rw [Election.broker_set] at hr hk
    split_ifs at hr hk
    · cases hk
    · exact h.leaders b' hr key epoch hk
  passes b' p hp := by
    rw [Election.broker_set] at hp
    split_ifs at hp with hb'
    have hi := h.passes b' p hp
    refine PassInv.frame hi rfl le_rfl ?_ fun b'' _ hr key hl => ?_
    · rw [Election.broker_set, if_neg hb']
      exact hi.running
    · rw [Election.broker_set] at hr hl
      split_ifs at hr hl
      · exact absurd (notLed_of_notMem (notMem_empty key)) hl
      · exact ⟨hr, hl⟩

theorem tick (h : ElectionInv w) (ms : ℕ) : ElectionInv { w with now := w.now + ms } :=
  { h with
    passes := by
      intro b p hp
      have hi := h.passes b p hp
      exact PassInv.frame hi rfl (Nat.le_add_right _ _) hi.running fun b' _ hr key hl => ⟨hr, hl⟩ }

theorem alone (h : ElectionInv w) (hp : (w.broker b).pass = some p) {b' : String}
    (hne : b' ≠ b) : (w.broker b').pass = none := by
  cases hp' : (w.broker b').pass with
  | none => rfl
  | some p' => exact absurd (h.exclusive b' b p' p hp' hp) hne

/-- A broker begins or goes on with its pass while no other is in one; it may append claims. -/
theorem advance (ha : ∀ b', b' ≠ b → (w.broker b').pass = none) (hs : w'.broker = w.broker)
    (hls : ∀ b', (w.broker b').running = true → ∀ key epoch,
      (w.broker b').state.lookup key = some (.leader epoch) → owner w'.claims key = some b')
    (hn : PassInv w' b p') : ElectionInv (w'.setPass b p') := by
  have he : ∀ b', (w'.setPass b p').broker b' =
      if b' = b then { w.broker b with pass := some p' } else w.broker b' := by
    intro b'
    rw [Election.setPass, Election.broker_set, hs]
  have hrn : ∀ b', ((w'.setPass b p').broker b').running = (w.broker b').running ∧
      ((w'.setPass b p').broker b').state = (w.broker b').state := by
    intro b'
    rw [he]
    split_ifs with hb' <;> simp [hb']
  have hb : ∀ {b' q}, ((w'.setPass b p').broker b').pass = some q → b' = b ∧ q = p' := by
    intro b' q hq
    rw [he] at hq
    split_ifs at hq with hb'
    · exact ⟨hb', (Option.some.inj hq).symm⟩
    · rw [ha b' hb'] at hq
      cases hq
  constructor
  · intro b₁ b₂ p₁ p₂ h₁ h₂
    rw [(hb h₁).1, (hb h₂).1]
  · intro b' hr key epoch hk
    rw [(hrn b').1] at hr
    rw [(hrn b').2] at hk
    exact hls b' hr key epoch hk
  · intro b' q hq
    obtain ⟨rfl, rfl⟩ := hb hq
    refine PassInv.frame hn rfl le_rfl ?_ ?_
    · rw [(hrn b').1, ← hs]
      exact hn.running
    · intro b'' _ hr key hl
      rw [(hrn b'').1, ← hs] at hr
      rw [(hrn b'').2, ← hs] at hl
      exact ⟨hr, hl⟩

end ElectionInv

theorem ElectionInv.write (h : ElectionInv w) (hp : (w.broker b).pass = some p) :
    ElectionInv (w.set b { w.broker b with state := p.newState, pass := none }) := by
  have hn : ∀ b', ((w.set b { w.broker b with state := p.newState, pass := none }).broker
      b').pass = none := by
    intro b'
    rw [Election.broker_set]
    split_ifs with hb'
    · rfl
    · exact h.alone hp hb'
  refine ⟨fun _ _ _ _ h₁ => ?_, fun b' hr key epoch hl => ?_, fun _ _ hq => ?_⟩
  · rw [hn] at h₁
    cases h₁
  · rw [Election.broker_set] at hr hl
    split_ifs at hr hl with hb'
    · exact hb' ▸ (h.passes _ _ hp).leads key epoch hl
    · exact h.leaders b' hr key epoch hl
  · rw [hn] at hq
    cases hq

/-! ### The steps of a pass -/

theorem PassInv.start {judging claiming : List GroupKey} (hr : (w.broker b).running = true)
    (hj : judging.Perm (groupKeys w.claims)) (hc : claiming.Perm (groupKeys w.claims)) :
    PassInv w b (.start w.claims judging claiming) where
  running := hr
  leads key epoch hl := by cases hl
  unclaimed key _ := rfl
  named op ho key he := by
    simp only [Pass.start, mem_append, mem_map, mem_cons, not_mem_nil, or_false] at ho
    obtain (⟨k, hk, rfl⟩ | ⟨k, hk, rfl⟩) | rfl | rfl := ho
    · cases he
      exact mem_groupKeys_parse (hj.subset hk)
    · cases he
      exact mem_groupKeys_parse (hc.subset hk)
    · cases he
    · cases he
  entered key he := absurd he (notMem_empty key)
  ordered := by
    have hn : judging.Nodup := hj.nodup_iff.mpr (nodup_dedup _)
    have hd : (judging.map PassOp.judge).Pairwise PassOp.Before := by
      rw [pairwise_map]
      refine hn.imp ?_
      intro k k' hne key he
      cases he
      exact .inr ⟨k, hne, rfl⟩
    have ht : ∀ a, ∀ op ∈ claiming.map PassOp.takeOver ++ [.heartbeats, .write],
        PassOp.Before a op := by
      intro a op ho key he
      subst he
      simp at ho
    rw [Pass.start, append_assoc]
    refine pairwise_append.mpr ⟨hd, ?_, fun a _ op ho => ht a op ho⟩
    exact List.Pairwise.imp_of_mem (fun _ ho _ => ht _ _ ho) (pairwise_of_forall fun _ _ => trivial)
  unjudged key _ := notMem_empty key
  vacant key ho _ := by
    have hm : key ∈ claiming := by simpa [Pass.start] using ho
    have hd : key ∈ judging := hj.symm.subset (hc.subset hm)
    simp [Pass.start, hd]
  reposts key epoch ho := by simp [Pass.start] at ho
  arrives key ho := by simp [Pass.start] at ho

namespace PassInv

variable {key : GroupKey} {op : PassOp} {ops : List PassOp}

theorem mem_of_tail (hu : p.ops = op :: ops) {o : PassOp} (ho : o ∈ ops) : o ∈ p.ops :=
  hu ▸ mem_cons_of_mem _ ho

theorem head_mem (hu : p.ops = op :: ops) : op ∈ p.ops :=
  hu ▸ mem_cons_self

section

variable (h : PassInv w b p) (hu : p.ops = op :: ops)
include h hu

theorem tail_ordered : (∀ o ∈ ops, op.Before o) ∧ ops.Pairwise PassOp.Before :=
  pairwise_cons.mp (hu ▸ h.ordered)

theorem next (hj : ∀ key, op = .judge key → Vacant w b p.claims key) :
    PassInv w b { p with ops := ops } := by
  have hs {o : PassOp} := mem_of_tail (o := o) hu
  exact
    { h with
      named := fun o ho => h.named o (hs ho)
      ordered := (h.tail_ordered hu).2
      unjudged := fun key ho => h.unjudged key (hs ho)
      vacant := by
        intro key ho hk
        rcases h.vacant key (hs ho) hk with hd | hv
        · rw [hu] at hd
          rcases mem_cons.mp hd with heq | hm
          · exact .inr (hj key heq.symm)
          · exact .inl hm
        · exact .inr hv
      reposts := fun key epoch ho => h.reposts key epoch (hs ho)
      arrives := fun key ho => h.arrives key (hs ho) }

/-- A group enters the new view: by its judging, or by a claim that makes the broker its owner. -/
theorem enter (hp : op.key = some key) (hj : ∀ key', .judge key' ∈ ops → key' ≠ key)
    (hjd : ∀ key', op = .judge key' → key' = key) (hn : key ∉ p.newState)
    (hb : w'.broker = w.broker) (hw : w'.now = w.now)
    (ht : ∀ key', key' ≠ key → claimsOf w'.claims key' = claimsOf w.claims key')
    (entry : Leadership) (hr : ∀ epoch, entry = .leader epoch → owner w'.claims key = some b)
    (hy : (∀ epoch, entry ≠ .leader epoch) → w'.claims = w.claims) :
    PassInv w' b { p with newState := p.newState.insert key entry, ops := ops } := by
  have hs {o : PassOp} := mem_of_tail (o := o) hu
  have hz := h.named op (head_mem hu) key hp
  constructor
  case running =>
    rw [hb]
    exact h.running
  case leads =>
    intro key' epoch hlk
    by_cases hk : key' = key
    · subst hk
      rw [lookup_insert] at hlk
      exact hr epoch (Option.some.inj hlk)
    · rw [lookup_insert_ne hk] at hlk
      unfold owner
      rw [ht key' hk]
      exact h.leads key' epoch hlk
  case unclaimed =>
    intro key' hl
    by_cases hk : key' = key
    · subst hk
      have he : ∀ epoch, entry ≠ .leader epoch := by
        rintro epoch rfl
        exact hl epoch (lookup_insert _)
      rw [hy he]
      exact h.unclaimed key' (notLed_of_notMem hn)
    · rw [ht key' hk]
      apply h.unclaimed key'
      intro epoch hlk
      apply hl epoch
      rw [lookup_insert_ne hk]
      exact hlk
  case named => exact fun o ho => h.named o (hs ho)
  case entered =>
    intro key' hm
    rcases (mem_insert _).mp hm with rfl | hm
    · exact hz
    · exact h.entered key' hm
  case ordered => exact (h.tail_ordered hu).2
  case unjudged =>
    intro key' ho hm
    rcases (mem_insert _).mp hm with heq | hm
    · exact hj key' ho heq
    · exact h.unjudged key' (hs ho) hm
  case vacant =>
    intro key' ho hk
    have hne : key' ≠ key := fun heq => hk ((mem_insert _).mpr (.inl heq))
    have ha : key' ∉ p.newState := fun hm => hk ((mem_insert _).mpr (.inr hm))
    rcases h.vacant key' (hs ho) ha with hd | hv
    · rw [hu] at hd
      rcases mem_cons.mp hd with heq | hm
      · exact absurd (hjd key' heq.symm) hne
      · exact .inl hm
    · refine .inr ⟨?_, ?_⟩
      · rw [hb]
        exact hv.others
      · rw [hw]
        exact hv.past
  case reposts =>
    intro key' epoch ho hl
    have hne : key' ≠ key := by
      rintro rfl
      exact h.reposts key' epoch (hs ho) (notLed_of_notMem hn)
    apply h.reposts key' epoch (hs ho)
    intro epoch' hlk
    apply hl epoch'
    rw [lookup_insert_ne hne]
    exact hlk
  case arrives => exact fun key' ho => h.arrives key' (hs ho)

end

theorem repost (h : PassInv w b p) (reposts : List (GroupKey × ℕ))
    (hl : ∀ e ∈ reposts, ¬ NotLed p.newState e.1) :
    PassInv w b { p with ops := reposts.map (fun e => .repost e.1 e.2) ++ p.ops } := by
  have hd : ∀ {o : PassOp}, (∀ key epoch, o ≠ .repost key epoch) →
      o ∈ reposts.map (fun e => PassOp.repost e.1 e.2) ++ p.ops → o ∈ p.ops := by
    intro o ho hm
    refine (mem_append.mp hm).resolve_left fun hi => ?_
    obtain ⟨e, -, rfl⟩ := mem_map.mp hi
    exact ho _ _ rfl
  have hk : ∀ e ∈ reposts, e.1 ∈ p.newState := by
    intro e he
    by_contra hn
    exact hl e he (notLed_of_notMem hn)
  exact
    { h with
      named := by
        intro o ho key hk'
        rcases mem_append.mp ho with hi | hi
        · obtain ⟨e, he, rfl⟩ := mem_map.mp hi
          cases hk'
          exact h.entered e.1 (hk e he)
        · exact h.named o hi key hk'
      ordered := by
        refine pairwise_append.mpr ⟨?_, h.ordered, ?_⟩
        · rw [pairwise_map]
          refine pairwise_of_forall fun _ _ key hj => ?_
          cases hj
        · intro a ha o _ key _
          obtain ⟨e, -, rfl⟩ := mem_map.mp ha
          exact .inl ⟨e.1, e.2, rfl⟩
      unjudged := fun key ho => h.unjudged key (hd (by simp) ho)
      vacant := by
        intro key ho hn
        exact (h.vacant key (hd (by simp) ho) hn).imp_left (mem_append_right _)
      reposts := by
        intro key epoch ho
        rcases mem_append.mp ho with hi | hi
        · obtain ⟨e, he, heq⟩ := mem_map.mp hi
          cases heq
          exact hl e he
        · exact h.reposts key epoch hi
      arrives := fun key ho => h.arrives key (hd (by simp) ho) }

theorem post (h : PassInv w b p) (hl : ¬ NotLed p.newState key) (epoch : ℕ)
    (outcome : AppendOutcome) : PassInv (w.appendClaim b address key epoch outcome) b p := by
  have hz : parse key.path = some key := by
    apply h.entered
    by_contra hn
    exact hl (notLed_of_notMem hn)
  exact
    { h with
      leads := by
        intro key' epoch' hlk
        by_cases hk : key' = key
        · subst hk
          exact Election.owner_appendClaim_own hz (h.leads key' epoch' hlk)
        · rw [Election.owner_appendClaim_ne hz hk]
          exact h.leads key' epoch' hlk
      unclaimed := by
        intro key' hl'
        have hk : key' ≠ key := by
          rintro rfl
          exact hl hl'
        rw [Election.claimsOf_appendClaim_ne hz hk]
        exact h.unclaimed key' hl'
      vacant := by
        intro key' ho hn
        exact (h.vacant key' ho hn).imp_right fun hv => ⟨hv.others, hv.past⟩ }

end PassInv

theorem ledGroups_led {state : LeadershipMap} {e : GroupKey × ℕ} (h : e ∈ ledGroups state) :
    ¬ NotLed state e.1 := by
  obtain ⟨⟨key, entry⟩, hm, heq⟩ := mem_filterMap.mp h
  cases entry with
  | leader epoch =>
    cases heq
    exact fun hl => hl epoch (mem_lookup_iff.mpr hm)
  | standby info => cases heq

variable {key : GroupKey}

/-- A group whose latest claim is no running rival's is led by no rival. -/
theorem ElectionInv.vacant (h : ElectionInv w) (hp : PassInv w b p) (hk : key ∉ p.newState)
    (hd : ∀ c, latest (claimsOf p.claims key) = some c → c.timestampMs ≤ w.now ∧
      (c.brokerId ≠ b → (w.broker c.brokerId).running ≠ true)) : Vacant w b p.claims key := by
  constructor
  · intro b' hb' hr epoch hl
    have ho := h.leaders b' hr key epoch hl
    unfold owner at ho
    rw [hp.unclaimed key (notLed_of_notMem hk)] at ho
    obtain ⟨c, hc, rfl⟩ := Option.map_eq_some_iff.mp ho
    exact (hd c hc).2 hb' hr
  · exact fun c hc => (hd c hc).1

theorem PassInv.judge {ops : List PassOp} (hi : ElectionInv w) (h : PassInv w b p)
    (hu : p.ops = .judge key :: ops)
    (hok : ∀ c, latest (claimsOf p.claims key) = some c → c.brokerId ≠ b →
      (w.broker c.brokerId).running = true → w.now - c.timestampMs ≤ lease) :
    PassInv w b (({ p with ops := ops } : Pass).judge lease w.now b key) := by
  have hk := h.unjudged key (head_mem hu)
  have hj : ∀ key', .judge key' ∈ ops → key' ≠ key := by
    rintro key' ho rfl
    obtain ⟨k, e, heq⟩ | ⟨k, hne, heq⟩ := (h.tail_ordered hu).1 _ ho key' rfl
    · cases heq
    · cases heq
      exact hne rfl
  have her : ∀ entry : Leadership, (∀ epoch, entry = .leader epoch → owner w.claims key = some b) →
        PassInv w b { p with newState := p.newState.insert key entry, ops := ops } := by
    intro entry hy
    refine h.enter hu rfl hj ?_ hk rfl rfl (fun _ _ => rfl) entry hy fun _ => rfl
    intro key' heq
    cases heq
    rfl
  have hv : (∀ c, latest (claimsOf p.claims key) = some c → c.timestampMs ≤ w.now ∧
      (c.brokerId ≠ b → (w.broker c.brokerId).running ≠ true)) →
        PassInv w b { p with ops := ops } := by
    intro hd
    refine h.next hu ?_
    intro key' heq
    cases heq
    exact hi.vacant h hk hd
  unfold Pass.judge
  cases hc : latest (claimsOf p.claims key) with
  | none =>
    apply hv
    intro c hc'
    rw [hc] at hc'
    cases hc'
  | some c =>
    simp only
    split_ifs with hw hf hf
    · have hor : owner w.claims key = some b := by
        unfold owner
        rw [h.unclaimed key (notLed_of_notMem hk), hc, Option.map_some, hw]
      have hn := her (.leader c.epoch) fun _ _ => hor
      refine hn.repost [(key, c.epoch)] ?_
      intro e he
      rw [mem_singleton.mp he]
      exact fun hl => hl c.epoch (lookup_insert _)
    · apply hv
      intro c' hc'
      cases hc.symm.trans hc'
      exact ⟨by omega, fun hne => absurd hw hne⟩
    · refine her _ ?_
      intro epoch heq
      cases heq
    · apply hv
      intro c' hc'
      cases hc.symm.trans hc'
      exact ⟨by omega, fun _ hr => hf (hok c hc hw hr)⟩

/-- A claim changes the owner of its group only, and there no rival leads. -/
theorem ElectionInv.leaders_appendClaim {epoch : ℕ} {outcome : AppendOutcome} (h : ElectionInv w)
    (hz : parse key.path = some key)
    (hrl : ∀ b', b' ≠ b → (w.broker b').running = true → NotLed (w.broker b').state key)
    (ho : owner (w.appendClaim b address key epoch outcome).claims key = some b) (b' : String)
    (hr : (w.broker b').running = true) (key' : GroupKey) (epoch' : ℕ)
    (hl : (w.broker b').state.lookup key' = some (.leader epoch')) :
    owner (w.appendClaim b address key epoch outcome).claims key' = some b' := by
  by_cases hk : key' = key
  · subst hk
    have hb : b' = b := by
      by_contra hne
      exact hrl b' hne hr epoch' hl
    rw [ho, hb]
  · rw [Election.owner_appendClaim_ne hz hk]
    exact h.leaders b' hr key' epoch' hl

theorem ElectionInv.step {ev : ElectionEvent} (h : ElectionInv w) (hok : ev.Orderly lease w)
    (htr : ElectionTrans lease address w ev w') : ElectionInv w' := by
  cases htr with
  | start hs => exact h.reset true
  | crash => exact h.reset false
  | tick => exact h.tick _
  | scan hrn hi hg hc =>
    exact advance (fun b' _ => hok b') rfl h.leaders (.start hrn hg hc)
  | judge hps hu =>
    exact advance (fun b' => h.alone hps) rfl h.leaders
      (PassInv.judge h (h.passes _ _ hps) hu (hok _ hps))
  | @repost b p key epoch ops outcome hps hu =>
    have hp := h.passes _ _ hps
    have hl := hp.reposts key epoch (PassInv.head_mem hu)
    have hx : PassInv w b { p with ops := ops } := by
      refine hp.next hu ?_
      rintro _ ⟨⟩
    obtain ⟨epoch', hlk⟩ : ∃ epoch', p.newState.lookup key = some (.leader epoch') := by
      by_contra hn
      exact hl fun epoch' hlk => hn ⟨epoch', hlk⟩
    have hw := hp.leads key epoch' hlk
    have hz := hp.named _ (PassInv.head_mem hu) key rfl
    refine advance (fun b' => h.alone hps) rfl ?_ (hx.post hl epoch outcome)
    refine h.leaders_appendClaim hz ?_ (Election.owner_appendClaim_own hz hw)
    intro b' hne hr epoch'' hl'
    have ho' := h.leaders b' hr key epoch'' hl'
    rw [hw] at ho'
    exact hne (Option.some.inj ho').symm
  | @skip b p key ops hps hu hk =>
    have hp := h.passes _ _ hps
    refine advance (fun b' => h.alone hps) rfl h.leaders (hp.next hu ?_)
    rintro _ ⟨⟩
  | @takeOver b p key epoch ops outcome hps hu hk hep =>
    cases hok
    have hp := h.passes _ _ hps
    have hh := PassInv.head_mem hu
    -- All groups are judged before the second loop.
    have hj : ∀ key', .judge key' ∉ ops := by
      intro key' ho
      obtain ⟨k, e, heq⟩ | ⟨k, -, heq⟩ := (hp.tail_ordered hu).1 _ ho key' rfl
      · cases heq
      · cases heq
    have hv : Vacant w b p.claims key := by
      refine (hp.vacant key hh hk).resolve_left fun hd => ?_
      rw [hu] at hd
      rcases mem_cons.mp hd with heq | hm
      · cases heq
      · exact hj key hm
    have hz := hp.named _ hh key rfl
    have hcs := hp.unclaimed key (notLed_of_notMem hk)
    rw [← hcs] at hep
    have hw : owner (w.appendClaim b address key (nextEpoch epoch) .done).claims key = some b := by
      apply Election.owner_takeOver hz hep
      rw [hcs]
      exact hv.past
    have ht : PassInv (w.appendClaim b address key (nextEpoch epoch) .done) b
        { p with newState := p.newState.insert key (.leader (nextEpoch epoch)), ops := ops } := by
      apply hp.enter hu rfl (fun key' ho => absurd ho (hj key')) _ hk
        (w.appendClaim_broker b address key _ _) (w.appendClaim_now b address key _ _)
      · exact fun key' hne => Election.claimsOf_appendClaim_ne hz hne
      · exact fun _ _ => hw
      · exact fun hy => absurd rfl (hy _)
      · rintro _ ⟨⟩
    rw [if_pos rfl]
    exact advance (fun b' => h.alone hps) rfl (h.leaders_appendClaim hz hv.others hw) ht
  | @fallBack b p key ops outcome hps hu =>
    exact absurd (PassInv.head_mem hu) ((h.passes _ _ hps).arrives key)
  | @heartbeats b p ops led hps hu hl =>
    have hp := h.passes _ _ hps
    have hx : PassInv w b { p with ops := ops } := by
      refine hp.next hu ?_
      rintro _ ⟨⟩
    refine advance (fun b' => h.alone hps) rfl h.leaders (hx.repost led ?_)
    exact fun e he => ledGroups_led (hl.subset he)
  | @write b p ops hps hu => exact h.write hps

theorem ElectionInv.reachable {now : ℕ} {claims : List LeaderClaim}
    (h : ElectionReachable lease address now claims (fun w ev => ev.Orderly lease w) w) :
    ElectionInv w :=
  invariant_of_steps h (.init now claims) fun _ _ h ⟨_, hok, ht⟩ => h.step hok ht

end

theorem requireLeader_ok (hk : key ∈ state) (h : requireLeader state key = .ok ()) :
    ∃ epoch, state.lookup key = some (.leader epoch) := by
  obtain ⟨entry, hl⟩ := Option.isSome_iff_exists.mp (lookup_isSome.mpr hk)
  cases entry with
  | leader epoch => exact ⟨epoch, hl⟩
  | standby info =>
    unfold requireLeader at h
    rw [hl] at h
    cases h

/-- If passes do not overlap, no claim of a running broker is found too old and the claims of
take-overs arrive, then at most one of the brokers that know a group serves it. -/
theorem at_most_one_leader {lease : ℕ} {address : String → String} {now : ℕ}
    {claims : List LeaderClaim} {w : Election}
    (h : ElectionReachable lease address now claims (fun w ev => ev.Orderly lease w) w)
    {key : GroupKey} (hknown : ∀ b, (w.broker b).running = true → key ∈ (w.broker b).state)
    {b b' : String} (hrunning : (w.broker b).running = true)
    (hrunning' : (w.broker b').running = true)
    (hleader : requireLeader (w.broker b).state key = .ok ())
    (hleader' : requireLeader (w.broker b').state key = .ok ()) : b = b' := by
  have hi := ElectionInv.reachable h
  obtain ⟨epoch, hl⟩ := requireLeader_ok (hknown b hrunning) hleader
  obtain ⟨epoch', hl'⟩ := requireLeader_ok (hknown b' hrunning') hleader'
  have ho := hi.leaders b hrunning key epoch hl
  have ho' := hi.leaders b' hrunning' key epoch' hl'
  rw [ho] at ho'
  exact Option.some.inj ho'

/-- A stream that holds one claim for a group, made at time zero. -/
def staleClaims : List LeaderClaim :=
  [⟨"b0", "host0", 1, 0, some "n/s/g"⟩]

theorem perm_staleClaims : [⟨"n", "s", "g"⟩].Perm (groupKeys staleClaims) :=
  .of_eq (by decide)

/-- A broker takes over the group of a broker that is gone. -/
theorem at_most_one_leader_after_takeOver :
    ∃ w, ElectionReachable 15000 (fun _ => "host") 20000 staleClaims
        (fun w ev => ev.Orderly 15000 w) w ∧
      requireLeader (w.broker "b1").state ⟨"n", "s", "g"⟩ = .ok () ∧
      ∀ b, (w.broker b).running = true →
        requireLeader (w.broker b).state ⟨"n", "s", "g"⟩ = .ok () → "b1" = b := by
  have hk := perm_staleClaims
  have h₀ : ElectionReachable 15000 (fun _ => "host") 20000 staleClaims
      (fun w ev => ev.Orderly 15000 w) (.init 20000 staleClaims) := .refl
  have hh := h₀.step (.start "b1") trivial (.start rfl)
    |>.step (.scan "b1") (fun b => by
      by_cases hb : b = "b1"
      · subst hb
        rfl
      · rw [Election.broker_set, if_neg hb]
        rfl) (.scan rfl rfl hk hk)
    |>.step (.judge "b1" ⟨"n", "s", "g"⟩) (by
      intro p hp c hc _ hr
      cases hp
      cases hc
      cases hr) (.judge rfl rfl)
    |>.step (.takeOver "b1" ⟨"n", "s", "g"⟩ .done) rfl (.takeOver rfl rfl (by decide) rfl)
    |>.step (.heartbeats "b1") trivial (.heartbeats rfl rfl (.refl _))
    |>.step (.repost "b1" ⟨"n", "s", "g"⟩ .done) trivial (.repost rfl rfl)
    |>.step (.write "b1") trivial (.write rfl rfl)
  refine ⟨_, hh, rfl, fun b hr hl => ?_⟩
  refine at_most_one_leader hh ?_ rfl hr rfl hl
  intro b' hr'
  by_cases hb : b' = "b1"
  · subst hb
    decide
  · simp [Election.set, Election.setPass, Election.appendClaim, Election.init, hb] at hr'

/-- Two brokers that have just started serve any group, and two that find the same claim too old
both take the group over with the same epoch. -/
theorem two_leaders : (∃ w, ElectionReachable 15000 (fun _ => "host") 0 [] (fun _ _ => True) w ∧
      (w.broker "b1").running = true ∧ (w.broker "b2").running = true ∧
      requireLeader (w.broker "b1").state ⟨"n", "s", "g"⟩ = .ok () ∧
      requireLeader (w.broker "b2").state ⟨"n", "s", "g"⟩ = .ok ()) ∧
    ∃ w, ElectionReachable 15000 (fun _ => "host") 20000 staleClaims (fun _ _ => True) w ∧
      (w.broker "b1").running = true ∧ (w.broker "b2").running = true ∧
      (w.broker "b1").state.lookup ⟨"n", "s", "g"⟩ = some (.leader 2) ∧
      (w.broker "b2").state.lookup ⟨"n", "s", "g"⟩ = some (.leader 2) ∧
      requireLeader (w.broker "b1").state ⟨"n", "s", "g"⟩ = .ok () ∧
      requireLeader (w.broker "b2").state ⟨"n", "s", "g"⟩ = .ok () := by
  constructor
  · have h₀ : ElectionReachable 15000 (fun _ => "host") 0 [] (fun _ _ => True) (.init 0 []) := .refl
    have hr := h₀.step (.start "b1") trivial (.start rfl)
      |>.step (.start "b2") trivial (.start rfl)
    exact ⟨_, hr, rfl, rfl, rfl, rfl⟩
  · have hk := perm_staleClaims
    have h₀ : ElectionReachable 15000 (fun _ => "host") 20000 staleClaims (fun _ _ => True)
        (.init 20000 staleClaims) := .refl
    have hr := h₀.step (.start "b1") trivial (.start rfl)
      |>.step (.start "b2") trivial (.start rfl)
      -- Both read the stream before either of them writes to it.
      |>.step (.scan "b1") trivial (.scan rfl rfl hk hk)
      |>.step (.scan "b2") trivial (.scan rfl rfl hk hk)
      |>.step (.judge "b1" ⟨"n", "s", "g"⟩) trivial (.judge rfl rfl)
      |>.step (.judge "b2" ⟨"n", "s", "g"⟩) trivial (.judge rfl rfl)
      |>.step (.takeOver "b1" ⟨"n", "s", "g"⟩ .done) trivial
        (.takeOver rfl rfl (by decide) rfl)
      |>.step (.takeOver "b2" ⟨"n", "s", "g"⟩ .done) trivial
        (.takeOver rfl rfl (by decide) rfl)
      |>.step (.heartbeats "b1") trivial (.heartbeats rfl rfl (.refl _))
      |>.step (.repost "b1" ⟨"n", "s", "g"⟩ .done) trivial (.repost rfl rfl)
      |>.step (.write "b1") trivial (.write rfl rfl)
      |>.step (.heartbeats "b2") trivial (.heartbeats rfl rfl (.refl _))
      |>.step (.repost "b2" ⟨"n", "s", "g"⟩ .done) trivial (.repost rfl rfl)
      |>.step (.write "b2") trivial (.write rfl rfl)
    exact ⟨_, hr, rfl, rfl, rfl, rfl, rfl, rfl⟩

end LogDb.Broker
