import LogDb.Daemon.Appends
import LogDb.Daemon.Quota
import LogDb.Lib.Forall2

/-!
`Subscribe`: a handler first replays the log and then takes what the publisher sends on from the
durable part of it. The log, the publisher and the handler take their steps in any order.
-/

namespace LogDb.Daemon

open Lib Format List Engine

variable {fromGid n toGid : ℕ}

/-- What a consumer asks for, with the offset it has committed. -/
structure SubscribeRequest where
  stream : UInt64
  lastCommitted : ℕ
  eventTypes : List String

def SubscribeRequest.wants (req : SubscribeRequest) (r : DecodedRecord) : Bool :=
  r.streamId = req.stream && (req.lastCommitted < r.seq.toNat && req.eventTypes.contains r.eventType)

def Engine.scanRecords (db : Engine n) (fromGid toGid : ℕ) :
    Except StorageError (List (ℕ × DecodedRecord)) :=
  (db.scan fromGid toGid).mapM fun r => (decodeAt n r.1 r.2).map fun d => (r.1, d)

inductive HandlerPhase where
  | idle
  | replaying (rest : List (ℕ × DecodedRecord))
  | live (queue : List (ℕ × DecodedRecord))
  | stopped

/-- `SubscribeHub::publish`: only a handler that has subscribed gets the record. -/
def HandlerPhase.publish (req : SubscribeRequest) (x : ℕ × DecodedRecord) :
    HandlerPhase → HandlerPhase
  | .live queue => .live (if x.2.streamId = req.stream then queue ++ [x] else queue)
  | handler => handler

/-- One handler, the publisher and the log. A poll of the publisher has the cursor it has read and
the records it has still to look at. -/
structure Subscription (n : ℕ) where
  db : Engine n
  tombstones : TombstoneTracker
  lastGid : ℕ
  poll : Option (ℕ × List (ℕ × DecodedRecord))
  handler : HandlerPhase
  delivered : List (ℕ × DecodedRecord)

inductive SubscribeEvent (n : ℕ) where
  | append (s : Fin n) (content : Bytes)
  | progress (db : Engine n)
  | poll (durable : ℕ)
  | publish
  | pollDone
  | replay
  | send
  | subscribe
  | receive
  | stop

open SubscribeEvent

namespace Subscription

variable {n : ℕ} (st : Subscription n) (req : SubscribeRequest)

def start (db : Engine n) : Subscription n :=
  ⟨db, .new, 0, none, .idle, []⟩

/-- The loop body of the publisher. -/
def publish (x : ℕ × DecodedRecord) : Subscription n :=
  if x.2.eventType = streamDeletedEvent then
    { st with tombstones := st.tombstones.record x.2.streamId x.2.seq.toNat }
  else if st.tombstones.isLive x.2.streamId x.2.seq.toNat then
    { st with handler := st.handler.publish req x }
  else st

end Subscription

inductive SubscribeTrans {n : ℕ} (req : SubscribeRequest) :
    Subscription n → SubscribeEvent n → Subscription n → Prop
  | append {st s content db} (happend : st.db.append s content = some db) :
    SubscribeTrans req st (.append s content) { st with db }
  | progress {st db} (hadvances : st.db.Advances db) :
    SubscribeTrans req st (.progress db) { st with db }
  /- The cursors of the shards are loaded one by one; the least may have moved on since. -/
  | poll {st durable records} (hidle : st.poll = none) (hdurable : durable ≤ st.db.durableCursor)
    (hnew : st.lastGid < durable)
    (hk : st.db.scanRecords st.lastGid durable = .ok records) :
    SubscribeTrans req st (.poll durable) { st with poll := some (durable, records) }
  | publish {st durable x rest} (hpoll : st.poll = some (durable, x :: rest)) :
    SubscribeTrans req st .publish { st.publish req x with poll := some (durable, rest) }
  | pollDone {st durable} (hpoll : st.poll = some (durable, [])) :
    SubscribeTrans req st .pollDone { st with lastGid := durable, poll := none }
  | replay {st records} (hidle : st.handler = .idle)
    (hk : st.db.scanRecords 0 (2 ^ 64 - 1) = .ok records) :
    SubscribeTrans req st .replay { st with handler := .replaying records }
  | replayError {st e} (hidle : st.handler = .idle)
    (hk : st.db.scanRecords 0 (2 ^ 64 - 1) = .error e) :
    SubscribeTrans req st .replay { st with handler := .stopped }
  | send {st x rest} (hreplay : st.handler = .replaying (x :: rest)) :
    SubscribeTrans req st .send
      { st with
        handler := .replaying rest
        delivered :=
          if req.wants x.2 && st.tombstones.isLive req.stream x.2.seq.toNat then
            st.delivered ++ [x]
          else st.delivered }
  | subscribe {st} (hreplay : st.handler = .replaying []) :
    SubscribeTrans req st .subscribe { st with handler := .live [] }
  | receive {st x queue} (hlive : st.handler = .live (x :: queue)) :
    SubscribeTrans req st .receive
      { st with
        handler := .live queue
        delivered :=
          if req.eventTypes.contains x.2.eventType then st.delivered ++ [x] else st.delivered }
  /- The client is gone. -/
  | stop {st} : SubscribeTrans req st .stop { st with handler := .stopped }

def Subscription.Passed (st : Subscription n) (gid : ℕ) : Prop :=
  gid < st.lastGid ∨
    ∃ durable rest, st.poll = some (durable, rest) ∧ gid < durable ∧ gid ∉ rest.map Prod.fst

/-- No record is a tombstone, a poll reaches all records of its range, the publisher has gone past
all wanted records that the replay can see, and it publishes no other one before the handler has
subscribed. -/
def SubscribeEvent.Aligned (req : SubscribeRequest) (st : Subscription n) :
    SubscribeEvent n → Prop
  | .append _ content => ∀ d, decodeRecord content = .ok d → d.eventType ≠ streamDeletedEvent
  | .poll durable => ∀ s i content, st.db.stored s i = some content → st.lastGid ≤ gidOf s i →
    gidOf s i < durable → st.db.reaches st.lastGid (gidOf s i)
  | .replay => ∀ s i content d, st.db.stored s i = some content → decodeRecord content = .ok d →
    req.wants d → st.Passed (gidOf s i)
  | .publish => ∀ replay durable x rest, st.handler = .replaying replay →
    st.poll = some (durable, x :: rest) → req.wants x.2 = false
  | _ => True

def SubscribeReachable (req : SubscribeRequest)
    (ok : Subscription n → SubscribeEvent n → Prop) (start st : Subscription n) : Prop :=
  Relation.ReflTransGen (fun a b => ∃ ev, ok a ev ∧ SubscribeTrans req a ev b) start st

/-! ## Records of the log -/

/-- A record of the log, in the files or not yet. -/
def Engine.Logs (db : Engine n) (x : ℕ × DecodedRecord) : Prop :=
  ∃ s i content, db.first s ≤ i ∧ (db.contents s)[i]? = some content ∧
    decodeAt n (gidOf s i) content = .ok x.2 ∧ gidOf s i = x.1

section

variable {n : ℕ} {db db' : Engine n} {x : ℕ × DecodedRecord} {records : List (ℕ × DecodedRecord)}

section

variable (hk : db.scanRecords fromGid toGid = .ok records)
include hk

theorem Engine.scanRecords_decoded : Forall₂ (fun r x => r.1 = x.1 ∧
    decodeAt n r.1 r.2 = .ok x.2) (db.scan fromGid toGid) records := by
  refine (mapM_eq_ok_iff.mp hk).imp fun r x hx => ?_
  cases ha : decodeAt n r.1 r.2 with
  | error e =>
    rw [ha] at hx
    cases hx
  | ok d =>
    rw [ha] at hx
    cases hx
    exact ⟨rfl, rfl⟩

theorem Engine.mem_scanRecords :
    x ∈ records ↔ ((fromGid ≤ x.1 ∧ db.reaches fromGid x.1) ∧ x.1 < toGid) ∧
      ∃ s i content, db.stored s i = some content ∧ decodeAt n (gidOf s i) content = .ok x.2 ∧
        gidOf s i = x.1 := by
  have ha := scanRecords_decoded hk
  constructor
  · intro hx
    obtain ⟨r, hr, hg, hd⟩ := exists_of_forall₂ ha hx
    obtain ⟨hrg, s, i, hs, hid⟩ := mem_scan.mp hr
    exact ⟨hg ▸ hrg, s, i, r.2, hs, hid ▸ hd, hid.trans hg⟩
  · rintro ⟨hrg, s, i, content, hs, hd, hid⟩
    have hm : (x.1, content) ∈ db.scan fromGid toGid := mem_scan.mpr ⟨hrg, s, i, hs, hid⟩
    obtain ⟨y, hy, hg, hd'⟩ := exists_of_forall₂ ha.flip hm
    rw [← hid, hd] at hd'
    rwa [Prod.ext hg (Except.ok.inj hd')]

theorem Engine.scanRecords_nodup : (records.map Prod.fst).Nodup := by
  have hf : (db.scan fromGid toGid).map Prod.fst = records.map Prod.fst := by
    rw [← forall₂_eq_eq_eq, forall₂_map_left_iff, forall₂_map_right_iff]
    exact (scanRecords_decoded hk).imp fun _ _ h => h.1
  rw [← hf]
  exact pairwise_map.mpr ((db.scan_sorted _ _).imp fun h => h.ne)

end

theorem Engine.Logs.ext {y : ℕ × DecodedRecord} (hx : db.Logs x) (hy : db.Logs y)
    (hg : x.1 = y.1) : x = y := by
  obtain ⟨s, i, content, -, hi, hd, hid⟩ := hx
  obtain ⟨t, j, content', -, hj, hd', hid'⟩ := hy
  obtain ⟨rfl, rfl⟩ := db.gidOf_inj (List.getElem?_eq_some_iff.mp hi).1.le
    (List.getElem?_eq_some_iff.mp hj).1.le (by rw [hid, hid', hg])
  rw [hi] at hj
  cases hj
  rw [hd] at hd'
  exact Prod.ext hg (Except.ok.inj hd')

theorem Engine.logs_append {s : Fin n} {content : Bytes} (ha : db.append s content = some db') :
    db'.Logs x ↔ db.Logs x ∨ gidOf s (db.contents s).length = x.1 ∧
      decodeAt n (gidOf s (db.contents s).length) content = .ok x.2 := by
  have hf := (append_eq_some ha).2.1
  unfold Logs
  rw [hf]
  simp only [getElem?_append ha]
  constructor
  · rintro ⟨t, i, content', hi, ho | ⟨⟨rfl, rfl⟩, rfl⟩, hd, hid⟩
    · exact .inl ⟨t, i, content', hi, ho, hd, hid⟩
    · exact .inr ⟨hid, hd⟩
  · rintro (⟨t, i, content', hi, ho, hd, hid⟩ | ⟨hid, hd⟩)
    · exact ⟨t, i, content', hi, .inl ho, hd, hid⟩
    · exact ⟨s, _, content, (db.first_le s).trans (db.written_le s), .inr ⟨⟨rfl, rfl⟩, rfl⟩,
        hd, hid⟩

theorem Engine.Advances.logs (h : db.Advances db') (x : ℕ × DecodedRecord) :
    db'.Logs x ↔ db.Logs x := by
  unfold Engine.Logs
  rw [h.contents, h.first]

theorem Engine.Advances.durableCursor_le (h : db.Advances db') :
    db.durableCursor ≤ db'.durableCursor := by
  by_cases hn : n = 0
  · subst hn
    exact le_rfl
  · obtain ⟨s, hs⟩ := exists_minCursor_eq db'.durable (pos_of_ne_zero hn)
    exact ((minCursor_le db.durable s).trans (h.durable s)).trans_eq hs

theorem Engine.lt_durable_of_gidOf_lt {s : Fin n} {i : ℕ} (hi : i ≤ (db.contents s).length)
    (hlt : gidOf s i < db.durableCursor) : i < db.durable s :=
  (db.le_gidOf hi).trans_lt (hlt.trans_le (minCursor_le db.durable s))

theorem Engine.Logs.stored (h : db.Logs x) (hlt : x.1 < db.durableCursor) :
    ∃ s i content, db.stored s i = some content ∧ i < db.durable s ∧
      decodeAt n (gidOf s i) content = .ok x.2 ∧ gidOf s i = x.1 := by
  obtain ⟨s, i, content, hf, hi, he, hid⟩ := h
  have hd := lt_durable_of_gidOf_lt (List.getElem?_eq_some_iff.mp hi).1.le (hid ▸ hlt)
  have hw := hd.trans_le ((db.durable_le s).trans (db.committed_le s))
  exact ⟨s, i, content, stored_eq_some_iff.mpr ⟨⟨hf, hw⟩, hi⟩, hd, he, hid⟩

end

/-! ## Runs -/

namespace Subscription

variable {n : ℕ} (req : SubscribeRequest) (st : Subscription n)

def Seen (x : ℕ × DecodedRecord) : Prop :=
  st.db.Logs x ∧ st.Passed x.1

/-- What the handler has still to send. -/
def held : List (ℕ × DecodedRecord) :=
  match st.handler with
  | .replaying rest => rest.filter fun x => req.wants x.2
  | .live queue => queue.filter fun x => req.eventTypes.contains x.2.eventType
  | _ => []

def Active : Prop :=
  (∃ rest, st.handler = .replaying rest) ∨ ∃ queue, st.handler = .live queue

end Subscription

/-- The log, the publisher and its poll. -/
structure PublisherInv {n : ℕ} (st : Subscription n) : Prop where
  noTombstones : ∀ x, st.db.Logs x → x.2.eventType ≠ streamDeletedEvent
  cutoff : ∀ stream, st.tombstones.cutoff stream = 0
  last_le : st.lastGid ≤ st.db.durableCursor
  poll : ∀ durable rest, st.poll = some (durable, rest) →
    st.lastGid ≤ durable ∧ durable ≤ st.db.durableCursor ∧ (rest.map Prod.fst).Nodup ∧
      ∀ x ∈ rest, st.db.Logs x ∧ st.lastGid ≤ x.1 ∧ x.1 < durable

/-- What was delivered, with what is still to come, are the records that the publisher has gone past,
each once. -/
structure SubscriptionInv {n : ℕ} (req : SubscribeRequest) (st : Subscription n) : Prop where
  publisher : PublisherInv st
  idle : st.handler = .idle → st.delivered = []
  nodup : ((st.delivered ++ st.held req).map Prod.fst).Nodup
  sound : ∀ x ∈ st.delivered ++ st.held req, st.Seen x
  complete : st.Active → ∀ x, st.Seen x → req.wants x.2 → x ∈ st.delivered ++ st.held req

namespace PublisherInv

variable {n : ℕ} {st : Subscription n} {x : ℕ × DecodedRecord}

theorem passed_lt (h : PublisherInv st) {gid : ℕ} (hp : st.Passed gid) :
    gid < st.db.durableCursor := by
  rcases hp with hlt | ⟨durable, rest, hpoll, hlt, -⟩
  · exact hlt.trans_le h.last_le
  · exact hlt.trans_le (h.poll durable rest hpoll).2.1

theorem seen_stored (h : PublisherInv st) (hs : st.Seen x) :
    ∃ s i content, st.db.stored s i = some content ∧ i < st.db.durable s ∧
      decodeAt n (gidOf s i) content = .ok x.2 ∧ gidOf s i = x.1 :=
  hs.1.stored (h.passed_lt hs.2)

variable {durable : ℕ} {rest : List (ℕ × DecodedRecord)} {db : Engine n} {r : ℕ × DecodedRecord}
  {content : Bytes}

section

variable (h : PublisherInv st)
include h

theorem append {s : Fin n}
    (hp : ∀ d, decodeRecord content = .ok d → d.eventType ≠ streamDeletedEvent)
    (ha : st.db.append s content = some db) : PublisherInv { st with db } := by
  have hc : db.durableCursor = st.db.durableCursor := by
    unfold durableCursor
    rw [(append_eq_some ha).2.2.2.2]
  refine ⟨?_, h.cutoff, hc ▸ h.last_le, ?_⟩
  · intro x hl
    rcases (logs_append ha).mp hl with ho | ⟨-, he⟩
    · exact h.noTombstones x ho
    · obtain ⟨d, he, hd⟩ := decodeAt_eq_ok.mp he
      rw [← hd]
      exact hp d he
  · intro durable rest hpoll
    obtain ⟨hs, hu, hn, hr⟩ := h.poll durable rest hpoll
    refine ⟨hs, hc ▸ hu, hn, ?_⟩
    intro x hx
    exact ⟨(logs_append ha).mpr (.inl (hr x hx).1), (hr x hx).2⟩

theorem progress (ha : st.db.Advances db) : PublisherInv { st with db } := by
  refine ⟨fun x hl => h.noTombstones x ((ha.logs x).mp hl), h.cutoff,
    h.last_le.trans ha.durableCursor_le, ?_⟩
  intro durable rest hpoll
  obtain ⟨hs, hd, hn, hr⟩ := h.poll durable rest hpoll
  exact ⟨hs, hd.trans ha.durableCursor_le, hn,
    fun x hx => ⟨(ha.logs x).mpr (hr x hx).1, (hr x hx).2⟩⟩

theorem pollDone (hpoll : st.poll = some (durable, [])) :
    PublisherInv { st with lastGid := durable, poll := none } :=
  ⟨h.noTombstones, h.cutoff, (h.poll durable [] hpoll).2.1, nofun⟩

theorem seen_pollDone (hpoll : st.poll = some (durable, [])) :
    Subscription.Seen { st with lastGid := durable, poll := none } x ↔ st.Seen x := by
  apply and_congr_right
  intro _
  constructor
  · rintro (hlt | ⟨_, _, ⟨⟩, -⟩)
    exact .inr ⟨durable, [], hpoll, hlt, not_mem_nil⟩
  · rintro (hlt | ⟨_, _, hp', hlt, -⟩)
    · exact .inl (hlt.trans_le (h.poll durable [] hpoll).1)
    · rw [hpoll] at hp'
      cases hp'
      exact .inl hlt

section

variable (hpoll : st.poll = some (durable, r :: rest))
include hpoll

theorem seen_publish (handler : HandlerPhase) :
    Subscription.Seen { st with handler, poll := some (durable, rest) } x ↔ st.Seen x ∨ x = r := by
  obtain ⟨-, -, hd, hr⟩ := h.poll durable _ hpoll
  obtain ⟨hl, -, hlt⟩ := hr r mem_cons_self
  constructor
  · rintro ⟨hx, ho | ⟨_, _, ⟨⟩, ht, hn⟩⟩
    · exact .inl ⟨hx, .inl ho⟩
    · by_cases hid : x.1 = r.1
      · exact .inr (hx.ext hl hid)
      · refine .inl ⟨hx, .inr ⟨durable, _, hpoll, ht, ?_⟩⟩
        rw [map_cons, mem_cons]
        exact not_or.mpr ⟨hid, hn⟩
  · rintro (⟨hx, ho | ⟨_, _, hp', ht, hn⟩⟩ | rfl)
    · exact ⟨hx, .inl ho⟩
    · rw [hpoll] at hp'
      cases hp'
      refine ⟨hx, .inr ⟨durable, rest, rfl, ht, fun hm => hn ?_⟩⟩
      rw [map_cons]
      exact mem_cons_of_mem _ hm
    · rw [map_cons, nodup_cons] at hd
      exact ⟨hl, .inr ⟨durable, rest, rfl, hlt, hd.1⟩⟩

/-- A record that is about to be published has not been seen. -/
theorem not_passed : ¬ st.Passed r.1 := by
  rintro (hlt | ⟨_, _, hp', -, hn⟩)
  · exact absurd hlt (not_lt.mpr ((h.poll durable _ hpoll).2.2.2 r mem_cons_self).2.1)
  · rw [hpoll] at hp'
    cases hp'
    exact hn (by simp)

theorem publish (handler : HandlerPhase) :
    PublisherInv { st with handler, poll := some (durable, rest) } := by
  obtain ⟨hl, hd, hn, hr⟩ := h.poll durable _ hpoll
  rw [map_cons, nodup_cons] at hn
  refine ⟨h.noTombstones, h.cutoff, h.last_le, ?_⟩
  rintro _ _ ⟨⟩
  exact ⟨hl, hd, hn.2, fun x hx => hr x (mem_cons_of_mem _ hx)⟩

end

end

end PublisherInv

namespace SubscriptionInv

variable {n : ℕ} {req : SubscribeRequest} {st st' : Subscription n}

section

variable (h : SubscriptionInv req st)
include h

/-- Steps of the log and the publisher that the handler does not notice. -/
theorem unnoticed (hp : PublisherInv st')
    (hn : st'.handler = st.handler) (hd : st'.delivered = st.delivered)
    (hs : ∀ x, st'.Seen x ↔ st.Seen x) : SubscriptionInv req st' := by
  have hh : st'.held req = st.held req := by
    unfold Subscription.held
    rw [hn]
  refine ⟨hp, ?_, ?_, ?_, ?_⟩
  · rw [hn, hd]
    exact h.idle
  · rw [hd, hh]
    exact h.nodup
  · rw [hd, hh]
    exact fun x hx => (hs x).mpr (h.sound x hx)
  · rw [hd, hh]
    intro ha x hx
    unfold Subscription.Active at ha
    rw [hn] at ha
    exact h.complete ha x ((hs x).mp hx)

/-- A step of the handler that moves records on from what it holds. -/
theorem handle {handler : HandlerPhase}
    {delivered : List (ℕ × DecodedRecord)} (ha : st.Active) (hne : handler ≠ .idle)
    (hm : delivered ++ Subscription.held req { st with handler, delivered } =
      st.delivered ++ st.held req) : SubscriptionInv req { st with handler, delivered } where
  publisher := { h.publisher with }
  idle := fun hi => absurd hi hne
  nodup := by
    show ((delivered ++ _).map Prod.fst).Nodup
    rw [hm]
    exact h.nodup
  sound := by
    show ∀ x ∈ delivered ++ _, _
    rw [hm]
    exact h.sound
  complete := by
    intro _
    show ∀ x, _ → _ → x ∈ delivered ++ _
    rw [hm]
    exact h.complete ha

theorem replay {records : List (ℕ × DecodedRecord)} (hok : Aligned req st .replay)
    (hi : st.handler = .idle) (hk : st.db.scanRecords 0 (2 ^ 64 - 1) = .ok records) :
    SubscriptionInv req { st with handler := .replaying records } := by
  have hl := h.idle hi
  refine ⟨{ h.publisher with }, nofun, ?_, ?_, ?_⟩
  · rw [show st.delivered = [] from hl, nil_append]
    exact ((filter_sublist).map _).nodup (scanRecords_nodup hk)
  · intro x hx
    rw [show st.delivered = [] from hl, nil_append] at hx
    obtain ⟨hx, hw⟩ := mem_filter.mp hx
    obtain ⟨-, s, i, content, hs, he, hid⟩ := (mem_scanRecords hk).mp hx
    obtain ⟨⟨hf, -⟩, hc⟩ := stored_eq_some_iff.mp hs
    obtain ⟨d, hd, hxd⟩ := decodeAt_eq_ok.mp he
    have hw' : req.wants d := by
      rw [← hxd] at hw
      exact hw
    exact ⟨⟨s, i, content, hf, hc, he, hid⟩, hid ▸ hok s i content d hs hd hw'⟩
  · intro _ x hse hw
    obtain ⟨s, i, content, hs, -, he, hid⟩ := h.publisher.seen_stored hse
    have hlt := st.db.gidOf_lt_max (lt_of_stored hs).le
    refine mem_append_right _ (mem_filter.mpr ⟨?_, hw⟩)
    exact (mem_scanRecords hk).mpr ⟨⟨start_zero _ _, hid ▸ hlt⟩, s, i, content, hs, he, hid⟩

end

variable {rest : List (ℕ × DecodedRecord)} {durable : ℕ} {r x : ℕ × DecodedRecord}
  {queue : List (ℕ × DecodedRecord)}

section

variable (h : SubscriptionInv req st)
include h

theorem stop : SubscriptionInv req { st with handler := .stopped } := by
  refine ⟨{ h.publisher with }, nofun, ?_, ?_, ?_⟩
  · refine List.Nodup.sublist ?_ h.nodup
    exact ((List.Sublist.refl st.delivered).append (nil_sublist _)).map _
  · intro x hx
    rw [show Subscription.held req { st with handler := .stopped } = [] from rfl, append_nil] at hx
    exact h.sound x (mem_append_left _ hx)
  · rintro (⟨_, ha⟩ | ⟨_, ha⟩)
    · cases ha
    · cases ha

theorem pass (hpoll : st.poll = some (durable, r :: rest))
    (hw : st.Active → req.wants r.2 = false) :
    SubscriptionInv req { st with poll := some (durable, rest) } := by
  have hs := fun x => h.publisher.seen_publish (x := x) hpoll st.handler
  refine ⟨h.publisher.publish hpoll st.handler, h.idle, h.nodup,
    fun x hx => (hs x).mpr (.inl (h.sound x hx)), ?_⟩
  intro ha x hx hx'
  rcases (hs x).mp hx with ho | rfl
  · exact h.complete ha x ho hx'
  · rw [hw ha] at hx'
    cases hx'

/-- A handler that has subscribed gets the record into its queue. -/
theorem enqueue (hpoll : st.poll = some (durable, r :: rest)) (hl : st.handler = .live queue) :
    SubscriptionInv req
      { st with poll := some (durable, rest), handler := .live (queue ++ [r]) } := by
  have he := fun x => h.publisher.seen_publish (x := x) hpoll (.live (queue ++ [r]))
  have hs : (st.delivered ++ Subscription.held req
      { st with poll := some (durable, rest), handler := .live (queue ++ [r]) }).Sublist
        ((st.delivered ++ st.held req) ++ [r]) := by
    unfold Subscription.held
    rw [hl, append_assoc]
    dsimp only
    rw [filter_append]
    exact (List.Sublist.refl _).append ((List.Sublist.refl _).append filter_sublist)
  refine ⟨h.publisher.publish hpoll _, nofun, ?_, ?_, ?_⟩
  · refine List.Nodup.sublist (hs.map _) ?_
    rw [map_append, nodup_append]
    refine ⟨h.nodup, nodup_singleton _, ?_⟩
    intro a ha b hb hab
    obtain ⟨x, hx, rfl⟩ := mem_map.mp ha
    rw [map_singleton, mem_singleton] at hb
    have hp := (h.sound x hx).2
    rw [hab, hb] at hp
    exact h.publisher.not_passed hpoll hp
  · intro x hx
    rcases mem_append.mp (hs.subset hx) with ho | hn
    · exact (he x).mpr (.inl (h.sound x ho))
    · exact (he x).mpr (.inr (mem_singleton.mp hn))
  · intro _ x hx hw
    show x ∈ st.delivered ++ (queue ++ [r]).filter _
    rw [filter_append, ← append_assoc, mem_append]
    rcases (he x).mp hx with ho | rfl
    · have hm := h.complete (.inr ⟨queue, hl⟩) x ho hw
      unfold Subscription.held at hm
      rw [hl] at hm
      exact .inl hm
    · unfold SubscribeRequest.wants at hw
      simp only [Bool.and_eq_true] at hw
      exact .inr (mem_filter.mpr ⟨mem_singleton_self _, hw.2.2⟩)

theorem publish (hok : Aligned req st .publish) (hpoll : st.poll = some (durable, r :: rest)) :
    SubscriptionInv req { st.publish req r with poll := some (durable, rest) } := by
  -- without tombstones the publisher only hands the record to the hub
  have hg := ((h.publisher.poll durable _ hpoll).2.2.2 r mem_cons_self).1
  unfold Subscription.publish TombstoneTracker.isLive
  rw [if_neg (h.publisher.noTombstones r hg), h.publisher.cutoff]
  simp only [decide_eq_true_eq]
  by_cases hl : ∃ queue, st.handler = .live queue
  · obtain ⟨queue, hl⟩ := hl
    by_cases hm : 0 < r.2.seq.toNat ∧ r.2.streamId = req.stream
    · rw [if_pos hm.1, hl, HandlerPhase.publish, if_pos hm.2]
      exact h.enqueue hpoll hl
    · have hw : req.wants r.2 = false := by
        rw [Bool.eq_false_iff]
        intro hw
        unfold SubscribeRequest.wants at hw
        simp only [Bool.and_eq_true, decide_eq_true_eq] at hw
        exact hm ⟨Nat.zero_lt_of_lt hw.2.1, hw.1⟩
      have hp := h.pass hpoll fun _ => hw
      split_ifs with hq
      · have hs : r.2.streamId ≠ req.stream := fun heq => hm ⟨hq, heq⟩
        rw [hl, HandlerPhase.publish, if_neg hs, ← hl]
        exact hp
      · exact hp
  · have hsm : st.handler.publish req r = st.handler := by
      cases hh : st.handler with
      | live queue => exact absurd ⟨queue, hh⟩ hl
      | _ => rfl
    have hp := h.pass hpoll fun ha => by
      rcases ha with ⟨replay, hr⟩ | ha
      · exact hok replay durable r rest hr hpoll
      · exact absurd ha hl
    rw [hsm]
    split_ifs
    · exact hp
    · exact hp

theorem step {ev : SubscribeEvent n} (hok : ev.Aligned req st)
    (htr : SubscribeTrans req st ev st') : SubscriptionInv req st' := by
  cases htr with
  | append ha =>
    refine h.unnoticed (h.publisher.append hok ha) rfl rfl fun x => ⟨?_, ?_⟩
    · rintro ⟨hl, hb⟩
      rcases (logs_append ha).mp hl with ho | ⟨hid, -⟩
      · exact ⟨ho, hb⟩
      -- a new record comes after all that is durable
      · have hlt := h.publisher.passed_lt hb
        rw [← hid] at hlt
        have hd := lt_durable_of_gidOf_lt le_rfl hlt
        exact absurd hd (not_lt.mpr
          ((st.db.durable_le _).trans ((st.db.committed_le _).trans (st.db.written_le _))))
    · rintro ⟨hl, hb⟩
      exact ⟨(logs_append ha).mpr (.inl hl), hb⟩
  | progress hj =>
    exact h.unnoticed (h.publisher.progress hj) rfl rfl fun x => and_congr_left fun _ => hj.logs x
  | poll hi hd hn hk =>
    have hp := h.publisher
    refine h.unnoticed ⟨hp.noTombstones, hp.cutoff, hp.last_le, ?_⟩ rfl rfl fun x => ⟨?_, ?_⟩
    · rintro _ _ ⟨⟩
      refine ⟨hn.le, hd, scanRecords_nodup hk, ?_⟩
      intro x hx
      obtain ⟨hg, s, i, content, hs, he, hid⟩ := (mem_scanRecords hk).mp hx
      obtain ⟨⟨hf, -⟩, hc⟩ := stored_eq_some_iff.mp hs
      exact ⟨⟨s, i, content, hf, hc, he, hid⟩, hg.1.1, hg.2⟩
    · rintro ⟨hl, hlt | ⟨_, _, ⟨⟩, hlt, ht⟩⟩
      · exact ⟨hl, .inl hlt⟩
      -- all that is durable in the range of the poll is found
      · refine ⟨hl, .inl (not_le.mp fun hle => ht ?_)⟩
        obtain ⟨s, i, content, hs, -, he, hid⟩ := hl.stored (hlt.trans_le hd)
        have hr := hok s i content hs (hid ▸ hle) (hid ▸ hlt)
        exact mem_map_of_mem
          ((mem_scanRecords hk).mpr ⟨⟨⟨hle, hid ▸ hr⟩, hlt⟩, s, i, content, hs, he, hid⟩)
    · rintro ⟨hl, hlt | ⟨_, _, hpoll, -⟩⟩
      · exact ⟨hl, .inl hlt⟩
      · rw [hi] at hpoll
        cases hpoll
  | publish hpoll => exact h.publish hok hpoll
  | pollDone hpoll =>
    exact h.unnoticed (h.publisher.pollDone hpoll) rfl rfl fun x => h.publisher.seen_pollDone hpoll
  | replay hi hk => exact h.replay hok hi hk
  | replayError hi hk => exact h.stop
  | @send x rest hr =>
    refine h.handle (.inl ⟨_, hr⟩) nofun ?_
    unfold Subscription.held
    rw [hr]
    simp only [filter_cons]
    by_cases hw : req.wants x.2
    · have hv : st.tombstones.isLive req.stream x.2.seq.toNat := by
        unfold SubscribeRequest.wants at hw
        simp only [Bool.and_eq_true, decide_eq_true_eq] at hw
        unfold TombstoneTracker.isLive
        rw [h.publisher.cutoff, decide_eq_true_eq]
        exact Nat.zero_lt_of_lt hw.2.1
      simp [hw, hv]
    · simp [hw]
  | subscribe hr =>
    show SubscriptionInv req { st with handler := .live [], delivered := st.delivered }
    refine h.handle (.inl ⟨_, hr⟩) nofun ?_
    unfold Subscription.held
    rw [hr]
    rfl
  | receive hv =>
    refine h.handle (.inr ⟨_, hv⟩) nofun ?_
    unfold Subscription.held
    rw [hv]
    simp only [filter_cons]
    split_ifs <;> simp
  | stop => exact h.stop

end

theorem start {db : Engine n} (hp : ∀ x, db.Logs x → x.2.eventType ≠ streamDeletedEvent) :
    SubscriptionInv req (Subscription.start db) where
  publisher := ⟨hp, fun _ => rfl, Nat.zero_le _, nofun⟩
  idle := fun _ => rfl
  nodup := nodup_nil
  sound := fun x hx => absurd hx not_mem_nil
  complete := by
    rintro (⟨_, ha⟩ | ⟨_, ha⟩)
    · cases ha
    · cases ha

theorem reachable {start : Subscription n} (hs : SubscriptionInv req start)
    (hr : SubscribeReachable req (fun st ev => ev.Aligned req st) start st) :
    SubscriptionInv req st :=
  invariant_of_steps hr hs fun _ _ h ⟨_, hok, ht⟩ => h.step hok ht

end SubscriptionInv

/-- No record is a tombstone; the order is arbitrary. -/
def SubscribeEvent.Plain (_ : Subscription n) : SubscribeEvent n → Prop
  | .append _ content => ∀ d, decodeRecord content = .ok d → d.eventType ≠ streamDeletedEvent
  | _ => True

end LogDb.Daemon
