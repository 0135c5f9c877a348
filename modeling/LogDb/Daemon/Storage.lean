import LogDb.Daemon.Engine
import LogDb.Daemon.Record

/-!
`Storage`: the records of every stream are numbered from 1, and a map in memory leads from these
numbers to the ids of the database. The map is rebuilt from the log when the daemon starts.
-/

namespace LogDb.Daemon

open Lib Format Function Option AList

inductive StorageError where
  | record (error : RecordError)
  | logDb (message : String)
  deriving DecidableEq, Repr

structure AppendResult where
  gid : ℕ
  streamSeq : ℕ
  deriving DecidableEq, Repr

/-- What a caller asks to append; the sequence number is allocated. -/
structure AppendRequest where
  namespaceId : UInt32
  streamId : UInt64
  eventType : String
  contentType : String
  metadata : SortedMap String String
  timestampNs : UInt64
  userContent : Bytes

def AppendRequest.envelope (req : AppendRequest) (seq : ℕ) : Envelope where
  namespaceId := req.namespaceId
  streamId := req.streamId
  seq := UInt64.ofNat seq
  eventType := req.eventType
  contentType := req.contentType
  metadata := req.metadata
  timestampNs := req.timestampNs
  userContent := req.userContent

abbrev SeqMap := AList fun _ : UInt64 => SortedMap ℕ ℕ

abbrev NextSeqs := AList fun _ : UInt64 => ℕ

def SeqMap.gidAt (m : SeqMap) (stream : UInt64) (seq : ℕ) : Option ℕ :=
  (m.lookup stream).bind fun seqs => seqs.lookup seq

def SeqMap.store (m : SeqMap) (stream : UInt64) (seq gid : ℕ) : SeqMap :=
  m.insert stream (((m.lookup stream).getD ∅).insert seq gid)

def NextSeqs.next (nexts : NextSeqs) (stream : UInt64) : ℕ :=
  (nexts.lookup stream).getD 1

def NextSeqs.bump (nexts : NextSeqs) (stream : UInt64) (seq : ℕ) : NextSeqs :=
  let cur := nexts.next stream
  nexts.insert stream (if cur ≤ seq then seq + 1 else cur)

structure Storage (n : ℕ) where
  db : Engine n
  seqMap : SeqMap
  nextSeqs : NextSeqs

/-- `LogDb::append` on one shard. Where the ids of the source wrap, the model has an error of its
own. -/
def Engine.append {n : ℕ} (db : Engine n) (s : Fin n) (content : Bytes) : Option (Engine n) :=
  if h : ((db.contents s).length + 2) * 2 ^ (shardBits n).toNat < 2 ^ 64 then
    some {
      db with
      contents := update db.contents s (db.contents s ++ [content])
      room := by
        intro t
        by_cases hts : t = s
        · subst hts
          simpa using h
        · simpa [hts] using db.room t
      written_le := by
        intro t
        by_cases hts : t = s
        · subst hts
          simpa using (db.written_le t).trans (Nat.le_succ _)
        · simpa [hts] using db.written_le t }
  else none

/-- One record of the scan in `rebuild_mapping`; what cannot be decoded is passed over. -/
def rebuildStep (maps : SeqMap × NextSeqs) (r : ℕ × Bytes) : SeqMap × NextSeqs :=
  match decodeRecord r.2 with
  | .ok d => (maps.1.store d.streamId d.seq.toNat r.1, maps.2.bump d.streamId d.seq.toNat)
  | .error _ => maps

def rebuildMapping (records : List (ℕ × Bytes)) : SeqMap × NextSeqs :=
  records.foldl rebuildStep (∅, ∅)

/-- Set the shard of a record that was found under an id. -/
def decodeAt (n gid : ℕ) (content : Bytes) : Except StorageError DecodedRecord :=
  match decodeRecord content with
  | .error e => .error (.record e)
  | .ok d => .ok { d with shardId := (splitGid n gid).1 }

namespace Storage

variable {n : ℕ}

/-- The map stays empty when the durable cursor is 0. -/
def new (db : Engine n) : Storage n :=
  if db.durableCursor = 0 then ⟨db, ∅, ∅⟩
  else
    let maps := rebuildMapping (db.scan 0 (2 ^ 64 - 1))
    ⟨db, maps.1, maps.2⟩

variable (st : Storage n)

def allocate (stream : UInt64) : ℕ × Storage n :=
  let seq := st.nextSeqs.next stream
  (seq, { st with nextSeqs := st.nextSeqs.insert stream (seq + 1) })

def storeMapping (stream : UInt64) (seq gid : ℕ) : Storage n :=
  { st with seqMap := st.seqMap.store stream seq gid }

/-- One call from beginning to end. `route` is the shard that the database chose, or its error. -/
def append (req : AppendRequest) (route : Except String (Fin n)) :
    Except StorageError AppendResult × Storage n :=
  let (seq, st) := st.allocate req.streamId
  match encodeRecord (req.envelope seq) with
  | .error e => (.error (.record e), st)
  | .ok content =>
    match route with
    | .error e => (.error (.logDb s!"append: {e}"), st)
    | .ok s =>
      match st.db.append s content with
      | none => (.error (.logDb "append: SequenceExhausted"), st)
      | some db =>
        let gid := gidOf s (st.db.contents s).length
        (.ok ⟨gid, seq⟩, { st with db }.storeMapping req.streamId seq gid)

def read (stream : UInt64) (seq : ℕ) : Except StorageError (Option DecodedRecord) :=
  match st.seqMap.gidAt stream seq with
  | none => .ok none
  | some gid =>
    match st.db.read gid with
    | none => .ok none
    | some content => (decodeAt n gid content).map some

def scan (fromGid toGid : ℕ) : Except StorageError (List DecodedRecord) :=
  (st.db.scan fromGid toGid).mapM fun r => decodeAt n r.1 r.2

def durableGid : ℕ := st.db.durableCursor

def committedGid : ℕ := st.db.committedCursor

end Storage

/-! ## The map -/

namespace SeqMap

@[simp] theorem gidAt_empty (stream : UInt64) (seq : ℕ) : gidAt ∅ stream seq = none := by
  simp [gidAt]

theorem gidAt_store (m : SeqMap) (stream stream' : UInt64) (seq seq' gid : ℕ) :
    (m.store stream seq gid).gidAt stream' seq' =
      if stream' = stream ∧ seq' = seq then some gid else m.gidAt stream' seq' := by
  unfold gidAt store
  by_cases hs : stream' = stream
  · subst hs
    rw [lookup_insert, bind_some, SortedMap.lookup_insert]
    by_cases hq : seq' = seq
    · simp [hq]
    · rw [if_neg hq, if_neg (by simp [hq])]
      cases m.lookup stream' with
      | none => simp
      | some seqs => rfl
  · rw [lookup_insert_ne hs, if_neg (by simp [hs])]

end SeqMap

namespace NextSeqs

theorem next_insert (nexts : NextSeqs) (stream stream' : UInt64) (seq : ℕ) :
    next (nexts.insert stream seq) stream' = if stream' = stream then seq else nexts.next stream' := by
  unfold next
  split_ifs with hs
  · rw [hs, lookup_insert, getD_some]
  · rw [lookup_insert_ne hs]

end NextSeqs

/-! ## Appends -/

variable {content : Bytes} {n : ℕ} {db' : Engine n} {d : DecodedRecord} {stream : UInt64}

theorem Engine.append_eq_some {db : Engine n} {s : Fin n} (h : db.append s content = some db') :
    db'.contents = update db.contents s (db.contents s ++ [content]) ∧
      db'.first = db.first ∧ db'.written = db.written ∧ db'.committed = db.committed ∧
      db'.durable = db.durable := by
  unfold append at h
  split_ifs at h
  cases h
  exact ⟨rfl, rfl, rfl, rfl, rfl⟩

theorem Engine.getElem?_append {db : Engine n} {s t : Fin n} {i : ℕ} {content' : Bytes}
    (h : db.append s content = some db') :
    (db'.contents t)[i]? = some content' ↔ (db.contents t)[i]? = some content' ∨
        (t = s ∧ i = (db.contents s).length) ∧ content' = content := by
  rw [(append_eq_some h).1]
  by_cases ht : t = s
  · subst ht
    rw [update_self, List.getElem?_append]
    split_ifs with hi
    · simp [hi.ne]
    · rw [List.getElem?_eq_none (not_lt.mp hi)]
      by_cases heq : i = (db.contents t).length
      · simp [heq, eq_comm]
      · rw [List.getElem?_eq_none (by simp; omega)]
        simp [heq]
  · rw [update_of_ne ht]
    simp [ht]

theorem Storage.append_cases (st : Storage n) (req : AppendRequest) (route : Except String (Fin n))
    {result : Except StorageError AppendResult} {st' : Storage n}
    (h : st.append req route = (result, st')) :
    (∃ e, result = .error e ∧ st' = (st.allocate req.streamId).2) ∨
      ∃ s content db, encodeRecord (req.envelope (st.nextSeqs.next req.streamId)) = .ok content ∧
        st.db.append s content = some db ∧
        result = .ok ⟨gidOf s (st.db.contents s).length, st.nextSeqs.next req.streamId⟩ ∧
        st' = { (st.allocate req.streamId).2 with db }.storeMapping req.streamId
          (st.nextSeqs.next req.streamId) (gidOf s (st.db.contents s).length) := by
  unfold Storage.append at h
  simp only [allocate] at h ⊢
  cases he : encodeRecord (req.envelope (st.nextSeqs.next req.streamId)) with
  | error e =>
    simp only [he] at h
    obtain ⟨rfl, rfl⟩ := Prod.mk.inj h
    exact .inl ⟨_, rfl, rfl⟩
  | ok content =>
    simp only [he] at h
    cases route with
    | error e =>
      obtain ⟨rfl, rfl⟩ := Prod.mk.inj h
      exact .inl ⟨_, rfl, rfl⟩
    | ok s =>
      cases ha : st.db.append s content with
      | none =>
        simp only [ha] at h
        obtain ⟨rfl, rfl⟩ := Prod.mk.inj h
        exact .inl ⟨_, rfl, rfl⟩
      | some db =>
        simp only [ha] at h
        obtain ⟨rfl, rfl⟩ := Prod.mk.inj h
        exact .inr ⟨s, content, db, rfl, ha, rfl, rfl⟩

/-! ## Decoding -/

theorem decodeAt_eq_ok {gid : ℕ} : decodeAt n gid content = .ok d ↔
      ∃ d₀, decodeRecord content = .ok d₀ ∧ { d₀ with shardId := (splitGid n gid).1 } = d := by
  unfold decodeAt
  cases decodeRecord content <;> simp

/-! ## Records that appends wrote -/

/-- The content of the record that an append wrote under a sequence number of a stream. -/
def Carries (content : Bytes) (stream : UInt64) (seq : ℕ) : Prop :=
  ∃ e : Envelope, encodeRecord e = .ok content ∧ e.streamId = stream ∧ e.seq.toNat = seq

theorem Carries.contentIds_eq {seq : ℕ} (h : Carries content stream seq) :
    contentIds content = some (stream, seq) := by
  obtain ⟨e, he, rfl, rfl⟩ := h
  exact contentIds_of_encodeRecord he

theorem Carries.decoded {seq : ℕ} (h : Carries content stream seq)
    (hd : decodeRecord content = .ok d) : d.streamId = stream ∧ d.seq.toNat = seq := by
  obtain ⟨e, he, rfl, rfl⟩ := h
  obtain ⟨⟨-, hs, hq⟩, -⟩ := decodeRecord_spec he hd
  exact ⟨hs, congrArg UInt64.toNat hq⟩

namespace Engine

variable {n : ℕ} (db : Engine n)

def Holds (s : Fin n) (i : ℕ) (stream : UInt64) (seq : ℕ) : Prop :=
  ∃ content, db.stored s i = some content ∧ Carries content stream seq

def FromAppends : Prop :=
  ∀ s i content, db.stored s i = some content → ∃ stream seq, Carries content stream seq

/-- No two records have the same number in a stream. -/
def Distinct : Prop :=
  ∀ s i t j stream seq, db.Holds s i stream seq → db.Holds t j stream seq → s = t ∧ i = j

end Engine

end LogDb.Daemon
