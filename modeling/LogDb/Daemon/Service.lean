import LogDb.Daemon.Quota
import LogDb.Daemon.Storage

/-!
The write calls of the service: `append`, `batch_append` and `delete_stream`, and how the trackers
are seeded when the daemon starts.
-/

namespace LogDb.Daemon

open Lib Format

/-- The status of a call that failed. -/
inductive ServiceError where
  | invalidArgument (message : String)
  | resourceExhausted (message : String)
  | internal (error : StorageError)
  deriving DecidableEq, Repr

structure StreamQuota where
  ns : String
  stream : String
  maxRecords : Option ℕ
  maxBytes : Option ℕ
  deriving DecidableEq, Repr

/-- The fields of an append call; the metadata is ordered by key. -/
structure AppendCall where
  ns : String
  stream : String
  eventType : String
  contentType : String
  metadata : SortedMap String String
  timestampNs : UInt64
  content : Bytes

/-- What the catalog resolves names to: a stream id belongs to one namespace id. -/
structure Names where
  resolve : String → String → Except String (UInt32 × UInt64)
  nsOf : UInt64 → UInt32
  nsOf_eq : ∀ ns stream ids, resolve ns stream = .ok ids → nsOf ids.2 = ids.1

structure Service (n : ℕ) where
  storage : Storage n
  tombstones : TombstoneTracker
  quota : QuotaTracker

def AppendCall.request (call : AppendCall) (ids : UInt32 × UInt64) : AppendRequest where
  namespaceId := ids.1
  streamId := ids.2
  eventType := call.eventType
  contentType := if call.contentType = "" then "application/json" else call.contentType
  metadata := call.metadata
  timestampNs := call.timestampNs
  userContent := call.content

def tombstoneRequest (ids : UInt32 × UInt64) : AppendRequest where
  namespaceId := ids.1
  streamId := ids.2
  eventType := streamDeletedEvent
  contentType := "application/json"
  metadata := ∅
  timestampNs := 0
  userContent := []

def checkQuota (quotas : List StreamQuota) (q : QuotaTracker) (ns stream : String)
    (ids : UInt32 × UInt64) (incomingRecords incomingBytes : ℕ) : Except String Unit :=
  quotas.forM fun quota => do
    if quota.ns = ns ∧ quota.stream = stream then
      let usage := q.usage ids.1 ids.2
      if let some max := quota.maxRecords then
        if usage.records + incomingRecords > max then
          let records := usage.records
          throw s!"stream {ns}/{stream} record quota exceeded: {records} + {incomingRecords} > {max}"
      if let some max := quota.maxBytes then
        if usage.bytes + incomingBytes > max then
          let bytes := usage.bytes
          throw s!"stream {ns}/{stream} byte quota exceeded: {bytes} + {incomingBytes} > {max}"

namespace Service

variable {n : ℕ} (names : Names) (quotas : List StreamQuota) (svc : Service n)

/-- Append and count; `route` is the shard that the database chose, or its error. -/
def appendRecord (ids : UInt32 × UInt64) (call : AppendCall) (route : Except String (Fin n)) :
    Except ServiceError AppendResult × Service n :=
  match svc.storage.append (call.request ids) route with
  | (.ok result, storage) =>
    (.ok result, { svc with storage, quota := svc.quota.add ids.1 ids.2 call.content.length })
  | (.error e, storage) => (.error (.internal e), { svc with storage })

def append (call : AppendCall) (route : Except String (Fin n)) :
    Except ServiceError AppendResult × Service n :=
  match names.resolve call.ns call.stream with
  | .error e => (.error (.invalidArgument s!"invalid namespace/stream: {e}"), svc)
  | .ok ids =>
    match checkQuota quotas svc.quota call.ns call.stream ids 1 call.content.length with
    | .error e => (.error (.resourceExhausted e), svc)
    | .ok () => svc.appendRecord ids call route

/-- The records of a batch one after the other, up to the first that fails. -/
def appendAll (ids : UInt32 × UInt64) (svc : Service n) :
    List (AppendCall × Except String (Fin n)) → List AppendResult →
      Except ServiceError (List AppendResult) × Service n
  | [], done => (.ok done, svc)
  | (call, route) :: calls, done =>
    match svc.appendRecord ids call route with
    | (.ok result, svc) => appendAll ids svc calls (done ++ [result])
    | (.error e, svc) => (.error e, svc)

def batchAppend (calls : List (AppendCall × Except String (Fin n))) :
    Except ServiceError (List AppendResult) × Service n :=
  match calls with
  | [] => (.ok [], svc)
  | (first, route) :: rest =>
    if rest.any fun c => c.1.ns != first.ns || c.1.stream != first.stream then
      (.error (.invalidArgument
        "BatchAppend requires all requests in the same namespace+stream"), svc)
    else
      match names.resolve first.ns first.stream with
      | .error e => (.error (.invalidArgument s!"invalid namespace/stream: {e}"), svc)
      | .ok ids =>
        let batch := (first, route) :: rest
        match checkQuota quotas svc.quota first.ns first.stream ids batch.length
          (batch.map fun c => c.1.content.length).sum with
        | .error e => (.error (.resourceExhausted e), svc)
        | .ok () => appendAll ids svc batch []

/-- Append a tombstone and reset the usage; the number of records deleted is reported. -/
def deleteStream (ns stream : String) (route : Except String (Fin n)) :
    Except ServiceError ℕ × Service n :=
  match names.resolve ns stream with
  | .error e => (.error (.invalidArgument s!"invalid namespace/stream: {e}"), svc)
  | .ok ids =>
    let deletedCount := (svc.quota.usage ids.1 ids.2).records
    match svc.storage.append (tombstoneRequest ids) route with
    | (.ok result, storage) =>
      (.ok deletedCount,
        { storage
          tombstones := svc.tombstones.record ids.2 result.streamSeq
          quota := svc.quota.reset ids.1 ids.2 })
    | (.error e, storage) => (.error (.internal e), { svc with storage })

/-- The publisher records the tombstones of a poll from `last` to the durable cursor. -/
def observe (last : ℕ) : Service n :=
  match svc.storage.scan last svc.storage.durableGid with
  | .ok records => { svc with tombstones := svc.tombstones.recordAll records }
  | .error _ => svc

/-- Start on a database: the trackers are seeded from a scan up to the committed cursor. -/
def start (db : Engine n) : Service n :=
  let storage := Storage.new db
  let seedRecords := match storage.scan 0 storage.committedGid with
    | .ok records => records
    | .error _ => []
  let tombstones := TombstoneTracker.rebuildFromRecords seedRecords
  ⟨storage, tombstones, .seedFromRecords seedRecords tombstones.isLive⟩

end Service

end LogDb.Daemon
