import LogDb.Daemon.Names
import LogDb.Lib.MaxMap
import LogDb.Lib.Transition

/-!
The catalog of the daemon: names of namespaces and streams with their ids, and the snapshot file
that brings them over a restart. A snapshot is serialised under the locks of the maps and written
outside them, by way of one temporary file that all writers share.
-/

namespace LogDb.Daemon

open Lib Function

structure Catalog where
  namespaces : AList fun _ : String => ℕ
  namespaceNames : AList fun _ : ℕ => String
  streams : AList fun _ : ℕ × String => ℕ
  streamInfo : AList fun _ : ℕ => ℕ × String
  nextNsId : ℕ
  nextStreamId : ℕ

/-- One namespace in a snapshot: its id, its name, and its streams with their ids. -/
structure NamespaceEntry where
  id : ℕ
  name : String
  streams : List (ℕ × String)

abbrev CatalogSnapshot := List NamespaceEntry

namespace Catalog

def new : Catalog :=
  ⟨∅, ∅, ∅, ∅, 1, 1⟩

variable (cat : Catalog)

/-- The section of `resolve` under the lock of the namespaces: the id, and whether it is new. -/
def resolveNamespace (ns : String) : Catalog × ℕ × Bool :=
  match cat.namespaces.lookup ns with
  | some id => (cat, id, false)
  | none =>
    ({ cat with
        namespaces := cat.namespaces.insert ns cat.nextNsId
        namespaceNames := cat.namespaceNames.insert cat.nextNsId ns
        nextNsId := (cat.nextNsId + 1) % 2 ^ 32 }, cat.nextNsId, true)

/-- The section of `resolve` under the lock of the streams. -/
def resolveStream (nsId : ℕ) (stream : String) : Catalog × ℕ × Bool :=
  match cat.streams.lookup (nsId, stream) with
  | some id => (cat, id, false)
  | none =>
    ({ cat with
        streams := cat.streams.insert (nsId, stream) cat.nextStreamId
        streamInfo := cat.streamInfo.insert cat.nextStreamId (nsId, stream)
        nextStreamId := (cat.nextStreamId + 1) % 2 ^ 64 }, cat.nextStreamId, true)

/-- What `serialize` writes when the maps are iterated in these orders. -/
def serialize (nsOrder : List (String × ℕ)) (streamOrder : List ((ℕ × String) × ℕ)) :
    CatalogSnapshot :=
  nsOrder.map fun e =>
    ⟨e.2, e.1, (streamOrder.filter fun s => s.1.1 = e.2).map fun s => (s.2, s.1.2)⟩

/-- The snapshots that `serialize` can give. -/
def Serializes (snap : CatalogSnapshot) : Prop :=
  ∃ nsOrder streamOrder, nsOrder.Perm (cat.namespaces.entries.map fun e => (e.1, e.2)) ∧
    streamOrder.Perm (cat.streams.entries.map fun e => (e.1, e.2)) ∧
      snap = serialize nsOrder streamOrder

/-- The inner loop of `load_snapshot`. -/
def loadStream (nsId : ℕ) (cat : Catalog) (s : ℕ × String) : Catalog :=
  { cat with
    streams := cat.streams.insert (nsId, s.2) s.1
    streamInfo := cat.streamInfo.insert s.1 (nsId, s.2) }

/-- The outer loop of `load_snapshot`. -/
def loadNamespace (cat : Catalog) (e : NamespaceEntry) : Catalog :=
  e.streams.foldl (loadStream e.id)
    { cat with
      namespaces := cat.namespaces.insert e.name e.id
      namespaceNames := cat.namespaceNames.insert e.id e.name }

section

variable (snap : CatalogSnapshot)

def maxNsId : ℕ :=
  snap.foldl (fun m e => max m e.id) 0

def maxStreamId : ℕ :=
  snap.foldl (fun m e => e.streams.foldl (fun m s => max m s.1) m) 0

def loadSnapshot : Catalog :=
  { snap.foldl loadNamespace new with
    nextNsId := (maxNsId snap + 1) % 2 ^ 32
    nextStreamId := (maxStreamId snap + 1) % 2 ^ 64 }

end

end Catalog

/-! ### The daemon: calls, files and restarts -/

/-- Where a call of `resolve` stands. A save that fails is logged, and the ids are returned. -/
inductive Resolver where
  | idle
  | named (ns stream : String) (nsId : ℕ) (created : Bool)
  | unsaved (ns stream : String) (nsId streamId : ℕ)
  | serialized (ns stream : String) (nsId streamId : ℕ) (buf : CatalogSnapshot)
  | opened (ns stream : String) (nsId streamId : ℕ) (buf : CatalogSnapshot) (file : ℕ)
  | written (ns stream : String) (nsId streamId : ℕ) (buf : CatalogSnapshot)

structure Resolved where
  ns : String
  stream : String
  nsId : ℕ
  streamId : ℕ

/-- The files behind the two names; a file that is not a whole snapshot holds none. -/
structure CatalogDaemon where
  catalog : Catalog
  content : ℕ → Option CatalogSnapshot
  files : ℕ
  tmp : Option ℕ
  dat : Option ℕ
  resolver : ℕ → Resolver
  returned : List Resolved

namespace CatalogDaemon

def new : CatalogDaemon :=
  ⟨.new, fun _ => none, 0, none, none, fun _ => .idle, []⟩

variable (w : CatalogDaemon)

def set (i : ℕ) (r : Resolver) : CatalogDaemon :=
  { w with resolver := update w.resolver i r }

def setContent (file : ℕ) (snap : Option CatalogSnapshot) : CatalogDaemon :=
  { w with content := update w.content file snap }

def finish (i : ℕ) (r : Resolved) : CatalogDaemon :=
  { w.set i .idle with returned := r :: w.returned }

/-- `File::create` on the temporary name: the file there is truncated, or there is a new one. -/
def createTmp : CatalogDaemon × ℕ :=
  match w.tmp with
  | some file => (w.setContent file none, file)
  | none => ({ w.setContent w.files none with files := w.files + 1, tmp := some w.files }, w.files)

end CatalogDaemon

inductive CatalogEvent where
  | resolveNamespace (i : ℕ) (ns stream : String)
  | resolveStream (i : ℕ)
  | serialize (i : ℕ)
  | create (i : ℕ)
  | write (i : ℕ)
  | rename (i : ℕ)
  | fail (i : ℕ)
  | restart

/-- What an event does. A file that two writers have open may end as a mixture of what they write;
a rename finds no file when another writer has renamed it before. -/
inductive CatalogTrans : CatalogDaemon → CatalogEvent → CatalogDaemon → Prop where
  | resolveNamespace {w i ns stream catalog nsId created} (hidle : w.resolver i = .idle)
      (hns : validateNamespaceName ns = .ok ()) (hstream : validateStreamName stream = .ok ())
      (hresolve : w.catalog.resolveNamespace ns = (catalog, nsId, created)) :
      CatalogTrans w (.resolveNamespace i ns stream)
        ({ w with catalog := catalog }.set i (.named ns stream nsId created))
  | resolveOld {w i ns stream catalog nsId streamId}
      (hresolver : w.resolver i = .named ns stream nsId false)
      (hresolve : w.catalog.resolveStream nsId stream = (catalog, streamId, false)) :
      CatalogTrans w (.resolveStream i)
        ({ w with catalog := catalog }.finish i ⟨ns, stream, nsId, streamId⟩)
  | resolveNew {w i ns stream catalog nsId streamId created created'}
      (hresolver : w.resolver i = .named ns stream nsId created)
      (hresolve : w.catalog.resolveStream nsId stream = (catalog, streamId, created'))
      (hcreated : (created || created') = true) : CatalogTrans w (.resolveStream i)
        ({ w with catalog := catalog }.set i (.unsaved ns stream nsId streamId))
  | serialize {w i ns stream nsId streamId buf}
      (hresolver : w.resolver i = .unsaved ns stream nsId streamId)
      (hbuf : w.catalog.Serializes buf) :
      CatalogTrans w (.serialize i) (w.set i (.serialized ns stream nsId streamId buf))
  | create {w i ns stream nsId streamId buf}
      (hresolver : w.resolver i = .serialized ns stream nsId streamId buf) :
      CatalogTrans w (.create i)
        (w.createTmp.1.set i (.opened ns stream nsId streamId buf w.createTmp.2))
  | write {w i ns stream nsId streamId file buf result}
      (hresolver : w.resolver i = .opened ns stream nsId streamId buf file)
      (hresult : result = some buf ∨ w.content file ≠ none ∧ result = none) :
      CatalogTrans w (.write i)
        ((w.setContent file result).set i (.written ns stream nsId streamId buf))
  | rename {w i ns stream nsId streamId file buf}
      (hresolver : w.resolver i = .written ns stream nsId streamId buf)
      (htmp : w.tmp = some file) : CatalogTrans w (.rename i)
        ({ w with tmp := none, dat := some file }.finish i ⟨ns, stream, nsId, streamId⟩)
  -- a save that fails before the write, in it, or at the rename
  | failOpen {w i ns stream nsId streamId buf}
      (hresolver : w.resolver i = .serialized ns stream nsId streamId buf) :
      CatalogTrans w (.fail i) (w.finish i ⟨ns, stream, nsId, streamId⟩)
  | failWrite {w i ns stream nsId streamId file buf}
      (hresolver : w.resolver i = .opened ns stream nsId streamId buf file) :
      CatalogTrans w (.fail i) ((w.setContent file none).finish i ⟨ns, stream, nsId, streamId⟩)
  | failRename {w i ns stream nsId streamId buf}
      (hresolver : w.resolver i = .written ns stream nsId streamId buf) :
      CatalogTrans w (.fail i) (w.finish i ⟨ns, stream, nsId, streamId⟩)
  | restartNew {w} (hdat : w.dat = none) :
      CatalogTrans w .restart { w with catalog := .new, resolver := fun _ => .idle }
  | restart {w file snap} (hdat : w.dat = some file) (hsnap : w.content file = some snap) :
      CatalogTrans w .restart { w with catalog := .loadSnapshot snap, resolver := fun _ => .idle }

def CatalogReachable (ok : CatalogDaemon → CatalogEvent → Prop) (w : CatalogDaemon) : Prop :=
  Relation.ReflTransGen (fun w w' => ∃ ev, ok w ev ∧ CatalogTrans w ev w') .new w

end LogDb.Daemon
