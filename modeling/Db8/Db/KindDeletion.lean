import Db8.Db.DelDurable
import Db8.Db.Escalation
import Db8.Db.KeySweep

/-!
# The deletion of a kind among other requests

`MojDb::delKind` takes the schema lock for itself alone: the kind object is marked deleted, the
objects of the kind and the permissions on it are deleted by queries, and the indexes and the entry
of the kind table go last. A full batch of one of the queries is committed, which gives up the lock;
the request goes on with the shared lock, as other requests have it.
-/

set_option autoImplicit false

namespace Db8.Db.DelKind

open Db8.Bytes
open Db8.Core
open MojDb
open MojDbKindEngine
open MojDbPermissionEngine
open Deletion (live live_markDeleted)

/-- What a commit makes of the stored data, for a transaction that began on `base` and leaves
`view`: nothing is lost that another transaction committed meanwhile, if one did. -/
structure Storage where
  merge : Database → Database → Database → Database
  alone : ∀ base view, merge base view base = view

def Storage.rebase : Storage where
  merge base view stored :=
    { objDb := SortedMap.rebase base.objDb view.objDb stored.objDb
      rev := if view.rev = base.rev then stored.rev else view.rev
      keys := (stored.keys.putAll (view.keys.diff base.keys).elems).delAll
        (base.keys.diff view.keys).elems }
  alone base view := by
    rcases base with ⟨baseObjs, baseRev, baseKeys⟩
    rcases view with ⟨objs, rev, keys⟩
    rw [Database.mk.injEq]
    apply And.intro
    · apply SortedMap.ext_find
      intro key
      rw [SortedMap.find_rebase]
      split_ifs with same
      · exact same.symm
      · rfl
    · apply And.intro
      · split_ifs with same
        · exact same.symm
        · rfl
      · ext key
        simp only [SortedSet.mem_delAll, SortedSet.mem_putAll, ← SortedSet.mem_def,
          SortedSet.mem_diff]
        tauto

/-- What a put, a merge or a find of another client does under its lock. -/
abbrev Operation := KindMap → Database → Except MojErr Database

inductive Client where
  | waiting (operation : Operation)
  | running (base view : Database)
  | done

def Client.isRunning : Client → Bool
  | .running _ _ => true
  | _ => false

/-- A `delKind` request. A service request is a batch from the start, and ends as one. -/
structure Task where
  id : MojString
  service : Bool
  engine : MojDbPermissionEngine
  req : Requester
  rest : Rest
  /-- The query from the kind with `includeDeleted`. -/
  objects : KeyQuery
  /-- The query for the permissions on the kind. -/
  permissions : KeyQuery
  storage : Storage
  kindObject : MojObject → KindObject

inductive Stage where
  | objects (limit queryLimit : Nat)
  | permissions (limit queryLimit : Nat)
  | drop
  | finish (found : Bool)
deriving DecidableEq

/-- Where the request stands; `between` it has no lock. The result carries `foundOut`, without which
the service answers that the kind is not registered, and the store when it returned. -/
inductive Phase where
  | waiting
  | holding (schemaLocked : Bool) (base view : Database) (stage : Stage)
  | between (stage : Stage)
  | returned (result : Except MojErr Bool) (left : Database)

/-- The last two fields are for the reader: the indexes the kind had when the request got its lock,
and the clients let in since then, as long as the kind is in the table. -/
structure System where
  committed : Database
  kinds : KindMap
  clients : List Client
  batch : Bool
  phase : Phase
  indexes : List MojDbIndex
  admitted : List Nat

inductive Event where
  | enter (client : Nat)
  | commit (client : Nat)
  | abort (client : Nat)
  | delKind (err : Option MojErr)

def formatKindId (id : MojString) : MojString := chars "_kinds/".toList ++ id

def firstObjects : Stage := .objects (firstLimit MojDbQuery.limitDefault) MojDbQuery.limitDefault.toNat

def firstPermissions : Stage :=
  .permissions (firstLimit MojDbQuery.limitDefault) MojDbQuery.limitDefault.toNat

def Stage.removing : Stage → Bool
  | .finish _ => false
  | _ => true

namespace System

def schemaLocked (sys : System) : Bool :=
  match sys.phase with
  | .holding locked _ _ _ => locked
  | _ => false

/-- The kind's objects are being removed and the kind is still in the table. -/
def removing (sys : System) : Bool :=
  match sys.phase with
  | .holding _ _ _ stage => stage.removing
  | .between stage => stage.removing
  | _ => false

def setClient (sys : System) (client : Nat) (state : Client) : System :=
  { sys with clients := sys.clients.set client state }

/-- `begin` with the shared lock, and the operation. -/
def enter (sys : System) (client : Nat) : Option System :=
  match sys.clients[client]? with
  | some (.waiting operation) =>
    if sys.schemaLocked then none
    else
      let sys := { sys with
        admitted := if sys.removing then sys.admitted ++ [client] else sys.admitted }
      match operation sys.kinds sys.committed with
      | .error _ => some (sys.setClient client .done)
      | .ok view => some (sys.setClient client (.running sys.committed view))
  | _ => none

def commitClient (sys : System) (storage : Storage) (client : Nat) : Option System :=
  match sys.clients[client]? with
  | some (.running base view) =>
    some { sys.setClient client .done with committed := storage.merge base view sys.committed }
  | _ => none

def abortClient (sys : System) (client : Nat) : Option System :=
  match sys.clients[client]? with
  | some (.running _ _) => some (sys.setClient client .done)
  | _ => none

def returns (sys : System) (result : Except MojErr Bool) : System :=
  { sys with phase := .returned result sys.committed }

end System

namespace Task

def delKindObject (task : Task) (kinds : KindMap) (db : Database) :
    Except MojErr (Database × Bool) := do
  Escalation.mayDelKind task.engine kinds task.req task.id
  match db.objDb.find (formatKindId task.id) with
  | none => .ok (db, false)
  | some obj => do
    let db ← task.rest.delObj kinds false (formatKindId task.id) obj db
    .ok (db, true)

/-- `beginReq` with the schema lock, once nobody else has a lock. -/
def begin (task : Task) (sys : System) : Option System :=
  if sys.clients.any Client.isRunning then none
  else
    let sys := { sys with indexes := indexesOf sys.kinds task.id }
    match task.delKindObject sys.kinds sys.committed with
    | .error err => some (sys.returns (.error err))
    | .ok (view, found) =>
      some { sys with
        phase := .holding true sys.committed view (if found then firstObjects else .finish false) }

/-- A round of one of the queries, and `commitBatch` after a full one. -/
def round (task : Task) (query : KeyQuery) (purge : Bool) (err : Option MojErr)
    (locked : Bool) (base view : Database) (limit : Nat) (next : MojDb.Swept → Stage)
    (sys : System) : System :=
  match query.sweep task.rest sys.kinds purge limit view with
  | (_, .error err) => sys.returns (.error err)
  | (view, .ok swept) =>
    if autoBatchSize ≤ swept.numberInBatch then
      match err with
      | some err => sys.returns (.error err)
      | none => { sys with
          committed := task.storage.merge base view sys.committed
          batch := true
          phase := .between (next swept) }
    else { sys with phase := .holding locked base view (next swept) }

def nextObjects (limit queryLimit : Nat) (swept : MojDb.Swept) : Stage :=
  if swept.count = 0 then firstPermissions
  else .objects (nextLimit (queryLimit - limit)) (queryLimit - limit)

def nextPermissions (limit queryLimit : Nat) (swept : MojDb.Swept) : Stage :=
  if swept.count = 0 then .drop
  else .permissions (nextLimit (queryLimit - limit)) (queryLimit - limit)

/-- `MojDbKind::drop`, as far as the keys go. -/
def dropIndexes (indexes : List MojDbIndex) (db : Database) : Database :=
  { db with keys := db.keys.keep fun key =>
      indexes.all fun index => decide (¬ MojDbKey.assign index.id none <+: key) }

/-- `reloadKind` from what is committed. -/
def reload (task : Task) (sys : System) : System :=
  let stored := sys.committed.objDb.find (formatKindId task.id)
  { sys with kinds := reloadKind sys.kinds task.id (stored.map task.kindObject) }

/-- `delKind` of the kind engine. -/
def drop (task : Task) (err : Option MojErr) (locked : Bool) (base view : Database)
    (sys : System) : System :=
  match err with
  | some err => (task.reload sys).returns (.error err)
  | none => { sys with
      kinds := MojDbKindEngine.delKind sys.kinds task.id
      phase := .holding locked base (dropIndexes (indexesOf sys.kinds task.id) view) (.finish true) }

/-- `end` of the request, and `endBatch` of a service request; a batch of `commitBatch` has no end. -/
def finish (task : Task) (err : Option MojErr) (base view : Database) (found : Bool)
    (sys : System) : System :=
  if task.service ∨ sys.batch = false then
    match err with
    | some err =>
      if task.service then sys.returns (.error err) else (task.reload sys).returns (.error err)
    | none => { sys with
        committed := task.storage.merge base view sys.committed }.returns (.ok found)
  else sys.returns (.ok found)

/-- What the request does next; `err` is what a commit or the kind engine meets with. -/
def delKind (task : Task) (err : Option MojErr) (sys : System) : Option System :=
  match sys.phase with
  | .waiting => task.begin sys
  | .between stage =>
    some { sys with phase := .holding false sys.committed sys.committed stage }
  | .holding locked base view (.objects limit queryLimit) =>
    if queryLimit = 0 then some { sys with phase := .holding locked base view firstPermissions }
    else some (task.round task.objects true err locked base view limit
      (nextObjects limit queryLimit) sys)
  | .holding locked base view (.permissions limit queryLimit) =>
    if queryLimit = 0 then some { sys with phase := .holding locked base view .drop }
    else some (task.round task.permissions false err locked base view limit
      (nextPermissions limit queryLimit) sys)
  | .holding locked base view .drop => some (task.drop err locked base view sys)
  | .holding _ base view (.finish found) => some (task.finish err base view found sys)
  | .returned _ _ => none

def step (task : Task) (sys : System) : Event → Option System
  | .enter client => sys.enter client
  | .commit client => sys.commitClient task.storage client
  | .abort client => sys.abortClient client
  | .delKind err => task.delKind err sys

def run (task : Task) (sys : System) (events : List Event) : Option System :=
  events.foldlM task.step sys

end Task

def objectKey : MojString := chars "object".toList

def OfKind (id : MojString) (obj : MojObject) : Prop := Held.kindName obj = some id

def PermissionOn (id : MojString) (obj : MojObject) : Prop :=
  OfKind permissionId obj ∧ obj.get objectKey = some (.string id) ∧ live obj = true

structure Clean (id : MojString) (indexes : List MojDbIndex) (db : Database) : Prop where
  objects : Without (OfKind id) db
  keys : ∀ index ∈ indexes, ∀ key ∈ db.keys, ¬ MojDbKey.assign index.id none <+: key
  permissions : Without (PermissionOn id) db

structure PermissionsReady (task : Task) (kinds : KindMap) (db : Database) : Prop where
  owned : Owned kinds task.permissions db
  covered : Covered (PermissionOn task.id) task.permissions db
  few : (task.permissions.rangeKeys db).elems.length < 1000
  hides : Hides task.rest kinds task.permissions

/-- Each query finds what it is meant for, by keys of the objects' own, and less than a full batch. -/
structure Ready (task : Task) (kinds : KindMap) (db : Database) : Prop where
  owned : Owned kinds task.objects db
  covered : Covered (OfKind task.id) task.objects db
  few : (task.objects.rangeKeys db).elems.length < 1000
  permissions : PermissionsReady task kinds db

/-- The request finds everything ready once it has its lock and marked the kind object. -/
def ReadyToBegin (task : Task) (sys : System) : Prop :=
  ∀ view, task.delKindObject sys.kinds sys.committed = .ok (view, true) →
    Ready task sys.kinds view

structure Fresh (task : Task) (sys : System) : Prop where
  waiting : sys.phase = .waiting
  batch : sys.batch = task.service
  alone : sys.admitted = []

end Db8.Db.DelKind
