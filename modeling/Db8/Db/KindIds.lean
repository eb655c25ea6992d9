import Db8.Bytes.SortedMap
import Db8.Core.Object
import Db8.DbEngine.Sequence
import Db8.Steps

/-!
# Tokens of kinds and ids of indexes

`MojDbKindState::id` takes a number from a sequence and notes it in the record of the kind. The record
is written in the transaction of the request; the sequence and the kinds in memory know nothing of how
that ends. `MojDb::commitKind` therefore loads a kind anew when its request fails. A request of the
service is a batch, though: it is committed when `commitKind` is done, and nobody loads a kind anew when
that fails. And the deletion of a kind with many objects commits on its way, first of all that there is
no object of the kind any more, while its record goes last. Requests come one after another.
-/

set_option autoImplicit false

namespace Db8.Db.KindIds

open Db8.Bytes
open Db8.Core
open Db8.DbEngine

structure IndexObject where
  name : MojString
  obj : MojObject
deriving DecidableEq

inductive IdsKey where
  | indexIds
  | kindTokens
deriving DecidableEq

/-- The records of the kinds: under either key a map from names to ids. -/
abbrev Rows := MojString → IdsKey → MojString → Option Nat

def Rows.put (rows : Rows) (kind : MojString) (key : IdsKey) (name : MojString) (id : Option Nat) :
    Rows := fun otherKind otherKey otherName =>
  if otherKind = kind ∧ otherKey = key ∧ otherName = name then id
  else rows otherKind otherKey otherName

/-- `MojDbKind` with the token of its state and its indexes with their ids. -/
structure Kind where
  token : Nat
  indexes : List (IndexObject × Nat)
deriving DecidableEq

/-- `m_kinds` and `m_tokens`. -/
structure Memory where
  kinds : MojString → Option Kind
  tokens : Nat → Option MojString

def Memory.put (memory : Memory) (id : MojString) (kind : Option Kind) : Memory :=
  { memory with kinds := fun other => if other = id then kind else memory.kinds other }

/-- What is committed: the records, and the kind objects with the indexes they ask for, in the order of
the index of their ids. -/
structure Disk where
  rows : Rows
  stored : SortedMap MojString (List IndexObject)

/-- What a request works on: the disk as its transaction sees it, what the storage and the checks answer
to what is asked next, what is committed, and whether the request is a batch. -/
structure Working where
  disk : Disk
  memory : Memory
  seq : MojDbStorageSeq.World
  faults : List (Option MojErr)
  committed : Disk
  batch : Bool

abbrev Acting (α : Type) := EStateM MojErr Working α

def ask : Acting Unit := fun working =>
  let after := { working with faults := working.faults.tail }
  match working.faults.head?.getD none with
  | none => .ok () after
  | some err => .error err after

def attempt (action : Acting Unit) : Acting (Option MojErr) := fun working =>
  match action working with
  | .ok () after => .ok none after
  | .error err after => .ok (some err) after

def setRow (kind : MojString) (key : IdsKey) (name : MojString) (id : Option Nat) : Acting Unit :=
  modify fun working =>
    { working with disk := { working.disk with rows := working.disk.rows.put kind key name id } }

namespace MojDbKindState

def nextId : Acting Nat := fun working =>
  match working.seq.seq with
  | none => .error .notOpen working
  | some seq =>
    let got := MojDbStorageSeq.get seq working.seq.stored (working.faults.head?.getD none)
    let after := { working with seq := got.1, faults := working.faults.tail }
    match got.2 with
    | .error err => .error err after
    | .ok id => .ok id after

def createId (kind : MojString) (key : IdsKey) (name : MojString) : Acting Nat := do
  let id ← nextId
  ask
  setRow kind key name (some id)
  return id

def id (kind : MojString) (key : IdsKey) (name : MojString) : Acting Nat := do
  ask
  match (← get).disk.rows kind key name with
  | some id => return id
  | none => createId kind key name

def delIndex (kind name : MojString) : Acting Unit := do
  ask
  setRow kind .indexIds name none

end MojDbKindState

namespace MojDbKind

def idIndex : IndexObject := ⟨chars "_id".toList, .object [
  (chars "incDel".toList, .bool true),
  (chars "name".toList, .string (chars "_id".toList)),
  (chars "props".toList, .array [.object [(chars "name".toList, .string (chars "_id".toList))]])]⟩

/-- The index is made from its object, gets its id and is opened. -/
def openIndex (kind : MojString) (index : IndexObject) : Acting Nat := do
  ask
  let id ← MojDbKindState.id kind .indexIds index.name
  ask
  return id

def dropIndex (kind : MojString) (index : IndexObject) : Acting Unit := do
  MojDbKindState.delIndex kind index.name
  ask

def dropIndexes (kind : MojString) (wanted : List IndexObject) :
    List (IndexObject × Nat) → Acting (List (IndexObject × Nat))
  | [] => return []
  | index :: indexes =>
    if index.1 ∈ wanted then do
      return index :: (← dropIndexes kind wanted indexes)
    else do
      dropIndex kind index.1
      dropIndexes kind wanted indexes

def addIndexes (kind : MojString) : List IndexObject → Acting (List (IndexObject × Nat))
  | [] => return []
  | index :: indexes => do
    let id ← openIndex kind index
    return (index, id) :: (← addIndexes kind indexes)

/-- `configureIndexes`. In which order indexes are added, and kept, decides nothing here. -/
def configureIndexes (kind : MojString) (indexes : List (IndexObject × Nat))
    (given : List IndexObject) : Acting (List (IndexObject × Nat)) := do
  let wanted := idIndex :: given
  if (wanted.map IndexObject.name).Nodup then
    let kept ← dropIndexes kind wanted indexes
    let added ← addIndexes kind (wanted.filter fun index => decide (index ∉ indexes.map Prod.fst))
    return kept ++ added
  else throw (.dbInvalidIndex "db: cannot repeat index name")

def remember (id : MojString) (kind : Kind) : Acting Unit :=
  modify fun working =>
    if (working.memory.kinds id).isSome then
      { working with memory := working.memory.put id (some kind) }
    else working

def noToken : Nat := 2 ^ 63 - 1

/-- `configure`: the owner, the permission and the schema are checked, the state is read anew, and after
the indexes come the supers and the revision sets. -/
def configure (id : MojString) (indexes : List (IndexObject × Nat)) (given : List IndexObject) :
    Acting Kind := do
  ask
  remember id ⟨noToken, indexes⟩
  let token ← MojDbKindState.id id .kindTokens id
  remember id ⟨token, indexes⟩
  ask
  let indexes ← configureIndexes id indexes given
  remember id ⟨token, indexes⟩
  ask
  return ⟨token, indexes⟩

def dropAll (kind : MojString) : List (IndexObject × Nat) → Acting (Option MojErr)
  | [] => return none
  | index :: indexes => do
    let err ← attempt (dropIndex kind index.1)
    let later ← dropAll kind indexes
    return later <|> err

def drop (id : MojString) (kind : Kind) : Acting Unit := do
  ask
  let err ← dropAll id kind.indexes
  remember id { kind with indexes := [] }
  match err with
  | none => return ()
  | some err => throw err

end MojDbKind

namespace MojDbKindEngine

def createKind (id : MojString) (given : List IndexObject) : Acting Unit := do
  let kind ← MojDbKind.configure id [] given
  modify fun working =>
    let memory := working.memory.put id (some kind)
    { working with memory :=
      { memory with tokens := fun token => if token = kind.token then some id else memory.tokens token } }

def putKind (id : MojString) (given : List IndexObject) : Acting Unit := do
  match (← get).memory.kinds id with
  | none => createKind id given
  | some kind =>
    let _ ← MojDbKind.configure id kind.indexes given
    return ()

def forget (id : MojString) : Acting Unit :=
  modify fun working => { working with memory := working.memory.put id none }

def delKind (id : MojString) : Acting Unit := do
  match (← get).memory.kinds id with
  | none => return ()
  | some kind =>
    MojDbKind.drop id kind
    forget id

def reloadKind (id : MojString) (given : List IndexObject) : Acting Unit := do
  forget id
  createKind id given

def index (name : String) (obj : List (MojString × MojObject)) : IndexObject :=
  ⟨chars name.toList, .object obj⟩

def named (name : String) : MojString × MojObject :=
  (chars "name".toList, .string (chars name.toList))

def props (vals : List MojObject) : MojString × MojObject := (chars "props".toList, .array vals)

def incDel : MojString × MojObject := (chars "incDel".toList, .bool true)

def builtins : List (MojString × List IndexObject) :=
  [(chars "Object:1".toList, [index "_sync_revincdel" [incDel, named "_sync_revincdel",
      props [.object [(chars "default".toList, .bool false), named "_sync"],
        .object [named "_rev"]]]]),
    (chars "Kind:1".toList, [index "_rev" [incDel, named "_rev", props [.object [named "_rev"]]],
      index "kindid" [named "kindid", props [.object [named "id"]]]]),
    (chars "RevTimestamp:1".toList, [index "timestamp" [named "timestamp",
      props [.object [named "timestamp"]]]]),
    (chars "DbState:1".toList, []),
    (chars "Permission:1".toList, [index "permissionidx" [named "permissionidx",
      props [.object [named "object"], .object [named "type"], .object [named "caller"]]]]),
    (chars "Quota:1".toList, [])]

def addBuiltins : List (MojString × List IndexObject) → Acting Unit
  | [] => return ()
  | (id, given) :: rest => do
    putKind id given
    addBuiltins rest

/-- `loadKinds`: a kind that cannot be loaded is passed by. -/
def loadKinds : List (MojString × List IndexObject) → Acting Unit
  | [] => return ()
  | (id, given) :: rest => do
    let _ ← attempt (putKind id given)
    loadKinds rest

end MojDbKindEngine

namespace MojDb

inductive Op where
  | putKind (id : MojString) (given : List IndexObject)
  | delKind (id : MojString) (full : Nat)
deriving DecidableEq

def Op.id : Op → MojString
  | .putKind id _ => id
  | .delKind id _ => id

def Op.full : Op → Nat
  | .putKind _ _ => 0
  | .delKind _ full => full

def commitBatch : Acting Unit := do
  ask
  modify fun working => { working with committed := working.disk, batch := true }

def purge : Nat → Acting Unit
  | 0 => ask
  | full + 1 => do
    ask
    commitBatch
    purge full

def setStored (change : SortedMap MojString (List IndexObject) → SortedMap MojString (List IndexObject)) :
    Acting Unit :=
  modify fun working =>
    { working with disk := { working.disk with stored := change working.disk.stored } }

/-- A request up to `commitKind`, with the failure that is handed to it; what fails before is the end of
the request. -/
def Op.body : Op → Acting (Option MojErr)
  | .putKind id given => do
    ask
    setStored fun stored => stored.put id given
    attempt (MojDbKindEngine.putKind id given)
  | .delKind id full => do
    match (← get).memory.kinds id with
    | none => throw .dbKindNotRegistered
    | some _ =>
      ask
      if ((← get).disk.stored.find id).isSome then
        setStored fun stored => stored.del id
        purge full
        attempt (MojDbKindEngine.delKind id)
      else return none

def reloadKind (id : MojString) : Acting Unit := do
  ask
  match (← get).disk.stored.find id with
  | some given => MojDbKindEngine.reloadKind id given
  | none => MojDbKindEngine.delKind id

/-- The process: what is on its disk, the sequence, and the kinds in memory while it is open. -/
structure System where
  disk : Disk
  seq : MojDbStorageSeq.World
  memory : Option Memory

def fresh : System := ⟨⟨fun _ _ _ => none, SortedMap.empty⟩, ⟨none, none⟩, none⟩

/-- How a request ends that has not failed before: it is committed, it is not, or the process dies. -/
inductive Ending where
  | commits
  | fails
  | dies
deriving DecidableEq

structure Reload where
  faults : List (Option MojErr)
  commits : Bool

inductive Event where
  | request (op : Op) (batch : Bool) (faults : List (Option MojErr)) (ending : Ending) (reload : Reload)
  | stop (close : Option (Option MojErr))
  | start (faults loads : List (Option MojErr)) (commits : Bool)

def System.lost (sys : System) (seq : MojDbStorageSeq.World) : System :=
  ⟨sys.disk, ⟨none, seq.stored⟩, none⟩

def System.reload (sys : System) (id : MojString) (memory : Memory) (seq : MojDbStorageSeq.World)
    (reload : Reload) : System :=
  match reloadKind id ⟨sys.disk, memory, seq, reload.faults, sys.disk, false⟩ with
  | .ok () working =>
    ⟨if reload.commits then working.disk else sys.disk, working.seq, some working.memory⟩
  | .error _ working => ⟨sys.disk, working.seq, some working.memory⟩

/-- A request that has become a batch on its way is committed by nobody. -/
def System.request (sys : System) (memory : Memory) (op : Op) (batch : Bool)
    (faults : List (Option MojErr)) (ending : Ending) (reload : Reload) : System :=
  match op.body ⟨sys.disk, memory, sys.seq, faults, sys.disk, batch⟩ with
  | .error _ working =>
    let sys := { sys with disk := working.committed }
    if ending = .dies then sys.lost working.seq
    else ⟨sys.disk, working.seq, some working.memory⟩
  | .ok (some _) working =>
    let sys := { sys with disk := working.committed }
    if ending = .dies then sys.lost working.seq
    else sys.reload op.id working.memory working.seq reload
  | .ok none working =>
    let sys := { sys with disk := working.committed }
    match ending with
    | .dies => sys.lost working.seq
    | .commits =>
      ⟨if working.batch = batch then working.disk else sys.disk, working.seq, some working.memory⟩
    | .fails =>
      if working.batch then ⟨sys.disk, working.seq, some working.memory⟩
      else sys.reload op.id working.memory working.seq reload

/-- `open`, as far as kinds go. -/
def System.start (sys : System) (faults loads : List (Option MojErr)) (commits : Bool) : System :=
  let seq : MojDbStorageSeq.World :=
    ⟨some (MojDbStorageSeq.openSeq sys.seq.stored), sys.seq.stored⟩
  match MojDbKindEngine.addBuiltins MojDbKindEngine.builtins
      ⟨sys.disk, ⟨fun _ => none, fun _ => none⟩, seq, faults, sys.disk, false⟩ with
  | .error _ working => sys.lost working.seq
  | .ok () working =>
    match MojDbKindEngine.loadKinds working.disk.stored.entries { working with faults := loads } with
    | .error _ working => sys.lost working.seq
    | .ok () working =>
      if commits then ⟨working.disk, working.seq, some working.memory⟩
      else sys.lost working.seq

/-- Requests are made while the database is open, and it is opened while it is closed. -/
def step : Event → System → Option System
  | .request op batch faults ending reload, sys =>
    sys.memory.map fun memory => sys.request memory op batch faults ending reload
  | .stop close, sys =>
    match sys.memory, close with
    | none, _ => none
    | some _, none => some (sys.lost sys.seq)
    | some _, some failure => some (sys.lost (MojDbStorageSeq.step sys.seq (.close failure)).1)
  | .start faults loads commits, sys =>
    match sys.memory with
    | none => some (sys.start faults loads commits)
    | some _ => none

end MojDb

end Db8.Db.KindIds
