import Db8.Core.Convert
import Db8.Db.DelQuery
import Db8.Db.Query
import Db8.DbEngine.Sequence

/-!
# Putting an object

`MojDb::putImpl` and `putObj`: the previous version is read, merged or compared with, and the new
one gets a revision from the sequence. The ids of the objects within arrays come from the same
sequence.
-/

set_option autoImplicit false

namespace Db8.Db.MojDb

open Db8.Bytes
open Db8.Core
open Db8.DbEngine.MojDbStorageSeq

def kindKey : MojString := chars "_kind".toList

def kindKindIdPrefix : MojString := chars "Kind:".toList

/-- The sequence of a database, with what the store does with the next pages, and the values it
handed out. -/
structure Ids where
  world : World
  failures : List (Option MojErr)
  handed : List Nat

abbrev Taking (α : Type) := EStateM MojErr Ids α

/-- `nextId`; the sequence is there as long as the database is open. -/
def nextId : Taking Nat := fun ids =>
  match ids.world.seq with
  | none => .error .notOpen ids
  | some seq =>
    let got := get seq ids.world.stored (ids.failures.head?.getD none)
    match got.2 with
    | .error err => .error err ⟨got.1, ids.failures.tail, ids.handed⟩
    | .ok val => .ok val ⟨got.1, ids.failures.tail, ids.handed ++ [val]⟩

def idString (id : Nat) : MojString := chars (Nat.toDigits 16 id)

mutual

/-- `assignIds` on a value of an object: objects in arrays get an id. -/
def assignVal : MojObject → Taking MojObject
  | .array vals => do
    let vals ← assignVals vals
    return .array vals
  | .object props => do
    let props ← assignProps props
    return .object props
  | .null => return .null
  | .string val => return .string val
  | .bool val => return .bool val
  | .decimal rep => return .decimal rep
  | .int val => return .int val

def assignProps : List (MojString × MojObject) → Taking (List (MojString × MojObject))
  | [] => return []
  | (name, val) :: rest => do
    let val ← assignVal val
    let rest ← assignProps rest
    return (name, val) :: rest

def assignVals : List MojObject → Taking (List MojObject)
  | [] => return []
  | .object props :: rest => do
    let props ← assignElement props
    let rest ← assignVals rest
    return .object props :: rest
  | val :: rest => do
    let rest ← assignVals rest
    return val :: rest

/-- An object within an array. The id put is a string, which needs no ids within. -/
def assignElement : List (MojString × MojObject) → Taking (List (MojString × MojObject))
  | [] => do
    let id ← nextId
    return MojObject.putProp idKey (.string (idString id)) []
  | (name, val) :: rest => do
    if (MojObject.find ((name, val) :: rest) idKey).isSome then do
      let val ← assignVal val
      let rest ← assignProps rest
      return (name, val) :: rest
    else do
      let id ← nextId
      let val ← assignVal val
      let rest ← assignProps rest
      return MojObject.putProp idKey (.string (idString id)) ((name, val) :: rest)

end

def assignIds (obj : MojObject) : Taking MojObject :=
  match obj with
  | .object props => do
    let props ← assignProps props
    return .object props
  | other => return other

/-- `MojDbRevisionSet`, with whether its properties differ. -/
structure MojDbRevisionSet where
  name : MojString
  differs : MojObject → MojObject → Bool

/-- `MojDbRevisionSet::update`, for an object that has its revision. -/
def MojDbRevisionSet.update (revSet : MojDbRevisionSet) (prev : Option MojObject)
    (obj : MojObject) : MojObject :=
  match obj.get revKey with
  | none => obj
  | some rev =>
    match prev with
    | none => obj.put revSet.name rev
    | some prev => if revSet.differs obj prev then obj.put revSet.name rev else obj

/-- What the update of a kind does to a new object, and what it refuses: no permission, no schema
that fits, no room in the quota, an error of an index. -/
structure KindUpdate where
  backup : Bool
  revSets : List MojDbRevisionSet
  refuses : MojObject → Option MojObject → Option MojErr

def KindUpdate.apply (kind : KindUpdate) (prev : Option MojObject) (obj : MojObject) :
    Except MojErr MojObject :=
  match kind.refuses obj prev with
  | some err => .error err
  | none =>
    let obj :=
      if kind.backup ∧ obj.get syncKey = none then obj.put syncKey (.bool true) else obj
    .ok (kind.revSets.foldl (fun obj revSet => revSet.update prev obj) obj)

def deleted (obj : MojObject) : Bool := ((obj.get delKey).map MojObject.boolValue).getD false

def withHeader (id : MojObject) (obj : MojObject) : MojObject :=
  let rev := ((obj.get revKey).map MojObject.intValue).getD 0
  let obj := (obj.put idKey id).put revKey (.int rev)
  if deleted obj then obj.put delKey (.bool true) else obj

mutual

/-- `mergeInto`, for property maps in the order of their names. -/
def mergeProps : List (MojString × MojObject) → List (MojString × MojObject) →
    List (MojString × MojObject)
  | [], prev => prev
  | obj, [] => obj
  | (key, val) :: obj, (name, old) :: prev =>
    if key = name then (key, mergeVal val old) :: mergeProps obj prev
    else if key.map Subtype.val < name.map Subtype.val then
      (key, val) :: mergeProps obj ((name, old) :: prev)
    else (name, old) :: mergeProps ((key, val) :: obj) prev
termination_by obj prev => sizeOf obj + sizeOf prev

def mergeVal : MojObject → MojObject → MojObject
  | .object obj, .object prev => .object (mergeProps obj prev)
  | val, _ => val
termination_by val old => sizeOf val + sizeOf old

end

def mergeInto (obj prev : MojObject) : MojObject := .object (mergeProps obj.map prev.map)

structure PutFlags where
  merge : Bool
  force : Bool
  ignoreMissing : Bool

inductive Put where
  | ignored
  | unchanged
  | stored (obj : MojObject)
deriving DecidableEq

/-- Whether the kind's name begins like that of the kind objects. -/
def isKindObject : MojObject → Bool
  | .string val => kindKindIdPrefix.isPrefixOf val
  | _ => false

/-- The end of `putObj`, with the error of the write to the storage, if it is to fail. -/
def storeObj (kind : KindUpdate) (storage : Option MojErr) (id : MojObject)
    (prev : Option MojObject) (obj : MojObject) : Taking Put :=
  match kind.apply prev obj with
  | .error err => throw err
  | .ok obj =>
    match storage with
    | some err => throw err
    | none => return .stored (withHeader id obj)

/-- `putObj` with the revision at hand. -/
def putRev (kind : KindUpdate) (storage : Option MojErr) (id : MojObject)
    (prev : Option MojObject) (obj : MojObject) : Taking Put :=
  match obj.get kindKey with
  | none => throw .dbKindNotSpecified
  | some kindName =>
    (if isKindObject kindName then pure obj else assignIds obj) >>= storeObj kind storage id prev

def putObj (kind : KindUpdate) (storage : Option MojErr) (id obj : MojObject)
    (prev : Option MojObject) : Taking Put :=
  -- if nothing changed, don't do the update
  if prev = some obj then return .unchanged
  else do
    let rev ← nextId
    putRev kind storage id prev (obj.put revKey (.int (BitVec.ofNat 64 rev)))

/-- The two checks of `putImpl` on the revision; a merged object carries one. -/
def checkRev (flags : PutFlags) (obj prev : MojObject) : Except MojErr Unit := do
  if flags.merge = false ∧ flags.force = false ∧ obj.get revKey = none ∧ deleted prev = false then
    .error .dbRevNotSpecified
  match obj.get revKey with
  | none => .ok ()
  | some newRev =>
    match prev.get revKey with
    | none => .error (.requiredPropNotFound (revKey.map Subtype.val))
    | some oldRev =>
      if flags.force = false ∧ newRev.intValue ≠ oldRev.intValue then
        .error .dbRevisionMismatch
      else .ok ()

/-- `putImpl` for an object with an id, given the stored version under it. -/
def putImpl (flags : PutFlags) (kind : KindUpdate) (storage : Option MojErr) (id obj : MojObject)
    (prev : Option MojObject) : Taking Put :=
  match prev with
  | none =>
    if flags.ignoreMissing ∧ flags.merge then return .ignored
    else putObj kind storage id obj none
  | some prev => do
    let obj := if flags.merge then mergeInto obj prev else obj
    match checkRev flags obj prev with
    | .error err => throw err
    | .ok () => putObj kind storage id obj (some prev)

end Db8.Db.MojDb
