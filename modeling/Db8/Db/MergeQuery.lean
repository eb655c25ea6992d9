import Db8.Db.DelSweep
import Db8.Db.Revisions

/-!
# Merging into what a query finds

`MojDb::merge` with a query walks an index and puts each object it meets, in one transaction. The
cursor is on the index as it is at that moment, so a key the merge puts ahead of it is met as well.
A key ends in the id the kinds saw in the object.
-/

set_option autoImplicit false

namespace Db8.Db.MojDb

open Db8.Bytes
open Db8.Core
open Deletion (Beyond beyond_some)

structure Change where
  keyed : MojObject
  stored : MojObject
deriving DecidableEq

/-- The end of `putObj`, with the object the indexes get. -/
def storeKeyed (kind : KindUpdate) (storage : Option MojErr) (id : MojObject)
    (prev : Option MojObject) (obj : MojObject) : Taking Change :=
  match kind.apply prev obj with
  | .error err => throw err
  | .ok obj =>
    match storage with
    | some err => throw err
    | none => return ⟨obj, withHeader id obj⟩

/-- `putObj`, with the object the indexes get; nothing for an object that stays as it is. -/
def putKeyed (kind : KindUpdate) (storage : Option MojErr) (id obj : MojObject)
    (prev : Option MojObject) : Taking (Option Change) :=
  if prev = some obj then return none
  else do
    let rev ← nextId
    let obj := obj.put revKey (.int (BitVec.ofNat 64 rev))
    match obj.get kindKey with
    | none => throw .dbKindNotSpecified
    | some kindName =>
      (if isKindObject kindName then pure obj else assignIds obj) >>=
        storeKeyed kind storage id prev >>= fun change => pure (some change)

/-- The objects and the queried index, as far as the ranges of the query reach. -/
structure KeyedStore (κ : Type) [LinearOrder κ] where
  objDb : SortedMap MojString MojObject
  index : SortedSet κ

/-- A merge by query: its index in scan order, whether a distinct query delivers an object after the
one it kept, its limit, the checks of the find, the props, and what kinds and storage do. A key ends
in the id of its object, unless the index was configured with an `_id` entry that collates. -/
structure Merging (κ : Type) [LinearOrder κ] where
  keysOf : MojObject → List κ
  idOf : κ → MojString
  owns : ∀ obj, ∀ key ∈ keysOf obj, obj.get idKey = some (.string (idOf key))
  accept : Option MojObject → MojObject → Except MojErr Bool
  limit : MojUInt32
  find : Except MojErr Unit
  props : MojObject
  kind : MojObject → KindUpdate
  storage : MojObject → Option MojErr

namespace Merging

variable {κ : Type} [LinearOrder κ]

/-- The merge into one object, with the change it makes; an object may stay as it is. -/
def mergeObj (merging : Merging κ) (id : MojString) (prev : MojObject) : Taking Change :=
  putKeyed (merging.kind (mergeInto merging.props prev)) (merging.storage prev) (.string id)
    (mergeInto merging.props prev) (some prev) >>= fun change =>
      pure (change.getD ⟨prev, prev⟩)

/-- The index drops the keys of the old object and gets those of the new one. -/
def update (merging : Merging κ) (store : KeyedStore κ) (id : MojString) (prev : MojObject)
    (change : Change) : KeyedStore κ where
  objDb := store.objDb.put id change.stored
  index := (store.index.delAll (merging.keysOf prev)).putAll (merging.keysOf change.keyed)

def ahead (store : KeyedStore κ) (last : Option κ) : List κ :=
  store.index.elems.filter fun key => decide (Beyond last key)

/-- `get` of the cursor: keys without an object are passed over, and so are duplicates. -/
def next (merging : Merging κ) (store : KeyedStore κ) (kept : Option MojObject) :
    List κ → Except MojErr (Option (κ × MojObject))
  | [] => .ok none
  | key :: rest =>
    match store.objDb.find (merging.idOf key) with
    | none => next merging store kept rest
    | some obj =>
      match merging.accept kept obj with
      | .error err => .error err
      | .ok true => .ok (some (key, obj))
      | .ok false => next merging store kept rest

/-- The loop of `merge`, with the number of objects the limit still lets through; it returns the ids
it merged into. -/
def mergeFrom (merging : Merging κ) :
    Nat → Option κ → Option MojObject → KeyedStore κ → Taking (KeyedStore κ × List MojString)
  | 0, _, _, store => return (store, [])
  | room + 1, last, kept, store =>
    match merging.next store kept (ahead store last) with
    | .error err => throw err
    | .ok none => return (store, [])
    | .ok (some (key, obj)) => do
      let change ← merging.mergeObj (merging.idOf key) obj
      let later ← merging.mergeFrom room (some key) (some obj)
        (merging.update store (merging.idOf key) obj change)
      return (later.1, merging.idOf key :: later.2)

def merge (merging : Merging κ) (store : KeyedStore κ) :
    Taking (KeyedStore κ × List MojString) :=
  match merging.find with
  | .error err => throw err
  | .ok () => merging.mergeFrom merging.limit.toNat none none store

def countOut (merged : List MojString) : MojUInt32 := BitVec.ofNat 32 merged.length

structure Match (κ : Type) where
  key : κ
  obj : MojObject

def idAt (merging : Merging κ) (hit : Match κ) : MojString := merging.idOf hit.key

/-- What the query finds over keys that do not change; each object once. -/
def matchesFrom (merging : Merging κ) (objDb : SortedMap MojString MojObject) :
    Nat → Option MojObject → List MojString → List κ → List (Match κ)
  | 0, _, _, _ => []
  | _ + 1, _, _, [] => []
  | room + 1, kept, seen, key :: rest =>
    match objDb.find (merging.idOf key) with
    | none => matchesFrom merging objDb (room + 1) kept seen rest
    | some obj =>
      if merging.idOf key ∉ seen ∧ merging.accept kept obj = .ok true then
        ⟨key, obj⟩ ::
          matchesFrom merging objDb room (some obj) (merging.idOf key :: seen) rest
      else matchesFrom merging objDb (room + 1) kept seen rest

def found (merging : Merging κ) (store : KeyedStore κ) : List (Match κ) :=
  merging.matchesFrom store.objDb merging.limit.toNat none [] store.index.elems

def mergeEach (merging : Merging κ) : List (Match κ) → Taking (List (Match κ × Change))
  | [] => return []
  | hit :: rest => do
    let change ← merging.mergeObj (merging.idAt hit) hit.obj
    let later ← merging.mergeEach rest
    return (hit, change) :: later

/-- The object a distinct query has kept when it comes to a key. -/
def keptAt (hits : List (Match κ)) (key : κ) : Option MojObject :=
  (hits.filter fun hit => decide (hit.key < key)).getLast?.map Match.obj

/-- The keys of a merged object do not lie where the cursor will still meet it: they are not past
the one it was found by, or they are past the last object within the limit, or a distinct query
leaves the object out there. -/
def Behind (merging : Merging κ) (hits : List (Match κ)) (entry : Match κ × Change) : Prop :=
  ∀ key ∈ merging.keysOf entry.2.keyed,
    key ≤ entry.1.key ∨
      (hits.length = merging.limit.toNat ∧ ∀ hit ∈ hits, hit.key < key) ∨
      (merging.idOf key = merging.idAt entry.1 ∧
        merging.accept (keptAt hits key) entry.2.stored ≠ .ok true)

/-- The single merges succeed and keep all objects behind the cursor. -/
def Settles (merging : Merging κ) (before : KeyedStore κ) (ids : Ids) : Prop :=
  ∃ entries after, merging.mergeEach (merging.found before) ids = .ok entries after ∧
    ∀ entry ∈ entries, merging.Behind (merging.found before) entry

/-- The index holds the keys of the stored objects, which carry their ids. -/
structure Consistent (merging : Merging κ) (store : KeyedStore κ) : Prop where
  named : ∀ id obj, store.objDb.find id = some obj → obj.get idKey = some (.string id)
  indexed : ∀ key, key ∈ store.index ↔
    ∃ obj, store.objDb.find (merging.idOf key) = some obj ∧ key ∈ merging.keysOf obj

/-- What a merge by query is for: each object that matched is merged once, the others stay. -/
structure MergedOnce (merging : Merging κ) (before after : KeyedStore κ) (merged : List MojString) :
    Prop where
  once : merged.Perm ((merging.found before).map merging.idAt)
  changed : ∀ hit ∈ merging.found before, ∃ ids change later,
    merging.mergeObj (merging.idAt hit) hit.obj ids = .ok change later ∧
      after.objDb.find (merging.idAt hit) = some change.stored
  others : ∀ id, id ∉ (merging.found before).map merging.idAt →
    after.objDb.find id = before.objDb.find id
  counted : (countOut merged).toNat = (merging.found before).length

end Merging

end Db8.Db.MojDb
