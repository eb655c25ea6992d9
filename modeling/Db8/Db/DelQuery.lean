import Db8.Bytes.SortedMap
import Db8.Db.Req

/-!
# What a query deletion does to the objects

One round opens a cursor on the queried index and deletes the objects it leads to. The index holds
the keys of the stored objects, in scan order. How an open cursor shows what its own transaction
does meanwhile is up to the storage library: it goes up, it shows no key that was never there, and
it leaves out no key that was there all the time.
-/

set_option autoImplicit false

namespace Db8.Db

open Db8.Bytes
open Db8.Core

/-- The index of a query as far as its ranges reach; a key ends in the id of its object, unless the
index was configured with an `_id` entry that collates. -/
structure QueriedIndex (κ : Type*) where
  keysOf : MojString → MojObject → List κ
  idOf : κ → MojString
  owns : ∀ id obj, ∀ key ∈ keysOf id obj, idOf key = id

/-- The keys an iterator past `last` goes on with, from the keys it was opened on and those of now. -/
structure StorageCursor (κ : Type*) [LinearOrder κ] where
  ahead : SortedSet κ → SortedSet κ → Option κ → List κ
  sorted : ∀ opened now last, (ahead opened now last).Pairwise (· < ·)
  beyond : ∀ opened now last, ∀ key ∈ ahead opened now last, ∀ passed ∈ last, passed < key
  shown : ∀ opened now last, ∀ key ∈ ahead opened now last, key ∈ opened ∨ key ∈ now
  complete : ∀ opened now last, ∀ key ∈ opened, key ∈ now → (∀ passed ∈ last, passed < key) →
    key ∈ ahead opened now last

/-- Whether a cursor shows just the keys of now. -/
def StorageCursor.LiveView {κ : Type*} [LinearOrder κ] (cursor : StorageCursor κ) : Prop :=
  ∀ opened now last key,
    key ∈ cursor.ahead opened now last ↔ key ∈ now ∧ ∀ passed ∈ last, passed < key

def StorageCursor.current {κ : Type*} [LinearOrder κ] : StorageCursor κ where
  ahead _ now last := now.elems.filter fun key => decide (∀ passed ∈ last, passed < key)
  sorted _ now _ := now.sorted.sublist List.filter_sublist
  beyond _ _ _ _ member := of_decide_eq_true (List.mem_filter.mp member).2
  shown _ _ _ _ member := Or.inr (List.mem_filter.mp member).1
  complete _ _ _ _ _ present past :=
    List.mem_filter.mpr ⟨present, decide_eq_true past⟩

theorem StorageCursor.current_liveView {κ : Type*} [LinearOrder κ] :
    (StorageCursor.current : StorageCursor κ).LiveView := by
  intro opened now last key
  show key ∈ now.elems.filter _ ↔ _
  rw [List.mem_filter, decide_eq_true_eq]
  rfl

structure ObjectStore where
  objDb : SortedMap MojString MojObject
  rev : MojInt64

def revKey : MojString := chars "_rev".toList

def syncKey : MojString := chars "_sync".toList

namespace MojDb

variable {κ : Type*} [LinearOrder κ]

/-- A query deletion: its index and cursors, its flags, whether the objects' kinds are backed up,
and the checks of the find and of the kind engine's update, which can refuse. -/
structure Deletion (κ : Type*) [LinearOrder κ] where
  index : QueriedIndex κ
  cursor : StorageCursor κ
  purge : Bool
  backup : Bool
  find : Except MojErr Unit
  update : Option MojObject → MojObject → Except MojErr Unit

/-- The object a deletion without `FlagPurge` leaves. -/
def markDeleted (backup : Bool) (rev : MojInt64) (obj : MojObject) : MojObject :=
  let newObj := obj.put delKey (.bool true)
  if newObj = obj then obj
  else
    let newObj := newObj.put revKey (.int rev)
    if backup ∧ newObj.get syncKey = none then newObj.put syncKey (.bool true) else newObj

namespace Deletion

def indexKeys (deletion : Deletion κ) (store : ObjectStore) : SortedSet κ :=
  SortedSet.ofList
    (store.objDb.entries.flatMap fun entry => deletion.index.keysOf entry.1 entry.2)

def delObj (deletion : Deletion κ) (id : MojString) (obj : MojObject) (store : ObjectStore) :
    Except MojErr ObjectStore :=
  if deletion.purge then do
    deletion.update none obj
    .ok { store with objDb := store.objDb.del id }
  else
    let newObj := markDeleted deletion.backup (store.rev + 1) obj
    if newObj = obj then .ok store
    else do
      deletion.update (some newObj) obj
      .ok ⟨store.objDb.put id newObj, store.rev + 1⟩

/-- `get` of the cursor: keys without an object are passed over. -/
def get (deletion : Deletion κ) (opened : SortedSet κ) (last : Option κ) (store : ObjectStore) :
    Option (κ × MojObject) :=
  (deletion.cursor.ahead opened (deletion.indexKeys store) last).findSome? fun key =>
    (store.objDb.find (deletion.index.idOf key)).map fun obj => (key, obj)

/-- The loop of a round, with the number of objects the limit still lets through. -/
def sweepFrom (deletion : Deletion κ) (opened : SortedSet κ) :
    Nat → Option κ → ObjectStore → ObjectStore × Except MojErr Nat
  | 0, _, store => (store, .ok 0)
  | room + 1, last, store =>
    match deletion.get opened last store with
    | none => (store, .ok 0)
    | some (key, obj) =>
      match deletion.delObj (deletion.index.idOf key) obj store with
      | .error err => (store, .error err)
      | .ok store =>
        let later := deletion.sweepFrom opened room (some key) store
        (later.1, later.2.map (· + 1))

def sweep (deletion : Deletion κ) : Sweep ObjectStore := fun limit store =>
  match deletion.find with
  | .error err => (store, .error err)
  | .ok () =>
    let swept := deletion.sweepFrom (deletion.indexKeys store) limit none store
    (swept.1, swept.2.map fun count => ⟨count, count⟩)

def finds (deletion : Deletion κ) (id : MojString) (obj : MojObject) : Bool :=
  !(deletion.index.keysOf id obj).isEmpty

def matching (deletion : Deletion κ) (store : ObjectStore) : List MojString :=
  (store.objDb.entries.filter fun entry => deletion.finds entry.1 entry.2).map Prod.fst

variable (deletion : Deletion κ)

theorem mem_indexKeys (store : ObjectStore) (key : κ) :
    key ∈ deletion.indexKeys store ↔
      ∃ obj, store.objDb.find (deletion.index.idOf key) = some obj ∧
        key ∈ deletion.index.keysOf (deletion.index.idOf key) obj := by
  unfold indexKeys
  rw [SortedSet.mem_ofList, List.mem_flatMap]
  constructor
  · intro present
    rcases present with ⟨entry, stored, member⟩
    rw [deletion.index.owns entry.1 entry.2 key member]
    exact ⟨entry.2, (store.objDb.find_eq_some_iff entry.1 entry.2).mpr stored, member⟩
  · intro present
    rcases present with ⟨obj, found, member⟩
    exact ⟨_, (store.objDb.find_eq_some_iff _ obj).mp found, member⟩

theorem finds_iff (id : MojString) (obj : MojObject) :
    deletion.finds id obj = true ↔ ∃ key, key ∈ deletion.index.keysOf id obj := by
  unfold finds
  rw [Bool.not_eq_true', List.isEmpty_eq_false_iff_exists_mem]

theorem mem_matching (store : ObjectStore) (id : MojString) :
    id ∈ deletion.matching store ↔
      ∃ obj, store.objDb.find id = some obj ∧ deletion.finds id obj = true := by
  unfold matching
  rw [List.mem_map]
  constructor
  · intro present
    rcases present with ⟨entry, member, named⟩
    rcases List.mem_filter.mp member with ⟨stored, found⟩
    rw [← named]
    exact ⟨entry.2, (store.objDb.find_eq_some_iff entry.1 entry.2).mpr stored, found⟩
  · intro present
    rcases present with ⟨obj, stored, found⟩
    exact ⟨(id, obj), List.mem_filter.mpr ⟨(store.objDb.find_eq_some_iff id obj).mp stored, found⟩,
      rfl⟩

theorem matching_nodup (store : ObjectStore) : (deletion.matching store).Nodup :=
  store.objDb.keys_nodup.sublist (List.filter_sublist.map Prod.fst)

end Deletion

end MojDb

end Db8.Db
