import Db8.Bytes.Cursor
import Db8.Core.ObjectReader
import Db8.Db.QueryPlan

/-!
# Running a query plan

`MojDbIsamQuery` over an index: the loop over the plan's ranges on top of a storage cursor
(`MojDbSandwichQuery` and `MojDbLevelQuery` differ in how they seek), the lookup of the object an
index key leads to, suppression of duplicates and counting. What the loop over the ranges moves is
kept apart as a position, so that the rest of a query is unchanged by it. A query reads one
transaction's view, so the store is a constant here.
-/

set_option autoImplicit false

namespace Db8.Db

open Db8.Bytes
open Db8.Core

/-- An item of the object database: its header's kind and the object it reads back as. -/
structure MojDbStorageItem where
  kindId : MojString
  obj : MojObject
deriving DecidableEq

inductive StorageEngine where
  | sandwich
  | level
deriving DecidableEq

/-- What a query over an index reads: the index's keys, and the object database it joins. -/
structure MojDbIndexStore where
  engine : StorageEngine
  keys : SortedSet MojDbKey
  joinDb : MojObject → Option MojDbStorageItem

namespace MojDbIsamQuery

inductive State where
  | seek
  | next
deriving DecidableEq

/-- The range the query is in and those behind it, and the cursor with the last key it read. -/
structure Position where
  iter : List MojDbKeyRange
  state : State
  cursor : Cursor
  keyData : MojDbKey
deriving DecidableEq

namespace Position

def entryKey (desc : Bool) (range : MojDbKeyRange) : MojDbKey :=
  if desc then range.upperKey else range.lowerKey

def exitKey (desc : Bool) (range : MojDbKeyRange) : MojDbKey :=
  if desc then range.lowerKey else range.upperKey

/-- `match`: compare against the lower key when descending, the upper one otherwise. -/
def inRange (desc : Bool) (range : MojDbKeyRange) (keyData : MojDbKey) : Bool :=
  if exitKey desc range = [] then true
  else decide (exitKey desc range ≤ keyData) == desc

/-- What a failed read leaves in the key is not looked at again. -/
def readEntry (store : MojDbIndexStore) (pos : Position) : Position × Bool :=
  match pos.cursor.key store.keys.elems with
  | some key => ({ pos with keyData := key }, true)
  | none => (pos, false)

def next (store : MojDbIndexStore) (desc : Bool) (pos : Position) : Position × Bool :=
  readEntry store { pos with cursor := pos.cursor.step desc store.keys.elems }

/-- The seeks of both engines; past the last key a LevelDB cursor steps back to it by itself. -/
def seekImpl (store : MojDbIndexStore) (key : MojDbKey) (desc : Bool) (pos : Position) :
    Position × Bool :=
  let keys := store.keys.elems
  if key = [] then
    readEntry store
      { pos with cursor := if desc then Cursor.seekToLast keys else Cursor.seekToFirst keys }
  else
    let found := { pos with cursor := Cursor.seek keys key }
    if desc then
      match store.engine with
      | .sandwich =>
        if (found.cursor.key keys).isSome then next store desc found
        else readEntry store { found with cursor := Cursor.seekToLast keys }
      | .level => next store desc (readEntry store found).1
    else readEntry store found

/-- When the last key read lies behind the entry bound already, the position is kept. -/
def seek (store : MojDbIndexStore) (desc : Bool) (range : MojDbKeyRange) (pos : Position) :
    Position × Bool :=
  let key := entryKey desc range
  let pos := { pos with state := .next }
  if pos.keyData ≠ [] ∧ decide (pos.keyData < key) = desc then (pos, true)
  else seekImpl store key desc pos

def advance (store : MojDbIndexStore) (desc : Bool) (range : MojDbKeyRange) (pos : Position) :
    Position × Bool :=
  match pos.state with
  | .seek => seek store desc range pos
  | .next => next store desc pos

/-- The loop of `getKey` over the ranges from the current one on. -/
def getKey (store : MojDbIndexStore) (desc : Bool) :
    List MojDbKeyRange → Position → Position × Option Nat
  | [], pos => (pos, none)
  | range :: later, pos =>
    match advance store desc range pos with
    | (pos, false) => ({ pos with iter := [] }, none)
    | (pos, true) =>
      if inRange desc range pos.keyData then (pos, some range.group)
      else getKey store desc later { pos with state := .seek, iter := later }

end Position

end MojDbIsamQuery

structure MojDbIsamQuery extends MojDbIsamQuery.Position where
  plan : MojDbQueryPlan
  count : MojUInt32
  endKey : MojDbKey
  distinct : MojString
  lastItem : Option MojObject
  excludeKinds : List MojString
  verify : Bool

namespace MojDbIsamQuery

def openQuery (plan : MojDbQueryPlan) (excludeKinds : List MojString) : MojDbIsamQuery where
  iter := plan.ranges
  state := .seek
  cursor := .front
  keyData := []
  plan := plan
  count := 0
  endKey := []
  distinct := plan.query.distinct
  lastItem := none
  excludeKinds := excludeKinds
  verify := false

def limitEnforced (query : MojDbIsamQuery) : Bool := decide (query.plan.query.limit ≤ query.count)

/-- Neither the count nor the limit changes in the loop, so its check is made once. -/
def getKey (store : MojDbIndexStore) (query : MojDbIsamQuery) : MojDbIsamQuery × Option Nat :=
  if query.limitEnforced then (query, none)
  else
    let result := Position.getKey store query.plan.query.desc query.iter query.toPosition
    ({ query with toPosition := result.1 }, result.2)

/-- The id in an index key, past the values in front of it. -/
def parseId (idIndex : Nat) (keyData : MojDbKey) : Except MojErr (Option MojObject) := do
  let reader ← MojObjectReader.skipObjects idIndex ⟨keyData, []⟩
  let (_, calls) ← reader.nextObject
  let builder ← calls.foldlM MojObjectBuilder.visit MojObjectBuilder.empty
  .ok builder.obj

def saveEndKey (query : MojDbIsamQuery) : MojDbIsamQuery :=
  { query with
    endKey := if query.plan.query.desc then query.keyData else MojDbKey.increment query.keyData }

def incrementCount (query : MojDbIsamQuery) : MojDbIsamQuery :=
  let counted := { query with count := query.count + 1 }
  if counted.limitEnforced then counted.saveEndKey else counted

theorem incrementCount_eq (query : MojDbIsamQuery) :
    query.incrementCount = { query with
      count := query.count + 1
      endKey := query.incrementCount.endKey } := by
  unfold incrementCount saveEndKey
  dsimp only
  split_ifs <;> rfl

@[simp] theorem incrementCount_toPosition (query : MojDbIsamQuery) :
    query.incrementCount.toPosition = query.toPosition := by
  rw [incrementCount_eq]

@[simp] theorem incrementCount_plan (query : MojDbIsamQuery) :
    query.incrementCount.plan = query.plan := by
  rw [incrementCount_eq]

@[simp] theorem incrementCount_count (query : MojDbIsamQuery) :
    query.incrementCount.count = query.count + 1 := by
  rw [incrementCount_eq]

@[simp] theorem incrementCount_distinct (query : MojDbIsamQuery) :
    query.incrementCount.distinct = query.distinct := by
  rw [incrementCount_eq]

@[simp] theorem incrementCount_lastItem (query : MojDbIsamQuery) :
    query.incrementCount.lastItem = query.lastItem := by
  rw [incrementCount_eq]

@[simp] theorem incrementCount_excludeKinds (query : MojDbIsamQuery) :
    query.incrementCount.excludeKinds = query.excludeKinds := by
  rw [incrementCount_eq]

@[simp] theorem incrementCount_verify (query : MojDbIsamQuery) :
    query.incrementCount.verify = query.verify := by
  rw [incrementCount_eq]

/-- The item found for an index key, or nothing when its kind is excluded. -/
def getById (store : MojDbIndexStore) (excludeKinds : List MojString) (id : MojObject) :
    Except MojErr (Option MojDbStorageItem) :=
  match store.joinDb id with
  | none => .error .internalIndexOnFind
  | some item => .ok (if item.kindId ∈ excludeKinds then none else some item)

/-- `getVal`; an undefined id is looked up as null, which is what is written for it. -/
def getVal (store : MojDbIndexStore) (excludeKinds : List MojString) (idIndex : Nat)
    (keyData : MojDbKey) : Except MojErr (Option MojDbStorageItem) := do
  let id ← parseId idIndex keyData
  getById store excludeKinds (id.getD .null)

def getRequired (obj : MojObject) (key : MojString) : Except MojErr MojObject :=
  match obj.get key with
  | none => .error (.requiredPropNotFound (MojObjectWriter.charBytes key))
  | some val => .ok val

/-- Whether an item repeats the one kept last; if it does not, it is kept itself. -/
def isDistincted (query : MojDbIsamQuery) (obj : MojObject) :
    Except MojErr (MojDbIsamQuery × Bool) := do
  let dest ← getRequired obj query.distinct
  match query.lastItem with
  | none => .ok ({ query with lastItem := some obj }, false)
  | some last => do
    let kept ← getRequired last query.distinct
    if kept = dest then .ok (query, true)
    else .ok ({ query with lastItem := some obj }, false)

/-- What `getImpl` does once a key and its item are found: an excluded item is counted, a duplicate
is not. -/
def receive (query : MojDbIsamQuery) :
    Option MojDbStorageItem →
      MojDbIsamQuery × Except MojErr (Option MojDbStorageItem × Bool)
  | none => (query.incrementCount, .ok (none, true))
  | some item =>
    if query.distinct = [] then (query.incrementCount, .ok (some item, true))
    else
      match query.isDistincted item.obj with
      | .error err => (query, .error err)
      | .ok (query, true) => (query, .ok (none, true))
      | .ok (query, false) => (query.incrementCount, .ok (some item, true))

def getImpl (store : MojDbIndexStore) (query : MojDbIsamQuery) :
    MojDbIsamQuery × Except MojErr (Option MojDbStorageItem × Bool) :=
  match getKey store query with
  | (query, none) => (query, .ok (none, false))
  | (query, some _) =>
    match getVal store query.excludeKinds query.plan.idIndex query.keyData with
    | .error err => (query, .error err)
    | .ok item => query.receive item

/-- More calls than any run over the ranges left can find keys in. -/
def callBound (store : MojDbIndexStore) (query : MojDbIsamQuery) : Nat :=
  query.iter.length * (store.keys.elems.length + 1) + 1

/-- The loop of `get` until there is an item or nothing is found any more. -/
def getLoop (store : MojDbIndexStore) : Nat → MojDbIsamQuery →
    MojDbIsamQuery × Except MojErr (Option MojDbStorageItem)
  | 0, query => (query, .error (.assertFailed "the ranges hold finitely many keys"))
  | calls + 1, query =>
    match getImpl store query with
    | (query, .error err) =>
      if err = .internalIndexOnFind ∧ query.verify = false then getLoop store calls query
      else (query, .error err)
    | (query, .ok (none, true)) => getLoop store calls query
    | (query, .ok (item, _)) => (query, .ok item)

def get (store : MojDbIndexStore) (query : MojDbIsamQuery) :
    MojDbIsamQuery × Except MojErr (Option MojDbStorageItem) :=
  getLoop store (callBound store query) query

def getId (store : MojDbIndexStore) (query : MojDbIsamQuery) :
    MojDbIsamQuery × Except MojErr (Option (Option MojObject × Nat)) :=
  match getKey store query with
  | (query, none) => (query, .ok none)
  | (query, some group) =>
    match parseId query.plan.idIndex query.keyData with
    | .error err => (query, .error err)
    | .ok id => (query, .ok (some (id, group)))

def countLoop (store : MojDbIndexStore) : Nat → MojDbIsamQuery →
    MojDbIsamQuery × Except MojErr MojUInt32
  | 0, query => (query, .error (.assertFailed "the ranges hold finitely many keys"))
  | calls + 1, query =>
    match getImpl store query with
    | (query, .error err) =>
      if err = .internalIndexOnFind then countLoop store calls query else (query, .error err)
    | (query, .ok (_, true)) => countLoop store calls query
    | (query, .ok (_, false)) => (query, .ok query.count)

def setLimit (query : MojDbIsamQuery) (limit : MojUInt32) : MojDbIsamQuery :=
  { query with plan := { query.plan with query := { query.plan.query with limit := limit } } }

def countAll (store : MojDbIndexStore) (query : MojDbIsamQuery) :
    MojDbIsamQuery × Except MojErr MojUInt32 :=
  countLoop store (callBound store query) (query.setLimit MojDbQuery.limitDefault)

/-- The key of the next page; an empty one means there is none. -/
def nextPage (query : MojDbIsamQuery) : MojDbKey :=
  if query.limitEnforced then query.endKey else []

end MojDbIsamQuery

end Db8.Db
