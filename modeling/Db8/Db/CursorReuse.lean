import Db8.Db.SearchIds
import Db8.Db.SearchLoad

/-!
# Using a cursor again

`MojDbCursor` and `MojDbSearchCursor` from one `find` to the next. What `close` leaves in a cursor is
its filter, and in a search cursor also the page after the last results; `init` sets them only from a
query that has its own. A plain cursor takes no query with a filter. A search cursor goes on with the
filter and the page of the query before.
-/

set_option autoImplicit false

namespace Db8.Db.CursorReuse

open Db8.Bytes
open Db8.Core
open MojDbSearchCursor (Search Loaded loadObjects arrange setPage initQuery)

structure FindQuery where
  query : MojDbQuery
  select : SortedSet MojString

/-- What a cursor asks the database for: the collation of an order, the storage query and the locale
of the index that answers a query, and what the storage query does. -/
structure Engine (σ : Type) where
  retrieveCollation : MojDbQuery → Except MojErr MojDbCollationStrength
  find : MojDbQuery → Except MojErr (σ × MojDbLocale)
  get : Bool → σ → σ × Except MojErr (Option MojObject)
  count : σ → σ × Except MojErr Nat
  nextPage : σ → σ × Except MojErr MojDbKey
  loadIds : σ → σ × Except MojErr (List MojObject)
  getById : MojObject → Option MojObject
  visit : Option (SortedSet MojString) → MojObject → Except MojErr MojObject
  strstr : MojDbQueryFilter.Strstr
  rand : Nat → Nat

structure Req where
  txn : Option Nat
  batch : Bool
  localTxn : Nat
  watcher : Option Nat

inductive Call where
  | get
  | count
  | nextPage

inductive Report where
  | item (item : Option MojObject)
  | count (count : Nat)
  | page (page : MojDbKey)
  | failed (err : MojErr)

section Plain

variable {σ : Type}

structure MojDbCursor (σ : Type) where
  ownTxn : Bool
  lastErr : Option MojErr
  kindEngine : Bool
  query : MojDbQuery
  txn : Option Nat
  storageQuery : Option σ
  objectFilter : Option (SortedSet MojString)
  queryFilter : Option MojDbQueryFilter
  watcher : Option Nat
  dbIndex : Option MojDbLocale
  vmode : Bool

namespace MojDbCursor

def new (vmode : Bool) : MojDbCursor σ where
  ownTxn := true
  lastErr := none
  kindEngine := false
  query := MojDbQuery.init []
  txn := none
  storageQuery := none
  objectFilter := none
  queryFilter := none
  watcher := none
  dbIndex := none
  vmode := vmode

/-- `close`: the storage query is closed and the transaction ended, then these are reset. -/
def close (cursor : MojDbCursor σ) : MojDbCursor σ :=
  { cursor with
    lastErr := none
    storageQuery := none
    txn := none
    objectFilter := none
    watcher := none
    query := MojDbQuery.init []
    dbIndex := none }

def accumulate (cursor : MojDbCursor σ) (err : MojErr) : MojDbCursor σ :=
  { cursor with lastErr := some err }

def initImpl (cursor : MojDbCursor σ) (find : FindQuery) : MojDbCursor σ :=
  { cursor with
    objectFilter := if find.select.elems = [] then cursor.objectFilter else some find.select
    queryFilter :=
      if find.query.filterClauses.entries = [] then cursor.queryFilter
      else some (MojDbQueryFilter.init find.query)
    query := find.query }

/-- `MojDbKind::find` and `MojDbIndex::find`: the cursor gets the transaction of the request, or one
of its own, and the storage query. -/
def opened (engine : Engine σ) (req : Req) (cursor : MojDbCursor σ) :
    Except MojErr (MojDbCursor σ) := do
  let found ← engine.find cursor.query
  .ok { cursor with
    txn := some (cursor.txn.getD (req.txn.getD req.localTxn))
    ownTxn := if cursor.txn.isSome then cursor.ownTxn else !(req.batch || req.txn.isSome)
    storageQuery := some found.1
    watcher := req.watcher
    dbIndex := some found.2
    kindEngine := true }

/-- `MojDbKindEngine::find` with a cursor whose `init` this is. -/
def find (engine : Engine σ) (req : Req) (find : FindQuery) (cursor : MojDbCursor σ) :
    Except MojErr (MojDbCursor σ) := do
  find.query.validate
  find.query.validateFind
  opened engine req ({ cursor with kindEngine := true }.initImpl find)

def visitObject (engine : Engine σ) (cursor : MojDbCursor σ) :
    Option MojObject → MojDbCursor σ × Report
  | none => (cursor, .item none)
  | some item =>
    match engine.visit cursor.objectFilter item with
    | .error err => (cursor.accumulate err, .failed err)
    | .ok obj => (cursor, .item (some obj))

def call (engine : Engine σ) (cursor : MojDbCursor σ) : Call → MojDbCursor σ × Report
  | ask =>
    match cursor.storageQuery with
    | none => (cursor, .failed .notOpen)
    | some storage =>
      match ask with
      | .get =>
        let got := engine.get cursor.vmode storage
        let after := { cursor with storageQuery := some got.1 }
        match got.2 with
        | .error err => (after.accumulate err, .failed err)
        | .ok item => visitObject engine after item
      | .count =>
        let got := engine.count storage
        let after := { cursor with storageQuery := some got.1 }
        match got.2 with
        | .error err => (after.accumulate err, .failed err)
        | .ok count => (after, .count count)
      | .nextPage =>
        let got := engine.nextPage storage
        let after := { cursor with storageQuery := some got.1 }
        match got.2 with
        | .error err => (after.accumulate err, .failed err)
        | .ok page => (after, .page page)

def calls (engine : Engine σ) : List Call → MojDbCursor σ → List Report
  | [], _ => []
  | ask :: rest, cursor =>
    let called := cursor.call engine ask
    called.2 :: calls engine rest called.1

def answers (engine : Engine σ) (req : Req) (query : FindQuery) (asks : List Call)
    (cursor : MojDbCursor σ) : Except MojErr (List Report) :=
  (cursor.find engine req query).map (calls engine asks)

end MojDbCursor

end Plain

section Searching

variable {σ : Type}

/-- A `MojDbSearchCursor`; `pos` has the items from `m_pos` to `m_limitPos`, once they are loaded.
An empty vector without memory begins at null, so that an empty result is loaded again; the storage
query is at its end by then. -/
structure SearchCursor (σ : Type) where
  base : MojDbCursor σ
  orderProp : MojString
  distinct : MojString
  limit : MojUInt32
  pos : Option (List MojObject)
  locale : MojDbLocale
  collation : MojDbCollationStrength
  page : MojDbKey
  count : Nat

namespace SearchCursor

def new (vmode : Bool) (locale : MojDbLocale) : SearchCursor σ where
  base := MojDbCursor.new vmode
  orderProp := []
  distinct := []
  limit := 0
  pos := none
  locale := locale
  collation := .invalid
  page := []
  count := 0

def close (cursor : SearchCursor σ) : SearchCursor σ :=
  { cursor with base := cursor.base.close, limit := 0, pos := none }

/-- `init` after `retrieveCollation`: limit and order are taken out of the query, and the page. -/
def init (find : FindQuery) (collation : MojDbCollationStrength) (cursor : SearchCursor σ) :
    SearchCursor σ :=
  { cursor with
    base := { cursor.base.initImpl find with query := initQuery find.query }
    collation := collation
    limit := find.query.limit
    distinct := find.query.distinct
    orderProp := if find.query.distinct = [] then find.query.order else find.query.distinct
    page :=
      if find.query.page = [] then cursor.page
      else setPage cursor.locale cursor.page (MojDbQuery.Page.toObject find.query.page) }

def find (engine : Engine σ) (req : Req) (find : FindQuery) (cursor : SearchCursor σ) :
    Except MojErr (SearchCursor σ) := do
  find.query.validate
  let collation ← engine.retrieveCollation find.query
  let started := { cursor with base := { cursor.base with kindEngine := true } }.init find collation
  let base ← started.base.opened engine req
  .ok { started with base := base }

/-- What `load` works with. -/
def search (cursor : SearchCursor σ) : Search where
  filter := cursor.base.queryFilter
  orderProp := cursor.orderProp
  distinct := cursor.distinct
  limit := cursor.limit
  desc := cursor.base.query.desc
  collation := cursor.collation
  locale := cursor.base.dbIndex.getD cursor.locale

/-- `load` behind the ids; it fails only in an assertion. -/
def load (engine : Engine σ) (cursor : SearchCursor σ) (ids : List MojObject) :
    Except MojErr Loaded :=
  MojDbSearchCursor.load cursor.search engine.strstr engine.rand engine.getById ids cursor.page

def loading (engine : Engine σ) (storage : σ) (cursor : SearchCursor σ) : SearchCursor σ :=
  { cursor with base := { cursor.base with storageQuery := some (engine.loadIds storage).1 } }

def fill (loaded : Loaded) (cursor : SearchCursor σ) : SearchCursor σ :=
  { cursor with pos := some loaded.delivered, count := loaded.count, page := loaded.page }

/-- `begin`: the results are loaded, unless they are. Nothing happens behind an assertion. -/
def begin_ (engine : Engine σ) (storage : σ) (cursor : SearchCursor σ) :
    SearchCursor σ × Option MojErr :=
  if cursor.pos.isSome then (cursor, none)
  else
    match (engine.loadIds storage).2 with
    | .error err => (cursor.loading engine storage, some err)
    | .ok ids =>
      match cursor.load engine ids with
      | .error err => (cursor, some err)
      | .ok loaded => ((cursor.loading engine storage).fill loaded, none)

/-- The next item goes through `visitObject` of the plain cursor. -/
def get (engine : Engine σ) (storage : σ) (cursor : SearchCursor σ) : SearchCursor σ × Report :=
  let begun := cursor.begin_ engine storage
  match begun.2 with
  | some err => ({ begun.1 with base := begun.1.base.accumulate err }, .failed err)
  | none =>
    match begun.1.pos with
    | some (item :: rest) =>
      let visited := begun.1.base.visitObject engine (some item)
      ({ begun.1 with base := visited.1, pos := some rest }, visited.2)
    | _ => (begun.1, .item none)

def count_ (engine : Engine σ) (storage : σ) (cursor : SearchCursor σ) : SearchCursor σ × Report :=
  let begun := cursor.begin_ engine storage
  match begun.2 with
  | some err => (begun.1, .failed err)
  | none => (begun.1, .count begun.1.count)

def call (engine : Engine σ) (cursor : SearchCursor σ) : Call → SearchCursor σ × Report
  | .get =>
    match cursor.base.storageQuery with
    | none => (cursor, .failed .notOpen)
    | some storage => cursor.get engine storage
  | .count =>
    match cursor.base.storageQuery with
    | none => (cursor, .failed .notOpen)
    | some storage => cursor.count_ engine storage
  | .nextPage => (cursor, .page cursor.page)

def calls (engine : Engine σ) : List Call → SearchCursor σ → List Report
  | [], _ => []
  | ask :: rest, cursor =>
    let called := cursor.call engine ask
    called.2 :: calls engine rest called.1

def answers (engine : Engine σ) (req : Req) (query : FindQuery) (asks : List Call)
    (cursor : SearchCursor σ) : Except MojErr (List Report) :=
  (cursor.find engine req query).map (calls engine asks)

end SearchCursor

end Searching

section PlainReuse

variable {σ : Type}

namespace MojDbCursor

def left (cursor : MojDbCursor σ) (filter : Option MojDbQueryFilter) : MojDbCursor σ :=
  { cursor with queryFilter := filter }

variable (engine : Engine σ)

theorem visitObject_left (cursor : MojDbCursor σ) (filter : Option MojDbQueryFilter)
    (item : Option MojObject) :
    (cursor.left filter).visitObject engine item =
      ((cursor.visitObject engine item).1.left filter, (cursor.visitObject engine item).2) := by
  cases item with
  | none => rfl
  | some item =>
    cases visited : engine.visit cursor.objectFilter item with
    | error err => simp only [visitObject, left, visited, accumulate]
    | ok obj => simp only [visitObject, left, visited]

theorem visitObject_queryFilter (cursor : MojDbCursor σ) (item : Option MojObject) :
    (cursor.visitObject engine item).1.queryFilter = cursor.queryFilter := by
  cases item with
  | none => rfl
  | some item =>
    rw [visitObject]
    cases engine.visit cursor.objectFilter item <;> rfl

theorem call_left (cursor : MojDbCursor σ) (filter : Option MojDbQueryFilter) (ask : Call) :
    (cursor.left filter).call engine ask =
      ((cursor.call engine ask).1.left filter, (cursor.call engine ask).2) := by
  cases opened : cursor.storageQuery with
  | none => simp only [call, left, opened]
  | some storage =>
    cases ask with
    | get =>
      cases got : (engine.get cursor.vmode storage).2 with
      | error err => simp only [call, left, opened, got, accumulate]
      | ok item =>
        simp only [call, left, opened, got]
        exact visitObject_left engine
          { cursor with storageQuery := some (engine.get cursor.vmode storage).1 } filter item
    | count =>
      cases got : (engine.count storage).2 with
      | error err => simp only [call, left, opened, got, accumulate]
      | ok count => simp only [call, left, opened, got]
    | nextPage =>
      cases got : (engine.nextPage storage).2 with
      | error err => simp only [call, left, opened, got, accumulate]
      | ok page => simp only [call, left, opened, got]

theorem calls_left (cursor : MojDbCursor σ) (filter : Option MojDbQueryFilter)
    (asks : List Call) : calls engine asks (cursor.left filter) = calls engine asks cursor := by
  induction asks generalizing cursor with
  | nil => rfl
  | cons ask rest ih => rw [calls, calls, call_left, ih]

theorem find_close (req : Req) (query : FindQuery) (used : MojDbCursor σ) :
    used.close.find engine req query =
      ((new used.vmode).find engine req query).map fun cursor =>
        cursor.left (({ used with kindEngine := true }.initImpl query).queryFilter) := by
  unfold find
  cases query.query.validate with
  | error err => rfl
  | ok _ =>
    cases query.query.validateFind with
    | error err => rfl
    | ok _ =>
      change opened _ _ _ = (opened _ _ _).map _
      cases found : engine.find query.query with
      | error err => simp only [opened, initImpl, found, bind, Except.bind, Except.map]
      | ok found =>
        simp only [opened, initImpl, found, bind, Except.bind, Except.map, close, new, left]
        rfl

theorem answers_close (req : Req) (query : FindQuery) (asks : List Call) (used : MojDbCursor σ) :
    used.close.answers engine req query asks = (new used.vmode).answers engine req query asks := by
  unfold answers
  rw [find_close]
  cases (new used.vmode).find engine req query with
  | error err => rfl
  | ok cursor => exact congrArg Except.ok (calls_left engine cursor _ asks)

end MojDbCursor

end PlainReuse

section SearchReuse

variable {σ : Type}

/-- An object a search comes upon: the ids are loaded once, and again after a failure. -/
inductive Finds (engine : Engine σ) : σ → MojObject → Prop where
  | now {storage : σ} {ids : List MojObject} {id obj : MojObject}
      (loaded : (engine.loadIds storage).2 = .ok ids) (member : id ∈ ids)
      (got : engine.getById id = some obj) : Finds engine storage obj
  | later {storage : σ} {err : MojErr} {obj : MojObject}
      (failed : (engine.loadIds storage).2 = .error err)
      (finds : Finds engine (engine.loadIds storage).1 obj) : Finds engine storage obj

/-- Filters that take the same of the objects found make no difference to what is loaded. -/
theorem load_filter (search : Search) (filter : Option MojDbQueryFilter)
    (strstr : MojDbQueryFilter.Strstr) (rand : Nat → Nat) (getById : MojObject → Option MojObject)
    (ids : List MojObject) (page : MojDbKey)
    (same : ∀ id ∈ ids, ∀ obj, getById id = some obj →
      (filter.all fun filter => filter.test strstr obj) =
        search.filter.all fun filter => filter.test strstr obj) :
    MojDbSearchCursor.load { search with filter := filter } strstr rand getById ids page =
      MojDbSearchCursor.load search strstr rand getById ids page := by
  have objects : loadObjects ({ search with filter := filter }.arrangement strstr rand) getById ids =
      loadObjects (search.arrangement strstr rand) getById ids := by
    unfold loadObjects
    apply List.filter_congr
    intro obj member
    rcases List.mem_filterMap.mp member with ⟨id, inIds, got⟩
    exact same id inIds obj got
  have arranged : arrange ({ search with filter := filter }.arrangement strstr rand) getById ids =
      arrange (search.arrangement strstr rand) getById ids := by
    unfold arrange
    rw [objects]
    rfl
  unfold MojDbSearchCursor.load
  rw [objects, arranged]
  rfl

namespace SearchCursor

/-- The cursor with another filter and another count left in it. -/
def left (cursor : SearchCursor σ) (filter : Option MojDbQueryFilter) (count : Nat) :
    SearchCursor σ :=
  { cursor with base := cursor.base.left filter, count := count }

/-- What is left makes no difference: the filter takes all there is to be found if it is not the one
of the query, and a count that has been taken is the right one. -/
structure Harmless (engine : Engine σ) (cursor : SearchCursor σ)
    (filter : Option MojDbQueryFilter) (count : Nat) : Prop where
  counted : cursor.pos.isSome → count = cursor.count
  passes : filter = cursor.base.queryFilter ∨ cursor.base.queryFilter = none ∧
    (cursor.pos = none → ∀ given, filter = some given →
      ∀ storage, cursor.base.storageQuery = some storage →
        ∀ obj, Finds engine storage obj → given.test engine.strstr obj = true)

variable {engine : Engine σ} {cursor : SearchCursor σ} {filter : Option MojDbQueryFilter}
  {count : Nat}

variable {storage : σ}

theorem load_left {ids : List MojObject} (harmless : cursor.Harmless engine filter count)
    (opened : cursor.base.storageQuery = some storage) (unloaded : cursor.pos = none)
    (got : (engine.loadIds storage).2 = .ok ids) :
    (cursor.left filter count).load engine ids = cursor.load engine ids := by
  apply load_filter cursor.search filter
  intro id member obj found
  change _ = cursor.base.queryFilter.all _
  rcases harmless.passes with sameFilter | ⟨unfiltered, passes⟩
  · rw [sameFilter]
  · rw [unfiltered, Option.all_none]
    cases isFilter : filter with
    | none => rfl
    | some given =>
      exact passes unloaded given isFilter storage opened obj (Finds.now got member found)

theorem harmless_loading {err : MojErr} (harmless : cursor.Harmless engine filter count)
    (opened : cursor.base.storageQuery = some storage) (unloaded : cursor.pos = none)
    (failed : (engine.loadIds storage).2 = .error err) :
    (cursor.loading engine storage).Harmless engine filter count := by
  refine ⟨harmless.counted, ?_⟩
  apply harmless.passes.imp_right
  rintro ⟨unfiltered, passes⟩
  refine ⟨unfiltered, ?_⟩
  intro _ given isFilter nextStorage next obj finds
  cases next
  exact passes unloaded given isFilter storage opened obj (Finds.later failed finds)

theorem harmless_fill (harmless : cursor.Harmless engine filter count) (storage : σ)
    (loaded : Loaded) :
    ((cursor.loading engine storage).fill loaded).Harmless engine filter loaded.count := by
  refine ⟨fun _ => rfl, ?_⟩
  apply harmless.passes.imp_right
  rintro ⟨unfiltered, -⟩
  exact ⟨unfiltered, fun unloaded => by cases unloaded⟩

theorem begin_left (harmless : cursor.Harmless engine filter count)
    (opened : cursor.base.storageQuery = some storage) :
    ∃ after, (cursor.left filter count).begin_ engine storage =
        ((cursor.begin_ engine storage).1.left filter after, (cursor.begin_ engine storage).2) ∧
      (cursor.begin_ engine storage).1.Harmless engine filter after := by
  have samePos : (cursor.left filter count).pos = cursor.pos := rfl
  unfold begin_
  rw [samePos]
  by_cases there : cursor.pos.isSome
  · rw [if_pos there, if_pos there]
    exact ⟨count, rfl, harmless⟩
  · have unloaded := Option.not_isSome_iff_eq_none.mp there
    rw [if_neg there, if_neg there]
    cases got : (engine.loadIds storage).2 with
    | error err => exact ⟨count, rfl, harmless_loading harmless opened unloaded got⟩
    | ok ids =>
      dsimp only
      rw [load_left harmless opened unloaded got]
      cases cursor.load engine ids with
      | error err => exact ⟨count, rfl, harmless⟩
      | ok loaded => exact ⟨loaded.count, rfl, harmless_fill harmless storage loaded⟩

theorem harmless_visited (harmless : cursor.Harmless engine filter count) {item : MojObject}
    {rest : List MojObject} (there : cursor.pos = some (item :: rest)) :
    ({ cursor with
        base := (cursor.base.visitObject engine (some item)).1
        pos := some rest } : SearchCursor σ).Harmless engine filter count := by
  refine ⟨fun _ => harmless.counted (by rw [there]; rfl), ?_⟩
  rw [MojDbCursor.visitObject_queryFilter]
  apply harmless.passes.imp_right
  rintro ⟨unfiltered, -⟩
  exact ⟨unfiltered, fun unloaded => by cases unloaded⟩

theorem get_left (harmless : cursor.Harmless engine filter count)
    (opened : cursor.base.storageQuery = some storage) :
    ∃ after, (cursor.left filter count).get engine storage =
        ((cursor.get engine storage).1.left filter after, (cursor.get engine storage).2) ∧
      (cursor.get engine storage).1.Harmless engine filter after := by
  rcases begin_left harmless opened with ⟨after, begun, stays⟩
  refine ⟨after, ?_⟩
  unfold get
  rw [begun]
  rcases began : cursor.begin_ engine storage with ⟨started, failed⟩
  rw [began] at stays
  cases failed with
  | some err => exact ⟨rfl, stays.counted, stays.passes⟩
  | none =>
    have samePos : (started.left filter after).pos = started.pos := rfl
    dsimp only
    rw [samePos]
    cases there : started.pos with
    | none => exact ⟨rfl, stays⟩
    | some items =>
      cases items with
      | nil => exact ⟨rfl, stays⟩
      | cons item rest =>
        dsimp only
        refine ⟨?_, harmless_visited stays there⟩
        have visited := started.base.visitObject_left engine filter (some item)
        simp only [left, visited]

theorem begin_loads {storage : σ} (begun : (cursor.begin_ engine storage).2 = none) :
    (cursor.begin_ engine storage).1.pos.isSome := by
  unfold begin_ at begun ⊢
  split_ifs at begun ⊢ with there
  · exact there
  · cases got : (engine.loadIds storage).2 with
    | error err =>
      rw [got] at begun
      cases begun
    | ok ids =>
      rw [got] at begun
      dsimp only at begun ⊢
      cases loaded : cursor.load engine ids with
      | error err =>
        rw [loaded] at begun
        cases begun
      | ok filled => rfl

theorem count_left (harmless : cursor.Harmless engine filter count)
    (opened : cursor.base.storageQuery = some storage) :
    ∃ after, (cursor.left filter count).count_ engine storage =
        ((cursor.count_ engine storage).1.left filter after, (cursor.count_ engine storage).2) ∧
      (cursor.count_ engine storage).1.Harmless engine filter after := by
  rcases begin_left harmless opened with ⟨after, begun, stays⟩
  refine ⟨after, ?_⟩
  have loads := @begin_loads σ engine cursor storage
  unfold count_
  rw [begun]
  rcases began : cursor.begin_ engine storage with ⟨started, failed⟩
  rw [began] at stays loads
  cases failed with
  | some err => exact ⟨rfl, stays⟩
  | none =>
    have counted : after = started.count := stays.counted (loads rfl)
    rw [counted] at stays ⊢
    exact ⟨rfl, stays⟩

theorem call_left (harmless : cursor.Harmless engine filter count) (ask : Call) :
    ∃ after, (cursor.left filter count).call engine ask =
        ((cursor.call engine ask).1.left filter after, (cursor.call engine ask).2) ∧
      (cursor.call engine ask).1.Harmless engine filter after := by
  have sameStorage : (cursor.left filter count).base.storageQuery = cursor.base.storageQuery := rfl
  cases ask with
  | nextPage => exact ⟨count, rfl, harmless⟩
  | get =>
    unfold call
    rw [sameStorage]
    cases opened : cursor.base.storageQuery with
    | none => exact ⟨count, rfl, harmless⟩
    | some storage => exact get_left harmless opened
  | count =>
    unfold call
    rw [sameStorage]
    cases opened : cursor.base.storageQuery with
    | none => exact ⟨count, rfl, harmless⟩
    | some storage => exact count_left harmless opened

theorem calls_left (harmless : cursor.Harmless engine filter count) (asks : List Call) :
    calls engine asks (cursor.left filter count) = calls engine asks cursor := by
  induction asks generalizing cursor count with
  | nil => rfl
  | cons ask rest ih =>
    rcases call_left harmless ask with ⟨after, called, stays⟩
    rw [calls, calls, called]
    exact congrArg _ (ih stays)

/-- The filter and the page that a query on a closed cursor goes on with. -/
def filterLeft (query : FindQuery) (used : SearchCursor σ) : Option MojDbQueryFilter :=
  if query.query.filterClauses.entries = [] then used.base.queryFilter
  else some (MojDbQueryFilter.init query.query)

def pageLeft (query : FindQuery) (used : SearchCursor σ) : MojDbKey :=
  if query.query.page = [] then used.page else query.query.page

theorem find_close (engine : Engine σ) (req : Req) (query : FindQuery) (used : SearchCursor σ) :
    used.close.find engine req query =
      ((new used.base.vmode used.locale).find engine req query).map fun cursor =>
        { cursor.left (filterLeft query used) used.count with page := pageLeft query used } := by
  have pages : ∀ page, setPage used.locale page (MojDbQuery.Page.toObject query.query.page) =
      query.query.page := by
    intro page
    rw [setPage, MojDbQuery.Page.fromObject_toObject]
  unfold find
  cases query.query.validate with
  | error err => rfl
  | ok _ =>
    cases engine.retrieveCollation query.query with
    | error err => rfl
    | ok collation =>
      cases found : engine.find (initQuery query.query) with
      | error err =>
        simp only [bind, Except.bind, MojDbCursor.opened, init, found, Except.map]
      | ok found_ =>
        simp only [bind, Except.bind, MojDbCursor.opened, init, found, Except.map, close, pages]
        rfl

variable {query : FindQuery}

theorem find_new {req : Req} {vmode : Bool} {locale : MojDbLocale}
    (ran : (new vmode locale).find engine req query = .ok cursor) :
    ∃ found, engine.find (initQuery query.query) = .ok found ∧
      cursor.base.storageQuery = some found.1 ∧
      cursor.base.queryFilter = (if query.query.filterClauses.entries = [] then none
        else some (MojDbQueryFilter.init query.query)) ∧
      cursor.pos = none ∧ cursor.page = query.query.page ∧
      cursor.distinct = query.query.distinct ∧
      cursor.orderProp =
        (if query.query.distinct = [] then query.query.order else query.query.distinct) := by
  have pages : ∀ page, setPage locale page (MojDbQuery.Page.toObject query.query.page) =
      query.query.page := by
    intro page
    rw [setPage, MojDbQuery.Page.fromObject_toObject]
  unfold find at ran
  rcases except_bind_ok ran with ⟨_, -, ran⟩
  rcases except_bind_ok ran with ⟨collation, -, ran⟩
  rcases except_bind_ok ran with ⟨base, opened, ran⟩
  cases ran
  rcases except_bind_ok opened with ⟨found, finds, opened⟩
  cases opened
  refine ⟨found, finds, rfl, rfl, rfl, ?_, rfl, rfl⟩
  change (if query.query.page = [] then [] else _) = query.query.page
  split_ifs with pageless
  · exact pageless.symm
  · exact pages []

/-- The query goes on with nothing that is left: it has a page of its own or none is left, and it
has a filter or the one left takes every object there is to be found. -/
structure Clean (engine : Engine σ) (query : FindQuery) (used : SearchCursor σ) : Prop where
  page : query.query.page ≠ [] ∨ used.page = []
  filter : query.query.filterClauses.entries ≠ [] ∨
    ∀ given, used.base.queryFilter = some given →
      ∀ found, engine.find (initQuery query.query) = .ok found →
        ∀ obj, Finds engine found.1 obj → given.test engine.strstr obj = true

theorem answers_close {used : SearchCursor σ} (clean : Clean engine query used) (req : Req)
    (asks : List Call) :
    used.close.answers engine req query asks =
      (new used.base.vmode used.locale).answers engine req query asks := by
  unfold answers
  rw [find_close]
  cases ran : (new used.base.vmode used.locale).find engine req query with
  | error err => rfl
  | ok cursor =>
    rcases find_new ran with ⟨found, finds, storage, filter, unloaded, page, -⟩
    have samePage : pageLeft query used = cursor.page := by
      rw [page, pageLeft]
      split_ifs with pageless
      · rw [pageless]
        exact clean.page.resolve_left (not_not_intro pageless)
      · rfl
    have harmless : cursor.Harmless engine (filterLeft query used) used.count := by
      refine ⟨fun loaded => absurd loaded (by simp [unloaded]), ?_⟩
      rw [filter, filterLeft]
      split_ifs with unfiltered
      · refine Or.inr ⟨rfl, ?_⟩
        intro _ given isFilter next opened obj findsObj
        rw [storage, Option.some.injEq] at opened
        rw [← opened] at findsObj
        exact clean.filter.resolve_left (not_not_intro unfiltered) given isFilter found finds obj
          findsObj
      · exact Or.inl rfl
    have same : ({ cursor.left (filterLeft query used) used.count with
        page := pageLeft query used } : SearchCursor σ) =
          cursor.left (filterLeft query used) used.count := by
      rw [samePage]
      rfl
    rw [Except.map, Except.map, Except.map, same, calls_left harmless]

structure Listing (cursor : SearchCursor σ) : Prop where
  unloaded : cursor.pos = none
  pageless : cursor.page = []
  whole : cursor.distinct = []
  path : cursor.orderProp = [] ∨ cursor.search.orderPath ≠ []
  unfiltered : cursor.base.queryFilter = none

theorem load_listing (listing : cursor.Listing) (filter : Option MojDbQueryFilter)
    (ids : List MojObject) :
    ∃ loaded, (cursor.left filter count).load engine ids = .ok loaded ∧
      loaded.count = ((ids.filterMap engine.getById).filter fun obj =>
        filter.all fun filter => filter.test engine.strstr obj).length := by
  have path : ¬ ((cursor.left filter count).search.orderProp ≠ [] ∧
      (cursor.left filter count).search.orderPath = [] ∧
      loadObjects ((cursor.left filter count).search.arrangement engine.strstr engine.rand)
        engine.getById ids ≠ []) := by
    rintro ⟨ordered, noPath, -⟩
    rcases listing.path with unordered | path
    · exact ordered unordered
    · exact path noPath
  have perm := (cursor.left filter count).search.sort_perm engine.rand
    (loadObjects ((cursor.left filter count).search.arrangement engine.strstr engine.rand)
      engine.getById ids)
  unfold load MojDbSearchCursor.load
  rw [if_neg path]
  rcases MojDbSearchCursor.arrange_cases engine.strstr engine.rand engine.getById ids rfl with
    ⟨_, done⟩ | ⟨split_, -⟩ | ⟨_, _, split_, -⟩
  · rw [done]
    refine ⟨_, rfl, ?_⟩
    change (if cursor.page = [] then _ else _) = _
    rw [if_pos listing.pageless]
    split_ifs
    · rw [List.length_reverse]
      exact perm.length_eq
    · exact perm.length_eq
  · exact absurd listing.whole split_
  · exact absurd listing.whole split_

theorem call_count {storage : σ} {ids : List MojObject} {loaded : Loaded}
    (opened : cursor.base.storageQuery = some storage) (unloaded : cursor.pos = none)
    (got : (engine.loadIds storage).2 = .ok ids) (filled : cursor.load engine ids = .ok loaded) :
    cursor.call engine .count =
      ((cursor.loading engine storage).fill loaded, .count loaded.count) := by
  simp only [call, opened, count_, begin_, unloaded, got, filled]
  rfl

theorem call_count_failed {storage : σ} {err : MojErr}
    (opened : cursor.base.storageQuery = some storage) (unloaded : cursor.pos = none)
    (failed : (engine.loadIds storage).2 = .error err) :
    cursor.call engine .count = (cursor.loading engine storage, .failed err) := by
  simp only [call, opened, count_, begin_, unloaded, failed]
  rfl

theorem filter_shows {storage : σ} {obj : MojObject} {given : MojDbQueryFilter}
    (finds : Finds engine storage obj) (listing : cursor.Listing)
    (opened : cursor.base.storageQuery = some storage)
    (fails : given.test engine.strstr obj = false) :
    ∃ asks, calls engine asks (cursor.left (some given) count) ≠ calls engine asks cursor := by
  induction finds generalizing cursor with
  | @now storage ids id obj loaded member got =>
    rcases load_listing listing (some given) ids with ⟨fewer, fillsFewer, countFewer⟩
    rcases load_listing listing cursor.base.queryFilter ids with ⟨all, fillsAll, countAll⟩
    have calledFewer := @call_count σ engine (cursor.left (some given) count) storage ids fewer
      opened listing.unloaded loaded fillsFewer
    have calledAll := call_count opened listing.unloaded loaded fillsAll
    refine ⟨[.count], ?_⟩
    intro same
    simp only [calls, calledFewer, calledAll, List.cons.injEq, Report.count.injEq,
      and_true] at same
    rw [countFewer, countAll, listing.unfiltered] at same
    have inFound := List.mem_filterMap.mpr ⟨id, member, got⟩
    have below : ((ids.filterMap engine.getById).filter fun obj =>
        (some given).all fun filter => filter.test engine.strstr obj).length <
          (ids.filterMap engine.getById).length := by
      apply List.length_filter_lt_length_iff_exists.mpr
      refine ⟨obj, inFound, ?_⟩
      rw [Option.all_some, fails]
      exact Bool.false_ne_true
    simp only [Option.all_none, List.filter_true] at same
    exact absurd same below.ne
  | @later storage err obj failed finds ih =>
    have listing' : (cursor.loading engine storage).Listing :=
      ⟨listing.unloaded, listing.pageless, listing.whole, listing.path, listing.unfiltered⟩
    rcases ih listing' rfl fails with ⟨asks, differ⟩
    have calledLeft := @call_count_failed σ engine (cursor.left (some given) count) storage err
      opened listing.unloaded failed
    refine ⟨.count :: asks, ?_⟩
    simp only [calls, calledLeft, call_count_failed opened listing.unloaded failed]
    intro same
    injection same with _ same
    exact differ same

theorem page_shows {req : Req} {used : SearchCursor σ}
    (ran : (new used.base.vmode used.locale).find engine req query = .ok cursor)
    (pageless : query.query.page = []) (same : used.close.answers engine req query [.nextPage] =
      (new used.base.vmode used.locale).answers engine req query [.nextPage]) : used.page = [] := by
  rcases find_new ran with ⟨_, _, _, _, _, page, -⟩
  unfold answers at same
  rw [find_close, ran] at same
  change Except.ok [Report.page (pageLeft query used)] = Except.ok [Report.page cursor.page] at same
  simp only [Except.ok.injEq, List.cons.injEq, Report.page.injEq, and_true] at same
  rw [page, pageLeft, if_pos pageless, pageless] at same
  exact same

def Ordered (query : FindQuery) : Prop :=
  query.query.order = [] ∨ split propComponentSeparator [] query.query.order ≠ []

/-- A query without a page and a distinct property shows all that makes a difference. -/
theorem clean_of_answers {req : Req} {used : SearchCursor σ}
    (ran : (new used.base.vmode used.locale).find engine req query = .ok cursor)
    (pageless : query.query.page = []) (whole : query.query.distinct = []) (ordered : Ordered query)
    (same : ∀ asks, used.close.answers engine req query asks =
      (new used.base.vmode used.locale).answers engine req query asks) :
    Clean engine query used := by
  have noPage := page_shows ran pageless (same [.nextPage])
  refine ⟨Or.inr noPage, ?_⟩
  by_cases unfiltered : query.query.filterClauses.entries = []
  · refine Or.inr ?_
    intro given isFilter found finds obj findsObj
    rcases find_new ran with ⟨other, others, opened, filter, unloaded, page, distinct, order⟩
    rw [finds, Except.ok.injEq] at others
    rw [← others] at opened
    by_contra fails
    rw [Bool.not_eq_true] at fails
    rw [if_pos unfiltered] at filter
    rw [if_pos whole] at order
    have listing : cursor.Listing := by
      refine ⟨unloaded, page.trans pageless, distinct.trans whole, ?_, filter⟩
      change _ ∨ split _ _ cursor.orderProp ≠ []
      rw [order]
      exact ordered
    rcases @filter_shows σ engine cursor used.count _ _ _ findsObj listing opened fails with
      ⟨asks, differ⟩
    apply differ
    have sameAsks := same asks
    unfold answers at sameAsks
    rw [find_close, ran] at sameAsks
    have samePage : pageLeft query used = cursor.page := by
      rw [pageLeft, if_pos pageless, noPage, page, pageless]
    simp only [Except.map, Except.ok.injEq, filterLeft, if_pos unfiltered, isFilter,
      samePage] at sameAsks
    exact sameAsks
  · exact Or.inl unfiltered

end SearchCursor

end SearchReuse

section Claim

variable {σ : Type} (engine : Engine σ) (req : Req) (query : FindQuery)

/-- The closed cursor answers the query like a new one with the same verify mode. -/
def MojDbCursor.AsNew (used : MojDbCursor σ) : Prop :=
  ∀ asks, used.close.answers engine req query asks =
    (MojDbCursor.new used.vmode).answers engine req query asks

def SearchCursor.AsNew (used : SearchCursor σ) : Prop :=
  ∀ asks, used.close.answers engine req query asks =
    (SearchCursor.new used.base.vmode used.locale).answers engine req query asks

/-- Whatever the cursors have been used for: a plain one is as good as new, and a search cursor is if
the query goes on with nothing that is left in it. Only a query with a page or a distinct property may
hide what is left. -/
theorem reuse_asNew (plain : MojDbCursor σ) (search : SearchCursor σ) :
    plain.AsNew engine req query ∧
    (SearchCursor.Clean engine query search → search.AsNew engine req query) ∧
    ∀ opened, (SearchCursor.new search.base.vmode search.locale).find engine req query =
        .ok opened →
      query.query.page = [] →
        (search.AsNew engine req query → search.page = []) ∧
        (query.query.distinct = [] → SearchCursor.Ordered query →
          (search.AsNew engine req query ↔ SearchCursor.Clean engine query search)) := by
  refine ⟨fun asks => plain.answers_close engine req query asks, fun clean => SearchCursor.answers_close clean req, ?_⟩
  intro opened ran pageless
  refine ⟨fun same => SearchCursor.page_shows ran pageless (same [.nextPage]), ?_⟩
  intro whole ordered
  constructor
  · exact SearchCursor.clean_of_answers ran pageless whole ordered
  · exact fun clean => SearchCursor.answers_close clean req

end Claim

/-- The state of a search cursor behind some calls. -/
def SearchCursor.consumed {σ : Type} (engine : Engine σ) (asks : List Call)
    (cursor : SearchCursor σ) : SearchCursor σ :=
  asks.foldl (fun cursor ask => (cursor.call engine ask).1) cursor

section Left

variable {σ : Type} (engine : Engine σ)

end Left

section Example

/-- A store with one object, that any search comes upon. -/
def oneObject : Engine Unit where
  retrieveCollation _ := .ok .invalid
  find _ := .ok ((), MojDbSearchCursor.plainLocale)
  get _ _ := ((), .ok none)
  count _ := ((), .ok 1)
  nextPage _ := ((), .ok [])
  loadIds _ := ((), .ok [.int 1])
  getById id := some (.object [(idKey, id)])
  visit _ obj := .ok obj
  strstr _ _ := false
  rand := id

def allOf : MojDbQuery := MojDbQuery.init (chars ['K'])

def noneOf : MojDbQuery :=
  { allOf with
    filterClauses :=
      ((WhereMap.empty.addClause (chars ['x']) .eq (.int 1) .invalid).toOption).getD
        WhereMap.empty }

/-- A search with a filter leaves it to the search behind it. -/
theorem filter_outlives_query :
    ¬ ∀ (engine : Engine Unit) (req : Req) (first query : FindQuery) (before asks : List Call)
        (locale : MojDbLocale) (opened : SearchCursor Unit),
      (SearchCursor.new false locale).find engine req first = .ok opened →
        (opened.consumed engine before).close.answers engine req query asks =
          (SearchCursor.new false locale).answers engine req query asks := by
  intro all
  have same := all oneObject ⟨none, false, 0, none⟩ ⟨noneOf, SortedSet.empty⟩
    ⟨allOf, SortedSet.empty⟩ [] [.count] MojDbSearchCursor.plainLocale _ rfl
  change Except.ok [Report.count 0] = Except.ok [Report.count 1] at same
  simp at same

end Example

end Db8.Db.CursorReuse
