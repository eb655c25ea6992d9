import Db8.Core.Normalize
import Db8.Db.QueryObject
import Db8.Luna.OneReply

/-!
# The service client

What the client writes for its requests and for the operations of a batch, and that the handler makes
of the text the calls to the database the client was asked for. A merge by query is written into a
batch without its method, so the batch ends there.
-/

set_option autoImplicit false

namespace Db8.Luna.MojDbServiceClient

open Db8.Core
open Db8.Db
open Db8.Luna.MojDbServiceHandler

/-- What a client can ask for; of the flags only `FlagPurge` is written. -/
inductive Operation where
  | put (objects : List MojObject) (purge : Bool)
  | get (ids : List MojObject)
  | del (ids : List MojObject) (purge : Bool)
  | delQuery (query : SelectQuery) (purge : Bool)
  | merge (objects : List MojObject) (purge : Bool)
  | mergeQuery (query : SelectQuery) (props : MojObject)
  | find (query : SelectQuery) (count : Bool)
  | search (query : SelectQuery) (count : Bool)

def Operation.method : Operation → BatchMethod
  | .put .. => .put
  | .get .. => .get
  | .del .. => .del
  | .delQuery .. => .del
  | .merge .. => .merge
  | .mergeQuery .. => .merge
  | .find .. => .find
  | .search .. => .search

def methodName : BatchMethod → MojString
  | .del => chars "del".toList
  | .find => chars "find".toList
  | .get => chars "get".toList
  | .merge => chars "merge".toList
  | .put => chars "put".toList
  | .search => chars "search".toList

section Format

/-! The objects here hold their properties in the order they are written. -/

def formatFlags (purge : Bool) : List (MojString × MojObject) :=
  if purge then [(purgeKey, .bool true)] else []

def formatArrayParams (prop : MojString) (objects : List MojObject) (purge : Bool) : MojObject :=
  .object (formatFlags purge ++ [(prop, .array objects)])

def formatQueryParams (query : SelectQuery) (purge watch count : Bool) :
    Except MojErr MojObject := do
  let props ← query.toProps
  .ok (.object (formatFlags purge ++ ((queryKey, .object props) ::
    ((if count then [(countKey, .bool true)] else []) ++
      if watch then [(watchKey, .bool true)] else []))))

def formatMerge (query : SelectQuery) (props : MojObject) : Except MojErr MojObject := do
  let queryProps ← query.toProps
  .ok (.object [(queryKey, .object queryProps), (propsKey, props)])

/-- The parameters of a request; only a find and a search can be watched. -/
def params (watch : Bool) : Operation → Except MojErr MojObject
  | .put objects purge => .ok (formatArrayParams objectsKey objects purge)
  | .get ids => .ok (formatArrayParams idsKey ids false)
  | .del ids purge => .ok (formatArrayParams idsKey ids purge)
  | .delQuery query purge => formatQueryParams query purge false false
  | .merge objects purge => .ok (formatArrayParams objectsKey objects purge)
  | .mergeQuery query props => formatMerge query props
  | .find query count => formatQueryParams query false watch count
  | .search query count => formatQueryParams query false watch count

/-- An operation of `MojDbServiceClientBatch`. All but the merge by query go through
`startRequest`. -/
def batchOperation (operation : Operation) : Except MojErr MojObject :=
  match operation with
  | .mergeQuery query props => formatMerge query props
  | _ => do
    let written ← params false operation
    .ok (.object [(methodKey, .string (methodName operation.method)), (paramsKey, written)])

/-- `createBatch`, the operations and `execute`. -/
def batchRequest (operations : List Operation) : Except MojErr MojObject := do
  let written ← operations.mapM batchOperation
  .ok (.object [(operationsKey, .array written)])

end Format

section Serve

variable {σ κ : Type} (db : MojDbCalls σ κ)

def readQuery (query : SelectQuery) : Except MojErr MojDbQuery := do
  let props ← query.toProps
  db.fromObject (MojObject.object props).built

def limited (query : MojDbQuery) : Except MojErr MojDbQuery :=
  if query.limit = MojDbQuery.limitDefault then .ok { query with limit := maxQueryLimit }
  else if maxQueryLimit < query.limit then
    .error (.dbInvalidQuery "db: limit greater than 500 not allowed")
  else .ok query

/-- A query is answered with its results, the next page and the count, and watched if asked for. -/
def answer (search : Bool) (query : MojDbQuery) (watch count : Bool) : Handling σ Unit := do
  when watch (send MojServiceMessage.notifyCancel)
  let cursor ← call (db.find search query watch)
  write beginResults
  let results ← call (db.visit cursor)
  write (MojObject.visitVals results ++ [.endArray])
  let page ← call (db.nextPage cursor)
  appendPage page
  appendCount db cursor count
  write [.endObject]
  when watch (send MojServiceMessage.reply)
  call (db.close cursor)

def serve (watch : Bool) : Operation → Handling σ Unit
  | .put objects _ => do
    let put ← call (db.put (MojObject.builtVals objects))
    formatPut put
  | .get ids => do
    write beginResults
    let found ← call (db.get (MojObject.builtVals ids))
    write (MojObject.visitVals found ++ [.endArray, .endObject])
  | .del ids purge => do
    let deleted ← call (db.del (MojObject.builtVals ids) purge)
    formatPut deleted
  | .delQuery query purge => do
    let query ← check (readQuery db query)
    let count ← call (db.delQuery query purge)
    formatCount count
  | .merge objects _ => do
    let merged ← call (db.merge (MojObject.builtVals objects) false)
    formatPut merged
  | .mergeQuery query props => do
    let query ← check (readQuery db query)
    let count ← call (db.mergeQuery query props.built)
    formatCount count
  | .find query count => do
    let query ← check (readQuery db query >>= limited)
    answer db false query watch count
  | .search query _ => do
    let _ ← call db.getLocale
    let query ← check (readQuery db query >>= limited)
    answer db true query watch true

def serveInBatch : Operation → Handling σ Unit
  | .mergeQuery _ _ => throw (.requiredPropNotFound (MojObjectWriter.charBytes methodKey))
  | operation => serve db false operation

def serveAll : List Operation → Handling σ Unit
  | [] => pure ()
  | operation :: operations => do
    serveInBatch db operation
    serveAll operations

end Serve

/-! ### What the handler finds in a request -/

section Lookups

@[simp] theorem get_object (props : List (MojString × MojObject)) (key : MojString) :
    (MojObject.object props).get key = MojObject.find props key := rfl

@[simp] theorem builtProps_nil (done : List (MojString × MojObject)) :
    MojObject.builtProps [] done = done := by
  rw [MojObject.builtProps]

@[simp] theorem builtProps_cons (name : MojString) (val : MojObject)
    (rest done : List (MojString × MojObject)) :
    MojObject.builtProps ((name, val) :: rest) done =
      MojObject.builtProps rest (MojObject.putProp name val.built done) := by
  rw [MojObject.builtProps]

@[simp] theorem find_nil_none (key : MojString) : MojObject.find [] key = none := rfl

end Lookups

section Requests

variable {σ κ : Type} (db : MojDbCalls σ κ)

structure ArrayParams (prop : MojString) (objects : List MojObject) (purge : Bool)
    (payload : MojObject) : Prop where
  objects : payload.get prop = some (.array (MojObject.builtVals objects))
  purge : flag payload purgeKey = purge
  query : payload.get queryKey = none
  ignoreMissing : flag payload ignoreMissingKey = false

theorem arrayParams_built {prop : MojString} (known : prop = idsKey ∨ prop = objectsKey)
    (objects : List MojObject) (purge : Bool) :
    ArrayParams prop objects purge (formatArrayParams prop objects purge).built := by
  unfold formatArrayParams formatFlags
  rcases known with rfl | rfl <;> cases purge <;> constructor <;>
    simp +decide [flag, MojObject.find_putProp, MojObject.built, MojObject.boolValue]

structure QueryParams (props : List (MojString × MojObject)) (purge watch count : Bool)
    (payload : MojObject) : Prop where
  query : payload.get queryKey = some (MojObject.object props).built
  purge : flag payload purgeKey = purge
  watch : flag payload watchKey = watch
  count : flag payload countKey = count
  ids : payload.get idsKey = none
  objects : payload.get objectsKey = none

theorem queryParams_built (props : List (MojString × MojObject)) (purge watch count : Bool) :
    QueryParams props purge watch count (MojObject.object (formatFlags purge ++
      ((queryKey, .object props) :: ((if count then [(countKey, .bool true)] else []) ++
        if watch then [(watchKey, .bool true)] else [])))).built := by
  unfold formatFlags
  cases purge <;> cases count <;> cases watch <;> constructor <;>
    simp +decide [flag, MojObject.find_putProp, MojObject.built, MojObject.boolValue]

variable {query : SelectQuery}

theorem formatQueryParams_ok {purge watch count : Bool} {written : MojObject}
    (formatted : formatQueryParams query purge watch count = .ok written) :
    ∃ props, query.toProps = .ok props ∧ QueryParams props purge watch count written.built := by
  rcases except_bind_ok formatted with ⟨props, written_, whole⟩
  cases whole
  exact ⟨props, written_, queryParams_built props purge watch count⟩

theorem required_found {obj val : MojObject} {key : MojString} (found : obj.get key = some val) :
    MojDbIsamQuery.getRequired obj key = .ok val := by
  rw [MojDbIsamQuery.getRequired, found]

theorem required_missing {obj : MojObject} {key : MojString} (missing : obj.get key = none) :
    MojDbIsamQuery.getRequired obj key =
      .error (.requiredPropNotFound (MojObjectWriter.charBytes key)) := by
  rw [MojDbIsamQuery.getRequired, missing]

theorem readQuery_ok {props : List (MojString × MojObject)} (written : query.toProps = .ok props) :
    readQuery db query = db.fromObject (MojObject.object props).built := by
  rw [readQuery, written]
  rfl

theorem findImpl_answer {search watch count : Bool} {props : List (MojString × MojObject)}
    {purge counted : Bool} {payload : MojObject} (written : query.toProps = .ok props)
    (has : QueryParams props purge watch counted payload) :
    findImpl db search payload count = (do
      let query ← check (readQuery db query >>= limited)
      answer db search query watch count) := by
  have reads : findQuery db.fromObject payload = (readQuery db query >>= limited) := by
    rw [findQuery, required_found has.query, readQuery_ok db written]
    rfl
  rw [findImpl, has.watch, reads]
  rfl

structure MergeParams (queryProps : List (MojString × MojObject)) (props : MojObject)
    (payload : MojObject) : Prop where
  objects : payload.get objectsKey = none
  query : payload.get queryKey = some (MojObject.object queryProps).built
  props : payload.get propsKey = some props.built
  ignoreMissing : payload.get ignoreMissingKey = none
  method : payload.get methodKey = none

theorem formatMerge_ok {props written : MojObject}
    (formatted : formatMerge query props = .ok written) :
    ∃ queryProps, query.toProps = .ok queryProps ∧ MergeParams queryProps props written.built := by
  rcases except_bind_ok formatted with ⟨queryProps, written_, whole⟩
  cases whole
  refine ⟨queryProps, written_, ?_⟩
  constructor <;> simp +decide [MojObject.find_putProp, MojObject.built]

theorem callback_serves {watch : Bool} {operation : Operation} {written : MojObject}
    (formatted : params watch operation = .ok written) :
    callback db operation.method written.built = serve db watch operation := by
  cases operation with
  | put objects purge =>
    cases formatted
    have has := arrayParams_built (Or.inr rfl) objects purge
    rw [Operation.method, callback, handlePut, required_found has.objects]
    rfl
  | get ids =>
    cases formatted
    have has := arrayParams_built (Or.inl rfl) ids false
    rw [Operation.method, callback, handleGet, required_found has.objects]
    rfl
  | del ids purge =>
    cases formatted
    have has := arrayParams_built (Or.inl rfl) ids purge
    rw [Operation.method, callback, handleDel, has.objects, has.purge]
    dsimp only
    rw [has.query]
    rfl
  | delQuery query purge =>
    rcases formatQueryParams_ok formatted with ⟨props, written_, has⟩
    rw [Operation.method, callback, handleDel, has.ids, has.purge]
    dsimp only
    rw [has.query, serve, readQuery_ok db written_]
  | merge objects purge =>
    cases formatted
    have has := arrayParams_built (Or.inr rfl) objects purge
    rw [Operation.method, callback, handleMerge, has.objects]
    dsimp only
    rw [has.query, has.ignoreMissing]
    rfl
  | mergeQuery query props =>
    rcases formatMerge_ok formatted with ⟨queryProps, written_, has⟩
    rw [Operation.method, callback, handleMerge, has.objects]
    dsimp only
    rw [has.query]
    dsimp only
    rw [required_found has.props, has.ignoreMissing, serve, readQuery_ok db written_]
    rfl
  | find query count =>
    rcases formatQueryParams_ok formatted with ⟨props, written_, has⟩
    rw [Operation.method, callback, handleFind, has.count, findImpl_answer db written_ has]
    rfl
  | search query count =>
    rcases formatQueryParams_ok formatted with ⟨props, written_, has⟩
    rw [Operation.method, callback, handleSearch, findImpl_answer db written_ has]
    rfl

/-! ### Batches -/

theorem batchMethod_name (method : BatchMethod) :
    batchMethod (.string (methodName method)) = some method := by
  cases method <;> decide

theorem handleOperation_serves {operation : Operation} {written payload : MojObject}
    (unwatched : flag payload watchKey = false)
    (formatted : batchOperation operation = .ok written) :
    handleOperation db payload written.built = serveInBatch db operation := by
  have wrapped : ∀ parameters, params false operation = .ok parameters →
      written = .object [(methodKey, .string (methodName operation.method)),
        (paramsKey, parameters)] →
      handleOperation db payload written.built = serve db false operation := by
    intro parameters inner whole
    have method : written.built.get methodKey = some (.string (methodName operation.method)) := by
      rw [whole]
      simp +decide [MojObject.find_putProp, MojObject.built]
    have found : written.built.get paramsKey = some parameters.built := by
      rw [whole]
      simp +decide [MojObject.find_putProp, MojObject.built]
    have reads : readOperation payload written.built = .ok (operation.method, parameters.built) := by
      rw [readOperation, required_found method, required_found found]
      show (if flag payload watchKey = true then _ else _) = _
      rw [unwatched, if_neg (by simp)]
      rw [batchMethod_name]
    rw [handleOperation, reads, ← callback_serves db inner]
    rfl
  cases operation with
  | mergeQuery query props =>
    rcases formatMerge_ok formatted with ⟨queryProps, written_, has⟩
    have fails : readOperation payload written.built =
        .error (.requiredPropNotFound (MojObjectWriter.charBytes methodKey)) := by
      rw [readOperation, required_missing has.method]
      rfl
    rw [handleOperation, fails, serveInBatch]
    rfl
  | _ =>
    rcases except_bind_ok formatted with ⟨parameters, inner, whole⟩
    exact wrapped parameters inner (Except.ok.inj whole).symm

theorem handleOperations_serve {payload : MojObject} (unwatched : flag payload watchKey = false)
    {operations : List Operation} {written : List MojObject}
    (formatted : operations.mapM batchOperation = .ok written) :
    handleOperations db payload (MojObject.builtVals written) = serveAll db operations := by
  induction operations generalizing written with
  | nil =>
    cases formatted
    show handleOperations db payload (MojObject.builtVals []) = _
    rw [MojObject.builtVals]
    rfl
  | cons operation operations ih =>
    rw [List.mapM_cons] at formatted
    rcases except_bind_ok formatted with ⟨first, here, more⟩
    rcases except_bind_ok more with ⟨rest, later, whole⟩
    cases whole
    rw [MojObject.builtVals, handleOperations, serveAll, handleOperation_serves db unwatched here,
      ih later]

def sampleOperations : List Operation :=
  [.put [.object [(chars ['b'], .int 1), (chars ['a'], .null)]] true, .get [.string (chars ['x'])]]

def sampleBatch : MojObject :=
  .object [(operationsKey, .array [
    .object [(methodKey, .string (chars "put".toList)), (paramsKey, .object [(purgeKey, .bool true),
      (objectsKey, .array [.object [(chars ['b'], .int 1), (chars ['a'], .null)]])])],
    .object [(methodKey, .string (chars "get".toList)), (paramsKey, .object [
      (idsKey, .array [.string (chars ['x'])])])]])]

def sampleCalls : MojDbCalls Unit Unit := obliging (fun _ => .error .typeMismatch) ()

end Requests

end Db8.Luna.MojDbServiceClient
