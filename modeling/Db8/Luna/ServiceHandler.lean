import Db8.Core.ServiceMessage
import Db8.Db.DelQuery
import Db8.Db.IsamQuery
import Db8.Luna.Retry

/-!
# The service handler

The handlers of the operations a batch may hold, what each writes to the reply, the batch around
them, the retry loop and the dispatch of the request. A handler works on the state of the database
and the message. The calls to the database are parameters: they may fail at any time, and nothing
else is known of them. What a cursor or a get had written before it failed is not kept, since the
text is dropped then.
-/

set_option autoImplicit false

namespace Db8.Luna.MojDbServiceHandler

open Db8.Core
open Db8.Db
open Db8.Db.MojDbIsamQuery

def countKey : MojString := chars "count".toList

def idKey : MojString := chars "id".toList

def idsKey : MojString := chars "ids".toList

def ignoreMissingKey : MojString := chars "ignoreMissing".toList

def methodKey : MojString := chars "method".toList

def nextKey : MojString := chars "next".toList

def objectsKey : MojString := chars "objects".toList

def operationsKey : MojString := chars "operations".toList

def paramsKey : MojString := chars "params".toList

def propsKey : MojString := chars "props".toList

def purgeKey : MojString := chars "purge".toList

def queryKey : MojString := chars "query".toList

def responsesKey : MojString := chars "responses".toList

def resultsKey : MojString := chars "results".toList

def revKey : MojString := chars "rev".toList

def watchKey : MojString := chars "watch".toList

def dbIdKey : MojString := chars "_id".toList

def ignoreIdKey : MojString := chars "_ignoreId".toList

def maxQueryLimit : MojUInt32 := 500#32

abbrev Call (σ α : Type) := σ → σ × Except MojErr α

structure MojDbCalls (σ κ : Type) where
  fromObject : MojObject → Except MojErr MojDbQuery
  beginBatch : Call σ Unit
  endBatch : Call σ Unit
  del (ids : List MojObject) (purge : Bool) : Call σ (List MojObject)
  delQuery (query : MojDbQuery) (purge : Bool) : Call σ MojUInt32
  get (ids : List MojObject) : Call σ (List MojObject)
  merge (objects : List MojObject) (ignoreMissing : Bool) : Call σ (List MojObject)
  mergeQuery (query : MojDbQuery) (props : MojObject) : Call σ MojUInt32
  put (objects : List MojObject) : Call σ (List MojObject)
  getLocale : Call σ MojString
  find (search : Bool) (query : MojDbQuery) (watched : Bool) : Call σ κ
  visit (cursor : κ) : Call σ (List MojObject)
  nextPage (cursor : κ) : Call σ (Option MojObject)
  count (cursor : κ) : Call σ MojUInt32
  close (cursor : κ) : Call σ Unit

abbrev Handling (σ α : Type) := EStateM MojErr (σ × MojServiceMessage) α

variable {σ κ α : Type}

def call (run : Call σ α) : Handling σ α := fun before =>
  match run before.1 with
  | (state, .ok result) => .ok result (state, before.2)
  | (state, .error err) => .error err (state, before.2)

def check (result : Except MojErr α) : Handling σ α := fun before =>
  match result with
  | .ok result => .ok result before
  | .error err => .error err before

def write (calls : List VisitorCall) : Handling σ Unit := fun before =>
  .ok () (before.1, before.2.write calls)

def send (update : MojServiceMessage → Except MojErr MojServiceMessage) : Handling σ Unit :=
  fun before =>
    match update before.2 with
    | .ok message => .ok () (before.1, message)
    | .error err => .error err before

def when (condition : Bool) (handling : Handling σ Unit) : Handling σ Unit :=
  if condition then handling else pure ()

/-- `get` of a boolean that is false unless there. -/
def flag (payload : MojObject) (key : MojString) : Bool :=
  ((payload.get key).map MojObject.boolValue).getD false

/-- The elements between `arrayBegin` and `arrayEnd`; only arrays have some. -/
def vals : MojObject → List MojObject
  | .array vals => vals
  | _ => []

/-- `getVal` with its first property, up to the array of results. -/
def beginResults : List VisitorCall :=
  [.beginObject, .propName MojServiceMessage.returnValueKey, .boolValue true,
    .propName resultsKey, .beginArray]

def formatCount (count : MojUInt32) : Handling σ Unit :=
  write [.beginObject, .propName MojServiceMessage.returnValueKey, .boolValue true,
    .propName countKey, .intValue (count.setWidth 64), .endObject]

def formatPutAppend (result : MojObject) : Handling σ Unit := do
  let id ← check (getRequired result dbIdKey)
  write (.beginObject :: .propName idKey :: id.visit)
  match result.get Db.revKey with
  | some rev => write (.propName revKey :: rev.visit)
  | none => pure ()
  write [.endObject]

def formatPutAll : List MojObject → Handling σ Unit
  | [] => pure ()
  | obj :: rest => do
    if flag obj ignoreIdKey then formatPutAll rest
    else
      formatPutAppend obj
      formatPutAll rest

def formatPut (objects : List MojObject) : Handling σ Unit := do
  write beginResults
  formatPutAll objects
  write [.endArray, .endObject]

def handleDel (db : MojDbCalls σ κ) (payload : MojObject) : Handling σ Unit := do
  let purge := flag payload purgeKey
  match payload.get idsKey with
  | some ids =>
    if (payload.get queryKey).isSome then
      throw (.invalidArg
        "db: cannot have both an objects argument and a query argument")
    let deletedObjects ← call (db.del (vals ids) purge)
    formatPut deletedObjects
  | none =>
    match payload.get queryKey with
    | some queryObj =>
      let query ← check (db.fromObject queryObj)
      let queryCount ← call (db.delQuery query purge)
      formatCount queryCount
    | none => pure ()

/-- The query of `findImpl` with its limit. -/
def findQuery (fromObject : MojObject → Except MojErr MojDbQuery) (payload : MojObject) :
    Except MojErr MojDbQuery := do
  let queryObj ← getRequired payload queryKey
  let query ← fromObject queryObj
  if query.limit = MojDbQuery.limitDefault then .ok { query with limit := maxQueryLimit }
  else if maxQueryLimit < query.limit then
    .error (.dbInvalidQuery "db: limit greater than 500 not allowed")
  else .ok query

def appendPage : Option MojObject → Handling σ Unit
  | some page => write (.propName nextKey :: page.visit)
  | none => pure ()

def appendCount (db : MojDbCalls σ κ) (cursor : κ) : Bool → Handling σ Unit
  | true => do
    let count ← call (db.count cursor)
    write [.propName countKey, .intValue (count.setWidth 64)]
  | false => pure ()

def findImpl (db : MojDbCalls σ κ) (search : Bool) (payload : MojObject) (doCount : Bool) :
    Handling σ Unit := do
  let doWatch := flag payload watchKey
  let query ← check (findQuery db.fromObject payload)
  -- the watcher of the request connects to its cancel signal
  when doWatch (send MojServiceMessage.notifyCancel)
  let cursor ← call (db.find search query doWatch)
  write beginResults
  let results ← call (db.visit cursor)
  write (MojObject.visitVals results ++ [.endArray])
  let page ← call (db.nextPage cursor)
  appendPage page
  appendCount db cursor doCount
  write [.endObject]
  when doWatch (send MojServiceMessage.reply)
  call (db.close cursor)

def handleFind (db : MojDbCalls σ κ) (payload : MojObject) : Handling σ Unit :=
  findImpl db false payload (flag payload countKey)

def handleSearch (db : MojDbCalls σ κ) (payload : MojObject) : Handling σ Unit := do
  let _ ← call db.getLocale
  findImpl db true payload true

def handleGet (db : MojDbCalls σ κ) (payload : MojObject) : Handling σ Unit := do
  let ids ← check (getRequired payload idsKey)
  write beginResults
  let found ← call (db.get (vals ids))
  write (MojObject.visitVals found ++ [.endArray, .endObject])

def handleMerge (db : MojDbCalls σ κ) (payload : MojObject) : Handling σ Unit := do
  match payload.get objectsKey with
  | some objects =>
    if (payload.get queryKey).isSome then
      throw (.invalidArg "db: cannot have both an objects param and a query param")
    let merged ← call (db.merge (vals objects) (flag payload ignoreMissingKey))
    formatPut merged
  | none =>
    match payload.get queryKey with
    | some queryObj =>
      let props ← check (getRequired payload propsKey)
      if (payload.get ignoreMissingKey).isSome then
        throw (.invalidArg "db: ignoreMissing - invalid option for merge query")
      let query ← check (db.fromObject queryObj)
      let queryCount ← call (db.mergeQuery query props)
      formatCount queryCount
    | none => throw (.invalidArg "db: either objects or query param required for merge")

def handlePut (db : MojDbCalls σ κ) (payload : MojObject) : Handling σ Unit := do
  let objects ← check (getRequired payload objectsKey)
  let put ← call (db.put (vals objects))
  formatPut put

inductive BatchMethod where
  | del
  | find
  | get
  | merge
  | put
  | search
deriving DecidableEq

/-- The lookup in `m_batchCallbacks`; the text of a value that is no string names no method. -/
def batchMethod : MojObject → Option BatchMethod
  | .string name =>
    if name = chars "del".toList then some .del
    else if name = chars "find".toList then some .find
    else if name = chars "get".toList then some .get
    else if name = chars "merge".toList then some .merge
    else if name = chars "put".toList then some .put
    else if name = chars "search".toList then some .search
    else none
  | _ => none

def callback (db : MojDbCalls σ κ) : BatchMethod → MojObject → Handling σ Unit
  | .del => handleDel db
  | .find => handleFind db
  | .get => handleGet db
  | .merge => handleMerge db
  | .put => handlePut db
  | .search => handleSearch db

/-- The method and the parameters of an operation of a batch. The watch is looked for in the
payload of the batch, not in the parameters. -/
def readOperation (payload op : MojObject) : Except MojErr (BatchMethod × MojObject) := do
  let method ← getRequired op methodKey
  let params ← getRequired op paramsKey
  if flag payload watchKey then .error .dbInvalidBatch
  else
    match batchMethod method with
    | none => .error .dbInvalidBatch
    | some method => .ok (method, params)

def handleOperation (db : MojDbCalls σ κ) (payload op : MojObject) : Handling σ Unit := do
  let (method, params) ← check (readOperation payload op)
  callback db method params

def handleOperations (db : MojDbCalls σ κ) (payload : MojObject) :
    List MojObject → Handling σ Unit
  | [] => pure ()
  | op :: ops => do
    handleOperation db payload op
    handleOperations db payload ops

def handleBatch (db : MojDbCalls σ κ) (payload : MojObject) : Handling σ Unit := do
  let operations ← check (getRequired payload operationsKey)
  write [.beginObject, .propName MojServiceMessage.returnValueKey, .boolValue true,
    .propName responsesKey, .beginArray]
  handleOperations db payload (vals operations)
  write [.endArray, .endObject]

def invokeImpl (db : MojDbCalls σ κ) (payload : MojObject) : Handling σ Unit := do
  call db.beginBatch
  handleBatch db payload
  call db.endBatch

/-- `invoke`, with as many attempts as the retries allow. -/
def invokeLoop (db : MojDbCalls σ κ) (payload : MojObject) : Nat → Nat → Handling σ Unit
  | 0, _ => throw (.assertFailed "the retries are bounded")
  | left + 1, retries => fun before =>
    match invokeImpl db payload before with
    | .ok done after => .ok done after
    | .error err (state, message) =>
      if err = .dbDeadlock then
        if maxDeadlockRetries ≤ retries + 1 then .error .dbMaxRetriesExceeded (state, message)
        else invokeLoop db payload left (retries + 1) (state, message.resetWriter)
      else if err = .internalIndexOnDel then
        if maxIndexlockRetries ≤ retries + 1 then .error .dbInconsistentIndex (state, message)
        else invokeLoop db payload left (retries + 1) (state, message.resetWriter)
      else .error err (state, message)

def invoke (db : MojDbCalls σ κ) (payload : MojObject) : Handling σ Unit :=
  invokeLoop db payload maxDeadlockRetries 0

/-- What `dispatchRequest` does after the handler, which failed with an error or did not. -/
def conclude (errText : MojErr → MojInt64 × MojString) (reqErr : Option MojErr) :
    Handling σ Unit := fun before =>
  match reqErr with
  | some err =>
    if before.2.numReplies = 0 then
      send (fun message => message.replyError (errText err).1 (errText err).2) before
    else .ok () before
  | none =>
    if before.2.numReplies = 0 ∧ before.2.hasData = true then send MojServiceMessage.reply before
    else .ok () before

/-- `dispatchRequest` of a batch, with the codes and texts of the errors. -/
def dispatchRequest (db : MojDbCalls σ κ) (errText : MojErr → MojInt64 × MojString)
    (payload : MojObject) : Handling σ Unit := fun before =>
  match invoke db payload before with
  | .ok _ after => conclude errText none after
  | .error err after => conclude errText (some err) after

end Db8.Luna.MojDbServiceHandler
