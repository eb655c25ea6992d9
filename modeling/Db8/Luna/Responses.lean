import Db8.Luna.Handling

/-!
# The responses of a batch

What each handler writes is the text of one object, but for a del with neither ids nor a query,
which writes nothing, and a find that asks for a watch, which replies by itself. Without these a
batch is replied to as it should be.
-/

set_option autoImplicit false

namespace Db8.Luna.MojDbServiceHandler

open Db8.Core
open Db8.Db
open Db8.Db.MojDbIsamQuery

variable {σ κ α β : Type}

def OneObject (_ : σ) (_ : Unit) (calls : List VisitorCall) : Prop :=
  ∃ entry : MojObject, calls = entry.visit

theorem formatCount_ends (count : MojUInt32) (state : σ) :
    Ends (formatCount count) state OneObject :=
  Ends.write ⟨.object [(MojServiceMessage.returnValueKey, .bool true),
    (countKey, .int (count.setWidth 64))], rfl⟩

theorem formatPutAppend_ends (result : MojObject) (state : σ) :
    Ends (formatPutAppend result) state OneObject := by
  unfold formatPutAppend
  apply Ends.bind_check
  intro id _
  apply Ends.bind_write
  cases result.get Db.revKey with
  | none =>
    apply Ends.write
    exact ⟨.object [(idKey, id)], by simp [MojObject.visit, MojObject.visitProps]⟩
  | some rev =>
    apply Ends.bind_write
    apply Ends.write
    exact ⟨.object [(idKey, id), (revKey, rev)], by
      simp [MojObject.visit, MojObject.visitProps]⟩

theorem formatPutAll_ends (objects : List MojObject) (state : σ) :
    Ends (formatPutAll objects) state fun _ _ calls =>
      ∃ results, calls = MojObject.visitVals results := by
  induction objects generalizing state with
  | nil => exact Ends.pure ⟨[], rfl⟩
  | cons obj rest ih =>
    rw [formatPutAll]
    split_ifs
    · exact ih state
    · apply (formatPutAppend_ends obj state).bind
      intro after _ calls _ one
      rcases one with ⟨entry, one⟩
      apply (ih after).mono
      intro _ _ later all
      rcases all with ⟨results, all⟩
      exact ⟨entry :: results, by rw [one, all, MojObject.visitVals]⟩

def resultsObject (results : List MojObject) (rest : List (MojString × MojObject)) : MojObject :=
  .object ((MojServiceMessage.returnValueKey, .bool true) :: (resultsKey, .array results) :: rest)

theorem resultsObject_visit (results : List MojObject) (rest : List (MojString × MojObject)) :
    (resultsObject results rest).visit = beginResults ++ MojObject.visitVals results ++
      .endArray :: MojObject.visitProps rest ++ [.endObject] := by
  simp [resultsObject, beginResults, MojObject.visit, MojObject.visitProps]

theorem visitProps_append (front back : List (MojString × MojObject)) :
    MojObject.visitProps (front ++ back) =
      MojObject.visitProps front ++ MojObject.visitProps back := by
  induction front with
  | nil => simp [MojObject.visitProps]
  | cons prop front ih => simp [MojObject.visitProps, ih]

theorem formatPut_ends (objects : List MojObject) (state : σ) :
    Ends (formatPut objects) state OneObject := by
  unfold formatPut
  apply Ends.bind_write
  apply (formatPutAll_ends objects state).bind
  intro after _ calls _ all
  rcases all with ⟨results, all⟩
  apply Ends.write
  exact ⟨resultsObject results [], by simp [resultsObject_visit, all, MojObject.visitProps]⟩

variable (db : MojDbCalls σ κ)

theorem handleDel_ends (payload : MojObject) (state : σ) :
    Ends (handleDel db payload) state fun next result calls =>
      OneObject next result calls ∨
        (calls = [] ∧ payload.get idsKey = none ∧ payload.get queryKey = none) := by
  unfold handleDel
  cases ids : payload.get idsKey with
  | some ids =>
    simp only
    split_ifs
    · exact Ends.bind_throw _
    · apply Ends.bind_call
      intro after deleted
      exact (formatPut_ends deleted after).mono fun _ _ _ one => Or.inl one
  | none =>
    cases query : payload.get queryKey with
    | some query =>
      apply Ends.bind_check
      intro query _
      apply Ends.bind_call
      intro after count
      exact (formatCount_ends count after).mono fun _ _ _ one => Or.inl one
    | none => exact Ends.pure (Or.inr ⟨rfl, rfl, rfl⟩)

theorem appendPage_ends (page : Option MojObject) (state : σ) :
    Ends (appendPage page) state fun _ _ calls =>
      ∃ props, calls = MojObject.visitProps props := by
  cases page with
  | some page => exact Ends.write ⟨[(nextKey, page)], by simp [MojObject.visitProps]⟩
  | none => exact Ends.pure ⟨[], rfl⟩

theorem appendCount_ends (cursor : κ) (doCount : Bool) (state : σ) :
    Ends (appendCount db cursor doCount) state fun _ _ calls =>
      ∃ props, calls = MojObject.visitProps props := by
  cases doCount with
  | true =>
    apply Ends.bind_call
    intro after count
    exact Ends.write ⟨[(countKey, .int (count.setWidth 64))], rfl⟩
  | false => exact Ends.pure ⟨[], rfl⟩

variable {payload : MojObject}

theorem findImpl_ends (search : Bool) (doCount : Bool) (state : σ)
    (unwatched : flag payload watchKey = false) :
    Ends (findImpl db search payload doCount) state OneObject := by
  unfold findImpl when
  rw [unwatched]
  apply Ends.bind_check
  intro query _
  rw [if_neg Bool.false_ne_true]
  apply Ends.bind_call
  intro opened cursor
  apply Ends.bind_write
  apply Ends.bind_call
  intro visited results
  apply Ends.bind_write
  apply Ends.bind_call
  intro paged page
  apply (appendPage_ends page paged).bind
  intro counted _ pageCalls _ paged
  rcases paged with ⟨pageProps, paged⟩
  apply (appendCount_ends db cursor doCount counted).bind
  intro closed _ countCalls _ counted
  rcases counted with ⟨countProps, counted⟩
  apply Ends.bind_write
  apply Ends.call
  intro _ _
  refine ⟨resultsObject results (pageProps ++ countProps), ?_⟩
  rw [resultsObject_visit, visitProps_append, paged, counted]
  simp

theorem handleGet_ends (payload : MojObject) (state : σ) :
    Ends (handleGet db payload) state OneObject := by
  unfold handleGet
  apply Ends.bind_check
  intro ids _
  apply Ends.bind_write
  apply Ends.bind_call
  intro after found
  apply Ends.write
  exact ⟨resultsObject found [], by simp [resultsObject_visit, MojObject.visitProps]⟩

theorem handleMerge_ends (payload : MojObject) (state : σ) :
    Ends (handleMerge db payload) state OneObject := by
  unfold handleMerge
  cases payload.get objectsKey with
  | some objects =>
    simp only
    split_ifs
    · exact Ends.bind_throw _
    · apply Ends.bind_call
      intro after merged
      exact formatPut_ends merged after
  | none =>
    cases payload.get queryKey with
    | some query =>
      apply Ends.bind_check
      intro props _
      split_ifs
      · exact Ends.bind_throw _
      · apply Ends.bind_check
        intro query _
        apply Ends.bind_call
        intro after count
        exact formatCount_ends count after
    | none => exact Ends.throw _

theorem handlePut_ends (payload : MojObject) (state : σ) :
    Ends (handlePut db payload) state OneObject := by
  unfold handlePut
  apply Ends.bind_check
  intro objects _
  apply Ends.bind_call
  intro after put
  exact formatPut_ends put after

/-- The checks a handler makes of its parameters before it calls the database. -/
def checkParams (fromObject : MojObject → Except MojErr MojDbQuery) :
    BatchMethod → MojObject → Except MojErr Unit
  | .del, params =>
    match params.get idsKey, params.get queryKey with
    | some _, some _ =>
      .error (.invalidArg "db: cannot have both an objects argument and a query argument")
    | some _, none => .ok ()
    | none, some query => (fromObject query).map fun _ => ()
    | none, none => .ok ()
  | .find, params => (findQuery fromObject params).map fun _ => ()
  | .get, params => (getRequired params idsKey).map fun _ => ()
  | .merge, params =>
    match params.get objectsKey, params.get queryKey with
    | some _, some _ =>
      .error (.invalidArg "db: cannot have both an objects param and a query param")
    | some _, none => .ok ()
    | none, some query => do
      let _ ← getRequired params propsKey
      if (params.get ignoreMissingKey).isSome then
        .error (.invalidArg "db: ignoreMissing - invalid option for merge query")
      else (fromObject query).map fun _ => ()
    | none, none =>
      .error (.invalidArg "db: either objects or query param required for merge")
  | .put, params => (getRequired params objectsKey).map fun _ => ()
  | .search, params => (findQuery fromObject params).map fun _ => ()

def refused (fromObject : MojObject → Except MojErr MojDbQuery) (payload op : MojObject) : Bool :=
  match readOperation payload op with
  | .error _ => true
  | .ok (method, params) => !(checkParams fromObject method params).isOk

def asksForWatch (payload op : MojObject) : Bool :=
  match readOperation payload op with
  | .ok (.find, params) => flag params watchKey
  | .ok (.search, params) => flag params watchKey
  | _ => false

def writesNothing (payload op : MojObject) : Bool :=
  match readOperation payload op with
  | .ok (.del, params) => (params.get idsKey).isNone && (params.get queryKey).isNone
  | _ => false

theorem handleOperation_ends {payload op : MojObject} (state : σ)
    (unwatched : asksForWatch payload op = false) :
    Ends (handleOperation db payload op) state fun next result calls =>
      OneObject next result calls ∨ (calls = [] ∧ writesNothing payload op = true) := by
  unfold handleOperation
  apply Ends.bind_check
  intro operation read
  rcases operation with ⟨method, params⟩
  unfold asksForWatch at unwatched
  rw [read] at unwatched
  cases method with
  | del =>
    apply (handleDel_ends db params state).mono
    intro next result calls ended
    rcases ended with one | ⟨none, noIds, noQuery⟩
    · exact Or.inl one
    · exact Or.inr ⟨none, by simp [writesNothing, read, noIds, noQuery]⟩
  | find =>
    exact (findImpl_ends db false _ state unwatched).mono fun _ _ _ one => Or.inl one
  | get => exact (handleGet_ends db params state).mono fun _ _ _ one => Or.inl one
  | merge => exact (handleMerge_ends db params state).mono fun _ _ _ one => Or.inl one
  | put => exact (handlePut_ends db params state).mono fun _ _ _ one => Or.inl one
  | search =>
    apply Ends.bind_call
    intro located _
    exact (findImpl_ends db true true located unwatched).mono fun _ _ _ one => Or.inl one

theorem Ends.fails {handling : Handling σ α} {state : σ}
    (ends : Ends handling state fun _ _ _ => False) : Fails handling state := by
  rcases ends with fails | ⟨_, _, _, _, impossible⟩
  · exact fails
  · exact impossible.elim

theorem callback_refused {method : BatchMethod} {params : MojObject} {err : MojErr} (state : σ)
    (checked : checkParams db.fromObject method params = .error err) :
    Ends (callback db method params) state fun _ _ _ => False := by
  have find : ∀ search doCount state, (findQuery db.fromObject params).map (fun _ => ()) =
      .error err → Ends (findImpl db search params doCount) state fun _ _ _ => False := by
    intro search doCount state checked
    unfold findImpl
    apply Ends.bind_check
    intro query found
    rw [found] at checked
    cases checked
  cases method with
  | del =>
    unfold callback handleDel
    unfold checkParams at checked
    cases ids : params.get idsKey <;> cases query : params.get queryKey <;>
      simp only [ids, query, Option.isSome] at checked ⊢
    · cases checked
    · apply Ends.bind_check
      intro query found
      rw [found] at checked
      cases checked
    · cases checked
    · exact Ends.bind_throw _
  | find => exact find false _ state checked
  | get =>
    apply Ends.bind_check
    intro ids found
    rw [checkParams, found] at checked
    cases checked
  | merge =>
    unfold callback handleMerge
    unfold checkParams at checked
    cases objects : params.get objectsKey <;> cases query : params.get queryKey <;>
      simp only [objects, query, Option.isSome] at checked ⊢
    · exact Ends.throw _
    · apply Ends.bind_check
      intro props found
      rw [found] at checked
      split_ifs with missing
      · exact Ends.bind_throw _
      · apply Ends.bind_check
        intro query read
        simp only [missing, read] at checked
        cases checked
    · cases checked
    · exact Ends.bind_throw _
  | put =>
    apply Ends.bind_check
    intro objects found
    rw [checkParams, found] at checked
    cases checked
  | search =>
    apply Ends.bind_call
    intro located _
    exact find true true located checked

theorem handleOperation_refused {payload op : MojObject} (state : σ)
    (refuses : refused db.fromObject payload op = true) :
    Fails (handleOperation db payload op) state := by
  apply Ends.fails
  unfold handleOperation
  apply Ends.bind_check
  intro operation read
  rcases operation with ⟨method, params⟩
  unfold refused at refuses
  rw [read] at refuses
  cases checked : checkParams db.fromObject method params with
  | error err => exact callback_refused db state checked
  | ok _ => simp [checked, Except.isOk, Except.toBool] at refuses

inductive Answered (db : MojDbCalls σ κ) (payload : MojObject) :
    List MojObject → σ → List MojObject → σ → Prop
  | nil (state : σ) : Answered db payload [] state [] state
  | cons {op : MojObject} {ops : List MojObject} {state next final : σ} {entry : MojObject}
      {entries : List MojObject} {message : MojServiceMessage}
      (alone : handleOperation db payload op (state, MojServiceMessage.create) =
        .ok () (next, message))
      (text : message.writer.json = entry.json)
      (onward : Answered db payload ops next entries final) :
      Answered db payload (op :: ops) state (entry :: entries) final

def batchReply (entries : List MojObject) : MojObject :=
  .object [(MojServiceMessage.returnValueKey, .bool true), (responsesKey, .array entries)]

def operations (payload : MojObject) : List MojObject :=
  vals ((payload.get operationsKey).getD .null)

/-- The message is replied to once, with one object, and if the batch succeeded, this object has one
response for each operation. -/
def OneReply (db : MojDbCalls σ κ) (errText : MojErr → MojInt64 × MojString) (payload : MojObject)
    (state : σ) : Prop :=
  ∃ value after, dispatchRequest db errText payload (state, MojServiceMessage.create) =
      .ok () after ∧ after.2.replies = [value.json] ∧
    ((∃ done, invoke db payload (state, MojServiceMessage.create) = .ok () done) →
      ∃ before entries final, Answered db payload (operations payload) before entries final ∧
        value = batchReply entries)

def reached (fromObject : MojObject → Except MojErr MojDbQuery) (payload : MojObject) :
    List MojObject :=
  (operations payload).takeWhile fun op => !refused fromObject payload op

/-- No find that is reached asks for a watch, and unless an operation is refused, each del has ids
or a query. -/
structure Sound (fromObject : MojObject → Except MojErr MojDbQuery) (payload : MojObject) :
    Prop where
  unwatched : ∀ op ∈ reached fromObject payload, asksForWatch payload op = false
  written : reached fromObject payload = operations payload →
    ∀ op ∈ operations payload, writesNothing payload op = false

theorem handleOperations_answered {ops : List MojObject} (state : σ)
    (unwatched : ∀ op ∈ ops, asksForWatch payload op = false)
    (written : ∀ op ∈ ops, writesNothing payload op = false) :
    Ends (handleOperations db payload ops) state fun next _ calls =>
      ∃ entries, Answered db payload ops state entries next ∧
        calls = MojObject.visitVals entries := by
  induction ops generalizing state with
  | nil => exact Ends.pure ⟨[], Answered.nil state, rfl⟩
  | cons op ops ih =>
    rw [handleOperations]
    apply (handleOperation_ends db state (unwatched op List.mem_cons_self)).bind
    intro next _ calls alone one
    rcases one with one | ⟨_, nothing⟩
    · rcases one with ⟨entry, one⟩
      apply (ih next (fun other member => unwatched other (List.mem_cons_of_mem op member))
        (fun other member => written other (List.mem_cons_of_mem op member))).mono
      intro final _ later rest
      rcases rest with ⟨entries, answered, rest⟩
      refine ⟨entry :: entries, Answered.cons (alone MojServiceMessage.create) ?_ answered, ?_⟩
      · rw [one]
        simp [MojServiceMessage.write, MojServiceMessage.create, MojJsonWriter.write_visit,
          MojJsonWriter.append, MojJsonWriter.create, separator]
      · rw [one, rest, MojObject.visitVals]
    · rw [written op List.mem_cons_self] at nothing
      cases nothing

theorem handleOperations_refused {ops : List MojObject} (state : σ)
    (unwatched : ∀ op ∈ ops.takeWhile fun op => !refused db.fromObject payload op,
      asksForWatch payload op = false)
    (stops : (ops.takeWhile fun op => !refused db.fromObject payload op) ≠ ops) :
    Fails (handleOperations db payload ops) state := by
  induction ops generalizing state with
  | nil => exact absurd rfl stops
  | cons op ops ih =>
    rw [handleOperations]
    cases refuses : refused db.fromObject payload op with
    | true => exact (handleOperation_refused db state refuses).bind _
    | false =>
      rw [List.takeWhile_cons_of_pos (by simp [refuses])] at unwatched stops
      rcases handleOperation_ends db state (unwatched op List.mem_cons_self) with
        fails | ⟨next, result, calls, writes, _⟩
      · exact fails.bind _
      · apply writes.bind_fails
        apply ih next fun other member => unwatched other (List.mem_cons_of_mem op member)
        intro same
        exact stops (congrArg (op :: ·) same)

theorem handleBatch_ends (state : σ) (sound : Sound db.fromObject payload) :
    Ends (handleBatch db payload) state fun next _ calls =>
      ∃ entries, Answered db payload (operations payload) state entries next ∧
        calls = (batchReply entries).visit := by
  unfold handleBatch
  apply Ends.bind_check
  intro held found
  apply Ends.bind_write
  have named : operations payload = vals held := by
    unfold operations
    unfold getRequired at found
    cases got : payload.get operationsKey with
    | none => simp [got] at found
    | some ops =>
      rw [got] at found
      cases found
      rfl
  rw [← named]
  by_cases whole : reached db.fromObject payload = operations payload
  · apply (handleOperations_answered db state (whole ▸ sound.unwatched)
      (sound.written whole)).bind
    intro next _ calls _ all
    rcases all with ⟨entries, answered, all⟩
    apply Ends.write
    refine ⟨entries, answered, ?_⟩
    simp [all, batchReply, MojObject.visit, MojObject.visitProps]
  · exact Or.inl ((handleOperations_refused db state sound.unwatched whole).bind _)

theorem invokeImpl_ends (state : σ) (sound : Sound db.fromObject payload) :
    Ends (invokeImpl db payload) state fun _ _ calls =>
      ∃ before entries next, Answered db payload (operations payload) before entries next ∧
        calls = (batchReply entries).visit := by
  unfold invokeImpl
  apply Ends.bind_call
  intro begun _
  apply (handleBatch_ends db begun sound).bind
  intro next _ calls _ all
  rcases all with ⟨entries, answered, all⟩
  apply Ends.call
  intro _ _
  exact ⟨begun, entries, next, answered, by rw [all, List.append_nil]⟩

structure Pending (message : MojServiceMessage) (text : List JsonToken) : Prop where
  unsent : message.replies = []
  text : message.writer.json = text

theorem create_write (obj : MojObject) {message : MojServiceMessage}
    (fresh : message.writer = MojJsonWriter.create) :
    (message.write obj.visit).writer.json = obj.json := by
  unfold MojServiceMessage.write
  rw [fresh, MojJsonWriter.write_visit]
  simp [MojJsonWriter.append, MojJsonWriter.create, separator]

/-- Attempts that fail send nothing, and the one that succeeds leaves the whole reply in the
writer. -/
theorem invokeLoop_pending (db : MojDbCalls σ κ) {payload : MojObject}
    (sound : Sound db.fromObject payload) (left retries : Nat) (state : σ)
    {message : MojServiceMessage} (fresh : message.writer = MojJsonWriter.create)
    (unsent : message.replies = []) :
    (∃ err after, invokeLoop db payload left retries (state, message) = .error err after ∧
      after.2.replies = []) ∨
    (∃ after before entries next,
      invokeLoop db payload left retries (state, message) = .ok () after ∧
      Answered db payload (operations payload) before entries next ∧
      Pending after.2 (batchReply entries).json) := by
  induction left generalizing retries state message with
  | zero => exact Or.inl ⟨_, (state, message), rfl, unsent⟩
  | succ left ih =>
    simp only [invokeLoop]
    rcases invokeImpl_ends db state sound with fails | ⟨next, _, calls, writes, whole⟩
    · rcases fails with ⟨next, err, fails⟩
      rcases fails message with ⟨message', failed, same⟩
      rw [failed]
      have still := same.trans unsent
      simp only
      split_ifs
      · exact Or.inl ⟨_, (next, message'), rfl, still⟩
      · exact ih (retries + 1) next rfl still
      · exact Or.inl ⟨_, (next, message'), rfl, still⟩
      · exact ih (retries + 1) next rfl still
      · exact Or.inl ⟨err, (next, message'), rfl, still⟩
    · rcases whole with ⟨before, entries, final, answered, all⟩
      refine Or.inr ⟨(next, message.write calls), before, entries, final, ?_, answered, ?_⟩
      · rw [writes message]
      · rw [all]
        exact ⟨unsent, create_write _ fresh⟩

theorem oneReply_of_sound (errText : MojErr → MojInt64 × MojString) (state : σ)
    (sound : Sound db.fromObject payload) : OneReply db errText payload state := by
  unfold OneReply dispatchRequest invoke
  rcases @invokeLoop_pending σ κ db payload sound maxDeadlockRetries 0 state
    MojServiceMessage.create rfl rfl with
    ⟨err, after, failed, unsent⟩ | ⟨after, before, entries, next, done, answered, pending⟩
  · rw [failed]
    rcases after.2.replyError_ok (errText err).1 (errText err).2 with ⟨last, replied, sent⟩
    rw [unsent, List.nil_append] at sent
    refine ⟨MojServiceMessage.errorObject (errText err).1 (errText err).2, (after.1, last), ?_,
      sent, ?_⟩
    · simp only [conclude, MojServiceMessage.numReplies, unsent, List.length_nil, if_pos, send,
        replied]
    · intro succeeded
      rcases succeeded with ⟨done, impossible⟩
      cases impossible
  · rw [done]
    have data : after.2.hasData = true := by
      unfold MojServiceMessage.hasData
      rw [pending.text]
      cases text : (batchReply entries).json with
      | nil => exact absurd text (MojObject.json_ne_nil _)
      | cons token rest => rfl
    rcases MojServiceMessage.reply_of_data data with ⟨last, replied⟩
    have sent := MojServiceMessage.reply_ok replied
    rw [pending.unsent, pending.text, List.nil_append] at sent
    refine ⟨batchReply entries, (after.1, last), ?_, sent, fun _ =>
      ⟨before, entries, next, answered, rfl⟩⟩
    simp only [conclude, MojServiceMessage.numReplies, pending.unsent, List.length_nil, data,
      and_self, if_pos, send, replied]

end Db8.Luna.MojDbServiceHandler
