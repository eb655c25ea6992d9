import Db8.Db.QueryObject
import Db8.Luna.Responses
import Mathlib.Data.List.TakeWhile

/-!
# One reply to a batch

Over a database that accepts every call, a find that asks for a watch sends the part of the batch
that is written by then, where two levels are still open, and a del with neither ids nor a query
leaves the responses short of one. So the batches that are replied to as they should be, whatever
the database does, are those without the two.
-/

set_option autoImplicit false

namespace Db8.Luna.MojDbServiceHandler

open Db8.Core
open Db8.Db
open Db8.Db.MojDbIsamQuery

variable {σ κ α β : Type}

variable (db : MojDbCalls σ κ)

theorem findImpl_keeps (search : Bool) (payload : MojObject)
    (doCount : Bool) : Keeps (findImpl db search payload doCount) := by
  have notified : ∀ message after, MojServiceMessage.notifyCancel message = .ok after →
      message.replies <+: after.replies := by
    intro message after notified
    unfold MojServiceMessage.notifyCancel mojAssert at notified
    split_ifs at notified <;> cases notified
    exact List.prefix_rfl
  have replied : ∀ message after, MojServiceMessage.reply message = .ok after →
      message.replies <+: after.replies := by
    intro message after replied
    rw [MojServiceMessage.reply_ok replied]
    exact List.prefix_append _ _
  apply (Keeps.check _).bind
  intro query
  apply (Keeps.when _ (Keeps.send notified)).bind
  intro _
  apply (Keeps.call _).bind
  intro cursor
  apply (Keeps.write _).bind
  intro _
  apply (Keeps.call _).bind
  intro results
  apply (Keeps.write _).bind
  intro _
  apply (Keeps.call _).bind
  intro page
  apply (Keeps.of_ends (appendPage_ends page)).bind
  intro _
  apply (Keeps.of_ends (appendCount_ends db cursor doCount)).bind
  intro _
  apply (Keeps.write _).bind
  intro _
  apply (Keeps.when _ (Keeps.send replied)).bind
  intro _
  exact Keeps.call _

theorem handleOperation_keeps (payload op : MojObject) : Keeps (handleOperation db payload op) := by
  apply (Keeps.check _).bind
  intro operation
  rcases operation with ⟨method, params⟩
  cases method with
  | del => exact Keeps.of_ends (handleDel_ends db params)
  | find => exact findImpl_keeps db false params _
  | get => exact Keeps.of_ends (handleGet_ends db params)
  | merge => exact Keeps.of_ends (handleMerge_ends db params)
  | put => exact Keeps.of_ends (handlePut_ends db params)
  | search => exact (Keeps.call _).bind fun _ => findImpl_keeps db true params true

theorem handleOperations_keeps (payload : MojObject)
    (ops : List MojObject) : Keeps (handleOperations db payload ops) := by
  induction ops with
  | nil => exact Keeps.pure ()
  | cons op ops ih => exact (handleOperation_keeps db payload op).bind fun _ => ih

def obliging (fromObject : MojObject → Except MojErr MojDbQuery) (cursor : κ) :
    MojDbCalls σ κ where
  fromObject := fromObject
  beginBatch state := (state, .ok ())
  endBatch state := (state, .ok ())
  del _ _ state := (state, .ok [])
  delQuery _ _ state := (state, .ok 0)
  get _ state := (state, .ok [])
  merge _ _ state := (state, .ok [])
  mergeQuery _ _ state := (state, .ok 0)
  put _ state := (state, .ok [])
  getLocale state := (state, .ok [])
  find _ _ _ state := (state, .ok cursor)
  visit _ state := (state, .ok [])
  nextPage _ state := (state, .ok none)
  count _ state := (state, .ok 0)
  close _ state := (state, .ok ())

section Obliging

variable {fromObject : MojObject → Except MojErr MojDbQuery} {cursor : κ}

def nothingFound (doCount : Bool) : MojObject :=
  resultsObject [] (if doCount then [(countKey, .int 0)] else [])

theorem findImpl_obliging (search : Bool) {params : MojObject} (doCount : Bool) (state : σ)
    (message : MojServiceMessage) {query : MojDbQuery}
    (found : findQuery fromObject params = .ok query)
    (unwatched : flag params watchKey = false) :
    findImpl (obliging fromObject cursor : MojDbCalls σ κ) search params doCount (state, message) =
      .ok () (state, message.write (nothingFound doCount).visit) := by
  cases doCount <;>
    simp [findImpl, bind_apply, check, call, write, when, obliging, found, unwatched, appendPage,
      appendCount, nothingFound, resultsObject_visit, MojObject.visitVals, MojObject.visitProps,
      MojObject.visit, MojServiceMessage.write, pure, EStateM.pure]

theorem findImpl_watched (search : Bool) {params : MojObject} (doCount : Bool) (state : σ)
    {message : MojServiceMessage} {query : MojDbQuery}
    (found : findQuery fromObject params = .ok query) (watched : flag params watchKey = true)
    (unsent : message.replies = []) :
    ∃ after, findImpl (obliging fromObject cursor : MojDbCalls σ κ) search params doCount
        (state, message) = .ok () (state, after) ∧
      after.replies = [(message.write (nothingFound doCount).visit).writer.json] := by
  let connected : MojServiceMessage := { message with cancelConnected := true }
  have notified : message.notifyCancel = .ok connected := by
    simp [MojServiceMessage.notifyCancel, MojServiceMessage.numReplies, unsent, mojAssert,
      connected]
    rfl
  have data : (connected.write (nothingFound doCount).visit).hasData = true := by
    unfold MojServiceMessage.hasData MojServiceMessage.write
    rw [MojJsonWriter.write_visit]
    cases text : (nothingFound doCount).json with
    | nil => exact absurd text (MojObject.json_ne_nil _)
    | cons token rest => simp [MojJsonWriter.append]
  rcases MojServiceMessage.reply_of_data data with ⟨after, replied⟩
  have sent := MojServiceMessage.reply_ok replied
  rw [MojServiceMessage.write_replies, show connected.replies = [] from unsent] at sent
  refine ⟨after, ?_, sent⟩
  cases doCount <;>
    simp_all [findImpl, bind_apply, check, call, write, send, when, obliging, appendPage,
      appendCount, nothingFound, resultsObject_visit, MojObject.visitVals, MojObject.visitProps,
      MojObject.visit, MojServiceMessage.write, pure, EStateM.pure]

theorem findQuery_of_checked {params : MojObject}
    (checked : ((findQuery fromObject params).map fun _ => ()) = .ok ()) :
    ∃ query, findQuery fromObject params = .ok query := by
  cases found : findQuery fromObject params with
  | error err => simp [found, Except.map] at checked
  | ok query => exact ⟨query, rfl⟩

theorem callback_obliging {method : BatchMethod} {params : MojObject}
    (checked : checkParams fromObject method params = .ok ())
    (unwatched : method = .find ∨ method = .search → flag params watchKey = false) (state : σ)
    (message : MojServiceMessage) :
    ∃ after, callback (obliging fromObject cursor : MojDbCalls σ κ) method params
      (state, message) = .ok () after := by
  cases method with
  | del =>
    unfold checkParams at checked
    unfold callback handleDel
    cases ids : params.get idsKey <;> cases query : params.get queryKey <;>
      simp only [ids, query] at checked ⊢
    · exact ⟨_, rfl⟩
    · rename_i queryObj
      cases read : fromObject queryObj with
      | error err => simp [read, Except.map] at checked
      | ok query => exact ⟨_, by simp [bind_apply, check, call, obliging, read]; rfl⟩
    · exact ⟨_, rfl⟩
    · cases checked
  | find =>
    rcases findQuery_of_checked checked with ⟨query, found⟩
    exact ⟨_, findImpl_obliging false _ state message found (unwatched (Or.inl rfl))⟩
  | get =>
    unfold checkParams at checked
    cases ids : getRequired params idsKey with
    | error err => simp [ids, Except.map] at checked
    | ok ids => exact ⟨_, by simp [callback, handleGet, bind_apply, check, ids]; rfl⟩
  | merge =>
    unfold checkParams at checked
    unfold callback handleMerge
    cases objects : params.get objectsKey <;> cases query : params.get queryKey <;>
      simp only [objects, query] at checked ⊢
    · cases checked
    · rename_i queryObj
      cases props : getRequired params propsKey with
      | error err =>
        rw [props] at checked
        cases checked
      | ok props' =>
        rw [props] at checked
        cases missing : params.get ignoreMissingKey with
        | some _ =>
          rw [missing] at checked
          cases checked
        | none =>
          rw [missing] at checked
          cases read : fromObject queryObj with
          | error err =>
            rw [read] at checked
            cases checked
          | ok query =>
            exact ⟨_, by simp [bind_apply, check, call, obliging, read]; rfl⟩
    · exact ⟨_, rfl⟩
    · cases checked
  | put =>
    unfold checkParams at checked
    cases objects : getRequired params objectsKey with
    | error err => simp [objects, Except.map] at checked
    | ok objects => exact ⟨_, by simp [callback, handlePut, bind_apply, check, objects]; rfl⟩
  | search =>
    rcases findQuery_of_checked checked with ⟨query, found⟩
    exact ⟨_, findImpl_obliging true true state message found (unwatched (Or.inr rfl))⟩

theorem read_of_accepted {payload op : MojObject} (accepted : refused fromObject payload op = false) :
    ∃ method params, readOperation payload op = .ok (method, params) ∧
      checkParams fromObject method params = .ok () := by
  unfold refused at accepted
  cases read : readOperation payload op with
  | error err => simp [read] at accepted
  | ok operation =>
    rcases operation with ⟨method, params⟩
    rw [read] at accepted
    cases checked : checkParams fromObject method params with
    | error err => simp [checked, Except.isOk, Except.toBool] at accepted
    | ok _ => exact ⟨method, params, rfl, checked⟩

theorem handleOperation_obliging {payload op : MojObject} (state : σ)
    (accepted : refused fromObject payload op = false)
    (unwatched : asksForWatch payload op = false) :
    ∃ next calls, Writes (handleOperation (obliging fromObject cursor : MojDbCalls σ κ) payload op)
        state next () calls ∧
      (OneObject next () calls ∨ (calls = [] ∧ writesNothing payload op = true)) := by
  rcases read_of_accepted accepted with ⟨method, params, read, checked⟩
  rcases handleOperation_ends (obliging fromObject cursor : MojDbCalls σ κ) state unwatched with
    fails | ⟨next, _, calls, writes, met⟩
  · rcases fails with ⟨next, err, fails⟩
    rcases fails MojServiceMessage.create with ⟨left, failed, _⟩
    have unasked : method = .find ∨ method = .search → flag params watchKey = false := by
      intro looks
      unfold asksForWatch at unwatched
      rw [read] at unwatched
      rcases looks with find | search
      · rw [find] at unwatched
        exact unwatched
      · rw [search] at unwatched
        exact unwatched
    rcases @callback_obliging σ κ fromObject cursor method params checked unasked state
      MojServiceMessage.create with ⟨after, succeeded⟩
    unfold handleOperation at failed
    rw [read, bind_apply] at failed
    exact nomatch failed.symm.trans succeeded
  · exact ⟨next, calls, writes, met⟩

theorem handleOperation_watched {payload op : MojObject} (state : σ) {message : MojServiceMessage}
    (accepted : refused fromObject payload op = false) (watched : asksForWatch payload op = true)
    (unsent : message.replies = []) :
    ∃ after entry, handleOperation (obliging fromObject cursor : MojDbCalls σ κ) payload op
        (state, message) = .ok () (state, after) ∧
      after.replies = [(message.write (MojObject.visit entry)).writer.json] := by
  rcases read_of_accepted accepted with ⟨method, params, read, checked⟩
  unfold asksForWatch at watched
  rw [read] at watched
  unfold handleOperation
  rw [read]
  cases method with
  | find =>
    rcases findQuery_of_checked checked with ⟨query, found⟩
    rcases @findImpl_watched σ κ fromObject cursor false params (flag params countKey) state
      message query found watched unsent with ⟨after, ran, sent⟩
    exact ⟨after, _, ran, sent⟩
  | search =>
    rcases findQuery_of_checked checked with ⟨query, found⟩
    rcases @findImpl_watched σ κ fromObject cursor true params true state message query found
      watched unsent with ⟨after, ran, sent⟩
    exact ⟨after, _, ran, sent⟩
  | del => cases watched
  | get => cases watched
  | merge => cases watched
  | put => cases watched

def SentOpen (level : Int) (message : MojServiceMessage) : Prop :=
  ∃ text, JsonToken.depth text = level ∧ [text] <+: message.replies

theorem depth_write (message : MojServiceMessage) (entry : MojObject) :
    JsonToken.depth (message.write entry.visit).writer.json =
      JsonToken.depth message.writer.json := by
  simp [MojServiceMessage.write, MojJsonWriter.write_visit, MojJsonWriter.append,
    JsonToken.depth_json]

theorem handleOperations_watched {payload : MojObject} {ops : List MojObject} (state : σ)
    {message : MojServiceMessage} (unsent : message.replies = [])
    (watched : ∃ op ∈ ops.takeWhile fun op => !refused fromObject payload op,
      asksForWatch payload op = true) :
    SentOpen (JsonToken.depth message.writer.json)
      (messageOf (handleOperations (obliging fromObject cursor : MojDbCalls σ κ) payload ops
        (state, message))) := by
  induction ops generalizing state message with
  | nil =>
    rcases watched with ⟨op, member, _⟩
    cases member
  | cons op ops ih =>
    rcases watched with ⟨asking, member, watched⟩
    have accepted : refused fromObject payload op = false := by
      cases refuses : refused fromObject payload op with
      | false => rfl
      | true =>
        rw [List.takeWhile_cons_of_neg (by simp [refuses])] at member
        cases member
    rw [List.takeWhile_cons_of_pos (by simp [accepted])] at member
    rw [handleOperations, bind_apply]
    cases own : asksForWatch payload op with
    | true =>
      rcases @handleOperation_watched σ κ fromObject cursor payload op state message accepted
        own unsent with ⟨after, entry, ran, sent⟩
      rw [ran]
      have kept := handleOperations_keeps (obliging fromObject cursor : MojDbCalls σ κ) payload
        ops (state, after)
      rw [sent] at kept
      exact ⟨_, depth_write message entry, kept⟩
    | false =>
      rcases @handleOperation_obliging σ κ fromObject cursor payload op state accepted own with
        ⟨next, calls, writes, met⟩
      have later : asking ∈ ops.takeWhile fun op => !refused fromObject payload op := by
        rcases List.mem_cons.mp member with first | rest
        · rw [first, own] at watched
          cases watched
        · exact rest
      have rest := @ih next (message.write calls) unsent ⟨asking, later, watched⟩
      have level : JsonToken.depth (message.write calls).writer.json =
          JsonToken.depth message.writer.json := by
        rcases met with one | ⟨none, _⟩
        · rcases one with ⟨entry, one⟩
          rw [one, depth_write]
        · rw [none]
          rfl
      rw [level] at rest
      rw [writes message]
      exact rest

theorem SentOpen.keeps {level : Int} {handling : Handling σ α} {before : σ × MojServiceMessage}
    (sent : SentOpen level before.2) (keeps : Keeps handling) :
    SentOpen level (messageOf (handling before)) := by
  rcases sent with ⟨text, depth, sent⟩
  exact ⟨text, depth, sent.trans (keeps before)⟩

theorem SentOpen.bind {level : Int} {first : Handling σ α} {next : α → Handling σ β}
    {before : σ × MojServiceMessage} (sent : SentOpen level (messageOf (first before)))
    (keeps : ∀ result, Keeps (next result)) :
    SentOpen level (messageOf ((first >>= next) before)) := by
  rw [bind_apply]
  cases ran : first before with
  | error err after =>
    rw [ran] at sent
    exact sent
  | ok result after =>
    rw [ran] at sent
    exact SentOpen.keeps sent (keeps result)

theorem operations_of_member {payload op : MojObject} (member : op ∈ operations payload) :
    ∃ held, getRequired payload operationsKey = .ok held ∧ operations payload = vals held := by
  unfold operations at member ⊢
  unfold getRequired
  cases got : payload.get operationsKey with
  | none => simp [got, vals] at member
  | some held => exact ⟨held, rfl, rfl⟩

theorem invokeImpl_watched {payload : MojObject} (state : σ)
    (watched : ∃ op ∈ reached fromObject payload, asksForWatch payload op = true) :
    SentOpen 2 (messageOf (invokeImpl (obliging fromObject cursor : MojDbCalls σ κ) payload
      (state, MojServiceMessage.create))) := by
  rcases watched with ⟨op, member, watched⟩
  have listed : op ∈ operations payload := (List.takeWhile_sublist _).subset member
  rcases operations_of_member listed with ⟨held, found, named⟩
  have begun := @handleOperations_watched σ κ fromObject cursor payload (vals held) state
    (MojServiceMessage.create.write [.beginObject, .propName MojServiceMessage.returnValueKey,
      .boolValue true, .propName responsesKey, .beginArray]) rfl
    ⟨op, by rw [← named]; exact member, watched⟩
  have batched : SentOpen 2 (messageOf (handleBatch (obliging fromObject cursor : MojDbCalls σ κ)
      payload (state, MojServiceMessage.create))) := by
    unfold handleBatch
    rw [found]
    have whole := SentOpen.bind begun fun _ => Keeps.write [.endArray, .endObject]
    exact whole
  have whole := SentOpen.bind batched fun _ =>
    Keeps.call (obliging fromObject cursor : MojDbCalls σ κ).endBatch
  exact whole

theorem invokeImpl_keeps (db : MojDbCalls σ κ) (payload : MojObject) :
    Keeps (invokeImpl db payload) := by
  apply (Keeps.call _).bind
  intro _
  apply Keeps.bind _ fun _ => Keeps.call _
  apply (Keeps.check _).bind
  intro operations
  apply (Keeps.write _).bind
  intro _
  exact (handleOperations_keeps db payload _).bind fun _ => Keeps.write _

theorem invokeLoop_keeps (db : MojDbCalls σ κ) (payload : MojObject) (left retries : Nat) :
    Keeps (invokeLoop db payload left retries) := by
  induction left generalizing retries with
  | zero => exact Keeps.throw _
  | succ left ih =>
    intro before
    have tried := invokeImpl_keeps db payload before
    simp only [invokeLoop]
    cases ran : invokeImpl db payload before with
    | ok result after =>
      rw [ran] at tried
      exact tried
    | error err after =>
      rw [ran] at tried
      rcases after with ⟨state, message⟩
      have again := tried.trans (ih (retries + 1) (state, message.resetWriter))
      simp only
      split_ifs
      · exact tried
      · exact again
      · exact tried
      · exact again
      · exact tried

theorem invokeLoop_watched (left : Nat) {payload : MojObject} (state : σ)
    (watched : ∃ op ∈ reached fromObject payload, asksForWatch payload op = true) :
    SentOpen 2 (messageOf (invokeLoop (obliging fromObject cursor : MojDbCalls σ κ) payload
      (left + 1) 0 (state, MojServiceMessage.create))) := by
  have first := @invokeImpl_watched σ κ fromObject cursor payload state watched
  simp only [invokeLoop]
  cases ran : invokeImpl (obliging fromObject cursor : MojDbCalls σ κ) payload
      (state, MojServiceMessage.create) with
  | ok result after =>
    rw [ran] at first
    exact first
  | error err after =>
    rw [ran] at first
    rcases after with ⟨next, message⟩
    have again : SentOpen 2 (messageOf (invokeLoop (obliging fromObject cursor :
        MojDbCalls σ κ) payload left (0 + 1) (next, message.resetWriter))) :=
      SentOpen.keeps first (invokeLoop_keeps _ payload left (0 + 1))
    simp only
    split_ifs
    · exact first
    · exact again
    · exact first
    · exact again
    · exact first

theorem conclude_keeps (errText : MojErr → MojInt64 × MojString) (reqErr : Option MojErr) :
    Keeps (conclude errText reqErr : Handling σ Unit) := by
  have replied : ∀ message after, MojServiceMessage.reply message = .ok after →
      message.replies <+: after.replies := by
    intro message after replied
    rw [MojServiceMessage.reply_ok replied]
    exact List.prefix_append _ _
  intro before
  unfold conclude
  cases reqErr with
  | none =>
    simp only
    split_ifs
    · exact Keeps.send replied before
    · exact List.prefix_rfl
  | some err =>
    simp only
    split_ifs
    · apply Keeps.send _ before
      intro message after failed
      exact replied (message.resetWriter.write _) after failed
    · exact List.prefix_rfl

theorem dispatchRequest_watched {errText : MojErr → MojInt64 × MojString} {payload : MojObject}
    (state : σ) (watched : ∃ op ∈ reached fromObject payload, asksForWatch payload op = true) :
    SentOpen 2 (messageOf (dispatchRequest (obliging fromObject cursor : MojDbCalls σ κ) errText
      payload (state, MojServiceMessage.create))) := by
  have invoked : SentOpen 2 (messageOf (invoke (obliging fromObject cursor : MojDbCalls σ κ) payload
      (state, MojServiceMessage.create))) := invokeLoop_watched 19 state watched
  unfold dispatchRequest
  cases ran : invoke (obliging fromObject cursor : MojDbCalls σ κ) payload
      (state, MojServiceMessage.create) with
  | ok result after =>
    rw [ran] at invoked
    exact SentOpen.keeps invoked (conclude_keeps errText none)
  | error err after =>
    rw [ran] at invoked
    exact SentOpen.keeps invoked (conclude_keeps errText (some err))

theorem not_oneReply_of_watched {errText : MojErr → MojInt64 × MojString} {payload : MojObject}
    (state : σ) (watched : ∃ op ∈ reached fromObject payload, asksForWatch payload op = true) :
    ¬ OneReply (obliging fromObject cursor : MojDbCalls σ κ) errText payload state := by
  intro one
  rcases one with ⟨value, after, ran, sent, _⟩
  rcases @dispatchRequest_watched σ κ fromObject cursor errText payload state watched with
    ⟨text, level, first⟩
  rw [ran] at first
  have same : [text] <+: [value.json] := sent ▸ first
  have texts : text = value.json := by
    rcases same with ⟨rest, same⟩
    exact (List.cons.inj same).1
  rw [texts, JsonToken.depth_json] at level
  cases level

theorem handleOperations_obliging {payload : MojObject} {ops : List MojObject} (state : σ)
    (accepted : ∀ op ∈ ops, refused fromObject payload op = false)
    (unwatched : ∀ op ∈ ops, asksForWatch payload op = false) :
    ∃ next calls, Writes (handleOperations (obliging fromObject cursor : MojDbCalls σ κ) payload ops)
      state next () calls := by
  induction ops generalizing state with
  | nil => exact ⟨state, [], fun _ => rfl⟩
  | cons op ops ih =>
    rcases @handleOperation_obliging σ κ fromObject cursor payload op state
      (accepted op List.mem_cons_self) (unwatched op List.mem_cons_self) with
      ⟨middle, calls, writes, _⟩
    rcases ih middle (fun other member => accepted other (List.mem_cons_of_mem op member))
      (fun other member => unwatched other (List.mem_cons_of_mem op member)) with
      ⟨next, later, rest⟩
    exact ⟨next, calls ++ later, writes.bind rest⟩

theorem invoke_obliging {payload op : MojObject} (state : σ) (listed : op ∈ operations payload)
    (accepted : ∀ op ∈ operations payload, refused fromObject payload op = false)
    (unwatched : ∀ op ∈ operations payload, asksForWatch payload op = false) :
    ∃ done, invoke (obliging fromObject cursor : MojDbCalls σ κ) payload
      (state, MojServiceMessage.create) = .ok () done := by
  rcases operations_of_member listed with ⟨held, found, named⟩
  rw [named] at accepted unwatched
  rcases @handleOperations_obliging σ κ fromObject cursor payload (vals held) state accepted
    unwatched with ⟨next, calls, writes⟩
  have batched : ∃ calls, Writes (handleBatch (obliging fromObject cursor : MojDbCalls σ κ) payload)
      state next () calls := by
    unfold handleBatch
    rw [found]
    have checked : Writes (check (.ok held) : Handling σ MojObject) state state held [] :=
      fun _ => rfl
    have begun : Writes (write [.beginObject, .propName MojServiceMessage.returnValueKey,
        .boolValue true, .propName responsesKey, .beginArray] : Handling σ Unit) state state () _ :=
      fun _ => rfl
    have ended : Writes (write [.endArray, .endObject] : Handling σ Unit) next next () _ :=
      fun _ => rfl
    exact ⟨_, checked.bind (begun.bind (writes.bind ended))⟩
  rcases batched with ⟨written, batched⟩
  have beginning : Writes (call (obliging fromObject cursor : MojDbCalls σ κ).beginBatch)
      state state () [] := fun _ => rfl
  have ending : Writes (call (obliging fromObject cursor : MojDbCalls σ κ).endBatch)
      next next () [] := fun _ => rfl
  have whole : Writes (invokeImpl (obliging fromObject cursor : MojDbCalls σ κ) payload) state next ()
      ([] ++ (written ++ [])) := by
    apply Writes.bind beginning
    apply Writes.bind batched
    exact ending
  refine ⟨(next, MojServiceMessage.create.write ([] ++ (written ++ []))), ?_⟩
  unfold invoke
  rw [show maxDeadlockRetries = 19 + 1 from rfl, invokeLoop]
  simp only [whole MojServiceMessage.create]

end Obliging

theorem Answered.alone {db : MojDbCalls σ κ} {payload : MojObject} {ops entries : List MojObject}
    {state final : σ} (answered : Answered db payload ops state entries final) {op : MojObject}
    (member : op ∈ ops) :
    ∃ before next message, handleOperation db payload op (before, MojServiceMessage.create) =
      .ok () (next, message) ∧ message.writer.json ≠ [] := by
  induction answered with
  | nil => cases member
  | @cons first ops state next final entry entries message alone text onward ih =>
    rcases List.mem_cons.mp member with same | rest
    · rw [same]
      exact ⟨state, next, message, alone, text ▸ MojObject.json_ne_nil entry⟩
    · exact ih rest

theorem handleOperation_nothing {payload op : MojObject} (before : σ × MojServiceMessage)
    (nothing : writesNothing payload op = true) :
    handleOperation db payload op before = .ok () before := by
  unfold writesNothing at nothing
  unfold handleOperation
  cases read : readOperation payload op with
  | error err => simp [read] at nothing
  | ok operation =>
    rcases operation with ⟨method, params⟩
    rw [read] at nothing
    cases method with
    | del =>
      simp only [Bool.and_eq_true, Option.isNone_iff_eq_none] at nothing
      rw [bind_apply]
      simp only [check, callback, handleDel, nothing.1, nothing.2]
      rfl
    | find => cases nothing
    | get => cases nothing
    | merge => cases nothing
    | put => cases nothing
    | search => cases nothing

theorem not_oneReply_of_nothing {fromObject : MojObject → Except MojErr MojDbQuery} {cursor : κ}
    {errText : MojErr → MojInt64 × MojString} {payload op : MojObject} (state : σ)
    (whole : reached fromObject payload = operations payload)
    (unwatched : ∀ op ∈ operations payload, asksForWatch payload op = false)
    (listed : op ∈ operations payload) (nothing : writesNothing payload op = true) :
    ¬ OneReply (obliging fromObject cursor : MojDbCalls σ κ) errText payload state := by
  intro one
  rcases one with ⟨value, after, _, _, success⟩
  have accepted : ∀ op ∈ operations payload, refused fromObject payload op = false := by
    intro op member
    simpa using List.takeWhile_eq_self_iff.mp whole op member
  rcases success (invoke_obliging state listed accepted unwatched) with
    ⟨before, entries, final, answered, _⟩
  rcases answered.alone listed with ⟨state', next, message, alone, written⟩
  rw [handleOperation_nothing _ _ nothing] at alone
  cases alone
  exact written rfl

/-- A batch is replied to once, with one response for each operation, whatever the database does,
exactly when no find that is reached asks for a watch and, unless an operation is refused, each del
has ids or a query. -/
theorem batch_replied_once_iff (state : σ) (cursor : κ)
    (fromObject : MojObject → Except MojErr MojDbQuery)
    (errText : MojErr → MojInt64 × MojString) (payload : MojObject) :
    (∀ db : MojDbCalls σ κ, db.fromObject = fromObject → OneReply db errText payload state) ↔
      Sound fromObject payload := by
  constructor
  · intro replied
    have one := replied (obliging fromObject cursor) rfl
    have unwatched : ∀ op ∈ reached fromObject payload, asksForWatch payload op = false := by
      intro op member
      rw [Bool.eq_false_iff]
      intro watched
      exact not_oneReply_of_watched state ⟨op, member, watched⟩ one
    apply Sound.mk unwatched
    intro whole op listed
    rw [Bool.eq_false_iff]
    intro nothing
    exact not_oneReply_of_nothing state whole (whole ▸ unwatched) listed nothing one
  · intro sound db same
    exact oneReply_of_sound db errText state (same ▸ sound)

def batchOf (method : MojString) (params : MojObject) : MojObject :=
  .object [(operationsKey, .array [.object [(methodKey, .string method), (paramsKey, params)]])]

/-- `fromObject` of a query; what is selected plays no part here. -/
def parsedQuery (obj : MojObject) : Except MojErr MojDbQuery :=
  (MojDbQuery.fromObject obj).map SelectQuery.query

def watchedFind : MojObject :=
  batchOf (chars "find".toList) (.object [(queryKey,
    .object [(MojDbQuery.fromKey, .string (chars "Note:1".toList))]), (watchKey, .bool true)])

def emptyDel : MojObject := batchOf (chars "del".toList) (.object [])

/-- Neither is replied to as it should be. -/
theorem watchedFind_not_replied_once :
    ¬ OneReply (obliging parsedQuery () : MojDbCalls Unit Unit) (fun _ => (0, [])) watchedFind () ∧
      ¬ OneReply (obliging parsedQuery () : MojDbCalls Unit Unit) (fun _ => (0, [])) emptyDel () := by
  constructor
  · apply not_oneReply_of_watched
    exact ⟨.object [(methodKey, .string (chars "find".toList)),
      (paramsKey, .object [(queryKey, .object [(MojDbQuery.fromKey,
        .string (chars "Note:1".toList))]), (watchKey, .bool true)])],
        by decide +kernel, by decide +kernel⟩
  · apply @not_oneReply_of_nothing Unit Unit _ _ _ emptyDel
      (.object [(methodKey, .string (chars "del".toList)), (paramsKey, .object [])])
    · decide +kernel
    · decide +kernel
    · decide +kernel
    · decide +kernel

end Db8.Luna.MojDbServiceHandler
