import Db8.Db.KindState
import Db8.Db.PermissionEngine
import Db8.Db.Req

/-!
# Service requests

What `MojDbServiceHandlerBase::invokeImpl` makes of a request: the handler runs on a request that
is a batch from the start, and the batch is ended if no operation failed. An operation is a program
of calls to the storage, each of which may fail, and of changes to the tables in memory. Its
transaction is committed at the end, but the record of the tokens of a kind is written in a
transaction of its own, and a commit that fails can have written some of the tables.
-/

set_option autoImplicit false

namespace Db8.Luna

open Db8.Bytes
open Db8.Core
open Db8.Db
open Db8.Db.MojDb

variable {σ κ ρ ρ' : Type*}

/-- How a call of the storage fails: a write of tokens before or after it read the record back, and
a commit with what it had written over the committed tables by then. -/
structure Cut (σ : Type*) where
  err : MojErr
  lost : Bool
  written : σ → σ → σ

def Cut.write (cut : Cut σ) : TokenWrite := if cut.lost then .lost cut.err else .refused cut.err

abbrev Faults (σ : Type*) := Nat → Option (Cut σ)

def Faults.never : Faults σ := fun _ => none

/-- What is committed: the tables behind the request's transaction, and the record of the tokens of
each kind. -/
structure Disk (σ : Type*) where
  data : σ
  tokens : MojString → Option ByteString

/-- A request being handled, with the kinds and their states in memory and the calls made so far. -/
structure World (σ κ : Type*) extends MojDbReq σ where
  disk : Disk σ
  kinds : κ
  states : MojString → MojDbKindState
  clock : Nat

/-- What is done from a world on, with what was committed, put into the table of permissions and
watched on the way. -/
structure Ran (σ κ ρ : Type*) where
  world : World σ κ
  commits : List (Disk σ)
  rights : List (Permission × OperationMap)
  watches : List MojDbQuery
  result : Except MojErr ρ

namespace Ran

def stop (world : World σ κ) (result : Except MojErr ρ) : Ran σ κ ρ := ⟨world, [], [], [], result⟩

def andThen (ran : Ran σ κ ρ) (next : World σ κ → ρ → Ran σ κ ρ') : Ran σ κ ρ' :=
  match ran.result with
  | .error err => ⟨ran.world, ran.commits, ran.rights, ran.watches, .error err⟩
  | .ok reply =>
    let later := next ran.world reply
    ⟨later.world, ran.commits ++ later.commits, ran.rights ++ later.rights,
      ran.watches ++ later.watches, later.result⟩

end Ran

namespace World

def tick (world : World σ κ) : World σ κ := { world with clock := world.clock + 1 }

def view (world : World σ κ) : σ := world.txn.getD world.disk.data

def commit (faults : Faults σ) (world : World σ κ) : Ran σ κ Unit :=
  match world.txn with
  | none => .stop world (.ok ())
  | some txn =>
    match faults world.clock with
    | some cut =>
      let disk := { world.disk with data := cut.written world.disk.data txn }
      ⟨{ world.tick with txn := none, disk }, [disk], [], [], .error cut.err⟩
    | none =>
      let disk := { world.disk with data := txn }
      ⟨{ world.tick with txn := none, disk }, [disk], [], [], .ok ()⟩

/-- `begin`; a new transaction starts from what is committed. -/
def begin (faults : Faults σ) (world : World σ κ) : Ran σ κ Unit :=
  let begun := { world with beginCount := world.beginCount + 1 }
  if world.beginCount = 0 ∧ world.txn.isNone then
    match faults world.clock with
    | some cut => .stop begun.tick (.error cut.err)
    | none => .stop { begun.tick with txn := some world.disk.data } (.ok ())
  else .stop begun (.ok ())

/-- `end`. -/
def finish (faults : Faults σ) (commitNow : Bool) (world : World σ κ) : Ran σ κ Unit :=
  let world := { world with beginCount := world.beginCount - 1 }
  if world.beginCount = 0 ∧ world.batch = false then
    if commitNow then world.commit faults else .stop { world with txn := none } (.ok ())
  else .stop world (.ok ())

def beginBatch (world : World σ κ) : World σ κ :=
  { world with batch := true, beginCount := 0, txn := none }

def endBatch (faults : Faults σ) (world : World σ κ) : Ran σ κ Unit :=
  { world with batch := false }.commit faults

def abort (world : World σ κ) : World σ κ :=
  { world with beginCount := 0, batch := false, txn := none }

def commitBatch (faults : Faults σ) (world : World σ κ) : Ran σ κ Unit :=
  (world.finish faults true).andThen fun world _ =>
    (world.endBatch faults).andThen fun world _ => world.beginBatch.begin faults

def access (faults : Faults σ) (world : World σ κ) (running : String)
    (run : σ → σ × Except MojErr ρ) : Ran σ κ ρ :=
  match world.txn with
  | none => .stop world (.error (.assertFailed running))
  | some txn =>
    match faults world.clock with
    | some cut => .stop world.tick (.error cut.err)
    | none =>
      let out := run txn
      .stop { world.tick with txn := some out.1 } out.2

def endRound (faults : Faults σ) (world : World σ κ) (swept : Swept) : Ran σ κ Unit :=
  if autoBatchSize ≤ swept.numberInBatch then world.commitBatch faults else .stop world (.ok ())

/-- The loop of `delImpl`, as the list of its rounds. -/
def delRounds (faults : Faults σ) (sweep : Sweep σ) :
    Nat → Nat → Nat → World σ κ → Ran σ κ (List Swept)
  | 0, _, _, world => .stop world (.error (.assertFailed "the limit bounds the rounds"))
  | left + 1, limit, queryLimit, world =>
    if queryLimit = 0 then .stop world (.ok [])
    else
      (world.access faults "cursor.txn()" (sweep limit)).andThen fun world swept =>
        (world.endRound faults swept).andThen fun world _ =>
          if swept.count = 0 then .stop world (.ok [swept])
          else
            let queryLimit := queryLimit - limit
            (delRounds faults sweep left (nextLimit queryLimit) queryLimit world).andThen
              fun world later => .stop world (.ok (swept :: later))

def delImpl (faults : Faults σ) (sweep : Sweep σ) (limit : MojUInt32) (world : World σ κ) :
    Ran σ κ (List Swept) :=
  world.delRounds faults sweep (limit.toNat + 1) (firstLimit limit) limit.toNat

/-- `addPropImpl` of the state of a kind, whose record is committed when it is written. -/
def addProp (faults : Faults σ) (world : World σ κ) (kind prop : MojString) : Ran σ κ Nat :=
  let write := ((faults world.clock).map Cut.write).getD .done
  let out := (world.states kind).addPropImpl prop (some write) (world.disk.tokens kind)
  let disk := { world.disk with tokens := Function.update world.disk.tokens kind out.2.2 }
  ⟨{ world.tick with disk, states := Function.update world.states kind out.2.1 },
    if out.2.2 = world.disk.tokens kind then [] else [disk], [], [],
    out.1.map MojDbKindState.Added.token⟩

end World

/-- The rounds of a query deletion, with a bound on what they can count. -/
structure DelQuery (σ : Type*) where
  sweep : Sweep σ
  most : σ → Nat
  bounded : ∀ {limit txn after swept}, sweep limit txn = (after, .ok swept) →
    swept.numberInBatch ≤ limit ∧ swept.numberInBatch ≤ most txn ∧ most after ≤ most txn

/-- What an operation does, one call after the other. A find that is watched has its watch from
where its cursor is open. -/
inductive Program (σ κ ρ : Type*) where
  | done (result : Except MojErr ρ)
  | look (next : κ → Program σ κ ρ)
  | access (run : σ → σ) (next : σ → Program σ κ ρ)
  | addProp (kind prop : MojString) (next : Nat → Program σ κ ρ)
  | watch (query : MojDbQuery) (next : Program σ κ ρ)
  | putRights (perm : Permission) (opMap : OperationMap) (next : Program σ κ ρ)
  | updateKinds (change : κ → κ) (next : Program σ κ ρ)
  | begin (next : Program σ κ ρ)
  | finish (commitNow : Bool) (next : Program σ κ ρ)
  | delImpl (del : DelQuery σ) (limit : MojUInt32) (next : List Swept → Program σ κ ρ)

namespace Program

def bind : Program σ κ ρ → (ρ → Program σ κ ρ') → Program σ κ ρ'
  | .done (.error err), _ => .done (.error err)
  | .done (.ok reply), after => after reply
  | .look next, after => .look fun kinds => (next kinds).bind after
  | .access run next, after => .access run fun txn => (next txn).bind after
  | .addProp kind prop next, after => .addProp kind prop fun token => (next token).bind after
  | .watch query next, after => .watch query (next.bind after)
  | .putRights perm opMap next, after => .putRights perm opMap (next.bind after)
  | .updateKinds change next, after => .updateKinds change (next.bind after)
  | .begin next, after => .begin (next.bind after)
  | .finish commitNow next, after => .finish commitNow (next.bind after)
  | .delImpl del limit next, after => .delImpl del limit fun rounds => (next rounds).bind after

def KeepsKinds : Program σ κ ρ → Prop
  | .done _ => True
  | .look next => ∀ kinds, (next kinds).KeepsKinds
  | .access _ next => ∀ txn, (next txn).KeepsKinds
  | .addProp _ _ next => ∀ token, (next token).KeepsKinds
  | .watch _ next => next.KeepsKinds
  | .putRights _ _ next => next.KeepsKinds
  | .updateKinds _ _ => False
  | .begin next => next.KeepsKinds
  | .finish _ next => next.KeepsKinds
  | .delImpl _ _ next => ∀ rounds, (next rounds).KeepsKinds

def exec (faults : Faults σ) : Program σ κ ρ → World σ κ → Ran σ κ ρ
  | .done result, world => .stop world result
  | .look next, world => (next world.kinds).exec faults world
  | .access run next, world =>
    (world.access faults "req.txn()" fun txn => (run txn, .ok txn)).andThen fun world txn =>
      (next txn).exec faults world
  | .addProp kind prop next, world =>
    (world.addProp faults kind prop).andThen fun world token => (next token).exec faults world
  | .watch query next, world =>
    Ran.andThen ⟨world, [], [], [query], .ok ()⟩ fun world _ => next.exec faults world
  | .putRights perm opMap next, world =>
    Ran.andThen ⟨world, [], [(perm, opMap)], [], .ok ()⟩ fun world _ => next.exec faults world
  | .updateKinds change next, world =>
    next.exec faults { world with kinds := change world.kinds }
  | .begin next, world => (world.begin faults).andThen fun world _ => next.exec faults world
  | .finish commitNow next, world =>
    (world.finish faults commitNow).andThen fun world _ => next.exec faults world
  | .delImpl del limit next, world =>
    (world.delImpl faults del.sweep limit).andThen fun world rounds =>
      (next rounds).exec faults world

theorem KeepsKinds.bind {program : Program σ κ ρ} {after : ρ → Program σ κ ρ'}
    (keeps : program.KeepsKinds) (later : ∀ reply, (after reply).KeepsKinds) :
    (program.bind after).KeepsKinds := by
  induction program with
  | done result =>
    cases result with
    | error err => trivial
    | ok reply => exact later reply
  | look next ih => exact fun kinds => ih kinds (keeps kinds)
  | access run next ih => exact fun txn => ih txn (keeps txn)
  | addProp kind prop next ih => exact fun token => ih token (keeps token)
  | watch query next ih => exact ih keeps
  | putRights perm opMap next ih => exact ih keeps
  | updateKinds change next ih => exact keeps.elim
  | begin next ih => exact ih keeps
  | finish commitNow next ih => exact ih keeps
  | delImpl del limit next ih => exact fun rounds => ih rounds (keeps rounds)

end Program

/-- The operations of a batch: a put, merge, get or del by ids and, without a commit at its end, a
find or search; a del by query; one that lacks a parameter or is none of these. -/
inductive BatchOp (σ κ ρ : Type*) where
  | within (commitNow : Bool) (body : Program σ κ ρ) (keeps : body.KeepsKinds)
  | delQuery (del : κ → DelQuery σ) (limit : MojUInt32) (formatCount : MojUInt32 → ρ)
  | invalid (err : MojErr)

def BatchOp.program : BatchOp σ κ ρ → Program σ κ ρ
  | .within commitNow body _ =>
    .begin (body.bind fun reply => .finish commitNow (.done (.ok reply)))
  | .delQuery del limit formatCount =>
    .begin (.look fun kinds => .delImpl (del kinds) limit fun rounds =>
      .finish true (.done (.ok (formatCount (countOut rounds)))))
  | .invalid err => .done (.error err)

/-- `handleBatch`: the responses, up to the first operation that fails. -/
def handleBatch : List (BatchOp σ κ ρ) → Program σ κ (List ρ)
  | [] => .done (.ok [])
  | op :: ops => op.program.bind fun reply =>
    (handleBatch ops).bind fun replies => .done (.ok (reply :: replies))

/-- A permission of `putPermissions`: its check by the kinds, and the put of its object. -/
structure PutPermission (σ κ : Type*) where
  perm : Permission
  check : κ → Except MojErr OperationMap
  putObj : Program σ κ Unit
  keeps : putObj.KeepsKinds

/-- The loop of `putConfig`. -/
def putConfig : List (PutPermission σ κ) → Program σ κ Unit
  | [] => .done (.ok ())
  | put :: puts => .look fun kinds =>
    match put.check kinds with
    | .error err => .done (.error err)
    | .ok opMap => put.putObj.bind fun _ => .putRights put.perm opMap (putConfig puts)

def handlePutPermissions (puts : List (PutPermission σ κ)) (replySuccess : ρ) :
    Program σ κ (List ρ) :=
  .begin ((putConfig puts).bind fun _ => .finish true (.done (.ok [replySuccess])))

/-- What `MojDb::delKind` calls before the kind engine: the lookup of the kind with the test for
sub kinds and the owner's permission, the deletion of the kind's own object, which may be missing,
and those of its objects and permissions. -/
structure DelKind (σ κ : Type*) where
  check : κ → Except MojErr Unit
  delObject : Program σ κ Bool
  keeps : delObject.KeepsKinds
  objects : κ → DelQuery σ
  permissions : κ → DelQuery σ

def DelKind.program (del : DelKind σ κ) : Program σ κ Bool :=
  .begin (.look fun kinds =>
    match del.check kinds with
    | .error err => .done (.error err)
    | .ok () => del.delObject.bind fun found =>
      if found then
        .delImpl (del.objects kinds) MojDbQuery.limitDefault fun _ =>
          .delImpl (del.permissions kinds) MojDbQuery.limitDefault fun _ => .done (.ok true)
      else .done (.ok false))

/-- `putKind` or `delKind`: what comes before the kind engine, and whether it comes to it; the
change of the kind engine; `reloadKind` from what is committed. -/
structure KindRequest (σ κ ρ : Type*) where
  before : Program σ κ Bool
  keeps : before.KeepsKinds
  change : Program σ κ Unit
  reload : σ → κ → κ
  replySuccess : ρ

theorem DelKind.program_keeps (del : DelKind σ κ) : del.program.KeepsKinds := by
  intro kinds
  dsimp only
  cases del.check kinds with
  | error err => trivial
  | ok _ =>
    apply del.keeps.bind
    intro found
    cases found with
    | false => trivial
    | true => exact fun _ _ => trivial

/-- `handleDelKind`, with what the kind engine does to the kind. -/
def DelKind.request (del : DelKind σ κ) (delKind : Program σ κ Unit) (reload : σ → κ → κ)
    (replySuccess : ρ) : KindRequest σ κ ρ :=
  ⟨del.program, del.program_keeps, delKind, reload, replySuccess⟩

inductive Request (σ κ ρ : Type*) where
  | batch (ops : List (BatchOp σ κ ρ))
  | putPermissions (puts : List (PutPermission σ κ)) (replySuccess : ρ)
  | kind (request : KindRequest σ κ ρ)

def commitKind (faults : Faults σ) (reload : σ → κ → κ) (ran : Ran σ κ Unit) : Ran σ κ Unit :=
  match ran.result with
  | .ok _ => ran.andThen fun world _ => world.finish faults true
  | .error err =>
    let aborted := ran.world.abort
    { ran with
      world := { aborted with kinds := reload aborted.disk.data aborted.kinds }
      result := .error err }

/-- `handlePutKind` and `handleDelKind`. -/
def KindRequest.handle (faults : Faults σ) (request : KindRequest σ κ ρ) (world : World σ κ) :
    Ran σ κ (List ρ) :=
  (request.before.exec faults world).andThen fun world found =>
    if found then
      (commitKind faults request.reload (request.change.exec faults world)).andThen fun world _ =>
        .stop world (.ok [request.replySuccess])
    else
      (world.finish faults true).andThen fun world _ => .stop world (.error .dbKindNotRegistered)

def Request.handle (faults : Faults σ) : Request σ κ ρ → World σ κ → Ran σ κ (List ρ)
  | .batch ops, world => (handleBatch ops).exec faults world
  | .putPermissions puts replySuccess, world =>
    (handlePutPermissions puts replySuccess).exec faults world
  | .kind request, world => request.handle faults world

structure Memory (κ : Type*) where
  kinds : κ
  states : MojString → MojDbKindState
  permissions : MojDbPermissionEngine
  watches : List MojDbQuery

def start (disk : Disk σ) (memory : Memory κ) : World σ κ :=
  World.beginBatch ⟨⟨0, false, none⟩, disk, memory.kinds, memory.states, 0⟩

/-- The steps that need a condition on the world before them: the use of a property name, a watch, a
query deletion. -/
structure Conditions (σ κ : Type*) where
  addProp : World σ κ → MojString → MojString → Prop
  watch : World σ κ → MojDbQuery → Prop
  delImpl : World σ κ → DelQuery σ → MojUInt32 → Prop

def Ran.Onward (ran : Ran σ κ ρ) (holds : World σ κ → ρ → Prop) : Prop :=
  ∀ reply, ran.result = .ok reply → holds ran.world reply

def Program.Throughout (faults : Faults σ) (meets : Conditions σ κ) :
    Program σ κ ρ → World σ κ → Prop
  | .done _, _ => True
  | .look next, world => (next world.kinds).Throughout faults meets world
  | .access run next, world =>
    (world.access faults "req.txn()" fun txn => (run txn, .ok txn)).Onward fun world txn =>
      (next txn).Throughout faults meets world
  | .addProp kind prop next, world =>
    meets.addProp world kind prop ∧ (world.addProp faults kind prop).Onward fun world token =>
      (next token).Throughout faults meets world
  | .watch query next, world => meets.watch world query ∧ next.Throughout faults meets world
  | .putRights _ _ next, world => next.Throughout faults meets world
  | .updateKinds change next, world =>
    next.Throughout faults meets { world with kinds := change world.kinds }
  | .begin next, world =>
    (world.begin faults).Onward fun world _ => next.Throughout faults meets world
  | .finish commitNow next, world =>
    (world.finish faults commitNow).Onward fun world _ => next.Throughout faults meets world
  | .delImpl del limit next, world =>
    meets.delImpl world del limit ∧
      (world.delImpl faults del.sweep limit).Onward fun world rounds =>
        (next rounds).Throughout faults meets world

def Request.Throughout (faults : Faults σ) (meets : Conditions σ κ) :
    Request σ κ ρ → World σ κ → Prop
  | .batch ops, world => (handleBatch ops).Throughout faults meets world
  | .putPermissions puts replySuccess, world =>
    (handlePutPermissions puts replySuccess).Throughout faults meets world
  | .kind request, world =>
    request.before.Throughout faults meets world ∧
      (request.before.exec faults world).Onward fun world found =>
        found = true → request.change.Throughout faults meets world

def recordAll (engine : MojDbPermissionEngine) (rights : List (Permission × OperationMap)) :
    MojDbPermissionEngine :=
  rights.foldl (fun engine put => engine.record put.1 put.2) engine

/-- What a request leaves in memory. Nothing reads the permissions it puts before it ends. -/
def Ran.memory (ran : Ran σ κ ρ) (before : Memory κ) : Memory κ where
  kinds := ran.world.kinds
  states := ran.world.states
  permissions := recordAll before.permissions ran.rights
  watches := before.watches ++ ran.watches

/-- `invokeImpl`; a request that fails is dropped with its transaction. What a request is may depend
on the permissions its sender has. -/
def invokeImpl (faults : Faults σ) (request : MojDbPermissionEngine → Request σ κ ρ)
    (disk : Disk σ) (memory : Memory κ) : Ran σ κ (List ρ) :=
  ((request memory.permissions).handle faults (start disk memory)).andThen fun world replies =>
    (world.endBatch faults).andThen fun world _ => .stop world (.ok replies)

end Db8.Luna
