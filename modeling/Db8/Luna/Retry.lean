import Db8.Db.DelCount
import Db8.Luna.Atomic
import Db8.Luna.Programs

/-!
# Retries of a request

`invoke` runs a request again while it fails with a deadlock or a lost index lock. What an attempt
has put into memory by then stays there, and so do the tokens it made. The next attempt finds the
tokens and puts the same permissions, but a watch is there once for each attempt that came to it.
-/

set_option autoImplicit false

namespace Db8.Luna

open Db8.Bytes
open Db8.Core
open Db8.Db
open Db8.Db.MojDb

variable {σ κ ρ ρ' : Type*} {faults : Faults σ}

def maxDeadlockRetries : Nat := 20

def maxIndexlockRetries : Nat := 5

structure Served (σ κ ρ : Type*) where
  disk : Disk σ
  memory : Memory κ
  result : Except MojErr (List ρ)

def Served.watching (served : Served σ κ ρ) (watches : List MojDbQuery) : Served σ κ ρ :=
  { served with memory := { served.memory with watches } }

def attempt (faults : Faults σ) (request : MojDbPermissionEngine → Request σ κ ρ) (disk : Disk σ)
    (memory : Memory κ) : Served σ κ ρ :=
  let ran := invokeImpl faults request disk memory
  ⟨ran.world.disk, ran.memory memory, ran.result⟩

/-- Whether a failed request is tried again, with the retries counted so far, or its error. -/
def retry (err : MojErr) (retries : Nat) : Except MojErr Unit :=
  if err = .dbDeadlock then
    if maxDeadlockRetries ≤ retries then .error .dbMaxRetriesExceeded else .ok ()
  else if err = .internalIndexOnDel then
    if maxIndexlockRetries ≤ retries then .error .dbInconsistentIndex else .ok ()
  else .error err

/-- The loop of `invoke`, with as many attempts as are left. -/
def tries (faults : Nat → Faults σ) (request : MojDbPermissionEngine → Request σ κ ρ) :
    Nat → Nat → Disk σ → Memory κ → Served σ κ ρ
  | 0, _, disk, memory => ⟨disk, memory, .error (.assertFailed "the retries are bounded")⟩
  | left + 1, retries, disk, memory =>
    let served := attempt (faults retries) request disk memory
    match served.result with
    | .ok _ => served
    | .error err =>
      match retry err (retries + 1) with
      | .error err => { served with result := .error err }
      | .ok () => tries faults request left (retries + 1) served.disk served.memory

def invoke (faults : Nat → Faults σ) (request : MojDbPermissionEngine → Request σ κ ρ)
    (disk : Disk σ) (memory : Memory κ) : Served σ κ ρ :=
  tries faults request maxDeadlockRetries 0 disk memory

structure Attempt (σ κ : Type*) where
  faults : Faults σ
  disk : Disk σ
  memory : Memory κ

def retried (faults : Nat → Faults σ) (request : MojDbPermissionEngine → Request σ κ ρ) :
    Nat → Nat → Disk σ → Memory κ → List (Attempt σ κ)
  | 0, _, _, _ => []
  | left + 1, retries, disk, memory =>
    let served := attempt (faults retries) request disk memory
    match served.result with
    | .ok _ => []
    | .error err =>
      match retry err (retries + 1) with
      | .error _ => []
      | .ok () => ⟨faults retries, disk, memory⟩ ::
          retried faults request left (retries + 1) served.disk served.memory

section Tries

variable {request : MojDbPermissionEngine → Request σ κ ρ} {faults : Nat → Faults σ}
variable {retries : Nat} {disk : Disk σ} {memory : Memory κ} {replies : List ρ} {err last : MojErr}

theorem tries_done (left : Nat)
    (success : (attempt (faults retries) request disk memory).result = .ok replies) :
    tries faults request (left + 1) retries disk memory =
        attempt (faults retries) request disk memory ∧
      retried faults request (left + 1) retries disk memory = [] := by
  rw [tries, retried, success]
  exact ⟨rfl, rfl⟩

theorem tries_ended (left : Nat)
    (failed : (attempt (faults retries) request disk memory).result = .error err)
    (ended : retry err (retries + 1) = .error last) :
    tries faults request (left + 1) retries disk memory =
      { attempt (faults retries) request disk memory with result := .error last } := by
  rw [tries]
  dsimp only
  rw [failed]
  dsimp only
  rw [ended]

theorem tries_again (left : Nat)
    (failed : (attempt (faults retries) request disk memory).result = .error err)
    (again : retry err (retries + 1) = .ok ()) :
    tries faults request (left + 1) retries disk memory =
        tries faults request left (retries + 1)
          (attempt (faults retries) request disk memory).disk
          (attempt (faults retries) request disk memory).memory ∧
      retried faults request (left + 1) retries disk memory =
        ⟨faults retries, disk, memory⟩ :: retried faults request left (retries + 1)
          (attempt (faults retries) request disk memory).disk
          (attempt (faults retries) request disk memory).memory := by
  rw [tries, retried, failed]
  dsimp only
  rw [again]
  exact ⟨rfl, rfl⟩

end Tries

/-! ### One request -/

/-- A request as one program, but for what happens to the kinds when it fails. -/
def Request.program : Request σ κ ρ → Program σ κ (List ρ)
  | .batch ops => handleBatch ops
  | .putPermissions puts replySuccess => handlePutPermissions puts replySuccess
  | .kind request => request.before.bind fun found =>
    if found then
      request.change.bind fun _ => .finish true (.done (.ok [request.replySuccess]))
    else .finish true (.done (.error .dbKindNotRegistered))

structure Follows (handled ran : Ran σ κ ρ) : Prop where
  result : handled.result = ran.result
  disk : handled.world.disk = ran.world.disk
  states : handled.world.states = ran.world.states
  rights : handled.rights = ran.rights
  watches : handled.watches = ran.watches
  world : ∀ reply, ran.result = .ok reply → handled.world = ran.world

theorem Follows.refl (ran : Ran σ κ ρ) : Follows ran ran :=
  ⟨rfl, rfl, rfl, rfl, rfl, fun _ _ => rfl⟩

theorem Follows.andThen {ran : Ran σ κ ρ} {next other : World σ κ → ρ → Ran σ κ ρ'}
    (later : ∀ reply, Follows (next ran.world reply) (other ran.world reply)) :
    Follows (ran.andThen next) (ran.andThen other) := by
  cases result : ran.result with
  | error err =>
    rw [Ran.andThen_error result, Ran.andThen_error result]
    exact Follows.refl _
  | ok reply =>
    rw [Ran.andThen_ok result, Ran.andThen_ok result]
    have rest := later reply
    exact ⟨rest.result, rest.disk, rest.states, congrArg (ran.rights ++ ·) rest.rights,
      congrArg (ran.watches ++ ·) rest.watches, rest.world⟩

theorem handle_follows (request : Request σ κ ρ) (world : World σ κ) :
    Follows (request.handle faults world) (request.program.exec faults world) := by
  cases request with
  | batch ops => exact Follows.refl _
  | putPermissions puts replySuccess => exact Follows.refl _
  | kind request =>
    rw [Request.handle, KindRequest.handle, Request.program, Program.exec_bind]
    apply Follows.andThen
    intro found
    cases found with
    | false => exact Follows.refl _
    | true =>
      rw [if_pos rfl, if_pos rfl, Program.exec_bind]
      generalize request.change.exec faults (request.before.exec faults world).world = changed
      unfold commitKind
      cases result : changed.result with
      | ok _ =>
        dsimp only
        rw [Ran.andThen_assoc]
        exact Follows.refl _
      | error err =>
        dsimp only
        rw [Ran.andThen_error result]
        refine ⟨rfl, rfl, rfl, rfl, rfl, ?_⟩
        intro _ impossible
        cases impossible

theorem Request.throughout_program (faults : Faults σ) (meets : Conditions σ κ)
    (request : Request σ κ ρ) (world : World σ κ) :
    request.Throughout faults meets world ↔ request.program.Throughout faults meets world := by
  cases request with
  | batch ops => exact Iff.rfl
  | putPermissions puts replySuccess => exact Iff.rfl
  | kind request =>
    rw [Request.Throughout, Request.program, Program.throughout_bind]
    apply and_congr_right
    intro _
    apply Ran.onward_congr
    intro found
    cases found with
    | false => simp [Program.Throughout, Ran.Onward]
    | true =>
      rw [if_pos rfl, Program.throughout_bind]
      simp [Program.Throughout, Ran.Onward]

def noticed (faults : Faults σ) (request : MojDbPermissionEngine → Request σ κ ρ) (disk : Disk σ)
    (memory : Memory κ) : List MojDbQuery :=
  ((request memory.permissions).handle faults (start disk memory)).watches

theorem noticed_nil_iff (faults : Faults σ) (request : MojDbPermissionEngine → Request σ κ ρ)
    (disk : Disk σ) (memory : Memory κ) :
    noticed faults request disk memory = [] ↔
      (request memory.permissions).Throughout faults unwatched (start disk memory) := by
  unfold noticed
  rw [(handle_follows _ _).watches, exec_watches, Request.throughout_program]

/-! ### Permissions that are put again -/

theorem record_again (engine : MojDbPermissionEngine) (perm other : Permission)
    (opMap otherMap : OperationMap) (same : perm.type = other.type ∧ perm.object = other.object ∧
      perm.caller = other.caller) :
    (engine.record perm opMap).record other otherMap = engine.record other otherMap := by
  rcases same with ⟨type, object, caller⟩
  unfold MojDbPermissionEngine.record MojDbPermissionEngine.callers
  simp only [type, object, caller, SortedMap.find_put, if_true, Option.getD_some, SortedMap.put_put]

theorem record_comm (engine : MojDbPermissionEngine) (perm other : Permission)
    (opMap otherMap : OperationMap) (different : ¬ (perm.type = other.type ∧
      perm.object = other.object ∧ perm.caller = other.caller)) :
    (engine.record perm opMap).record other otherMap =
      (engine.record other otherMap).record perm opMap := by
  unfold MojDbPermissionEngine.record MojDbPermissionEngine.callers
  by_cases type : perm.type = other.type
  · by_cases object : perm.object = other.object
    · have caller : OwnerKey.mk perm.caller ≠ ⟨other.caller⟩ := by
        intro same
        exact different ⟨type, object, congrArg OwnerKey.name same⟩
      simp only [type, object, SortedMap.find_put, if_true, Option.getD_some, SortedMap.put_put]
      rw [SortedMap.put_comm _ caller]
    · simp only [type, SortedMap.find_put, if_true, Option.getD_some, SortedMap.put_put,
        if_neg object, if_neg (Ne.symm object)]
      rw [SortedMap.put_comm _ object]
  · simp only [SortedMap.find_put, if_neg type, if_neg (Ne.symm type)]
    rw [SortedMap.put_comm _ type]

theorem recordAll_record {rights : List (Permission × OperationMap)}
    {entry : Permission × OperationMap} (there : entry ∈ rights) (engine : MojDbPermissionEngine) :
    recordAll (engine.record entry.1 entry.2) rights = recordAll engine rights := by
  induction rights generalizing engine with
  | nil => cases there
  | cons first rights ih =>
    change recordAll ((engine.record entry.1 entry.2).record first.1 first.2) rights =
      recordAll (engine.record first.1 first.2) rights
    by_cases same : entry.1.type = first.1.type ∧ entry.1.object = first.1.object ∧
        entry.1.caller = first.1.caller
    · rw [record_again _ _ _ _ _ same]
    · rw [record_comm _ _ _ _ _ same]
      rcases List.mem_cons.mp there with rfl | later
      · exact absurd ⟨rfl, rfl, rfl⟩ same
      · exact ih later _

theorem recordAll_again {first all : List (Permission × OperationMap)} (again : first ⊆ all)
    (engine : MojDbPermissionEngine) :
    recordAll (recordAll engine first) all = recordAll engine all := by
  induction first generalizing engine with
  | nil => rfl
  | cons entry first ih =>
    rcases List.cons_subset.mp again with ⟨there, others⟩
    exact (ih others (engine.record entry.1 entry.2)).trans (recordAll_record there engine)

/-! ### What a failed attempt leaves -/

/-- The steps that commit from the inside of a request are the full rounds of its deletions. -/
def unfilled (faults : Faults σ) : Conditions σ κ where
  addProp _ _ _ := True
  watch _ _ := True
  delImpl := Unfilled faults

/-- Nothing but tokens is committed, and the request still is a batch. -/
structure Withholds (before : World σ κ) (ran : Ran σ κ ρ) : Prop where
  data : ran.world.disk.data = before.disk.data
  batch : ran.world.batch = before.batch

theorem Keeps.withholds {before : World σ κ} {ran : Ran σ κ ρ} (keeps : Keeps before ran) :
    Withholds before ran := ⟨congrArg Disk.data keeps.disk, keeps.batch⟩

theorem Withholds.andThen {before : World σ κ} {ran : Ran σ κ ρ}
    {next : World σ κ → ρ → Ran σ κ ρ'} (withholds : Withholds before ran)
    (later : ran.Onward fun world reply => Withholds world (next world reply)) :
    Withholds before (ran.andThen next) := by
  cases result : ran.result with
  | error err =>
    rw [Ran.andThen_error result]
    exact ⟨withholds.data, withholds.batch⟩
  | ok reply =>
    rw [Ran.andThen_ok result]
    have rest := later reply result
    exact ⟨rest.data.trans withholds.data, rest.batch.trans withholds.batch⟩

theorem exec_withholds (program : Program σ κ ρ) {world : World σ κ} (batch : world.batch = true)
    (steps : program.Throughout faults (unfilled faults) world) :
    Withholds world (program.exec faults world) := by
  induction program generalizing world with
  | done result => exact ⟨rfl, rfl⟩
  | look next ih => exact ih world.kinds batch steps
  | access run next ih =>
    have first := access_keeps faults world "req.txn()" fun txn => (run txn, .ok txn)
    apply first.withholds.andThen
    intro txn success
    exact ih txn (first.batch.trans batch) (steps txn success)
  | addProp kind prop next ih =>
    have first : Withholds world (world.addProp faults kind prop) := ⟨rfl, rfl⟩
    apply first.andThen
    intro token success
    exact ih token (first.batch.trans batch) (steps.2 token success)
  | watch query next ih =>
    have rest := ih batch steps.2
    exact ⟨rest.data, rest.batch⟩
  | putRights perm opMap next ih =>
    have rest := ih batch steps
    exact ⟨rest.data, rest.batch⟩
  | updateKinds change next ih =>
    have rest := @ih { world with kinds := change world.kinds } batch steps
    exact ⟨rest.data, rest.batch⟩
  | begin next ih =>
    have first := begin_keeps faults world
    apply first.withholds.andThen
    intro _ success
    exact ih (first.batch.trans batch) (steps () success)
  | finish commitNow next ih =>
    have first := finish_keeps faults batch commitNow
    apply first.withholds.andThen
    intro _ success
    exact ih (first.batch.trans batch) (steps () success)
  | delImpl del limit next ih =>
    have first := delImpl_keeps steps.1
    apply first.withholds.andThen
    intro rounds success
    exact ih rounds (first.batch.trans batch) (steps.2 rounds success)

/-- `reloadKind` finds the kinds in the store as they were in memory, however far the kind engine
had come. -/
def KindRequest.Reloads (request : KindRequest σ κ ρ) (data : σ) (kinds : κ) : Prop :=
  ∀ faults (world : World σ κ), world.kinds = kinds →
    request.reload data (request.change.exec faults world).world.kinds = kinds

theorem handleBatch_keepsKinds (ops : List (BatchOp σ κ ρ)) : (handleBatch ops).KeepsKinds := by
  induction ops with
  | nil => trivial
  | cons op ops ih =>
    apply Program.KeepsKinds.bind
    · cases op with
      | within commitNow body keeps => exact keeps.bind fun _ => trivial
      | delQuery del limit formatCount => exact fun _ _ => trivial
      | invalid err => trivial
    · exact fun _ => ih.bind fun _ => trivial

theorem putConfig_keepsKinds (puts : List (PutPermission σ κ)) : (putConfig puts).KeepsKinds := by
  induction puts with
  | nil => trivial
  | cons put puts ih =>
    intro kinds
    dsimp only
    cases put.check kinds with
    | error err => trivial
    | ok opMap => exact put.keeps.bind fun _ => ih

theorem finish_batch (faults : Faults σ) {world : World σ κ} (batch : world.batch = true)
    (commitNow : Bool) : world.finish faults commitNow =
      Ran.stop { world with beginCount := world.beginCount - 1 } (.ok ()) := by
  unfold World.finish
  dsimp only
  rw [if_neg (by simp [batch])]

/-- A request that is not about a kind leaves the kinds as they were, and one about a kind that fails
has them reloaded. -/
theorem handle_kinds {request : Request σ κ ρ} {world : World σ κ} (batch : world.batch = true)
    (steps : request.Throughout faults (unfilled faults) world)
    (reloads : ∀ kind, request = .kind kind → kind.Reloads world.disk.data world.kinds ∧
      ∀ replies, (request.handle faults world).result ≠ .ok replies) :
    (request.handle faults world).world.kinds = world.kinds := by
  cases request with
  | batch ops => exact exec_kinds faults (handleBatch_keepsKinds ops) world
  | putPermissions puts replySuccess =>
    have keeps : (handlePutPermissions puts replySuccess).KeepsKinds :=
      (putConfig_keepsKinds puts).bind fun _ => trivial
    exact exec_kinds faults keeps world
  | kind request =>
    rcases reloads request rfl with ⟨restored, fails⟩
    have before := exec_kinds faults request.keeps world
    have first := exec_withholds request.before batch steps.1
    rw [Request.handle, KindRequest.handle] at fails ⊢
    cases found : (request.before.exec faults world).result with
    | error err =>
      rw [Ran.andThen_error found]
      exact before
    | ok reply =>
      rw [Ran.andThen_ok found] at fails ⊢
      cases reply with
      | false =>
        have ended := finish_tokenless faults (request.before.exec faults world).world true
        rw [if_neg Bool.false_ne_true, ← before]
        exact Ran.andThen_kinds ended.kinds fun _ _ => rfl
      | true =>
        rw [if_pos rfl] at fails ⊢
        have second := exec_withholds request.change (first.batch.trans batch)
          (steps.2 true found rfl)
        unfold commitKind at fails ⊢
        cases changed : (request.change.exec faults
            (request.before.exec faults world).world).result with
        | error err =>
          have again := restored faults (request.before.exec faults world).world before
          rw [← first.data, ← second.data] at again
          exact again
        | ok _ =>
          rw [changed] at fails
          have still := second.batch.trans (first.batch.trans batch)
          apply absurd _ (fails [request.replySuccess])
          dsimp only
          rw [Ran.andThen_ok changed, finish_batch faults still true]
          rfl

section Attempts

variable {request : MojDbPermissionEngine → Request σ κ ρ} {disk : Disk σ} {memory : Memory κ}

/-- What a failed attempt did is undone when it is dropped: no query deletion met a full round, its
commit wrote nothing, the kinds it changed were reloaded, and the permissions it put say nothing
about the request. -/
structure Undone (faults : Faults σ) (request : MojDbPermissionEngine → Request σ κ ρ)
    (disk : Disk σ) (memory : Memory κ) : Prop where
  steps : (request memory.permissions).Throughout faults (unfilled faults) (start disk memory)
  commit : ((request memory.permissions).handle faults (start disk memory)).Onward
    fun world _ => WholeCommit faults world
  kinds : ∀ kind, request memory.permissions = .kind kind → kind.Reloads disk.data memory.kinds ∧
    ((request memory.permissions).handle faults (start disk memory)).Onward
      fun world _ => faults world.clock = none
  rights : request (attempt faults request disk memory).memory.permissions =
    request memory.permissions

theorem invokeImpl_error {err : MojErr}
    (failed : (invokeImpl faults request disk memory).result = .error err) :
    let handled := (request memory.permissions).handle faults (start disk memory)
    (invokeImpl faults request disk memory).rights = handled.rights ∧
      (invokeImpl faults request disk memory).watches = handled.watches ∧
      (invokeImpl faults request disk memory).world.states = handled.world.states ∧
      (invokeImpl faults request disk memory).world.kinds = handled.world.kinds ∧
      (invokeImpl faults request disk memory).world.disk.tokens = handled.world.disk.tokens ∧
      ((handled.result = .error err ∧
          (invokeImpl faults request disk memory).world.disk = handled.world.disk) ∨
        ∃ replies txn cut, handled.result = .ok replies ∧ handled.world.txn = some txn ∧
          faults handled.world.clock = some cut ∧
          (invokeImpl faults request disk memory).world.disk.data =
            cut.written handled.world.disk.data txn) := by
  intro handled
  unfold invokeImpl at failed ⊢
  change Ran.result (handled.andThen _) = _ at failed
  change Ran.rights (handled.andThen _) = _ ∧ Ran.watches (handled.andThen _) = _ ∧
    (Ran.world (handled.andThen _)).states = _ ∧ (Ran.world (handled.andThen _)).kinds = _ ∧
    (Ran.world (handled.andThen _)).disk.tokens = _ ∧ (_ ∧ (Ran.world (handled.andThen _)).disk = _ ∨
      ∃ replies txn cut, _ ∧ _ ∧ _ ∧ (Ran.world (handled.andThen _)).disk.data = _)
  cases result : handled.result with
  | error other =>
    rw [Ran.andThen_error result] at failed ⊢
    cases failed
    exact ⟨rfl, rfl, rfl, rfl, rfl, Or.inl ⟨rfl, rfl⟩⟩
  | ok replies =>
    have ended := endBatch_tokenless faults handled.world
    rw [Ran.andThen_ok result] at failed ⊢
    rcases endBatch_cases faults handled.world with
      ⟨_, done, _, _⟩ | ⟨_, _, _, done, _, _⟩ | ⟨txn, cut, running, fails, broken, stored, _⟩
    · rw [Ran.andThen_ok done] at failed
      cases failed
    · rw [Ran.andThen_ok done] at failed
      cases failed
    · rw [Ran.andThen_error broken]
      refine ⟨?_, ?_, ended.states, ended.kinds, ended.tokens, Or.inr ?_⟩
      · simp only [ended.rights, List.append_nil]
      · simp only [ended.watches, List.append_nil]
      · refine ⟨replies, txn, cut, rfl, running, fails, ?_⟩
        simp only [stored]

theorem Undone.start_again (undone : Undone faults request disk memory) {err : MojErr}
    (failed : (attempt faults request disk memory).result = .error err) :
    start (attempt faults request disk memory).disk (attempt faults request disk memory).memory =
      (start disk memory).grown
        ((request memory.permissions).program.exec faults (start disk memory)).world := by
  have follows := @handle_follows _ _ _ faults (request memory.permissions) (start disk memory)
  have withholds := exec_withholds _ (start_batch disk memory)
    ((Request.throughout_program _ _ _ _).mp undone.steps)
  rcases invokeImpl_error failed with ⟨_, _, states, kinds, tokens, stopped⟩
  have data : (invokeImpl faults request disk memory).world.disk.data = disk.data := by
    have kept := (congrArg Disk.data follows.disk).trans withholds.data
    rcases stopped with ⟨_, same⟩ | ⟨replies, txn, cut, handled, running, fails, written⟩
    · rw [same]
      exact kept
    · rw [written, undone.commit replies handled txn cut running fails]
      exact kept
  have restored : (invokeImpl faults request disk memory).world.kinds = memory.kinds := by
    rw [kinds]
    apply handle_kinds (start_batch disk memory) undone.steps
    intro kind same
    rcases undone.kinds kind same with ⟨reloads, whole⟩
    refine ⟨reloads, ?_⟩
    intro replies handled
    rcases stopped with ⟨error, _⟩ | ⟨_, _, cut, _, _, fails, _⟩
    · rw [handled] at error
      cases error
    · rw [whole replies handled] at fails
      cases fails
  have disk_eq : (invokeImpl faults request disk memory).world.disk =
      ⟨disk.data, ((request memory.permissions).program.exec faults
        (start disk memory)).world.disk.tokens⟩ := by
    rw [← follows.disk, ← tokens, ← data]
  unfold attempt
  dsimp only
  unfold Ran.memory
  rw [disk_eq, restored, states.trans follows.states]
  rfl

variable {replies : List ρ}

theorem handle_again (faults : Faults σ) (request : Request σ κ ρ) {world : World σ κ}
    (tokened : Tokened world.states) (success : (request.handle .never
      (world.grown (request.program.exec faults world).world)).result = .ok replies) :
    let again := request.handle .never (world.grown (request.program.exec faults world).world)
    let alone := request.handle .never world
    alone.result = .ok replies ∧ again.world = alone.world ∧ again.rights = alone.rights ∧
      again.watches = alone.watches ∧ (request.handle faults world).rights ⊆ alone.rights := by
  intro again alone
  have same := exec_again faults request.program tokened
  have first := @handle_follows _ _ _ faults request world
  have left := @handle_follows _ _ _ .never request world
  have right := @handle_follows _ _ _ .never request
    (world.grown (request.program.exec faults world).world)
  have done := right.result.symm.trans success
  have doneAlone := same.result.symm.trans done
  refine ⟨left.result.trans doneAlone, ?_, ?_, ?_, ?_⟩
  · exact (right.world _ done).trans (same.world.trans (left.world _ doneAlone).symm)
  · exact right.rights.trans (same.rights.trans left.rights.symm)
  · exact right.watches.trans (same.watches.trans left.watches.symm)
  · rw [first.rights, left.rights]
    exact same.begun.subset

/-- The attempt after a failed one does what it would have done as the first, but for the watches. -/
theorem Undone.again (undone : Undone faults request disk memory) (tokened : Tokened memory.states)
    {err : MojErr} (failed : (attempt faults request disk memory).result = .error err)
    (success : (attempt .never request (attempt faults request disk memory).disk
      (attempt faults request disk memory).memory).result = .ok replies) :
    attempt .never request (attempt faults request disk memory).disk
        (attempt faults request disk memory).memory =
      (attempt .never request disk memory).watching (memory.watches ++
        noticed faults request disk memory ++ noticed .never request disk memory) ∧
      noticed .never request (attempt faults request disk memory).disk
        (attempt faults request disk memory).memory = noticed .never request disk memory := by
  rcases invokeImpl_error failed with ⟨rights, watches, _, _, _, _⟩
  have same : (request (attempt faults request disk memory).memory.permissions).handle .never
      (start (attempt faults request disk memory).disk (attempt faults request disk memory).memory) =
        (request memory.permissions).handle .never ((start disk memory).grown
          ((request memory.permissions).program.exec faults (start disk memory)).world) := by
    rw [undone.rights, undone.start_again failed]
  have ended (first : World σ κ) (reply : List ρ) : Tokenless first
      ((first.endBatch .never).andThen fun world _ => Ran.stop world (.ok reply)) :=
    (endBatch_tokenless .never first).andThen fun _ _ => ⟨rfl, rfl, rfl, rfl, rfl⟩
  unfold noticed attempt invokeImpl at *
  dsimp only at *
  rw [same] at success ⊢
  rcases Ran.ok_of_andThen success with ⟨reply, handled, _⟩
  rcases handle_again faults (request memory.permissions) tokened handled with
    ⟨alone, world, sameRights, sameWatches, begun⟩
  refine ⟨?_, sameWatches⟩
  unfold Ran.memory Served.watching
  rw [rights, watches, Ran.andThen_ok handled, Ran.andThen_ok alone, world, sameRights,
    sameWatches]
  simp only [(ended _ reply).rights, (ended _ reply).watches, List.append_nil,
    recordAll_again begun]

theorem attempt_never (success : (attempt faults request disk memory).result = .ok replies) :
    attempt .never request disk memory = attempt faults request disk memory ∧
      noticed .never request disk memory = noticed faults request disk memory := by
  have ended (first : World σ κ) (reply : List ρ) (done : ((first.endBatch faults).andThen
      fun world _ => Ran.stop world (.ok reply)).result = .ok replies) :
      first.endBatch .never = first.endBatch faults := by
    rcases Ran.ok_of_andThen done with ⟨_, committed, _⟩
    exact commit_never committed
  unfold noticed attempt invokeImpl at *
  dsimp only at *
  rcases Ran.ok_of_andThen success with ⟨reply, handled, onward⟩
  have first := @handle_follows _ _ _ faults (request memory.permissions) (start disk memory)
  have second := @handle_follows _ _ _ .never (request memory.permissions) (start disk memory)
  have done := first.result.symm.trans handled
  have never := exec_never _ done
  rw [never] at second
  have handledNever := second.result.trans done
  have world := (second.world _ done).trans (first.world _ done).symm
  have rights := second.rights.trans first.rights.symm
  have watches := second.watches.trans first.watches.symm
  refine ⟨?_, watches⟩
  unfold Ran.memory
  rw [Ran.andThen_ok handled, Ran.andThen_ok handledNever, world, ended _ _ onward, rights, watches]

theorem attempt_watches (faults : Faults σ) (request : MojDbPermissionEngine → Request σ κ ρ)
    (disk : Disk σ) (memory : Memory κ) : (attempt faults request disk memory).memory.watches =
      memory.watches ++ noticed faults request disk memory := by
  unfold attempt Ran.memory noticed
  dsimp only
  cases result : (invokeImpl faults request disk memory).result with
  | error err => rw [(invokeImpl_error result).2.1]
  | ok replies =>
    unfold invokeImpl at result ⊢
    rcases Ran.ok_of_andThen result with ⟨reply, handled, onward⟩
    have ended := (endBatch_tokenless faults
      ((request memory.permissions).handle faults (start disk memory)).world).watches
    rcases Ran.ok_of_andThen onward with ⟨_, committed, _⟩
    rw [Ran.andThen_ok handled, Ran.andThen_ok committed, ended]
    simp only [Ran.stop, List.append_nil]

theorem attempt_tokened (tokened : Tokened memory.states) {err : MojErr}
    (failed : (attempt faults request disk memory).result = .error err) :
    Tokened (attempt faults request disk memory).memory.states := by
  have left := (invokeImpl_error failed).2.2.1
  rw [(handle_follows _ _).states] at left
  have grown := exec_outgrows faults (request memory.permissions).program (start disk memory)
  rw [← left] at grown
  exact tokened.after grown

def Attempt.noticed (request : MojDbPermissionEngine → Request σ κ ρ) (failed : Attempt σ κ) :
    List MojDbQuery := Luna.noticed failed.faults request failed.disk failed.memory

def Attempt.Undone (request : MojDbPermissionEngine → Request σ κ ρ) (failed : Attempt σ κ) : Prop :=
  Luna.Undone failed.faults request failed.disk failed.memory

def Attempt.Unwatched (request : MojDbPermissionEngine → Request σ κ ρ) (failed : Attempt σ κ) :
    Prop :=
  (request failed.memory.permissions).Throughout failed.faults unwatched
    (start failed.disk failed.memory)

/-- A run of the retry loop, by induction on the attempts that are left: what it leaves is what the
first attempt would have left, with the watches of those that failed. -/
theorem tries_served {faults : Nat → Faults σ} {left retries : Nat}
    (tokened : Tokened memory.states)
    (success : (tries faults request left retries disk memory).result = .ok replies)
    (undone : ∀ failed ∈ retried faults request left retries disk memory, failed.Undone request) :
    tries faults request left retries disk memory =
      (attempt .never request disk memory).watching (memory.watches ++
        (retried faults request left retries disk memory).flatMap (Attempt.noticed request) ++
          noticed .never request disk memory) := by
  induction left generalizing retries disk memory with
  | zero => cases success
  | succ left ih =>
    cases result : (attempt (faults retries) request disk memory).result with
    | ok reply =>
      rcases tries_done left result with ⟨spent, none⟩
      rw [spent, none, ← (attempt_never result).1, List.flatMap_nil, List.append_nil,
        ← attempt_watches]
      rfl
    | error err =>
      cases again : retry err (retries + 1) with
      | error last =>
        rw [tries_ended left result again] at success
        cases success
      | ok _ =>
        rcases tries_again left result again with ⟨onward, failed⟩
        rw [onward] at success ⊢
        rw [failed] at undone ⊢
        rcases List.forall_mem_cons.mp undone with ⟨first, others⟩
        have rest := ih (attempt_tokened tokened result) success others
        have served : (attempt .never request (attempt (faults retries) request disk memory).disk
            (attempt (faults retries) request disk memory).memory).result = .ok replies := by
          rw [rest] at success
          exact success
        rcases Undone.again first tokened result served with ⟨same, watched⟩
        rw [rest, same, watched, attempt_watches, List.flatMap_cons]
        simp only [Served.watching, Attempt.noticed, List.append_assoc]

theorem Attempt.noticed_nil_iff (failed : Attempt σ κ) :
    failed.noticed request = [] ↔ failed.Unwatched request := Luna.noticed_nil_iff _ _ _ _

end Attempts

/-- A batch of one query deletion that replies how many objects it deleted. -/
def countDeleted : MojDbPermissionEngine → Request ObjectStore Unit MojUInt32 := fun _ =>
  .batch [.delQuery (fun _ => deleteAllQuery) MojDbQuery.limitDefault id]

def findWatched (query : MojDbQuery) : MojDbPermissionEngine → Request ObjectStore Unit Unit :=
  fun _ => .batch [.within false (.watch query (.access id fun _ => .done (.ok ())))
    fun _ => trivial]

def foundQuery : MojDbQuery := MojDbQuery.init (chars "A:1".toList)

def cutOnce (call : Nat) : Nat → Faults σ
  | 0, clock => if clock = call then some ⟨.dbDeadlock, false, fun stored _ => stored⟩ else none
  | _ + 1, _ => none

theorem attempt_ok {request : MojDbPermissionEngine → Request σ κ ρ} {disk : Disk σ}
    {memory : Memory κ} {replies : List ρ}
    (handled : ((request memory.permissions).handle .never (start disk memory)).result =
      .ok replies) : (attempt .never request disk memory).result = .ok replies := by
  unfold attempt invokeImpl
  dsimp only
  rw [Ran.result_andThen handled]
  generalize ((request memory.permissions).handle .never (start disk memory)).world = world
  rcases endBatch_cases .never world with ⟨_, done, _⟩ | ⟨_, _, _, done, _⟩ | ⟨_, _, _, fails, _⟩
  · rw [Ran.result_andThen done]
    rfl
  · rw [Ran.result_andThen done]
    rfl
  · cases fails

theorem countDeleted_reply (disk : Disk ObjectStore) (memory : Memory Unit)
    (covered : (Deletion.deleteAll.matching disk.data).length ≤ MojDbQuery.limitDefault.toNat) :
    (attempt .never countDeleted disk memory).result =
      .ok [BitVec.ofNat 32 (Deletion.deleteAll.matching disk.data).length] := by
  apply attempt_ok
  have begun : ((start disk memory).begin .never).result = .ok () := rfl
  have inside : ((start disk memory).begin .never).world.beginCount = 1 := rfl
  have running : ((start disk memory).begin .never).world.txn = some disk.data := rfl
  have deleted := delImpl_safe deleteAllQuery_safe MojDbQuery.limitDefault inside running
  have ok : (queryRounds Deletion.deleteAll.sweep MojDbQuery.limitDefault disk.data).result =
      .ok () :=
    rounds_ok deleteAllQuery_safe firstLimit_pos (Nat.lt_succ_self _)
  have counted := Deletion.ran_total (Deletion.deleteAll_vanishes disk.data)
    (Deletion.deleteAll_metOnce disk.data) (Deletion.firstLimit_le _).1 firstLimit_pos (rounds_ran ok)
  rw [Nat.min_eq_right covered] at counted
  simp only [countDeleted, Request.handle, handleBatch, BatchOp.program, Program.bind,
    Program.exec]
  rw [Ran.result_andThen begun, Ran.result_andThen deleted, Ran.result_andThen (finish_ends _ true)]
  exact congrArg (fun count => Except.ok [BitVec.ofNat 32 count]) counted

theorem delRounds_cut {sweep : Sweep σ} {disk : Disk σ} {kinds : κ}
    {states : MojString → MojDbKindState} {next : σ}
    (round : sweep 1000 disk.data = (next, .ok ⟨1000, 1000⟩)) (left : Nat) :
    let ran := World.delRounds (cutOnce 4 0) sweep (left + 1 + 1) 1000 4294967295
      ⟨⟨1, true, some disk.data⟩, disk, kinds, states, 1⟩
    ran.result = .error .dbDeadlock ∧ ran.world.disk = { disk with data := next } ∧
      ran.world.kinds = kinds ∧ ran.world.states = states ∧ ran.watches = [] := by
  simp [World.delRounds, World.access, cutOnce, round, World.endRound, autoBatchSize,
    World.commitBatch, World.finish, World.endBatch, World.commit, World.beginBatch, World.begin,
    World.tick, Ran.andThen, Ran.stop]

theorem delRounds_dropped {sweep : Sweep σ} {disk : Disk σ} {kinds : κ}
    {states : MojString → MojDbKindState} {next : σ}
    (round : sweep 1000 disk.data = (next, .ok ⟨2, 2⟩)) (left : Nat) :
    let ran := World.delRounds (cutOnce 2 0) sweep (left + 1 + 1) 1000 4294967295
      ⟨⟨1, true, some disk.data⟩, disk, kinds, states, 1⟩
    ran.result = .error .dbDeadlock ∧ ran.world.disk = disk := by
  simp [World.delRounds, World.access, cutOnce, round, World.endRound, autoBatchSize,
    World.tick, Ran.andThen, Ran.stop]

theorem deleteAll_round {store : ObjectStore}
    (room : (Deletion.deleteAll.matching store).length ≤ 1000) :
    ∃ next, Deletion.deleteAll.matching next = [] ∧ deleteAllQuery.sweep 1000 store =
      (next, .ok ⟨(Deletion.deleteAll.matching store).length,
        (Deletion.deleteAll.matching store).length⟩) := by
  rcases deleteAllQuery_safe 1000 store with ⟨next, swept, round⟩
  rcases Deletion.sweep_done (Deletion.deleteAll_vanishes store) round with ⟨batch, done⟩
  have counted := done.once (Deletion.deleteAll_metOnce store)
  have empty : (Deletion.deleteAll.matching next).length = 0 := by
    by_cases less : swept.count < 1000
    · exact congrArg List.length (done.drained less)
    · omega
  rw [empty, Nat.zero_add] at counted
  have same : swept = ⟨(Deletion.deleteAll.matching store).length,
      (Deletion.deleteAll.matching store).length⟩ := by
    cases swept
    simp only at counted batch
    rw [batch, counted]
  exact ⟨next, List.length_eq_zero_iff.mp empty, same ▸ round⟩

variable {disk : Disk ObjectStore}

theorem countDeleted_cut (thousand : (Deletion.deleteAll.matching disk.data).length = 1000)
    (memory : Memory Unit) :
    (attempt (cutOnce 4 0) countDeleted disk memory).result = .error .dbDeadlock ∧
      Deletion.deleteAll.matching (attempt (cutOnce 4 0) countDeleted disk memory).disk.data = [] := by
  rcases deleteAll_round (le_of_eq thousand) with ⟨next, drained, round⟩
  rw [thousand] at round
  have begun : (start disk memory).begin (cutOnce 4 0) = Ran.stop
      ⟨⟨1, true, some disk.data⟩, disk, memory.kinds, memory.states, 1⟩ (.ok ()) := rfl
  have cut := @delRounds_cut _ _ _ disk memory.kinds memory.states next round 4294967294
  change (World.delImpl (cutOnce 4 0) deleteAllQuery.sweep MojDbQuery.limitDefault
    ⟨⟨1, true, some disk.data⟩, disk, memory.kinds, memory.states, 1⟩).result = _ ∧
      (World.delImpl (cutOnce 4 0) deleteAllQuery.sweep MojDbQuery.limitDefault
    ⟨⟨1, true, some disk.data⟩, disk, memory.kinds, memory.states, 1⟩).world.disk = _ ∧ _ at cut
  unfold attempt invokeImpl
  simp only [countDeleted, Request.handle, handleBatch, BatchOp.program, Program.bind,
    Program.exec, begun, Ran.andThen, Ran.stop, cut.1]
  exact ⟨trivial, (congrArg (fun disk => Deletion.deleteAll.matching disk.data) cut.2.1).trans drained⟩

theorem cutOnce_whole (call retries : Nat) (world : World σ κ) :
    WholeCommit (cutOnce call retries) world := by
  intro txn cut _ fails
  cases retries with
  | zero =>
    simp only [cutOnce] at fails
    split_ifs at fails
    cases fails
    rfl
  | succ retries => cases fails

theorem countDeleted_dropped (two : (Deletion.deleteAll.matching disk.data).length = 2)
    (memory : Memory Unit) :
    (attempt (cutOnce 2 0) countDeleted disk memory).result = .error .dbDeadlock ∧
      (attempt (cutOnce 2 0) countDeleted disk memory).disk = disk := by
  have room : (Deletion.deleteAll.matching disk.data).length ≤ 1000 := by omega
  rcases deleteAll_round room with ⟨next, _, round⟩
  rw [two] at round
  have begun : (start disk memory).begin (cutOnce 2 0) = Ran.stop
      ⟨⟨1, true, some disk.data⟩, disk, memory.kinds, memory.states, 1⟩ (.ok ()) := rfl
  have cut := @delRounds_dropped _ _ _ disk memory.kinds memory.states next round 4294967294
  change (World.delImpl (cutOnce 2 0) deleteAllQuery.sweep MojDbQuery.limitDefault
    ⟨⟨1, true, some disk.data⟩, disk, memory.kinds, memory.states, 1⟩).result = _ ∧
      (World.delImpl (cutOnce 2 0) deleteAllQuery.sweep MojDbQuery.limitDefault
    ⟨⟨1, true, some disk.data⟩, disk, memory.kinds, memory.states, 1⟩).world.disk = _ at cut
  unfold attempt invokeImpl
  simp only [countDeleted, Request.handle, handleBatch, BatchOp.program, Program.bind,
    Program.exec, begun, Ran.andThen, Ran.stop, cut.1]
  exact ⟨trivial, cut.2⟩

theorem countDeleted_undone (memory : Memory Unit)
    (few : (Deletion.deleteAll.matching disk.data).length < 1000) :
    Undone (cutOnce 2 0) countDeleted disk memory where
  steps := by
    intro _ _
    refine ⟨?_, fun _ _ _ _ => trivial⟩
    intro txn running full
    rw [← Option.some.inj running] at full
    exact absurd few (not_lt.mpr full.many)
  commit _ _ := cutOnce_whole 2 0 _
  kinds _ impossible := by cases impossible
  rights := rfl

theorem freshMemory_tokened : Tokened freshMemory.states := fun _ =>
  ⟨[], MojDbKindState.names_nil, rfl, rfl, [], rfl⟩

end Db8.Luna
