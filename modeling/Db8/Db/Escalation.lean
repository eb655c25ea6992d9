import Db8.Db.PermissionEngine

/-!
# Who may grant what

The requests that change kinds or permissions, one after the other. An entry of the permission
tables is there from the start or was put by a request. What a caller may do is decided by an
entry a request was entitled to put, as long as nobody but an admin puts the admin role; and a
caller gains nothing by requests of its own that touch no kind others depend on.
-/

set_option autoImplicit false

namespace Db8.Db.Escalation

open Db8.Bytes
open Db8.Core
open MojDbKindEngine
open MojDbPermissionEngine

structure Server where
  kinds : KindMap
  engine : MojDbPermissionEngine

/-- How far the storage lets a request on a kind come. -/
inductive Outcome where
  | succeeds
  /-- An error before the kind engine is reached. -/
  | stops
  /-- An error later; the flag tells whether the kind engine was done by then. -/
  | fails (done : Bool)
deriving DecidableEq

/-- A request, with what the storage does to it. `stored` is the kind object under `_kinds` that a
reload finds. -/
inductive Request where
  /-- `put`, `merge`, `del`, `get`, `find`, `search` and `batch`. -/
  | data
  /-- The storage takes only so many of the permissions. -/
  | putPermissions (perms : List Permission) (taken : Nat)
  | putKind (id : MojString) (obj : KindObject) (outcome : Outcome) (stored : Option KindObject)
  | delKind (id : MojString) (outcome : Outcome) (stored : Option KindObject)

/-- `MojDb::putConfig` with the permission engine. What was put before an error stays. -/
def putConfig (kinds : KindMap) (req : Requester) :
    MojDbPermissionEngine → List Permission → Nat → MojDbPermissionEngine
  | engine, [], _ => engine
  | engine, _ :: _, 0 => engine
  | engine, perm :: rest, taken + 1 =>
    match engine.checkPut kinds req perm with
    | .error _ => engine
    | .ok opMap => putConfig kinds req (engine.record perm opMap) rest taken

/-- What `configure` checks first. -/
def mayConfigure (engine : MojDbPermissionEngine) (kinds : KindMap) (req : Requester)
    (id : MojString) (obj : KindObject) : Except MojErr Unit := do
  let owner := ((kinds.find id).map MojDbKind.owner).getD []
  -- only admin can change owner
  if owner ≠ [] ∧ owner ≠ obj.owner ∧ req.admin = false then engine.deny
  if req.admin ∨ req.domain = obj.owner then .ok () else engine.deny

/-- `MojDb::putKind`; a kind that could not be put is loaded again. -/
def putKind (engine : MojDbPermissionEngine) (kinds : KindMap) (req : Requester) (id : MojString)
    (obj : KindObject) (outcome : Outcome) (stored : Option KindObject) : KindMap :=
  if outcome = .stops then kinds
  else
    match mayConfigure engine kinds req id obj with
    | .error _ => reloadKind kinds id stored
    | .ok _ =>
      if outcome = .succeeds then configure kinds id obj
      else if outcome = .fails true then reloadKind (configure kinds id obj) id stored
      else reloadKind kinds id stored

/-- The checks of `MojDb::delKind`. -/
def mayDelKind (engine : MojDbPermissionEngine) (kinds : KindMap) (req : Requester)
    (id : MojString) : Except MojErr Unit := do
  let kind ← getKind kinds id
  if kinds.kinds.any fun other => decide (id ∈ other.supers) then .error .dbKindHasSubKinds
  if hasOwnerPermission kind req then .ok () else engine.deny

def delKindImpl (engine : MojDbPermissionEngine) (kinds : KindMap) (req : Requester)
    (id : MojString) (outcome : Outcome) (stored : Option KindObject) : KindMap :=
  match mayDelKind engine kinds req id with
  | .error _ => kinds
  | .ok _ =>
    if outcome = .stops then kinds
    else if outcome = .succeeds then delKind kinds id
    else if outcome = .fails true then reloadKind (delKind kinds id) id stored
    else reloadKind kinds id stored

namespace Server

/-- The request after `beginReq`. -/
def beginReq (server : Server) (domain : MojString) : Requester :=
  ⟨domain, server.engine.isAdmin domain⟩

def step (server : Server) (domain : MojString) : Request → Server
  | .data => server
  | .putPermissions perms taken =>
    { server with
      engine := putConfig server.kinds (server.beginReq domain) server.engine perms taken }
  | .putKind id obj outcome stored =>
    { server with
      kinds := Escalation.putKind server.engine server.kinds (server.beginReq domain) id obj
        outcome stored }
  | .delKind id outcome stored =>
    { server with
      kinds := delKindImpl server.engine server.kinds (server.beginReq domain) id outcome
        stored }

end Server

structure Step where
  before : Server
  domain : MojString
  request : Request

inductive Run (start : Server) : List Step → Server → Prop where
  | nil : Run start [] start
  | snoc {steps : List Step} {server : Server} (domain : MojString) (request : Request)
      (front : Run start steps server) :
      Run start (steps ++ [⟨server, domain, request⟩]) (server.step domain request)

namespace Step

def req (step : Step) : Requester := step.before.beginReq step.domain

def Puts (step : Step) (type object : MojString) (entry : OwnerKey × OperationMap) : Prop :=
  ∃ perms taken perm, step.request = .putPermissions perms taken ∧ perm ∈ perms ∧
    perm.type = type ∧ perm.object = object ∧ ⟨perm.caller⟩ = entry.1 ∧
    operationMap perm.operations SortedMap.empty = .ok entry.2

/-- The request is admin, or has the owner right on the kind that is named. -/
def Entitled (step : Step) (type object : MojString) : Prop :=
  step.req.admin = true ∨
    type = permissionType ∧
      ∃ kind, step.before.kinds.find object = some kind ∧ kind.owner = step.domain

/-- Only an admin puts a permission that makes callers admin. -/
def KeepsRole (step : Step) : Prop :=
  step.req.admin = true ∨
    ∀ perms taken, step.request = .putPermissions perms taken →
      ∀ perm ∈ perms, perm.type = roleType → perm.object = adminRole →
        (wildcardOperation, allowKey) ∉ perm.operations

def changes (step : Step) : Option MojString :=
  match step.request with
  | .data => none
  | .putPermissions _ _ => none
  | .putKind id _ outcome _ => if outcome = .stops then none else some id
  | .delKind id outcome _ =>
    match mayDelKind step.before.engine step.before.kinds step.req id with
    | .error _ => none
    | .ok _ => if outcome = .stops then none else some id

/-- The kind object that a reload would find is the caller's, as far as there is one. -/
def ReloadsOwn (step : Step) : Prop :=
  match step.request with
  | .data => True
  | .putPermissions _ _ => True
  | .putKind _ _ _ stored => ∀ obj, stored = some obj → obj.owner = step.domain
  | .delKind _ _ stored => ∀ obj, stored = some obj → obj.owner = step.domain

/-- What the request has the kind engine change is no kind of another owner, nor does such a kind
name it as a super or point to it. -/
def KeepsKinds (step : Step) : Prop :=
  ∀ id, step.changes = some id → step.ReloadsOwn ∧
    ∀ other kind, step.before.kinds.find other = some kind → kind.owner ≠ step.domain →
      Apart id kind

end Step

/-- The entry comes from the start or from a request that was entitled to put it. -/
def Trusted (start : Server) (steps : List Step) (type object : MojString)
    (entry : OwnerKey × OperationMap) : Prop :=
  (start.engine.callers type object).find entry.1 = some entry.2 ∨
    ∃ step ∈ steps, step.Puts type object entry ∧ step.Entitled type object

/-- The entry that decides about an operation on a kind, and the kind it is found at. -/
inductive Decides (server : Server) (domain op : MojString) :
    MojString → MojString → OwnerKey × OperationMap → Prop where
  | own {id : MojString} {entry : OwnerKey × OperationMap}
      (decides : callerEntry (server.engine.callers permissionType id) domain = some entry)
      (speaks : server.engine.check permissionType id domain op ≠ .undefined) :
      Decides server domain op id id entry
  | super {id super object : MojString} {kind : MojDbKind} {entry : OwnerKey × OperationMap}
      (found : server.kinds.find id = some kind)
      (silent : server.engine.check permissionType id domain op = .undefined)
      (first : kind.supers.head? = some super)
      (decides : Decides server domain op super object entry) :
      Decides server domain op id object entry

theorem decides_of_objectPermission {server : Server} {domain op : MojString} (fuel : Nat)
    {id : MojString}
    (allowed : server.engine.objectPermission server.kinds domain op fuel id = some .allow) :
    ∃ object entry, Decides server domain op id object entry ∧
      entry.2.find op = some .allow := by
  induction fuel generalizing id with
  | zero => cases allowed
  | succ fuel ih =>
    rw [objectPermission] at allowed
    cases found : server.kinds.find id with
    | none => simp [found] at allowed
    | some kind =>
      simp only [found] at allowed
      cases checked : server.engine.check permissionType id domain op with
      | undefined =>
        simp only [checked] at allowed
        cases first : kind.supers.head? with
        | none => simp [first] at allowed
        | some super =>
          simp only [first] at allowed
          rcases ih allowed with ⟨object, entry, decides, allows⟩
          exact ⟨object, entry, Decides.super found checked first decides, allows⟩
      | allow =>
        rcases check_allow checked with ⟨entry, decides, allows⟩
        have spoken : server.engine.check permissionType id domain op ≠ .undefined := by
          rw [checked]
          exact fun impossible => by cases impossible
        exact ⟨id, entry, Decides.own decides spoken, allows⟩
      | deny => simp [checked] at allowed

section Tables

variable {kinds : KindMap} {req : Requester}

variable {engine : MojDbPermissionEngine}

theorem operationMap_of_checkPut {perm : Permission} {opMap : OperationMap}
    (passed : engine.checkPut kinds req perm = .ok opMap) :
    operationMap perm.operations SortedMap.empty = .ok opMap := by
  unfold checkPut at passed
  cases valid : validateWildcard perm.caller with
  | error err =>
    rw [valid] at passed
    cases passed
  | ok done =>
    rw [valid] at passed
    simp only [bind, Except.bind] at passed
    split_ifs at passed with isKind
    · cases granted : engine.checkKindUpdate kinds perm.object req with
      | error err => simp [granted] at passed
      | ok done =>
        rw [granted] at passed
        exact passed
    · exact passed

theorem owner_of_checkPut {perm : Permission} {opMap : OperationMap}
    (enabled : engine.enabled = true) (isKind : perm.type = permissionType)
    (passed : engine.checkPut kinds req perm = .ok opMap) :
    req.admin = true ∨
      ∃ kind, kinds.find perm.object = some kind ∧ kind.owner = req.domain := by
  unfold checkPut at passed
  cases valid : validateWildcard perm.caller with
  | error err =>
    rw [valid] at passed
    cases passed
  | ok done =>
    rw [valid] at passed
    simp only [bind, Except.bind, if_pos isKind] at passed
    cases granted : engine.checkKindUpdate kinds perm.object req with
    | error err => simp [granted] at passed
    | ok done =>
      unfold checkKindUpdate at granted
      cases there : getKind kinds perm.object with
      | error err =>
        rw [there] at granted
        cases granted
      | ok kind =>
        rw [there] at granted
        simp only [bind, Except.bind] at granted
        split_ifs at granted with owns
        · unfold hasOwnerPermission at owns
          rw [Bool.or_eq_true, decide_eq_true_eq] at owns
          apply owns.imp id
          intro same
          exact ⟨kind, (getKind_ok_iff kinds perm.object kind).mp there, same.symm⟩
        · simp [deny, enabled] at granted

theorem enabled_putConfig (engine : MojDbPermissionEngine) (perms : List Permission)
    (taken : Nat) : (putConfig kinds req engine perms taken).enabled = engine.enabled := by
  induction perms generalizing engine taken with
  | nil => rfl
  | cons perm rest ih =>
    cases taken with
    | zero => rfl
    | succ taken =>
      rw [putConfig]
      cases engine.checkPut kinds req perm with
      | error err => rfl
      | ok opMap => exact ih _ taken

theorem putConfig_induct {holds : MojDbPermissionEngine → Prop} {perms : List Permission}
    (kept : ∀ engine perm opMap, holds engine → perm ∈ perms →
      engine.checkPut kinds req perm = .ok opMap → holds (engine.record perm opMap))
    (first : holds engine) (taken : Nat) : holds (putConfig kinds req engine perms taken) := by
  induction perms generalizing engine taken with
  | nil => exact first
  | cons perm rest ih =>
    cases taken with
    | zero => exact first
    | succ taken =>
      rw [putConfig]
      cases passed : engine.checkPut kinds req perm with
      | error err => exact first
      | ok opMap =>
        apply ih
        · intro engine other opMap so member
          exact kept engine other opMap so (List.mem_cons_of_mem perm member)
        · exact kept engine perm opMap first List.mem_cons_self passed

end Tables

theorem enabled_step (server : Server) (domain : MojString) (request : Request) :
    (server.step domain request).engine.enabled = server.engine.enabled := by
  cases request with
  | data => rfl
  | putPermissions perms taken => exact enabled_putConfig server.engine perms taken
  | putKind id obj outcome stored => rfl
  | delKind id outcome stored => rfl

variable {start server : Server} {steps : List Step}

theorem enabled_run (run : Run start steps server) :
    server.engine.enabled = start.engine.enabled := by
  induction run with
  | nil => rfl
  | snoc domain request front ih => rw [enabled_step, ih]

variable {entry : OwnerKey × OperationMap}

/-- An entry of the tables, after a request, was there or is put by it; what is put for kinds the
requester is entitled to put. -/
theorem entry_step (server : Server) (domain : MojString) (request : Request)
    (enabled : server.engine.enabled = true) {type object : MojString}
    (found : ((server.step domain request).engine.callers type object).find entry.1 = some entry.2) :
    (server.engine.callers type object).find entry.1 = some entry.2 ∨
      Step.Puts ⟨server, domain, request⟩ type object entry ∧
        (type = permissionType → Step.Entitled ⟨server, domain, request⟩ type object) := by
  cases request with
  | data => exact Or.inl found
  | putKind id obj outcome stored => exact Or.inl found
  | delKind id outcome stored => exact Or.inl found
  | putPermissions perms taken =>
    let Old : MojDbPermissionEngine → Prop := fun engine =>
      engine.enabled = true ∧
        ((engine.callers type object).find entry.1 = some entry.2 →
          (server.engine.callers type object).find entry.1 = some entry.2 ∨
            Step.Puts ⟨server, domain, .putPermissions perms taken⟩ type object entry ∧
              (type = permissionType →
                Step.Entitled ⟨server, domain, .putPermissions perms taken⟩ type object))
    have whole : Old (putConfig server.kinds (server.beginReq domain) server.engine perms taken) := by
      apply putConfig_induct
      · intro engine perm opMap so member passed
        apply And.intro so.1
        intro now
        rw [callers_record] at now
        split_ifs at now with named
        · rw [SortedMap.find_put] at now
          split_ifs at now with same
          · apply Or.inr
            have reads := operationMap_of_checkPut passed
            rw [Option.some.inj now] at reads
            apply And.intro ⟨perms, taken, perm, rfl, member, named.1, named.2, same, reads⟩
            intro isKind
            rcases owner_of_checkPut so.1 (named.1.trans isKind) passed with admin | owned
            · exact Or.inl admin
            · rcases owned with ⟨kind, there, owns⟩
              exact Or.inr ⟨isKind, kind, named.2 ▸ there, owns⟩
          · exact so.2 now
        · exact so.2 now
      · exact ⟨enabled, Or.inl⟩
    exact whole.2 found

theorem entry_run (run : Run start steps server) (enabled : start.engine.enabled = true)
    {type object : MojString}
    (found : (server.engine.callers type object).find entry.1 = some entry.2) :
    (start.engine.callers type object).find entry.1 = some entry.2 ∨
      ∃ step ∈ steps, step.Puts type object entry ∧
        (type = permissionType → step.Entitled type object) := by
  induction run with
  | nil => exact Or.inl found
  | snoc domain request front ih =>
    have before := (enabled_run front).trans enabled
    rcases entry_step _ domain request before found with old | new
    · rcases ih old with first | ⟨step, member, put⟩
      · exact Or.inl first
      · exact Or.inr ⟨step, List.mem_append_left _ member, put⟩
    · exact Or.inr ⟨_, List.mem_append_right _ List.mem_cons_self, new⟩

theorem trusted_of_kind (run : Run start steps server) (enabled : start.engine.enabled = true)
    {domain op id object : MojString} (decides : Decides server domain op id object entry) :
    Trusted start steps permissionType object entry := by
  induction decides with
  | own decides speaks =>
    rcases entry_run run enabled (callerEntry_find decides) with first | put
    · exact Or.inl first
    · rcases put with ⟨step, member, puts, entitled⟩
      exact Or.inr ⟨step, member, puts, entitled rfl⟩
  | super found silent first decides ih => exact ih

theorem admin_of_puts {step : Step} (keeps : step.KeepsRole)
    (puts : step.Puts roleType adminRole entry)
    (allowed : entry.2.find wildcardOperation = some .allow) : step.req.admin = true := by
  rcases puts with ⟨perms, taken, perm, isPut, member, isRole, isAdmin, -, reads⟩
  rcases keeps with admin | keeps
  · exact admin
  · rcases operationMap_allow reads allowed with named | impossible
    · exact absurd named (keeps perms taken isPut perm member isRole isAdmin)
    · cases impossible

theorem trusted_of_role (run : Run start steps server) (enabled : start.engine.enabled = true)
    (keeps : ∀ step ∈ steps, step.KeepsRole)
    (found : (server.engine.callers roleType adminRole).find entry.1 = some entry.2)
    (allowed : entry.2.find wildcardOperation = some .allow) :
    Trusted start steps roleType adminRole entry := by
  rcases entry_run run enabled found with first | put
  · exact Or.inl first
  · rcases put with ⟨step, member, puts, -⟩
    exact Or.inr ⟨step, member, puts, Or.inl (admin_of_puts (keeps step member) puts allowed)⟩

section Kinds

variable (engine : MojDbPermissionEngine) (kinds : KindMap) (req : Requester) (id : MojString)
  (outcome : Outcome) (stored : Option KindObject)

theorem leaves_putKind (obj : KindObject) :
    Leaves id kinds (putKind engine kinds req id obj outcome stored) := by
  unfold putKind
  by_cases stops : outcome = .stops
  · rw [if_pos stops]
    exact Leaves.refl kinds
  · rw [if_neg stops]
    cases mayConfigure engine kinds req id obj with
    | error err => exact Leaves.reloadKind kinds stored
    | ok done =>
      simp only
      split_ifs
      · exact Leaves.configure kinds obj
      · exact (Leaves.configure kinds obj).trans (Leaves.reloadKind _ stored)
      · exact Leaves.reloadKind kinds stored

theorem leaves_delKindImpl : Leaves id kinds (delKindImpl engine kinds req id outcome stored) := by
  unfold delKindImpl
  cases mayDelKind engine kinds req id with
  | error err => exact Leaves.refl kinds
  | ok done =>
    simp only
    split_ifs
    · exact Leaves.refl kinds
    · exact Leaves.delKind kinds
    · exact (Leaves.delKind kinds).trans (Leaves.reloadKind _ stored)
    · exact Leaves.reloadKind kinds stored

variable {engine} {req} {stored}

theorem owner_of_mayConfigure {obj : KindObject} (enabled : engine.enabled = true)
    (notAdmin : req.admin = false) (granted : mayConfigure engine kinds req id obj = .ok ()) :
    obj.owner = req.domain := by
  unfold mayConfigure at granted
  simp only [deny, enabled, notAdmin, if_true, bind, Except.bind] at granted
  split_ifs at granted with _ same
  exact (same.resolve_left (by simp)).symm

theorem owners_putKind {obj : KindObject} (enabled : engine.enabled = true)
    (notAdmin : req.admin = false)
    (owned : ∀ obj, stored = some obj → obj.owner = req.domain) :
    Owners req.domain kinds (putKind engine kinds req id obj outcome stored) := by
  unfold putKind
  by_cases stops : outcome = .stops
  · rw [if_pos stops]
    exact Owners.refl kinds
  · rw [if_neg stops]
    cases granted : mayConfigure engine kinds req id obj with
    | error err => exact Owners.reloadKind kinds id owned
    | ok done =>
      have own := owner_of_mayConfigure kinds id enabled notAdmin granted
      simp only
      split_ifs
      · exact Owners.configure kinds id own
      · exact (Owners.configure kinds id own).trans (Owners.reloadKind _ id owned)
      · exact Owners.reloadKind kinds id owned

theorem owners_delKindImpl (owned : ∀ obj, stored = some obj → obj.owner = req.domain) :
    Owners req.domain kinds (delKindImpl engine kinds req id outcome stored) := by
  unfold delKindImpl
  cases mayDelKind engine kinds req id with
  | error err => exact Owners.refl kinds
  | ok done =>
    simp only
    split_ifs
    · exact Owners.refl kinds
    · exact Owners.delKind kinds id
    · exact (Owners.delKind kinds id).trans (Owners.reloadKind _ id owned)
    · exact Owners.reloadKind kinds id owned

end Kinds

theorem kinds_step (server : Server) (domain : MojString) (request : Request)
    (enabled : server.engine.enabled = true) (notAdmin : server.engine.isAdmin domain = false)
    (keeps : Step.KeepsKinds ⟨server, domain, request⟩) :
    (server.step domain request).kinds = server.kinds ∨
      ∃ id, Step.changes ⟨server, domain, request⟩ = some id ∧
        Leaves id server.kinds (server.step domain request).kinds ∧
        Owners domain server.kinds (server.step domain request).kinds := by
  cases request with
  | data => exact Or.inl rfl
  | putPermissions perms taken => exact Or.inl rfl
  | putKind id obj outcome stored =>
    by_cases stops : outcome = .stops
    · exact Or.inl (if_pos stops)
    · have changed : Step.changes ⟨server, domain, .putKind id obj outcome stored⟩ = some id :=
        if_neg stops
      apply Or.inr
      apply Exists.intro id
      apply And.intro changed
      apply And.intro (leaves_putKind _ _ _ _ _ _ _)
      exact owners_putKind server.kinds id outcome enabled notAdmin (keeps id changed).1
  | delKind id outcome stored =>
    cases granted : mayDelKind server.engine server.kinds (server.beginReq domain) id with
    | error err =>
      apply Or.inl
      simp only [Server.step, delKindImpl, granted]
    | ok done =>
      by_cases stops : outcome = .stops
      · apply Or.inl
        simp only [Server.step, delKindImpl, granted, if_pos stops]
      · have changed : Step.changes ⟨server, domain, .delKind id outcome stored⟩ = some id := by
          simp only [Step.changes, Step.req, granted, if_neg stops]
        apply Or.inr
        apply Exists.intro id
        apply And.intro changed
        apply And.intro (leaves_delKindImpl _ _ _ _ _ _)
        exact owners_delKindImpl server.kinds id outcome (keeps id changed).1

/-- What requests of a caller leave as it is: the caller does not become admin, and kinds of other
owners keep their supers and the permissions put for them. -/
structure Untouched (caller : MojString) (before after : Server) : Prop where
  enabled : after.engine.enabled = true
  notAdmin : after.engine.isAdmin caller = false
  kept : ∀ id kind, before.kinds.find id = some kind → after.kinds.find id = some kind
  foreign : ∀ id kind, after.kinds.find id = some kind → kind.owner ≠ caller →
    before.kinds.find id = some kind
  absent : ∀ id kind super, before.kinds.find id = some kind → super ∈ kind.supers →
    before.kinds.find super = none → after.kinds.find super = none
  tables : ∀ id kind, before.kinds.find id = some kind →
    after.engine.callers permissionType id = before.engine.callers permissionType id

namespace Untouched

variable {caller : MojString} {before after : Server}

theorem kinds_step (untouched : Untouched caller before after)
    (owns : ∀ id kind, before.kinds.find id = some kind → kind.owner ≠ caller)
    (request : Request) (keeps : Step.KeepsKinds ⟨after, caller, request⟩) :
    (∀ id kind, before.kinds.find id = some kind →
        (after.step caller request).kinds.find id = some kind) ∧
      (∀ id kind, (after.step caller request).kinds.find id = some kind → kind.owner ≠ caller →
        before.kinds.find id = some kind) ∧
      ∀ id kind super, before.kinds.find id = some kind → super ∈ kind.supers →
        before.kinds.find super = none → (after.step caller request).kinds.find super = none := by
  rcases Escalation.kinds_step after caller request untouched.enabled untouched.notAdmin keeps with
    same | ⟨changed, isChanged, leaves, owners⟩
  · rw [same]
    exact ⟨untouched.kept, untouched.foreign, untouched.absent⟩
  · have apart : ∀ id kind, before.kinds.find id = some kind → Apart changed kind :=
      fun id kind found =>
        (keeps changed isChanged).2 id kind (untouched.kept id kind found) (owns id kind found)
    have kept : ∀ id kind, before.kinds.find id = some kind →
        (after.step caller request).kinds.find id = some kind := by
      intro id kind found
      have now := leaves.kept kind (apart id kind found)
      rw [KindMap.find_id found] at now
      exact now (untouched.kept id kind found)
    apply And.intro kept
    apply And.intro
    · intro id kind found other
      rcases owners id kind found with own | ⟨old, there, same⟩
      · exact absurd own other
      · have first := untouched.foreign id old there (same ▸ other)
        have now := kept id old first
        rw [found] at now
        rw [Option.some.inj now]
        exact first
    · intro id kind super found linked missing
      apply leaves.absent super
      · intro same
        exact (apart id kind found).unlinked (same ▸ linked)
      · exact untouched.absent id kind super found linked missing

theorem putConfig (untouched : Untouched caller before after)
    (owns : ∀ id kind, before.kinds.find id = some kind → kind.owner ≠ caller)
    (perms : List Permission) (taken : Nat)
    (keeps : Step.KeepsRole ⟨after, caller, .putPermissions perms taken⟩) :
    (after.step caller (.putPermissions perms taken)).engine.isAdmin caller = false ∧
      ∀ id kind, before.kinds.find id = some kind →
        (after.step caller (.putPermissions perms taken)).engine.callers permissionType id =
          before.engine.callers permissionType id := by
  have plain : (after.beginReq caller).admin = false := untouched.notAdmin
  let Same : MojDbPermissionEngine → Prop := fun engine =>
    engine.enabled = true ∧ engine.isAdmin caller = false ∧
      ∀ id kind, before.kinds.find id = some kind →
        engine.callers permissionType id = before.engine.callers permissionType id
  have whole : Same (Escalation.putConfig after.kinds (after.beginReq caller) after.engine perms
      taken) := by
    apply putConfig_induct
    · intro engine perm opMap so member passed
      apply And.intro so.1
      apply And.intro
      · cases admin : (engine.record perm opMap).isAdmin caller with
        | false => rfl
        | true =>
          rcases check_allow (of_decide_eq_true admin) with ⟨entry, decides, allows⟩
          rw [callers_record] at decides
          have unchanged : callerEntry (engine.callers roleType adminRole) caller ≠ some entry := by
            intro old
            have wasAdmin : engine.isAdmin caller = true := by
              apply decide_eq_true
              unfold check
              rw [old]
              simp [allows]
            rw [so.2.1] at wasAdmin
            cases wasAdmin
          split_ifs at decides with named
          · rcases callerEntry_put (engine.callers roleType adminRole) ⟨perm.caller⟩ opMap caller
              with new | old
            · have isEntry : (⟨perm.caller⟩, opMap) = entry :=
                Option.some.inj (new.symm.trans decides)
              rw [← isEntry] at allows
              have reads := operationMap_of_checkPut passed
              rcases operationMap_allow reads allows with named' | impossible
              · rcases keeps with admin | keeps
                · rw [Step.req, plain] at admin
                  cases admin
                · exact absurd named' (keeps perms taken rfl perm member named.1 named.2)
              · cases impossible
            · exact absurd (old.symm.trans decides) unchanged
          · exact absurd decides unchanged
      · intro id kind found
        rw [callers_record]
        split_ifs with named
        · rcases owner_of_checkPut so.1 named.1 passed with admin | ⟨other, there, own⟩
          · rw [plain] at admin
            cases admin
          · rw [named.2, untouched.kept id kind found] at there
            exact absurd (Option.some.inj there ▸ own) (owns id kind found)
        · exact so.2.2 id kind found
    · exact ⟨untouched.enabled, untouched.notAdmin, untouched.tables⟩
  exact whole.2

theorem step (untouched : Untouched caller before after)
    (owns : ∀ id kind, before.kinds.find id = some kind → kind.owner ≠ caller)
    (request : Request) (keepsRole : Step.KeepsRole ⟨after, caller, request⟩)
    (keepsKinds : Step.KeepsKinds ⟨after, caller, request⟩) :
    Untouched caller before (after.step caller request) := by
  have engine : (after.step caller request).engine.isAdmin caller = false ∧
      ∀ id kind, before.kinds.find id = some kind →
        (after.step caller request).engine.callers permissionType id =
          before.engine.callers permissionType id := by
    cases request with
    | data => exact ⟨untouched.notAdmin, untouched.tables⟩
    | putPermissions perms taken => exact untouched.putConfig owns perms taken keepsRole
    | putKind id obj outcome stored => exact ⟨untouched.notAdmin, untouched.tables⟩
    | delKind id outcome stored => exact ⟨untouched.notAdmin, untouched.tables⟩
  rcases untouched.kinds_step owns request keepsKinds with ⟨kept, foreign, absent⟩
  exact ⟨(enabled_step after caller request).trans untouched.enabled, engine.1, kept, foreign,
    absent, engine.2⟩

theorem run (enabled : before.engine.enabled = true)
    (notAdmin : before.engine.isAdmin caller = false)
    (owns : ∀ id kind, before.kinds.find id = some kind → kind.owner ≠ caller)
    {steps : List Step} (run : Run before steps after)
    (own : ∀ step ∈ steps, step.domain = caller ∧ step.KeepsRole ∧ step.KeepsKinds) :
    Untouched caller before after := by
  induction run with
  | nil =>
    exact ⟨enabled, notAdmin, fun _ _ found => found, fun _ _ found _ => found,
      fun _ _ _ _ _ missing => missing, fun _ _ _ => rfl⟩
  | snoc domain request front ih =>
    have last := own _ (List.mem_append_right _ List.mem_cons_self)
    have isCaller : domain = caller := last.1
    rw [isCaller] at last ⊢
    apply (ih fun step member => own step (List.mem_append_left _ member)).step owns
    · exact last.2.1
    · exact last.2.2

theorem objectPermission (untouched : Untouched caller before after) (domain op : MojString)
    (fuel : Nat) {id : MojString} {kind : MojDbKind} (found : before.kinds.find id = some kind) :
    after.engine.objectPermission after.kinds domain op fuel id =
      before.engine.objectPermission before.kinds domain op fuel id := by
  induction fuel generalizing id kind with
  | zero => rfl
  | succ fuel ih =>
    have same : after.engine.check permissionType id domain op =
        before.engine.check permissionType id domain op := by
      unfold check
      rw [untouched.tables id kind found]
    rw [MojDbPermissionEngine.objectPermission, MojDbPermissionEngine.objectPermission, found,
      untouched.kept id kind found]
    simp only [same]
    cases before.engine.check permissionType id domain op with
    | allow => rfl
    | deny => rfl
    | undefined =>
      simp only
      cases first : kind.supers.head? with
      | none => rfl
      | some super =>
        simp only
        cases there : before.kinds.find super with
        | some next => exact ih there
        | none =>
          have missing := untouched.absent id kind super found
            (List.mem_of_mem_head? first) there
          cases fuel with
          | zero => rfl
          | succ fuel =>
            rw [MojDbPermissionEngine.objectPermission,
              MojDbPermissionEngine.objectPermission, there, missing]

end Untouched

/-- What decides that a caller is admin or may do something with a kind was put by a request
entitled to; and a caller that is not admin and owns no kind gains nothing by its own requests. -/
theorem no_escalation {start server : Server} {steps : List Step} (run : Run start steps server)
    (enabled : start.engine.enabled = true) (keeps : ∀ step ∈ steps, step.KeepsRole) :
    (∀ caller, server.engine.isAdmin caller = true →
        ∃ entry, callerEntry (server.engine.callers roleType adminRole) caller = some entry ∧
          Trusted start steps roleType adminRole entry) ∧
      (∀ caller op id, server.engine.Allows server.kinds caller op id →
        ∃ object entry, Decides server caller op id object entry ∧
          Trusted start steps permissionType object entry) ∧
      ∀ caller later own, Run server own later →
        (∀ step ∈ own, step.domain = caller ∧ step.KeepsRole ∧ step.KeepsKinds) →
        server.engine.isAdmin caller = false →
        (∀ id kind, server.kinds.find id = some kind → kind.owner ≠ caller) →
        later.engine.isAdmin caller = false ∧
          ∀ id kind, later.kinds.find id = some kind → kind.owner ≠ caller →
            server.kinds.find id = some kind ∧
              ∀ op, later.engine.Allows later.kinds caller op id →
                server.engine.Allows server.kinds caller op id := by
  apply And.intro
  · intro caller admin
    rcases check_allow (of_decide_eq_true admin) with ⟨entry, decides, allows⟩
    exact ⟨entry, decides,
      trusted_of_role run enabled keeps (callerEntry_find decides) allows⟩
  apply And.intro
  · intro caller op id allows
    rcases allows with ⟨fuel, allows⟩
    rcases decides_of_objectPermission fuel allows with ⟨object, entry, decides, -⟩
    exact ⟨object, entry, decides, trusted_of_kind run enabled decides⟩
  · intro caller later own next requests notAdmin owns
    have untouched := Untouched.run ((enabled_run run).trans enabled) notAdmin owns next requests
    apply And.intro untouched.notAdmin
    intro id kind found other
    have there := untouched.foreign id kind found other
    apply And.intro there
    intro op allows
    rcases allows with ⟨fuel, allows⟩
    exact ⟨fuel, (untouched.objectPermission caller op fuel there).symm.trans allows⟩

section Example

def caller : MojString := chars "app".toList

def vendor : MojString := chars "vendor".toList

def noteKind : MojString := chars "Note:1".toList

def sharedKind : MojString := chars "Shared:1".toList

def readOp : MojString := stringFromOperation .read

def noted : Server where
  kinds := KindMap.empty.put ⟨noteKind, vendor, [sharedKind], [], []⟩
  engine := ⟨SortedMap.empty, true⟩

def seizeRole : Request :=
  .putPermissions [⟨roleType, adminRole, caller, [(wildcardOperation, allowKey)]⟩] 1

def putShared : Request := .putKind sharedKind ⟨caller, [], []⟩ .succeeds none

def shareRead : Request :=
  .putPermissions [⟨permissionType, sharedKind, caller, [(readOp, allowKey)]⟩] 1

def withShared : Server := noted.step caller putShared

theorem noted_plain : noted.engine.isAdmin caller = false := by decide +kernel

theorem noted_owner (id : MojString) (kind : MojDbKind)
    (found : noted.kinds.find id = some kind) : kind.owner ≠ caller := by
  unfold noted at found
  rw [KindMap.find_put] at found
  split_ifs at found
  · rw [← Option.some.inj found]
    decide
  · cases found

theorem noted_closed : ¬ noted.engine.Allows noted.kinds caller readOp noteKind := by
  intro allows
  rcases allows with ⟨fuel, allows⟩
  cases fuel with
  | zero => cases allows
  | succ fuel =>
    have found : noted.kinds.find noteKind = some ⟨noteKind, vendor, [sharedKind], [], []⟩ := by
      unfold noted
      rw [KindMap.find_put, if_pos rfl]
    have silent : noted.engine.check permissionType noteKind caller readOp = .undefined := by
      decide +kernel
    rw [objectPermission, found] at allows
    simp only [silent, List.head?_nil] at allows
    cases allows

/-- A caller that is not admin and owns no kind makes itself admin, with nobody entitled to having
put that. Or it registers the missing super of a kind of another owner and grants itself access
there. -/
theorem own_requests_escalate :
    (Run noted [⟨noted, caller, seizeRole⟩] (noted.step caller seizeRole) ∧
        (noted.step caller seizeRole).engine.isAdmin caller = true ∧
        ∀ entry, ¬ Trusted noted [⟨noted, caller, seizeRole⟩] roleType adminRole entry) ∧
      Run noted [⟨noted, caller, putShared⟩, ⟨withShared, caller, shareRead⟩]
          (withShared.step caller shareRead) ∧
        noted.engine.isAdmin caller = false ∧
        (∀ id kind, noted.kinds.find id = some kind → kind.owner ≠ caller) ∧
        ¬ noted.engine.Allows noted.kinds caller readOp noteKind ∧
        ((withShared.step caller shareRead).kinds.find noteKind).map MojDbKind.owner =
          some vendor ∧
        (withShared.step caller shareRead).engine.Allows (withShared.step caller shareRead).kinds
          caller readOp noteKind := by
  apply And.intro
  · apply And.intro (Run.snoc caller seizeRole Run.nil)
    apply And.intro (by decide +kernel)
    intro entry trusted
    rcases trusted with first | ⟨step, member, -, entitled⟩
    · cases first
    · rw [List.mem_singleton.mp member] at entitled
      rcases entitled with admin | ⟨isKind, -⟩
      · exact absurd (admin.symm.trans noted_plain) (by decide)
      · exact absurd isKind (by decide)
  · apply And.intro (Run.snoc caller shareRead (Run.snoc caller putShared Run.nil))
    apply And.intro noted_plain
    apply And.intro noted_owner
    apply And.intro noted_closed
    apply And.intro (by decide +kernel)
    exact ⟨3, by decide +kernel⟩

def shareNote : Request :=
  .putPermissions [⟨permissionType, noteKind, caller, [(readOp, allowKey)]⟩] 1

/-- An owner may grant a right on its own kind. -/
theorem vendor_shares :
    (∀ step ∈ [Step.mk noted vendor shareNote], step.KeepsRole) ∧
      ∀ id, (noted.step vendor shareNote).engine.Allows noted.kinds caller readOp id →
        ∃ object entry,
          Decides (noted.step vendor shareNote) caller readOp id object entry ∧
            Trusted noted [⟨noted, vendor, shareNote⟩] permissionType object entry := by
  have keeps : ∀ step ∈ [Step.mk noted vendor shareNote], step.KeepsRole := by
    intro step member
    rw [List.mem_singleton.mp member]
    apply Or.inr
    intro perms taken same perm inside isRole
    cases same
    rw [List.mem_singleton.mp inside] at isRole
    exact absurd isRole (by decide)
  apply And.intro keeps
  exact (no_escalation (Run.snoc vendor shareNote Run.nil) rfl keeps).2.1 caller readOp

end Example

end Db8.Db.Escalation
