import Db8.Db.KindGraph
import Db8.Db.QuotaEngine

/-!
# Permissions

`MojDbPermissionEngine` and the checks kinds make with it. What a caller may do with the objects of
a type is looked up under its own name, else under the longest wildcard that matches it. For kinds
the lookup goes on with the first super as long as it finds nothing.
-/

set_option autoImplicit false

namespace Db8.Db

open Db8.Bytes
open Db8.Core

inductive MojDbOp where
  | create
  | read
  | update
  | delete
  | extend
  | kindUpdate
deriving DecidableEq

def stringFromOperation : MojDbOp → MojString
  | .create => chars "create".toList
  | .read => chars "read".toList
  | .update => chars "update".toList
  | .delete => chars "delete".toList
  | .extend => chars "extend".toList
  | .kindUpdate => chars "unknown".toList

structure Requester where
  domain : MojString
  admin : Bool

/-- A permission as `put` reads it. -/
structure Permission where
  type : MojString
  object : MojString
  caller : MojString
  operations : List (MojString × MojString)
deriving DecidableEq

inductive PermissionValue where
  | undefined
  | allow
  | deny
deriving DecidableEq

abbrev OperationMap := SortedMap MojString PermissionValue

abbrev CallerMap := SortedMap OwnerKey OperationMap

abbrev TypeMap := SortedMap MojString (SortedMap MojString CallerMap)

structure MojDbPermissionEngine where
  types : TypeMap
  enabled : Bool

namespace MojDbPermissionEngine

def allowKey : MojString := chars "allow".toList

def denyKey : MojString := chars "deny".toList

def wildcardOperation : MojString := [star]

def permissionType : MojString := chars "db.kind".toList

def roleType : MojString := chars "db.role".toList

def adminRole : MojString := chars "admin".toList

def dot : MojChar := ⟨46, separator_ne_zero⟩

/-- `validateWildcard`: the one wildcard allowed is at the end, alone or behind a dot. -/
def validateWildcard (val : MojString) : Except MojErr Unit :=
  if val = [] then .error .dbInvalidCaller
  else if star ∈ val.dropLast then .error .dbInvalidCaller
  else if val.getLast? = some star ∧ val.dropLast ≠ [] ∧ val.dropLast.getLast? ≠ some dot then
    .error .dbInvalidCaller
  else .ok ()

def valueFromString (str : MojString) : Except MojErr PermissionValue :=
  if str = allowKey then .ok .allow
  else if str = denyKey then .ok .deny
  else .error (.dbInvalidPermissions "db: invalid permission value")

def operationMap : List (MojString × MojString) → OperationMap → Except MojErr OperationMap
  | [], opMap => .ok opMap
  | (op, str) :: rest, opMap =>
    match valueFromString str with
    | .error err => .error err
    | .ok val => operationMap rest (opMap.put op val)

def callers (engine : MojDbPermissionEngine) (type object : MojString) : CallerMap :=
  (((engine.types.find type).getD SortedMap.empty).find object).getD SortedMap.empty

def callerEntry (callers : CallerMap) (caller : MojString) : Option (OwnerKey × OperationMap) :=
  match callers.find ⟨caller⟩ with
  | some opMap => some (⟨caller⟩, opMap)
  | none => callers.entries.find? fun entry => matchWildcard entry.1.name caller

def check (engine : MojDbPermissionEngine) (type object caller op : MojString) : PermissionValue :=
  match callerEntry (engine.callers type object) caller with
  | none => .undefined
  | some entry => (entry.2.find op).getD .undefined

def deny (engine : MojDbPermissionEngine) : Except MojErr Unit :=
  if engine.enabled then .error .dbPermissionDenied else .ok ()

/-- What `beginReq` finds for the admin role. -/
def isAdmin (engine : MojDbPermissionEngine) (domain : MojString) : Bool :=
  decide (engine.check roleType adminRole domain wildcardOperation = .allow)

def hasOwnerPermission (kind : MojDbKind) (req : Requester) : Bool :=
  req.admin || decide (req.domain = kind.owner)

/-- `MojDbKind::objectPermission`, unless the walk up the supers is longer than the fuel. -/
def objectPermission (engine : MojDbPermissionEngine) (kinds : MojDbKindEngine.KindMap)
    (domain op : MojString) : Nat → MojString → Option PermissionValue
  | 0, _ => none
  | fuel + 1, id =>
    match kinds.find id with
    | none => some .undefined
    | some kind =>
      match engine.check permissionType id domain op with
      | .undefined =>
        match kind.supers.head? with
        | none => some .undefined
        | some super => objectPermission engine kinds domain op fuel super
      | val => some val

/-- The permission tables allow a caller this operation on a kind. -/
def Allows (engine : MojDbPermissionEngine) (kinds : MojDbKindEngine.KindMap)
    (domain op id : MojString) : Prop :=
  ∃ fuel, engine.objectPermission kinds domain op fuel id = some .allow

/-- `checkPermission(OpKindUpdate)` of the kind engine. -/
def checkKindUpdate (engine : MojDbPermissionEngine) (kinds : MojDbKindEngine.KindMap)
    (id : MojString) (req : Requester) : Except MojErr Unit := do
  let kind ← MojDbKindEngine.getKind kinds id
  if hasOwnerPermission kind req then .ok () else engine.deny

/-- What `put` checks before it stores a permission. -/
def checkPut (engine : MojDbPermissionEngine) (kinds : MojDbKindEngine.KindMap) (req : Requester)
    (perm : Permission) : Except MojErr OperationMap := do
  validateWildcard perm.caller
  if perm.type = permissionType then
    engine.checkKindUpdate kinds perm.object req
    operationMap perm.operations SortedMap.empty
  else operationMap perm.operations SortedMap.empty

/-- What `put` does to the tables in the end. -/
def record (engine : MojDbPermissionEngine) (perm : Permission) (opMap : OperationMap) :
    MojDbPermissionEngine :=
  let objects := (engine.types.find perm.type).getD SortedMap.empty
  { engine with
    types := engine.types.put perm.type (objects.put perm.object
      ((engine.callers perm.type perm.object).put ⟨perm.caller⟩ opMap)) }

theorem callers_record (engine : MojDbPermissionEngine) (perm : Permission) (opMap : OperationMap)
    (type object : MojString) :
    (engine.record perm opMap).callers type object =
      if perm.type = type ∧ perm.object = object then
        (engine.callers type object).put ⟨perm.caller⟩ opMap
      else engine.callers type object := by
  unfold callers record
  simp only
  rw [SortedMap.find_put]
  by_cases sameType : perm.type = type
  · rw [if_pos sameType, Option.getD_some, SortedMap.find_put]
    by_cases sameObject : perm.object = object
    · rw [if_pos sameObject, if_pos ⟨sameType, sameObject⟩, Option.getD_some]
      simp only [callers, sameType, sameObject]
    · rw [if_neg sameObject, if_neg fun same => sameObject same.2, sameType]
  · rw [if_neg sameType, if_neg fun same => sameType same.1]

theorem operationMap_allow {operations : List (MojString × MojString)} {start opMap : OperationMap}
    {op : MojString} (read : operationMap operations start = .ok opMap)
    (allowed : opMap.find op = some .allow) :
    (op, allowKey) ∈ operations ∨ start.find op = some .allow := by
  induction operations generalizing start with
  | nil =>
    cases read
    exact Or.inr allowed
  | cons first rest ih =>
    rcases first with ⟨name, str⟩
    rw [operationMap] at read
    cases valued : valueFromString str with
    | error err => simp [valued] at read
    | ok val =>
      rw [valued] at read
      rcases ih read with named | kept
      · exact Or.inl (List.mem_cons_of_mem _ named)
      · rw [SortedMap.find_put] at kept
        split_ifs at kept with same
        · have allows : val = .allow := Option.some.inj kept
          have isAllow : str = allowKey := by
            unfold valueFromString at valued
            split_ifs at valued with isAllow isDeny
            · exact isAllow
            · rw [allows] at valued
              cases valued
          rw [← same, isAllow]
          exact Or.inl List.mem_cons_self
        · exact Or.inr kept

theorem callerEntry_find {callers : CallerMap} {caller : MojString} {key : OwnerKey}
    {opMap : OperationMap} (decides : callerEntry callers caller = some (key, opMap)) :
    callers.find key = some opMap := by
  unfold callerEntry at decides
  cases own : callers.find ⟨caller⟩ with
  | some opMap =>
    rw [own] at decides
    cases decides
    exact own
  | none =>
    rw [own] at decides
    exact (callers.find_eq_some_iff key opMap).mpr (List.mem_of_find?_eq_some decides)

theorem callerEntry_put (callers : CallerMap) (key : OwnerKey) (opMap : OperationMap)
    (caller : MojString) :
    callerEntry (callers.put key opMap) caller = some (key, opMap) ∨
      callerEntry (callers.put key opMap) caller = callerEntry callers caller := by
  unfold callerEntry
  rw [SortedMap.find_put]
  by_cases own : key = ⟨caller⟩
  · rw [if_pos own, own]
    exact Or.inl rfl
  · rw [if_neg own]
    cases callers.find ⟨caller⟩ with
    | some opMap => exact Or.inr rfl
    | none =>
      exact SortedMap.find?_putEntry (fun key => matchWildcard key.name caller) key opMap
        callers.entries

theorem check_allow {engine : MojDbPermissionEngine} {type object caller op : MojString}
    (allowed : engine.check type object caller op = .allow) :
    ∃ entry, callerEntry (engine.callers type object) caller = some entry ∧
      entry.2.find op = some .allow := by
  unfold check at allowed
  cases decides : callerEntry (engine.callers type object) caller with
  | none => simp [decides] at allowed
  | some entry =>
    simp only [decides] at allowed
    apply Exists.intro entry
    apply And.intro rfl
    cases found : entry.2.find op with
    | none => simp [found] at allowed
    | some val =>
      rw [found, Option.getD_some] at allowed
      rw [allowed]

end MojDbPermissionEngine

end Db8.Db
