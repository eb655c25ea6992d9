import Db8.Core.Err
import Db8.Db.Extractor

/-!
# Queries

Where clauses and their admission. `addClause` is the only writer of the clause map, so what it
guarantees is carried by the map: one entry for each property, and in every entry one of the
combinations of operators that `createClause` and `updateClause` let through.
-/

set_option autoImplicit false

namespace Db8.Db

open Db8.Core

inductive CompOp where
  | none
  | eq
  | notEq
  | lessThan
  | lessThanEq
  | greaterThan
  | greaterThanEq
  | prefixOf
  | search
  | subString
deriving DecidableEq, Repr

abbrev MojUInt32 := BitVec 32

def idKey : MojString := chars ['_', 'i', 'd']

def delKey : MojString := chars ['_', 'd', 'e', 'l']

structure WhereClause where
  lowerOp : CompOp
  upperOp : CompOp
  lowerVal : Option MojObject
  upperVal : Option MojObject
  collation : MojDbCollationStrength

namespace WhereClause

def fresh : WhereClause := ⟨.none, .none, none, none, .invalid⟩

def setCollation (clause : WhereClause) (coll : MojDbCollationStrength) :
    Except MojErr WhereClause :=
  if clause.collation ≠ .invalid ∧ coll ≠ clause.collation then
    .error .dbInvalidQueryCollationMismatch
  else .ok { clause with collation := coll }

def setLower (clause : WhereClause) (op : CompOp) (val : MojObject)
    (coll : MojDbCollationStrength) : Except MojErr WhereClause :=
  if clause.lowerOp ≠ .none then .error .dbInvalidQueryOpCombo
  else do
    let clause ← clause.setCollation coll
    .ok { clause with lowerOp := op, lowerVal := some val }

def setUpper (clause : WhereClause) (op : CompOp) (val : MojObject)
    (coll : MojDbCollationStrength) : Except MojErr WhereClause :=
  if clause.upperOp ≠ .none then .error .dbInvalidQueryOpCombo
  else do
    let clause ← clause.setCollation coll
    .ok { clause with upperOp := op, upperVal := some val }

def isArray (val : Option MojObject) : Bool :=
  match val with
  | some (.array _) => true
  | _ => false

def definesOrder (clause : WhereClause) : Bool :=
  decide (clause.lowerOp ≠ .eq) || isArray clause.lowerVal

/-- The combinations of operators and values a clause map can hold. -/
structure Accepted (clause : WhereClause) : Prop where
  upperOps : clause.upperOp = .none ∨ clause.upperOp = .lessThan ∨ clause.upperOp = .lessThanEq
  notUpper : clause.lowerOp ≠ .lessThan ∧ clause.lowerOp ≠ .lessThanEq
  some_op : clause.lowerOp ≠ .none ∨ clause.upperOp ≠ .none
  pairs : clause.upperOp ≠ .none →
    clause.lowerOp = .none ∨ clause.lowerOp = .greaterThan ∨ clause.lowerOp = .greaterThanEq
  lowerVal_iff : clause.lowerOp = .none ↔ clause.lowerVal = none
  upperVal_iff : clause.upperOp = .none ↔ clause.upperVal = none
  lowerArray : isArray clause.lowerVal = true →
    clause.lowerOp = .eq ∨ clause.lowerOp = .prefixOf ∨ clause.lowerOp = .subString
  upperArray : isArray clause.upperVal = false

variable {coll : MojDbCollationStrength} {clause updated : WhereClause}

theorem setCollation_ok (success : clause.setCollation coll = .ok updated) :
    updated = { clause with collation := coll } := by
  unfold setCollation at success
  split_ifs at success
  exact (Except.ok.inj success).symm

theorem setLower_ok {op : CompOp} {val : MojObject}
    (success : clause.setLower op val coll = .ok updated) :
    clause.lowerOp = .none ∧
      updated = { clause with lowerOp := op, lowerVal := some val, collation := coll } := by
  unfold setLower at success
  split_ifs at success with occupied
  cases collated : clause.setCollation coll with
  | error err => simp [collated, bind, Except.bind] at success
  | ok middle =>
    have shape := setCollation_ok collated
    subst shape
    simp only [collated, bind, Except.bind, Except.ok.injEq] at success
    exact ⟨not_not.mp occupied, success.symm⟩

theorem setUpper_ok {op : CompOp} {val : MojObject}
    (success : clause.setUpper op val coll = .ok updated) :
    clause.upperOp = .none ∧
      updated = { clause with upperOp := op, upperVal := some val, collation := coll } := by
  unfold setUpper at success
  split_ifs at success with occupied
  cases collated : clause.setCollation coll with
  | error err => simp [collated, bind, Except.bind] at success
  | ok middle =>
    have shape := setCollation_ok collated
    subst shape
    simp only [collated, bind, Except.bind, Except.ok.injEq] at success
    exact ⟨not_not.mp occupied, success.symm⟩

end WhereClause

open WhereClause

/-- What `addClause` checks before it looks at the map. -/
def admits (op : CompOp) (val : MojObject) : Prop :=
  op ≠ .none ∧
    (isArray (some val) = true → op = .eq ∨ op = .prefixOf ∨ op = .subString)

instance (op : CompOp) (val : MojObject) : Decidable (admits op val) :=
  inferInstanceAs (Decidable (_ ∧ _))

def createClause (op : CompOp) (val : MojObject) (coll : MojDbCollationStrength) :
    Except MojErr WhereClause :=
  match op with
  | .lessThan | .lessThanEq => fresh.setUpper op val coll
  | _ => fresh.setLower op val coll

def updateClause (clause : WhereClause) (op : CompOp) (val : MojObject)
    (coll : MojDbCollationStrength) : Except MojErr WhereClause :=
  match op with
  | .lessThan | .lessThanEq =>
    if clause.lowerOp ≠ .none ∧ clause.lowerOp ≠ .greaterThan ∧
        clause.lowerOp ≠ .greaterThanEq then .error .dbInvalidQueryOpCombo
    else clause.setUpper op val coll
  | .greaterThan | .greaterThanEq =>
    if clause.upperOp ≠ .none ∧ clause.upperOp ≠ .lessThan ∧
        clause.upperOp ≠ .lessThanEq then .error .dbInvalidQueryOpCombo
    else clause.setLower op val coll
  | _ => .error .dbInvalidQueryOpCombo

theorem createClause_accepted {op : CompOp} {val : MojObject} {coll : MojDbCollationStrength}
    {clause : WhereClause} (admitted : admits op val)
    (success : createClause op val coll = .ok clause) : clause.Accepted := by
  obtain ⟨known, arrays⟩ := admitted
  unfold createClause at success
  split at success
  · obtain ⟨_, rfl⟩ := setUpper_ok success
    constructor <;> simp_all [fresh, isArray]
  · obtain ⟨_, rfl⟩ := setUpper_ok success
    constructor <;> simp_all [fresh, isArray]
  · obtain ⟨_, rfl⟩ := setLower_ok success
    constructor <;> simp_all [fresh, isArray]

theorem updateClause_accepted {op : CompOp} {val : MojObject} {coll : MojDbCollationStrength}
    {before clause : WhereClause} (admitted : admits op val) (accepted : before.Accepted)
    (success : updateClause before op val coll = .ok clause) : clause.Accepted := by
  obtain ⟨known, arrays⟩ := admitted
  have scalar : op ≠ .eq → op ≠ .prefixOf → op ≠ .subString → isArray (some val) = false := by
    intro notEq notPrefix notSub
    rw [← Bool.not_eq_true]
    intro array
    rcases arrays array with same | same | same
    · exact notEq same
    · exact notPrefix same
    · exact notSub same
  obtain ⟨upperOps, notUpper, some_op, pairs, lowerVal_iff, upperVal_iff, lowerArray, upperArray⟩ :=
    accepted
  unfold updateClause at success
  split at success
  · split_ifs at success with combo
    obtain ⟨free, rfl⟩ := setUpper_ok success
    constructor <;> simp_all
    by_cases none : before.lowerOp = .none <;> simp_all
    by_cases greater : before.lowerOp = .greaterThan <;> simp_all
  · split_ifs at success with combo
    obtain ⟨free, rfl⟩ := setUpper_ok success
    constructor <;> simp_all
    by_cases none : before.lowerOp = .none <;> simp_all
    by_cases greater : before.lowerOp = .greaterThan <;> simp_all
  · split_ifs at success with combo
    obtain ⟨free, rfl⟩ := setLower_ok success
    constructor <;> simp_all
  · split_ifs at success with combo
    obtain ⟨free, rfl⟩ := setLower_ok success
    constructor <;> simp_all
  · cases success

structure WhereMap where
  entries : List (MojString × WhereClause)
  nodup : (entries.map Prod.fst).Nodup
  accepted : ∀ entry ∈ entries, entry.2.Accepted

namespace WhereMap

def empty : WhereMap := ⟨[], List.nodup_nil, by simp⟩

def lookup (entries : List (MojString × WhereClause)) (propName : MojString) :
    Option WhereClause :=
  (entries.find? fun entry => decide (entry.1 = propName)).map Prod.snd

def find (map : WhereMap) (propName : MojString) : Option WhereClause :=
  lookup map.entries propName

def contains (map : WhereMap) (propName : MojString) : Bool := (map.find propName).isSome

def size (map : WhereMap) : Nat := map.entries.length

variable {propName : MojString}

theorem find_mem {map : WhereMap} {clause : WhereClause}
    (found : map.find propName = some clause) : (propName, clause) ∈ map.entries := by
  unfold find lookup at found
  cases hit : map.entries.find? fun entry => decide (entry.1 = propName) with
  | none => simp [hit] at found
  | some entry =>
    have member := List.mem_of_find?_eq_some hit
    have named : entry.1 = propName := by simpa using List.find?_some hit
    simp only [hit, Option.map_some, Option.some.injEq] at found
    rw [← named, ← found]
    exact member

theorem find_of_mem {map : WhereMap} {clause : WhereClause}
    (member : (propName, clause) ∈ map.entries) : map.find propName = some clause := by
  cases found : map.find propName with
  | none =>
    unfold find lookup at found
    rw [Option.map_eq_none_iff, List.find?_eq_none] at found
    have absent := found _ member
    simp at absent
  | some other =>
    have others := find_mem found
    have same := List.inj_on_of_nodup_map map.nodup member others rfl
    rw [(Prod.mk.inj same).2]

theorem find_eq_none_iff {map : WhereMap} :
    map.find propName = none ↔ propName ∉ map.entries.map Prod.fst := by
  constructor
  · intro missing member
    obtain ⟨entry, entryIn, rfl⟩ := List.mem_map.mp member
    rw [find_of_mem entryIn] at missing
    exact Option.some_ne_none _ missing
  · intro absent
    cases found : map.find propName with
    | none => rfl
    | some clause => exact absurd (List.mem_map.mpr ⟨_, find_mem found, rfl⟩) absent

theorem find_accepted {map : WhereMap} {clause : WhereClause}
    (found : map.find propName = some clause) : clause.Accepted :=
  map.accepted _ (find_mem found)

def insertNew (map : WhereMap) (propName : MojString) (clause : WhereClause)
    (missing : map.find propName = none) (accepted : clause.Accepted) : WhereMap where
  entries := map.entries ++ [(propName, clause)]
  nodup := by
    rw [List.map_append]
    refine List.nodup_append.mpr ⟨map.nodup, by simp, ?_⟩
    rintro name member _ last rfl
    rw [List.map_singleton, List.mem_singleton] at last
    rw [last] at member
    exact find_eq_none_iff.mp missing member
  accepted := by
    intro entry member
    rcases List.mem_append.mp member with kept | last
    · exact map.accepted entry kept
    · rw [List.mem_singleton.mp last]
      exact accepted

def replace (map : WhereMap) (propName : MojString) (clause : WhereClause)
    (accepted : clause.Accepted) : WhereMap where
  entries := map.entries.map fun entry => if entry.1 = propName then (propName, clause) else entry
  nodup := by
    have names : (map.entries.map fun entry =>
        if entry.1 = propName then (propName, clause) else entry).map Prod.fst =
        map.entries.map Prod.fst := by
      rw [List.map_map]
      apply List.map_congr_left
      intro entry _
      by_cases same : entry.1 = propName <;> simp [same]
    rw [names]
    exact map.nodup
  accepted := by
    intro entry member
    obtain ⟨old, oldIn, rfl⟩ := List.mem_map.mp member
    by_cases same : old.1 = propName
    · simp only [same, if_true]
      exact accepted
    · simp only [same, if_false]
      exact map.accepted old oldIn

def addClause (map : WhereMap) (propName : MojString) (op : CompOp) (val : MojObject)
    (coll : MojDbCollationStrength) : Except MojErr WhereMap :=
  if op = .none then .error (.dbInvalidQuery "db: invalid query op")
  else if arrays : ¬ admits op val then
    .error (.dbInvalidQuery "db: query contains array value for non-eq op")
  else
    match found : map.find propName with
    | none =>
      match created : createClause op val coll with
      | .error err => .error err
      | .ok clause => .ok (map.insertNew propName clause found
          (createClause_accepted (not_not.mp arrays) created))
    | some before =>
      match updated : updateClause before op val coll with
      | .error err => .error err
      | .ok clause => .ok (map.replace propName clause
          (updateClause_accepted (not_not.mp arrays) (find_accepted found) updated))

theorem find_insertNew (map : WhereMap) (propName other : MojString) (clause : WhereClause)
    (missing : map.find propName = none) (accepted : clause.Accepted) :
    (map.insertNew propName clause missing accepted).find other =
      if propName = other then some clause else map.find other := by
  split_ifs with same
  · subst same
    exact find_of_mem (List.mem_append_right _ (List.mem_singleton.mpr rfl))
  · unfold find lookup insertNew
    rw [List.find?_append]
    simp [same]

end WhereMap

structure MojDbQuery where
  fromType : MojString
  whereClauses : WhereMap
  filterClauses : WhereMap
  page : MojDbKey
  order : MojString
  distinct : MojString
  limit : MojUInt32
  desc : Bool

namespace MojDbQuery

def limitDefault : MojUInt32 := 0xFFFFFFFF#32

/-- The query a `MojDbQuery` is initialised to. -/
def init (fromType : MojString) : MojDbQuery :=
  ⟨fromType, WhereMap.empty, WhereMap.empty, [], [], [], limitDefault, false⟩

def addWhere (query : MojDbQuery) (propName : MojString) (op : CompOp) (val : MojObject)
    (coll : MojDbCollationStrength) : Except MojErr MojDbQuery := do
  let clauses ← query.whereClauses.addClause propName op val coll
  .ok { query with whereClauses := clauses }

def includeDeleted (query : MojDbQuery) : Except MojErr MojDbQuery :=
  query.addWhere delKey .eq (.array [.bool false, .bool true]) .invalid

/-- The loop of `validate` over the where clauses and its two flags. -/
def validateWhere : List (MojString × WhereClause) → Bool → Bool → Except MojErr Unit
  | [], _, _ => .ok ()
  | (propName, clause) :: rest, hasInequalityOp, hasArrayVal =>
    let inequality := decide (clause.lowerOp ≠ .eq)
    let array := isArray clause.lowerVal && decide (propName ≠ delKey)
    if inequality && hasInequalityOp then
      .error (.dbInvalidQuery
        "db: query contains inequality operations on multiple properties")
    else if array && hasArrayVal then
      .error (.dbInvalidQuery "db: query contains array values on multiple properties")
    else validateWhere rest (hasInequalityOp || inequality) (hasArrayVal || array)

def validateFilter : List (MojString × WhereClause) → Except MojErr Unit
  | [] => .ok ()
  | (_, clause) :: rest =>
    if clause.lowerOp = .prefixOf then
      .error (.dbInvalidQuery "db: query contains prefix operator in filter")
    else if clause.lowerOp = .search then
      .error (.dbInvalidQuery "db: query contains search operator in filter")
    else validateFilter rest

def validate (query : MojDbQuery) : Except MojErr Unit := do
  validateWhere query.whereClauses.entries false false
  validateFilter query.filterClauses.entries

def validateFindWhere (order : MojString) :
    List (MojString × WhereClause) → Except MojErr Unit
  | [] => .ok ()
  | (propName, clause) :: rest =>
    if clause.definesOrder ∧ ¬ (order = [] ∨ order = propName) then
      .error (.dbInvalidQuery "db: query order not compatible with where clause")
    else if clause.lowerOp = .search then
      .error (.dbInvalidQuery "db: search operator not allowed in find")
    else validateFindWhere order rest

def validateFind (query : MojDbQuery) : Except MojErr Unit := do
  validateFindWhere query.order query.whereClauses.entries
  if query.filterClauses.entries ≠ [] then
    .error (.dbInvalidQuery "db: filter not allowed in find")
  else .ok ()

theorem validateFindWhere_ok {order : MojString} {entries : List (MojString × WhereClause)}
    (valid : validateFindWhere order entries = .ok ()) :
    ∀ entry ∈ entries, (entry.2.definesOrder = true → order = [] ∨ order = entry.1) ∧
      entry.2.lowerOp ≠ .search := by
  induction entries with
  | nil => simp
  | cons head rest ih =>
    obtain ⟨propName, clause⟩ := head
    simp only [validateFindWhere] at valid
    split_ifs at valid with clash search
    intro entry member
    rcases List.mem_cons.mp member with rfl | member
    · refine ⟨?_, search⟩
      intro defines
      by_contra incompatible
      exact clash ⟨defines, incompatible⟩
    · exact ih valid entry member

/-- A valid find orders by every clause that defines an order, and searches nothing. -/
theorem validateFind_ok {query : MojDbQuery} (valid : query.validateFind = .ok ()) :
    ∀ entry ∈ query.whereClauses.entries,
      (entry.2.definesOrder = true → query.order = [] ∨ query.order = entry.1) ∧
        entry.2.lowerOp ≠ .search := by
  apply validateFindWhere_ok
  unfold validateFind at valid
  cases checked : validateFindWhere query.order query.whereClauses.entries with
  | error err => simp [checked, bind, Except.bind] at valid
  | ok done => rfl

end MojDbQuery

end Db8.Db
