import Db8.Db.Query

/-!
# Indexes

`MojDbIndex`: its built-in properties, the keys of an object, the update on a change of an object,
and the decision whether it can answer a query. All indexes of a shard share one storage index, so
the stored keys are one set and the index's id is the first component of each of its keys.
-/

set_option autoImplicit false

namespace Db8.Db

open Db8.Bytes
open Db8.Core

def propNames (props : List MojDbExtractor) : List MojString := props.map MojDbExtractor.name

/-- An open index. The fields below `ready` are what `addProp` and `addBuiltinProps` establish. -/
structure MojDbIndex where
  id : MojObject
  locale : MojDbLocale
  /-- The configured property names, before the built-in ones are added. -/
  sortKey : List MojString
  props : List MojDbExtractor
  includeDeleted : Bool
  ready : Bool
  distinctNames : (propNames props).Nodup
  hasId : idKey ∈ propNames props
  delFront : includeDeleted = true → (propNames props).head? = some delKey

def addProp (props : List MojDbExtractor) (extractor : MojDbExtractor) (pushFront : Bool) :
    Except MojErr (List MojDbExtractor) :=
  if extractor.name ∈ propNames props then
    .error (.dbInvalidIndex "db: invalid index - property repeated")
  else if pushFront then .ok (extractor :: props)
  else .ok (props ++ [extractor])

def addProps (props : List MojDbExtractor) : List MojDbExtractor →
    Except MojErr (List MojDbExtractor)
  | [] => .ok props
  | extractor :: rest => do
    let props ← addProp props extractor false
    addProps props rest

theorem idKey_path : split propComponentSeparator [] idKey ≠ [] := by decide

def idProp : MojDbExtractor := .prop ⟨idKey, .invalid, none, false, idKey_path⟩

def delProp : MojDbExtractor := .prop ⟨delKey, .invalid, some (.bool false), false, by decide⟩

def addIdProp (props : List MojDbExtractor) : Except MojErr (List MojDbExtractor) :=
  if idKey ∈ propNames props then .ok props else addProp props idProp false

def addDelProp (includeDeleted : Bool) (props : List MojDbExtractor) :
    Except MojErr (List MojDbExtractor) :=
  if includeDeleted ∧ (propNames props).head? ≠ some delKey then addProp props delProp true
  else .ok props

def addBuiltinProps (includeDeleted : Bool) (props : List MojDbExtractor) :
    Except MojErr (List MojDbExtractor) := do
  let props ← addIdProp props
  addDelProp includeDeleted props

variable {props added : List MojDbExtractor}

theorem addProp_ok {extractor : MojDbExtractor} {pushFront : Bool} (nodup : (propNames props).Nodup)
    (success : addProp props extractor pushFront = .ok added) :
    (propNames added).Nodup ∧
      (added = extractor :: props ∧ pushFront = true ∨
        added = props ++ [extractor] ∧ pushFront = false) := by
  unfold addProp at success
  split_ifs at success with repeated front
  · obtain rfl := Except.ok.inj success
    exact ⟨List.nodup_cons.mpr ⟨repeated, nodup⟩, Or.inl ⟨rfl, front⟩⟩
  · obtain rfl := Except.ok.inj success
    refine ⟨?_, Or.inr ⟨rfl, by simpa using front⟩⟩
    unfold propNames
    rw [List.map_append]
    refine List.nodup_append.mpr ⟨nodup, by simp, ?_⟩
    rintro name member _ last rfl
    rw [List.map_singleton, List.mem_singleton] at last
    exact repeated (last ▸ member)

theorem addProps_nodup (props : List MojDbExtractor) {rest added : List MojDbExtractor}
    (nodup : (propNames props).Nodup) (success : addProps props rest = .ok added) :
    (propNames added).Nodup := by
  induction rest generalizing props with
  | nil =>
    obtain rfl := Except.ok.inj success
    exact nodup
  | cons extractor rest ih =>
    rw [addProps] at success
    cases step : addProp props extractor false with
    | error err => simp [step, bind, Except.bind] at success
    | ok middle =>
      simp only [step, bind, Except.bind] at success
      exact ih middle (addProp_ok nodup step).1 success

theorem addIdProp_ok (nodup : (propNames props).Nodup) (success : addIdProp props = .ok added) :
    (propNames added).Nodup ∧ idKey ∈ propNames added := by
  unfold addIdProp at success
  split_ifs at success with present
  · obtain rfl := Except.ok.inj success
    exact ⟨nodup, present⟩
  · obtain ⟨addedNodup, ⟨rfl, _⟩ | ⟨rfl, _⟩⟩ := addProp_ok nodup success
    · exact ⟨addedNodup, List.mem_cons_self⟩
    · exact ⟨addedNodup, by simp [propNames, idProp, MojDbExtractor.name]⟩

theorem addDelProp_ok {includeDeleted : Bool} (nodup : (propNames props).Nodup)
    (hasId : idKey ∈ propNames props) (success : addDelProp includeDeleted props = .ok added) :
    (propNames added).Nodup ∧ idKey ∈ propNames added ∧
      (includeDeleted = true → (propNames added).head? = some delKey) := by
  unfold addDelProp at success
  split_ifs at success with missing
  · obtain ⟨addedNodup, ⟨rfl, _⟩ | ⟨_, back⟩⟩ := addProp_ok nodup success
    · exact ⟨addedNodup, List.mem_cons_of_mem _ hasId, fun _ => rfl⟩
    · cases back
  · obtain rfl := Except.ok.inj success
    refine ⟨nodup, hasId, ?_⟩
    intro incDel
    by_contra absent
    exact missing ⟨incDel, absent⟩

theorem addBuiltinProps_ok {includeDeleted : Bool} (nodup : (propNames props).Nodup)
    (success : addBuiltinProps includeDeleted props = .ok added) :
    (propNames added).Nodup ∧ idKey ∈ propNames added ∧
      (includeDeleted = true → (propNames added).head? = some delKey) := by
  unfold addBuiltinProps at success
  cases step : addIdProp props with
  | error err => simp [step, bind, Except.bind] at success
  | ok middle =>
    simp only [step, bind, Except.bind] at success
    obtain ⟨middleNodup, hasId⟩ := addIdProp_ok nodup step
    exact addDelProp_ok middleNodup hasId success

namespace MojDbIndex

/-- `fromObject` and `open` over the configured properties. -/
def openProps (id : MojObject) (locale : MojDbLocale) (configured : List MojDbExtractor)
    (includeDeleted created : Bool) : Except MojErr MojDbIndex :=
  match added : addProps [] configured with
  | .error err => .error err
  | .ok own =>
    if own = [] then .error (.dbInvalidIndex "db: no properties specified in index")
    else
      match builtin : addBuiltinProps includeDeleted own with
      | .error err => .error err
      | .ok props =>
        have complete := addBuiltinProps_ok (addProps_nodup [] List.nodup_nil added) builtin
        .ok {
          id := id
          locale := locale
          sortKey := propNames own
          props := props
          includeDeleted := includeDeleted
          ready := !created || decide (propNames props = [idKey]) ||
            decide (propNames props = [delKey, idKey])
          distinctNames := complete.1
          hasId := complete.2.1
          delFront := complete.2.2 }

def names (index : MojDbIndex) : List MojString := propNames index.props

/-- The place of the id among the values of a key, the index's own id counted. -/
def idIndex (index : MojDbIndex) : Nat := index.names.idxOf idKey + 1

def idSet (index : MojDbIndex) : KeySet := SortedSet.single (MojDbKey.assign index.id none)

def isIdIndex (index : MojDbIndex) : Bool :=
  decide (index.names = [idKey]) || decide (index.names = [delKey, idKey])

def includeObj (index : MojDbIndex) (obj : Option MojObject) : Bool :=
  match obj with
  | none => false
  | some obj =>
    if index.includeDeleted then true
    else !((obj.get delKey).map MojObject.boolValue).getD false

def vals (index : MojDbIndex) (obj : MojObject) : List KeySet :=
  index.props.map fun extractor => extractor.vals index.locale obj

def getKeys (index : MojDbIndex) (obj : MojObject) : KeySet :=
  MojDbKeyBuilder.keys (index.idSet :: index.vals obj)

structure Written where
  stored : KeySet
  notified : KeySet

def update (index : MojDbIndex) (newObj oldObj : Option MojObject) (stored : KeySet) : Written :=
  match index.includeObj newObj, index.includeObj oldObj, newObj, oldObj with
  | true, false, some new, _ =>
    let newKeys := index.getKeys new
    ⟨stored.putAll newKeys.elems, newKeys⟩
  | false, true, _, some old =>
    let oldKeys := index.getKeys old
    ⟨stored.delAll oldKeys.elems, oldKeys⟩
  | true, true, some new, some old =>
    let newKeys := index.getKeys new
    let oldKeys := index.getKeys old
    let keysToPut := newKeys.diff oldKeys
    let keysToDel := oldKeys.diff newKeys
    ⟨(stored.putAll keysToPut.elems).delAll keysToDel.elems, newKeys.union oldKeys⟩
  | _, _, _, _ => ⟨stored, SortedSet.empty⟩

/-- The keys an index holds for an object it may or may not include. -/
def contribution (index : MojDbIndex) (obj : Option MojObject) : KeySet :=
  match obj with
  | none => SortedSet.empty
  | some obj => if index.includeObj (some obj) then index.getKeys obj else SortedSet.empty

theorem includeObj_none (index : MojDbIndex) : index.includeObj none = false := rfl

/-- One update exchanges the old object's keys for the new object's, provided the keys they share
are stored already: those are neither put nor deleted. -/
theorem mem_update (index : MojDbIndex) (newObj oldObj : Option MojObject) (stored : KeySet)
    (key : MojDbKey)
    (shared : key ∈ index.contribution newObj → key ∈ index.contribution oldObj → key ∈ stored) :
    key ∈ (index.update newObj oldObj stored).stored ↔
      key ∈ index.contribution newObj ∨ key ∈ stored ∧ key ∉ index.contribution oldObj := by
  unfold contribution at shared
  unfold update contribution
  cases newObj with
  | none =>
    cases oldObj with
    | none => simp [includeObj_none]
    | some old =>
      by_cases includeOld : index.includeObj (some old)
      · simp [includeObj_none, includeOld, ← SortedSet.mem_def]
      · simp [includeObj_none, includeOld]
  | some new =>
    by_cases includeNew : index.includeObj (some new)
    · cases oldObj with
      | none => simp [includeObj_none, includeNew, ← SortedSet.mem_def]
      | some old =>
        by_cases includeOld : index.includeObj (some old)
        · simp only [includeNew, includeOld, if_true] at shared
          simp only [includeNew, includeOld, if_true, SortedSet.mem_delAll,
            SortedSet.mem_putAll, ← SortedSet.mem_def, SortedSet.mem_diff]
          tauto
        · simp [includeNew, includeOld, ← SortedSet.mem_def]
    · cases oldObj with
      | none => simp [includeObj_none, includeNew]
      | some old =>
        by_cases includeOld : index.includeObj (some old)
        · simp [includeNew, includeOld, ← SortedSet.mem_def]
        · simp [includeNew, includeOld]

theorem mem_getKeys (index : MojDbIndex) (obj : MojObject) (key : MojDbKey) :
    key ∈ index.getKeys obj ↔
      ∃ parts, List.Forall₂ (fun part vals => part ∈ vals) parts (index.vals obj) ∧
        key = MojDbKey.assign index.id none ++ parts.flatten := by
  unfold getKeys
  rw [MojDbKeyBuilder.mem_keys_iff, MojDbKeyBuilder.mem_product_cons]
  constructor
  · rintro ⟨val, valIn, tail, tailIn, rfl⟩
    obtain rfl := (SortedSet.mem_single _ _).mp valIn
    obtain ⟨parts, members, rfl⟩ := (MojDbKeyBuilder.mem_product_iff _ _).mp tailIn
    exact ⟨parts, members, rfl⟩
  · rintro ⟨parts, members, rfl⟩
    exact ⟨_, (SortedSet.mem_single _ _).mpr rfl, parts.flatten,
      (MojDbKeyBuilder.mem_product_iff _ _).mpr ⟨parts, members, rfl⟩, rfl⟩

/-- The loop of `canAnswer` over the properties, with `numQueryProps` still to be found. -/
def canAnswerFrom (query : MojDbQuery) : Nat → List MojDbExtractor → Bool
  | _, [] => false
  | numQueryProps, prop :: rest =>
    match query.whereClauses.find prop.name with
    | none => false
    | some clause =>
      if numQueryProps - 1 > 0 ∧ clause.lowerOp ≠ .eq then false
      else if clause.collation ≠ prop.collation then false
      else if numQueryProps - 1 = 0 then
        decide (query.order = []) || query.whereClauses.contains query.order ||
          decide ((rest.map MojDbExtractor.name).head? = some query.order)
      else canAnswerFrom query (numQueryProps - 1) rest

/-- The properties left once the deleted flag no clause mentions is skipped. -/
def queryProps (index : MojDbIndex) (query : MojDbQuery) : List MojDbExtractor :=
  if index.includeDeleted ∧ ¬ query.whereClauses.contains delKey then index.props.tail
  else index.props

def canAnswer (index : MojDbIndex) (query : MojDbQuery) : Bool :=
  let numQueryProps := query.whereClauses.size
  if !index.ready then false
  else if numQueryProps > index.props.length then false
  else if numQueryProps = 0 then
    if query.order = [] then index.isIdIndex
    else decide (((index.queryProps query).map MojDbExtractor.name).head? = some query.order)
  else canAnswerFrom query numQueryProps (index.queryProps query)

end MojDbIndex

end Db8.Db
