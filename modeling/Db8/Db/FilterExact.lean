import Db8.Db.Ordering
import Db8.Db.QueryFilter

/-!
# Filters agree with plans

One clause as a filter against the same clause over an index on its path. Comparing two objects comes
to comparing their codes, so a value passes the filter when its code is where the plan looks for it.
What is left is that both look at the same values, which they do on the object as `levelled` leaves it.
-/

set_option autoImplicit false

namespace Db8.Core

open Db8.Bytes

theorem lexicalCompare_self (data : ByteString) : lexicalCompare data data = 0 := by
  induction data with
  | nil => rfl
  | cons byte data ih => rw [lexicalCompare, if_neg (by simp), ih]

theorem lexicalCompare_of_separate {left right : ByteString} (separate : Separate left right) :
    lexicalCompare left right ≠ 0 ∧ (lexicalCompare left right < 0 ↔ left < right) := by
  induction left generalizing right with
  | nil => exact absurd List.nil_prefix separate.1
  | cons byte left ih =>
    cases right with
    | nil => exact absurd List.nil_prefix separate.2
    | cons other right =>
      rw [lexicalCompare, List.cons_lt_cons_iff]
      by_cases same : byte = other
      · subst same
        rw [if_neg (by simp)]
        have tails : Separate left right := by
          simpa only [Separate, List.cons_prefix_cons, true_and] using separate
        simpa using ih tails
      · rw [if_pos same]
        have values : byte.val ≠ other.val := fun equal => same (Fin.ext equal)
        constructor
        · omega
        · simp only [same, false_and, or_false, Fin.lt_def]
          omega

theorem MojObjectWriter.value_eq_iff {left right : MojObject} :
    MojObjectWriter.value left = MojObjectWriter.value right ↔ left = right :=
  ⟨fun same => MojObjectWriter.value_injective same, fun same => by rw [same]⟩

namespace MojObject

theorem compare_eq_zero_iff (left right : MojObject) : compare left right = 0 ↔ left = right := by
  have signs := (MojObjectWriter.decides_value left right).sign
  constructor
  · intro zero
    by_contra apart
    have codes : MojObjectWriter.value left ≠ MojObjectWriter.value right :=
      fun same => apart (MojObjectWriter.value_injective same)
    have separate := MojObjectWriter.codes_prefixFree.separate ⟨left, rfl⟩ ⟨right, rfl⟩ codes
    rw [zero, Int.sign_zero, Int.sign_eq_zero_iff_zero] at signs
    exact (lexicalCompare_of_separate separate).1 signs
  · rintro rfl
    rw [lexicalCompare_self, Int.sign_zero] at signs
    exact Int.sign_eq_zero_iff_zero.mp signs.symm

theorem compare_neg_iff (left right : MojObject) :
    compare left right < 0 ↔ MojObjectWriter.value left < MojObjectWriter.value right := by
  by_cases same : left = right
  · rw [(compare_eq_zero_iff left right).mpr same, same]
    simp
  · have codes : MojObjectWriter.value left ≠ MojObjectWriter.value right :=
      fun equal => same (MojObjectWriter.value_injective equal)
    have separate := MojObjectWriter.codes_prefixFree.separate ⟨left, rfl⟩ ⟨right, rfl⟩ codes
    rw [← (lexicalCompare_of_separate separate).2, ← Int.sign_eq_neg_one_iff_neg,
      ← Int.sign_eq_neg_one_iff_neg, (MojObjectWriter.decides_value left right).sign]

theorem compare_nonpos_iff (left right : MojObject) :
    compare left right ≤ 0 ↔ MojObjectWriter.value left ≤ MojObjectWriter.value right := by
  rw [Int.le_iff_lt_or_eq, compare_neg_iff, compare_eq_zero_iff, le_iff_lt_or_eq,
    MojObjectWriter.value_eq_iff]

theorem compare_nonneg_iff (left right : MojObject) :
    0 ≤ compare left right ↔ MojObjectWriter.value right ≤ MojObjectWriter.value left := by
  rw [← Int.not_lt, compare_neg_iff, not_lt]

theorem compare_pos_iff (left right : MojObject) :
    0 < compare left right ↔ MojObjectWriter.value right < MojObjectWriter.value left := by
  rw [← Int.not_le, compare_nonpos_iff, not_le]

end MojObject

end Db8.Core

namespace Db8.Db

open Db8.Bytes
open Db8.Core
open MojDbQueryPlan

/-! ### A clause on one value -/

structure WhereClause.Filterable (clause : WhereClause) : Prop where
  plain : clause.collation = .invalid
  ops : clause.lowerOp ≠ .prefixOf ∧ clause.lowerOp ≠ .search ∧ clause.lowerOp ≠ .subString

namespace MojDbQueryFilter

open WhereClause

theorem encodes_plain (locale : MojDbLocale) (val : MojObject) (code : MojDbKey) :
    Encodes locale .invalid (some val) code ↔
      ∃ elem ∈ MojDbPropExtractor.elements val, code = MojObjectWriter.value elem := Iff.rfl

theorem encodes_plain_scalar (locale : MojDbLocale) {val : MojObject}
    (scalar : isArray (some val) = false) (code : MojDbKey) :
    Encodes locale .invalid (some val) code ↔ code = MojObjectWriter.value val :=
  encodes_scalar scalar code

variable {clause : WhereClause}

theorem testLower_eq (strstr : Strstr) (lowerOp : clause.lowerOp = .eq) {lowerVal : MojObject}
    (lower : clause.lowerVal = some lowerVal) (val : MojObject) :
    testLower strstr clause val =
      (MojDbPropExtractor.elements lowerVal).any fun elem => decide (val = elem) := by
  unfold testLower
  rw [lowerOp, lower]
  cases lowerVal <;> simp [MojDbPropExtractor.elements]

theorem testLower_iff (strstr : Strstr) (locale : MojDbLocale) (accepted : clause.Accepted)
    (filterable : clause.Filterable) (val : MojObject) :
    testLower strstr clause val = true ↔
      clause.LowerHolds locale (MojObjectWriter.value val) := by
  rcases filterable with ⟨plain, notPrefix, notSearch, notSubString⟩
  unfold LowerHolds
  dsimp only
  rw [plain]
  by_cases unset : clause.lowerOp = .none
  · simp [testLower, unset]
  have known : ∃ lowerVal, clause.lowerVal = some lowerVal := by
    rw [← Option.ne_none_iff_exists']
    exact fun missing => unset (accepted.lowerVal_iff.mpr missing)
  rcases known with ⟨lowerVal, lower⟩
  have scalar : clause.lowerOp ≠ .eq → isArray (some lowerVal) = false := by
    intro notEq
    rw [← Bool.not_eq_true, ← lower]
    intro array
    rcases accepted.lowerArray array with same | same | same
    · exact notEq same
    · exact notPrefix same
    · exact notSubString same
  cases lowerOp : clause.lowerOp with
  | none => exact absurd lowerOp unset
  | eq =>
    rw [testLower_eq strstr lowerOp lower, lower, List.any_eq_true]
    simp only [encodes_plain, decide_eq_true_eq, MojObjectWriter.value_eq_iff]
  | notEq =>
    simp only [testLower, lowerOp, lower, decide_eq_true_eq]
    rw [encodes_plain_scalar locale (scalar (by simp [lowerOp])),
      MojObjectWriter.value_eq_iff]
  | greaterThan =>
    simp only [testLower, lowerOp, lower, decide_eq_true_eq]
    simp only [encodes_plain_scalar locale (scalar (by simp [lowerOp])), forall_eq,
      MojObject.compare_pos_iff]
  | greaterThanEq =>
    simp only [testLower, lowerOp, lower, decide_eq_true_eq]
    simp only [encodes_plain_scalar locale (scalar (by simp [lowerOp])), forall_eq,
      MojObject.compare_nonneg_iff]
  | prefixOf => exact absurd lowerOp notPrefix
  | search => exact absurd lowerOp notSearch
  | subString => exact absurd lowerOp notSubString
  | lessThan => exact absurd lowerOp accepted.notUpper.1
  | lessThanEq => exact absurd lowerOp accepted.notUpper.2

theorem testUpper_iff (locale : MojDbLocale) (accepted : clause.Accepted)
    (filterable : clause.Filterable) (val : MojObject) :
    testUpper clause val = true ↔ clause.UpperHolds locale (MojObjectWriter.value val) := by
  rcases filterable with ⟨plain, _⟩
  unfold UpperHolds
  dsimp only
  rw [plain]
  by_cases unset : clause.upperOp = .none
  · simp [testUpper, unset]
  have known : ∃ upperVal, clause.upperVal = some upperVal := by
    rw [← Option.ne_none_iff_exists']
    exact fun missing => unset (accepted.upperVal_iff.mpr missing)
  rcases known with ⟨upperVal, upper⟩
  have scalar : isArray (some upperVal) = false := by
    rw [← upper]
    exact accepted.upperArray
  rcases accepted.upperOps with none | below | upTo
  · exact absurd none unset
  · simp only [testUpper, below, upper, decide_eq_true_eq]
    simp only [encodes_plain_scalar locale scalar, forall_eq, MojObject.compare_neg_iff]
  · simp only [testUpper, upTo, upper, decide_eq_true_eq]
    simp only [encodes_plain_scalar locale scalar, forall_eq, MojObject.compare_nonpos_iff]

theorem tested_iff (strstr : Strstr) (locale : MojDbLocale) (accepted : clause.Accepted)
    (filterable : clause.Filterable) (val : MojObject) :
    (testLower strstr clause val && testUpper clause val) = true ↔
      clause.Holds locale (MojObjectWriter.value val) := by
  rw [Bool.and_eq_true, testLower_iff strstr locale accepted filterable,
    testUpper_iff locale accepted filterable, Holds]

end MojDbQueryFilter

/-! ### The values on a path -/

namespace MojDbPropExtractor

/-- An extractor that reads values off as they are, and nothing where there are none. -/
structure Bare (extractor : MojDbPropExtractor) : Prop where
  collation : extractor.collation = .invalid
  noDefault : extractor.defaultVal = none
  whole : extractor.tokenized = false

def indexed : List MojString → MojObject → List MojObject
  | [], obj => [obj]
  | propKey :: rest, obj =>
    match obj.get propKey with
    | none => []
    | some val => (elements val).flatMap (indexed rest)

theorem elements_of_type_ne {obj : MojObject} (single : obj.type ≠ .array) :
    elements obj = [obj] := by
  cases obj with
  | array vals => exact absurd rfl single
  | _ => rfl

theorem mem_foldl_vals {handleVal : KeySet → MojObject → KeySet}
    {vals : MojObject → List MojObject}
    (adds : ∀ valsOut obj key, key ∈ handleVal valsOut obj ↔
      key ∈ valsOut ∨ ∃ val ∈ vals obj, key = MojObjectWriter.value val)
    (objs : List MojObject) (valsOut : KeySet) (key : MojDbKey) :
    key ∈ objs.foldl handleVal valsOut ↔
      key ∈ valsOut ∨ ∃ val ∈ objs.flatMap vals, key = MojObjectWriter.value val := by
  induction objs generalizing valsOut with
  | nil => simp
  | cons obj objs ih =>
    rw [List.foldl_cons, ih, adds, or_assoc, List.flatMap_cons]
    simp only [List.mem_append, or_and_right, exists_or]

variable {extractor : MojDbPropExtractor}

theorem mem_leafVals_iff (bare : extractor.Bare) (locale : MojDbLocale) (valsOut : KeySet)
    (val : MojObject) (key : MojDbKey) :
    key ∈ extractor.leafVals locale valsOut val ↔
      key ∈ valsOut ∨ key = MojObjectWriter.value val := by
  have leaf : extractor.leafVals locale valsOut val =
      valsOut.put (MojDbKey.assign val (locale.collatorOf extractor.collation)) := by
    unfold leafVals
    rw [bare.whole]
  rw [leaf, SortedSet.mem_put, bare.collation]
  exact or_comm

theorem mem_valsImpl_iff (bare : extractor.Bare) (locale : MojDbLocale) {path : List MojString}
    (nonempty : path ≠ []) (plain : wildcardKey ∉ path) (obj : MojObject) (valsOut : KeySet)
    (key : MojDbKey) :
    key ∈ extractor.valsImpl locale path obj valsOut ↔
      key ∈ valsOut ∨ ∃ val ∈ indexed path obj, key = MojObjectWriter.value val := by
  induction path generalizing obj valsOut key with
  | nil => exact absurd rfl nonempty
  | cons propKey rest ih =>
    rw [List.mem_cons, not_or] at plain
    rw [valsImpl, if_neg (Ne.symm plain.1), indexed]
    cases obj.get propKey with
    | none => simp [default, bare.noDefault, SortedSet.mem_putAll]
    | some val =>
      apply mem_foldl_vals
      intro valsOut obj key
      cases rest with
      | nil => simpa [indexed] using mem_leafVals_iff bare locale valsOut obj key
      | cons next rest => exact ih (by simp) plain.2 obj valsOut key

theorem mem_vals_iff (bare : extractor.Bare) (locale : MojDbLocale)
    (plain : wildcardKey ∉ extractor.prop) (obj : MojObject) (key : MojDbKey) :
    key ∈ (MojDbExtractor.prop extractor).vals locale obj ↔
      ∃ val ∈ indexed extractor.prop obj, key = MojObjectWriter.value val := by
  have nonempty : extractor.prop ≠ [] := extractor.path_ne_nil
  rw [MojDbExtractor.vals, vals, mem_valsImpl_iff bare locale nonempty plain]
  simp [SortedSet.not_mem_empty]

end MojDbPropExtractor

namespace MojDbQueryFilter

open MojDbPropExtractor

/-- The object as a filter reads it: arrays in the middle of the path have no arrays among their
elements, and the elements of the array at its end have no `_id`. -/
def levelled : List MojString → MojObject → MojObject
  | [], obj => obj
  | key :: rest, obj =>
    match obj.get key with
    | none => obj
    | some (.array vals) =>
      obj.put key (.array (if rest = [] then vals.map fun val => val.del idKey
        else (leavesAll vals).map (levelled rest)))
    | some val => obj.put key (levelled rest val)

theorem type_of_get {obj child : MojObject} {key : MojString} (found : obj.get key = some child) :
    obj.type ≠ .array := by
  cases obj with
  | array vals => simp [MojObject.get, MojObject.map, MojObject.find] at found
  | _ => simp [MojObject.type]

theorem levelled_type (path : List MojString) {obj : MojObject} (single : obj.type ≠ .array) :
    (levelled path obj).type ≠ .array := by
  cases path with
  | nil => exact single
  | cons key rest =>
    rw [levelled]
    split
    · exact single
    · simp [MojObject.put, MojObject.type]
    · simp [MojObject.put, MojObject.type]

mutual

theorem leaves_type (obj : MojObject) : ∀ leaf ∈ leaves obj, leaf.type ≠ .array := by
  match obj with
  | .array vals => exact leavesAll_type vals
  | .null => simp [leaves, MojObject.type]
  | .object _ => simp [leaves, MojObject.type]
  | .string _ => simp [leaves, MojObject.type]
  | .bool _ => simp [leaves, MojObject.type]
  | .decimal _ => simp [leaves, MojObject.type]
  | .int _ => simp [leaves, MojObject.type]

theorem leavesAll_type (vals : List MojObject) : ∀ leaf ∈ leavesAll vals, leaf.type ≠ .array := by
  match vals with
  | [] => simp [leavesAll]
  | val :: rest =>
    intro leaf member
    rcases List.mem_append.mp member with here | there
    · exact leaves_type val leaf here
    · exact leavesAll_type rest leaf there

end

theorem indexed_levelled (path : List MojString) {obj : MojObject} (nonempty : path ≠ [])
    (single : obj.type ≠ .array) : indexed path (levelled path obj) = values path obj := by
  induction path generalizing obj with
  | nil => exact absurd rfl nonempty
  | cons key rest ih =>
    rw [values, under, leaves_of_type_ne single, List.flatMap_singleton, indexed, levelled]
    cases found : obj.get key with
    | none => rw [found]
    | some child =>
      by_cases array : child.type = .array
      · cases child with
        | array vals =>
          simp only [MojObject.get_put, if_true, elements]
          cases rest with
          | nil =>
            rw [if_pos rfl, values, pushed]
            simp only [indexed, List.flatMap_singleton']
          | cons next rest =>
            rw [if_neg (by simp), List.flatMap_map, values, under, leaves]
            apply List.flatMap_congr
            intro leaf member
            have alone := leavesAll_type vals leaf member
            rw [ih (by simp) alone, values, under, leaves_of_type_ne alone,
              List.flatMap_singleton]
        | _ => cases array
      · have put : (match some child with
            | none => obj
            | some (.array vals) =>
              obj.put key (.array (if rest = [] then vals.map fun val => val.del idKey
                else (leavesAll vals).map (levelled rest)))
            | some val => obj.put key (levelled rest val)) =
            obj.put key (levelled rest child) := by
          cases child with
          | array vals => exact absurd rfl array
          | _ => rfl
        rw [put, MojObject.get_put, if_pos rfl]
        dsimp only
        rw [elements_of_type_ne (levelled_type rest array), List.flatMap_singleton]
        cases rest with
        | nil =>
          rw [levelled, indexed, values]
          cases child with
          | array vals => exact absurd rfl array
          | _ => rfl
        | cons next rest => exact ih (by simp) array

end MojDbQueryFilter

/-! ### The keys of an object -/

namespace MojDbIndex

theorem vals_at {props : List MojDbExtractor} (nodup : (propNames props).Nodup)
    (vals : MojDbExtractor → KeySet) {parts : List MojDbKey}
    (members : List.Forall₂ (fun part vals => part ∈ vals) parts (props.map vals))
    {extractor : MojDbExtractor} (here : extractor ∈ props) :
    ∃ part ∈ vals extractor, (((propNames props).zip parts).find? fun entry =>
      decide (entry.1 = extractor.name)).map Prod.snd = some part := by
  induction props generalizing parts with
  | nil => exact absurd here List.not_mem_nil
  | cons prop props ih =>
    cases members with
    | cons first rest =>
      rw [propNames, List.map_cons, List.nodup_cons] at nodup
      rw [propNames, List.map_cons, partOf_cons]
      rcases List.mem_cons.mp here with rfl | there
      · rw [if_pos rfl]
        exact ⟨_, first, rfl⟩
      · have distinct : prop.name ≠ extractor.name := by
          intro same
          exact nodup.1 (same ▸ List.mem_map.mpr ⟨extractor, there, rfl⟩)
        rw [if_neg distinct]
        exact ih nodup.2 rest there

/-- The keys of an object take every combination of its values, so there is one that answers all
clauses as soon as every property has a value that answers its own. -/
theorem satisfied_iff (index : MojDbIndex) (planned : MojDbQuery) (obj : MojObject)
    (known : ∀ entry ∈ planned.whereClauses.entries, entry.1 ∈ index.names) :
    (∃ key ∈ index.getKeys obj, ∃ parts, index.Spells parts key ∧ index.Satisfies planned parts) ↔
      ∀ extractor ∈ index.props, ∃ part ∈ extractor.vals index.locale obj,
        ∀ entry ∈ planned.whereClauses.entries, entry.1 = extractor.name →
          entry.2.Holds index.locale part := by
  constructor
  · rintro ⟨key, member, parts, spells, satisfies⟩ extractor here
    rcases (index.mem_getKeys obj key).mp member with ⟨others, members, same⟩
    have equal := spells.unique (same ▸ index.spells_of_vals obj members)
    subst equal
    rcases vals_at index.distinctNames _ members here with ⟨part, partIn, found⟩
    apply Exists.intro part
    apply And.intro partIn
    intro entry entryIn named
    rcases satisfies entry entryIn with ⟨other, otherFound, holds⟩
    rw [partOf, names, named, found] at otherFound
    rw [Option.some.inj otherFound]
    exact holds
  · intro each
    choose! pick pickIn holds using each
    have picked (vals : MojDbExtractor → KeySet)
        (inVals : ∀ extractor ∈ index.props, pick extractor ∈ vals extractor) :
        List.Forall₂ (fun part vals => part ∈ vals) (index.props.map pick)
          (index.props.map vals) := by
      rw [List.forall₂_map_left_iff, List.forall₂_map_right_iff, List.forall₂_same]
      exact inVals
    have members := picked (fun extractor => extractor.vals index.locale obj) pickIn
    refine ⟨_, (index.mem_getKeys obj _).mpr ⟨_, members, rfl⟩, _,
      index.spells_of_vals obj members, ?_⟩
    intro entry entryIn
    rcases List.mem_map.mp (known entry entryIn) with ⟨extractor, here, named⟩
    have own := picked (fun extractor => SortedSet.single (pick extractor))
      fun extractor _ => (SortedSet.mem_single _ _).mpr rfl
    rcases vals_at index.distinctNames _ own here with ⟨part, partIn, found⟩
    rw [SortedSet.mem_single] at partIn
    apply Exists.intro part
    rw [partOf, names, ← named]
    apply And.intro found
    rw [partIn]
    exact holds extractor here entry entryIn named.symm

theorem openProps_single {id : MojObject} {locale : MojDbLocale} {extractor : MojDbExtractor}
    {includeDeleted created : Bool} {index : MojDbIndex}
    (opened : openProps id locale [extractor] includeDeleted created = .ok index) :
    index.locale = locale ∧ extractor ∈ index.props ∧ ∀ prop ∈ index.props,
      prop = extractor ∨ prop = idProp ∨ prop = delProp ∧ includeDeleted = true := by
  have own : addProps [] [extractor] = .ok [extractor] := by
    simp [addProps, addProp, propNames, bind, Except.bind]
  unfold openProps at opened
  split at opened
  · cases opened
  · next configured added =>
      rw [own] at added
      cases added
      rw [if_neg (by simp)] at opened
      split at opened
      · cases opened
      · next props builtin =>
          cases opened
          rcases except_bind_ok builtin with ⟨withId, first, second⟩
          have idParts : extractor ∈ withId ∧
              ∀ prop ∈ withId, prop = extractor ∨ prop = idProp := by
            unfold addIdProp at first
            split_ifs at first with present
            · cases first
              simp
            · rcases addProp_ok (by simp [propNames]) first with ⟨_, ⟨_, front⟩ | ⟨rfl, _⟩⟩
              · cases front
              · simp
          unfold addDelProp at second
          split_ifs at second with missing
          · have nodup := (addIdProp_ok (by simp [propNames]) first).1
            rcases addProp_ok nodup second with ⟨_, ⟨rfl, _⟩ | ⟨_, back⟩⟩
            · refine ⟨rfl, List.mem_cons_of_mem _ idParts.1, ?_⟩
              intro prop member
              rcases List.mem_cons.mp member with rfl | there
              · exact .inr (.inr ⟨rfl, missing.1⟩)
              · rcases idParts.2 prop there with same | same
                · exact .inl same
                · exact .inr (.inl same)
            · cases back
          · cases second
            refine ⟨rfl, idParts.1, ?_⟩
            intro prop member
            rcases idParts.2 prop member with same | same
            · exact .inl same
            · exact .inr (.inl same)

end MojDbIndex

/-! ### One clause -/

namespace MojDbQueryFilter

open MojDbPropExtractor
open WhereClause

theorem get_levelled_of_ne {key other : MojString} (distinct : key ≠ other) (rest : List MojString)
    (obj : MojObject) : (levelled (key :: rest) obj).get other = obj.get other := by
  rw [levelled]
  split
  · rfl
  · rw [MojObject.get_put, if_neg distinct]
  · rw [MojObject.get_put, if_neg distinct]

/-- An object on which the filter finds a value has an id behind the id's own property. -/
theorem levelled_ids {path : List MojString} (nonempty : path ≠ []) {obj id : MojObject}
    (named : obj.get idKey = some id) (filled : id ≠ .array []) (found : values path obj ≠ []) :
    indexed [idKey] (levelled path obj) ≠ [] := by
  have single := type_of_get named
  rw [← indexed_levelled path nonempty single] at found
  cases path with
  | nil => exact absurd rfl nonempty
  | cons key rest =>
    by_cases same : key = idKey
    · subst same
      rw [indexed] at found ⊢
      cases here : (levelled (idKey :: rest) obj).get idKey with
      | none => simp [here] at found
      | some val =>
        intro none
        rw [here] at found
        simp only [indexed, List.flatMap_singleton'] at none
        simp [none] at found
    · rw [indexed, get_levelled_of_ne same, named]
      simp only [indexed, List.flatMap_singleton']
      cases id with
      | array vals => simpa [elements] using filled
      | _ => simp [elements]

/-- The flag of an object that is not deleted, as stored: there is none, or it is false. -/
def NotDeleted (obj : MojObject) : Prop :=
  obj.get delKey = none ∨ obj.get delKey = some (.bool false)

theorem notDeleted_levelled (path : List MojString) {obj : MojObject} (live : NotDeleted obj) :
    NotDeleted (levelled path obj) := by
  cases path with
  | nil => exact live
  | cons key rest =>
    by_cases same : key = delKey
    · subst same
      rcases live with none | no
      · rw [levelled, none]
        exact .inl none
      · have kept : levelled rest (.bool false) = .bool false := by
          cases rest <;> simp [levelled, MojObject.get, MojObject.map, MojObject.find]
        rw [levelled, no]
        dsimp only
        rw [kept, NotDeleted, MojObject.get_put, if_pos rfl]
        exact .inr rfl
    · rw [NotDeleted, get_levelled_of_ne same]
      exact live

theorem delProp_vals (locale : MojDbLocale) {obj : MojObject} (live : NotDeleted obj) :
    MojObjectWriter.value (.bool false) ∈ delProp.vals locale obj := by
  have path : split propComponentSeparator [] delKey = [delKey] := by decide
  have plain : delKey ≠ wildcardKey := by decide
  have written : MojDbKey.assign (.bool false) none = MojObjectWriter.value (.bool false) := rfl
  simp only [delProp, MojDbExtractor.vals, MojDbPropExtractor.vals, MojDbPropExtractor.prop, path,
    MojDbPropExtractor.valsImpl, if_neg plain]
  rcases live with none | no
  · rw [none]
    simp [MojDbPropExtractor.default, elements, SortedSet.mem_putAll, written]
  · rw [no]
    simp [elements, MojDbPropExtractor.leafVals, MojDbLocale.collatorOf, written]

theorem idProp_vals_iff (locale : MojDbLocale) (obj : MojObject) (code : MojDbKey) :
    code ∈ idProp.vals locale obj ↔
      ∃ val ∈ indexed [idKey] obj, code = MojObjectWriter.value val := by
  have path : prop ⟨idKey, .invalid, none, false, by decide⟩ = [idKey] := by decide
  have bare : Bare ⟨idKey, .invalid, none, false, by decide⟩ := ⟨rfl, rfl, rfl⟩
  have plain : wildcardKey ∉ prop ⟨idKey, .invalid, none, false, by decide⟩ := by decide
  have found := mem_vals_iff bare locale plain obj code
  rwa [path] at found

section Single

variable {extractor : MojDbPropExtractor} {id : MojObject} {locale : MojDbLocale}
  {includeDeleted created : Bool} {index : MojDbIndex} {query planned : MojDbQuery}
  {clause : WhereClause}

theorem plannable_single (single : query.whereClauses.entries = [(extractor.name, clause)])
    (filterable : clause.Filterable) : Plannable query.whereClauses := by
  have accepted := query.whereClauses.accepted (extractor.name, clause) (by simp [single])
  unfold Plannable
  simp only [single, List.mem_singleton, forall_eq, exists_eq_left]
  apply And.intro filterable.ops.2.2
  intro inequality noVals
  rcases accepted.lowerArray (by rw [noVals]; rfl) with same | same | same
  · exact inequality.1 same
  · exact inequality.2.1 same
  · exact filterable.ops.2.2 same

/-- With one clause, an object has a key that answers the planned query when it has a value that
answers the clause: the built-in properties always have one. -/
theorem satisfied_single
    (opened : MojDbIndex.openProps id locale [.prop extractor] includeDeleted created = .ok index)
    (single : query.whereClauses.entries = [(extractor.name, clause)])
    (from_ : PlannedFrom query planned)
    (known : ∀ entry ∈ planned.whereClauses.entries, entry.1 ∈ index.names) (obj : MojObject)
    (ids : indexed [idKey] obj ≠ [])
    (live : includeDeleted = true → extractor.name ≠ delKey → NotDeleted obj) :
    (∃ key ∈ index.getKeys obj, ∃ parts, index.Spells parts key ∧
        index.Satisfies planned parts) ↔
      ∃ part ∈ (MojDbExtractor.prop extractor).vals locale obj, clause.Holds locale part := by
  rcases MojDbIndex.openProps_single opened with ⟨rfl, own, props⟩
  have clauseIn : (extractor.name, clause) ∈ planned.whereClauses.entries :=
    (from_.entries _).mpr (.inl (by simp [single]))
  rw [index.satisfied_iff planned obj known]
  constructor
  · intro each
    rcases each _ own with ⟨part, partIn, holds⟩
    exact ⟨part, partIn, holds _ clauseIn rfl⟩
  · rintro ⟨part, partIn, holds⟩ prop propIn
    by_cases named : prop.name = extractor.name
    · have same : prop = .prop extractor :=
        List.inj_on_of_nodup_map index.distinctNames propIn own named
      subst same
      apply Exists.intro part
      apply And.intro partIn
      intro entry entryIn entryNamed
      have equal := List.inj_on_of_nodup_map planned.whereClauses.nodup entryIn clauseIn entryNamed
      rw [equal]
      exact holds
    · have added : ∀ entry ∈ planned.whereClauses.entries, entry.1 = prop.name →
          entry = (delKey, notDeleted) := by
        intro entry entryIn entryNamed
        rcases (from_.entries entry).mp entryIn with old | new
        · rw [single, List.mem_singleton] at old
          rw [old] at entryNamed
          exact absurd entryNamed.symm named
        · exact new.1
      rcases props prop propIn with rfl | rfl | ⟨rfl, incDel⟩
      · exact absurd rfl named
      · rcases List.exists_mem_of_ne_nil _ ids with ⟨val, valIn⟩
        refine ⟨_, (idProp_vals_iff _ obj _).mpr ⟨val, valIn, rfl⟩, ?_⟩
        intro entry entryIn entryNamed
        rw [added entry entryIn entryNamed] at entryNamed
        exact absurd entryNamed (by decide)
      · have notOwn : extractor.name ≠ delKey := fun same => named same.symm
        refine ⟨_, delProp_vals _ (live incDel notOwn), ?_⟩
        intro entry entryIn entryNamed
        rw [added entry entryIn entryNamed]
        simp [Holds, LowerHolds, UpperHolds, notDeleted, encodes_plain, elements]

end Single

/-- A filter of one clause passes an object exactly when an index on the clause's path has a key for
the levelled object in the ranges of the clause. -/
theorem test_iff_key_in_ranges (strstr : Strstr) (extractor : MojDbPropExtractor)
    (bare : extractor.Bare) (plain : wildcardKey ∉ extractor.prop) (id : MojObject)
    (locale : MojDbLocale) (includeDeleted created : Bool) (index : MojDbIndex)
    (opened : MojDbIndex.openProps id locale [.prop extractor] includeDeleted created = .ok index)
    (query : MojDbQuery) (clause : WhereClause)
    (single : query.whereClauses.entries = [(extractor.name, clause)])
    (filterable : clause.Filterable) (answers : index.canAnswer query = true)
    (noPage : query.page = []) :
    ∃ plan, MojDbQueryPlan.init query index = .ok plan ∧
      ∀ obj objId, obj.get idKey = some objId → objId ≠ .array [] →
        (includeDeleted = true → extractor.name ≠ delKey → NotDeleted obj) →
        ((∃ key ∈ index.getKeys (levelled extractor.prop obj),
            ∃ range ∈ plan.ranges, range.contains key) ↔
          test strstr ⟨query.whereClauses.entries⟩ obj = true) := by
  have accepted := query.whereClauses.accepted (extractor.name, clause) (by simp [single])
  rcases init_spec answers with ⟨planned, bound, rest, _, answered, from_, builds, _⟩
  rcases builds (plannable_single single filterable) with ⟨plan, ranges, built, _, spec, rangesEq⟩
  have exact := (planExact_of_spec (from_.page.trans noPage) spec rangesEq).exact
  have known : ∀ entry ∈ planned.whereClauses.entries, entry.1 ∈ index.names := by
    intro entry member
    rw [answered.names]
    exact List.mem_append_left _
      (List.mem_map.mpr ⟨entry, (answered.mem_bound_iff entry).mpr member, rfl⟩)
  refine ⟨plan, built, ?_⟩
  intro obj objId named filled live
  have nonempty : extractor.prop ≠ [] := extractor.path_ne_nil
  have meets : (∃ key ∈ index.getKeys (levelled extractor.prop obj),
        ∃ range ∈ plan.ranges, range.contains key) ↔
      ∃ key ∈ index.getKeys (levelled extractor.prop obj), ∃ parts, index.Spells parts key ∧
        index.Satisfies planned parts := by
    constructor
    · rintro ⟨key, member, inRange⟩
      rcases index.getKeys_spelled _ member with ⟨parts, spells⟩
      exact ⟨key, member, parts, spells, (exact _ key parts member spells).mp inRange⟩
    · rintro ⟨key, member, parts, spells, satisfies⟩
      exact ⟨key, member, (exact _ key parts member spells).mpr satisfies⟩
  have tested : test strstr ⟨query.whereClauses.entries⟩ obj = true ↔
      ∃ val ∈ values extractor.prop obj, clause.Holds locale (MojObjectWriter.value val) := by
    simp only [test, single, List.all_cons, List.all_nil, Bool.and_true, testClause_eq,
      List.any_eq_true, tested_iff strstr locale accepted filterable]
    rfl
  rw [meets, tested]
  by_cases found : values extractor.prop obj = []
  · constructor
    · rintro ⟨key, member, parts, spells, satisfies⟩
      rcases MojDbIndex.openProps_single opened with ⟨_, own, _⟩
      have each := (index.satisfied_iff planned _ known).mp
        ⟨key, member, parts, spells, satisfies⟩
      rcases each _ own with ⟨part, partIn, _⟩
      rcases (mem_vals_iff bare _ plain _ _).mp partIn with ⟨val, valIn, _⟩
      rw [indexed_levelled _ nonempty (type_of_get named), found] at valIn
      exact absurd valIn List.not_mem_nil
    · rintro ⟨val, valIn, _⟩
      rw [found] at valIn
      exact absurd valIn List.not_mem_nil
  · rw [satisfied_single opened single from_ known _ (levelled_ids nonempty named filled found)
      fun incDel notOwn => notDeleted_levelled _ (live incDel notOwn)]
    simp only [mem_vals_iff bare locale plain, indexed_levelled _ nonempty (type_of_get named)]
    constructor
    · rintro ⟨_, ⟨val, valIn, rfl⟩, holds⟩
      exact ⟨val, valIn, holds⟩
    · rintro ⟨val, valIn, holds⟩
      exact ⟨_, ⟨val, valIn, rfl⟩, holds⟩

/-! ### Objects on which they disagree -/

def elemProp : MojDbPropExtractor := ⟨chars ['a'], .invalid, none, false, path_a⟩

def innerProp : MojDbPropExtractor := ⟨chars ['a', '.', 'b'], .invalid, none, false, path_a_b⟩

def elemIndex (extractor : MojDbPropExtractor) (other : extractor.name ≠ idKey) : MojDbIndex where
  id := .int 7
  locale := plainLocale
  sortKey := [extractor.name]
  props := [.prop extractor, idProp]
  includeDeleted := false
  ready := true
  distinctNames := by simpa [propNames, idProp, MojDbExtractor.name] using other
  hasId := by simp [propNames, idProp, MojDbExtractor.name]
  delFront := by simp

def elemClause (val : MojObject) : WhereClause := ⟨.eq, .none, some val, none, .invalid⟩

def elemQuery (name : MojString) (val : MojObject) : MojDbQuery :=
  { MojDbQuery.init (chars ['K']) with
    whereClauses := {
      entries := [(name, elemClause val)]
      nodup := by simp
      accepted := by
        intro entry member
        rw [List.mem_singleton.mp member]
        constructor <;> simp [elemClause, isArray] } }

/-- `\x7bb: 1\x7d`. -/
def elem : MojObject := .object [(chars ['b'], .int 1)]

/-- An object as it is stored with `elem` in an array: there the element has an id. -/
def taggedObj : MojObject :=
  .object [(idKey, .string (chars ['1'])), (chars ['a'], .array [elem.put idKey (.string (chars ['2']))])]

/-- `elem` in an array in an array. -/
def nestedObj : MojObject :=
  .object [(idKey, .string (chars ['1'])), (chars ['a'], .array [.array [elem]])]

/-- An object whose id is an array of nothing has no keys at all. -/
def idlessObj : MojObject := .object [(idKey, .array []), (chars ['a'], elem)]

/-- The filter passes these objects and their index has no key in the ranges of the same clause. -/
theorem test_without_key_in_ranges :
    ∃ elemPlan innerPlan,
      MojDbQueryPlan.init (elemQuery (chars ['a']) elem) (elemIndex elemProp (by decide)) =
        .ok elemPlan ∧
      MojDbQueryPlan.init (elemQuery (chars ['a', '.', 'b']) (.int 1))
        (elemIndex innerProp (by decide)) = .ok innerPlan ∧
      (test (fun _ _ => false) ⟨[(chars ['a'], elemClause elem)]⟩ taggedObj = true ∧
        ¬∃ key ∈ (elemIndex elemProp (by decide)).getKeys taggedObj,
          ∃ range ∈ elemPlan.ranges, range.contains key) ∧
      (test (fun _ _ => false) ⟨[(chars ['a', '.', 'b'], elemClause (.int 1))]⟩ nestedObj = true ∧
        ¬∃ key ∈ (elemIndex innerProp (by decide)).getKeys nestedObj,
          ∃ range ∈ innerPlan.ranges, range.contains key) ∧
      test (fun _ _ => false) ⟨[(chars ['a'], elemClause elem)]⟩ idlessObj = true ∧
        ¬∃ key ∈ (elemIndex elemProp (by decide)).getKeys idlessObj,
          ∃ range ∈ elemPlan.ranges, range.contains key := by
  refine ⟨_, _, rfl, rfl, ⟨by decide +kernel, ?_⟩, ⟨by decide +kernel, ?_⟩, by decide +kernel, ?_⟩
  · simp only [SortedSet.mem_def]
    decide +kernel
  · simp only [SortedSet.mem_def]
    decide +kernel
  · simp only [SortedSet.mem_def]
    decide +kernel

theorem test_iff_key_in_ranges_of_elem :
    ∃ plan, MojDbQueryPlan.init (elemQuery (chars ['a']) elem) (elemIndex elemProp (by decide)) =
        .ok plan ∧
      ∀ obj objId, obj.get idKey = some objId → objId ≠ .array [] →
        (false = true → elemProp.name ≠ delKey → NotDeleted obj) →
        ((∃ key ∈ (elemIndex elemProp (by decide)).getKeys (levelled elemProp.prop obj),
            ∃ range ∈ plan.ranges, range.contains key) ↔
          test (fun _ _ => false) ⟨[(chars ['a'], elemClause elem)]⟩ obj = true) :=
  test_iff_key_in_ranges (fun _ _ => false) elemProp ⟨rfl, rfl, rfl⟩ (by decide) (.int 7)
    plainLocale false false _ rfl _ (elemClause elem) rfl ⟨rfl, by simp [elemClause]⟩
    (by decide) rfl

end MojDbQueryFilter

end Db8.Db
