import Db8.Core.Compare
import Db8.Db.PlanExact

/-!
# Filters

`MojDbQueryFilter` looks at an object where a plan looks at its keys. Both follow a dotted path through
the arrays on it. The filter enters arrays that lie directly within one another, and takes the `_id`
off the elements of the array at the end, since `assignIds` has put it there; an index does neither.
On an object that has been rid of both they agree.
-/

set_option autoImplicit false

namespace Db8.Db

open Db8.Bytes
open Db8.Core

structure MojDbQueryFilter where
  clauses : List (MojString × WhereClause)

namespace MojDbQueryFilter

def init (query : MojDbQuery) : MojDbQueryFilter := ⟨query.filterClauses.entries⟩

def pushed : MojObject → List MojObject
  | .array vals => vals.map fun val => val.del idKey
  | val => [val]

mutual

/-- One component of the path in `findValue`: the elements of an array are looked into for the same
component, one after the other, and whatever they return. -/
def enter (found : MojObject → List MojObject → Bool × List MojObject) (key : MojString) :
    MojObject → List MojObject → Bool × List MojObject
  | .array vals, valOut =>
    let valOut := enterAll found key vals valOut
    (!valOut.isEmpty, valOut)
  | childObj, valOut =>
    match childObj.get key with
    | none => (false, valOut)
    | some childObj => found childObj valOut

def enterAll (found : MojObject → List MojObject → Bool × List MojObject) (key : MojString) :
    List MojObject → List MojObject → List MojObject
  | [], valOut => valOut
  | val :: rest, valOut => enterAll found key rest (enter found key val valOut).2

end

/-- `findValue`: its result and what `valOut` is left with. -/
def findValue : List MojString → MojObject → List MojObject → Bool × List MojObject
  | [], childObj, valOut => (true, valOut ++ pushed childObj)
  | key :: rest, childObj, valOut => enter (findValue rest) key childObj valOut

/-- Whether a text contains another one, both in upper case. That is the platform's. -/
abbrev Strstr := MojString → MojString → Bool

mutual

def findSubString (strstr : Strstr) (src : MojObject) : MojObject → Bool
  | .array subStrings => findSubStrings strstr src subStrings
  | .string subString =>
    match src with
    | .string text =>
      if text.isEmpty && subString.isEmpty then true
      else if text.isEmpty || subString.isEmpty then false
      else strstr text subString
    | _ => false
  | _ => false

def findSubStrings (strstr : Strstr) (src : MojObject) : List MojObject → Bool
  | [] => false
  | subString :: rest => findSubString strstr src subString || findSubStrings strstr src rest

end

/-- An operator that has been set has a value, so an undefined one is never compared with. -/
def testLower (strstr : Strstr) (clause : WhereClause) (val : MojObject) : Bool :=
  match clause.lowerOp, clause.lowerVal with
  | .none, _ => true
  | .eq, some (.array lowerVals) => lowerVals.any fun lowerVal => decide (val = lowerVal)
  | .eq, some lowerVal => decide (val = lowerVal)
  | .notEq, some lowerVal => decide (val ≠ lowerVal)
  | .greaterThan, some lowerVal => decide (0 < val.compare lowerVal)
  | .greaterThanEq, some lowerVal => decide (0 ≤ val.compare lowerVal)
  | .subString, some lowerVal => findSubString strstr val lowerVal
  | _, _ => false

def testUpper (clause : WhereClause) (val : MojObject) : Bool :=
  match clause.upperOp, clause.upperVal with
  | .none, _ => true
  | .lessThan, some upperVal => decide (val.compare upperVal < 0)
  | .lessThanEq, some upperVal => decide (val.compare upperVal ≤ 0)
  | _, _ => false

def testClause (strstr : Strstr) (obj : MojObject) (propName : MojString) (clause : WhereClause) :
    Bool :=
  match findValue (split propComponentSeparator [] propName) obj [] with
  | (false, _) => false
  | (true, objVals) => objVals.any fun val => testLower strstr clause val && testUpper clause val

def test (strstr : Strstr) (filter : MojDbQueryFilter) (obj : MojObject) : Bool :=
  filter.clauses.all fun entry => testClause strstr obj entry.1 entry.2

/-! ### The values a filter looks at -/

mutual

/-- What is found in an array once the arrays within it are opened. -/
def leaves : MojObject → List MojObject
  | .array vals => leavesAll vals
  | val => [val]

def leavesAll : List MojObject → List MojObject
  | [] => []
  | val :: rest => leaves val ++ leavesAll rest

end

def under (vals : MojObject → List MojObject) (key : MojString) (obj : MojObject) : List MojObject :=
  (leaves obj).flatMap fun leaf =>
    match leaf.get key with
    | none => []
    | some child => vals child

def values : List MojString → MojObject → List MojObject
  | [], obj => pushed obj
  | key :: rest, obj => under (values rest) key obj

theorem leaves_of_type_ne {obj : MojObject} (single : obj.type ≠ .array) : leaves obj = [obj] := by
  cases obj with
  | array vals => exact absurd rfl single
  | _ => rfl

theorem enter_of_type_ne (found : MojObject → List MojObject → Bool × List MojObject)
    (key : MojString) {obj : MojObject} (single : obj.type ≠ .array) (valOut : List MojObject) :
    enter found key obj valOut =
      match obj.get key with
      | none => (false, valOut)
      | some child => found child valOut := by
  cases obj with
  | array vals => exact absurd rfl single
  | _ => rfl

section Enter

variable {found : MojObject → List MojObject → Bool × List MojObject}
  {vals : MojObject → List MojObject}

theorem enter_single (finds : ∀ child valOut, (found child valOut).2 = valOut ++ vals child)
    {key : MojString} {obj : MojObject} (single : obj.type ≠ .array) (valOut : List MojObject) : (enter found key obj valOut).2 = valOut ++ under vals key obj := by
  rw [enter_of_type_ne found key single, under, leaves_of_type_ne single, List.flatMap_singleton]
  cases obj.get key with
  | none => rw [List.append_nil]
  | some child => exact finds child valOut

mutual

theorem enter_values (finds : ∀ child valOut, (found child valOut).2 = valOut ++ vals child)
    (key : MojString) (obj : MojObject) (valOut : List MojObject) :
    (enter found key obj valOut).2 = valOut ++ under vals key obj := by
  match obj with
  | .array elems =>
    rw [enter]
    exact enterAll_values finds key elems valOut
  | .null => exact enter_single finds (by simp [MojObject.type]) valOut
  | .object _ => exact enter_single finds (by simp [MojObject.type]) valOut
  | .string _ => exact enter_single finds (by simp [MojObject.type]) valOut
  | .bool _ => exact enter_single finds (by simp [MojObject.type]) valOut
  | .decimal _ => exact enter_single finds (by simp [MojObject.type]) valOut
  | .int _ => exact enter_single finds (by simp [MojObject.type]) valOut

theorem enterAll_values (finds : ∀ child valOut, (found child valOut).2 = valOut ++ vals child)
    (key : MojString) (elems : List MojObject) (valOut : List MojObject) :
    enterAll found key elems valOut = valOut ++ under vals key (.array elems) := by
  match elems with
  | [] => simp [enterAll, under, leaves, leavesAll]
  | elem :: rest =>
    rw [enterAll, enter_values finds key elem valOut, enterAll_values finds key rest,
      List.append_assoc]
    simp only [under, leaves, leavesAll, List.flatMap_append]

end

end Enter

theorem findValue_values (path : List MojString) (obj : MojObject) (valOut : List MojObject) :
    (findValue path obj valOut).2 = valOut ++ values path obj := by
  induction path generalizing obj valOut with
  | nil => rfl
  | cons key rest ih => exact enter_values ih key obj valOut

theorem values_of_not_found (path : List MojString) (obj : MojObject)
    (missing : (findValue path obj []).1 = false) : values path obj = [] := by
  induction path generalizing obj with
  | nil => cases missing
  | cons key rest ih =>
    by_cases single : obj.type = .array
    · have pushedAll := findValue_values (key :: rest) obj []
      cases obj with
      | array vals =>
        rw [findValue, enter] at missing pushedAll
        simp only [Bool.not_eq_false', List.isEmpty_iff, List.nil_append] at missing pushedAll
        rw [← pushedAll, missing]
      | _ => cases single
    · rw [findValue, enter_of_type_ne _ _ single] at missing
      rw [values, under, leaves_of_type_ne single, List.flatMap_singleton]
      cases here : obj.get key with
      | none => rfl
      | some child =>
        rw [here] at missing
        exact ih child missing

theorem testClause_eq (strstr : Strstr) (obj : MojObject) (propName : MojString)
    (clause : WhereClause) :
    testClause strstr obj propName clause =
      (values (split propComponentSeparator [] propName) obj).any fun val =>
        testLower strstr clause val && testUpper clause val := by
  have pushedAll := findValue_values (split propComponentSeparator [] propName) obj []
  have missing := values_of_not_found (split propComponentSeparator [] propName) obj
  rw [testClause]
  revert pushedAll missing
  rcases findValue (split propComponentSeparator [] propName) obj [] with ⟨found, objVals⟩
  intro pushedAll missing
  cases found with
  | false => rw [missing rfl, List.any_nil]
  | true =>
    rw [List.nil_append] at pushedAll
    rw [← pushedAll]

end MojDbQueryFilter

end Db8.Db
