import Db8.Core.PropMap
import Db8.Db.PutObj

/-!
# The laws of a merge

`MojDb::mergeInto` goes through the properties of two objects side by side. What it leaves under a name
is decided by what the two have under it, at every depth. Merging the same object again changes nothing.
Of three objects it may matter which two are merged first: where the middle one has a value that is not
an object, what the first has there is gone for the last.
-/

set_option autoImplicit false

namespace Db8.Db.MojDb

open Db8.Bytes
open Db8.Core
open MojObject

abbrev Props := List (MojString × MojObject)

def mergeOption : Option MojObject → Option MojObject → Option MojObject
  | some val, some old => some (mergeVal val old)
  | some val, none => some val
  | none, old => old

@[simp] theorem mergeOption_none_left (old : Option MojObject) : mergeOption none old = old := by
  cases old <;> rfl

@[simp] theorem mergeOption_none_right (val : Option MojObject) : mergeOption val none = val := by
  cases val <;> rfl

@[simp] theorem mergeProps_nil (prev : Props) : mergeProps [] prev = prev := by
  rw [mergeProps]

@[simp] theorem mergeProps_nil_right (obj : Props) : mergeProps obj [] = obj := by
  cases obj with
  | nil => exact mergeProps_nil []
  | cons head obj =>
    rw [mergeProps]
    simp

variable {key : MojString}

theorem find_of_above {props : Props}
    (above : ∀ prop ∈ props, key.map Subtype.val < prop.1.map Subtype.val) :
    find props key = none := by
  cases found : find props key with
  | none => rfl
  | some val => exact absurd (above _ (mem_of_find found)) (lt_irrefl _)

theorem find_mergeProps {obj prev : Props} (objSorted : Sorted obj) (prevSorted : Sorted prev)
    (key : MojString) : find (mergeProps obj prev) key = mergeOption (find obj key) (find prev key) := by
  induction obj generalizing prev with
  | nil => simp
  | cons first obj ihObj =>
    rcases first with ⟨one, val⟩
    rcases sorted_cons.mp objSorted with ⟨objAbove, objRest⟩
    induction prev with
    | nil => simp
    | cons other prev ihPrev =>
      rcases other with ⟨two, old⟩
      rcases sorted_cons.mp prevSorted with ⟨prevAbove, prevRest⟩
      rw [mergeProps]
      split_ifs with same below
      · subst same
        rw [find_cons, find_cons, find_cons, ihObj objRest prevRest]
        split_ifs <;> rfl
      · rw [find_cons, ihObj objRest prevSorted, find_cons one]
        by_cases here : one = key
        · subst here
          have gone : find ((two, old) :: prev) one = none := by
            apply find_of_above
            intro prop member
            rcases List.mem_cons.mp member with rfl | member
            · exact below
            · exact lt_trans below (prevAbove prop member)
          rw [if_pos rfl, if_pos rfl, gone, mergeOption_none_right]
        · rw [if_neg here, if_neg here]
      · have before := names_lt_or same below
        rw [find_cons, ihPrev prevRest, find_cons two]
        by_cases here : two = key
        · subst here
          have gone : find ((one, val) :: obj) two = none := by
            apply find_of_above
            intro prop member
            rcases List.mem_cons.mp member with rfl | member
            · exact before
            · exact lt_trans before (objAbove prop member)
          rw [if_pos rfl, if_pos rfl, gone, mergeOption_none_left]
        · rw [if_neg here, if_neg here]

theorem mem_names_mergeProps {obj prev : Props} {prop : MojString × MojObject}
    (member : prop ∈ mergeProps obj prev) :
    prop.1 ∈ obj.map Prod.fst ∨ prop.1 ∈ prev.map Prod.fst := by
  induction obj generalizing prev with
  | nil =>
    rw [mergeProps_nil] at member
    exact Or.inr (List.mem_map_of_mem member)
  | cons first obj ihObj =>
    rcases first with ⟨one, val⟩
    induction prev with
    | nil =>
      rw [mergeProps_nil_right] at member
      exact Or.inl (List.mem_map_of_mem member)
    | cons other prev ihPrev =>
      rcases other with ⟨two, old⟩
      rw [mergeProps] at member
      split_ifs at member with same below
      · rcases List.mem_cons.mp member with rfl | member
        · exact Or.inl List.mem_cons_self
        · exact (ihObj member).imp (List.mem_cons_of_mem one) (List.mem_cons_of_mem two)
      · rcases List.mem_cons.mp member with rfl | member
        · exact Or.inl List.mem_cons_self
        · exact (ihObj member).imp_left (List.mem_cons_of_mem one)
      · rcases List.mem_cons.mp member with rfl | member
        · exact Or.inr List.mem_cons_self
        · exact (ihPrev member).imp_right (List.mem_cons_of_mem two)

theorem sorted_mergeProps {obj prev : Props} (objSorted : Sorted obj) (prevSorted : Sorted prev) :
    Sorted (mergeProps obj prev) := by
  have above : ∀ {key : MojString} {left right : Props},
      (∀ prop ∈ left, key.map Subtype.val < prop.1.map Subtype.val) →
      (∀ prop ∈ right, key.map Subtype.val < prop.1.map Subtype.val) →
      ∀ prop ∈ mergeProps left right, key.map Subtype.val < prop.1.map Subtype.val := by
    intro key left right leftAbove rightAbove prop member
    rcases mem_names_mergeProps member with named | named
    · rcases List.mem_map.mp named with ⟨own, inside, same⟩
      rw [← same]
      exact leftAbove own inside
    · rcases List.mem_map.mp named with ⟨own, inside, same⟩
      rw [← same]
      exact rightAbove own inside
  induction obj generalizing prev with
  | nil =>
    rw [mergeProps_nil]
    exact prevSorted
  | cons first obj ihObj =>
    rcases first with ⟨one, val⟩
    rcases sorted_cons.mp objSorted with ⟨objAbove, objRest⟩
    induction prev with
    | nil =>
      rw [mergeProps_nil_right]
      exact objSorted
    | cons other prev ihPrev =>
      rcases other with ⟨two, old⟩
      rcases sorted_cons.mp prevSorted with ⟨prevAbove, prevRest⟩
      rw [mergeProps]
      split_ifs with same below
      · subst same
        exact sorted_cons.mpr ⟨above objAbove prevAbove, ihObj objRest prevRest⟩
      · refine sorted_cons.mpr ⟨above objAbove ?_, ihObj objRest prevSorted⟩
        intro prop member
        rcases List.mem_cons.mp member with rfl | member
        · exact below
        · exact lt_trans below (prevAbove prop member)
      · have before := names_lt_or same below
        refine sorted_cons.mpr ⟨above ?_ prevAbove, ihPrev prevRest⟩
        intro prop member
        rcases List.mem_cons.mp member with rfl | member
        · exact before
        · exact lt_trans before (objAbove prop member)

@[simp] theorem mergeVal_object (obj prev : Props) :
    mergeVal (.object obj) (.object prev) = .object (mergeProps obj prev) := by
  rw [mergeVal]

theorem mergeVal_other {val old : MojObject}
    (apart : ∀ obj prev, val = .object obj → old ≠ .object prev) : mergeVal val old = val := by
  rw [mergeVal]
  intro obj prev same other
  exact apart obj prev same other

theorem mergeVal_left {val old : MojObject} (other : ∀ obj, val ≠ .object obj) :
    mergeVal val old = val :=
  mergeVal_other fun obj _ same => absurd same (other obj)

theorem mergeVal_right {val old : MojObject} (other : ∀ prev, old ≠ .object prev) :
    mergeVal val old = val :=
  mergeVal_other fun _ prev _ => other prev

theorem sorted_of_wellFormed {props : Props} (wellFormed : (MojObject.object props).WellFormed) :
    Sorted props := by
  rw [WellFormed] at wellFormed
  exact wellFormed.1

theorem wellFormed_of_find {props : Props} (wellFormed : (MojObject.object props).WellFormed)
    {val : MojObject} (found : find props key = some val) : val.WellFormed := by
  rw [WellFormed] at wellFormed
  exact (wellFormedProps_iff props).mp wellFormed.2 _ (mem_of_find found)

theorem sizeOf_of_find {props : Props} {val : MojObject}
    (found : find props key = some val) : sizeOf val < sizeOf (MojObject.object props) := by
  have member := List.sizeOf_lt_of_mem (mem_of_find found)
  simp at member ⊢
  omega

theorem wellFormed_mergeVal (val old : MojObject) (wellFormed : val.WellFormed)
    (oldFormed : old.WellFormed) : (mergeVal val old).WellFormed := by
  by_cases both : ∃ obj prev, val = .object obj ∧ old = .object prev
  · rcases both with ⟨obj, prev, rfl, rfl⟩
    have objSorted := sorted_of_wellFormed wellFormed
    have prevSorted := sorted_of_wellFormed oldFormed
    have sorted := sorted_mergeProps objSorted prevSorted
    rw [mergeVal_object, WellFormed]
    refine ⟨sorted, (wellFormedProps_iff _).mpr ?_⟩
    rintro ⟨key, left⟩ member
    have found := find_of_mem sorted member
    rw [find_mergeProps objSorted prevSorted] at found
    cases ours : find obj key with
    | none =>
      rw [ours, mergeOption_none_left] at found
      exact wellFormed_of_find oldFormed found
    | some new =>
      have smaller := sizeOf_of_find ours
      cases theirs : find prev key with
      | none =>
        rw [ours, theirs] at found
        cases found
        exact wellFormed_of_find wellFormed ours
      | some was =>
        rw [ours, theirs] at found
        cases found
        exact wellFormed_mergeVal new was (wellFormed_of_find wellFormed ours)
          (wellFormed_of_find oldFormed theirs)
  · rw [mergeVal_other]
    · exact wellFormed
    · intro obj prev same other
      exact both ⟨obj, prev, same, other⟩
termination_by sizeOf val

theorem object_or (val : MojObject) :
    (∃ props, val = .object props) ∨ ∀ props, val ≠ .object props := by
  by_cases isObject : ∃ props, val = .object props
  · exact Or.inl isObject
  · exact Or.inr fun props same => isObject ⟨props, same⟩

theorem mergeVal_again (val old : MojObject) (wellFormed : val.WellFormed)
    (oldFormed : old.WellFormed) : mergeVal val (mergeVal val old) = mergeVal val old := by
  rcases object_or val with ⟨obj, rfl⟩ | other
  · have objSorted := sorted_of_wellFormed wellFormed
    have again : ∀ key val, find obj key = some val → ∀ old : MojObject, old.WellFormed →
        mergeVal val (mergeVal val old) = mergeVal val old := by
      intro key val found old oldFormed
      have smaller := sizeOf_of_find found
      exact mergeVal_again val old (wellFormed_of_find wellFormed found) oldFormed
    have self : ∀ key val, find obj key = some val → mergeVal val val = val := by
      intro key val found
      have twice := again key val found .null trivial
      have stays : mergeVal val .null = val := mergeVal_right fun prev impossible => by cases impossible
      rwa [stays] at twice
    rcases object_or old with ⟨prev, rfl⟩ | missing
    · have prevSorted := sorted_of_wellFormed oldFormed
      have merged := sorted_mergeProps objSorted prevSorted
      rw [mergeVal_object, mergeVal_object]
      apply congrArg MojObject.object
      apply eq_of_find_eq (sorted_mergeProps objSorted merged) merged
      intro key
      rw [find_mergeProps objSorted merged, find_mergeProps objSorted prevSorted]
      cases ours : find obj key with
      | none => rw [mergeOption_none_left]
      | some val =>
        cases theirs : find prev key with
        | none => exact congrArg some (self key val ours)
        | some was =>
          exact congrArg some (again key val ours was (wellFormed_of_find oldFormed theirs))
    · rw [mergeVal_right missing, mergeVal_object]
      apply congrArg MojObject.object
      apply eq_of_find_eq (sorted_mergeProps objSorted objSorted) objSorted
      intro key
      rw [find_mergeProps objSorted objSorted]
      cases ours : find obj key with
      | none => rfl
      | some val => exact congrArg some (self key val ours)
  · rw [mergeVal_left other, mergeVal_left other]
termination_by sizeOf val

/-- The value under some names, one within the other. -/
def valueAt : List MojString → MojObject → Option MojObject
  | [], obj => some obj
  | name :: path, obj => (obj.get name).bind (valueAt path)

/-- Where the middle one has no object but the others have, the last already has what the first has. -/
def LastCovers (first second third : MojObject) : Prop :=
  ∀ path one two three, valueAt path first = some (.object one) → valueAt path second = some two →
    (∀ props, two ≠ .object props) → valueAt path third = some (.object three) →
    mergeProps three one = three

theorem covered_of_find {first second third : Props} {one two three : MojObject}
    (covered : LastCovers (.object first) (.object second) (.object third))
    (inFirst : find first key = some one) (inSecond : find second key = some two)
    (inThird : find third key = some three) : LastCovers one two three := by
  have step : ∀ {props : Props} {val : MojObject} (path : List MojString),
      find props key = some val → valueAt (key :: path) (.object props) = valueAt path val := by
    intro props val path found
    rw [valueAt, MojObject.get, MojObject.map, found, Option.bind_some]
  intro path props middle others here there other last
  apply covered (key :: path) props middle others _ _ other
  · rw [step path inThird]
    exact last
  · rw [step path inFirst]
    exact here
  · rw [step path inSecond]
    exact there

/-- Three values may be merged in either order if the last covers what the middle one hides. -/
theorem mergeVal_assoc (first second third : MojObject) (firstFormed : first.WellFormed)
    (secondFormed : second.WellFormed) (thirdFormed : third.WellFormed)
    (covered : LastCovers first second third) :
    mergeVal third (mergeVal second first) = mergeVal (mergeVal third second) first := by
  rcases object_or third with ⟨props, rfl⟩ | other
  · rcases object_or second with ⟨middle, rfl⟩ | hides
    · rcases object_or first with ⟨props', rfl⟩ | missing
      · have one := sorted_of_wellFormed firstFormed
        have two := sorted_of_wellFormed secondFormed
        have three := sorted_of_wellFormed thirdFormed
        rw [mergeVal_object, mergeVal_object, mergeVal_object, mergeVal_object]
        apply congrArg MojObject.object
        apply eq_of_find_eq (sorted_mergeProps three (sorted_mergeProps two one))
          (sorted_mergeProps (sorted_mergeProps three two) one)
        intro key
        rw [find_mergeProps three (sorted_mergeProps two one), find_mergeProps two one,
          find_mergeProps (sorted_mergeProps three two) one, find_mergeProps three two]
        cases inThird : find props key with
        | none => rw [mergeOption_none_left, mergeOption_none_left]
        | some val =>
          cases inSecond : find middle key with
          | none => rw [mergeOption_none_left, mergeOption_none_right]
          | some between =>
            cases inFirst : find props' key with
            | none => rw [mergeOption_none_right, mergeOption_none_right]
            | some old =>
              have smaller := sizeOf_of_find inThird
              exact congrArg some (mergeVal_assoc old between val
                (wellFormed_of_find firstFormed inFirst) (wellFormed_of_find secondFormed inSecond)
                (wellFormed_of_find thirdFormed inThird)
                (covered_of_find covered inFirst inSecond inThird))
      · rw [mergeVal_right missing, mergeVal_right missing]
    · rw [mergeVal_left hides, mergeVal_right hides]
      rcases object_or first with ⟨old, rfl⟩ | missing
      · rw [mergeVal_object, covered [] old second props rfl rfl hides rfl]
      · rw [mergeVal_right missing]
  · rw [mergeVal_left other, mergeVal_left other, mergeVal_left other]
termination_by sizeOf third

theorem valueAt_cons {name : MojString} {path : List MojString} {obj val : MojObject}
    (found : valueAt (name :: path) obj = some val) :
    ∃ props inner, obj = .object props ∧ find props name = some inner ∧ valueAt path inner = some val := by
  rcases Option.bind_eq_some_iff.mp found with ⟨inner, here, within⟩
  rcases object_or obj with ⟨props, rfl⟩ | other
  · exact ⟨props, inner, rfl, here, within⟩
  · have empty : obj.map = [] := by
      cases obj with
      | object props => exact absurd rfl (other props)
      | _ => rfl
    rw [MojObject.get, empty] at here
    cases here

theorem covered_of_assoc {first second third : MojObject} (firstFormed : first.WellFormed)
    (secondFormed : second.WellFormed) (thirdFormed : third.WellFormed)
    (same : mergeVal third (mergeVal second first) = mergeVal (mergeVal third second) first) :
    LastCovers first second third := by
  intro path
  induction path generalizing first second third with
  | nil =>
    intro one two three here there hides last
    cases here
    cases there
    cases last
    rw [mergeVal_left hides, mergeVal_right hides, mergeVal_object] at same
    exact (MojObject.object.inj same).symm
  | cons name path ih =>
    intro one two three here there hides last
    rcases valueAt_cons here with ⟨old, was, rfl, inFirst, here⟩
    rcases valueAt_cons there with ⟨middle, between, rfl, inSecond, there⟩
    rcases valueAt_cons last with ⟨props, val, rfl, inThird, last⟩
    have sortedOne := sorted_of_wellFormed firstFormed
    have sortedTwo := sorted_of_wellFormed secondFormed
    have sortedThree := sorted_of_wellFormed thirdFormed
    rw [mergeVal_object, mergeVal_object, mergeVal_object, mergeVal_object] at same
    have found := congrArg (find · name) (MojObject.object.inj same)
    rw [find_mergeProps sortedThree (sorted_mergeProps sortedTwo sortedOne),
      find_mergeProps sortedTwo sortedOne,
      find_mergeProps (sorted_mergeProps sortedThree sortedTwo) sortedOne,
      find_mergeProps sortedThree sortedTwo, inFirst, inSecond, inThird] at found
    exact ih (wellFormed_of_find firstFormed inFirst) (wellFormed_of_find secondFormed inSecond)
      (wellFormed_of_find thirdFormed inThird) (Option.some.inj found) one two three here there hides last

theorem mergeInto_object (obj prev : Props) :
    mergeInto (.object obj) (.object prev) = mergeVal (.object obj) (.object prev) := by
  rw [mergeVal_object]
  rfl

theorem mergeOption_eq (val old : Option MojObject) :
    mergeOption val old = match val, old with
      | some (.object obj), some (.object prev) => some (mergeInto (.object obj) (.object prev))
      | some val, _ => some val
      | none, old => old := by
  cases val with
  | none => exact mergeOption_none_left old
  | some val =>
    cases old with
    | none =>
      cases val <;> rfl
    | some old =>
      rw [mergeOption]
      cases val with
      | object obj =>
        cases old with
        | object prev => exact congrArg some (mergeInto_object obj prev).symm
        | _ => exact congrArg some (mergeVal_right fun prev impossible => by cases impossible)
      | _ => exact congrArg some (mergeVal_left fun obj impossible => by cases impossible)

/-- What a merge is, and when three objects may be merged in either order. -/
theorem mergeInto_laws (first second third : Props) (one : (MojObject.object first).WellFormed)
    (two : (MojObject.object second).WellFormed) (three : (MojObject.object third).WellFormed) :
    (mergeInto (.object second) (.object first)).WellFormed ∧
      (∀ key, (mergeInto (.object second) (.object first)).get key =
        match find second key, find first key with
        | some (.object obj), some (.object prev) => some (mergeInto (.object obj) (.object prev))
        | some val, _ => some val
        | none, old => old) ∧
      mergeInto (.object second) (mergeInto (.object second) (.object first)) =
        mergeInto (.object second) (.object first) ∧
      (mergeInto (.object third) (mergeInto (.object second) (.object first)) =
          mergeInto (mergeInto (.object third) (.object second)) (.object first) ↔
        LastCovers (.object first) (.object second) (.object third)) := by
  refine ⟨?_, ?_, ?_, ?_⟩
  · rw [mergeInto_object]
    exact wellFormed_mergeVal _ _ two one
  · intro key
    rw [mergeInto, MojObject.get, MojObject.map, MojObject.map, MojObject.map,
      find_mergeProps (sorted_of_wellFormed two) (sorted_of_wellFormed one)]
    exact mergeOption_eq _ _
  · rw [mergeInto_object, mergeVal_object, mergeInto_object, ← mergeVal_object,
      mergeVal_again _ _ two one]
  · rw [mergeInto_object, mergeInto_object, mergeVal_object, mergeVal_object, mergeInto_object,
      mergeInto_object, ← mergeVal_object, ← mergeVal_object]
    exact ⟨covered_of_assoc one two three, mergeVal_assoc _ _ _ one two three⟩

section Sample

def sampleKey : MojString := chars "k".toList

def sampleName : MojString := chars "x".toList

/-- An object with an object, a number and another object under one name. -/
def sampleFirst : Props := [(sampleKey, .object [(sampleName, .int 1)])]

def sampleSecond : Props := [(sampleKey, .int 5)]

def sampleThird : Props := [(sampleKey, .object [(chars "y".toList, .int 2)])]

theorem mergeInto_laws_sample :
    (mergeInto (.object sampleSecond) (.object sampleFirst)).WellFormed ∧
      (∀ key, (mergeInto (.object sampleSecond) (.object sampleFirst)).get key =
        match find sampleSecond key, find sampleFirst key with
        | some (.object obj), some (.object prev) => some (mergeInto (.object obj) (.object prev))
        | some val, _ => some val
        | none, old => old) ∧
      mergeInto (.object sampleSecond) (mergeInto (.object sampleSecond) (.object sampleFirst)) =
        mergeInto (.object sampleSecond) (.object sampleFirst) ∧
      (mergeInto (.object sampleThird) (mergeInto (.object sampleSecond) (.object sampleFirst)) =
          mergeInto (mergeInto (.object sampleThird) (.object sampleSecond)) (.object sampleFirst) ↔
        LastCovers (.object sampleFirst) (.object sampleSecond) (.object sampleThird)) := by
  apply mergeInto_laws
  · simp [sampleFirst, WellFormed, WellFormedProps]
  · simp [sampleSecond, WellFormed, WellFormedProps]
  · simp [sampleThird, WellFormed, WellFormedProps]

/-- A number in the middle hides the object before it only when it is merged there first. -/
theorem mergeInto_not_associative : ¬∀ first second third : Props,
    (MojObject.object first).WellFormed → (MojObject.object second).WellFormed →
      (MojObject.object third).WellFormed →
      mergeInto (.object third) (mergeInto (.object second) (.object first)) =
        mergeInto (mergeInto (.object third) (.object second)) (.object first) := by
  intro associative
  have one : (MojObject.object sampleFirst).WellFormed := by
    simp [sampleFirst, WellFormed, WellFormedProps]
  have two : (MojObject.object sampleSecond).WellFormed := by
    simp [sampleSecond, WellFormed, WellFormedProps]
  have three : (MojObject.object sampleThird).WellFormed := by
    simp [sampleThird, WellFormed, WellFormedProps]
  have same := associative sampleFirst sampleSecond sampleThird one two three
  rw [mergeInto_object, mergeInto_object, mergeVal_object, mergeVal_object, mergeInto_object,
    mergeInto_object, ← mergeVal_object, ← mergeVal_object] at same
  have hidden := covered_of_assoc one two three same [sampleKey] [(sampleName, .int 1)] (.int 5)
    [(chars "y".toList, .int 2)] rfl rfl (fun props impossible => by cases impossible) rfl
  have found := congrArg (find · sampleName) hidden
  have single : ∀ (name : MojString) (val : MojObject), Sorted [(name, val)] :=
    fun name val => List.pairwise_singleton _ _
  rw [find_mergeProps (single _ _) (single _ _)] at found
  have there : find [(sampleName, MojObject.int 1)] sampleName = some (.int 1) := by decide
  have absent : find [(chars "y".toList, MojObject.int 2)] sampleName = none := by decide
  rw [there, absent] at found
  cases found

end Sample

end Db8.Db.MojDb
