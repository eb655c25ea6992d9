import Db8.Core.JsonRoundTrip
import Db8.Core.PropMap

/-!
# What a builder makes of any calls

A visitor may name the properties of an object in any order, and a name more than once. A builder puts
them into its map one by one, so they end in their order, each name with its last value; and the text
of such calls is read back as that object.
-/

set_option autoImplicit false

namespace Db8.Core

open Db8.Bytes

namespace MojObject

mutual

def built : MojObject → MojObject
  | .object props => .object (builtProps props [])
  | .array vals => .array (builtVals vals)
  | obj => obj

def builtProps : List (MojString × MojObject) → List (MojString × MojObject) →
    List (MojString × MojObject)
  | [], done => done
  | (name, val) :: rest, done => builtProps rest (putProp name (built val) done)

def builtVals : List MojObject → List MojObject
  | [] => []
  | val :: rest => built val :: builtVals rest

end

mutual

theorem built_wellFormed (obj : MojObject) : obj.built.WellFormed := by
  match obj with
  | .null | .bool val | .int val | .decimal rep | .string val => simp [built, WellFormed]
  | .object props =>
    rw [built, WellFormed]
    have done := builtProps_wellFormed props [] sorted_nil (by simp)
    exact ⟨done.1, (wellFormedProps_iff _).mpr done.2⟩
  | .array vals =>
    rw [built, WellFormed]
    exact builtVals_wellFormed vals

theorem builtProps_wellFormed (props done : List (MojString × MojObject)) (sorted : Sorted done)
    (inner : ∀ prop ∈ done, prop.2.WellFormed) :
    Sorted (builtProps props done) ∧ ∀ prop ∈ builtProps props done, prop.2.WellFormed := by
  match props with
  | [] =>
    rw [builtProps]
    exact ⟨sorted, inner⟩
  | (name, val) :: rest =>
    rw [builtProps]
    apply builtProps_wellFormed rest _ (sorted_putProp sorted name _)
    intro prop member
    rcases mem_putProp member with rfl | old
    · exact built_wellFormed val
    · exact inner prop old

theorem builtVals_wellFormed (vals : List MojObject) : WellFormedVals (builtVals vals) := by
  match vals with
  | [] => simp [builtVals, WellFormedVals]
  | val :: rest =>
    rw [builtVals, WellFormedVals]
    exact ⟨built_wellFormed val, builtVals_wellFormed rest⟩

end

end MojObject

namespace MojObjectBuilder

open MojObject

mutual

theorem foldlM_built (obj : MojObject) (builder : MojObjectBuilder) :
    (visits obj).foldlM visit builder = builder.value obj.built := by
  match obj with
  | .null | .bool val | .int val | .decimal rep | .string val =>
    rw [visits, List.foldlM_cons]
    exact bind_pure _
  | .object props =>
    rw [visits, List.foldlM_cons, built]
    exact foldlM_builtProps props [] builder builder.propName
  | .array vals =>
    rw [visits, List.foldlM_cons, built]
    exact foldlM_builtVals vals [] builder

theorem foldlM_builtProps (props done : List (MojString × MojObject)) (builder : MojObjectBuilder)
    (propName : MojString) :
    (visitsProps props).foldlM visit { builder with
      stack := (.object done, builder.propName) :: builder.stack, propName := propName } =
        builder.value (.object (builtProps props done)) := by
  match props with
  | [] =>
    rw [visitsProps, List.foldlM_cons, builtProps]
    exact bind_pure _
  | (name, val) :: rest =>
    have later := foldlM_builtProps rest (putProp name val.built done) builder name
    rw [visitsProps, List.foldlM_cons, builtProps]
    change List.foldlM visit { builder with
      stack := (.object done, builder.propName) :: builder.stack, propName := name } _ = _
    rw [List.foldlM_append, foldlM_built val]
    exact later

theorem foldlM_builtVals (vals done : List MojObject) (builder : MojObjectBuilder) :
    (visitsVals vals).foldlM visit { builder with
      stack := (.array done, builder.propName) :: builder.stack } =
        builder.value (.array (done ++ builtVals vals)) := by
  match vals with
  | [] =>
    rw [visitsVals, List.foldlM_cons, builtVals, List.append_nil]
    exact bind_pure _
  | val :: rest =>
    have later := foldlM_builtVals rest (done ++ [val.built]) builder
    rw [List.append_assoc, List.singleton_append] at later
    rw [visitsVals, List.foldlM_append, foldlM_built val, builtVals]
    exact later

end

end MojObjectBuilder

namespace MojObject

theorem built_of_wellFormed {obj : MojObject} (wellFormed : obj.WellFormed) : obj.built = obj := by
  have one := MojObjectBuilder.foldlM_visits_empty wellFormed
  rw [MojObjectBuilder.foldlM_built] at one
  have same := MojObjectBuilder.mk.inj (Except.ok.inj one)
  exact Option.some.inj same.1

theorem built_text (fault : MojNumber.NumberErr → MojErr) (obj : MojObject)
    (shallow : obj.nesting < MojJsonParser.maxDepth) (absolute : obj.Absolute) :
    fromJson fault obj.toJson = some (.ok (some obj.built)) := by
  have decimals : ∀ rep, rep ≠ BitVec.intMin 64 →
      MojDecimal.assign fault (MojDecimal.stringValue rep) = .ok rep :=
    fun rep notLeast => MojDecimal.assign_stringValue fault notLeast
  have all := MojObjectBuilder.told_visitor (MojObjectBuilder.foldlM_built obj .empty)
  rw [fromJson, MojJsonParser.parse_json decimals absolute shallow all]
  rfl

/-- The text of any calls is read back as the object that is built from them, which is well formed,
and the text of that object as the same again. -/
theorem fromJson_written (fault : MojNumber.NumberErr → MojErr) (obj : MojObject)
    (shallow : obj.nesting < MojJsonParser.maxDepth) (absolute : obj.Absolute) :
    fromJson fault obj.toJson = some (.ok (some obj.built)) ∧ obj.built.WellFormed ∧
      obj.built.built = obj.built :=
  ⟨built_text fault obj shallow absolute, built_wellFormed obj,
    built_of_wellFormed (built_wellFormed obj)⟩

def looseObject : MojObject :=
  .object [(chars ['b'], .int 1), (chars ['a'], .null), (chars ['b'], .bool true)]

theorem fromJson_loose : fromJson (fun _ => .typeMismatch) looseObject.toJson =
    some (.ok (some (.object [(chars ['a'], .null), (chars ['b'], .bool true)]))) :=
  (fromJson_written (fun _ => .typeMismatch) looseObject (by decide)
    (by simp [looseObject, Absolute, AbsoluteProps])).1.trans rfl

end MojObject

end Db8.Core
