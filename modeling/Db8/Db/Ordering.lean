import Db8.Db.PlanExact
import Db8.Db.ScanExact

/-!
# Order of the results

An accepted find with an order property has single values for every property in front of it: an
inequality or an array value there would define another order. All keys the plan lets through agree
on those values, so scanning them in key order is scanning them in the order of the property.
-/

set_option autoImplicit false

namespace Db8.Db

open Db8.Bytes
open Db8.Core

namespace MojDbIsamQuery

/-- The keys met by successive calls of `getKey`. -/
def visitKeys (store : MojDbIndexStore) : Nat → MojDbIsamQuery → List MojDbKey
  | 0, _ => []
  | calls + 1, query =>
    match getKey store query with
    | (_, none) => []
    | (query, some _) => query.keyData :: visitKeys store calls query

theorem visitKeys_eq {store : MojDbIndexStore} (calls : Nat) {query : MojDbIsamQuery}
    {pending : List (MojDbKey × Nat)} (unlimited : query.limitEnforced = false)
    (scans : Scans store query pending) :
    visitKeys store calls query = (pending.map Prod.fst).take calls := by
  induction calls generalizing query pending with
  | zero => rw [visitKeys, List.take_zero]
  | succ calls ih =>
    rw [visitKeys]
    cases pending with
    | nil =>
      rcases getKey_nil unlimited scans with ⟨pos, found, _⟩
      rw [found]
      rfl
    | cons next rest =>
      rcases getKey_cons unlimited scans with ⟨pos, found, keyEq, kept⟩
      have tail := @ih { query with toPosition := pos } rest unlimited kept
      simp only [found, keyEq, tail, List.map_cons, List.take_succ_cons]

/-- Whatever the limit, a fresh query meets a first part of the covered keys. -/
theorem visitKeys_sublist (store : MojDbIndexStore) {plan : MojDbQueryPlan}
    (excludeKinds : List MojString) (calls : Nat)
    (ordered : ScanOrdered plan.query.desc plan.ranges) :
    (visitKeys store calls (openQuery plan excludeKinds)).Sublist
      ((covered store plan).map Prod.fst) := by
  have scans := openQuery_scans store excludeKinds ordered
  rw [heldBy_eq_covered store ordered] at scans
  cases enforced : (openQuery plan excludeKinds).limitEnforced with
  | false =>
    rw [visitKeys_eq calls enforced scans]
    exact List.take_sublist _ _
  | true =>
    cases calls with
    | zero => exact List.nil_sublist _
    | succ calls =>
      rw [visitKeys, getKey_enforced enforced]
      exact List.nil_sublist _

theorem covered_met (store : MojDbIndexStore) (plan : MojDbQueryPlan) :
    ((covered store plan).map Prod.fst).Pairwise (Met plan.query.desc) := by
  have keysOf : (covered store plan).map Prod.fst =
      (Cursor.line plan.query.desc store.keys.elems).filterMap fun key =>
        (label plan.ranges key).map Prod.fst := by
    rw [covered, List.map_filterMap]
  rw [keysOf, List.pairwise_filterMap]
  apply (line_met plan.query.desc store.keys).imp
  intro left right met leftKey leftEq rightKey rightEq
  unfold label at leftEq rightEq
  rw [Option.map_map, Option.map_eq_some_iff] at leftEq rightEq
  rcases leftEq with ⟨_, _, rfl⟩
  rcases rightEq with ⟨_, _, rfl⟩
  exact met

theorem covered_contained {store : MojDbIndexStore} {plan : MojDbQueryPlan} {key : MojDbKey}
    (member : key ∈ (covered store plan).map Prod.fst) :
    key ∈ store.keys ∧ ∃ range ∈ plan.ranges, range.contains key := by
  rcases List.mem_map.mp member with ⟨entry, entryIn, rfl⟩
  rcases List.mem_filterMap.mp entryIn with ⟨key, stored, labelled⟩
  unfold label at labelled
  rw [Option.map_eq_some_iff] at labelled
  rcases labelled with ⟨range, found, rfl⟩
  have inside := List.find?_some found
  exact ⟨mem_line.mp stored, range, List.mem_of_find?_eq_some found, of_decide_eq_true inside⟩

end MojDbIsamQuery

namespace MojDbQueryPlan

theorem scanOrdered_of_precedes {ranges : List MojDbKeyRange}
    (ordered : ranges.Pairwise MojDbKeyRange.Precedes)
    (bounded : ∀ range ∈ ranges, range.upperKey ≠ []) (desc : Bool) :
    ScanOrdered desc (if desc then ranges.reverse else ranges) := by
  have apart : ranges.Pairwise fun left right =>
      ∀ key, left.contains key → ¬ right.contains key := by
    apply ordered.imp_of_mem
    intro left right leftIn _ front key
    exact front.disjoint (bounded left leftIn)
  cases desc with
  | false =>
    simp only [Bool.false_eq_true, if_false]
    exact ⟨ordered.imp fun front => front.lowers, apart⟩
  | true =>
    simp only [if_true]
    constructor
    · apply List.pairwise_reverse.mpr
      apply ordered.imp_of_mem
      intro left right leftIn _ front
      exact Or.inr ⟨bounded left leftIn, front.uppers⟩
    · apply List.pairwise_reverse.mpr
      apply apart.imp
      intro left right clear key inRight inLeft
      exact clear key inLeft inRight

theorem scanOrdered_of_spec {index : MojDbIndex} {planned : MojDbQuery}
    {ranges : List MojDbKeyRange} (spec : PlanSpec index planned ranges) (desc : Bool) :
    ScanOrdered desc (if desc then ranges.reverse else ranges) :=
  scanOrdered_of_precedes spec.ordered spec.bounded desc

theorem init_scan {index : MojDbIndex} {query : MojDbQuery} {plan : MojDbQueryPlan}
    (answers : index.canAnswer query = true) (built : init query index = .ok plan) :
    ∃ planned bound rest, Answered index planned bound rest ∧ PlannedFrom query planned ∧
      plan.query = planned ∧ ScanOrdered plan.query.desc plan.ranges ∧
      ∀ parts key, index.Spells parts key →
        ((∃ range ∈ plan.ranges, range.contains key) ↔
          index.Satisfies planned parts ∧ OnPage planned.page planned.desc key) := by
  rcases init_spec answers with ⟨planned, bound, rest, _, answered, from_, builds, fails⟩
  by_cases plannable : Plannable query.whereClauses
  · rcases builds plannable with ⟨other, ranges, initEq, queryEq, spec, rangesEq⟩
    rw [initEq, Except.ok.injEq] at built
    rw [← built, queryEq, rangesEq, from_.desc]
    refine ⟨planned, bound, rest, answered, from_, rfl,
      scanOrdered_of_spec spec query.desc, ?_⟩
    intro parts key spells
    rw [← from_.desc, ← spec.exact parts key spells]
    split_ifs <;> simp
  · rcases fails plannable with ⟨text, stuck⟩
    rw [stuck] at built
    cases built

end MojDbQueryPlan

open MojDbQueryPlan
open WhereClause

namespace MojDbIndex

theorem partOf_cons {names : List MojString} {parts : List MojDbKey} {name propName : MojString}
    {part : MojDbKey} :
    ((((name :: names).zip (part :: parts)).find? fun entry =>
        decide (entry.1 = propName)).map Prod.snd) =
      if name = propName then some part
      else ((names.zip parts).find? fun entry => decide (entry.1 = propName)).map Prod.snd := by
  rw [List.zip_cons_cons, List.find?_cons]
  by_cases same : name = propName <;> simp [same]

theorem split_at_prop {front more : List MojString} {propName : MojString}
    {left right : List MojDbKey} (nodup : (front ++ propName :: more).Nodup)
    (leftLength : left.length = (front ++ propName :: more).length)
    (rightLength : right.length = (front ++ propName :: more).length)
    (agree : ∀ name ∈ front, ∀ leftPart rightPart,
      (((front ++ propName :: more).zip left).find? fun entry =>
        decide (entry.1 = name)).map Prod.snd = some leftPart →
      (((front ++ propName :: more).zip right).find? fun entry =>
        decide (entry.1 = name)).map Prod.snd = some rightPart → leftPart = rightPart) :
    ∃ shared leftPart leftRest rightPart rightRest,
      left = shared ++ leftPart :: leftRest ∧ right = shared ++ rightPart :: rightRest ∧
      (((front ++ propName :: more).zip left).find? fun entry =>
        decide (entry.1 = propName)).map Prod.snd = some leftPart ∧
      (((front ++ propName :: more).zip right).find? fun entry =>
        decide (entry.1 = propName)).map Prod.snd = some rightPart := by
  induction front generalizing left right with
  | nil =>
    cases left with
    | nil => simp at leftLength
    | cons leftPart leftRest =>
      cases right with
      | nil => simp at rightLength
      | cons rightPart rightRest =>
        refine ⟨[], leftPart, leftRest, rightPart, rightRest, rfl, rfl, ?_, ?_⟩
        · rw [List.nil_append, partOf_cons, if_pos rfl]
        · rw [List.nil_append, partOf_cons, if_pos rfl]
  | cons name front ih =>
    cases left with
    | nil => simp at leftLength
    | cons leftHead leftTail =>
      cases right with
      | nil => simp at rightLength
      | cons rightHead rightTail =>
        rw [List.cons_append, List.nodup_cons] at nodup
        have heads : leftHead = rightHead := by
          apply agree name List.mem_cons_self
          · rw [List.cons_append, partOf_cons, if_pos rfl]
          · rw [List.cons_append, partOf_cons, if_pos rfl]
        have tails : ∀ other ∈ front, ∀ leftPart rightPart,
            (((front ++ propName :: more).zip leftTail).find? fun entry =>
              decide (entry.1 = other)).map Prod.snd = some leftPart →
            (((front ++ propName :: more).zip rightTail).find? fun entry =>
              decide (entry.1 = other)).map Prod.snd = some rightPart →
            leftPart = rightPart := by
          intro other otherIn leftPart rightPart leftEq rightEq
          have distinct : name ≠ other := by
            intro same
            exact nodup.1 (same ▸ List.mem_append_left _ otherIn)
          apply agree other (List.mem_cons_of_mem _ otherIn)
          · rw [List.cons_append, partOf_cons, if_neg distinct]
            exact leftEq
          · rw [List.cons_append, partOf_cons, if_neg distinct]
            exact rightEq
        rcases ih nodup.2 (by simpa using leftLength) (by simpa using rightLength) tails with
          ⟨shared, leftPart, leftRest, rightPart, rightRest, leftEq, rightEq, leftAt,
            rightAt⟩
        have distinct : name ≠ propName := by
          intro same
          exact nodup.1 (same ▸ List.mem_append_right _ List.mem_cons_self)
        refine ⟨leftHead :: shared, leftPart, leftRest, rightPart, rightRest,
          by rw [leftEq, List.cons_append], by rw [rightEq, heads, List.cons_append], ?_, ?_⟩
        · rw [List.cons_append, partOf_cons, if_neg distinct]
          exact leftAt
        · rw [List.cons_append, partOf_cons, if_neg distinct]
          exact rightAt

/-- Behind the same values the order of two keys is the order of the values that follow. -/
theorem part_le_of_key_le {index : MojDbIndex} {shared leftRest rightRest : List MojDbKey}
    {leftPart rightPart leftKey rightKey : MojDbKey}
    (leftSpells : index.Spells (shared ++ leftPart :: leftRest) leftKey)
    (rightSpells : index.Spells (shared ++ rightPart :: rightRest) rightKey)
    (keys : leftKey ≤ rightKey) : leftPart ≤ rightPart := by
  rw [leftSpells.key, rightSpells.key, append_le_append_left_iff, List.flatten_append,
    List.flatten_append, append_le_append_left_iff, List.flatten_cons, List.flatten_cons] at keys
  by_contra above
  have leftIn := leftSpells.codes leftPart (by simp)
  have rightIn := rightSpells.codes rightPart (by simp)
  have cut := (MojObjectWriter.codes_prefixFree.append_lt_append_iff rightIn leftIn
    rightRest.flatten leftRest.flatten).mpr (Or.inl (not_le.mp above))
  exact not_le.mpr cut keys

end MojDbIndex

namespace MojDbQueryPlan

variable {index : MojDbIndex} {query planned : MojDbQuery}
  {bound : List (MojString × WhereClause)} {rest : List MojString}

theorem Answered.front_of_order (answered : Answered index planned bound rest)
    (ordered : planned.order ≠ []) :
    ∃ front more, index.names = front ++ planned.order :: more ∧
      ∀ name ∈ front, ∃ clause, (name, clause) ∈ planned.whereClauses.entries := by
  have clauseOf : ∀ name ∈ bound.map Prod.fst,
      ∃ clause, (name, clause) ∈ planned.whereClauses.entries := by
    intro name member
    rcases List.mem_map.mp member with ⟨entry, entryIn, rfl⟩
    exact ⟨entry.2, (answered.mem_bound_iff entry).mp entryIn⟩
  rcases answered.order with noOrder | inBound | next
  · exact absurd noOrder ordered
  · rcases List.append_of_mem inBound with ⟨front, more, split⟩
    refine ⟨front, more ++ rest, by rw [answered.names, split]; simp, ?_⟩
    intro name member
    exact clauseOf name (split ▸ List.mem_append_left _ member)
  · rcases List.head?_eq_some_iff.mp next with ⟨more, restEq⟩
    exact ⟨bound.map Prod.fst, more, by rw [answered.names, restEq], clauseOf⟩

theorem single_of_validateFind (from_ : PlannedFrom query planned)
    (valid : query.validateFind = .ok ()) (ordered : query.order ≠ [])
    {entry : MojString × WhereClause} (member : entry ∈ planned.whereClauses.entries)
    (other : entry.1 ≠ query.order) :
    entry.2.lowerOp = .eq ∧ isArray entry.2.lowerVal = false := by
  have undefined : entry.2.definesOrder = false := by
    rcases (from_.entries entry).mp member with old | ⟨added, _⟩
    · cases defines : entry.2.definesOrder with
      | false => rfl
      | true =>
        rcases (MojDbQuery.validateFind_ok valid entry old).1 defines with none | same
        · exact absurd none ordered
        · exact absurd same.symm other
    · rw [added]
      rfl
  simpa [WhereClause.definesOrder] using undefined

theorem part_unique {locale : MojDbLocale} {clause : WhereClause} (accepted : clause.Accepted)
    (lowerOp : clause.lowerOp = .eq) (scalar : isArray clause.lowerVal = false)
    {left right : MojDbKey} (leftHolds : clause.Holds locale left)
    (rightHolds : clause.Holds locale right) : left = right := by
  rw [holds_eq_iff locale accepted lowerOp, clauseVals] at leftHolds rightHolds
  cases known : clause.lowerVal with
  | none =>
    rw [accepted.lowerVal_iff.mpr known] at lowerOp
    cases lowerOp
  | some val =>
    rw [known] at leftHolds rightHolds scalar
    rw [pushVal_scalar scalar, SortedSet.mem_single] at leftHolds rightHolds
    rw [leftHolds, rightHolds]

/-- Keys a find lets through share everything in front of the property it orders by. -/
theorem split_at_order (answered : Answered index planned bound rest)
    (from_ : PlannedFrom query planned) (valid : query.validateFind = .ok ())
    (ordered : query.order ≠ []) {left right : List MojDbKey}
    (leftLength : left.length = index.props.length)
    (rightLength : right.length = index.props.length)
    (leftSatisfies : index.Satisfies planned left)
    (rightSatisfies : index.Satisfies planned right) :
    ∃ shared leftPart leftRest rightPart rightRest,
      left = shared ++ leftPart :: leftRest ∧ right = shared ++ rightPart :: rightRest ∧
      index.partOf left query.order = some leftPart ∧
      index.partOf right query.order = some rightPart := by
  rw [← from_.order] at ordered
  rcases answered.front_of_order ordered with ⟨front, more, names, clauses⟩
  rw [from_.order] at names ordered
  have nodup := index.distinctNames
  rw [← MojDbIndex.names, names] at nodup
  have size : index.props.length = (front ++ query.order :: more).length := by
    rw [← names, MojDbIndex.names, propNames, List.length_map]
  unfold MojDbIndex.partOf
  rw [names]
  apply MojDbIndex.split_at_prop nodup (leftLength.trans size) (rightLength.trans size)
  intro name member leftPart rightPart leftAt rightAt
  rcases clauses name member with ⟨clause, clauseIn⟩
  have other : name ≠ query.order := by
    intro same
    exact (List.nodup_append.mp nodup).2.2 name member query.order List.mem_cons_self same
  rcases single_of_validateFind from_ valid ordered clauseIn other with ⟨lowerOp, scalar⟩
  rcases leftSatisfies _ clauseIn with ⟨leftOther, leftEq, leftHolds⟩
  rcases rightSatisfies _ clauseIn with ⟨rightOther, rightEq, rightHolds⟩
  rw [MojDbIndex.partOf, names] at leftEq rightEq
  rw [leftAt, Option.some.injEq] at leftEq
  rw [rightAt, Option.some.injEq] at rightEq
  rw [leftEq, rightEq]
  exact part_unique (planned.whereClauses.accepted _ clauseIn) lowerOp scalar leftHolds rightHolds

end MojDbQueryPlan

namespace MojDbIsamQuery

/-- The keys a find meets are in the order of the property it orders by. -/
theorem find_ordered (index : MojDbIndex) (query : MojDbQuery) (plan : MojDbQueryPlan)
    (store : MojDbIndexStore) (excludeKinds : List MojString) (calls : Nat)
    (ordered : query.order ≠ []) (validFind : query.validateFind = .ok ())
    (answers : index.canAnswer query = true) (built : init query index = .ok plan) :
    (visitKeys store calls (openQuery plan excludeKinds)).Pairwise fun left right =>
      ∀ leftParts rightParts, index.Spells leftParts left → index.Spells rightParts right →
        ∃ leftVal rightVal, index.partOf leftParts query.order = some leftVal ∧
          index.partOf rightParts query.order = some rightVal ∧
          if query.desc then rightVal ≤ leftVal else leftVal ≤ rightVal := by
  rcases init_scan answers built with ⟨planned, bound, rest, answered, from_, queryEq, scans, exact⟩
  have visited := visitKeys_sublist store excludeKinds calls scans
  have met := (covered_met store plan).sublist visited
  apply met.imp_of_mem
  intro left right leftIn rightIn metHere leftParts rightParts leftSpells rightSpells
  have leftSatisfies := ((exact leftParts left leftSpells).mp
    (covered_contained (visited.subset leftIn)).2).1
  have rightSatisfies := ((exact rightParts right rightSpells).mp
    (covered_contained (visited.subset rightIn)).2).1
  rcases split_at_order answered from_ validFind ordered leftSpells.length rightSpells.length
    leftSatisfies rightSatisfies with
    ⟨shared, leftPart, leftRest, rightPart, rightRest, leftEq, rightEq, leftAt, rightAt⟩
  refine ⟨leftPart, rightPart, leftAt, rightAt, ?_⟩
  rw [leftEq] at leftSpells
  rw [rightEq] at rightSpells
  rw [queryEq, from_.desc] at metHere
  unfold Met at metHere
  split_ifs at metHere ⊢ with desc
  · exact MojDbIndex.part_le_of_key_le rightSpells leftSpells metHere.le
  · exact MojDbIndex.part_le_of_key_le leftSpells rightSpells metHere.le

section Instances

/-- `a = 1`, ordered by `b`. -/
def orderedQuery : MojDbQuery :=
  { MojDbQuery.init (chars ['K']) with
    whereClauses := {
      entries := [(chars ['a'], ⟨.eq, .none, some (.int 1), none, .invalid⟩)]
      nodup := by decide
      accepted := by
        intro entry member
        rw [List.mem_singleton] at member
        rw [member]
        constructor <;> simp [isArray] }
    order := chars ['b'] }

def orderedPlan : MojDbQueryPlan where
  query := orderedQuery
  ranges := [
    ⟨MojDbKey.assign (.int 7) none ++ MojDbKey.assign (.int 1) none,
      MojDbKey.increment (MojDbKey.assign (.int 7) none ++ MojDbKey.assign (.int 1) none), 0⟩]
  groupCount := 0
  idIndex := 3

/-- Two keys of the index with `a = 1`. -/
def orderedStore : MojDbIndexStore where
  engine := .level
  keys := SortedSet.ofList [
    MojDbKey.assign (.int 7) none ++ MojDbKey.assign (.int 1) none ++
      MojDbKey.assign (.int 5) none ++ MojDbKey.assign (.string (chars ['x'])) none,
    MojDbKey.assign (.int 7) none ++ MojDbKey.assign (.int 1) none ++
      MojDbKey.assign (.int 2) none ++ MojDbKey.assign (.string (chars ['y'])) none]
  joinDb _ := none

theorem orderedQuery_ordered :
    (visitKeys orderedStore 2 (openQuery orderedPlan [])).length = 2 ∧
    (visitKeys orderedStore 2 (openQuery orderedPlan [])).Pairwise fun left right =>
      ∀ leftParts rightParts, twoPropIndex.Spells leftParts left →
        twoPropIndex.Spells rightParts right →
        ∃ leftVal rightVal, twoPropIndex.partOf leftParts orderedQuery.order = some leftVal ∧
          twoPropIndex.partOf rightParts orderedQuery.order = some rightVal ∧
          if orderedQuery.desc then rightVal ≤ leftVal else leftVal ≤ rightVal :=
  ⟨rfl, find_ordered twoPropIndex orderedQuery orderedPlan orderedStore [] 2 (by decide) rfl
    (by decide) rfl⟩

end Instances

end MojDbIsamQuery

end Db8.Db
