import Db8.Db.Index

/-!
# Query plans

`MojDbQueryPlan`: the key ranges an index is scanned over for a query. Three key sets (lower bounds,
upper bounds and the prefixes in front of an inequality) are built in parallel from the where
clauses in index order, and turned range by range into bounds according to the last clause. The
assertions of the source are kept as errors.
-/

set_option autoImplicit false

namespace Db8.Db

open Db8.Bytes
open Db8.Core

structure MojDbQueryPlan where
  query : MojDbQuery
  ranges : List MojDbKeyRange
  groupCount : Nat
  /-- How many values stand in front of the id in a key. -/
  idIndex : Nat

namespace MojDbQueryPlan

/-- The keys pushed for a value; an undefined value is written as null. -/
def pushVal (val : Option MojObject) (coll : Option MojDbTextCollator) : KeySet :=
  match val with
  | none => SortedSet.single (MojDbKey.assign .null none)
  | some val =>
    SortedSet.ofList
      ((MojDbPropExtractor.elements val).map fun elem => MojDbKey.assign elem coll)

/-- The loop of `pushSearch` that deletes every token starting the next one. -/
def dropPrefixes : List MojDbKey → List MojDbKey
  | [] => []
  | [tok] => [tok]
  | prev :: next :: rest =>
    if MojDbKey.stringPrefixOf prev next then dropPrefixes (next :: rest)
    else prev :: dropPrefixes (next :: rest)

theorem dropPrefixes_sublist (toks : List MojDbKey) : (dropPrefixes toks).Sublist toks := by
  induction toks with
  | nil => exact List.Sublist.slnil
  | cons prev rest ih =>
    cases rest with
    | nil => exact List.Sublist.refl _
    | cons next rest =>
      rw [dropPrefixes]
      split_ifs
      · exact ih.cons prev
      · exact ih.cons_cons prev

def pushSearch (locale : MojDbLocale) (val : Option MojObject)
    (coll : Option MojDbTextCollator) : KeySet :=
  let text := (val.map locale.stringValue).getD []
  let toks := locale.tokenize text coll SortedSet.empty
  ⟨dropPrefixes toks.elems, toks.sorted.sublist (dropPrefixes_sublist toks.elems)⟩

/-- The state of the loop of `buildRanges`. -/
structure Builders where
  lowerBuilder : List KeySet
  upperBuilder : List KeySet
  prefixKeys : KeySet
  lastClause : Option WhereClause
  groupCount : Nat

def pushClause (locale : MojDbLocale) (builders : Builders) (clause : WhereClause) : Builders :=
  let coll := locale.collatorOf clause.collation
  if clause.lowerOp = .search then
    let toks := pushSearch locale clause.lowerVal coll
    { builders with
      lowerBuilder := builders.lowerBuilder ++ [toks]
      upperBuilder := builders.upperBuilder ++ [toks]
      lastClause := some clause
      groupCount := toks.elems.length }
  else
    -- the prefix is copied off before an inequality value is written
    let prefixKeys :=
      if clause.lowerOp ≠ .eq ∧ clause.lowerOp ≠ .prefixOf then
        let keys := MojDbKeyBuilder.keys builders.lowerBuilder
        if keys.elems = [] then keys.put [] else keys
      else builders.prefixKeys
    let upperVal := if clause.upperOp = .none then clause.lowerVal else clause.upperVal
    { builders with
      lowerBuilder := builders.lowerBuilder ++ [pushVal clause.lowerVal coll]
      upperBuilder := builders.upperBuilder ++ [pushVal upperVal coll]
      prefixKeys := prefixKeys
      lastClause := some clause }

def pushClauses (locale : MojDbLocale) (clauses : WhereMap) :
    Nat → List MojString → Builders → Except MojErr Builders
  | _, [], builders => .ok builders
  | passed, propName :: rest, builders =>
    match clauses.find propName with
    | none => do
      mojAssert (passed == clauses.size) "(MojSize)(i - props.begin()) == where.size()"
      .ok builders
    | some clause =>
      pushClauses locale clauses (passed + 1) rest (pushClause locale builders clause)

/-- The part of `addRange` that moves a range's entry bound to the page, or discards the range. -/
def clipToPage (pageKey : MojDbKey) (desc : Bool) (range : MojDbKeyRange) :
    Option MojDbKeyRange :=
  if pageKey = [] then some range
  else if desc then
    if range.lowerKey ≠ [] ∧ pageKey ≤ range.lowerKey then none
    else if range.upperKey = [] ∨ pageKey < range.upperKey then
      some { range with upperKey := pageKey }
    else some range
  else
    if range.upperKey ≠ [] ∧ ¬ pageKey ≤ range.upperKey then none
    else if range.lowerKey = [] ∨ ¬ pageKey < range.lowerKey then
      some { range with lowerKey := pageKey }
    else some range

def pushRange (ranges : List MojDbKeyRange) (range : MojDbKeyRange) : List MojDbKeyRange :=
  match ranges.getLast? with
  | none => [range]
  | some back => if back.containsRange range then ranges else ranges ++ [range]

def addRange (query : MojDbQuery) (ranges : List MojDbKeyRange) (range : MojDbKeyRange) :
    List MojDbKeyRange :=
  match clipToPage query.page query.desc range with
  | none => ranges
  | some range => pushRange ranges range

def dropTerminator (key : MojDbKey) : MojDbKey :=
  if key.getLast? = some 0 then key.dropLast else key

/-- The first switch of `rangesFromKeys`, setting up the upper bound. -/
def upperBound (lowerOp upperOp : CompOp) (upperKey prefixKey : MojDbKey) :
    Except MojErr MojDbKey :=
  match upperOp with
  | .none => do
    mojAssert (decide (lowerOp ≠ .none)) "lowerOp != MojDbQuery::OpNone"
    .ok (MojDbKey.increment prefixKey)
  | .lessThanEq => .ok (MojDbKey.increment upperKey)
  | op => do
    mojAssert (decide (op = .lessThan)) "upperOp == MojDbQuery::OpLessThan"
    .ok upperKey

/-- `rangesFromKeys`: the ranges its second switch adds, in order. -/
def boundsFromKeys (lowerKey upperKey prefixKey : MojDbKey) (index groupCount : Nat)
    (clause : Option WhereClause) : Except MojErr (List MojDbKeyRange) := do
  let lowerOp := (clause.map WhereClause.lowerOp).getD .eq
  let upperOp := (clause.map WhereClause.upperOp).getD .none
  let upperKey ← upperBound lowerOp upperOp upperKey prefixKey
  match lowerOp with
  | .none => do
    mojAssert (decide (upperOp ≠ .none)) "upperOp != MojDbQuery::OpNone"
    .ok [⟨lowerKey, upperKey, 0⟩]
  | .search => do
    mojAssert (decide (prefixKey ≠ [])) "!prefix.empty()"
    .ok [⟨lowerKey, MojDbKey.increment (dropTerminator prefixKey), index % groupCount⟩]
  | .prefixOf => do
    mojAssert (decide (prefixKey ≠ [])) "!prefix.empty()"
    .ok [⟨lowerKey, MojDbKey.increment (dropTerminator prefixKey), 0⟩]
  | .eq => .ok [⟨lowerKey, MojDbKey.increment prefixKey, 0⟩]
  | .notEq =>
    .ok [⟨prefixKey, lowerKey, 0⟩,
      ⟨MojDbKey.increment lowerKey, MojDbKey.increment prefixKey, 0⟩]
  | .greaterThan => .ok [⟨MojDbKey.increment lowerKey, upperKey, 0⟩]
  | .greaterThanEq => .ok [⟨lowerKey, upperKey, 0⟩]
  | _ => .error (.assertFailed "not reached")

def boundsFromKeySets (groupCount : Nat) (clause : Option WhereClause) :
    Nat → List MojDbKey → List MojDbKey → List MojDbKey → Except MojErr (List MojDbKeyRange)
  | index, lowerKey :: lowers, upperKey :: uppers, prefixKey :: prefixes => do
    let here ← boundsFromKeys lowerKey upperKey prefixKey index groupCount clause
    let rest ← boundsFromKeySets groupCount clause (index + 1) lowers uppers prefixes
    .ok (here ++ rest)
  | _, _, _, _ => .ok []

def rangesFromKeySets (query : MojDbQuery) (lowerKeys upperKeys prefixKeys : KeySet)
    (groupCount : Nat) (clause : Option WhereClause) : Except MojErr (List MojDbKeyRange) := do
  mojAssert (lowerKeys.elems.length == upperKeys.elems.length &&
      lowerKeys.elems.length == prefixKeys.elems.length)
    "lowerKeys.size() == upperKeys.size() && lowerKeys.size() == prefixKeys.size()"
  let bounds ← boundsFromKeySets groupCount clause 0 lowerKeys.elems upperKeys.elems
    prefixKeys.elems
  .ok (bounds.foldl (addRange query) [])

/-- The end of `buildRanges`, going from builders to ranges. -/
def rangesFromBuilders (query : MojDbQuery) (builders : Builders) :
    Except MojErr MojDbQueryPlan := do
  let lowerKeys := MojDbKeyBuilder.keys builders.lowerBuilder
  let upperKeys := MojDbKeyBuilder.keys builders.upperBuilder
  let prefixKeys := if builders.prefixKeys.elems = [] then lowerKeys else builders.prefixKeys
  let ranges ← rangesFromKeySets query lowerKeys upperKeys prefixKeys builders.groupCount
    builders.lastClause
  .ok ⟨query, ranges, builders.groupCount, 0⟩

def buildRanges (query : MojDbQuery) (index : MojDbIndex) : Except MojErr MojDbQueryPlan := do
  let builders ← pushClauses index.locale query.whereClauses 0 index.names
    ⟨[index.idSet], [index.idSet], SortedSet.empty, none, 0⟩
  rangesFromBuilders query builders

/-- The query as planned: an index of deleted objects gets a clause that excludes them. -/
def planQuery (query : MojDbQuery) (index : MojDbIndex) : Except MojErr MojDbQuery :=
  if index.includeDeleted ∧ ¬ query.whereClauses.contains delKey then
    query.addWhere delKey .eq (.bool false) .invalid
  else .ok query

def init (query : MojDbQuery) (index : MojDbIndex) : Except MojErr MojDbQueryPlan := do
  let planned ← planQuery query index
  let plan ← buildRanges planned index
  .ok { plan with
    ranges := if query.desc then plan.ranges.reverse else plan.ranges
    idIndex := index.idIndex }

end MojDbQueryPlan

end Db8.Db
