import Mathlib.Data.Finset.Basic
import Db8.Bytes.SortedMap
import Db8.Core.ReadBack
import Db8.Db.Paging
import Db8.Db.SearchRanges

/-!
# The ids a search finds

`loadIds`: the ids in the keys of a scan are collected group by group, one group for each word, and
an id is found if it is in every group. What is intersected are the ids the keys are read back as, so
a search is exact as long as every key it scans is read back as the id of its object. The entry of an
index for the id may be configured like any other, and is then not the id.
-/

set_option autoImplicit false

namespace Db8.Db

open Db8.Bytes
open Db8.Core

/-- A value an index holds of an object for a property. An object that lacks a value for any of the
index's properties has no keys in it. -/
def MojDbIndex.Indexed (index : MojDbIndex) (obj : MojObject) (propName : MojString)
    (code : MojDbKey) : Prop :=
  (∃ key, key ∈ index.contribution (some obj)) ∧
    ∃ extractor ∈ index.props, extractor.name = propName ∧ code ∈ extractor.vals index.locale obj

namespace MojDbSearchCursor

open MojDbIsamQuery
open MojDbQueryPlan
open WhereClause

def maxResults : MojUInt32 := 10000

/-- The query `init` leaves for the plan: the limit, the order and the page are seen to later. -/
def initQuery (query : MojDbQuery) : MojDbQuery :=
  { query with limit := maxResults, order := [], page := [] }

/-- The ids of a group; a key may be read back as nothing. -/
abbrev ObjectSet := Finset (Option MojObject)

structure Groups where
  map : SortedMap Nat ObjectSet
  current : Option Nat

namespace Groups

def empty : Groups := ⟨SortedMap.empty, none⟩

def enter (groups : Groups) (number : Nat) : Groups :=
  if groups.current = some number then groups
  else
    match groups.map.find number with
    | some _ => ⟨groups.map, some number⟩
    | none => ⟨groups.map.put number ∅, some number⟩

def put (groups : Groups) (id : Option MojObject) (number : Nat) : Groups :=
  let entered := groups.enter number
  { entered with
    map := entered.map.put number (insert id ((entered.map.find number).getD ∅)) }

def intersect : List ObjectSet → ObjectSet
  | [] => ∅
  | first :: rest => rest.foldl (· ∩ ·) first

def result (groups : Groups) (groupCount : Nat) : ObjectSet :=
  if ∀ number < groupCount, (groups.map.find number).isSome then
    intersect (groups.map.entries.map Prod.snd)
  else ∅

end Groups

/-- The loop of `loadIds` over the keys. -/
def collect (store : MojDbIndexStore) : Nat → MojDbIsamQuery → Groups → Except MojErr Groups
  | 0, _, _ => .error (.assertFailed "the ranges hold finitely many keys")
  | calls + 1, query, groups =>
    match getId store query with
    | (_, .error err) => .error err
    | (_, .ok none) => .ok groups
    | (query, .ok (some (id, number))) => collect store calls query (groups.put id number)

def loadIds (store : MojDbIndexStore) (query : MojDbIsamQuery) : Except MojErr ObjectSet :=
  (collect store (callBound store query) query Groups.empty).map fun groups =>
    groups.result query.plan.groupCount

section Groups

def Groups.Has (groups : Groups) (number : Nat) (id : Option MojObject) : Prop :=
  ∃ ids, groups.map.find number = some ids ∧ id ∈ ids

def putAll (idIndex : Nat) (groups : Groups) (entries : List (MojDbKey × Nat)) :
    Except MojErr Groups :=
  entries.foldlM
    (fun groups entry => (parseId idIndex entry.1).map fun id => groups.put id entry.2) groups

theorem Groups.find_enter (groups : Groups) (number other : Nat) :
    ((groups.enter number).map.find other).getD ∅ = (groups.map.find other).getD ∅ := by
  unfold enter
  split_ifs
  · rfl
  · cases found : groups.map.find number with
    | some ids => rfl
    | none =>
      rw [SortedMap.find_put]
      split_ifs with same
      · rw [← same, found]
        rfl
      · rfl

theorem Groups.has_iff_getD (groups : Groups) (number : Nat) (id : Option MojObject) :
    groups.Has number id ↔ id ∈ (groups.map.find number).getD ∅ := by
  unfold Has
  cases groups.map.find number <;> simp

theorem Groups.has_put (groups : Groups) (id other : Option MojObject) (number place : Nat) :
    (groups.put id number).Has place other ↔
      groups.Has place other ∨ place = number ∧ other = id := by
  rw [has_iff_getD, has_iff_getD, put, SortedMap.find_put]
  split_ifs with same
  · rw [Option.getD_some, Finset.mem_insert, find_enter, ← same]
    simp only [true_and]
    exact or_comm
  · rw [find_enter]
    simp [Ne.symm same]

def Groups.Inhabited (groups : Groups) : Prop :=
  ∀ number ids, groups.map.find number = some ids → ids.Nonempty

theorem Groups.inhabited_put {groups : Groups} (inhabited : groups.Inhabited)
    (id : Option MojObject) (number : Nat) : (groups.put id number).Inhabited := by
  intro place ids found
  rw [put, SortedMap.find_put] at found
  split_ifs at found with same
  · rw [← Option.some.inj found]
    exact Finset.insert_nonempty _ _
  · unfold enter at found
    split_ifs at found
    · exact inhabited place ids found
    · cases there : groups.map.find number with
      | some _ =>
        rw [there] at found
        exact inhabited place ids found
      | none =>
        rw [there] at found
        simp only [SortedMap.find_put, if_neg same] at found
        exact inhabited place ids found

theorem putAll_spec {idIndex : Nat} {entries : List (MojDbKey × Nat)} {groups after : Groups}
    (inhabited : groups.Inhabited) (ran : putAll idIndex groups entries = .ok after) :
    after.Inhabited ∧ (∀ entry ∈ entries, ∃ id, parseId idIndex entry.1 = .ok id) ∧
      ∀ number id, after.Has number id ↔ groups.Has number id ∨
        ∃ entry ∈ entries, entry.2 = number ∧ parseId idIndex entry.1 = .ok id := by
  induction entries generalizing groups with
  | nil =>
    cases ran
    exact ⟨inhabited, by simp, by simp⟩
  | cons entry entries ih =>
    unfold putAll at ran
    rw [List.foldlM_cons] at ran
    rcases except_bind_ok ran with ⟨next, first, rest⟩
    cases parsed : parseId idIndex entry.1 with
    | error err =>
      rw [parsed] at first
      cases first
    | ok id =>
      rw [parsed] at first
      cases first
      rcases ih (Groups.inhabited_put inhabited id entry.2) rest with ⟨kept, parses, has⟩
      refine ⟨kept, ?_, ?_⟩
      · intro other member
        rcases List.mem_cons.mp member with rfl | member
        · exact ⟨id, parsed⟩
        · exact parses other member
      · intro number found
        rw [has, Groups.has_put, or_assoc]
        apply or_congr_right
        simp only [List.mem_cons, exists_eq_or_imp, parsed, Except.ok.injEq]
        apply or_congr_left
        rw [eq_comm, eq_comm (a := found)]

theorem putAll_ok {idIndex : Nat} {entries : List (MojDbKey × Nat)}
    (parses : ∀ entry ∈ entries, ∃ id, parseId idIndex entry.1 = .ok id) (groups : Groups) :
    ∃ after, putAll idIndex groups entries = .ok after := by
  induction entries generalizing groups with
  | nil => exact ⟨groups, rfl⟩
  | cons entry entries ih =>
    rcases parses entry List.mem_cons_self with ⟨id, parsed⟩
    rcases ih (fun other member => parses other (List.mem_cons_of_mem _ member))
      (groups.put id entry.2) with ⟨after, rest⟩
    apply Exists.intro after
    unfold putAll
    rw [List.foldlM_cons, parsed]
    exact rest

theorem Groups.mem_intersect (sets : List ObjectSet) (some : sets ≠ []) (id : Option MojObject) :
    id ∈ intersect sets ↔ ∀ ids ∈ sets, id ∈ ids := by
  cases sets with
  | nil => exact absurd rfl some
  | cons first rest =>
    rw [intersect, List.forall_mem_cons]
    induction rest generalizing first with
    | nil => simp
    | cons second rest ih =>
      rw [List.foldl_cons, ih (first ∩ second) (List.cons_ne_nil _ _), Finset.mem_inter,
        List.forall_mem_cons, and_assoc]

theorem Groups.mem_result {groups : Groups} {groupCount : Nat} (positive : 0 < groupCount)
    (inhabited : groups.Inhabited) (numbers : ∀ number id, groups.Has number id → number < groupCount)
    (id : Option MojObject) :
    id ∈ groups.result groupCount ↔ ∀ number < groupCount, groups.Has number id := by
  unfold result
  split_ifs with all
  · have some : groups.map.entries.map Prod.snd ≠ [] := by
      rcases Option.isSome_iff_exists.mp (all 0 positive) with ⟨ids, found⟩
      exact List.ne_nil_of_mem (List.mem_map_of_mem ((SortedMap.find_eq_some_iff _ _ _).mp found))
    rw [mem_intersect _ some, List.forall_mem_map]
    constructor
    · intro every number within
      rcases Option.isSome_iff_exists.mp (all number within) with ⟨ids, found⟩
      exact ⟨ids, found, every _ ((SortedMap.find_eq_some_iff _ _ _).mp found)⟩
    · rintro every ⟨number, ids⟩ member
      have found := (SortedMap.find_eq_some_iff groups.map number ids).mpr member
      rcases inhabited number ids found with ⟨other, there⟩
      rcases every number (numbers number other ⟨ids, found, there⟩) with ⟨again, same, inside⟩
      rw [found] at same
      cases same
      exact inside
  · constructor
    · intro member
      exact absurd member (Finset.notMem_empty id)
    · intro every
      apply absurd _ all
      intro number within
      rcases every number within with ⟨ids, found, _⟩
      exact Option.isSome_iff_exists.mpr ⟨ids, found⟩

end Groups

section Loading

variable {store : MojDbIndexStore} {plan : MojDbQueryPlan}

theorem collect_eq {query : MojDbIsamQuery} {pending : List (MojDbKey × Nat)} {groups : Groups}
    {calls : Nat} (unlimited : query.limitEnforced = false) (scans : Scans store query pending)
    (enough : pending.length < calls) :
    collect store calls query groups = putAll query.plan.idIndex groups pending := by
  induction pending generalizing query groups calls with
  | nil =>
    cases calls with
    | zero => exact absurd enough (Nat.not_lt_zero _)
    | succ calls =>
      rcases getKey_none (Or.inr rfl) scans with ⟨pos, found, _⟩
      rw [collect, getId, found]
      rfl
  | cons entry pending ih =>
    cases calls with
    | zero => exact absurd enough (Nat.not_lt_zero _)
    | succ calls =>
      rcases getKey_cons unlimited scans with ⟨pos, found, keyEq, rest⟩
      have later := @ih { query with toPosition := pos }
      rw [collect, getId, found]
      unfold putAll
      rw [List.foldlM_cons]
      simp only [keyEq]
      cases parseId query.plan.idIndex entry.1 with
      | error err => rfl
      | ok id => exact later unlimited rest (Nat.lt_of_succ_lt_succ enough)

theorem mem_covered_iff (ordered : ScanOrdered plan.query.desc plan.ranges)
    (entry : MojDbKey × Nat) : entry ∈ covered store plan ↔ entry.1 ∈ store.keys ∧
      ∃ range ∈ plan.ranges, range.contains entry.1 ∧ range.group = entry.2 := by
  unfold covered
  rw [List.mem_filterMap]
  constructor
  · rintro ⟨key, keyIn, labelled⟩
    rcases Option.map_eq_some_iff.mp labelled with ⟨range, found, rfl⟩
    refine ⟨mem_line.mp keyIn, range, List.mem_of_find?_eq_some found, ?_, rfl⟩
    have decided := List.find?_some found
    exact of_decide_eq_true decided
  · rintro ⟨keyIn, range, rangeIn, inside, group⟩
    apply Exists.intro entry.1
    apply And.intro (mem_line.mpr keyIn)
    rw [label_of_contains ordered.disjoint rangeIn inside, group]

/-- What is found: the ids that some key of every word's ranges is read back as. -/
theorem loadIds_spec (excludeKinds : List MojString)
    (ordered : ScanOrdered plan.query.desc plan.ranges) (unlimited : plan.query.limit = maxResults)
    (positive : 0 < plan.groupCount) (numbers : ∀ range ∈ plan.ranges, range.group < plan.groupCount) :
    (∀ ids, loadIds store (openQuery plan excludeKinds) = .ok ids →
      (∀ entry ∈ covered store plan, ∃ id, parseId plan.idIndex entry.1 = .ok id) ∧
      ∀ id, id ∈ ids ↔ ∀ number < plan.groupCount, ∃ entry ∈ covered store plan,
        entry.2 = number ∧ parseId plan.idIndex entry.1 = .ok id) ∧
    ((∀ entry ∈ covered store plan, ∃ id, parseId plan.idIndex entry.1 = .ok id) →
      ∃ ids, loadIds store (openQuery plan excludeKinds) = .ok ids) := by
  have scans : Scans store (openQuery plan excludeKinds) (covered store plan) :=
    heldBy_eq_covered store ordered ▸ openQuery_scans store excludeKinds ordered
  have open_ : (openQuery plan excludeKinds).limitEnforced = false := by
    rw [limitEnforced, decide_eq_false_iff_not]
    simp [openQuery, unlimited, maxResults]
  have run := @collect_eq store _ _ Groups.empty _ open_ scans scans.length_lt
  have nothing : Groups.empty.Inhabited := by
    intro number ids found
    cases found
  constructor
  · intro ids loaded
    rw [loadIds, run] at loaded
    cases ran : putAll plan.idIndex Groups.empty (covered store plan) with
    | error err =>
      rw [show (openQuery plan excludeKinds).plan = plan from rfl, ran] at loaded
      cases loaded
    | ok groups =>
      rw [show (openQuery plan excludeKinds).plan = plan from rfl, ran] at loaded
      cases loaded
      rcases putAll_spec nothing ran with ⟨inhabited, parses, has⟩
      have fresh : ∀ number id, groups.Has number id ↔ ∃ entry ∈ covered store plan,
          entry.2 = number ∧ parseId plan.idIndex entry.1 = .ok id := by
        intro number id
        rw [has, or_iff_right]
        rintro ⟨others, found, _⟩
        cases found
      apply And.intro parses
      intro id
      rw [Groups.mem_result positive inhabited]
      · simp only [fresh]
      · intro number other there
        rcases (fresh number other).mp there with ⟨entry, member, rfl, _⟩
        rcases ((mem_covered_iff ordered entry).mp member).2 with ⟨range, rangeIn, _, group⟩
        rw [← group]
        exact numbers range rangeIn
  · intro parses
    rcases putAll_ok parses Groups.empty with ⟨groups, ran⟩
    apply Exists.intro (groups.result plan.groupCount)
    rw [loadIds, run, show (openQuery plan excludeKinds).plan = plan from rfl, ran]
    rfl

end Loading

/-- What a search asks of an object: each equality holds of a value of its property, and each word
of the text searched for starts one. -/
structure Meets (index : MojDbIndex) (planned : MojDbQuery) (obj : MojObject) : Prop where
  equalities : ∀ entry ∈ planned.whereClauses.entries, entry.2.lowerOp = .eq →
    ∃ code, index.Indexed obj entry.1 code ∧ entry.2.Holds index.locale code
  words : ∀ entry ∈ planned.whereClauses.entries, entry.2.lowerOp = .search →
    ∀ word ∈ searchWords index.locale entry.2,
      ∃ code, index.Indexed obj entry.1 code ∧ Starts word code

section Meeting

variable {index : MojDbIndex} {planned : MojDbQuery} {eqs : List (MojString × WhereClause)}
  {last : MojString × WhereClause} {rest : List MojString} {obj : MojObject}

theorem exists_forall₂ {α β : Type} {holds : α → β → Prop} {items : List α}
    (each : ∀ item ∈ items, ∃ val, holds item val) : ∃ vals, List.Forall₂ holds items vals := by
  induction items with
  | nil => exact ⟨[], List.Forall₂.nil⟩
  | cons item items ih =>
    rcases each item List.mem_cons_self with ⟨val, here⟩
    rcases ih fun other member => each other (List.mem_cons_of_mem _ member) with ⟨vals, all⟩
    exact ⟨val :: vals, List.Forall₂.cons here all⟩

theorem contribution_spelled {key : MojDbKey} (member : key ∈ index.contribution (some obj)) :
    ∃ parts, List.Forall₂ (fun part vals => part ∈ vals) parts (index.vals obj) ∧
      index.Spells parts key := by
  unfold MojDbIndex.contribution at member
  dsimp only at member
  split_ifs at member
  · rcases (index.mem_getKeys obj key).mp member with ⟨parts, members, rfl⟩
    exact ⟨parts, members, index.spells_of_vals obj members⟩
  · exact absurd member (SortedSet.not_mem_empty key)

theorem indexed_of_spelled {bound : List (MojString × WhereClause)}
    (answered : Answered index planned bound rest) {key : MojDbKey}
    (member : key ∈ index.contribution (some obj)) {parts : List MojDbKey}
    (members : List.Forall₂ (fun part vals => part ∈ vals) parts (index.vals obj))
    {place : Nat} {entry : MojString × WhereClause} {part : MojDbKey}
    (clause : bound[place]? = some entry) (there : parts[place]? = some part) :
    index.Indexed obj entry.1 part := by
  rcases List.getElem?_eq_some_iff.mp clause with ⟨inBound, rfl⟩
  rcases List.getElem?_eq_some_iff.mp there with ⟨inParts, rfl⟩
  have inVals : place < (index.vals obj).length := members.length_eq ▸ inParts
  have inProps : place < index.props.length := by
    rwa [MojDbIndex.vals, List.length_map] at inVals
  have here := members.get inParts inVals
  simp only [List.get_eq_getElem, MojDbIndex.vals, List.getElem_map] at here
  have named : (index.names)[place]? = some bound[place].1 := by
    rw [answered.names, List.getElem?_append_left (by simpa using inBound), List.getElem?_map,
      List.getElem?_eq_getElem inBound]
    rfl
  rw [MojDbIndex.names, propNames, List.getElem?_map, List.getElem?_eq_getElem inProps] at named
  exact ⟨⟨key, member⟩, index.props[place], List.getElem_mem inProps, Option.some.inj named, here⟩

/-- Values of the properties of the clauses make a key, with the values of any other key behind. -/
theorem spelled_of_indexed {bound : List (MojString × WhereClause)}
    (answered : Answered index planned bound rest) {key : MojDbKey}
    (member : key ∈ index.contribution (some obj)) {codes : List MojDbKey}
    (indexed : List.Forall₂ (fun entry code => index.Indexed obj entry.1 code) bound codes) :
    ∃ key behind, key ∈ index.contribution (some obj) ∧ index.Spells (codes ++ behind) key := by
  rcases contribution_spelled member with ⟨parts, members, _⟩
  have names := answered.names
  rw [MojDbIndex.names, propNames, List.map_eq_append_iff] at names
  rcases names with ⟨own, others, props, ownNames, _⟩
  have lengths : own.length = bound.length := by
    simpa using congrArg List.length ownNames
  have front : List.Forall₂ (fun part vals => part ∈ vals) codes
      (own.map fun extractor => extractor.vals index.locale obj) := by
    rw [List.forall₂_iff_get]
    have codesLength := indexed.length_eq
    constructor
    · rw [List.length_map, lengths, codesLength]
    · intro place inCodes inOwn
      rw [List.length_map] at inOwn
      have inBound : place < bound.length := lengths ▸ inOwn
      rcases indexed.get inBound inCodes with ⟨_, extractor, extractorIn, named, here⟩
      have ownName : own[place].name = bound[place].1 := by
        have names := congrArg (fun list => list[place]?) ownNames
        simpa [inOwn, inBound] using names
      have ownIn : own[place] ∈ index.props := by
        rw [props]
        exact List.mem_append_left _ (List.getElem_mem inOwn)
      have same : extractor = own[place] :=
        List.inj_on_of_nodup_map index.distinctNames extractorIn ownIn (named.trans ownName.symm)
      simp only [List.get_eq_getElem, List.getElem_map] at here ⊢
      rw [← same]
      exact here
  have behind : List.Forall₂ (fun part vals => part ∈ vals) (parts.drop bound.length)
      (others.map fun extractor => extractor.vals index.locale obj) := by
    have dropped := List.forall₂_drop bound.length members
    rwa [MojDbIndex.vals, props, List.map_append, List.drop_left' (by simp [lengths])] at dropped
  have whole : List.Forall₂ (fun part vals => part ∈ vals) (codes ++ parts.drop bound.length)
      (index.vals obj) := by
    rw [MojDbIndex.vals, props, List.map_append]
    exact List.rel_append front behind
  refine ⟨_, parts.drop bound.length, ?_, index.spells_of_vals obj whole⟩
  unfold MojDbIndex.contribution at member ⊢
  dsimp only at member ⊢
  split_ifs at member ⊢
  · exact (index.mem_getKeys obj _).mpr ⟨_, whole, rfl⟩
  · exact absurd member (SortedSet.not_mem_empty key)

/-- An object meets a search exactly when each group of ranges holds one of its keys. -/
theorem meets_iff (answered : Answered index planned (eqs ++ [last]) rest)
    (search : last.2.lowerOp = .search) (inhabited : (keptWords index.locale last.2).elems ≠ []) :
    Meets index planned obj ↔
      ∀ place < (keptWords index.locale last.2).elems.length,
        ∃ key ∈ index.contribution (some obj), ∃ range ∈ searchRanges index eqs last.2,
          range.contains key ∧ range.group = place := by
  have eqsEq : ∀ entry ∈ eqs, entry.2.lowerOp = .eq := fun entry member =>
    answered.equalities entry (by simpa using member)
  have inEqs : ∀ entry ∈ planned.whereClauses.entries, entry.2.lowerOp = .eq → entry ∈ eqs := by
    intro entry member lowerOp
    rw [← answered.mem_bound_iff, List.mem_append, List.mem_singleton] at member
    apply member.resolve_right
    rintro rfl
    rw [search] at lowerOp
    cases lowerOp
  have isLast : ∀ entry ∈ planned.whereClauses.entries, entry.2.lowerOp = .search →
      entry = last := by
    intro entry member lowerOp
    rw [← answered.mem_bound_iff, List.mem_append, List.mem_singleton] at member
    apply member.resolve_left
    intro inside
    rw [eqsEq entry inside] at lowerOp
    cases lowerOp
  have lastIn : last ∈ planned.whereClauses.entries :=
    (answered.mem_bound_iff last).mp (List.mem_append_right _ (List.mem_singleton.mpr rfl))
  constructor
  · intro meets place within
    have wordIn : (keptWords index.locale last.2).elems[place] ∈ keptWords index.locale last.2 :=
      List.getElem_mem within
    rcases meets.words last lastIn search _ (keptWords_subset wordIn) with ⟨part, indexed, starts⟩
    have fronts : ∀ entry ∈ eqs, ∃ code, index.Indexed obj entry.1 code ∧
        entry.2.Holds index.locale code := fun entry member =>
      meets.equalities entry ((answered.mem_bound_iff entry).mp (List.mem_append_left _ member))
        (eqsEq entry member)
    rcases exists_forall₂ fronts with ⟨codes, both⟩
    rcases indexed.1 with ⟨any, anyIn⟩
    have values : List.Forall₂ (fun entry code => index.Indexed obj entry.1 code) (eqs ++ [last])
        (codes ++ [part]) :=
      List.rel_append (both.imp fun _ _ here => here.1)
        (List.Forall₂.cons indexed List.Forall₂.nil)
    rcases spelled_of_indexed answered anyIn values with ⟨key, behind, member, spells⟩
    apply Exists.intro key
    apply And.intro member
    rw [exists_searchRange_iff answered spells]
    have length := both.length_eq
    constructor
    · rw [length, List.append_assoc, List.take_left]
      exact both.imp fun _ _ here => here.2
    · refine ⟨_, List.getElem?_eq_getElem within, part, ?_, starts⟩
      rw [length, List.append_assoc, List.getElem?_append_right le_rfl, Nat.sub_self]
      rfl
  · intro every
    have first := every 0 (List.length_pos_of_ne_nil inhabited)
    constructor
    · intro entry member lowerOp
      rcases first with ⟨key, keyIn, inside⟩
      rcases contribution_spelled keyIn with ⟨parts, members, spells⟩
      rw [exists_searchRange_iff answered spells] at inside
      rcases List.getElem_of_mem (inEqs entry member lowerOp) with ⟨place, within, rfl⟩
      have taken : place < (parts.take eqs.length).length := inside.1.length_eq ▸ within
      have holds := inside.1.get within taken
      simp only [List.get_eq_getElem, List.getElem_take] at holds
      have inParts : place < parts.length := by
        rw [List.length_take] at taken
        omega
      have clause : (eqs ++ [last])[place]? = some eqs[place] := by
        rw [List.getElem?_append_left within, List.getElem?_eq_getElem within]
      exact ⟨parts[place], indexed_of_spelled answered keyIn members clause
        (List.getElem?_eq_getElem inParts), holds⟩
    · intro entry member lowerOp
      rw [isLast entry member lowerOp, ← forall_kept_iff]
      intro word wordIn
      rcases List.getElem_of_mem wordIn with ⟨place, within, rfl⟩
      rcases every place within with ⟨key, keyIn, inside⟩
      rcases contribution_spelled keyIn with ⟨parts, members, spells⟩
      rw [exists_searchRange_iff answered spells] at inside
      rcases inside.2 with ⟨other, there, part, here, starts⟩
      rw [List.getElem?_eq_getElem within, Option.some.injEq] at there
      have clause : (eqs ++ [last])[eqs.length]? = some last := by
        rw [List.getElem?_append_right le_rfl, Nat.sub_self]
        rfl
      exact ⟨part, indexed_of_spelled answered keyIn members clause here, there ▸ starts⟩

end Meeting

/-- The store holds the keys of an index for some objects; other indexes' keys are not looked at. -/
def StoredIn (index : MojDbIndex) (objs : List MojObject) (store : MojDbIndexStore) : Prop :=
  ∀ key, MojDbKey.assign index.id none <+: key →
    (key ∈ store.keys ↔ ∃ obj ∈ objs, key ∈ index.contribution (some obj))

/-- The keys of some objects that a plan scans are read back as the ids of the objects. -/
def OwnIds (index : MojDbIndex) (plan : MojDbQueryPlan) (objs : List MojObject) : Prop :=
  ∀ obj ∈ objs, ∀ key ∈ index.contribution (some obj),
    (∃ range ∈ plan.ranges, range.contains key) →
      parseId plan.idIndex key = .ok (obj.get idKey)

def FindsExactly (index : MojDbIndex) (planned : MojDbQuery) (objs : List MojObject)
    (found : Except MojErr ObjectSet) : Prop :=
  ∃ ids, found = .ok ids ∧
    ∀ id, id ∈ ids ↔ ∃ obj ∈ objs, Meets index planned obj ∧ obj.get idKey = id

section Exactness

variable {index : MojDbIndex} {query planned : MojDbQuery} {plan : MojDbQueryPlan}
  {eqs : List (MojString × WhereClause)} {last : MojString × WhereClause} {rest : List MojString}
  {objs : List MojObject} {store : MojDbIndexStore}

structure Planned (index : MojDbIndex) (planned : MojDbQuery)
    (eqs : List (MojString × WhereClause)) (last : MojString × WhereClause)
    (rest : List MojString) (plan : MojDbQueryPlan) : Prop where
  answered : Answered index planned (eqs ++ [last]) rest
  search : last.2.lowerOp = .search
  inhabited : (keptWords index.locale last.2).elems ≠ []
  limit : plan.query.limit = maxResults
  ordered : ScanOrdered plan.query.desc plan.ranges
  ranges : ∀ range, range ∈ plan.ranges ↔ range ∈ searchRanges index eqs last.2
  groupCount : plan.groupCount = (keptWords index.locale last.2).elems.length

theorem init_planned (answers : index.canAnswer (initQuery query) = true)
    (searches : ∃ entry ∈ query.whereClauses.entries, entry.2.lowerOp = .search ∧
      (searchWords index.locale entry.2).elems ≠ []) :
    ∃ planned plan eqs last rest, planQuery (initQuery query) index = .ok planned ∧
      MojDbQueryPlan.init (initQuery query) index = .ok plan ∧
      Planned index planned eqs last rest plan := by
  rcases canAnswer_answered answers with ⟨planned, bound, rest, planning, answered, from_⟩
  rcases searches with ⟨entry, entryIn, search, words⟩
  have inBound : entry ∈ bound :=
    (answered.mem_bound_iff entry).mpr ((from_.entries entry).mpr (Or.inl entryIn))
  rcases List.eq_nil_or_concat bound with rfl | ⟨eqs, last, rfl⟩
  · exact absurd inBound List.not_mem_nil
  · rw [List.concat_eq_append] at answered inBound
    have same : entry = last := by
      rw [List.mem_append, List.mem_singleton] at inBound
      apply inBound.resolve_left
      intro inside
      have lowerOp := answered.equalities entry (by simpa using inside)
      rw [search] at lowerOp
      cases lowerOp
    subst same
    have built := buildRanges_search answered search from_.page
    rcases planQuery_page planning with ⟨clauses, plannedEq, _⟩
    refine ⟨planned, ⟨planned, if query.desc then (searchRanges index eqs entry.2).reverse
      else searchRanges index eqs entry.2, (keptWords index.locale entry.2).elems.length,
      index.idIndex⟩, eqs, entry, rest, planning, ?_, answered, search, keptWords_ne_nil words,
      ?_, ?_, ?_, rfl⟩
    · rw [MojDbQueryPlan.init, planning]
      simp only [bind, Except.bind, built]
      rfl
    · rw [plannedEq]
      rfl
    · rw [from_.desc]
      exact scanOrdered_of_precedes searchRanges_ordered searchRanges_bounded query.desc
    · intro range
      dsimp only
      split_ifs
      · exact List.mem_reverse
      · rfl

theorem covered_iff (planned : Planned index planned eqs last rest plan)
    (stored : StoredIn index objs store) (place : Nat) (holds : MojDbKey → Prop) :
    (∃ entry ∈ covered store plan, entry.2 = place ∧ holds entry.1) ↔
      ∃ obj ∈ objs, ∃ key ∈ index.contribution (some obj),
        (∃ range ∈ searchRanges index eqs last.2, range.contains key ∧ range.group = place) ∧
          holds key := by
  simp only [mem_covered_iff planned.ordered, planned.ranges]
  constructor
  · rintro ⟨⟨key, number⟩, ⟨keyIn, range, rangeIn, inside, group⟩, rfl, here⟩
    rcases (stored key (searchRange_own rangeIn inside)).mp keyIn with ⟨obj, objIn, own⟩
    exact ⟨obj, objIn, key, own, ⟨range, rangeIn, inside, group⟩, here⟩
  · rintro ⟨obj, objIn, key, own, ⟨range, rangeIn, inside, group⟩, here⟩
    have keyIn := (stored key (searchRange_own rangeIn inside)).mpr ⟨obj, objIn, own⟩
    exact ⟨(key, place), ⟨keyIn, range, rangeIn, inside, group⟩, rfl, here⟩

theorem loadIds_objs (planned : Planned index planned eqs last rest plan)
    (stored : StoredIn index objs store) (excludeKinds : List MojString) :
    (∀ ids, loadIds store (openQuery plan excludeKinds) = .ok ids →
      (∀ obj ∈ objs, ∀ key ∈ index.contribution (some obj),
        (∃ range ∈ plan.ranges, range.contains key) → ∃ id, parseId plan.idIndex key = .ok id) ∧
      ∀ id, id ∈ ids ↔ ∀ place < plan.groupCount, ∃ obj ∈ objs,
        ∃ key ∈ index.contribution (some obj),
          (∃ range ∈ searchRanges index eqs last.2, range.contains key ∧ range.group = place) ∧
            parseId plan.idIndex key = .ok id) ∧
    ((∀ obj ∈ objs, ∀ key ∈ index.contribution (some obj),
        (∃ range ∈ plan.ranges, range.contains key) → ∃ id, parseId plan.idIndex key = .ok id) →
      ∃ ids, loadIds store (openQuery plan excludeKinds) = .ok ids) := by
  have positive : 0 < plan.groupCount := by
    rw [planned.groupCount]
    exact List.length_pos_of_ne_nil planned.inhabited
  have numbers : ∀ range ∈ plan.ranges, range.group < plan.groupCount := by
    intro range member
    rcases (mem_searchRanges range).mp ((planned.ranges range).mp member) with
      ⟨front, _, place, word, there, rfl⟩
    rw [planned.groupCount]
    exact (List.getElem?_eq_some_iff.mp there).1
  have parses : (∀ entry ∈ covered store plan, ∃ id, parseId plan.idIndex entry.1 = .ok id) ↔
      ∀ obj ∈ objs, ∀ key ∈ index.contribution (some obj),
        (∃ range ∈ plan.ranges, range.contains key) → ∃ id, parseId plan.idIndex key = .ok id := by
    constructor
    · intro each obj objIn key own inside
      rcases inside with ⟨range, rangeIn, inside⟩
      have member := (planned.ranges range).mp rangeIn
      have keyIn := (stored key (searchRange_own member inside)).mpr ⟨obj, objIn, own⟩
      exact each (key, range.group)
        ((mem_covered_iff planned.ordered _).mpr ⟨keyIn, range, rangeIn, inside, rfl⟩)
    · intro each entry member
      rcases (mem_covered_iff planned.ordered entry).mp member with
        ⟨keyIn, range, rangeIn, inside, _⟩
      have own := searchRange_own ((planned.ranges range).mp rangeIn) inside
      rcases (stored entry.1 own).mp keyIn with ⟨obj, objIn, here⟩
      exact each obj objIn entry.1 here ⟨range, rangeIn, inside⟩
  rcases @loadIds_spec store plan excludeKinds planned.ordered planned.limit positive numbers with
    ⟨finds, succeeds⟩
  rw [parses] at succeeds
  apply And.intro _ succeeds
  intro ids loaded
  rcases finds ids loaded with ⟨each, members⟩
  apply And.intro (parses.mp each)
  intro id
  rw [members]
  apply forall₂_congr
  intro place _
  exact covered_iff planned stored place fun key => parseId plan.idIndex key = .ok id

/-- A search finds exactly the objects that meet it, as long as the keys it scans are read back as the
ids of their objects; a search for a single word needs that. -/
theorem finds_exactly_of_own_ids (index : MojDbIndex) (query : MojDbQuery)
    (excludeKinds : List MojString) (objs : List MojObject)
    (answers : index.canAnswer (initQuery query) = true)
    (searches : ∃ entry ∈ query.whereClauses.entries, entry.2.lowerOp = .search ∧
      (searchWords index.locale entry.2).elems ≠ [])
    (distinct : ∀ obj ∈ objs, ∀ other ∈ objs, obj.get idKey = other.get idKey → obj = other) :
    ∃ planned plan, planQuery (initQuery query) index = .ok planned ∧
      MojDbQueryPlan.init (initQuery query) index = .ok plan ∧
      (OwnIds index plan objs → ∀ store, StoredIn index objs store →
        FindsExactly index planned objs (loadIds store (openQuery plan excludeKinds))) ∧
      (plan.groupCount = 1 → (∀ part, part.Sublist objs → ∀ store, StoredIn index part store →
          FindsExactly index planned part (loadIds store (openQuery plan excludeKinds))) →
        OwnIds index plan objs) := by
  rcases init_planned answers searches with ⟨planned, plan, eqs, last, rest, planning, built, whole⟩
  refine ⟨planned, plan, planning, built, ?_, ?_⟩
  · intro own store stored
    rcases loadIds_objs whole stored excludeKinds with ⟨finds, succeeds⟩
    rcases succeeds fun obj objIn key keyIn inside => ⟨_, own obj objIn key keyIn inside⟩ with
      ⟨ids, loaded⟩
    apply Exists.intro ids
    apply And.intro loaded
    intro id
    rw [(finds ids loaded).2]
    have read : ∀ obj ∈ objs, ∀ key ∈ index.contribution (some obj),
        (∃ range ∈ searchRanges index eqs last.2, range.contains key) →
          parseId plan.idIndex key = .ok (obj.get idKey) := by
      rintro obj objIn key keyIn ⟨range, rangeIn, inside⟩
      exact own obj objIn key keyIn ⟨range, (whole.ranges range).mpr rangeIn, inside⟩
    have positive : 0 < plan.groupCount := by
      rw [whole.groupCount]
      exact List.length_pos_of_ne_nil whole.inhabited
    constructor
    · intro every
      rcases every 0 positive with ⟨obj, objIn, key, keyIn, ⟨range, rangeIn, inside, _⟩, parsed⟩
      rw [read obj objIn key keyIn ⟨range, rangeIn, inside⟩, Except.ok.injEq] at parsed
      refine ⟨obj, objIn, ?_, parsed⟩
      rw [meets_iff whole.answered whole.search whole.inhabited, ← whole.groupCount]
      intro place within
      rcases every place within with ⟨other, otherIn, key, keyIn, there, parsedOther⟩
      rcases there with ⟨range, rangeIn, inside, group⟩
      rw [read other otherIn key keyIn ⟨range, rangeIn, inside⟩, Except.ok.injEq] at parsedOther
      rw [distinct obj objIn other otherIn (parsed.trans parsedOther.symm)]
      exact ⟨key, keyIn, range, rangeIn, inside, group⟩
    · rintro ⟨obj, objIn, meets, rfl⟩ place within
      rw [meets_iff whole.answered whole.search whole.inhabited, ← whole.groupCount] at meets
      rcases meets place within with ⟨key, keyIn, range, rangeIn, inside, group⟩
      exact ⟨obj, objIn, key, keyIn, ⟨range, rangeIn, inside, group⟩,
        read obj objIn key keyIn ⟨range, rangeIn, inside⟩⟩
  · intro single exact obj objIn key keyIn inside
    have alone : StoredIn index [obj] ⟨.sandwich, index.contribution (some obj), fun _ => none⟩ := by
      intro key _
      simp
    rcases exact [obj] (List.singleton_sublist.mpr objIn) _ alone with ⟨ids, loaded, members⟩
    rcases loadIds_objs whole alone excludeKinds with ⟨finds, _⟩
    rcases finds ids loaded with ⟨parses, found⟩
    rcases parses obj List.mem_cons_self key keyIn inside with ⟨id, parsed⟩
    rcases inside with ⟨range, rangeIn, inside⟩
    have idIn : id ∈ ids := by
      rw [found, single]
      intro place within
      have zero : place = 0 := Nat.lt_one_iff.mp within
      have member := (whole.ranges range).mp rangeIn
      have group : range.group = 0 := by
        rcases (mem_searchRanges range).mp member with ⟨front, _, number, word, there, rfl⟩
        have bound := (List.getElem?_eq_some_iff.mp there).1
        rw [← whole.groupCount, single] at bound
        exact Nat.lt_one_iff.mp bound
      rw [zero]
      exact ⟨obj, List.mem_cons_self, key, keyIn, ⟨range, member, inside, group⟩, parsed⟩
    rcases (members id).mp idIn with ⟨other, otherIn, _, named⟩
    rw [List.mem_singleton.mp otherIn] at named
    rw [parsed, named]

end Exactness

section Plain

theorem idProp_vals (locale : MojDbLocale) {obj id : MojObject} (named : obj.get idKey = some id)
    (single : id.type ≠ .array) :
    idProp.vals locale obj = SortedSet.empty.put (MojDbKey.assign id none) := by
  have path : split propComponentSeparator [] idKey = [idKey] := by decide
  have plain : idKey ≠ wildcardKey := by decide
  have alone : MojDbPropExtractor.elements id = [id] := by
    cases id with
    | array vals => exact absurd rfl single
    | _ => rfl
  simp only [idProp, MojDbExtractor.vals, MojDbPropExtractor.vals, MojDbPropExtractor.prop, path,
    MojDbPropExtractor.valsImpl, if_neg plain, named, alone, List.foldl_cons, List.foldl_nil,
    MojDbPropExtractor.leafVals, MojDbLocale.collatorOf, if_true]

/-- The entry an index gets by itself for the id reads back as the id, unless that is an array. -/
theorem parseId_plain {index : MojDbIndex} (plain : idProp ∈ index.props) {obj id : MojObject}
    (named : obj.get idKey = some id) (wellFormed : id.WellFormed) (single : id.type ≠ .array)
    {key : MojDbKey} (keyIn : key ∈ index.contribution (some obj)) :
    parseId index.idIndex key = .ok (some id) := by
  rcases contribution_spelled keyIn with ⟨parts, members, spells⟩
  have inNames : index.names.idxOf idKey < index.names.length :=
    List.idxOf_lt_length_iff.mpr index.hasId
  have lengths : parts.length = index.names.length := by
    rw [spells.length, MojDbIndex.names, propNames, List.length_map]
  have inParts : index.names.idxOf idKey < parts.length := lengths ▸ inNames
  have inProps : index.names.idxOf idKey < index.props.length := spells.length ▸ inParts
  have own : index.props[index.names.idxOf idKey] = idProp := by
    apply List.inj_on_of_nodup_map index.distinctNames (List.getElem_mem inProps) plain
    have here := List.getElem_idxOf inNames
    simp only [MojDbIndex.names, propNames, List.getElem_map] at here
    exact here
  have part : parts[index.names.idxOf idKey] = MojObjectWriter.value id := by
    have inVals : index.names.idxOf idKey < (index.vals obj).length := members.length_eq ▸ inParts
    have here := members.get inParts inVals
    simp only [List.get_eq_getElem, MojDbIndex.vals, List.getElem_map, own] at here
    rw [idProp_vals index.locale named single, SortedSet.mem_put] at here
    exact here.resolve_right (SortedSet.not_mem_empty _)
  have front : ∀ code ∈ MojDbKey.assign index.id none :: parts.take (index.names.idxOf idKey),
      code ∈ MojObjectWriter.codes := by
    intro code member
    rcases List.mem_cons.mp member with rfl | member
    · exact MojDbKey.assign_mem_codes _ _
    · exact spells.codes code (List.mem_of_mem_take member)
  have skipped := MojObjectReader.skipObjects_flatten front
    (parts[index.names.idxOf idKey] ++ (parts.drop (index.names.idxOf idKey + 1)).flatten)
  rw [List.length_cons, List.length_take_of_le inParts.le, List.flatten_cons,
    ← (spells.split inParts).2] at skipped
  rw [parseId, MojDbIndex.idIndex, skipped, part]
  simp only [bind, Except.bind, MojObjectReader.nextObject_value,
    MojObjectBuilder.foldlM_visits_empty wellFormed]

theorem ownIds_of_plain {index : MojDbIndex} {plan : MojDbQueryPlan} {objs : List MojObject}
    (placed : plan.idIndex = index.idIndex) (plain : idProp ∈ index.props)
    (named : ∀ obj ∈ objs, ∃ id, obj.get idKey = some id ∧ id.WellFormed ∧ id.type ≠ .array) :
    OwnIds index plan objs := by
  intro obj objIn key keyIn _
  rcases named obj objIn with ⟨id, got, wellFormed, single⟩
  rw [placed, got]
  exact parseId_plain plain got wellFormed single keyIn

end Plain

section Instances

def textKey : MojString := chars ['t', 'e', 'x', 't']

def textProp : MojDbExtractor := .prop ⟨textKey, .invalid, none, true, by decide⟩

theorem lowered_ne_zero : (97 : Byte) ≠ 0 := by decide

def foldingLocale : MojDbLocale where
  collator _ := ⟨fun text => text.map fun c => if c.val = 65 then ⟨97, lowered_ne_zero⟩ else c⟩
  words text := [text]
  json _ := []

/-- An index on the words of a text, with the id in the entry given. -/
def textIndex (extractor : MojDbExtractor) (named : extractor.name = idKey) : MojDbIndex where
  id := .int 7
  locale := foldingLocale
  sortKey := [textKey]
  props := [textProp, extractor]
  includeDeleted := false
  ready := true
  distinctNames := by
    simp only [propNames, List.map_cons, List.map_nil, named]
    decide
  hasId := by simp [propNames, named]
  delFront := by simp

def plainIndex : MojDbIndex := textIndex idProp rfl

def foldedIndex : MojDbIndex :=
  textIndex (.prop ⟨idKey, .primary, none, false, idKey_path⟩) rfl

def note : MojObject :=
  (MojObject.object []).put idKey (.string (chars ['A'])) |>.put textKey (.string (chars ['h', 'i']))

def noteStore (index : MojDbIndex) : MojDbIndexStore :=
  ⟨.sandwich, index.contribution (some note), fun _ => none⟩

theorem stored_note (index : MojDbIndex) : StoredIn index [note] (noteStore index) := by
  intro key _
  simp [noteStore]

def searchClause : WhereClause := ⟨.search, .none, some (.string (chars ['h'])), none, .invalid⟩

def textQuery : MojDbQuery :=
  { MojDbQuery.init (chars ['K']) with
    whereClauses := {
      entries := [(textKey, searchClause)]
      nodup := by decide
      accepted := by
        intro entry member
        rw [List.mem_singleton.mp member]
        exact @createClause_accepted .search (.string (chars ['h'])) .invalid searchClause
          (by decide) rfl } }

theorem finds_note : ∃ planned plan, planQuery (initQuery textQuery) plainIndex = .ok planned ∧
    MojDbQueryPlan.init (initQuery textQuery) plainIndex = .ok plan ∧
    FindsExactly plainIndex planned [note] (loadIds (noteStore plainIndex) (openQuery plan [])) := by
  rcases finds_exactly_of_own_ids plainIndex textQuery [] [note] (by decide +kernel)
    ⟨(textKey, searchClause), by simp [textQuery], rfl, by decide +kernel⟩ (by simp) with
    ⟨planned, plan, planning, built, finds, _⟩
  refine ⟨planned, plan, planning, built, ?_⟩
  apply finds _ _ (stored_note plainIndex)
  apply ownIds_of_plain (init_idIndex built) (by simp [plainIndex, textIndex])
  intro obj member
  rw [List.mem_singleton.mp member]
  exact ⟨.string (chars ['A']), by decide, trivial, by decide⟩

/-- With a collated entry for the id, the sort key of the id is found. -/
theorem finds_sort_key : ∃ planned plan, planQuery (initQuery textQuery) foldedIndex = .ok planned ∧
    MojDbQueryPlan.init (initQuery textQuery) foldedIndex = .ok plan ∧
    foldedIndex.canAnswer (initQuery textQuery) = true ∧
    StoredIn foldedIndex [note] (noteStore foldedIndex) ∧
    ¬ FindsExactly foldedIndex planned [note]
      (loadIds (noteStore foldedIndex) (openQuery plan [])) := by
  rcases @init_planned foldedIndex textQuery (by decide +kernel)
    ⟨(textKey, searchClause), by simp [textQuery], rfl, by decide +kernel⟩ with
    ⟨planned, plan, _, _, _, planning, built, _⟩
  refine ⟨planned, plan, planning, built, by decide +kernel, stored_note foldedIndex, ?_⟩
  rintro ⟨ids, loaded, members⟩
  have found : ((MojDbQueryPlan.init (initQuery textQuery) foldedIndex >>= fun plan =>
      loadIds (noteStore foldedIndex) (openQuery plan [])).map fun ids =>
        decide (some (.string (chars ['a'])) ∈ ids)) = .ok true := by
    rfl
  rw [built] at found
  change (loadIds (noteStore foldedIndex) (openQuery plan [])).map _ = _ at found
  rw [loaded] at found
  rcases (members _).mp (of_decide_eq_true (Except.ok.inj found)) with ⟨obj, objIn, _, named⟩
  rw [List.mem_singleton.mp objIn] at named
  exact absurd named (by decide)

end Instances

end MojDbSearchCursor

end Db8.Db
