import Db8.Db.PlanBounds

/-!
# Plans are exact

The ranges of a plan hold exactly the keys whose values answer the where clauses, in scan order and
without overlap. The exceptions are the queries on which an assertion fires: a substring clause, and
an inequality behind an equality with no values.
-/

set_option autoImplicit false

namespace Db8.Db

open Db8.Bytes
open Db8.Core

namespace MojDbQueryPlan

open WhereClause

section Loop

theorem pushClauses_bound (locale : MojDbLocale) {clauses : WhereMap}
    (bound : List (MojString × WhereClause)) {rest : List MojString}
    (found : ∀ entry ∈ bound, clauses.find entry.1 = some entry.2)
    (next : ∀ propName, rest.head? = some propName → clauses.find propName = none)
    (passed : Nat) (size : passed + bound.length = clauses.size) (builders : Builders) :
    pushClauses locale clauses passed (bound.map Prod.fst ++ rest) builders =
      .ok (bound.foldl (fun builders entry => pushClause locale builders entry.2) builders) := by
  induction bound generalizing passed builders with
  | nil =>
    cases rest with
    | nil => rfl
    | cons propName rest =>
      have missing := next propName rfl
      rw [List.length_nil, Nat.add_zero] at size
      simp [pushClauses, missing, size, mojAssert, bind, Except.bind]
  | cons entry bound ih =>
    have here := found entry List.mem_cons_self
    rw [List.map_cons, List.cons_append, pushClauses, here]
    exact ih (fun other member => found other (List.mem_cons_of_mem _ member)) (passed + 1)
      (by rw [List.length_cons] at size; omega) _

def clauseVals (locale : MojDbLocale) (clause : WhereClause) : KeySet :=
  pushVal clause.lowerVal (locale.collatorOf clause.collation)

theorem accepted_eq_openAbove {clause : WhereClause} (accepted : clause.Accepted)
    (pointwise : Pointwise clause) : clause.upperOp = .none := by
  by_contra upperOp
  rcases accepted.pairs upperOp with same | same | same <;>
    rcases pointwise with lowerOp | lowerOp | lowerOp <;> simp [same] at lowerOp

theorem pushClause_eq (locale : MojDbLocale) {clause : WhereClause} (accepted : clause.Accepted)
    (lowerOp : clause.lowerOp = .eq) (stack : List KeySet) (last : Option WhereClause)
    (groupCount : Nat) :
    pushClause locale ⟨stack, stack, SortedSet.empty, last, groupCount⟩ clause =
      ⟨stack ++ [clauseVals locale clause], stack ++ [clauseVals locale clause], SortedSet.empty,
        some clause, groupCount⟩ := by
  have openAbove := accepted_eq_openAbove accepted (Or.inl lowerOp)
  simp [pushClause, lowerOp, openAbove, clauseVals]

theorem foldl_equalities (locale : MojDbLocale) (eqs : List (MojString × WhereClause))
    (accepted : ∀ entry ∈ eqs, entry.2.Accepted)
    (equalities : ∀ entry ∈ eqs, entry.2.lowerOp = .eq) (stack : List KeySet)
    (last : Option WhereClause) (groupCount : Nat) :
    ∃ last', eqs.foldl (fun builders entry => pushClause locale builders entry.2)
        ⟨stack, stack, SortedSet.empty, last, groupCount⟩ =
      ⟨stack ++ eqs.map fun entry => clauseVals locale entry.2,
        stack ++ eqs.map fun entry => clauseVals locale entry.2, SortedSet.empty, last',
        groupCount⟩ := by
  induction eqs generalizing stack last with
  | nil => exact ⟨last, by simp⟩
  | cons entry eqs ih =>
    rw [List.foldl_cons, pushClause_eq locale (accepted entry List.mem_cons_self)
      (equalities entry List.mem_cons_self)]
    obtain ⟨last', rest⟩ := ih (fun other member => accepted other (List.mem_cons_of_mem _ member))
      (fun other member => equalities other (List.mem_cons_of_mem _ member))
      (stack ++ [clauseVals locale entry.2]) (some entry.2)
    exact ⟨last', by rw [rest]; simp⟩

end Loop

section Answered

/-- How an answerable query lies over the properties of an index: its clauses cover the first of
them, all but the last clause are equalities, and the order is found there or right behind. -/
structure Answered (index : MojDbIndex) (query : MojDbQuery)
    (bound : List (MojString × WhereClause)) (rest : List MojString) : Prop where
  names : index.names = bound.map Prod.fst ++ rest
  found : ∀ entry ∈ bound, query.whereClauses.find entry.1 = some entry.2
  size : bound.length = query.whereClauses.size
  equalities : ∀ entry ∈ bound.dropLast, entry.2.lowerOp = .eq
  order : query.order = [] ∨ query.order ∈ bound.map Prod.fst ∨ rest.head? = some query.order

variable {index : MojDbIndex} {query : MojDbQuery} {bound : List (MojString × WhereClause)}
  {rest : List MojString}

theorem Answered.bound_nodup (answered : Answered index query bound rest) :
    (bound.map Prod.fst).Nodup := by
  have names := index.distinctNames
  rw [← MojDbIndex.names, answered.names] at names
  exact (List.nodup_append.mp names).1

theorem Answered.mem_bound_iff (answered : Answered index query bound rest)
    (entry : MojString × WhereClause) : entry ∈ bound ↔ entry ∈ query.whereClauses.entries := by
  have subset : bound ⊆ query.whereClauses.entries := fun other member =>
    WhereMap.find_mem (answered.found other member)
  have nodup : bound.Nodup := List.Nodup.of_map _ answered.bound_nodup
  have perm : bound.Perm query.whereClauses.entries :=
    (List.subperm_of_subset nodup subset).perm_of_length_le answered.size.ge
  exact perm.mem_iff

theorem Answered.accepted (answered : Answered index query bound rest) :
    ∀ entry ∈ bound, entry.2.Accepted := fun entry member =>
  query.whereClauses.accepted entry ((answered.mem_bound_iff entry).mp member)

theorem Answered.next_missing (answered : Answered index query bound rest) :
    ∀ propName, rest.head? = some propName → query.whereClauses.find propName = none := by
  intro propName head
  rw [WhereMap.find_eq_none_iff]
  intro member
  obtain ⟨entry, entryIn, rfl⟩ := List.mem_map.mp member
  have inBound : entry.1 ∈ bound.map Prod.fst :=
    List.mem_map.mpr ⟨entry, (answered.mem_bound_iff entry).mpr entryIn, rfl⟩
  have names := index.distinctNames
  rw [← MojDbIndex.names, answered.names] at names
  exact (List.nodup_append.mp names).2.2 entry.1 inBound entry.1 (List.mem_of_head? head) rfl

theorem canAnswerFrom_bound {props : List MojDbExtractor} {numQueryProps : Nat}
    (positive : 0 < numQueryProps)
    (answers : MojDbIndex.canAnswerFrom query numQueryProps props = true) :
    ∃ (bound : List (MojString × WhereClause)) (rest : List MojString),
      props.map MojDbExtractor.name = bound.map Prod.fst ++ rest ∧
      (∀ entry ∈ bound, query.whereClauses.find entry.1 = some entry.2) ∧
      bound.length = numQueryProps ∧ (∀ entry ∈ bound.dropLast, entry.2.lowerOp = .eq) ∧
      (query.order = [] ∨ query.whereClauses.contains query.order = true ∨
        rest.head? = some query.order) := by
  induction props generalizing numQueryProps with
  | nil => simp [MojDbIndex.canAnswerFrom] at answers
  | cons prop props ih =>
    rw [MojDbIndex.canAnswerFrom] at answers
    cases found : query.whereClauses.find prop.name with
    | none => simp [found] at answers
    | some clause =>
      simp only [found] at answers
      split_ifs at answers with gap mismatch done
      · refine ⟨[(prop.name, clause)], props.map MojDbExtractor.name, rfl, ?_, ?_, by simp, ?_⟩
        · intro entry member
          rw [List.mem_singleton.mp member]
          exact found
        · rw [List.length_singleton]
          omega
        · simpa [or_assoc] using answers
      · obtain ⟨bound, rest, names, founds, length, equalities, order⟩ :=
          ih (by omega) answers
        refine ⟨(prop.name, clause) :: bound, rest, by simp [names], ?_, ?_, ?_, order⟩
        · intro entry member
          rcases List.mem_cons.mp member with rfl | member
          · exact found
          · exact founds entry member
        · rw [List.length_cons]
          omega
        · intro entry member
          cases bound with
          | nil => simp at member
          | cons next bound =>
            rw [List.dropLast_cons_cons] at member
            rcases List.mem_cons.mp member with rfl | member
            · by_contra unequal
              exact gap ⟨by omega, unequal⟩
            · exact equalities entry member

/-- The clause a plan adds for an index of deleted objects. -/
def notDeleted : WhereClause := ⟨.eq, .none, some (.bool false), none, .invalid⟩

theorem planQuery_skipped (incDel : index.includeDeleted = true)
    (missing : query.whereClauses.find delKey = none) :
    ∃ accepted, planQuery query index = .ok { query with
      whereClauses := query.whereClauses.insertNew delKey notDeleted missing accepted } := by
  have absent : query.whereClauses.contains delKey = false := by
    simp [WhereMap.contains, missing]
  have admitted : admits .eq (.bool false) := ⟨by simp, by simp⟩
  have created : createClause .eq (.bool false) .invalid = .ok notDeleted := rfl
  refine ⟨createClause_accepted admitted created, ?_⟩
  unfold planQuery
  rw [if_pos (by simp [incDel, absent])]
  unfold MojDbQuery.addWhere WhereMap.addClause
  simp only [reduceCtorEq, if_false, admitted, not_true_eq_false, dite_false]
  split
  · split
    · next created' => rw [created] at created'; cases created'
    · next created' =>
        rw [created] at created'
        obtain rfl := Except.ok.inj created'
        rfl
  · next found => rw [missing] at found; cases found

structure PlannedFrom (query planned : MojDbQuery) : Prop where
  page : planned.page = query.page
  desc : planned.desc = query.desc
  order : planned.order = query.order
  entries : ∀ entry, entry ∈ planned.whereClauses.entries ↔
    entry ∈ query.whereClauses.entries ∨
      entry = (delKey, notDeleted) ∧ entry ∈ planned.whereClauses.entries

theorem contains_iff_find (clauses : WhereMap) (propName : MojString) :
    clauses.contains propName = true ↔ ∃ clause, clauses.find propName = some clause := by
  rw [WhereMap.contains, Option.isSome_iff_exists]

theorem queryProps_sublist (index : MojDbIndex) (query : MojDbQuery) :
    (index.queryProps query).Sublist index.props := by
  unfold MojDbIndex.queryProps
  split_ifs
  · exact List.tail_sublist _
  · exact List.Sublist.refl _

theorem canAnswer_bound (answers : index.canAnswer query = true) :
    ∃ (bound : List (MojString × WhereClause)) (rest : List MojString),
      (index.queryProps query).map MojDbExtractor.name = bound.map Prod.fst ++ rest ∧
      (∀ entry ∈ bound, query.whereClauses.find entry.1 = some entry.2) ∧
      bound.length = query.whereClauses.size ∧
      (∀ entry ∈ bound.dropLast, entry.2.lowerOp = .eq) ∧
      (query.order = [] ∨ query.order ∈ bound.map Prod.fst ∨
        rest.head? = some query.order) := by
  unfold MojDbIndex.canAnswer at answers
  simp only [Bool.not_eq_eq_eq_not, Bool.not_true] at answers
  split_ifs at answers with notReady tooMany noProps noOrder
  · exact ⟨[], _, rfl, by simp, noProps.symm, by simp, Or.inl noOrder⟩
  · exact ⟨[], _, rfl, by simp, noProps.symm, by simp, Or.inr (Or.inr (by simpa using answers))⟩
  · obtain ⟨bound, rest, names, found, size, equalities, order⟩ :=
      canAnswerFrom_bound (Nat.pos_of_ne_zero noProps) answers
    refine ⟨bound, rest, names, found, size, equalities, ?_⟩
    refine order.imp_right (Or.imp_left ?_)
    intro inWhere
    obtain ⟨clause, here⟩ := (contains_iff_find _ _).mp inWhere
    have nodup : (bound.map Prod.fst).Nodup := by
      have sub : (bound.map Prod.fst).Sublist index.names := by
        have front : (bound.map Prod.fst).Sublist
            ((index.queryProps query).map MojDbExtractor.name) :=
          names ▸ List.sublist_append_left _ _
        exact front.trans ((queryProps_sublist index query).map _)
      exact index.distinctNames.sublist sub
    have subset : bound ⊆ query.whereClauses.entries := fun other member =>
      WhereMap.find_mem (found other member)
    have perm := (List.subperm_of_subset (List.Nodup.of_map _ nodup) subset).perm_of_length_le
      size.ge
    exact List.mem_map.mpr ⟨_, perm.mem_iff.mpr (WhereMap.find_mem here), rfl⟩

/-- A query an index can answer is planned over the front of the index's properties. -/
theorem canAnswer_answered (answers : index.canAnswer query = true) :
    ∃ planned bound rest, planQuery query index = .ok planned ∧
      Answered index planned bound rest ∧ PlannedFrom query planned := by
  obtain ⟨bound, rest, names, found, size, equalities, order⟩ := canAnswer_bound answers
  by_cases skip : index.includeDeleted = true ∧ query.whereClauses.find delKey = none
  · obtain ⟨incDel, missing⟩ := skip
    obtain ⟨accepted, planned⟩ := planQuery_skipped incDel missing
    have findInserted := WhereMap.find_insertNew query.whereClauses delKey
    refine ⟨_, (delKey, notDeleted) :: bound, rest, planned, ?_, ?_⟩
    · have notBound : ∀ entry ∈ bound, delKey ≠ entry.1 := by
        intro entry member same
        have here := found entry member
        rw [← same, missing] at here
        cases here
      constructor
      · have front := index.delFront incDel
        have skipped : index.queryProps query = index.props.tail := by
          simp [MojDbIndex.queryProps, incDel, WhereMap.contains, missing]
        rw [skipped] at names
        unfold MojDbIndex.names propNames at *
        cases props : index.props with
        | nil => simp [props] at front
        | cons prop props' =>
          rw [props] at names front
          simp only [List.map_cons, List.head?_cons, Option.some.injEq] at front
          simp only [List.tail_cons] at names
          simp [front, names]
      · intro entry member
        rw [findInserted]
        rcases List.mem_cons.mp member with rfl | member
        · simp
        · rw [if_neg (notBound entry member)]
          exact found entry member
      · simp [WhereMap.insertNew, WhereMap.size] at size ⊢
        exact size
      · intro entry member
        cases bound with
        | nil => simp at member
        | cons next bound =>
          rw [List.dropLast_cons_cons] at member
          rcases List.mem_cons.mp member with rfl | member
          · rfl
          · exact equalities entry member
      · refine order.imp_right (Or.imp_left ?_)
        intro inBound
        exact List.mem_cons_of_mem _ inBound
    · refine ⟨rfl, rfl, rfl, ?_⟩
      intro entry
      simp only [WhereMap.insertNew, List.mem_append, List.mem_singleton]
      constructor
      · rintro (old | new)
        · exact Or.inl old
        · exact Or.inr ⟨new, Or.inr new⟩
      · rintro (old | ⟨new, _⟩)
        · exact Or.inl old
        · exact Or.inr new
  · have unskipped : planQuery query index = .ok query := by
      unfold planQuery
      rw [if_neg]
      intro both
      refine skip ⟨both.1, ?_⟩
      by_contra present
      obtain ⟨clause, here⟩ := Option.ne_none_iff_exists'.mp present
      exact both.2 ((contains_iff_find _ _).mpr ⟨clause, here⟩)
    have whole : index.queryProps query = index.props := by
      unfold MojDbIndex.queryProps
      rw [if_neg]
      intro both
      refine skip ⟨both.1, ?_⟩
      by_contra present
      obtain ⟨clause, here⟩ := Option.ne_none_iff_exists'.mp present
      exact both.2 ((contains_iff_find _ _).mpr ⟨clause, here⟩)
    rw [whole] at names
    exact ⟨query, bound, rest, unskipped, ⟨names, found, size, equalities, order⟩,
      rfl, rfl, rfl, by simp⟩

end Answered

section Satisfaction

variable {index : MojDbIndex} {query : MojDbQuery} {bound : List (MojString × WhereClause)}
  {rest : List MojString}

theorem zip_lookup_iff (holds : WhereClause → MojDbKey → Prop)
    (bound : List (MojString × WhereClause)) (rest : List MojString) (parts : List MojDbKey)
    (nodup : (bound.map Prod.fst ++ rest).Nodup)
    (length : (bound.map Prod.fst ++ rest).length = parts.length) :
    (∀ entry ∈ bound, ∃ part,
      ((((bound.map Prod.fst ++ rest).zip parts).find? fun pair =>
        decide (pair.1 = entry.1)).map Prod.snd) = some part ∧ holds entry.2 part) ↔
      List.Forall₂ (fun entry part => holds entry.2 part) bound (parts.take bound.length) := by
  induction bound generalizing parts with
  | nil => simp
  | cons entry bound ih =>
    cases parts with
    | nil => simp at length
    | cons part parts =>
      simp only [List.map_cons, List.cons_append, List.nodup_cons] at nodup
      obtain ⟨fresh, tailNodup⟩ := nodup
      have tail := ih parts tailNodup (by simpa using length)
      have skip : ∀ other ∈ bound, entry.1 ≠ other.1 := by
        intro other member same
        exact fresh (List.mem_append_left _ (same ▸ List.mem_map.mpr ⟨other, member, rfl⟩))
      rw [List.length_cons, List.take_succ_cons, List.forall₂_cons, ← tail]
      simp only [List.mem_cons, forall_eq_or_imp, List.map_cons, List.cons_append,
        List.zip_cons_cons, List.find?_cons, decide_true, Option.map_some,
        Option.some.injEq, exists_eq_left']
      refine and_congr_right fun _ => forall₂_congr fun other member => ?_
      simp only [skip other member, decide_false]

theorem Answered.satisfies_iff (answered : Answered index query bound rest)
    {parts : List MojDbKey} (length : parts.length = index.props.length) :
    index.Satisfies query parts ↔
      List.Forall₂ (fun entry part => entry.2.Holds index.locale part) bound
        (parts.take bound.length) := by
  have nodup := index.distinctNames
  rw [← MojDbIndex.names, answered.names] at nodup
  have lengths : (bound.map Prod.fst ++ rest).length = parts.length := by
    rw [← answered.names, MojDbIndex.names, propNames, List.length_map, length]
  rw [← zip_lookup_iff (fun clause part => clause.Holds index.locale part) bound rest parts
    nodup lengths]
  unfold MojDbIndex.Satisfies MojDbIndex.partOf
  rw [answered.names]
  exact forall_congr' fun entry => by rw [answered.mem_bound_iff]

theorem holds_eq_iff (locale : MojDbLocale) {clause : WhereClause} (accepted : clause.Accepted)
    (lowerOp : clause.lowerOp = .eq) (part : MojDbKey) :
    clause.Holds locale part ↔ part ∈ clauseVals locale clause := by
  have openAbove := accepted_eq_openAbove accepted (Or.inl lowerOp)
  have valued : clause.lowerVal ≠ none := by
    rw [Ne, ← accepted.lowerVal_iff, lowerOp]
    simp
  obtain ⟨val, known⟩ := Option.ne_none_iff_exists'.mp valued
  simp only [Holds, LowerHolds, UpperHolds, lowerOp, openAbove, and_true, clauseVals, known,
    mem_pushVal]

theorem forall_holds_iff (locale : MojDbLocale) (eqs : List (MojString × WhereClause))
    (accepted : ∀ entry ∈ eqs, entry.2.Accepted)
    (equalities : ∀ entry ∈ eqs, entry.2.lowerOp = .eq) (parts : List MojDbKey) :
    List.Forall₂ (fun entry part => entry.2.Holds locale part) eqs parts ↔
      List.Forall₂ (fun part vals => part ∈ vals) parts
        (eqs.map fun entry => clauseVals locale entry.2) := by
  induction eqs generalizing parts with
  | nil => cases parts <;> simp
  | cons entry eqs ih =>
    cases parts with
    | nil => simp
    | cons part parts =>
      rw [List.forall₂_cons, List.map_cons, List.forall₂_cons,
        holds_eq_iff locale (accepted entry List.mem_cons_self)
          (equalities entry List.mem_cons_self),
        ih (fun other member => accepted other (List.mem_cons_of_mem _ member))
          (fun other member => equalities other (List.mem_cons_of_mem _ member))]

/-- The value sets in front of the last clause: the index's id and the equalities. -/
def frontSets (index : MojDbIndex) (eqs : List (MojString × WhereClause)) : List KeySet :=
  index.idSet :: eqs.map fun entry => clauseVals index.locale entry.2

/-- The prefixes in front of the last clause are the values the equalities let through. -/
theorem mem_keys_front (index : MojDbIndex) {eqs : List (MojString × WhereClause)}
    (accepted : ∀ entry ∈ eqs, entry.2.Accepted)
    (equalities : ∀ entry ∈ eqs, entry.2.lowerOp = .eq) {parts : List MojDbKey}
    (length : parts.length = eqs.length)
    (codes : ∀ part ∈ parts, part ∈ MojObjectWriter.codes) :
    MojDbKey.assign index.id none ++ parts.flatten ∈
        MojDbKeyBuilder.keys (frontSets index eqs) ↔
      List.Forall₂ (fun entry part => entry.2.Holds index.locale part) eqs parts := by
  rw [forall_holds_iff index.locale eqs accepted equalities, frontSets,
    MojDbKeyBuilder.mem_keys_iff, MojDbKeyBuilder.mem_product_cons]
  constructor
  · rintro ⟨val, valIn, tail, tailIn, same⟩
    obtain rfl := (SortedSet.mem_single _ _).mp valIn
    obtain ⟨others, members, rfl⟩ := (MojDbKeyBuilder.mem_product_iff _ _).mp tailIn
    have othersIn : ∀ part ∈ others, part ∈ MojObjectWriter.codes := by
      intro part partIn
      obtain ⟨place, within, rfl⟩ := List.getElem_of_mem partIn
      have here := members.get within (members.length_eq ▸ within)
      simp only [List.get_eq_getElem, List.getElem_map] at here
      exact pushVal_codes _ _ _ here
    have lengths : parts.length = others.length := by
      rw [members.length_eq, List.length_map, length]
    have equal := MojObjectWriter.codes_prefixFree.flatten_inj codes othersIn lengths
      (List.append_cancel_left same)
    rw [equal]
    exact members
  · intro members
    exact ⟨_, (SortedSet.mem_single _ _).mpr rfl, parts.flatten,
      (MojDbKeyBuilder.mem_product_iff _ _).mpr ⟨parts, members, rfl⟩, rfl⟩

end Satisfaction

section Ranges

/-- The ranges as `rangesFromKeys` makes them, before `addRange` moves them to a page. -/
def rawBounds (clauses : WhereMap) (index : MojDbIndex) : Except MojErr (List MojDbKeyRange) := do
  let builders ← pushClauses index.locale clauses 0 index.names
    ⟨[index.idSet], [index.idSet], SortedSet.empty, none, 0⟩
  let lowerKeys := MojDbKeyBuilder.keys builders.lowerBuilder
  let prefixKeys := if builders.prefixKeys.elems = [] then lowerKeys else builders.prefixKeys
  boundsFromKeySets builders.groupCount builders.lastClause 0 lowerKeys.elems
    (MojDbKeyBuilder.keys builders.upperBuilder).elems prefixKeys.elems

/-- The ranges of a planned query: in order, without overlap, and over the keys whose values answer
the where clauses and which lie on the page. -/
structure PlanSpec (index : MojDbIndex) (planned : MojDbQuery) (ranges : List MojDbKeyRange) :
    Prop where
  ordered : ranges.Pairwise MojDbKeyRange.Precedes
  bounded : ∀ range ∈ ranges, range.upperKey ≠ []
  exact : ∀ parts key, index.Spells parts key →
    ((∃ range ∈ ranges, range.contains key) ↔
      index.Satisfies planned parts ∧ OnPage planned.page planned.desc key)
  clipped : ∃ raw, rawBounds planned.whereClauses index = .ok raw ∧
    ∀ key, (∃ range ∈ ranges, range.contains key) ↔
      (∃ range ∈ raw, range.contains key) ∧ OnPage planned.page planned.desc key

/-- No assertion of the plan fires: there is no substring clause, and in front of an inequality
every clause has a value. -/
def Plannable (clauses : WhereMap) : Prop :=
  (∀ entry ∈ clauses.entries, entry.2.lowerOp ≠ .subString) ∧
    ((∃ entry ∈ clauses.entries, entry.2.Inequality) →
      ∀ entry ∈ clauses.entries, entry.2.lowerVal ≠ some (.array []))

theorem rangesFromKeySets_ok (query : MojDbQuery) {lowerKeys upperKeys prefixKeys : KeySet}
    {groupCount : Nat} {clause : Option WhereClause} {raw : List MojDbKeyRange}
    (lowers : lowerKeys.elems.length = upperKeys.elems.length)
    (prefixes : lowerKeys.elems.length = prefixKeys.elems.length)
    (computed : boundsFromKeySets groupCount clause 0 lowerKeys.elems upperKeys.elems
      prefixKeys.elems = .ok raw) :
    rangesFromKeySets query lowerKeys upperKeys prefixKeys groupCount clause =
      .ok (raw.foldl (addRange query) []) := by
  have sizes : (lowerKeys.elems.length == upperKeys.elems.length &&
      lowerKeys.elems.length == prefixKeys.elems.length) = true := by
    simp [← lowers, ← prefixes]
  simp [rangesFromKeySets, sizes, mojAssert, computed, bind, Except.bind]

variable {index : MojDbIndex} {query : MojDbQuery} {bound eqs : List (MojString × WhereClause)}
  {rest : List MojString} {last : MojString × WhereClause}

/-- Raw ranges that select what the clauses ask become ranges with the plan's property. -/
theorem planSpec_of_raw (answered : Answered index query (eqs ++ [last]) rest)
    {raw : List MojDbKeyRange} (computed : rawBounds query.whereClauses index = .ok raw)
    (rawExact : RawExact (eqs.length + 1) raw fun front code =>
      front ∈ MojDbKeyBuilder.keys (frontSets index eqs) ∧
        last.2.Holds index.locale code) :
    PlanSpec index query (raw.foldl (addRange query) []) := by
  obtain ⟨ordered, bounded, union⟩ := addRanges_spec query rawExact.bounded rawExact.staged
  refine ⟨ordered, bounded, ?_, raw, computed, union⟩
  intro parts key spells
  rw [union, answered.satisfies_iff spells.length]
  refine and_congr_left fun _ => ?_
  have enough : eqs.length < parts.length := by
    have names := congrArg List.length answered.names
    simp only [MojDbIndex.names, propNames, List.length_map, List.length_append,
      List.length_singleton] at names
    rw [spells.length]
    omega
  have taken : parts.take (eqs ++ [last]).length =
      parts.take eqs.length ++ [parts[eqs.length]] := by
    rw [List.length_append, List.length_singleton, List.take_succ_eq_append_getElem enough]
  have frontLength : (parts.take eqs.length).length = eqs.length :=
    List.length_take_of_le enough.le
  have frontCodes : ∀ part ∈ parts.take eqs.length, part ∈ MojObjectWriter.codes :=
    fun part member => spells.codes part (List.mem_of_mem_take member)
  have code := spells.codes _ (List.getElem_mem enough)
  have eqsAccepted : ∀ entry ∈ eqs, entry.2.Accepted := fun entry member =>
    answered.accepted entry (List.mem_append_left _ member)
  have eqsEq : ∀ entry ∈ eqs, entry.2.lowerOp = .eq := fun entry member =>
    answered.equalities entry (by simpa using member)
  obtain ⟨word, keyEq⟩ := spells.split enough
  rw [keyEq, rawExact.exact _ word _ code, taken,
    mem_keys_front index eqsAccepted eqsEq frontLength frontCodes]
  constructor
  · rintro ⟨fronts, holds⟩
    exact List.rel_append fronts (List.Forall₂.cons holds List.Forall₂.nil)
  · intro both
    have fronts := List.forall₂_take_append _ _ _ both
    have backs := List.forall₂_drop_append _ _ _ both
    rw [frontLength, List.take_left] at fronts
    rw [frontLength, List.drop_left] at backs
    exact ⟨fronts, (List.forall₂_cons.mp backs).1⟩

variable {clause : WhereClause}

theorem pushClause_pointwise (locale : MojDbLocale) (accepted : clause.Accepted)
    (pointwise : Pointwise clause) (stack : List KeySet) (before : Option WhereClause) :
    ∃ vals groupCount, pushClause locale ⟨stack, stack, SortedSet.empty, before, 0⟩ clause =
        ⟨stack ++ [vals], stack ++ [vals], SortedSet.empty, some clause, groupCount⟩ ∧
      (∀ code ∈ vals, code ∈ MojObjectWriter.codes) ∧
      ∀ code ∈ MojObjectWriter.codes,
        (∃ bound ∈ vals, clauseStem clause bound <+: code) ↔ clause.Holds locale code := by
  have openAbove := accepted_eq_openAbove accepted pointwise
  have valued : clause.lowerVal ≠ none := by
    rw [Ne, ← accepted.lowerVal_iff]
    rcases pointwise with lowerOp | lowerOp | lowerOp <;> simp [lowerOp]
  obtain ⟨val, known⟩ := Option.ne_none_iff_exists'.mp valued
  rcases pointwise with lowerOp | lowerOp | lowerOp
  · refine ⟨clauseVals locale clause, 0, pushClause_eq locale accepted lowerOp _ _ _,
      pushVal_codes _ _, ?_⟩
    intro code codeIn
    rw [holds_eq_iff locale accepted lowerOp]
    constructor
    · rintro ⟨bound, boundIn, starts⟩
      rw [clauseStem, if_pos lowerOp] at starts
      rw [← MojObjectWriter.codes_prefixFree bound (pushVal_codes _ _ bound boundIn) code codeIn
        starts]
      exact boundIn
    · intro member
      have stem : clauseStem clause code = code := by
        rw [clauseStem, if_pos lowerOp]
      have starts : clauseStem clause code <+: code := by
        simp only [stem, List.prefix_refl]
      exact ⟨code, member, starts⟩
  · refine ⟨clauseVals locale clause, 0, ?_, pushVal_codes _ _, ?_⟩
    · simp [pushClause, lowerOp, openAbove, clauseVals]
    · intro code _
      simp only [clauseVals, known, mem_pushVal, clauseStem, lowerOp, reduceCtorEq, if_false, Holds,
        LowerHolds, UpperHolds, openAbove, and_true, Starts]
  · refine ⟨pushSearch locale clause.lowerVal (locale.collatorOf clause.collation),
      (pushSearch locale clause.lowerVal (locale.collatorOf clause.collation)).elems.length, ?_,
      pushSearch_codes _ _ _, ?_⟩
    · simp only [pushClause, lowerOp, if_true]
    · intro code _
      simp only [clauseStem, lowerOp, reduceCtorEq, if_false, Holds, LowerHolds, UpperHolds,
        openAbove, and_true, Starts, Searches]

/-- The prefix keys in front of an inequality; a single empty one when there are none. -/
def frontKeys (stack : List KeySet) : KeySet :=
  let keys := MojDbKeyBuilder.keys stack
  if keys.elems = [] then keys.put [] else keys

theorem frontKeys_ne_nil (stack : List KeySet) : (frontKeys stack).elems ≠ [] := by
  unfold frontKeys
  dsimp only
  split_ifs with empty
  · exact List.ne_nil_of_mem ((SortedSet.mem_put _ _ _).mpr (Or.inl rfl))
  · exact empty

theorem pushClause_front (locale : MojDbLocale) (inequality : clause.Inequality)
    (stack : List KeySet) (before : Option WhereClause) :
    pushClause locale ⟨stack, stack, SortedSet.empty, before, 0⟩ clause =
      ⟨stack ++ [clauseVals locale clause],
        stack ++ [pushVal (if clause.upperOp = .none then clause.lowerVal else clause.upperVal)
          (locale.collatorOf clause.collation)],
        frontKeys stack, some clause, 0⟩ := by
  obtain ⟨notEq, notPrefix, notSearch⟩ := inequality
  simp [pushClause, notEq, notPrefix, notSearch, clauseVals, frontKeys]

theorem inequality_vals (locale : MojDbLocale) (accepted : clause.Accepted)
    (inequality : clause.Inequality) (noSubString : clause.lowerOp ≠ .subString) :
    ∃ lower upper, clauseVals locale clause = SortedSet.single lower ∧
      pushVal (if clause.upperOp = .none then clause.lowerVal else clause.upperVal)
        (locale.collatorOf clause.collation) = SortedSet.single upper ∧
      lower ∈ MojObjectWriter.codes ∧ upper ∈ MojObjectWriter.codes ∧
      (clause.lowerOp = .none → lower = MojDbKey.assign .null none) ∧
      (clause.lowerOp ≠ .none →
        ∀ code, Encodes locale clause.collation clause.lowerVal code ↔ code = lower) ∧
      (clause.upperOp ≠ .none →
        ∀ code, Encodes locale clause.collation clause.upperVal code ↔ code = upper) := by
  have scalar : isArray clause.lowerVal = false := by
    rw [← Bool.not_eq_true]
    intro array
    rcases accepted.lowerArray array with same | same | same
    · exact inequality.1 same
    · exact inequality.2.1 same
    · exact noSubString same
  have single : ∀ val, isArray val = false → ∃ code, pushVal val
      (locale.collatorOf clause.collation) = SortedSet.single code ∧
      code ∈ MojObjectWriter.codes ∧ (val = none → code = MojDbKey.assign .null none) ∧
      (val ≠ none → ∀ other, Encodes locale clause.collation val other ↔ other = code) := by
    intro val scalar
    cases val with
    | none => exact ⟨_, rfl, MojDbKey.assign_mem_codes _ _, fun _ => rfl, fun some => absurd rfl some⟩
    | some val =>
      exact ⟨_, pushVal_scalar scalar _, MojDbKey.assign_mem_codes _ _, by simp,
        fun _ => encodes_scalar scalar⟩
  obtain ⟨lower, lowerVals, lowerIn, lowerNone, lowerCode⟩ := single clause.lowerVal scalar
  have lowers : (clause.lowerOp = .none → lower = MojDbKey.assign .null none) ∧
      (clause.lowerOp ≠ .none →
        ∀ code, Encodes locale clause.collation clause.lowerVal code ↔ code = lower) :=
    ⟨fun missing => lowerNone (accepted.lowerVal_iff.mp missing),
      fun present => lowerCode (fun missing => present (accepted.lowerVal_iff.mpr missing))⟩
  by_cases openAbove : clause.upperOp = .none
  · refine ⟨lower, lower, lowerVals, ?_, lowerIn, lowerIn, lowers.1, lowers.2,
      fun upperOp => absurd openAbove upperOp⟩
    rw [if_pos openAbove]
    exact lowerVals
  · obtain ⟨upper, upperVals, upperIn, _, upperCode⟩ :=
      single clause.upperVal accepted.upperArray
    refine ⟨lower, upper, lowerVals, ?_, lowerIn, upperIn, lowers.1, lowers.2, fun _ =>
      upperCode (fun missing => openAbove (accepted.upperVal_iff.mpr missing))⟩
    rw [if_neg openAbove]
    exact upperVals

theorem pushClauses_eq (answered : Answered index query (eqs ++ [last]) rest) :
    ∃ before, pushClauses index.locale query.whereClauses 0 index.names
        ⟨[index.idSet], [index.idSet], SortedSet.empty, none, 0⟩ =
      .ok (pushClause index.locale
        ⟨frontSets index eqs, frontSets index eqs, SortedSet.empty, before, 0⟩ last.2) := by
  have accepted : ∀ entry ∈ eqs, entry.2.Accepted := fun entry member =>
    answered.accepted entry (List.mem_append_left _ member)
  have equalities : ∀ entry ∈ eqs, entry.2.lowerOp = .eq := fun entry member =>
    answered.equalities entry (by simpa using member)
  obtain ⟨before, folded⟩ :=
    foldl_equalities index.locale eqs accepted equalities [index.idSet] none 0
  refine ⟨before, ?_⟩
  have pushed := pushClauses_bound index.locale (eqs ++ [last]) answered.found
    answered.next_missing 0 (by rw [Nat.zero_add]; exact answered.size)
    ⟨[index.idSet], [index.idSet], SortedSet.empty, none, 0⟩
  rw [← answered.names, List.foldl_append, folded] at pushed
  simpa only [List.foldl_cons, List.foldl_nil, List.singleton_append, frontSets] using pushed

theorem buildRanges_eq (answered : Answered index query (eqs ++ [last]) rest) :
    ∃ before, buildRanges query index = rangesFromBuilders query
      (pushClause index.locale
        ⟨frontSets index eqs, frontSets index eqs, SortedSet.empty, before, 0⟩ last.2) := by
  obtain ⟨before, pushed⟩ := pushClauses_eq answered
  exact ⟨before, by simp only [buildRanges, pushed, bind, Except.bind]⟩

theorem codeSets_front (index : MojDbIndex) (eqs : List (MojString × WhereClause)) :
    CodeSets (frontSets index eqs) := by
  intro vals member
  rcases List.mem_cons.mp member with rfl | member
  · intro code codeIn
    rw [(SortedSet.mem_single _ _).mp codeIn]
    exact MojDbKey.assign_mem_codes _ _
  · obtain ⟨entry, _, rfl⟩ := List.mem_map.mp member
    exact pushVal_codes _ _

theorem buildRanges_pointwise (answered : Answered index query (eqs ++ [last]) rest)
    (pointwise : Pointwise last.2) :
    ∃ plan, buildRanges query index = .ok plan ∧ plan.query = query ∧
      PlanSpec index query plan.ranges := by
  have accepted := answered.accepted last (List.mem_append_right _ (List.mem_singleton.mpr rfl))
  obtain ⟨before, reached⟩ := pushClauses_eq answered
  obtain ⟨vals, groupCount, pushed, valCodes, holds⟩ :=
    pushClause_pointwise index.locale accepted pointwise (frontSets index eqs) before
  have started : frontSets index eqs ≠ [] := List.cons_ne_nil _ _
  obtain ⟨raw, computed, rawExact⟩ := pointwise_raw started (codeSets_front index eqs) valCodes pointwise (accepted_eq_openAbove accepted pointwise)
    groupCount
  have ranges := rangesFromKeySets_ok query rfl rfl computed
  refine ⟨⟨query, raw.foldl (addRange query) [], groupCount, 0⟩, ?_, rfl, ?_⟩
  · rw [pushed] at reached
    simp only [buildRanges, reached, rangesFromBuilders, SortedSet.elems_empty, if_true, ranges,
      bind, Except.bind]
  · rw [pushed] at reached
    have bounds : rawBounds query.whereClauses index = .ok raw := by
      simp only [rawBounds, reached, SortedSet.elems_empty, if_true, computed, bind, Except.bind]
    refine planSpec_of_raw answered bounds ⟨rawExact.staged, rawExact.bounded, ?_⟩
    intro front frontIn code codeIn tail
    have exact := rawExact.exact front (by simpa [frontSets] using frontIn) code codeIn tail
    rw [exact, holds code codeIn]

theorem keys_ne_nil {stack : List KeySet} (started : stack ≠ [])
    (inhabited : ∀ vals ∈ stack, vals.elems ≠ []) : (MojDbKeyBuilder.keys stack).elems ≠ [] := by
  have product : ∀ stack : List KeySet, (∀ vals ∈ stack, vals.elems ≠ []) →
      ∃ key, key ∈ MojDbKeyBuilder.product stack := by
    intro stack
    induction stack with
    | nil => exact fun _ => ⟨[], (MojDbKeyBuilder.mem_product_nil _).mpr rfl⟩
    | cons vals stack ih =>
      intro inhabited
      obtain ⟨tail, tailIn⟩ := ih fun other member => inhabited other (List.mem_cons_of_mem _ member)
      obtain ⟨val, valIn⟩ := List.exists_mem_of_ne_nil _ (inhabited vals List.mem_cons_self)
      exact ⟨val ++ tail,
        (MojDbKeyBuilder.mem_product_cons _ _ _).mpr ⟨val, valIn, tail, tailIn, rfl⟩⟩
  cases stack with
  | nil => exact absurd rfl started
  | cons vals stack =>
    obtain ⟨key, member⟩ := product _ inhabited
    exact List.ne_nil_of_mem ((MojDbKeyBuilder.mem_keys_iff _ _ _).mpr member)

theorem pushVal_empty_iff (val : MojObject) (coll : Option MojDbTextCollator) :
    (pushVal (some val) coll).elems = [] ↔ val = .array [] := by
  constructor
  · intro empty
    have none : MojDbPropExtractor.elements val = [] := by
      by_contra some
      obtain ⟨elem, elemIn⟩ := List.exists_mem_of_ne_nil _ some
      have member : MojDbKey.assign elem coll ∈ pushVal (Option.some val) coll :=
        (SortedSet.mem_ofList _ _).mpr (List.mem_map.mpr ⟨elem, elemIn, rfl⟩)
      rw [SortedSet.mem_def, empty] at member
      exact absurd member List.not_mem_nil
    cases val <;> simp_all [MojDbPropExtractor.elements]
  · rintro rfl
    rfl

theorem buildRanges_inequality (answered : Answered index query (eqs ++ [last]) rest)
    (inequality : last.2.Inequality) (noSubString : last.2.lowerOp ≠ .subString)
    (inhabited : ∀ entry ∈ eqs, entry.2.lowerVal ≠ some (.array [])) :
    ∃ plan, buildRanges query index = .ok plan ∧ plan.query = query ∧
      PlanSpec index query plan.ranges := by
  have accepted := answered.accepted last (List.mem_append_right _ (List.mem_singleton.mpr rfl))
  obtain ⟨before, reached⟩ := pushClauses_eq answered
  obtain ⟨lower, upper, lowerVals, upperVals, lowerIn, upperIn, lowerNone, lowerCode, upperCode⟩ :=
    inequality_vals index.locale accepted inequality noSubString
  have codeSets := codeSets_front index eqs
  have started : frontSets index eqs ≠ [] := List.cons_ne_nil _ _
  obtain ⟨raw, computed, rawExact⟩ := inequality_raw index.locale started codeSets accepted
    inequality noSubString lowerIn upperIn lowerNone lowerCode upperCode 0
  have fronts : (MojDbKeyBuilder.keys (frontSets index eqs)).elems ≠ [] := by
    refine keys_ne_nil started ?_
    intro vals member
    rcases List.mem_cons.mp member with rfl | member
    · simp [MojDbIndex.idSet]
    · obtain ⟨entry, entryIn, rfl⟩ := List.mem_map.mp member
      have entryAccepted := answered.accepted entry (List.mem_append_left _ entryIn)
      have entryEq := answered.equalities entry (by simpa using entryIn)
      have valued : entry.2.lowerVal ≠ none := by
        rw [Ne, ← entryAccepted.lowerVal_iff, entryEq]
        simp
      obtain ⟨val, known⟩ := Option.ne_none_iff_exists'.mp valued
      rw [clauseVals, known, Ne, pushVal_empty_iff]
      rintro rfl
      exact inhabited entry entryIn known
  have pushed := pushClause_front index.locale inequality (frontSets index eqs) before
  rw [lowerVals, upperVals] at pushed
  have kept : frontKeys (frontSets index eqs) = MojDbKeyBuilder.keys (frontSets index eqs) := by
    unfold frontKeys
    exact if_neg fronts
  rw [← keys_concat_single started codeSets, ← keys_concat_single started codeSets] at computed
  have sizes : ∀ val, (MojDbKeyBuilder.keys
      (frontSets index eqs ++ [SortedSet.single val])).elems.length =
      (MojDbKeyBuilder.keys (frontSets index eqs)).elems.length := by
    intro val
    rw [keys_concat_single started codeSets, List.length_map]
  have ranges := rangesFromKeySets_ok query ((sizes lower).trans (sizes upper).symm) (sizes lower)
    computed
  refine ⟨⟨query, raw.foldl (addRange query) [], 0, 0⟩, ?_, rfl, ?_⟩
  · rw [pushed, kept] at reached
    simp only [buildRanges, reached, rangesFromBuilders, fronts, if_false, ranges, bind, Except.bind]
  · rw [pushed, kept] at reached
    have bounds : rawBounds query.whereClauses index = .ok raw := by
      simp only [rawBounds, reached, fronts, if_false, computed, bind, Except.bind]
    refine planSpec_of_raw answered bounds ⟨rawExact.staged, rawExact.bounded, ?_⟩
    intro front frontIn code codeIn tail
    exact rawExact.exact front (by simpa [frontSets] using frontIn) code codeIn tail

theorem buildRanges_nil (answered : Answered index query [] rest) :
    ∃ plan, buildRanges query index = .ok plan ∧ plan.query = query ∧
      PlanSpec index query plan.ranges := by
  have pushed := pushClauses_bound index.locale [] answered.found answered.next_missing 0
    (by rw [Nat.zero_add]; exact answered.size)
    ⟨[index.idSet], [index.idSet], SortedSet.empty, none, 0⟩
  rw [← answered.names] at pushed
  have lowers : (MojDbKeyBuilder.keys [index.idSet]).elems = [MojDbKey.assign index.id none] := by
    refine SortedSet.list_eq_of_mem_iff (SortedSet.sorted _) (List.pairwise_singleton _ _) ?_
    intro key
    rw [← SortedSet.mem_def, MojDbKeyBuilder.mem_keys_iff, MojDbKeyBuilder.mem_product_cons]
    simp [MojDbIndex.idSet, MojDbKeyBuilder.product]
  have idCode : MojDbKey.assign index.id none ∈ MojObjectWriter.codes :=
    MojDbKey.assign_mem_codes _ _
  have bounded := code_successor_ne_nil idCode
  have computed : boundsFromKeySets 0 none 0 (MojDbKeyBuilder.keys [index.idSet]).elems
      (MojDbKeyBuilder.keys [index.idSet]).elems (MojDbKeyBuilder.keys [index.idSet]).elems =
      .ok [⟨MojDbKey.assign index.id none, successor (MojDbKey.assign index.id none), 0⟩] := by
    rw [lowers]
    simp [boundsFromKeySets, boundsFromKeys, upperBound, mojAssert, bind, Except.bind,
      MojDbKey.increment]
  have ranges := rangesFromKeySets_ok query rfl rfl computed
  have rawBounded : ∀ range ∈ [(⟨MojDbKey.assign index.id none,
      successor (MojDbKey.assign index.id none), 0⟩ : MojDbKeyRange)], range.upperKey ≠ [] := by
    simpa using bounded
  obtain ⟨ordered, rangesBounded, union⟩ :=
    addRanges_spec query rawBounded (List.pairwise_singleton _ _)
  refine ⟨_, by simp only [buildRanges, pushed, bind, Except.bind, List.foldl_nil,
    rangesFromBuilders, SortedSet.elems_empty, if_true, ranges]; rfl, rfl, ordered, rangesBounded, ?_,
    _, ?_, union⟩
  swap
  · simp only [rawBounds, pushed, bind, Except.bind, List.foldl_nil, SortedSet.elems_empty, if_true,
      computed]
  intro parts key spells
  rw [union, answered.satisfies_iff spells.length]
  refine and_congr_left fun _ => ?_
  simp only [List.mem_singleton, exists_eq_left, List.length_nil, List.take_zero,
    List.forall₂_nil_left_iff, iff_true]
  rw [MojDbKeyRange.contains_iff, le_and_below_successor_iff, spells.key]
  exact List.prefix_append _ _

theorem rangesFromKeySets_mismatch (query : MojDbQuery) {lowerKeys prefixKeys : KeySet}
    (upperKeys : KeySet)
    (mismatch : lowerKeys.elems.length ≠ prefixKeys.elems.length) (groupCount : Nat)
    (clause : Option WhereClause) :
    ∃ text, rangesFromKeySets query lowerKeys upperKeys prefixKeys groupCount clause =
      .error (.assertFailed text) := by
  have sizes : (lowerKeys.elems.length == upperKeys.elems.length &&
      lowerKeys.elems.length == prefixKeys.elems.length) = false := by
    simp [mismatch]
  exact ⟨_, by simp [rangesFromKeySets, sizes, mojAssert, bind, Except.bind]; rfl⟩

theorem boundsFromKeys_subString (accepted : clause.Accepted)
    (subString : clause.lowerOp = .subString) (lowerKey upperKey prefixKey : MojDbKey)
    (index groupCount : Nat) :
    boundsFromKeys lowerKey upperKey prefixKey index groupCount (some clause) =
      .error (.assertFailed "not reached") := by
  have openAbove : clause.upperOp = .none := by
    by_contra upperOp
    rcases accepted.pairs upperOp with same | same | same <;> simp [same] at subString
  simp [boundsFromKeys, upperBound, subString, openAbove, mojAssert, bind, Except.bind]

theorem buildRanges_subString (answered : Answered index query (eqs ++ [last]) rest)
    (subString : last.2.lowerOp = .subString) :
    ∃ text, buildRanges query index = .error (.assertFailed text) := by
  have accepted := answered.accepted last (List.mem_append_right _ (List.mem_singleton.mpr rfl))
  obtain ⟨before, built⟩ := buildRanges_eq answered
  have inequality : last.2.Inequality := by simp [Inequality, subString]
  have pushed := pushClause_front index.locale inequality (frontSets index eqs) before
  have front := frontKeys_ne_nil (frontSets index eqs)
  rw [built, pushed]
  simp only [rangesFromBuilders, front, if_false]
  generalize MojDbKeyBuilder.keys (frontSets index eqs ++ [clauseVals index.locale last.2]) = lowers
  generalize MojDbKeyBuilder.keys (frontSets index eqs ++ [pushVal
    (if last.2.upperOp = .none then last.2.lowerVal else last.2.upperVal)
    (index.locale.collatorOf last.2.collation)]) = uppers
  by_cases prefixes : lowers.elems.length = (frontKeys (frontSets index eqs)).elems.length
  · by_cases sizes : lowers.elems.length = uppers.elems.length
    · obtain ⟨prefixKey, prefixRest, prefixEq⟩ := List.exists_cons_of_ne_nil front
      cases lowerEq : lowers.elems with
      | nil => simp [lowerEq, prefixEq] at prefixes
      | cons lowerKey lowerRest =>
        cases upperEq : uppers.elems with
        | nil => simp [lowerEq, upperEq] at sizes
        | cons upperKey upperRest =>
          have stuck := boundsFromKeys_subString accepted subString lowerKey upperKey prefixKey
            0 0
          refine ⟨"not reached", ?_⟩
          have counts : (lowers.elems.length == uppers.elems.length &&
              lowers.elems.length == (frontKeys (frontSets index eqs)).elems.length) = true := by
            simp [← sizes, ← prefixes]
          have bounds : boundsFromKeySets 0 (some last.2) 0 lowers.elems uppers.elems
              (frontKeys (frontSets index eqs)).elems = .error (.assertFailed "not reached") := by
            rw [lowerEq, upperEq, prefixEq]
            simp only [boundsFromKeySets, stuck, bind, Except.bind]
          simp only [rangesFromKeySets, counts, mojAssert, if_true, bounds, bind, Except.bind]
    · have counts : (lowers.elems.length == uppers.elems.length &&
          lowers.elems.length == (frontKeys (frontSets index eqs)).elems.length) = false := by
        simp [sizes]
      exact ⟨_, by simp [rangesFromKeySets, counts, mojAssert, bind, Except.bind]; rfl⟩
  · obtain ⟨text, stuck⟩ := rangesFromKeySets_mismatch query uppers prefixes 0
      (some last.2)
    exact ⟨text, by simp [stuck, bind, Except.bind]⟩

theorem buildRanges_empty (answered : Answered index query (eqs ++ [last]) rest)
    (inequality : last.2.Inequality) {entry : MojString × WhereClause} (entryIn : entry ∈ eqs)
    (noVals : entry.2.lowerVal = some (.array [])) :
    ∃ text, buildRanges query index = .error (.assertFailed text) := by
  obtain ⟨before, built⟩ := buildRanges_eq answered
  have pushed := pushClause_front index.locale inequality (frontSets index eqs) before
  have front := frontKeys_ne_nil (frontSets index eqs)
  have started : frontSets index eqs ≠ [] := List.cons_ne_nil _ _
  have noFront : ∀ key, key ∉ MojDbKeyBuilder.keys (frontSets index eqs) := by
    intro key member
    rw [frontSets, MojDbKeyBuilder.mem_keys_iff, MojDbKeyBuilder.mem_product_iff] at member
    obtain ⟨parts, members, _⟩ := member
    have inSets : clauseVals index.locale entry.2 ∈
        index.idSet :: eqs.map fun entry => clauseVals index.locale entry.2 :=
      List.mem_cons_of_mem _ (List.mem_map.mpr ⟨entry, entryIn, rfl⟩)
    obtain ⟨place, within, found⟩ := List.getElem_of_mem inSets
    have here := members.get (members.length_eq ▸ within) within
    simp only [List.get_eq_getElem, found] at here
    rw [clauseVals, noVals] at here
    exact absurd here List.not_mem_nil
  have lowers : (MojDbKeyBuilder.keys
      (frontSets index eqs ++ [clauseVals index.locale last.2])).elems = [] := by
    rw [List.eq_nil_iff_forall_not_mem]
    intro key member
    obtain ⟨frontKey, frontIn, _⟩ := (mem_keys_concat started _ _).mp member
    exact noFront frontKey frontIn
  have mismatch : (MojDbKeyBuilder.keys
      (frontSets index eqs ++ [clauseVals index.locale last.2])).elems.length ≠
      (frontKeys (frontSets index eqs)).elems.length := by
    rw [lowers, List.length_nil]
    exact fun zero => front (List.length_eq_zero_iff.mp zero.symm)
  obtain ⟨text, stuck⟩ := rangesFromKeySets_mismatch query
    (MojDbKeyBuilder.keys (frontSets index eqs ++ [pushVal
      (if last.2.upperOp = .none then last.2.lowerVal else last.2.upperVal)
      (index.locale.collatorOf last.2.collation)])) mismatch 0 (some last.2)
  refine ⟨text, ?_⟩
  rw [built, pushed]
  simp only [rangesFromBuilders, front, if_false, stuck, bind, Except.bind]

theorem buildRanges_spec (answered : Answered index query bound rest) :
    (Plannable query.whereClauses → ∃ plan, buildRanges query index = .ok plan ∧
      plan.query = query ∧ PlanSpec index query plan.ranges) ∧
    (¬ Plannable query.whereClauses →
      ∃ text, buildRanges query index = .error (.assertFailed text)) := by
  rcases List.eq_nil_or_concat bound with rfl | ⟨eqs, last, rfl⟩
  · refine ⟨fun _ => buildRanges_nil answered, ?_⟩
    intro unplannable
    refine absurd ⟨?_, ?_⟩ unplannable
    · intro entry member
      exact absurd ((answered.mem_bound_iff entry).mpr member) List.not_mem_nil
    · rintro _ entry member
      exact absurd ((answered.mem_bound_iff entry).mpr member) List.not_mem_nil
  · rw [List.concat_eq_append] at answered
    have lastIn : last ∈ eqs ++ [last] := List.mem_append_right _ (List.mem_singleton.mpr rfl)
    have equalities : ∀ entry ∈ eqs, entry.2.lowerOp = .eq := fun entry member =>
      answered.equalities entry (by simpa using member)
    have others : ∀ entry ∈ query.whereClauses.entries, entry ∈ eqs ∨ entry = last := by
      intro entry member
      simpa using (answered.mem_bound_iff entry).mpr member
    by_cases subString : last.2.lowerOp = .subString
    · refine ⟨fun plannable => ?_, fun _ => buildRanges_subString answered subString⟩
      exact absurd subString (plannable.1 last ((answered.mem_bound_iff last).mp lastIn))
    · have noSubString : ∀ entry ∈ query.whereClauses.entries, entry.2.lowerOp ≠ .subString := by
        intro entry member
        rcases others entry member with inEqs | rfl
        · simp [equalities entry inEqs]
        · exact subString
      by_cases inequality : last.2.Inequality
      · by_cases inhabited : ∀ entry ∈ eqs, entry.2.lowerVal ≠ some (.array [])
        · refine ⟨fun _ => buildRanges_inequality answered inequality subString inhabited, ?_⟩
          intro unplannable
          refine absurd ⟨noSubString, fun _ entry member => ?_⟩ unplannable
          rcases others entry member with inEqs | rfl
          · exact inhabited entry inEqs
          · intro noVals
            have accepted := answered.accepted entry lastIn
            rcases accepted.lowerArray (by rw [noVals]; rfl) with same | same | same
            · exact inequality.1 same
            · exact inequality.2.1 same
            · exact subString same
        · obtain ⟨entry, entryIn, noVals⟩ : ∃ entry ∈ eqs, entry.2.lowerVal = some (.array []) := by
            simpa using inhabited
          refine ⟨fun plannable => ?_, fun _ => buildRanges_empty answered inequality entryIn noVals⟩
          exact absurd noVals (plannable.2
            ⟨last, (answered.mem_bound_iff last).mp lastIn, inequality⟩ entry
            ((answered.mem_bound_iff entry).mp (List.mem_append_left _ entryIn)))
      · have pointwise : Pointwise last.2 := by
          unfold Pointwise
          simp only [Inequality, not_and_or, not_not] at inequality
          exact inequality
        refine ⟨fun _ => buildRanges_pointwise answered pointwise, fun unplannable => ?_⟩
        refine absurd ⟨noSubString, ?_⟩ unplannable
        rintro ⟨entry, member, unequal⟩
        rcases others entry member with inEqs | rfl
        · exact absurd (equalities entry inEqs) unequal.1
        · exact absurd unequal inequality

theorem PlannedFrom.plannable_iff {planned : MojDbQuery} (from_ : PlannedFrom query planned) :
    Plannable planned.whereClauses ↔ Plannable query.whereClauses := by
  have kept : ∀ property : MojString × WhereClause → Prop, property (delKey, notDeleted) →
      ((∀ entry ∈ planned.whereClauses.entries, property entry) ↔
        ∀ entry ∈ query.whereClauses.entries, property entry) := by
    intro property added
    constructor
    · intro all entry member
      exact all entry ((from_.entries entry).mpr (Or.inl member))
    · intro all entry member
      rcases (from_.entries entry).mp member with old | ⟨rfl, _⟩
      · exact all entry old
      · exact added
  have inequalities : (∃ entry ∈ planned.whereClauses.entries, entry.2.Inequality) ↔
      ∃ entry ∈ query.whereClauses.entries, entry.2.Inequality := by
    have none := kept (fun entry => ¬ entry.2.Inequality)
      (by simp [Inequality, notDeleted])
    rw [← not_iff_not]
    simpa using none
  unfold Plannable
  rw [kept (fun entry => entry.2.lowerOp ≠ .subString) (by simp [notDeleted]),
    inequalities, kept (fun entry => entry.2.lowerVal ≠ some (.array []))
      (by simp [notDeleted])]

theorem init_spec (answers : index.canAnswer query = true) :
    ∃ planned bound rest, planQuery query index = .ok planned ∧
      Answered index planned bound rest ∧ PlannedFrom query planned ∧
      (Plannable query.whereClauses → ∃ plan ranges, init query index = .ok plan ∧
        plan.query = planned ∧ PlanSpec index planned ranges ∧
        plan.ranges = if query.desc then ranges.reverse else ranges) ∧
      (¬ Plannable query.whereClauses →
        ∃ text, init query index = .error (.assertFailed text)) := by
  obtain ⟨planned, bound, rest, planning, answered, from_⟩ := canAnswer_answered answers
  obtain ⟨builds, fails⟩ := buildRanges_spec answered
  rw [from_.plannable_iff] at builds fails
  refine ⟨planned, bound, rest, planning, answered, from_, ?_, ?_⟩
  · intro plannable
    obtain ⟨plan, built, same, spec⟩ := builds plannable
    exact ⟨{ plan with
        ranges := if query.desc then plan.ranges.reverse else plan.ranges
        idIndex := index.idIndex }, plan.ranges, by simp only [init, planning, built, bind, Except.bind], same, spec, rfl⟩
  · intro unplannable
    obtain ⟨text, stuck⟩ := fails unplannable
    exact ⟨text, by simp only [init, planning, stuck, bind, Except.bind]⟩

end Ranges

/-- A plan is exact when no assertion fires, its ranges hold exactly the keys whose values satisfy
the where clauses, and they lie one after the other in scan direction without overlap. -/
structure PlanExact (index : MojDbIndex) (query planned : MojDbQuery) (plan : MojDbQueryPlan) :
    Prop where
  exact : ∀ obj key parts, key ∈ index.getKeys obj → index.Spells parts key →
    ((∃ range ∈ plan.ranges, range.contains key) ↔ index.Satisfies planned parts)
  disjoint : plan.ranges.Pairwise fun left right => ∀ key, left.contains key → ¬ right.contains key
  ordered : plan.ranges.Pairwise fun left right =>
    if query.desc then right.Precedes left else left.Precedes right

theorem planExact_of_spec {index : MojDbIndex} {query planned : MojDbQuery} {plan : MojDbQueryPlan}
    {ranges : List MojDbKeyRange} (noPage : planned.page = [])
    (spec : PlanSpec index planned ranges)
    (rangesEq : plan.ranges = if query.desc then ranges.reverse else ranges) :
    PlanExact index query planned plan := by
  have apart : ranges.Pairwise fun left right =>
      ∀ key, left.contains key → ¬ right.contains key := by
    refine spec.ordered.imp_of_mem ?_
    intro left right leftIn _ front key
    exact front.disjoint (spec.bounded left leftIn)
  refine ⟨?_, ?_, ?_⟩
  · intro obj key parts _ spells
    have exact := spec.exact parts key spells
    simp only [OnPage, noPage, true_or, and_true] at exact
    rw [rangesEq, ← exact]
    split_ifs <;> simp
  · rw [rangesEq]
    split_ifs
    · rw [List.pairwise_reverse]
      exact apart.imp fun {_ _} clear key inRight inLeft => clear key inLeft inRight
    · exact apart
  · rw [rangesEq]
    split_ifs with desc
    · rw [List.pairwise_reverse]
      simpa [desc] using spec.ordered
    · simpa [desc] using spec.ordered

/-- Plans are exact for every query an index can answer, except those on which an assertion of the
plan fires. -/
theorem plan_exact_iff_plannable (index : MojDbIndex) (query : MojDbQuery)
    (answers : index.canAnswer query = true) (noPage : query.page = []) :
    (∃ planned plan, planQuery query index = .ok planned ∧ init query index = .ok plan ∧
      PlanExact index query planned plan) ↔ Plannable query.whereClauses := by
  obtain ⟨planned, bound, rest, planning, answered, from_, builds, fails⟩ := init_spec answers
  constructor
  · rintro ⟨_, plan, _, built, _⟩
    by_contra unplannable
    obtain ⟨text, stuck⟩ := fails unplannable
    rw [stuck] at built
    cases built
  · intro plannable
    obtain ⟨plan, ranges, built, _, spec, rangesEq⟩ := builds plannable
    exact ⟨planned, plan, planning, built,
      planExact_of_spec (from_.page.trans noPage) spec rangesEq⟩

section Instances

def plainLocale : MojDbLocale := ⟨fun _ => ⟨id⟩, fun text => [text], fun _ => []⟩

def plainProp (name : MojString) (path_ne_nil : split propComponentSeparator [] name ≠ []) :
    MojDbExtractor :=
  .prop ⟨name, .invalid, none, false, path_ne_nil⟩

/-- An index on `a` and `b`, with the built-in id behind them. -/
def twoPropIndex : MojDbIndex where
  id := .int 7
  locale := plainLocale
  sortKey := [chars ['a'], chars ['b']]
  props := [plainProp (chars ['a']) path_a, plainProp (chars ['b']) (by decide), idProp]
  includeDeleted := false
  ready := true
  distinctNames := by decide
  hasId := by decide
  delFront := by simp

/-- `a = []` and `b < 5`. -/
def emptyArrayQuery : MojDbQuery :=
  { MojDbQuery.init (chars ['K']) with
    whereClauses := {
      entries := [(chars ['a'], ⟨.eq, .none, some (.array []), none, .invalid⟩),
        (chars ['b'], ⟨.none, .lessThan, none, some (.int 5), .invalid⟩)]
      nodup := by decide
      accepted := by
        intro entry member
        simp only [List.mem_cons, List.not_mem_nil, or_false] at member
        rcases member with rfl | rfl <;> constructor <;> simp [isArray] } }

/-- `a = 1` and `b < 5`. -/
def rangeQuery : MojDbQuery :=
  { MojDbQuery.init (chars ['K']) with
    whereClauses := {
      entries := [(chars ['a'], ⟨.eq, .none, some (.int 1), none, .invalid⟩),
        (chars ['b'], ⟨.none, .lessThan, none, some (.int 5), .invalid⟩)]
      nodup := by decide
      accepted := by
        intro entry member
        simp only [List.mem_cons, List.not_mem_nil, or_false] at member
        rcases member with rfl | rfl <;> constructor <;> simp [isArray] } }

theorem plan_exact_of_rangeQuery :
    ∃ planned plan, planQuery rangeQuery twoPropIndex = .ok planned ∧
      init rangeQuery twoPropIndex = .ok plan ∧ PlanExact twoPropIndex rangeQuery planned plan :=
  (plan_exact_iff_plannable twoPropIndex rangeQuery (by decide) rfl).mpr
    ⟨by simp [rangeQuery], by simp [rangeQuery]⟩

/-- The query is built by `addWhere`, valid and answerable, and its plan fails an assertion. -/
theorem plan_not_exact_behind_empty_array :
    ((MojDbQuery.init (chars ['K'])).addWhere (chars ['a']) .eq (.array []) .invalid >>=
        fun query => query.addWhere (chars ['b']) .lessThan (.int 5) .invalid) =
      .ok emptyArrayQuery ∧
    emptyArrayQuery.validate = .ok () ∧ emptyArrayQuery.validateFind = .ok () ∧
    twoPropIndex.canAnswer emptyArrayQuery = true ∧ emptyArrayQuery.page = [] ∧
    ¬ ∃ planned plan, planQuery emptyArrayQuery twoPropIndex = .ok planned ∧
      init emptyArrayQuery twoPropIndex = .ok plan ∧
      PlanExact twoPropIndex emptyArrayQuery planned plan := by
  refine ⟨rfl, rfl, rfl, by decide, rfl, ?_⟩
  rintro ⟨_, plan, _, built, _⟩
  have stuck : init emptyArrayQuery twoPropIndex = .error (.assertFailed
      "lowerKeys.size() == upperKeys.size() && lowerKeys.size() == prefixKeys.size()") := rfl
  rw [stuck] at built
  cases built

end Instances

end MojDbQueryPlan

end Db8.Db
