import Db8.Db.QueryOrder

/-!
# Queries written and read back

What `fromObject` makes of the object that `toObject` writes. Where clauses come back with their
operators, values and collations. Filter clauses do not: in their place the where clauses are
written once more. And the reader selects and orders by a distinct property, whatever is written.
-/

set_option autoImplicit false

namespace Db8.Db.MojDbQuery

open Db8.Bytes
open Db8.Core
open MojObjectBuilder (putAll)

section Written

theorem find_putAll_append (front back done : List (MojString × MojObject)) (key : MojString) :
    MojObject.find (putAll (front ++ back) done) key =
      MojObject.find (putAll back (putAll front done)) key := by
  rw [putAll, List.foldl_append]
  rfl

theorem find_putAll_cons (name : MojString) (val : MojObject)
    (rest done : List (MojString × MojObject)) (key : MojString) :
    MojObject.find (putAll ((name, val) :: rest) done) key =
      MojObject.find (putAll rest (MojObject.putProp name val done)) key := rfl

theorem find_putAll_nil (done : List (MojString × MojObject)) (key : MojString) :
    MojObject.find (putAll [] done) key = MojObject.find done key := rfl

theorem find_putAll_unless (absent : Prop) [Decidable absent] (name : MojString) (val : MojObject)
    (done : List (MojString × MojObject)) (key : MojString) :
    MojObject.find (putAll (if absent then [] else [(name, val)]) done) key =
      if ¬ absent ∧ name = key then some val else MojObject.find done key := by
  by_cases missing : absent
  · rw [if_pos missing, if_neg fun both => both.1 missing]
    rfl
  · rw [if_neg missing]
    change MojObject.find (MojObject.putProp name val done) key = _
    rw [MojObject.find_putProp]
    simp only [missing, not_false_eq_true, true_and]

end Written

section Clauses

theorem stringToOp_opToString {op : CompOp} (named : op ≠ .none) :
    ∃ str, opToString op = some str ∧ stringToOp str = .ok op := by
  cases op with
  | none => exact absurd rfl named
  | _ => exact ⟨_, rfl, rfl⟩

theorem collationFromString_toString {coll : MojDbCollationStrength} (valid : coll ≠ .invalid) :
    collationFromString (collationToString coll) = .ok coll := by
  cases coll with
  | invalid => exact absurd rfl valid
  | _ => rfl

theorem readClause_clauseObject {clause : Clause} (named : clause.op ≠ .none) :
    ∃ obj, clauseObject clause = .ok obj ∧ readClause obj = .ok clause := by
  rcases stringToOp_opToString named with ⟨str, written, read⟩
  unfold clauseObject
  rw [written]
  refine ⟨_, rfl, ?_⟩
  have found : ∀ key, MojObject.get (.object (putAll ([(propKey, .string clause.prop),
      (opKey, .string str), (valKey, clause.val)] ++ if clause.coll = .invalid then []
      else [(collateKey, .string (collationToString clause.coll))]) [])) key =
        if ¬ clause.coll = .invalid ∧ collateKey = key then
          some (.string (collationToString clause.coll))
        else if valKey = key then some clause.val
        else if opKey = key then some (.string str)
        else if propKey = key then some (.string clause.prop) else none := by
    intro key
    rw [MojObject.get, MojObject.map, find_putAll_append, find_putAll_unless, find_putAll_cons,
      find_putAll_cons, find_putAll_cons, find_putAll_nil, MojObject.find_putProp,
      MojObject.find_putProp, MojObject.find_putProp, MojObject.find_nil]
  have others : ∀ key, collateKey ≠ key → ¬ (¬ clause.coll = .invalid ∧ collateKey = key) :=
    fun key apart both => apart both.2
  have prop := found propKey
  have op := found opKey
  have val := found valKey
  have coll := found collateKey
  rw [if_neg (others propKey (by decide)), if_neg (by decide : valKey ≠ propKey),
    if_neg (by decide : opKey ≠ propKey), if_pos (rfl : propKey = propKey)] at prop
  rw [if_neg (others opKey (by decide)), if_neg (by decide : valKey ≠ opKey),
    if_pos (rfl : opKey = opKey)] at op
  rw [if_neg (others valKey (by decide)), if_pos (rfl : valKey = valKey)] at val
  rw [if_neg (by decide : valKey ≠ collateKey), if_neg (by decide : opKey ≠ collateKey),
    if_neg (by decide : propKey ≠ collateKey)] at coll
  unfold readClause MojObject.getRequired MojObject.getString
  rw [prop, op, val, coll]
  simp only [bind, Except.bind, MojObject.stringValue, read]
  by_cases missing : clause.coll = .invalid
  · simp [← missing]
  · simp [missing, MojObject.stringValue, collationFromString_toString missing]

theorem entered_entryClauses (prop : MojString) {entry : WhereClause} (accepted : entry.Accepted) :
    entered (entryClauses (prop, entry)) = some entry := by
  rcases entry with ⟨lowerOp, upperOp, lowerVal, upperVal, coll⟩
  have lowerVals := accepted.lowerVal_iff
  have upperVals := accepted.upperVal_iff
  have notUpper : ¬ IsUpper lowerOp := not_or.mpr accepted.notUpper
  simp only at lowerVals upperVals
  by_cases noUpper : upperOp = .none
  · have noUpperVal := upperVals.mp noUpper
    have lower : lowerOp ≠ .none := accepted.some_op.resolve_right (not_not.mpr noUpper)
    rcases Option.ne_none_iff_exists'.mp (fun gone => lower (lowerVals.mpr gone)) with ⟨val, rfl⟩
    simp [entryClauses, entered, lower, noUpper, noUpperVal, enter_lower, notUpper,
      WhereClause.fresh]
  · have upper : IsUpper upperOp := accepted.upperOps.resolve_left noUpper
    rcases Option.ne_none_iff_exists'.mp (fun gone => noUpper (upperVals.mpr gone)) with ⟨val, rfl⟩
    by_cases noLower : lowerOp = .none
    · have noLowerVal := lowerVals.mp noLower
      simp [entryClauses, entered, noLower, noUpper, noLowerVal, enter_upper, upper,
        WhereClause.fresh]
    · rcases Option.ne_none_iff_exists'.mp (fun gone => noLower (lowerVals.mpr gone)) with
        ⟨lower, rfl⟩
      simp [entryClauses, entered, noLower, noUpper, enter_upper, enter_lower, upper, notUpper,
        WhereClause.fresh]

variable {entry : MojString × WhereClause}

theorem prop_of_mem_entryClauses {clause : Clause}
    (member : clause ∈ entryClauses entry) : clause.prop = entry.1 := by
  unfold entryClauses at member
  rcases List.mem_append.mp member with lower | upper
  · split_ifs at lower
    · cases lower
    · rw [List.mem_singleton.mp lower]
  · split_ifs at upper
    · cases upper
    · rw [List.mem_singleton.mp upper]

theorem admitted_entryClauses (accepted : entry.2.Accepted) : Admitted (entryClauses entry) := by
  intro clause member
  unfold entryClauses at member
  rcases List.mem_append.mp member with lower | upper
  · split_ifs at lower with missing
    · cases lower
    · rw [List.mem_singleton.mp lower]
      refine ⟨missing, ?_⟩
      intro array
      apply accepted.lowerArray
      rcases Option.ne_none_iff_exists'.mp
        (fun gone => missing (accepted.lowerVal_iff.mpr gone)) with ⟨val, same⟩
      rw [same] at array ⊢
      exact array
  · split_ifs at upper with missing
    · cases upper
    · rw [List.mem_singleton.mp upper]
      refine ⟨missing, ?_⟩
      intro array
      rcases Option.ne_none_iff_exists'.mp
        (fun gone => missing (accepted.upperVal_iff.mpr gone)) with ⟨val, same⟩
      have noArray := accepted.upperArray
      rw [same] at noArray array
      rw [Option.getD_some, noArray] at array
      cases array

theorem inOrder_entryClauses (accepted : entry.2.Accepted) :
    (entryClauses entry).Pairwise InOrder := by
  unfold entryClauses
  apply List.pairwise_append.mpr
  refine ⟨?_, ?_, ?_⟩
  · split_ifs
    · exact List.Pairwise.nil
    · exact List.pairwise_singleton _ _
  · split_ifs
    · exact List.Pairwise.nil
    · exact List.pairwise_singleton _ _
  · intro one lower two upper _
    split_ifs at lower with noLower
    · cases lower
    split_ifs at upper with noUpper
    · cases upper
    rw [List.mem_singleton.mp lower, List.mem_singleton.mp upper]
    refine ⟨Or.inr ⟨(accepted.pairs noUpper).resolve_left noLower, ?_⟩, Or.inr rfl⟩
    exact accepted.upperOps.resolve_left noUpper

theorem written_clauses (map : WhereMap) :
    Admitted (map.entries.flatMap entryClauses) ∧
      (map.entries.flatMap entryClauses).Pairwise InOrder ∧
      merged (map.entries.flatMap entryClauses) = map.find := by
  refine ⟨?_, ?_, ?_⟩
  · intro clause member
    rcases List.mem_flatMap.mp member with ⟨entry, there, mine⟩
    exact admitted_entryClauses (map.accepted entry there) clause mine
  · have nodup := map.nodup
    have accepted := map.accepted
    generalize map.entries = entries at nodup accepted
    induction entries with
    | nil => exact List.Pairwise.nil
    | cons entry entries ih =>
      rw [List.flatMap_cons]
      rw [List.map_cons, List.nodup_cons] at nodup
      apply List.pairwise_append.mpr
      refine ⟨inOrder_entryClauses (accepted entry List.mem_cons_self), ih nodup.2
        fun other member => accepted other (List.mem_cons_of_mem _ member), ?_⟩
      intro one oneIn two twoIn same
      rcases List.mem_flatMap.mp twoIn with ⟨other, there, mine⟩
      rw [prop_of_mem_entryClauses oneIn, prop_of_mem_entryClauses mine] at same
      exact absurd (same ▸ List.mem_map_of_mem there) nodup.1
  · funext prop
    have nodup := map.nodup
    have accepted := map.accepted
    unfold WhereMap.find
    generalize map.entries = entries at nodup accepted
    have others : ∀ list : List (MojString × WhereClause), prop ∉ list.map Prod.fst →
        (list.flatMap entryClauses).filter (fun clause => decide (clause.prop = prop)) = [] := by
      intro list absent
      apply List.filter_eq_nil_iff.mpr
      intro clause member same
      rcases List.mem_flatMap.mp member with ⟨entry, there, mine⟩
      apply absent
      rw [← of_decide_eq_true same, prop_of_mem_entryClauses mine]
      exact List.mem_map_of_mem there
    induction entries with
    | nil => rfl
    | cons entry entries ih =>
      rcases entry with ⟨name, clause⟩
      rw [List.map_cons, List.nodup_cons] at nodup
      unfold merged
      rw [List.flatMap_cons, List.filter_append]
      unfold WhereMap.lookup
      rw [List.find?_cons]
      by_cases same : name = prop
      · subst same
        have whole : (entryClauses (name, clause)).filter
            (fun one => decide (one.prop = name)) = entryClauses (name, clause) := by
          apply List.filter_eq_self.mpr
          intro one member
          exact decide_eq_true (prop_of_mem_entryClauses member)
        rw [whole, others entries nodup.1, List.append_nil,
          entered_entryClauses name (accepted _ List.mem_cons_self)]
        simp only [decide_true, Option.map_some]
      · have noneHere : (entryClauses (name, clause)).filter
            (fun one => decide (one.prop = prop)) = [] := by
          apply List.filter_eq_nil_iff.mpr
          intro one member here
          exact same ((prop_of_mem_entryClauses member).symm.trans (of_decide_eq_true here))
        rw [noneHere, List.nil_append]
        simp only [same, decide_false]
        exact ih nodup.2 fun other member => accepted other (List.mem_cons_of_mem _ member)

theorem mapM_clauseObject {clauses : List Clause} (admitted : Admitted clauses) :
    ∃ objs, clauses.mapM clauseObject = .ok objs ∧ (∀ obj ∈ objs, Readable obj) ∧
      objs.map readOr = clauses := by
  induction clauses with
  | nil => exact ⟨[], rfl, fun _ member => absurd member List.not_mem_nil, rfl⟩
  | cons clause clauses ih =>
    rcases List.forall_mem_cons.mp admitted with ⟨first, rest⟩
    rcases ih rest with ⟨objs, written, readable, read⟩
    rcases readClause_clauseObject first.1 with ⟨obj, wrote, reads⟩
    rcases readable_of_ok reads with ⟨same, ok⟩
    refine ⟨obj :: objs, ?_, List.forall_mem_cons.mpr ⟨ok, readable⟩, ?_⟩
    · rw [List.mapM_cons, wrote, written]
      rfl
    · rw [List.map_cons, same, read]

theorem addClauses_clausesObject (map : WhereMap) :
    ∃ objs updated, clausesObject map = .ok (.array objs) ∧
      addClauses WhereMap.empty objs = .ok updated ∧ updated.find = map.find := by
  rcases written_clauses map with ⟨admitted, ordered, same⟩
  rcases mapM_clauseObject admitted with ⟨objs, written, readable, read⟩
  have spec := addAll_spec built_empty (fun _ member => absurd member List.not_mem_nil)
    List.Pairwise.nil (map.entries.flatMap entryClauses)
  rw [List.nil_append] at spec
  rcases spec.1.mpr ⟨admitted, ordered⟩ with ⟨updated, ran⟩
  refine ⟨objs, updated, ?_, ?_, ?_⟩
  · unfold clausesObject
    rw [written]
    rfl
  · rw [addClauses_iff, read]
    exact ⟨readable, ran⟩
  · rw [← same]
    exact funext (spec.2 updated ran)

end Clauses

section Query

theorem get_toProps {select : SelectQuery} {clauses : MojObject}
    (written : clausesObject select.query.whereClauses = .ok clauses) :
    ∃ props, select.toProps = .ok props ∧ ∀ key,
      MojObject.get (.object (putAll props [])) key =
        if ¬ select.query.page = [] ∧ pageKey = key then
          some (.string (MojBase64.encode false select.query.page))
        else if ¬ select.query.limit = limitDefault ∧ limitKey = key then
          some (.int (select.query.limit.setWidth 64))
        else if ¬ select.query.desc = false ∧ descKey = key then some (.bool true)
        else if ¬ select.query.distinct = [] ∧ distinctKey = key then
          some (.string select.query.distinct)
        else if ¬ select.query.order = [] ∧ orderByKey = key then some (.string select.query.order)
        else if ¬ select.query.filterClauses.entries = [] ∧ whereKey = key then some clauses
        else if ¬ select.query.whereClauses.entries = [] ∧ whereKey = key then some clauses
        else if fromKey = key then some (.string select.query.fromType)
        else if ¬ select.selectProps.elems = [] ∧ selectKey = key then
          some (.array (select.selectProps.elems.map .string))
        else none := by
  unfold SelectQuery.toProps
  rw [written]
  refine ⟨_, rfl, ?_⟩
  intro key
  have descProps : (if select.query.desc then [(descKey, MojObject.bool true)] else []) =
      if select.query.desc = false then [] else [(descKey, MojObject.bool true)] := by
    cases select.query.desc <;> rfl
  rw [descProps, MojObject.get, MojObject.map]
  simp only [find_putAll_append, find_putAll_unless, find_putAll_cons, find_putAll_nil,
    MojObject.find_putProp, MojObject.find_nil]

theorem putAll_elems (set : SortedSet MojString) :
    SortedSet.empty.putAll ((set.elems.map MojObject.string).map MojObject.stringValue) = set := by
  have texts : (set.elems.map MojObject.string).map MojObject.stringValue = set.elems := by
    rw [List.map_map]
    exact List.map_id set.elems
  rw [texts]
  apply SortedSet.ext
  intro value
  rw [SortedSet.mem_putAll]
  simp [SortedSet.mem_def]

theorem limit_read (limit : MojUInt32) :
    ¬ (limit.setWidth 64 : MojInt64).toInt < 0 ∧ (limit.setWidth 64 : MojInt64).setWidth 32 = limit := by
  have small := limit.isLt
  have whole : (limit.setWidth 64 : MojInt64).toNat = limit.toNat := by
    rw [BitVec.toNat_setWidth, Nat.mod_eq_of_lt (by omega)]
  constructor
  · rw [BitVec.toInt_eq_toNat_of_lt (by rw [whole]; omega)]
    omega
  · apply BitVec.eq_of_toNat_eq
    rw [BitVec.toNat_setWidth, whole, Nat.mod_eq_of_lt small]

/-- What comes back of a query: its filter clauses are lost, and a distinct property is selected and
ordered by. -/
structure ReadBack (select read : SelectQuery) : Prop where
  fromType : read.query.fromType = select.query.fromType
  whereClauses : read.query.whereClauses.find = select.query.whereClauses.find
  filterClauses : read.query.filterClauses = WhereMap.empty
  page : read.query.page = select.query.page
  limit : read.query.limit = select.query.limit
  desc : read.query.desc = select.query.desc
  distinct : read.query.distinct = select.query.distinct
  order : read.query.order =
    if select.query.distinct = [] then select.query.order else select.query.distinct
  selectProps : read.selectProps = if select.query.distinct = [] then select.selectProps
    else SortedSet.single select.query.distinct

theorem fromObject_toObject (select : SelectQuery) :
    ∃ obj read, select.toObject = .ok obj ∧ fromObject obj = .ok read ∧ ReadBack select read := by
  rcases addClauses_clausesObject select.query.whereClauses with
    ⟨objs, updated, written, added, finds⟩
  rcases get_toProps written with ⟨props, wrote, found⟩
  have page := found pageKey
  have limit := found limitKey
  have desc := found descKey
  have distinct := found distinctKey
  have order := found orderByKey
  have clauses := found whereKey
  have fromType := found fromKey
  have selected := found selectKey
  have filter := found filterKey
  have deleted := found includeDeletedKey
  simp +decide at page limit desc distinct order clauses fromType selected filter deleted
  have toObject : select.toObject = .ok (.object (putAll props [])) := by
    unfold SelectQuery.toObject
    rw [wrote]
    rfl
  generalize MojObject.object (putAll props []) = obj at *
  have readWhere : ∃ map, readClauses obj whereKey = .ok map ∧
      map.find = select.query.whereClauses.find := by
    unfold readClauses
    rw [clauses]
    have given : ∃ map, addClauses WhereMap.empty (MojObject.array objs).elements = .ok map ∧
        map.find = select.query.whereClauses.find := ⟨updated, added, finds⟩
    split_ifs with noFilter noWhere
    · refine ⟨WhereMap.empty, rfl, ?_⟩
      unfold WhereMap.find
      rw [noWhere]
      rfl
    · exact given
    · exact given
  have readFilter : readClauses obj filterKey = .ok WhereMap.empty := by
    unfold readClauses
    rw [filter]
  have readLim : readLimit obj = .ok select.query.limit := by
    unfold readLimit
    rw [limit]
    split_ifs with isDefault
    · rw [isDefault]
    · rcases limit_read select.query.limit with ⟨positive, same⟩
      change (if (select.query.limit.setWidth 64 : MojInt64).toInt < 0 then _ else
        Except.ok ((select.query.limit.setWidth 64 : MojInt64).setWidth 32)) = _
      rw [if_neg positive, same]
  have readKey : readPage obj = .ok select.query.page := by
    unfold readPage
    rw [page]
    split_ifs with noPage
    · rw [noPage]
    · exact MojBase64.base64Decode_encode select.query.page false
  have readDesc : getBool obj descKey = select.query.desc := by
    unfold getBool
    rw [desc]
    cases select.query.desc <;> rfl
  have readDeleted : getBool obj includeDeletedKey = false := by
    unfold getBool
    rw [deleted]
    rfl
  have readFrom : obj.getRequired fromKey = .ok (.string select.query.fromType) := by
    unfold MojObject.getRequired
    rw [fromType]
  have readHead : readOrder obj = .ok (select.query.distinct,
      if select.query.distinct = [] then select.query.order else select.query.distinct,
      if select.query.distinct = [] then select.selectProps
      else SortedSet.single select.query.distinct) := by
    unfold readOrder MojObject.getString
    rw [distinct]
    by_cases plain : select.query.distinct = []
    · have readProps : readSelect obj = .ok select.selectProps := by
        unfold readSelect
        rw [selected]
        by_cases nothing : select.selectProps.elems = []
        · rw [if_pos nothing]
          exact congrArg Except.ok (SortedSet.elems_injective nothing.symm)
        · rw [if_neg nothing]
          have filled : (MojObject.array (select.selectProps.elems.map .string)).containerSize ≠ 0 := by
            simpa [MojObject.containerSize] using nothing
          simp only [filled, if_false]
          exact congrArg Except.ok (putAll_elems _)
      simp only [plain, if_true, Option.map_none, readProps, order]
      by_cases noOrder : select.query.order = []
      · simp [noOrder, bind, Except.bind]
      · simp [noOrder, bind, Except.bind, MojObject.stringValue]
    · simp only [plain, if_false, Option.map_some, MojObject.stringValue]
      rfl
  rcases readWhere with ⟨map, readMap, same⟩
  refine ⟨obj, ⟨⟨select.query.fromType, map, WhereMap.empty, select.query.page, _,
    select.query.distinct, select.query.limit, select.query.desc⟩, _⟩, toObject, ?_,
    ⟨rfl, same, rfl, rfl, rfl, rfl, rfl, rfl, rfl⟩⟩
  unfold fromObject
  rw [readHead, readFrom, readMap, readFilter, readLim, readKey, readDesc, readDeleted]
  rfl

def RoundTrips (select : SelectQuery) : Prop :=
  ∃ obj read, select.toObject = .ok obj ∧ fromObject obj = .ok read ∧ Same read select

def DistinctForced (select : SelectQuery) : Prop :=
  select.query.order = select.query.distinct ∧
    select.selectProps = SortedSet.single select.query.distinct

theorem find_empty_iff (map : WhereMap) : map.find = WhereMap.empty.find ↔ map.entries = [] := by
  constructor
  · intro same
    apply List.eq_nil_iff_forall_not_mem.mpr
    rintro ⟨prop, clause⟩ member
    have found := WhereMap.find_of_mem member
    rw [same] at found
    cases found
  · intro nothing
    unfold WhereMap.find
    rw [nothing]
    rfl

theorem roundTrips_iff (select : SelectQuery) : RoundTrips select ↔
    select.query.filterClauses.entries = [] ∧
      (select.query.distinct = [] ∨ DistinctForced select) := by
  rcases fromObject_toObject select with ⟨obj, read, wrote, reads, back⟩
  have same_iff : RoundTrips select ↔ Same read select := by
    constructor
    · rintro ⟨other, otherRead, otherWrote, otherReads, same⟩
      rw [wrote] at otherWrote
      cases otherWrote
      rw [reads] at otherReads
      cases otherReads
      exact same
    · intro same
      exact ⟨obj, read, wrote, reads, same⟩
  rw [same_iff, ← find_empty_iff]
  constructor
  · intro same
    refine ⟨?_, ?_⟩
    · rw [← same.filterClauses, back.filterClauses]
    · by_cases plain : select.query.distinct = []
      · exact Or.inl plain
      · have order := back.order
        have selectProps := back.selectProps
        rw [if_neg plain] at order selectProps
        exact Or.inr ⟨same.order.symm.trans order, same.selectProps.symm.trans selectProps⟩
  · rintro ⟨noFilter, distinct⟩
    refine ⟨?_, back.fromType, back.whereClauses, ?_, back.page, ?_, back.distinct, back.limit,
      back.desc⟩
    · rw [back.selectProps]
      split_ifs with plain
      · rfl
      · exact (distinct.resolve_left plain).2.symm
    · rw [back.filterClauses, noFilter]
    · rw [back.order]
      split_ifs with plain
      · rfl
      · exact (distinct.resolve_left plain).1.symm

theorem distinct_of_fromObject {obj : MojObject} {select : SelectQuery}
    (read : fromObject obj = .ok select) :
    select.query.distinct = [] ∨ DistinctForced select := by
  unfold fromObject at read
  rcases except_bind_ok read with ⟨⟨distinct, order, selectProps⟩, head, read⟩
  rcases except_bind_ok read with ⟨_, _, read⟩
  rcases except_bind_ok read with ⟨_, _, read⟩
  rcases except_bind_ok read with ⟨_, _, read⟩
  rcases except_bind_ok read with ⟨_, _, read⟩
  rcases except_bind_ok read with ⟨_, _, read⟩
  dsimp only at read
  have kept : select.query.distinct = distinct ∧ select.query.order = order ∧
      select.selectProps = selectProps := by
    split at read
    · rcases except_bind_ok read with ⟨query, deleted, same⟩
      unfold MojDbQuery.includeDeleted MojDbQuery.addWhere at deleted
      rcases except_bind_ok deleted with ⟨_, _, added⟩
      cases added
      cases same
      exact ⟨rfl, rfl, rfl⟩
    · cases read
      exact ⟨rfl, rfl, rfl⟩
  unfold DistinctForced
  rw [kept.1, kept.2.1, kept.2.2]
  unfold readOrder at head
  split at head
  · cases head
    exact Or.inr ⟨rfl, rfl⟩
  · rcases except_bind_ok head with ⟨_, _, same⟩
    cases same
    exact Or.inl rfl

end Query

/-- A query comes back from its object just when it has no filter clauses and its distinct property,
if it has one, is forced; of the queries that were read, those without filter clauses. -/
theorem query_round_trip (select : SelectQuery) :
    (RoundTrips select ↔ select.query.filterClauses.entries = [] ∧
      (select.query.distinct = [] ∨ DistinctForced select)) ∧
    ∀ obj, fromObject obj = .ok select →
      (RoundTrips select ↔ select.query.filterClauses.entries = []) := by
  constructor
  · exact roundTrips_iff select
  · intro obj read
    rw [roundTrips_iff]
    exact ⟨And.left, fun noFilter => ⟨noFilter, distinct_of_fromObject read⟩⟩

def selectSample : SelectQuery where
  query := { MojDbQuery.init (chars ['k']) with order := chars ['b'] }
  selectProps := SortedSet.single (chars ['a'])

set_option maxRecDepth 20000 in
theorem query_round_trip_sample : RoundTrips selectSample ∧
    ∃ select, fromObject (bare []) = .ok select ∧ RoundTrips select :=
  ⟨(query_round_trip selectSample).1.mpr ⟨rfl, Or.inl rfl⟩,
    ⟨_, rfl, ((query_round_trip _).2 (bare []) rfl).mpr rfl⟩⟩

def filterSample : MojObject :=
  .object [(filterKey, .array [.object [(opKey, .string (chars ['='])),
    (propKey, .string (chars ['a'])), (valKey, .int 1)]]), (fromKey, .string (chars ['k']))]

set_option maxRecDepth 20000 in
/-- The clause of the sample is read as a filter and does not come back. -/
theorem query_round_trip_filter :
    (∃ select, fromObject filterSample = .ok select ∧ ¬ RoundTrips select) ∧
      ¬ ∀ select, RoundTrips select := by
  have lost : ∃ select, fromObject filterSample = .ok select ∧ ¬ RoundTrips select := by
    refine ⟨_, rfl, ?_⟩
    rw [roundTrips_iff]
    intro both
    cases both.1
  refine ⟨lost, ?_⟩
  intro all
  rcases lost with ⟨select, _, not⟩
  exact not (all select)

end Db8.Db.MojDbQuery
