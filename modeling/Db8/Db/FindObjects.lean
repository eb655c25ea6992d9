import Db8.Db.IndexMirror
import Db8.Db.PagingExact

/-!
# Finds return the objects

A find on an index whose keys mirror the stored objects. Every range of a plan begins with the index's
id, so no key of another index is met, and every key that is met leads back to the object it is of. The
pages of a find therefore hold exactly the stored objects whose values answer the where clauses.
-/

set_option autoImplicit false

namespace Db8.Db.FindObjects

open Db8.Bytes
open Db8.Core
open Db8.Graph
open MojDbIsamQuery
open MojDbQueryPlan

section Own

def Owned (stem : MojDbKey) (range : MojDbKeyRange) : Prop :=
  ∀ key, range.contains key → stem <+: key

variable {stem lower upper : MojDbKey}

theorem stem_le_increment (starts : stem <+: lower) (bounded : successor lower ≠ []) :
    stem ≤ MojDbKey.increment lower := (le_of_starts starts).trans (lt_successor bounded).le

theorem owned_increment (above : stem ≤ lower) (starts : stem <+: upper) (group : Nat) :
    Owned stem ⟨lower, MojDbKey.increment upper, group⟩ := by
  intro key inside
  rw [MojDbKeyRange.contains_iff, MojDbKey.increment, below_successor_iff] at inside
  rcases inside.2 with below | longer
  · exact prefix_of_between (above.trans inside.1) below.le starts
  · exact starts.trans longer

theorem owned_plain (above : stem ≤ lower) (starts : stem <+: upper) (nonempty : upper ≠ [])
    (group : Nat) : Owned stem ⟨lower, upper, group⟩ := by
  intro key inside
  rw [MojDbKeyRange.contains_iff, below_iff_lt nonempty] at inside
  exact prefix_of_between (above.trans inside.1) inside.2.le starts

theorem upperBound_owned {lowerOp upperOp : CompOp} {upperKey prefixKey bound : MojDbKey}
    (upperStarts : stem <+: upperKey) (nonempty : upperKey ≠ []) (prefixStarts : stem <+: prefixKey)
    (computed : upperBound lowerOp upperOp upperKey prefixKey = .ok bound)
    (above : stem ≤ lower) (group : Nat) : Owned stem ⟨lower, bound, group⟩ := by
  unfold upperBound at computed
  split at computed
  · rcases except_bind_ok computed with ⟨_, -, same⟩
    cases same
    exact owned_increment above prefixStarts group
  · cases computed
    exact owned_increment above upperStarts group
  · rcases except_bind_ok computed with ⟨_, -, same⟩
    cases same
    exact owned_plain above upperStarts nonempty group

theorem boundsFromKeys_owned {lowerKey upperKey prefixKey : MojDbKey} {index groupCount : Nat}
    {clause : Option WhereClause} {here : List MojDbKeyRange} (lowerStarts : stem <+: lowerKey)
    (lowerBounded : successor lowerKey ≠ []) (upperStarts : stem <+: upperKey)
    (upperNonempty : upperKey ≠ []) (prefixStarts : stem <+: prefixKey)
    (trimmed : (∃ found, clause = some found ∧ Pointwise found ∧ found.lowerOp ≠ .eq) →
      stem <+: dropTerminator prefixKey)
    (computed : boundsFromKeys lowerKey upperKey prefixKey index groupCount clause = .ok here) :
    ∀ range ∈ here, Owned stem range := by
  unfold boundsFromKeys at computed
  rcases except_bind_ok computed with ⟨bound, bounded, computed⟩
  have above := le_of_starts lowerStarts
  have beyond := stem_le_increment lowerStarts lowerBounded
  have cut : ∀ low group, stem ≤ low → Owned stem ⟨low, bound, group⟩ := fun low group from_ =>
    upperBound_owned upperStarts upperNonempty prefixStarts bounded from_ group
  have lowerNonempty : lowerKey ≠ [] := by
    intro empty
    apply lowerBounded
    rw [empty, successor_nil]
  split at computed
  · rcases except_bind_ok computed with ⟨_, -, same⟩
    cases same
    simpa using cut lowerKey 0 above
  · next search =>
      rcases except_bind_ok computed with ⟨_, -, same⟩
      cases same
      cases clause with
      | none => cases search
      | some found =>
        have op : found.lowerOp = .search := search
        have starts := trimmed ⟨found, rfl, Or.inr (Or.inr op), by rw [op]; simp⟩
        simpa using owned_increment above starts (index % groupCount)
  · next starting =>
      rcases except_bind_ok computed with ⟨_, -, same⟩
      cases same
      cases clause with
      | none => cases starting
      | some found =>
        have op : found.lowerOp = .prefixOf := starting
        have starts := trimmed ⟨found, rfl, Or.inr (Or.inl op), by rw [op]; simp⟩
        simpa using owned_increment above starts 0
  · cases computed
    simpa using owned_increment above prefixStarts 0
  · cases computed
    intro range member
    rcases List.mem_cons.mp member with first | second
    · rw [first]
      exact owned_plain (le_of_starts prefixStarts) lowerStarts lowerNonempty 0
    · rw [List.mem_singleton.mp second]
      exact owned_increment beyond prefixStarts 0
  · cases computed
    simpa using cut _ 0 beyond
  · cases computed
    simpa using cut _ 0 above
  · cases computed

variable {raw : List MojDbKeyRange}

theorem boundsFromKeySets_owned {groupCount : Nat} {clause : Option WhereClause}
    (lower upper front : MojDbKey → MojDbKey) (keys : List MojDbKey)
    (each : ∀ key ∈ keys, ∀ index here,
      boundsFromKeys (lower key) (upper key) (front key) index groupCount clause = .ok here →
        ∀ range ∈ here, Owned stem range) (index : Nat)
    (computed : boundsFromKeySets groupCount clause index (keys.map lower) (keys.map upper)
      (keys.map front) = .ok raw) : ∀ range ∈ raw, Owned stem range := by
  induction keys generalizing index raw with
  | nil =>
    cases computed
    simp
  | cons key keys ih =>
    rw [List.map_cons, List.map_cons, List.map_cons, boundsFromKeySets] at computed
    rcases except_bind_ok computed with ⟨here, first, computed⟩
    rcases except_bind_ok computed with ⟨rest, later, same⟩
    cases same
    intro range member
    rcases List.mem_append.mp member with inHere | inRest
    · exact each key List.mem_cons_self index here first range inHere
    · exact ih (fun other inKeys => each other (List.mem_cons_of_mem _ inKeys)) (index + 1) later
        range inRest

variable {index : MojDbIndex} {query : MojDbQuery} {bound eqs : List (MojString × WhereClause)}
  {rest : List MojString}

theorem front_owned {front : MojDbKey} (member : front ∈ MojDbKeyBuilder.keys (frontSets index eqs)) :
    MojDbKey.assign index.id none <+: front := by
  rw [frontSets, MojDbKeyBuilder.mem_keys_iff, MojDbKeyBuilder.mem_product_cons] at member
  rcases member with ⟨id, idIn, tail, -, rfl⟩
  rw [(SortedSet.mem_single _ _).mp idIn]
  exact List.prefix_append _ _

theorem front_bounded {front : MojDbKey} (member : front ∈ MojDbKeyBuilder.keys (frontSets index eqs))
    (tail : MojDbKey) : successor (front ++ tail) ≠ [] :=
  word_successor_ne_nil (keys_words (codeSets_front index eqs) front member) tail

theorem pointwise_owned {clause : WhereClause} {vals : KeySet} {groupCount : Nat}
    (valCodes : ∀ code ∈ vals, code ∈ MojObjectWriter.codes)
    (computed : boundsFromKeySets groupCount (some clause) 0
      (MojDbKeyBuilder.keys (frontSets index eqs ++ [vals])).elems
      (MojDbKeyBuilder.keys (frontSets index eqs ++ [vals])).elems
      (MojDbKeyBuilder.keys (frontSets index eqs ++ [vals])).elems = .ok raw) :
    ∀ range ∈ raw, Owned (MojDbKey.assign index.id none) range := by
  have started : frontSets index eqs ≠ [] := List.cons_ne_nil _ _
  apply boundsFromKeySets_owned id id id _ _ 0 (by simpa only [List.map_id] using computed)
  intro key member number here bounds
  rcases (mem_keys_concat started vals key).mp member with ⟨front, frontIn, val, valIn, rfl⟩
  have starts := (front_owned frontIn).trans (List.prefix_append front val)
  have bounded := front_bounded frontIn val
  apply boundsFromKeys_owned starts bounded starts _ starts _ bounds
  · intro empty
    apply bounded
    rw [show front ++ val = [] from empty, successor_nil]
  · intro _
    rw [dropTerminator_append front (code_ne_nil (valCodes val valIn))]
    exact (front_owned frontIn).trans (List.prefix_append _ _)

theorem inequality_owned {clause : WhereClause} (inequality : clause.Inequality)
    {lower upper : MojDbKey} (upperIn : upper ∈ MojObjectWriter.codes)
    (computed : boundsFromKeySets 0 (some clause) 0
      ((MojDbKeyBuilder.keys (frontSets index eqs)).elems.map (· ++ lower))
      ((MojDbKeyBuilder.keys (frontSets index eqs)).elems.map (· ++ upper))
      (MojDbKeyBuilder.keys (frontSets index eqs)).elems = .ok raw) :
    ∀ range ∈ raw, Owned (MojDbKey.assign index.id none) range := by
  apply boundsFromKeySets_owned (· ++ lower) (· ++ upper) id _ _ 0
    (by simpa only [List.map_id] using computed)
  intro front frontIn number here bounds
  have starts := front_owned frontIn
  apply boundsFromKeys_owned (starts.trans (List.prefix_append _ _)) (front_bounded frontIn lower)
    (starts.trans (List.prefix_append _ _)) _ starts _ bounds
  · exact List.append_ne_nil_of_right_ne_nil _ (code_ne_nil upperIn)
  · rintro ⟨found, same, pointwise, notEq⟩
    cases same
    rcases pointwise with op | op | op
    · exact absurd op notEq
    · exact absurd op inequality.2.1
    · exact absurd op inequality.2.2

/-- Every range of a query that can be planned lies behind the id of its index. -/
theorem rawBounds_owned (answered : Answered index query bound rest)
    (plannable : Plannable query.whereClauses)
    (computed : rawBounds query.whereClauses index = .ok raw) :
    ∀ range ∈ raw, Owned (MojDbKey.assign index.id none) range := by
  rcases List.eq_nil_or_concat bound with rfl | ⟨eqs, last, rfl⟩
  · have pushed := pushClauses_bound index.locale [] answered.found answered.next_missing 0
      (by rw [Nat.zero_add]; exact answered.size)
      ⟨[index.idSet], [index.idSet], SortedSet.empty, none, 0⟩
    rw [← answered.names] at pushed
    simp only [rawBounds, pushed, bind, Except.bind, List.foldl_nil, SortedSet.elems_empty,
      if_true] at computed
    apply boundsFromKeySets_owned id id id _ _ 0 (by simpa only [List.map_id] using computed)
    intro key member number here bounds
    have frontIn : key ∈ MojDbKeyBuilder.keys (frontSets index []) := member
    have starts := front_owned frontIn
    have bounded := front_bounded frontIn []
    rw [List.append_nil] at bounded
    apply boundsFromKeys_owned starts bounded starts _ starts _ bounds
    · intro empty
      apply bounded
      rw [show key = [] from empty, successor_nil]
    · rintro ⟨found, same, -⟩
      cases same
  · rw [List.concat_eq_append] at answered
    have lastIn : last ∈ eqs ++ [last] := List.mem_append_right _ (List.mem_singleton.mpr rfl)
    have accepted := answered.accepted last lastIn
    rcases pushClauses_eq answered with ⟨before, reached⟩
    by_cases inequality : last.2.Inequality
    · have noSubString := plannable.1 last ((answered.mem_bound_iff last).mp lastIn)
      rcases inequality_vals index.locale accepted inequality noSubString with
        ⟨lower, upper, lowerVals, upperVals, lowerIn, upperIn, -⟩
      have pushed := pushClause_front index.locale inequality (frontSets index eqs) before
      rw [lowerVals, upperVals] at pushed
      have started : frontSets index eqs ≠ [] := List.cons_ne_nil _ _
      have codeSets := codeSets_front index eqs
      rw [pushed] at reached
      simp only [rawBounds, reached, frontKeys_ne_nil, if_false, bind, Except.bind,
        keys_concat_single started codeSets] at computed
      by_cases fronts : (MojDbKeyBuilder.keys (frontSets index eqs)).elems = []
      · rw [fronts] at computed
        cases computed
        simp
      · have kept : frontKeys (frontSets index eqs) = MojDbKeyBuilder.keys (frontSets index eqs) := by
          unfold frontKeys
          exact if_neg fronts
        rw [kept] at computed
        exact inequality_owned inequality upperIn computed
    · have pointwise : Pointwise last.2 := by
        unfold Pointwise
        simp only [WhereClause.Inequality, not_and_or, not_not] at inequality
        exact inequality
      rcases pushClause_pointwise index.locale accepted pointwise (frontSets index eqs) before with
        ⟨vals, groupCount, pushed, valCodes, -⟩
      rw [pushed] at reached
      simp only [rawBounds, reached, SortedSet.elems_empty, if_true, bind, Except.bind] at computed
      exact pointwise_owned valCodes computed

end Own

section Find

open IndexMirror
open MojDbKindEngine

def itemOf (kinds : KindMap) (objDb : SortedMap MojString MojObject) :
    MojObject → Option MojDbStorageItem
  | .string id =>
    match objDb.find id with
    | none => none
    | some obj =>
      match kindOf kinds obj with
      | .ok kind => some ⟨kind.id, obj⟩
      | .error _ => none
  | _ => none

def indexStore (engine : StorageEngine) (kinds : KindMap) (store : Store) : MojDbIndexStore :=
  ⟨engine, store.keys, itemOf kinds store.objDb⟩

/-- `MojDbKind::indexForQuery`: the first index that can answer. -/
def indexForQuery (indexes : List MojDbIndex) (query : MojDbQuery) : Option MojDbIndex :=
  indexes.find? fun index => index.canAnswer query

/-- An object that an index includes and whose values answer a planned query. -/
def Matches (index : MojDbIndex) (planned : MojDbQuery) (obj : MojObject) : Prop :=
  index.includeObj (some obj) = true ∧
    ∃ parts, List.Forall₂ (fun part vals => part ∈ vals) parts (index.vals obj) ∧
      index.Satisfies planned parts

theorem exists_key_iff {index : MojDbIndex} {planned : MojDbQuery} {ranges : List MojDbKeyRange}
    (exact : ∀ parts key, index.Spells parts key →
      ((∃ range ∈ ranges, range.contains key) ↔ index.Satisfies planned parts)) (obj : MojObject) :
    (∃ key ∈ index.contribution (some obj), ∃ range ∈ ranges, range.contains key) ↔
      Matches index planned obj := by
  constructor
  · rintro ⟨key, member, inside⟩
    rcases MojDbSearchCursor.contribution_spelled member with ⟨parts, members, spells⟩
    refine ⟨?_, parts, members, (exact parts key spells).mp inside⟩
    by_contra excluded
    rw [MojDbIndex.contribution, if_neg excluded] at member
    exact SortedSet.not_mem_empty key member
  · rintro ⟨included, parts, members, satisfies⟩
    refine ⟨_, ?_, (exact parts _ (index.spells_of_vals obj members)).mpr satisfies⟩
    rw [MojDbIndex.contribution, if_pos included, index.mem_getKeys]
    exact ⟨parts, members, rfl⟩

variable {kinds : KindMap} {store : Store}

theorem mem_indexesOf {kind : MojDbKind} (member : kind ∈ kinds.kinds) :
    indexesOf kinds kind.id = kind.indexes := by
  rw [indexesOf, (KindMap.mem_kinds_iff kinds kind).mp member]
  rfl

theorem keysOf_mirrors (well : WellIndexed kinds) (mirrors : Mirrors kinds store) :
    KeysOf (kinds.kinds.flatMap MojDbKind.indexes) store.keys where
  spelled := by
    intro key member
    rcases (mirrors.keys key).mp member with ⟨oid, obj, -, kind, -, id, -, index, own, keyed⟩
    rcases MojDbSearchCursor.contribution_spelled keyed with ⟨parts, -, spells⟩
    refine ⟨index, List.mem_flatMap.mpr ?_, parts, spells⟩
    unfold indexesOf at own
    cases found : kinds.find id with
    | none => simp [found] at own
    | some holder =>
      rw [found] at own
      have here : kinds.find holder.id = some holder := by rw [KindMap.find_id found, found]
      exact ⟨holder, (KindMap.mem_kinds_iff kinds holder).mpr here, own⟩
  ids := by
    rw [List.map_flatMap, List.nodup_flatMap]
    constructor
    · intro kind member
      rw [← mem_indexesOf member]
      exact well.nodup kind.id
    · have apart := kinds.ids_nodup
      rw [KindMap.ids, List.Nodup, List.pairwise_map] at apart
      refine apart.imp_of_mem ?_
      intro kind other member otherIn differ
      rw [Function.onFun, List.disjoint_left]
      intro id idIn otherId
      rcases List.mem_map.mp idIn with ⟨index, own, rfl⟩
      rcases List.mem_map.mp otherId with ⟨second, secondOwn, same⟩
      rw [← mem_indexesOf member] at own
      rw [← mem_indexesOf otherIn] at secondOwn
      exact differ (well.apart _ _ index own second secondOwn same.symm)

theorem getVal_mirrors (well : WellIndexed kinds) (mirrors : Mirrors kinds store)
    (engine : StorageEngine) {id oid : MojString} {index : MojDbIndex}
    (own : index ∈ indexesOf kinds id) {obj : MojObject} {kind : MojDbKind}
    (stored : store.objDb.find oid = some obj) (found : kindOf kinds obj = .ok kind)
    {key : MojDbKey} (keyed : key ∈ index.contribution (some obj)) :
    getVal (indexStore engine kinds store) [] index.idIndex key = .ok (some ⟨kind.id, obj⟩) := by
  have parsed := MojDbSearchCursor.parseId_plain (well.plain id index own)
    (mirrors.named oid obj stored) (by trivial) (by simp [MojObject.type]) keyed
  unfold getVal
  rw [parsed]
  simp only [bind, Except.bind, Option.getD_some, getById, indexStore, itemOf, stored, found,
    List.not_mem_nil, if_false]

theorem collect_hits {feed : Feed} (keys : List MojDbKey)
    (looks : ∀ key ∈ keys, ∃ item, feed.look key = .ok (some item)) :
    ∃ items, collect (feed.hits keys) = .ok items ∧
      ∀ item, item ∈ items ↔ ∃ key ∈ keys, feed.look key = .ok (some item) := by
  induction keys with
  | nil => exact ⟨[], rfl, by simp⟩
  | cons key keys ih =>
    rcases ih fun other member => looks other (List.mem_cons_of_mem _ member) with
      ⟨items, rest, members⟩
    rcases looks key List.mem_cons_self with ⟨item, look⟩
    have here : feed.hit key = some (key, .ok item) := by
      unfold Feed.hit
      rw [look]
    refine ⟨item :: items, ?_, ?_⟩
    · unfold Feed.hits at rest ⊢
      rw [List.filterMap_cons, here]
      simp only [collect, rest, Except.map]
    · intro other
      rw [List.mem_cons, members, List.exists_mem_cons_iff, look, Except.ok.injEq,
        Option.some.injEq, @eq_comm _ other item]

theorem found_mirrors (well : WellIndexed kinds) (mirrors : Mirrors kinds store)
    (engine : StorageEngine) {id : MojString} {index : MojDbIndex} {query : MojDbQuery}
    (own : index ∈ indexesOf kinds id) (answers : index.canAnswer query = true)
    (plannable : Plannable query.whereClauses) (firstPage : query.page = [])
    (noDistinct : query.distinct = []) (positive : 1 ≤ query.limit.toNat) :
    ∃ planned enough, planQuery query index = .ok planned ∧ ∀ pages, enough ≤ pages →
      ∃ items, (findPages (indexStore engine kinds store) index pages query).map List.flatten =
          .ok items ∧
        ∀ item, item ∈ items ↔ ∃ oid kind, store.objDb.find oid = some item.obj ∧
          kindOf kinds item.obj = .ok kind ∧ kind.id = item.kindId ∧
          Reaches (supersOf kinds) kind.id id ∧ Matches index planned item.obj := by
  rcases init_spec answers with ⟨planned, bound, rest, planning, answered, from_, builds, -⟩
  rcases builds plannable with ⟨plan, ranges, built, -, spec, rangesEq⟩
  rcases init_pages answers built with ⟨raw, cut⟩
  have cutFrom : CutFrom index query raw := cut
  let found := indexStore engine kinds store
  rcases cutFrom.opens found query.page query.limit with ⟨paged, pagedBuilt, -, keysEq, -⟩
  have samePlan : paged = plan := Except.ok.inj (pagedBuilt.symm.trans built)
  rw [samePlan, covered_keys] at keysEq
  -- The ranges of the plan are those of its specification, met in the other order when descending.
  have sameRanges : ∀ key, (∃ range ∈ plan.ranges, range.contains key) ↔
      ∃ range ∈ ranges, range.contains key := by
    intro key
    rw [rangesEq]
    split_ifs <;> simp
  have exact : ∀ parts key, index.Spells parts key →
      ((∃ range ∈ plan.ranges, range.contains key) ↔ index.Satisfies planned parts) := by
    intro parts key spells
    rw [sameRanges, spec.exact parts key spells]
    simp [OnPage, from_.page, firstPage]
  have starts : ∀ key, (∃ range ∈ plan.ranges, range.contains key) →
      MojDbKey.assign index.id none <+: key := by
    intro key inside
    rcases spec.clipped with ⟨bounds, computed, clipped⟩
    rcases ((clipped key).mp ((sameRanges key).mp inside)).1 with ⟨range, member, contained⟩
    exact rawBounds_owned answered (from_.plannable_iff.mpr plannable) computed range member key
      contained
  have members : ∀ key, key ∈ pageKeys found query.desc raw query.page ↔
      ∃ oid obj kind, store.objDb.find oid = some obj ∧ kindOf kinds obj = .ok kind ∧
        Reaches (supersOf kinds) kind.id id ∧ key ∈ index.contribution (some obj) ∧
        ∃ range ∈ plan.ranges, range.contains key := by
    intro key
    rw [← keysEq, List.mem_filter, mem_line, decide_eq_true_eq, ← SortedSet.mem_def]
    constructor
    · rintro ⟨keyIn, inside⟩
      rcases (mirrors.mem_index well own (starts key inside)).mp keyIn with
        ⟨oid, obj, kind, stored, known, reaches, keyed⟩
      exact ⟨oid, obj, kind, stored, known, reaches, keyed, inside⟩
    · rintro ⟨oid, obj, kind, stored, known, reaches, keyed, inside⟩
      exact ⟨(mirrors.mem_index well own (starts key inside)).mpr
        ⟨oid, obj, kind, stored, known, reaches, keyed⟩, inside⟩
  have looks : ∀ key ∈ pageKeys found query.desc raw query.page,
      ∃ item, (findFeed found index query).look key = .ok (some item) := by
    intro key member
    rcases (members key).mp member with ⟨oid, obj, kind, stored, known, -, keyed, -⟩
    exact ⟨⟨kind.id, obj⟩, getVal_mirrors well mirrors engine own stored known keyed⟩
  rcases collect_hits _ looks with ⟨items, collected, itemsEq⟩
  refine ⟨planned, (pageHits found index query raw query.page).length + 1, planning, ?_⟩
  intro pages enough
  refine ⟨items, ?_, ?_⟩
  · have stored : KeysOf (kinds.kinds.flatMap MojDbKind.indexes) found.keys :=
      keysOf_mirrors well mirrors
    have served := findPages_serveAll cutFrom stored positive pages query.page
    exact served.trans ((Feed.serveAll_plain noDistinct positive pages _ enough).trans collected)
  · intro item
    rw [itemsEq]
    constructor
    · rintro ⟨key, member, look⟩
      rcases (members key).mp member with ⟨oid, obj, kind, stored, known, reaches, keyed, inside⟩
      have looked := getVal_mirrors well mirrors engine own stored known keyed
      have same : item = ⟨kind.id, obj⟩ := by
        have both := look.symm.trans looked
        rwa [Except.ok.injEq, Option.some.injEq] at both
      subst same
      exact ⟨oid, kind, stored, known, rfl, reaches,
        (exists_key_iff exact obj).mp ⟨key, keyed, inside⟩⟩
    · rintro ⟨oid, kind, stored, known, named, reaches, here⟩
      rcases (exists_key_iff exact item.obj).mpr here with ⟨key, keyed, inside⟩
      refine ⟨key, (members key).mpr ⟨oid, item.obj, kind, stored, known, reaches, keyed, inside⟩, ?_⟩
      have looked := getVal_mirrors well mirrors engine own stored known keyed
      rw [named] at looked
      exact looked

end Find

open IndexMirror
open MojDbKindEngine

/-- After any run of transactions a find returns, page by page, exactly the stored objects of its kind
and of the kinds that extend it whose values answer the where clauses. -/
theorem find_returns_matches (kinds : KindMap) (rest : Rest) (well : WellIndexed kinds)
    (first last : System) (events : List Event) (sound : Sound kinds first)
    (fits : Steps.Throughout (step kinds rest) Fits events first)
    (ran : Steps.run (step kinds rest) events first = some last) (store : Store)
    (seen : store = last.committed ∨ store = last.view) (engine : StorageEngine) (id : MojString)
    (index : MojDbIndex) (query : MojDbQuery)
    (chosen : indexForQuery (indexesOf kinds id) query = some index)
    (plannable : Plannable query.whereClauses) (firstPage : query.page = [])
    (noDistinct : query.distinct = []) (positive : 1 ≤ query.limit.toNat) :
    ∃ planned enough, planQuery query index = .ok planned ∧ ∀ pages, enough ≤ pages →
      ∃ items, (findPages (indexStore engine kinds store) index pages query).map List.flatten =
          .ok items ∧
        ∀ item, item ∈ items ↔ ∃ oid kind, store.objDb.find oid = some item.obj ∧
          kindOf kinds item.obj = .ok kind ∧ kind.id = item.kindId ∧
          Reaches (supersOf kinds) kind.id id ∧ Matches index planned item.obj := by
  have reached := sound.run well fits ran
  have mirrors : Mirrors kinds store := by
    rcases seen with here | here
    · rw [here]
      exact reached.committed
    · rw [here]
      exact reached.view
  have own := List.mem_of_find?_eq_some chosen
  have answers := List.find?_some chosen
  exact found_mirrors well mirrors engine own answers plannable firstPage noDistinct positive

/-- The notes that are left, by a query on `a`. -/
theorem find_returns_notes : ∃ last,
    Steps.run (step noteKinds plainRest) noteEvents emptySystem = some last ∧
    ∃ planned enough, planQuery orderedQuery twoPropIndex = .ok planned ∧
      ∀ pages, enough ≤ pages →
        ∃ items, (findPages (indexStore .level noteKinds last.committed) twoPropIndex pages
            orderedQuery).map List.flatten = .ok items ∧
          ∀ item, item ∈ items ↔ ∃ oid kind, last.committed.objDb.find oid = some item.obj ∧
            kindOf noteKinds item.obj = .ok kind ∧ kind.id = item.kindId ∧
            Reaches (supersOf noteKinds) kind.id noteId ∧
            Matches twoPropIndex planned item.obj := by
  have ends : ((Steps.run (step noteKinds plainRest) noteEvents emptySystem).map fun last =>
      last.committed.keys.elems.length) = some 1 := by decide +kernel
  rcases Option.map_eq_some_iff.mp ends with ⟨last, ran, -⟩
  refine ⟨last, ran, ?_⟩
  apply find_returns_matches noteKinds plainRest wellIndexed_noteKinds emptySystem last noteEvents
    (sound_emptySystem noteKinds) _ ran last.committed (Or.inl rfl) .level noteId twoPropIndex
    orderedQuery _ _ rfl rfl (by decide)
  · decide +kernel
  · rw [indexesOf_noteKinds, if_pos rfl]
    rfl
  · exact ⟨by simp [orderedQuery], by simp [orderedQuery]⟩

end Db8.Db.FindObjects
