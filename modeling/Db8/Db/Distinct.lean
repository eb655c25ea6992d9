import Db8.Bytes.Runs
import Db8.Db.PagingExact

/-!
# Distinct finds

A find with a distinct property leaves out an object that has the value of the object kept before
it. What is kept does not outlive a page, so a run of equal values that goes on behind the end of a
page is delivered once more on the next one.
-/

set_option autoImplicit false

namespace Db8.Db

open Db8.Bytes
open Db8.Core

namespace MojDbIsamQuery

open MojDbQueryPlan

def valueOf (propName : MojString) (hit : Hit) : Except MojErr MojObject :=
  hit.2.bind fun item => getRequired item.obj propName

namespace Feed

variable {feed : Feed}

def KeptVal (feed : Feed) : Option MojObject → Option MojObject → Prop
  | none, none => True
  | some obj, some val => getRequired obj feed.distinct = .ok val
  | _, _ => False

theorem accept_distinct (distinct : feed.distinct ≠ []) {last lastVal : Option MojObject}
    (keptVal : feed.KeptVal last lastVal) {obj val : MojObject}
    (value : getRequired obj feed.distinct = .ok val) :
    feed.accept last obj = .ok (decide (lastVal ≠ some val)) := by
  unfold accept
  rw [if_neg distinct, value]
  cases last with
  | none =>
    cases lastVal with
    | none => rfl
    | some other => cases keptVal
  | some kept =>
    cases lastVal with
    | none => cases keptVal
    | some other =>
      have required : getRequired kept feed.distinct = .ok other := keptVal
      simp [required, bind, Except.bind]

theorem serve_readPage (distinct : feed.distinct ≠ []) (room : Nat)
    {last lastVal : Option MojObject} (keptVal : feed.KeptVal last lastVal) {found : List Hit}
    {vals : List MojObject} (values : found.map (valueOf feed.distinct) = vals.map .ok) :
    ∃ page, feed.serve room last found = .ok page ∧
      page.delivered.map (valueOf feed.distinct) = (readPage room lastVal vals).1.map .ok ∧
      page.rest.map (valueOf feed.distinct) = (readPage room lastVal vals).2.map .ok := by
  induction found generalizing room last lastVal vals with
  | nil =>
    cases vals with
    | cons val vals => cases values
    | nil => cases room <;> exact ⟨⟨[], []⟩, rfl, rfl, rfl⟩
  | cons hit found ih =>
    cases vals with
    | nil => cases values
    | cons val vals =>
      cases room with
      | zero => exact ⟨⟨[], hit :: found⟩, rfl, rfl, values⟩
      | succ room =>
        rw [List.map_cons, List.map_cons, List.cons.injEq] at values
        rcases values with ⟨here, later⟩
        rcases hit with ⟨key, result⟩
        cases result with
        | error err => cases here
        | ok item =>
          have value : getRequired item.obj feed.distinct = .ok val := here
          rw [serve, readPage]
          simp only [accept_distinct distinct keptVal value]
          by_cases same : lastVal = some val
          · simp only [same, ne_eq, not_true_eq_false, decide_false, if_true]
            exact ih (room + 1) (same ▸ keptVal) later
          · simp only [same, ne_eq, not_false_eq_true, decide_true, if_false]
            have keeps : feed.KeptVal (feed.keep last item.obj) (some val) := by
              rw [keep, if_neg distinct]
              exact value
            rcases ih room keeps later with ⟨page, served, delivered, rest⟩
            refine ⟨⟨(key, .ok item) :: page.delivered, page.rest⟩, ?_, ?_, rest⟩
            · rw [served]
              rfl
            · rw [List.map_cons, List.map_cons, delivered, here]

theorem readPage_length (room : Nat) (last : Option MojObject) (vals : List MojObject) :
    (readPage room last vals).1.length + (readPage room last vals).2.length ≤ vals.length := by
  induction vals generalizing room last with
  | nil => cases room <;> simp [readPage]
  | cons head tail ih =>
    cases room with
    | zero => simp [readPage]
    | succ room =>
      rw [readPage]
      split_ifs
      · exact Nat.le_succ_of_le (ih (room + 1) last)
      · have later := ih room (some head)
        simp only [List.length_cons]
        omega

theorem serveAll_readPages (distinct : feed.distinct ≠ []) (positive : 1 ≤ feed.limit)
    (pages : Nat) {found : List Hit} {vals : List MojObject}
    (values : found.map (valueOf feed.distinct) = vals.map .ok) (enough : vals.length < pages) :
    ∃ hits, feed.serveAll pages found = .ok hits ∧ hits.map (valueOf feed.distinct) =
      (readPages feed.limit (feed.limit - 1) none vals).map .ok := by
  induction pages generalizing found vals with
  | zero => exact absurd enough (Nat.not_lt_zero _)
  | succ pages ih =>
    have started : feed.KeptVal none none := True.intro
    rcases serve_readPage distinct feed.limit started values with
      ⟨page, served, delivered, rest⟩
    have length : page.delivered.length = (readPage feed.limit none vals).1.length := by
      have lengths := congrArg List.length delivered
      rwa [List.length_map, List.length_map] at lengths
    rw [serveAll, served, readPages_eq, Nat.sub_add_cancel positive]
    simp only [bind, Except.bind]
    by_cases full : (readPage feed.limit none vals).1.length = feed.limit
    · have shorter : (readPage feed.limit none vals).2.length < pages := by
        have bound := readPage_length feed.limit none vals
        omega
      rcases ih rest shorter with ⟨later, ran, laterVals⟩
      have reached : feed.limit ≤ page.delivered.length := by omega
      refine ⟨page.delivered ++ later, ?_, ?_⟩
      · simp only [reached, if_true, ran]
      · rw [if_pos full, List.map_append, List.map_append, delivered, laterVals]
    · have bound := serve_length feed.limit served
      have short : ¬ feed.limit ≤ page.delivered.length := by omega
      refine ⟨page.delivered, ?_, ?_⟩
      · simp only [short, if_false]
      · rw [if_neg full, List.append_nil, delivered]

theorem serve_values (distinct : feed.distinct ≠ []) (room : Nat) {last : Option MojObject}
    {found : List Hit} {page : Served} (served : feed.serve room last found = .ok page) :
    ∃ (before : List Hit) (vals : List MojObject), found = before ++ page.rest ∧
      before.map (valueOf feed.distinct) = vals.map .ok ∧
      (page.delivered.length < room → page.rest = []) := by
  induction found generalizing room last page with
  | nil =>
    cases room with
    | zero =>
      rw [serve, Except.ok.injEq] at served
      rw [← served]
      exact ⟨[], [], rfl, rfl, fun _ => rfl⟩
    | succ room =>
      rw [serve, Except.ok.injEq] at served
      rw [← served]
      exact ⟨[], [], rfl, rfl, fun _ => rfl⟩
  | cons hit found ih =>
    cases room with
    | zero =>
      rw [serve, Except.ok.injEq] at served
      rw [← served]
      exact ⟨[], [], rfl, rfl, fun short => absurd short (Nat.not_lt_zero _)⟩
    | succ room =>
      rcases hit with ⟨key, result⟩
      rw [serve] at served
      cases result with
      | error err => cases served
      | ok item =>
        simp only at served
        cases required : getRequired item.obj feed.distinct with
        | error err =>
          have refused : feed.accept last item.obj = .error err := by
            rw [accept, if_neg distinct, required]
            rfl
          simp [refused] at served
        | ok val =>
          have here : valueOf feed.distinct (key, .ok item) = .ok val := required
          cases accepted : feed.accept last item.obj with
          | error err => simp [accepted] at served
          | ok fresh =>
            cases fresh with
            | false =>
              simp only [accepted] at served
              rcases ih (room + 1) served with ⟨before, vals, split, values, stop⟩
              refine ⟨(key, .ok item) :: before, val :: vals, ?_, ?_, stop⟩
              · rw [split, List.cons_append, ← split]
              · rw [List.map_cons, List.map_cons, here, values]
            | true =>
              simp only [accepted] at served
              cases later : feed.serve room (feed.keep last item.obj) found with
              | error err => simp [later, Except.map] at served
              | ok rest =>
                simp only [later, Except.map, Except.ok.injEq] at served
                rcases ih room later with ⟨before, vals, split, values, stop⟩
                rw [← served]
                refine ⟨(key, .ok item) :: before, val :: vals, ?_, ?_, ?_⟩
                · rw [List.cons_append, ← split]
                · rw [List.map_cons, List.map_cons, here, values]
                · intro short
                  exact stop (Nat.lt_of_succ_lt_succ short)

theorem serveAll_values (distinct : feed.distinct ≠ []) (pages : Nat) {found hits : List Hit}
    (served : feed.serveAll pages found = .ok hits) :
    ∃ vals : List MojObject, found.map (valueOf feed.distinct) = vals.map .ok := by
  induction pages generalizing found hits with
  | zero => cases served
  | succ pages ih =>
    rw [serveAll] at served
    cases first : feed.serve feed.limit none found with
    | error err => simp [first, bind, Except.bind] at served
    | ok page =>
      rcases serve_values distinct feed.limit first with ⟨before, vals, split, values, stop⟩
      simp only [first, bind, Except.bind] at served
      by_cases full : feed.limit ≤ page.delivered.length
      · cases rest : feed.serveAll pages page.rest with
        | error err => simp [full, rest] at served
        | ok later =>
          rcases ih rest with ⟨others, otherVals⟩
          refine ⟨vals ++ others, ?_⟩
          rw [split, List.map_append, List.map_append, values, otherVals]
      · rw [stop (not_le.mp full), List.append_nil] at split
        exact ⟨vals, split ▸ values⟩

theorem serveAll_unique {pages more : Nat} {found hits others : List Hit}
    (served : feed.serveAll pages found = .ok hits) (again : feed.serveAll more found = .ok others) :
    hits = others := by
  induction pages generalizing more found hits others with
  | zero => cases served
  | succ pages ih =>
    cases more with
    | zero => cases again
    | succ more =>
      rw [serveAll] at served again
      cases first : feed.serve feed.limit none found with
      | error err => simp [first, bind, Except.bind] at served
      | ok page =>
        simp only [first, bind, Except.bind] at served again
        by_cases full : feed.limit ≤ page.delivered.length
        · simp only [full, if_true] at served again
          cases rest : feed.serveAll pages page.rest with
          | error err => simp [rest] at served
          | ok later =>
            cases restAgain : feed.serveAll more page.rest with
            | error err => simp [restAgain] at again
            | ok laterAgain =>
              simp only [rest, restAgain, Except.ok.injEq] at served again
              rw [← served, ← again, ih rest restAgain]
        · simp only [full, if_false, Except.ok.injEq] at served again
          rw [← served, ← again]

end Feed

/-- What the keys in a plan's ranges lead to, in scan order. -/
def matched (store : MojDbIndexStore) (plan : MojDbQueryPlan) : List Hit :=
  (planFeed store plan []).hits ((covered store plan).map Prod.fst)

/-- Page by page, each value of the matching objects is returned exactly once. -/
def DistinctExact (store : MojDbIndexStore) (index : MojDbIndex) (query : MojDbQuery)
    (plan : MojDbQueryPlan) : Prop :=
  ∃ (enough : Nat) (items : List MojDbStorageItem) (vals : List MojObject),
    (∀ pages, enough ≤ pages →
      (findPages store index pages query).map List.flatten = .ok items) ∧
    (items.map fun item => getRequired item.obj query.distinct) = vals.map .ok ∧ vals.Nodup ∧
    ∀ val, val ∈ vals ↔ ∃ key item, (key, .ok item) ∈ matched store plan ∧
      getRequired item.obj query.distinct = .ok val

theorem collect_values {propName : MojString} {found : List Hit} {vals : List MojObject}
    (values : found.map (valueOf propName) = vals.map .ok) :
    ∃ items, collect found = .ok items ∧
      (items.map fun item => getRequired item.obj propName) = vals.map .ok := by
  induction found generalizing vals with
  | nil =>
    cases vals with
    | nil => exact ⟨[], rfl, rfl⟩
    | cons val vals => cases values
  | cons hit found ih =>
    cases vals with
    | nil => cases values
    | cons val vals =>
      rw [List.map_cons, List.map_cons, List.cons.injEq] at values
      rcases ih values.2 with ⟨items, collected, itemVals⟩
      rcases hit with ⟨key, result⟩
      cases result with
      | error err => cases values.1
      | ok item =>
        refine ⟨item :: items, ?_, ?_⟩
        · rw [collect, collected]
          rfl
        · rw [List.map_cons, List.map_cons, itemVals]
          exact congrArg₂ List.cons values.1 rfl

theorem ok_map_injective {left right : List MojObject}
    (same : left.map (Except.ok : MojObject → Except MojErr MojObject) = right.map .ok) :
    left = right :=
  List.map_injective_iff.mpr (fun _ _ => Except.ok.inj) same

/-- A distinct find is exact if and only if every matching object has the property, objects with the
same value are met one after the other, and no page ends within such a run. -/
theorem distinct_exact_iff_aligned (indexes : List MojDbIndex) (store : MojDbIndexStore)
    (index : MojDbIndex) (query : MojDbQuery) (plan : MojDbQueryPlan)
    (stored : KeysOf indexes store.keys) (answers : index.canAnswer query = true)
    (built : init query index = .ok plan) (distinct : query.distinct ≠ [])
    (positive : 1 ≤ query.limit.toNat) :
    DistinctExact store index query plan ↔
      ∃ vals : List MojObject,
        (matched store plan).map (valueOf query.distinct) = vals.map .ok ∧
        ((runs vals).map Prod.fst).Nodup ∧
        ∀ place run, (runs vals)[place]? = some run → query.limit.toNat ∣ place + 1 →
          run.2 = 1 := by
  rcases init_pages answers built with ⟨raw, cut⟩
  have cutFrom : CutFrom index query raw := cut
  rcases cutFrom.opens store query.page query.limit with ⟨paged, pagedBuilt, feedEq, keysEq, _⟩
  have samePlan : paged = plan := Except.ok.inj (pagedBuilt.symm.trans built)
  rw [samePlan] at feedEq keysEq
  have hits : matched store plan = pageHits store index query raw query.page := by
    rw [matched, feedEq, keysEq]
    rfl
  have pagesEq : ∀ pages, (findPages store index pages query).map List.flatten =
      ((findFeed store index query).serveAll pages (matched store plan)).bind collect := by
    intro pages
    rw [hits]
    exact findPages_serveAll cutFrom stored positive pages query.page
  have feedDistinct : (findFeed store index query).distinct ≠ [] := distinct
  have feedPositive : 1 ≤ (findFeed store index query).limit := positive
  have reads : ∀ vals : List MojObject,
      (matched store plan).map (valueOf query.distinct) = vals.map .ok → ∀ pages,
        vals.length < pages → ∃ items,
          (findPages store index pages query).map List.flatten = .ok items ∧
          (items.map fun item => getRequired item.obj query.distinct) =
            (readPages query.limit.toNat (query.limit.toNat - 1) none vals).map .ok := by
    intro vals values pages enough
    rcases Feed.serveAll_readPages feedDistinct feedPositive pages values enough with
      ⟨found, served, foundVals⟩
    rcases collect_values foundVals with ⟨items, collected, itemVals⟩
    refine ⟨items, ?_, itemVals⟩
    rw [pagesEq, served]
    exact collected
  constructor
  · intro exact
    rcases exact with ⟨enough, items, itemVals, pagesOk, itemsEq, nodup, _⟩
    have ran := pagesOk enough (Nat.le_refl _)
    rw [pagesEq] at ran
    cases served : (findFeed store index query).serveAll enough (matched store plan) with
    | error err => simp [served, Except.bind] at ran
    | ok found =>
      rcases Feed.serveAll_values feedDistinct enough served with ⟨vals, values⟩
      refine ⟨vals, values, ?_⟩
      apply (readPages_nodup_iff positive vals).mp
      rcases reads vals values (max enough (vals.length + 1)) (by omega) with
        ⟨others, otherRan, otherVals⟩
      rw [pagesOk _ (le_max_left _ _), Except.ok.injEq] at otherRan
      rw [← otherRan, itemsEq] at otherVals
      rw [← ok_map_injective otherVals]
      exact nodup
  · intro condition
    rcases condition with ⟨vals, values, single⟩
    have nodup := (readPages_nodup_iff positive vals).mpr single
    rcases reads vals values (vals.length + 1) (Nat.lt_succ_self _) with ⟨items, ran, itemVals⟩
    refine ⟨vals.length + 1, items, _, ?_, itemVals, nodup, ?_⟩
    · intro pages enough
      rcases Feed.serveAll_readPages feedDistinct feedPositive pages values enough with
        ⟨found, served, foundVals⟩
      rcases Feed.serveAll_readPages feedDistinct feedPositive (vals.length + 1) values
        (Nat.lt_succ_self _) with ⟨first, firstServed, firstVals⟩
      rw [pagesEq, firstServed] at ran
      rw [pagesEq, served]
      have same := Feed.serveAll_unique served firstServed
      rw [same]
      exact ran
    · intro val
      have inVals : val ∈ readPages query.limit.toNat (query.limit.toNat - 1) none vals ↔
          val ∈ vals := by
        constructor
        · exact fun member => readPages_subset _ _ _ _ member
        · intro member
          rcases mem_readPages query.limit.toNat (query.limit.toNat - 1) none vals val member with
            read | nothing
          · exact read
          · cases nothing
      rw [inVals]
      have okIn : val ∈ vals ↔ Except.ok val ∈ (matched store plan).map (valueOf query.distinct) := by
        rw [values, List.mem_map]
        constructor
        · intro member
          exact ⟨val, member, rfl⟩
        · intro found
          rcases found with ⟨other, otherIn, same⟩
          rw [Except.ok.injEq] at same
          exact same ▸ otherIn
      rw [okIn, List.mem_map]
      constructor
      · intro found
        rcases found with ⟨hit, hitIn, value⟩
        rcases hit with ⟨key, result⟩
        cases result with
        | error err => cases value
        | ok item => exact ⟨key, item, hitIn, value⟩
      · intro found
        rcases found with ⟨key, item, hitIn, value⟩
        exact ⟨(key, .ok item), hitIn, value⟩

section Instances

def distinctKey (val : MojObject) (id : MojString) : MojDbKey :=
  MojDbKey.assign (.int 7) none ++ MojDbKey.assign (.int 1) none ++ MojDbKey.assign val none ++
    MojDbKey.assign (.string id) none

/-- Two objects `x` and `y` with `a = 1` and a value of `b` each. -/
def distinctStore (left right : MojObject) : MojDbIndexStore where
  engine := .level
  keys := SortedSet.ofList [distinctKey left (chars ['x']), distinctKey right (chars ['y'])]
  joinDb id := some ⟨chars ['K'],
    .object [(chars ['b'], if id = .string (chars ['x']) then left else right)]⟩

/-- Distinct values of `b`, one on each page. -/
def distinctQuery : MojDbQuery := { orderedQuery with distinct := chars ['b'], limit := 1 }

def distinctPlan : MojDbQueryPlan := { orderedPlan with query := distinctQuery }

theorem distinctStore_keysOf (left right : MojObject) :
    KeysOf [twoPropIndex] (distinctStore left right).keys where
  spelled := by
    have spells : ∀ val id, ∃ parts, twoPropIndex.Spells parts (distinctKey val id) := by
      intro val id
      refine ⟨[MojDbKey.assign (.int 1) none, MojDbKey.assign val none,
        MojDbKey.assign (.string id) none], rfl, ?_, ?_⟩
      · simp [MojDbKey.assign_mem_codes]
      · simp only [List.flatten_cons, List.flatten_nil, List.append_nil, distinctKey,
          List.append_assoc]
        rfl
    intro key member
    refine ⟨twoPropIndex, List.mem_singleton.mpr rfl, ?_⟩
    rcases List.mem_cons.mp ((SortedSet.mem_ofList _ _).mp member) with first | others
    · rw [first]
      exact spells left (chars ['x'])
    · rw [List.mem_singleton.mp others]
      exact spells right (chars ['y'])
  ids := List.nodup_singleton _

theorem distinctQuery_exact : DistinctExact (distinctStore (.int 5) (.int 2)) twoPropIndex
    distinctQuery distinctPlan := by
  apply (distinct_exact_iff_aligned [twoPropIndex] (distinctStore (.int 5) (.int 2)) twoPropIndex
    distinctQuery distinctPlan (distinctStore_keysOf _ _) (by decide) rfl (by decide)
    (by decide)).mpr
  refine ⟨[.int 2, .int 5], rfl, by decide, ?_⟩
  intro place run found _
  have single : ∀ run ∈ runs [MojObject.int 2, .int 5], run.2 = 1 := by decide
  exact single run (List.mem_of_getElem? found)

/-- Two objects with the same value are both returned when a page ends between them. -/
theorem distinctQuery_repeats :
    KeysOf [twoPropIndex] (distinctStore (.int 5) (.int 5)).keys ∧
    twoPropIndex.canAnswer distinctQuery = true ∧
    init distinctQuery twoPropIndex = .ok distinctPlan ∧ distinctQuery.distinct ≠ [] ∧
    distinctQuery.order = distinctQuery.distinct ∧ 1 ≤ distinctQuery.limit.toNat ∧
    ¬ DistinctExact (distinctStore (.int 5) (.int 5)) twoPropIndex distinctQuery distinctPlan := by
  refine ⟨distinctStore_keysOf _ _, by decide, rfl, by decide, rfl, by decide, ?_⟩
  intro exact
  rcases exact with ⟨enough, items, vals, ran, itemVals, nodup, _⟩
  have three := ran (enough + 3) (Nat.le_add_right _ _)
  have both : (findPages (distinctStore (.int 5) (.int 5)) twoPropIndex (enough + 3)
      distinctQuery).map List.flatten =
      .ok [⟨chars ['K'], .object [(chars ['b'], .int 5)]⟩,
        ⟨chars ['K'], .object [(chars ['b'], .int 5)]⟩] := rfl
  rw [both, Except.ok.injEq] at three
  rw [← three] at itemVals
  have fives : [MojObject.int 5, .int 5].map
      (Except.ok : MojObject → Except MojErr MojObject) = vals.map .ok := itemVals
  have repeated : vals = [.int 5, .int 5] := (ok_map_injective fives).symm
  rw [repeated] at nodup
  exact absurd nodup (by decide)

end Instances

end MojDbIsamQuery

end Db8.Db
