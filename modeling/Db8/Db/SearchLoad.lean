import Db8.Db.QueryFilter
import Db8.Db.SearchPaging
import Db8.Sorting.QuickSort

/-!
# Loading the results of a search

`MojDbSearchCursor::load` over the objects found: each gets the set of its sort keys, the items are
sorted by these sets, of items with equal sets one is left for a distinct query, and the order is
turned round for a descending one. The sets compare as the sequences of their keys. Sets of keys are
made with any collator; the pivots of the sort come from a generator that is given the left bound.
-/

set_option autoImplicit false

namespace Db8.Db.MojDbSearchCursor

open Db8.Bytes
open Db8.Core
open Db8.Sorting

section Keys

/-- `MojRbTreeBase::compare` over the keys of two sets. -/
def compareKeys : List MojDbKey → List MojDbKey → Int
  | [], [] => 0
  | [], _ :: _ => -1
  | _ :: _, [] => 1
  | key :: rest, compKey :: compRest =>
    if key < compKey then -1 else if compKey < key then 1 else compareKeys rest compRest

theorem compareKeys_spec (keys comp : List MojDbKey) :
    (compareKeys keys comp < 0 ↔ keys < comp) ∧ (compareKeys keys comp = 0 ↔ keys = comp) := by
  induction keys generalizing comp with
  | nil => cases comp <;> simp [compareKeys]
  | cons key rest ih =>
    cases comp with
    | nil => simp [compareKeys]
    | cons compKey compRest =>
      rw [compareKeys, List.cons_lt_cons_iff, List.cons_eq_cons]
      rcases lt_trichotomy key compKey with below | rfl | above
      · simp [below, below.ne]
      · simp [ih compRest]
      · simp [above, not_lt_of_gt above, above.ne']

end Keys

/-- What `init` and `find` leave in the cursor: the filter, `m_orderProp`, `m_distinct`, `m_limit`,
whether the query is descending, `m_collation`, and the locale. -/
structure Search where
  filter : Option MojDbQueryFilter
  orderProp : MojString
  distinct : MojString
  limit : MojUInt32
  desc : Bool
  collation : MojDbCollationStrength
  locale : MojDbLocale

namespace Search

def orderPath (search : Search) : List MojString := split propComponentSeparator [] search.orderProp

def strength (search : Search) : MojDbCollationStrength :=
  if search.collation = .invalid then .primary else search.collation

/-- The sort keys an item has after `sort`; without an order there are none. -/
def sortKeys (search : Search) (obj : MojObject) : KeySet :=
  if path : search.orderProp = [] ∨ search.orderPath = [] then SortedSet.empty
  else
    let extractor : MojDbPropExtractor :=
      ⟨search.orderProp, search.strength, none, false, fun none_ => path (Or.inr none_)⟩
    extractor.vals search.locale obj SortedSet.empty

def itemComp (search : Search) (left right : MojObject) : Int :=
  compareKeys (search.sortKeys left).elems (search.sortKeys right).elems

/-- The comparison `distinct` makes. -/
def sameKeys (search : Search) (left right : MojObject) : Bool :=
  decide (search.itemComp left right = 0)

/-- The items after `sort`, if it is called. -/
def sort (search : Search) (choose : Nat → Nat) (items : List MojObject) : List MojObject :=
  if search.orderProp = [] then items
  else quickSort (fun left right => decide (search.itemComp left right < 0)) choose items

theorem sort_perm (search : Search) (choose : Nat → Nat) (items : List MojObject) :
    (search.sort choose items).Perm items := by
  unfold sort
  split_ifs
  · exact List.Perm.refl items
  · exact quickSort_perm choose items

/-- The parts of `load` with the order and the filter of this search. -/
def arrangement (search : Search) (strstr : MojDbQueryFilter.Strstr) (choose : Nat → Nat) :
    Arrangement where
  passes obj := search.filter.all fun filter => filter.test strstr obj
  sort := search.sort choose
  permutes := search.sort_perm choose
  distinct := if search.distinct = [] then none else some search.sameKeys
  desc := search.desc
  limit := search.limit

end Search

/-- What there is after `load`: the items delivered, how many there are from the position on, and
the next page. -/
structure Loaded where
  delivered : List MojObject
  count : Nat
  page : MojDbKey

/-- `load` with the page of the cursor. An order property of which no component is left runs into an
assertion of the extractor when there is an object to sort. -/
def load (search : Search) (strstr : MojDbQueryFilter.Strstr) (choose : Nat → Nat)
    (getById : MojObject → Option MojObject) (ids : List MojObject) (page : MojDbKey) :
    Except MojErr Loaded :=
  if search.orderProp ≠ [] ∧ search.orderPath = [] ∧
      loadObjects (search.arrangement strstr choose) getById ids ≠ [] then
    .error (.assertFailed "!m_prop.empty() && idx < m_prop.size()")
  else
    (arrange (search.arrangement strstr choose) getById ids).map fun items =>
      let served := serve search.locale search.limit items page
      ⟨served.1, if page = [] then items.length else (locate items page).length, served.2⟩

section Assembly

variable (search : Search)

/-- The results put together from the objects: sorted by their key sets, one object kept for each
set when there is a distinct property, and turned round when descending. -/
def Assembled (objs items : List MojObject) : Prop :=
  ∃ sorted kept : List MojObject, sorted.Perm objs ∧
    (sorted.Pairwise fun left right =>
      (search.sortKeys left).elems ≤ (search.sortKeys right).elems) ∧
    (if search.distinct = [] then kept = sorted
      else kept.Sublist sorted ∧ (kept.map search.sortKeys).Nodup ∧
        ∀ obj ∈ sorted, ∃ other ∈ kept, search.sortKeys other = search.sortKeys obj) ∧
    items = if search.desc then kept.reverse else kept

/-- The first page is the first `limit` items, and all of them are counted. -/
def FirstPage (objs : List MojObject) (result : Except MojErr Loaded) : Prop :=
  ∃ items loaded, result = .ok loaded ∧ Assembled search objs items ∧
    loaded.delivered = items.take search.limit.toNat ∧ loaded.count = items.length

variable {search}

theorem itemComp_lt (left right : MojObject) : search.itemComp left right < 0 ↔
    (search.sortKeys left).elems < (search.sortKeys right).elems :=
  (compareKeys_spec _ _).1

theorem itemComp_eq (left right : MojObject) : search.itemComp left right = 0 ↔
    search.sortKeys left = search.sortKeys right := by
  rw [Search.itemComp, (compareKeys_spec _ _).2]
  exact ⟨SortedSet.elems_injective, congrArg SortedSet.elems⟩

theorem sort_sorted (choose : Nat → Nat) (objs : List MojObject) :
    (search.sort choose objs).Pairwise fun left right =>
      (search.sortKeys left).elems ≤ (search.sortKeys right).elems := by
  unfold Search.sort
  split_ifs with unordered
  · apply List.pairwise_of_forall
    intro left right
    simp [Search.sortKeys, unordered]
  · have sorted := @quickSort_sorted _
      (fun left right => decide (search.itemComp left right < 0)) (by
        intro left right below
        rw [decide_eq_true_eq, itemComp_lt] at below
        rw [decide_eq_false_iff_not, itemComp_lt]
        exact lt_asymm below) (by
        intro first second third below further
        rw [decide_eq_true_eq, itemComp_lt] at *
        exact lt_trans below further) choose objs
    apply sorted.imp
    intro left right notBelow
    rw [decide_eq_false_iff_not, itemComp_lt, not_lt] at notBelow
    exact notBelow

theorem distinctFrom_keeps (first : MojObject) (rest : List MojObject)
    (sorted : (first :: rest).Pairwise fun left right =>
      (search.sortKeys left).elems ≤ (search.sortKeys right).elems) :
    ((distinctFrom search.sameKeys first rest).Pairwise fun left right =>
      (search.sortKeys left).elems < (search.sortKeys right).elems) ∧
    ∀ obj ∈ first :: rest, ∃ other ∈ distinctFrom search.sameKeys first rest,
      search.sortKeys other = search.sortKeys obj := by
  induction rest generalizing first with
  | nil => simp [distinctFrom]
  | cons next rest ih =>
    rcases List.pairwise_cons.mp sorted with ⟨least, restSorted⟩
    rw [distinctFrom]
    split_ifs with same
    · rw [Search.sameKeys, decide_eq_true_eq, itemComp_eq] at same
      have shorter := sorted.sublist ((List.sublist_cons_self next rest).cons_cons first)
      rcases ih first shorter with ⟨increasing, covers⟩
      refine ⟨increasing, ?_⟩
      intro obj member
      rcases List.mem_cons.mp member with rfl | member
      · exact covers obj List.mem_cons_self
      · rcases List.mem_cons.mp member with rfl | member
        · rcases covers first List.mem_cons_self with ⟨other, inKept, keys⟩
          exact ⟨other, inKept, keys.trans same⟩
        · exact covers obj (List.mem_cons_of_mem first member)
    · rw [Search.sameKeys, decide_eq_true_eq, itemComp_eq] at same
      rcases ih next restSorted with ⟨increasing, covers⟩
      have below : (search.sortKeys first).elems < (search.sortKeys next).elems := by
        apply lt_of_le_of_ne (least next List.mem_cons_self)
        exact fun equal => same (SortedSet.elems_injective equal)
      refine ⟨List.pairwise_cons.mpr ⟨?_, increasing⟩, ?_⟩
      · intro obj member
        have inRest := (distinctFrom_sublist _ next rest).subset member
        rcases List.mem_cons.mp inRest with rfl | inRest
        · exact below
        · exact lt_of_lt_of_le below ((List.pairwise_cons.mp restSorted).1 obj inRest)
      · intro obj member
        rcases List.mem_cons.mp member with rfl | member
        · exact ⟨obj, List.mem_cons_self, rfl⟩
        · rcases covers obj member with ⟨other, inKept, keys⟩
          exact ⟨other, List.mem_cons_of_mem first inKept, keys⟩

theorem arrange_cases (strstr : MojDbQueryFilter.Strstr) (choose : Nat → Nat)
    (getById : MojObject → Option MojObject) (ids : List MojObject) {sorted : List MojObject}
    (sorts : search.sort choose
      (loadObjects (search.arrangement strstr choose) getById ids) = sorted) :
    search.distinct = [] ∧ arrange (search.arrangement strstr choose) getById ids =
        .ok (if search.desc then sorted.reverse else sorted) ∨
      search.distinct ≠ [] ∧ sorted = [] ∧ arrange (search.arrangement strstr choose) getById ids =
        .error (.assertFailed "!m_items.empty()") ∨
      ∃ first rest, search.distinct ≠ [] ∧ sorted = first :: rest ∧
        arrange (search.arrangement strstr choose) getById ids =
          .ok (if search.desc then (distinctFrom search.sameKeys first rest).reverse
            else distinctFrom search.sameKeys first rest) := by
  have unfolds : arrange (search.arrangement strstr choose) getById ids =
      (dropEqual (if search.distinct = [] then none else some search.sameKeys) sorted).map
        fun items => if search.desc then items.reverse else items := by
    rw [← sorts]
    rfl
  rw [unfolds]
  by_cases whole : search.distinct = []
  · rw [if_pos whole]
    exact Or.inl ⟨whole, rfl⟩
  · rw [if_neg whole]
    cases sorted with
    | nil => exact Or.inr (Or.inl ⟨whole, rfl, rfl⟩)
    | cons first rest => exact Or.inr (Or.inr ⟨first, rest, whole, rfl, rfl⟩)

theorem arrange_assembled (strstr : MojDbQueryFilter.Strstr) (choose : Nat → Nat)
    (getById : MojObject → Option MojObject) (ids : List MojObject) {items : List MojObject}
    (arranged : arrange (search.arrangement strstr choose) getById ids = .ok items) :
    Assembled search (loadObjects (search.arrangement strstr choose) getById ids) items := by
  have sorted := @sort_sorted search choose
    (loadObjects (search.arrangement strstr choose) getById ids)
  have perm := search.sort_perm choose
    (loadObjects (search.arrangement strstr choose) getById ids)
  rcases arrange_cases strstr choose getById ids rfl with
    ⟨whole, done⟩ | ⟨_, _, failed⟩ | ⟨first, rest, whole, all, done⟩
  · rw [arranged, Except.ok.injEq] at done
    exact ⟨_, _, perm, sorted, by rw [if_pos whole], done⟩
  · rw [arranged] at failed
    cases failed
  · rw [arranged, Except.ok.injEq] at done
    rw [all] at sorted perm
    rcases distinctFrom_keeps first rest sorted with ⟨increasing, covers⟩
    refine ⟨_, _, perm, sorted, ?_, done⟩
    rw [if_neg whole]
    refine ⟨distinctFrom_sublist _ first rest, ?_, covers⟩
    rw [List.Nodup, List.pairwise_map]
    apply increasing.imp
    intro left right below same
    rw [same] at below
    exact lt_irrefl _ below

theorem serve_first (locale : MojDbLocale) (limit : MojUInt32) (items : List MojObject) :
    (serve locale limit items []).1 = items.take limit.toNat := by
  rw [serve, if_pos rfl, position]
  cases there : items[limit.toNat]? with
  | none => exact (List.take_of_length_le (List.getElem?_eq_none_iff.mp there)).symm
  | some next => rfl

theorem load_firstPage_iff (strstr : MojDbQueryFilter.Strstr) (choose : Nat → Nat)
    (getById : MojObject → Option MojObject) (ids : List MojObject) :
    FirstPage search (loadObjects (search.arrangement strstr choose) getById ids)
        (load search strstr choose getById ids []) ↔
      (search.distinct = [] ∨ loadObjects (search.arrangement strstr choose) getById ids ≠ []) ∧
      (search.orderProp = [] ∨ search.orderPath ≠ [] ∨
        loadObjects (search.arrangement strstr choose) getById ids = []) := by
  have cases_ := @arrange_cases search strstr choose getById ids _ rfl
  have perm := search.sort_perm choose
    (loadObjects (search.arrangement strstr choose) getById ids)
  unfold load
  by_cases asserts : search.orderProp ≠ [] ∧ search.orderPath = [] ∧
      loadObjects (search.arrangement strstr choose) getById ids ≠ []
  · rw [if_pos asserts]
    constructor
    · rintro ⟨_, _, impossible, _⟩
      cases impossible
    · rintro ⟨_, unordered | components | nothing⟩
      · exact absurd unordered asserts.1
      · exact absurd asserts.2.1 components
      · exact absurd nothing asserts.2.2
  · rw [if_neg asserts]
    have path : search.orderProp = [] ∨ search.orderPath ≠ [] ∨
        loadObjects (search.arrangement strstr choose) getById ids = [] := by
      by_contra bad
      push Not at bad
      exact asserts bad
    have served : ∀ items, arrange (search.arrangement strstr choose) getById ids = .ok items →
        FirstPage search (loadObjects (search.arrangement strstr choose) getById ids)
          ((arrange (search.arrangement strstr choose) getById ids).map fun items =>
            let served := serve search.locale search.limit items []
            ⟨served.1, if ([] : MojDbKey) = [] then items.length
              else (locate items []).length, served.2⟩) := by
      intro items arranged
      have assembled := arrange_assembled strstr choose getById ids arranged
      rw [arranged]
      refine ⟨items, _, rfl, assembled, serve_first _ _ _, ?_⟩
      change (if ([] : MojDbKey) = [] then items.length else (locate items []).length) = items.length
      exact if_pos rfl
    rcases cases_ with ⟨whole, done⟩ | ⟨whole, nothing, failed⟩ | ⟨first, rest, whole, all, done⟩
    · exact iff_of_true (served _ done) ⟨Or.inl whole, path⟩
    · rw [failed]
      apply iff_of_false
      · rintro ⟨_, _, impossible, _⟩
        cases impossible
      · rintro ⟨none_ | some_, _⟩
        · exact whole none_
        · rw [nothing] at perm
          exact some_ perm.symm.eq_nil
    · refine iff_of_true (served _ done) ⟨Or.inr ?_, path⟩
      intro nothing
      rw [all, nothing] at perm
      exact absurd perm.eq_nil (List.cons_ne_nil first rest)

end Assembly

/-- `init`: a distinct property is the one to sort by. The locale is that of the index. -/
def Search.init (query : MojDbQuery) (collation : MojDbCollationStrength) (locale : MojDbLocale) :
    Search where
  filter := if query.filterClauses.entries = [] then none else some (MojDbQueryFilter.init query)
  orderProp := if query.distinct = [] then query.order else query.distinct
  distinct := query.distinct
  limit := query.limit
  desc := query.desc
  collation := collation
  locale := locale

section Claim

variable (query : MojDbQuery) (collation : MojDbCollationStrength) (locale : MojDbLocale)
  (strstr : MojDbQueryFilter.Strstr) (choose : Nat → Nat) (getById : MojObject → Option MojObject)
  (ids : List MojObject)

def found : List MojObject :=
  loadObjects ((Search.init query collation locale).arrangement strstr choose) getById ids

/-- The first page is delivered, and no assertion fires, just where a distinct query finds something
and the property to sort by is a path. -/
theorem search_assembles_iff :
    FirstPage (Search.init query collation locale)
        (found query collation locale strstr choose getById ids)
        (load (Search.init query collation locale) strstr choose getById ids []) ↔
      (query.distinct = [] ∨ found query collation locale strstr choose getById ids ≠ []) ∧
      ((query.distinct = [] ∧ query.order = []) ∨
        (Search.init query collation locale).orderPath ≠ [] ∨
        found query collation locale strstr choose getById ids = []) := by
  apply (load_firstPage_iff strstr choose getById ids).trans
  apply and_congr Iff.rfl
  apply or_congr _ Iff.rfl
  change (if query.distinct = [] then query.order else query.distinct) = [] ↔ _
  split_ifs with plain
  · exact ⟨fun unordered => ⟨plain, unordered⟩, fun both => both.2⟩
  · exact ⟨fun none_ => absurd none_ plain, fun both => absurd both.1 plain⟩

end Claim

/-- A distinct query that finds nothing runs into the assertion of `distinct`. -/
theorem nothing_distinct_asserts :
    ¬ ∀ (query : MojDbQuery) (collation : MojDbCollationStrength) (locale : MojDbLocale)
        (strstr : MojDbQueryFilter.Strstr) (choose : Nat → Nat)
        (getById : MojObject → Option MojObject) (ids : List MojObject),
      FirstPage (Search.init query collation locale)
        (found query collation locale strstr choose getById ids)
        (load (Search.init query collation locale) strstr choose getById ids []) := by
  intro all
  rcases all { MojDbQuery.init [] with distinct := chars ['n'] } .invalid plainLocale
    (fun _ _ => false) id (fun _ => none) [] with ⟨items, loaded, ran, -⟩
  cases ran

end Db8.Db.MojDbSearchCursor
