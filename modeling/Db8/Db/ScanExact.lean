import Db8.Db.Scan

/-!
# Exactness of a range scan

What a caller gets from any mix of `get` and `getId` calls on a fresh query, compared with the
stored keys in the union of the plan's ranges. Only `get` counts what it delivers, so a limit holds
exactly when it is used up by `get` calls.
-/

set_option autoImplicit false

namespace Db8.Db

open Db8.Bytes
open Db8.Core

namespace MojDbIsamQuery

def label (ranges : List MojDbKeyRange) (key : MojDbKey) : Option (MojDbKey × Nat) :=
  (ranges.find? fun range => decide (range.contains key)).map fun range => (key, range.group)

/-- The stored keys in the union of a plan's ranges, in scan order. -/
def covered (store : MojDbIndexStore) (plan : MojDbQueryPlan) : List (MojDbKey × Nat) :=
  (Cursor.line plan.query.desc store.keys.elems).filterMap (label plan.ranges)

theorem label_of_contains {ranges : List MojDbKeyRange}
    (disjoint : ranges.Pairwise fun left right => ∀ key, left.contains key → ¬ right.contains key)
    {range : MojDbKeyRange} {key : MojDbKey} (member : range ∈ ranges)
    (inside : range.contains key) : label ranges key = some (key, range.group) := by
  induction ranges with
  | nil => exact absurd member List.not_mem_nil
  | cons head tail ih =>
    rcases List.pairwise_cons.mp disjoint with ⟨apart, tailDisjoint⟩
    rw [label, List.find?_cons]
    by_cases headIn : head.contains key
    · rcases List.mem_cons.mp member with same | later
      · simp [headIn, same]
      · exact absurd inside (apart range later key headIn)
    · rcases List.mem_cons.mp member with same | later
      · exact absurd (same ▸ inside) headIn
      · simpa [headIn, label] using ih tailDisjoint later

theorem filterMap_label (ranges : List MojDbKeyRange) (keys : List MojDbKey) :
    keys.filterMap (label ranges) =
      (keys.filter fun key => decide (∃ range ∈ ranges, range.contains key)).filterMap
        (label ranges) := by
  rw [List.filterMap_filter]
  congr 1
  funext key
  split_ifs with inside
  · rfl
  · rw [decide_eq_true_eq] at inside
    rw [label, List.find?_eq_none.mpr]
    · rfl
    · intro range member contained
      exact inside ⟨range, member, of_decide_eq_true contained⟩

theorem heldBy_eq_covered (store : MojDbIndexStore) {plan : MojDbQueryPlan}
    (ordered : ScanOrdered plan.query.desc plan.ranges) :
    Position.heldBy store plan.query.desc plan.ranges = covered store plan := by
  rw [covered, filterMap_label, ← Position.heldBy_keys store ordered, List.filterMap_map]
  symm
  have labelled : ∀ entry ∈ Position.heldBy store plan.query.desc plan.ranges,
      (label plan.ranges ∘ Prod.fst) entry = some entry := by
    intro entry member
    rcases List.mem_flatMap.mp member with ⟨range, rangeIn, held⟩
    rcases List.mem_map.mp held with ⟨key, keyIn, rfl⟩
    exact label_of_contains ordered.disjoint rangeIn
      (of_decide_eq_true (List.mem_filter.mp keyIn).2)
  rw [List.filterMap_congr labelled, List.filterMap_some]

inductive Call where
  | get
  | getId
deriving DecidableEq

inductive Answer where
  | item (item : MojDbStorageItem)
  | id (id : Option MojObject) (group : Nat)
deriving DecidableEq

def call (store : MojDbIndexStore) (query : MojDbIsamQuery) :
    Call → MojDbIsamQuery × Except MojErr (Option Answer)
  | .get =>
    let result := get store query
    (result.1, result.2.map fun found => found.map .item)
  | .getId =>
    let result := getId store query
    (result.1, result.2.map fun found => found.map fun answer => .id answer.1 answer.2)

def answers (store : MojDbIndexStore) :
    List Call → MojDbIsamQuery → Except MojErr (List (Option Answer))
  | [], _ => .ok []
  | next :: later, query =>
    match call store query next with
    | (_, .error err) => .error err
    | (query, .ok answer) => do
      let rest ← answers store later query
      .ok (answer :: rest)

/-- What a call returns for a key it delivers, if the key resolves. -/
def answerFor (store : MojDbIndexStore) (plan : MojDbQueryPlan) (excludeKinds : List MojString)
    (entry : MojDbKey × Nat) : Call → Option Answer
  | .get =>
    match getVal store excludeKinds plan.idIndex entry.1 with
    | .ok (some item) => some (.item item)
    | _ => none
  | .getId =>
    match parseId plan.idIndex entry.1 with
    | .ok id => some (.id id entry.2)
    | .error _ => none

def expected (store : MojDbIndexStore) (plan : MojDbQueryPlan) (excludeKinds : List MojString) :
    List (MojDbKey × Nat) → List Call → List (Option Answer)
  | _, [] => []
  | [], _ :: calls => none :: expected store plan excludeKinds [] calls
  | entry :: entries, call :: calls =>
    answerFor store plan excludeKinds entry call ::
      expected store plan excludeKinds entries calls

/-- The same with a count that only `get` runs down. -/
def counted (store : MojDbIndexStore) (plan : MojDbQueryPlan) (excludeKinds : List MojString) :
    List (MojDbKey × Nat) → Nat → List Call → List (Option Answer)
  | _, _, [] => []
  | [], left, _ :: calls => none :: counted store plan excludeKinds [] left calls
  | entries, 0, _ :: calls => none :: counted store plan excludeKinds entries 0 calls
  | entry :: entries, left + 1, call :: calls =>
    answerFor store plan excludeKinds entry call ::
      counted store plan excludeKinds entries (if call = .get then left else left + 1) calls

variable {store : MojDbIndexStore} {plan : MojDbQueryPlan} {excludeKinds : List MojString}

/-- A query without distinct in the middle of its run, with `left` items to its limit. -/
structure Running (store : MojDbIndexStore) (plan : MojDbQueryPlan) (excludeKinds : List MojString)
    (query : MojDbIsamQuery) (pending : List (MojDbKey × Nat)) (left : Nat) : Prop where
  scans : Scans store query pending
  plan_eq : query.plan = plan
  excludeKinds_eq : query.excludeKinds = excludeKinds
  distinct_eq : query.distinct = []
  left_eq : query.count.toNat + left = plan.query.limit.toNat

variable {pending : List (MojDbKey × Nat)} {query : MojDbIsamQuery}

theorem Running.limitEnforced_iff {left : Nat}
    (running : Running store plan excludeKinds query pending left) :
    query.limitEnforced = decide (left = 0) := by
  have total := running.left_eq
  rw [Bool.eq_iff_iff, MojDbIsamQuery.limitEnforced_iff, running.plan_eq, decide_eq_true_eq]
  omega

theorem openQuery_running (store : MojDbIndexStore) (excludeKinds : List MojString)
    (ordered : ScanOrdered plan.query.desc plan.ranges) (noDistinct : plan.query.distinct = []) :
    Running store plan excludeKinds (openQuery plan excludeKinds) (covered store plan)
      plan.query.limit.toNat where
  scans := heldBy_eq_covered store ordered ▸ openQuery_scans store excludeKinds ordered
  plan_eq := rfl
  excludeKinds_eq := rfl
  distinct_eq := noDistinct
  left_eq := Nat.zero_add _

theorem call_none {left : Nat} (running : Running store plan excludeKinds query pending left)
    (stopped : left = 0 ∨ pending = []) (next : Call) :
    ∃ after, call store query next = (after, .ok none) ∧
      Running store plan excludeKinds after pending left := by
  have ended : query.limitEnforced = true ∨ pending = [] := by
    rw [running.limitEnforced_iff, decide_eq_true_eq]
    exact stopped
  cases next with
  | get =>
    rcases getImpl_none ended running.scans with ⟨pos, found, scans⟩
    refine ⟨{ query with toPosition := pos }, ?_, scans, running.plan_eq,
      running.excludeKinds_eq, running.distinct_eq, running.left_eq⟩
    simp [call, get, callBound, getLoop, found, Except.map]
  | getId =>
    rcases getKey_none ended running.scans with ⟨pos, found, scans⟩
    refine ⟨{ query with toPosition := pos }, ?_, scans, running.plan_eq,
      running.excludeKinds_eq, running.distinct_eq, running.left_eq⟩
    simp [call, getId, found, Except.map]

theorem call_some {entry : MojDbKey × Nat} {left : Nat}
    (running : Running store plan excludeKinds query (entry :: pending) (left + 1)) (next : Call)
    (resolves : answerFor store plan excludeKinds entry next ≠ none) :
    ∃ after, call store query next =
        (after, .ok (answerFor store plan excludeKinds entry next)) ∧
      Running store plan excludeKinds after pending (if next = .get then left else left + 1) := by
  have unlimited : query.limitEnforced = false := by simp [running.limitEnforced_iff]
  have total := running.left_eq
  cases next with
  | get =>
    rcases getImpl_cons unlimited running.scans with ⟨pos, found, _, scans⟩
    rw [running.excludeKinds_eq, running.plan_eq] at found
    simp only [answerFor] at resolves ⊢
    cases looked : getVal store excludeKinds plan.idIndex entry.1 with
    | error err => simp [looked] at resolves
    | ok item =>
      cases item with
      | none => simp [looked] at resolves
      | some item =>
        refine ⟨incrementCount { query with toPosition := pos }, ?_,
          scans.incrementCount, ?_, ?_, ?_, ?_⟩
        · simp [call, get, callBound, getLoop, found, looked, receive, running.distinct_eq,
            running.plan_eq, running.excludeKinds_eq, Except.map]
        · rw [incrementCount_plan, running.plan_eq]
        · rw [incrementCount_excludeKinds, running.excludeKinds_eq]
        · rw [incrementCount_distinct, running.distinct_eq]
        · rw [@toNat_incrementCount { query with toPosition := pos } unlimited]
          simp only [if_true]
          omega
  | getId =>
    rcases getKey_cons unlimited running.scans with ⟨pos, found, keyEq, scans⟩
    simp only [answerFor] at resolves ⊢
    cases parsed : parseId plan.idIndex entry.1 with
    | error err => simp [parsed] at resolves
    | ok id =>
      refine ⟨{ query with toPosition := pos }, ?_, scans, running.plan_eq,
        running.excludeKinds_eq, running.distinct_eq, total⟩
      simp [call, getId, found, keyEq, running.plan_eq, parsed, Except.map]

def Resolving (store : MojDbIndexStore) (plan : MojDbQueryPlan) (excludeKinds : List MojString)
    (calls : List Call) (entries : List (MojDbKey × Nat)) : Prop :=
  ∀ next ∈ calls, ∀ entry ∈ entries, answerFor store plan excludeKinds entry next ≠ none

instance (store : MojDbIndexStore) (plan : MojDbQueryPlan) (excludeKinds : List MojString)
    (calls : List Call) (entries : List (MojDbKey × Nat)) :
    Decidable (Resolving store plan excludeKinds calls entries) :=
  inferInstanceAs (Decidable (∀ next ∈ calls, ∀ entry ∈ entries, _))

theorem answers_counted {left : Nat} {calls : List Call}
    (running : Running store plan excludeKinds query pending left)
    (resolving : Resolving store plan excludeKinds calls pending) :
    answers store calls query = .ok (counted store plan excludeKinds pending left calls) := by
  induction calls generalizing query pending left with
  | nil => simp [answers, counted]
  | cons next calls ih =>
    have later : ∀ entries : List (MojDbKey × Nat), (∀ entry ∈ entries, entry ∈ pending) →
        Resolving store plan excludeKinds calls entries := by
      intro entries subset other otherIn entry entryIn
      exact resolving other (List.mem_cons_of_mem _ otherIn) entry (subset entry entryIn)
    rw [answers]
    by_cases stopped : left = 0 ∨ pending = []
    · rcases call_none running stopped next with ⟨after, called, kept⟩
      have stops : counted store plan excludeKinds pending left (next :: calls) =
          none :: counted store plan excludeKinds pending left calls := by
        rcases stopped with zero | nothing
        · rw [zero]
          cases pending <;> rw [counted]
          exact fun same => by cases same
        · rw [nothing, counted]
      simp only [called, ih kept (later pending fun _ member => member), stops, bind,
        Except.bind]
    · cases left with
      | zero => exact absurd (Or.inl rfl) stopped
      | succ left =>
        cases pending with
        | nil => exact absurd (Or.inr rfl) stopped
        | cons entry pending =>
          rcases call_some running next
            (resolving next List.mem_cons_self entry List.mem_cons_self) with
            ⟨after, called, kept⟩
          simp only [called, ih kept (later pending fun _ member =>
            List.mem_cons_of_mem _ member), counted, bind, Except.bind]

/-- A count that `getId` does not run down makes a difference exactly when a call is made behind
the limit, with keys left, and some call before it was `getId`. -/
theorem counted_eq_expected_iff {calls : List Call} {entries : List (MojDbKey × Nat)}
    {limit left : Nat} (enough : limit ≤ left)
    (resolving : Resolving store plan excludeKinds calls entries) :
    counted store plan excludeKinds entries left calls =
        expected store plan excludeKinds (entries.take limit) calls ↔
      entries.length ≤ limit ∨ calls.length ≤ limit ∨
        left = limit ∧ ∀ next ∈ calls.take limit, next = .get := by
  induction calls generalizing entries limit left with
  | nil => simp [counted, expected]
  | cons next calls ih =>
    have later : ∀ others : List (MojDbKey × Nat), (∀ entry ∈ others, entry ∈ entries) →
        Resolving store plan excludeKinds calls others := by
      intro others subset other otherIn entry entryIn
      exact resolving other (List.mem_cons_of_mem _ otherIn) entry (subset entry entryIn)
    cases entries with
    | nil =>
      have rest := ih enough (later [] fun _ member => member)
      rw [counted, List.take_nil, expected, List.cons.injEq]
      simpa using rest
    | cons entry entries =>
      cases limit with
      | zero =>
        rw [List.take_zero, expected]
        cases left with
        | zero =>
          have rest := ih enough (later (entry :: entries) fun _ member => member)
          rw [List.take_zero] at rest
          rw [counted, List.cons.injEq, rest]
          · simp
          · exact fun same => by cases same
        | succ left =>
          rw [counted, List.cons.injEq]
          have some := resolving next List.mem_cons_self entry List.mem_cons_self
          simp [some]
      | succ limit =>
        cases left with
        | zero => exact absurd enough (Nat.not_succ_le_zero limit)
        | succ left =>
          have rest := @ih entries limit (if next = .get then left else left + 1)
            (by split_ifs <;> omega) (later entries fun _ member =>
              List.mem_cons_of_mem _ member)
          rw [counted, List.take_succ_cons, expected, List.cons.injEq, rest]
          by_cases counts : next = .get
          · simp [counts]
          · simp [counts]
            omega

/-- A run of calls delivers exactly the covered keys up to the limit, and then nothing, if and only
if no call goes uncounted while the limit matters. -/
theorem scan_exact_iff_counted (store : MojDbIndexStore) (plan : MojDbQueryPlan)
    (excludeKinds : List MojString) (calls : List Call)
    (ordered : ScanOrdered plan.query.desc plan.ranges) (noDistinct : plan.query.distinct = [])
    (resolving : Resolving store plan excludeKinds calls (covered store plan)) :
    answers store calls (openQuery plan excludeKinds) =
        .ok (expected store plan excludeKinds
          ((covered store plan).take plan.query.limit.toNat) calls) ↔
      (covered store plan).length ≤ plan.query.limit.toNat ∨
        calls.length ≤ plan.query.limit.toNat ∨
        ∀ next ∈ calls.take plan.query.limit.toNat, next = .get := by
  have running := openQuery_running store excludeKinds ordered noDistinct
  rw [answers_counted running resolving, Except.ok.injEq,
    counted_eq_expected_iff le_rfl resolving]
  simp

section Instances

def idObject (id : MojString) : MojObject := .object [(idKey, .string id)]

/-- An index on the id alone, holding the objects `x` and `y` of kind `K`. -/
def twoKeyStore (engine : StorageEngine) : MojDbIndexStore where
  engine := engine
  keys := SortedSet.ofList [
    MojDbKey.assign (.int 7) none ++ MojDbKey.assign (.string (chars ['x'])) none,
    MojDbKey.assign (.int 7) none ++ MojDbKey.assign (.string (chars ['y'])) none]
  joinDb id :=
    if id = .string (chars ['x']) then some ⟨chars ['K'], idObject (chars ['x'])⟩
    else if id = .string (chars ['y']) then some ⟨chars ['K'], idObject (chars ['y'])⟩
    else none

def openRangePlan : MojDbQueryPlan where
  query := { MojDbQuery.init (chars ['K']) with limit := 1 }
  ranges := [⟨[], [], 0⟩]
  groupCount := 0
  idIndex := 1

theorem scan_exact_of_get :
    answers (twoKeyStore .level) [.get, .get, .get] (openQuery openRangePlan []) =
      .ok (expected (twoKeyStore .level) openRangePlan []
        ((covered (twoKeyStore .level) openRangePlan).take 1) [.get, .get, .get]) :=
  (scan_exact_iff_counted (twoKeyStore .level) openRangePlan [] [.get, .get, .get]
    ⟨by simp [openRangePlan], by simp [openRangePlan]⟩ rfl (by decide)).mpr (by decide)

/-- With a limit of one, two `getId` calls deliver two ids. -/
theorem scan_not_exact_for_getId :
    ScanOrdered openRangePlan.query.desc openRangePlan.ranges ∧
    openRangePlan.query.distinct = [] ∧
    Resolving (twoKeyStore .sandwich) openRangePlan [] [.getId, .getId]
      (covered (twoKeyStore .sandwich) openRangePlan) ∧
    answers (twoKeyStore .sandwich) [.getId, .getId] (openQuery openRangePlan []) ≠
      .ok (expected (twoKeyStore .sandwich) openRangePlan []
        ((covered (twoKeyStore .sandwich) openRangePlan).take openRangePlan.query.limit.toNat)
        [.getId, .getId]) := by
  refine ⟨⟨by simp [openRangePlan], by simp [openRangePlan]⟩, rfl, by decide, ?_⟩
  have delivered : answers (twoKeyStore .sandwich) [.getId, .getId] (openQuery openRangePlan []) =
      .ok [some (.id (some (.string (chars ['x']))) 0), some (.id (some (.string (chars ['y']))) 0)] :=
    rfl
  rw [delivered]
  decide

end Instances

end MojDbIsamQuery

end Db8.Db
