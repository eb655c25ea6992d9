import Db8.Db.ScanExact

/-!
# Fetching from the keys ahead

`get` and `count` on the list of keys a scan still has to meet, without cursor and ranges: which
keys are passed stopped, which are counted, and what is kept for the next duplicate and the next page.
Every run of a query is such a run stopped its covered keys.
-/

set_option autoImplicit false

namespace Db8.Db

open Db8.Bytes
open Db8.Core

namespace MojDbIsamQuery

abbrev Entry := MojDbKey × Nat

/-- What a query makes of a key: the item it finds there, and how items are told apart. -/
structure Feed where
  look : MojDbKey → Except MojErr (Option MojDbStorageItem)
  distinct : MojString
  desc : Bool
  limit : Nat

/-- The count, the item kept last, and the key of the next page. -/
structure Tally where
  count : Nat
  last : Option MojObject
  endKey : MojDbKey

structure Fetched where
  rest : List Entry
  tally : Tally
  found : Except MojErr (Option MojDbStorageItem)

namespace Feed

/-- Whether an item is delivered after the one kept last. -/
def accept (feed : Feed) (last : Option MojObject) (obj : MojObject) : Except MojErr Bool :=
  if feed.distinct = [] then .ok true
  else do
    let dest ← getRequired obj feed.distinct
    match last with
    | none => .ok true
    | some last => do
      let kept ← getRequired last feed.distinct
      .ok (decide (kept ≠ dest))

def keep (feed : Feed) (last : Option MojObject) (obj : MojObject) : Option MojObject :=
  if feed.distinct = [] then last else some obj

def pageKey (feed : Feed) (key : MojDbKey) : MojDbKey :=
  if feed.desc then key else MojDbKey.increment key

def counted (feed : Feed) (tally : Tally) (key : MojDbKey) : Tally :=
  { tally with
    count := tally.count + 1
    endKey := if feed.limit ≤ tally.count + 1 then feed.pageKey key else tally.endKey }

def kept (feed : Feed) (tally : Tally) (obj : MojObject) : Tally :=
  { tally with last := feed.keep tally.last obj }

/-- One call of `getImpl` on a key. -/
def receive (feed : Feed) (key : MojDbKey) (tally : Tally) :
    Tally × Except MojErr (Option MojDbStorageItem) :=
  match feed.look key with
  | .error err => (tally, .error err)
  | .ok none => (feed.counted tally key, .ok none)
  | .ok (some item) =>
    match feed.accept tally.last item.obj with
    | .error err => (tally, .error err)
    | .ok false => (tally, .ok none)
    | .ok true => (feed.counted (feed.kept tally item.obj) key, .ok (some item))

/-- `get`: up to the first item, the limit or an error that is not a ghost key's. -/
def fetch (feed : Feed) : List Entry → Tally → Fetched
  | [], tally => ⟨[], tally, .ok none⟩
  | entry :: rest, tally =>
    if feed.limit ≤ tally.count then ⟨entry :: rest, tally, .ok none⟩
    else
      match feed.receive entry.1 tally with
      | (tally, .error err) =>
        if err = .internalIndexOnFind then feed.fetch rest tally
        else ⟨rest, tally, .error err⟩
      | (tally, .ok none) => feed.fetch rest tally
      | (tally, .ok (some item)) => ⟨rest, tally, .ok (some item)⟩

/-- `count`: up to the end, the limit or an error that is not a ghost key's. -/
def countRest (feed : Feed) : List Entry → Tally → Except MojErr Nat
  | [], tally => .ok tally.count
  | entry :: rest, tally =>
    if feed.limit ≤ tally.count then .ok tally.count
    else
      match feed.receive entry.1 tally with
      | (tally, .error err) =>
        if err = .internalIndexOnFind then feed.countRest rest tally else .error err
      | (tally, .ok _) => feed.countRest rest tally

end Feed

def feed (store : MojDbIndexStore) (query : MojDbIsamQuery) : Feed where
  look := getVal store query.excludeKinds query.plan.idIndex
  distinct := query.distinct
  desc := query.plan.query.desc
  limit := query.plan.query.limit.toNat

def tally (query : MojDbIsamQuery) : Tally := ⟨query.count.toNat, query.lastItem, query.endKey⟩

structure Kept (query after : MojDbIsamQuery) : Prop where
  plan : after.plan = query.plan
  distinct : after.distinct = query.distinct
  excludeKinds : after.excludeKinds = query.excludeKinds
  verify : after.verify = query.verify

theorem Kept.refl (query : MojDbIsamQuery) : Kept query query := ⟨rfl, rfl, rfl, rfl⟩

theorem Kept.trans {first second third : MojDbIsamQuery} (front : Kept first second)
    (back : Kept second third) : Kept first third where
  plan := back.plan.trans front.plan
  distinct := back.distinct.trans front.distinct
  excludeKinds := back.excludeKinds.trans front.excludeKinds
  verify := back.verify.trans front.verify

theorem Kept.feed {query after : MojDbIsamQuery} (kept : Kept query after)
    (store : MojDbIndexStore) : feed store after = feed store query := by
  unfold MojDbIsamQuery.feed
  rw [kept.plan, kept.distinct, kept.excludeKinds]

variable {store : MojDbIndexStore} {query : MojDbIsamQuery}

theorem limitEnforced_false_iff : query.limitEnforced = false ↔
    ¬ (feed store query).limit ≤ query.tally.count := by
  rw [← Bool.not_eq_true, limitEnforced_iff]
  rfl

theorem limitEnforced_true_iff : query.limitEnforced = true ↔
    (feed store query).limit ≤ query.tally.count :=
  limitEnforced_iff

theorem incrementCount_kept (query : MojDbIsamQuery) : Kept query query.incrementCount where
  plan := incrementCount_plan query
  distinct := incrementCount_distinct query
  excludeKinds := incrementCount_excludeKinds query
  verify := incrementCount_verify query

theorem tally_incrementCount (store : MojDbIndexStore) (unlimited : query.limitEnforced = false) :
    query.incrementCount.tally = (feed store query).counted query.tally query.keyData := by
  have count := toNat_incrementCount unlimited
  have reached : ({ query with count := query.count + 1 } : MojDbIsamQuery).limitEnforced =
      decide ((feed store query).limit ≤ query.tally.count + 1) := by
    rw [incrementCount_count] at count
    rw [Bool.eq_iff_iff, limitEnforced_iff, count, decide_eq_true_eq]
    rfl
  have endKey : query.incrementCount.endKey =
      if (feed store query).limit ≤ query.tally.count + 1 then
        (feed store query).pageKey query.keyData
      else query.endKey := by
    unfold incrementCount
    simp only [reached, decide_eq_true_eq]
    split_ifs <;> rfl
  unfold tally Feed.counted
  rw [count, incrementCount_lastItem, endKey]
  rfl

theorem receive_some (store : MojDbIndexStore) (query : MojDbIsamQuery) (item : MojDbStorageItem) :
    query.receive (some item) =
      match (feed store query).accept query.lastItem item.obj with
      | .error err => (query, .error err)
      | .ok false => (query, .ok (none, true))
      | .ok true => (incrementCount { query with
          lastItem := (feed store query).keep query.lastItem item.obj }, .ok (some item, true)) := by
  have names : (feed store query).distinct = query.distinct := rfl
  unfold MojDbIsamQuery.receive Feed.accept Feed.keep
  rw [names]
  by_cases plain : query.distinct = []
  · simp only [if_pos plain]
  · simp only [if_neg plain, isDistincted]
    cases getRequired item.obj query.distinct with
    | error err => rfl
    | ok dest =>
      simp only [bind, Except.bind]
      cases query.lastItem with
      | none => rfl
      | some last =>
        simp only
        cases getRequired last query.distinct with
        | error err => rfl
        | ok kept =>
          by_cases same : kept = dest
          · simp only [same, if_true, ne_eq, not_true_eq_false, decide_false]
          · simp only [same, if_false, ne_eq, not_false_eq_true, decide_true]

theorem getImpl_receive {entry : Entry} {rest : List Entry}
    (unlimited : query.limitEnforced = false) (scans : Scans store query (entry :: rest)) :
    ∃ after, getImpl store query =
        (after, ((feed store query).receive entry.1 query.tally).2.map fun item => (item, true)) ∧
      after.tally = ((feed store query).receive entry.1 query.tally).1 ∧
      Kept query after ∧ Scans store after rest := by
  rcases getImpl_cons unlimited scans with ⟨pos, found, keyEq, moved⟩
  have keyTally : ∀ last, (incrementCount { query with
      toPosition := pos, lastItem := last }).tally =
        (feed store query).counted { query.tally with last := last } entry.1 := by
    intro last
    rw [@tally_incrementCount { query with toPosition := pos, lastItem := last } store unlimited,
      ← keyEq]
    rfl
  rw [found, Feed.receive]
  have looks : (feed store query).look = getVal store query.excludeKinds query.plan.idIndex := rfl
  rw [looks]
  cases getVal store query.excludeKinds query.plan.idIndex entry.1 with
  | error err => exact ⟨{ query with toPosition := pos }, rfl, rfl, ⟨rfl, rfl, rfl, rfl⟩, moved⟩
  | ok item =>
    cases item with
    | none =>
      have same : Kept query { query with toPosition := pos } := ⟨rfl, rfl, rfl, rfl⟩
      exact ⟨_, rfl, keyTally query.lastItem, same.trans (incrementCount_kept _),
        moved.incrementCount⟩
    | some item =>
      simp only [receive_some store { query with toPosition := pos } item]
      have admits : (feed store { query with toPosition := pos }).accept query.lastItem item.obj =
          (feed store query).accept query.tally.last item.obj := rfl
      simp only [admits]
      cases (feed store query).accept query.tally.last item.obj with
      | error err =>
        exact ⟨{ query with toPosition := pos }, rfl, rfl, ⟨rfl, rfl, rfl, rfl⟩, moved⟩
      | ok fresh =>
        cases fresh with
        | false =>
          exact ⟨{ query with toPosition := pos }, rfl, rfl, ⟨rfl, rfl, rfl, rfl⟩, moved⟩
        | true =>
          have marked : Scans store { query with
              toPosition := pos
              lastItem := (feed store query).keep query.lastItem item.obj } rest := moved
          have same : Kept query { query with
              toPosition := pos
              lastItem := (feed store query).keep query.lastItem item.obj } :=
            ⟨rfl, rfl, rfl, rfl⟩
          exact ⟨_, rfl, keyTally ((feed store query).keep query.lastItem item.obj),
            same.trans (incrementCount_kept _), marked.incrementCount⟩

variable {pending : List Entry}

theorem getImpl_ended (stopped : query.limitEnforced = true ∨ pending = [])
    (scans : Scans store query pending) :
    ∃ after, getImpl store query = (after, .ok (none, false)) ∧ after.tally = query.tally ∧
      Kept query after ∧ Scans store after pending := by
  rcases getImpl_none stopped scans with ⟨pos, found, moved⟩
  exact ⟨_, found, rfl, ⟨rfl, rfl, rfl, rfl⟩, moved⟩

theorem fetch_ended (stopped : query.limitEnforced = true ∨ pending = []) :
    (feed store query).fetch pending query.tally = ⟨pending, query.tally, .ok none⟩ := by
  cases pending with
  | nil => rfl
  | cons entry rest =>
    rcases stopped with enforced | nothing
    · rw [Feed.fetch, if_pos (limitEnforced_true_iff.mp enforced)]
    · cases nothing

theorem getLoop_fetch {calls : Nat} (quiet : query.verify = false)
    (scans : Scans store query pending) (enough : pending.length < calls) :
    ∃ after, getLoop store calls query =
        (after, ((feed store query).fetch pending query.tally).found) ∧
      after.tally = ((feed store query).fetch pending query.tally).tally ∧
      Kept query after ∧ Scans store after ((feed store query).fetch pending query.tally).rest := by
  induction calls generalizing query pending with
  | zero => exact absurd enough (Nat.not_lt_zero _)
  | succ calls ih =>
    rw [getLoop]
    by_cases stopped : query.limitEnforced = true ∨ pending = []
    · rcases getImpl_ended stopped scans with ⟨after, found, tallied, kept, moved⟩
      rw [found, fetch_ended stopped]
      exact ⟨after, rfl, tallied, kept, moved⟩
    · cases pending with
      | nil => exact absurd (Or.inr rfl) stopped
      | cons entry rest =>
        have unlimited : query.limitEnforced = false := by
          rw [← Bool.not_eq_true]
          exact fun enforced => stopped (Or.inl enforced)
        rcases getImpl_receive unlimited scans with ⟨after, found, tallied, kept, moved⟩
        have later := ih (by rw [kept.verify, quiet]) moved
          (Nat.lt_of_succ_lt_succ enough)
        rw [kept.feed store, tallied] at later
        rw [found, Feed.fetch, if_neg (limitEnforced_false_iff.mp unlimited)]
        rcases received : (feed store query).receive entry.1 query.tally with ⟨tally, result⟩
        rw [received] at later tallied
        cases result with
        | error err =>
          simp only [Except.map, kept.verify, quiet, and_true]
          split_ifs with ghost
          · rcases later with ⟨last, ran, lastTally, lastKept, lastMoved⟩
            exact ⟨last, ran, lastTally, kept.trans lastKept, lastMoved⟩
          · exact ⟨after, rfl, tallied, kept, moved⟩
        | ok item =>
          cases item with
          | none =>
            rcases later with ⟨last, ran, lastTally, lastKept, lastMoved⟩
            exact ⟨last, ran, lastTally, kept.trans lastKept, lastMoved⟩
          | some item => exact ⟨after, rfl, tallied, kept, moved⟩

theorem get_fetch (quiet : query.verify = false) (scans : Scans store query pending) :
    ∃ after, get store query =
        (after, ((feed store query).fetch pending query.tally).found) ∧
      after.tally = ((feed store query).fetch pending query.tally).tally ∧
      Kept query after ∧ Scans store after ((feed store query).fetch pending query.tally).rest :=
  getLoop_fetch quiet scans scans.length_lt

theorem countLoop_countRest {calls : Nat} (scans : Scans store query pending)
    (enough : pending.length < calls) :
    (countLoop store calls query).2.map BitVec.toNat =
      (feed store query).countRest pending query.tally := by
  induction calls generalizing query pending with
  | zero => exact absurd enough (Nat.not_lt_zero _)
  | succ calls ih =>
    rw [countLoop]
    by_cases stopped : query.limitEnforced = true ∨ pending = []
    · rcases getImpl_ended stopped scans with ⟨after, found, tallied, _, _⟩
      have count := congrArg Tally.count tallied
      rw [found]
      cases pending with
      | nil => exact congrArg Except.ok count
      | cons entry rest =>
        rcases stopped with enforced | nothing
        · rw [Feed.countRest, if_pos (limitEnforced_true_iff.mp enforced)]
          exact congrArg Except.ok count
        · cases nothing
    · cases pending with
      | nil => exact absurd (Or.inr rfl) stopped
      | cons entry rest =>
        have unlimited : query.limitEnforced = false := by
          rw [← Bool.not_eq_true]
          exact fun enforced => stopped (Or.inl enforced)
        rcases getImpl_receive unlimited scans with ⟨after, found, tallied, kept, moved⟩
        have later := ih moved (Nat.lt_of_succ_lt_succ enough)
        rw [kept.feed store, tallied] at later
        rw [found, Feed.countRest, if_neg (limitEnforced_false_iff.mp unlimited)]
        rcases received : (feed store query).receive entry.1 query.tally with ⟨tally, result⟩
        rw [received] at later
        cases result with
        | error err =>
          simp only [Except.map]
          split_ifs with ghost
          · exact later
          · rfl
        | ok item => exact later

theorem countAll_countRest (scans : Scans store query pending) :
    (countAll store query).2.map BitVec.toNat =
      { feed store query with limit := MojDbQuery.limitDefault.toNat }.countRest pending
        query.tally :=
  countLoop_countRest scans scans.length_lt

end MojDbIsamQuery

end Db8.Db
