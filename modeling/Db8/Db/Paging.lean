import Db8.Core.Base64
import Db8.Db.Limits
import Db8.Db.Ordering

/-!
# Reading a find page by page

A page of a find is a fresh query whose ranges are moved to the page key, read until nothing is
found, and the key of the page behind it, sent as a base 64 string. On the list of keys a page is
a stretch of it: what the next page leaves is what stands behind the last key delivered, since no
stored key begins another.
-/

set_option autoImplicit false

namespace Db8.Db

open Db8.Bytes
open Db8.Core

namespace MojDbQuery.Page

def toObject (key : MojDbKey) : MojObject := .string (MojBase64.encode false key)

def fromObject (locale : MojDbLocale) (obj : MojObject) : Except MojErr MojDbKey :=
  MojBase64.decode (locale.stringValue obj)

theorem fromObject_toObject (locale : MojDbLocale) (key : MojDbKey) :
    fromObject locale (toObject key) = .ok key :=
  MojBase64.decode_encode key

end MojDbQuery.Page

namespace MojDbIsamQuery

/-- `get` until nothing is found. -/
def getAll (store : MojDbIndexStore) :
    Nat → MojDbIsamQuery → MojDbIsamQuery × Except MojErr (List MojDbStorageItem)
  | 0, query => (query, .error (.assertFailed "the ranges hold finitely many keys"))
  | calls + 1, query =>
    match get store query with
    | (query, .error err) => (query, .error err)
    | (query, .ok none) => (query, .ok [])
    | (query, .ok (some item)) =>
      let later := getAll store calls query
      (later.1, later.2.map (item :: ·))

/-- One page of a find: its items, and the key of the next page. -/
def findPage (store : MojDbIndexStore) (index : MojDbIndex) (query : MojDbQuery) :
    Except MojErr (List MojDbStorageItem × MojDbKey) := do
  let plan ← MojDbQueryPlan.init query index
  let cursor := openQuery plan []
  let read := getAll store (callBound store cursor) cursor
  let items ← read.2
  .ok (items, read.1.nextPage)

/-- Page after page, each asked for with the object the page before it sent. -/
def findPages (store : MojDbIndexStore) (index : MojDbIndex) :
    Nat → MojDbQuery → Except MojErr (List (List MojDbStorageItem))
  | 0, _ => .error (.assertFailed "there are finitely many pages")
  | pages + 1, query => do
    let (items, next) ← findPage store index query
    if next = [] then .ok [items]
    else do
      let page ← MojDbQuery.Page.fromObject index.locale (MojDbQuery.Page.toObject next)
      let later ← findPages store index pages { query with page := page }
      .ok (items :: later)

namespace Feed

/-- `get` until nothing is found, on the keys ahead. -/
def fetchAll (feed : Feed) : List MojDbKey → Tally → Tally × Except MojErr (List MojDbStorageItem)
  | [], tally => (tally, .ok [])
  | key :: rest, tally =>
    if feed.limit ≤ tally.count then (tally, .ok [])
    else
      match feed.receive key tally with
      | (tally, .error err) =>
        if err = .internalIndexOnFind then feed.fetchAll rest tally else (tally, .error err)
      | (tally, .ok none) => feed.fetchAll rest tally
      | (tally, .ok (some item)) =>
        let later := feed.fetchAll rest tally
        (later.1, later.2.map (item :: ·))

/-- The items the keys lead to, up to an error that is not a ghost key's. -/
def items (feed : Feed) : List MojDbKey → Except MojErr (List MojDbStorageItem)
  | [] => .ok []
  | key :: rest =>
    match feed.look key with
    | .error err => if err = .internalIndexOnFind then feed.items rest else .error err
    | .ok none => feed.items rest
    | .ok (some item) => (feed.items rest).map (item :: ·)

theorem fetchAll_stopped (feed : Feed) (keys : List MojDbKey) {tally : Tally}
    (stopped : feed.limit ≤ tally.count) : feed.fetchAll keys tally = (tally, .ok []) := by
  cases keys with
  | nil => rfl
  | cons key keys => rw [fetchAll, if_pos stopped]

theorem fetchAll_fetch (feed : Feed) (entries : List Entry) (tally : Tally) :
    feed.fetchAll (entries.map Prod.fst) tally =
      match feed.fetch entries tally with
      | ⟨_, tally, .error err⟩ => (tally, .error err)
      | ⟨_, tally, .ok none⟩ => (tally, .ok [])
      | ⟨rest, tally, .ok (some item)⟩ =>
        ((feed.fetchAll (rest.map Prod.fst) tally).1,
          (feed.fetchAll (rest.map Prod.fst) tally).2.map (item :: ·)) := by
  induction entries generalizing tally with
  | nil => rfl
  | cons entry entries ih =>
    rw [List.map_cons, fetchAll, fetch]
    by_cases stopped : feed.limit ≤ tally.count
    · simp only [if_pos stopped]
    · simp only [if_neg stopped]
      rcases feed.receive entry.1 tally with ⟨next, result⟩
      cases result with
      | error err =>
        simp only
        split_ifs with ghost
        · exact ih next
        · rfl
      | ok item =>
        cases item with
        | none => exact ih next
        | some item => rfl

theorem fetch_shorter {feed : Feed} {entries rest : List Entry} {tally after : Tally}
    {item : MojDbStorageItem} (fetched : feed.fetch entries tally = ⟨rest, after, .ok (some item)⟩) :
    rest.length < entries.length := by
  induction entries generalizing tally with
  | nil => simp [fetch] at fetched
  | cons entry entries ih =>
    rw [fetch] at fetched
    rw [List.length_cons]
    split_ifs at fetched
    · simp at fetched
    · rcases received : feed.receive entry.1 tally with ⟨next, result⟩
      rw [received] at fetched
      cases result with
      | error err =>
        simp only at fetched
        split_ifs at fetched
        · exact Nat.lt_succ_of_lt (ih fetched)
        · simp at fetched
      | ok found =>
        cases found with
        | none => exact Nat.lt_succ_of_lt (ih fetched)
        | some other =>
          simp only [Fetched.mk.injEq] at fetched
          rw [fetched.1]
          exact Nat.lt_succ_self _

end Feed

variable {store : MojDbIndexStore}

theorem getAll_fetchAll (calls : Nat) {query : MojDbIsamQuery} {pending : List Entry}
    (quiet : query.verify = false) (scans : Scans store query pending)
    (enough : pending.length < calls) :
    ∃ after, getAll store calls query =
        (after, ((feed store query).fetchAll (pending.map Prod.fst) query.tally).2) ∧
      after.tally = ((feed store query).fetchAll (pending.map Prod.fst) query.tally).1 ∧
      Kept query after := by
  induction calls generalizing query pending with
  | zero => exact absurd enough (Nat.not_lt_zero _)
  | succ calls ih =>
    rcases get_fetch quiet scans with ⟨after, got, tallied, kept, moved⟩
    rw [getAll, got, Feed.fetchAll_fetch]
    rcases fetched : (feed store query).fetch pending query.tally with ⟨rest, tally, found⟩
    rw [fetched] at tallied moved
    cases found with
    | error err => exact ⟨after, rfl, tallied, kept⟩
    | ok found =>
      cases found with
      | none => exact ⟨after, rfl, tallied, kept⟩
      | some item =>
        have shorter := Feed.fetch_shorter fetched
        have fits : rest.length < calls :=
          Nat.lt_of_lt_of_le shorter (Nat.le_of_lt_succ enough)
        rcases ih (kept.verify.trans quiet) moved fits with
          ⟨last, ran, lastTally, lastKept⟩
        rw [kept.feed store, tallied] at ran lastTally
        refine ⟨last, ?_, lastTally, kept.trans lastKept⟩
        simp only [ran]

end MojDbIsamQuery

namespace MojDbQueryPlan

theorem init_idIndex {index : MojDbIndex} {query : MojDbQuery} {plan : MojDbQueryPlan}
    (built : init query index = .ok plan) : plan.idIndex = index.idIndex := by
  unfold init at built
  cases planning : planQuery query index with
  | error err => simp [planning, bind, Except.bind] at built
  | ok planned =>
    cases building : buildRanges planned index with
    | error err => simp [planning, building, bind, Except.bind] at built
    | ok ranges =>
      simp only [planning, building, bind, Except.bind, Except.ok.injEq] at built
      rw [← built]

theorem planQuery_page {index : MojDbIndex} {query planned : MojDbQuery}
    (planning : planQuery query index = .ok planned) :
    ∃ clauses, planned = { query with whereClauses := clauses } ∧
      ∀ page limit, planQuery { query with page := page, limit := limit } index =
        .ok { query with whereClauses := clauses, page := page, limit := limit } := by
  unfold planQuery MojDbQuery.addWhere at planning
  unfold planQuery MojDbQuery.addWhere
  by_cases skipped : index.includeDeleted = true ∧ ¬ query.whereClauses.contains delKey = true
  · rw [if_pos skipped] at planning
    cases adding : query.whereClauses.addClause delKey .eq (.bool false) .invalid with
    | error err => simp [adding, bind, Except.bind] at planning
    | ok clauses =>
      simp only [adding, bind, Except.bind, Except.ok.injEq] at planning
      refine ⟨clauses, planning.symm, ?_⟩
      intro page limit
      rw [if_pos skipped]
      simp only [adding, bind, Except.bind]
  · rw [if_neg skipped, Except.ok.injEq] at planning
    refine ⟨query.whereClauses, planning.symm, ?_⟩
    intro page limit
    rw [if_neg skipped]

theorem canAnswerFrom_page (query : MojDbQuery) (page : MojDbKey) (limit : MojUInt32)
    (numQueryProps : Nat) (props : List MojDbExtractor) :
    MojDbIndex.canAnswerFrom { query with page := page, limit := limit } numQueryProps props =
      MojDbIndex.canAnswerFrom query numQueryProps props := by
  induction props generalizing numQueryProps with
  | nil => rfl
  | cons prop props ih =>
    rw [MojDbIndex.canAnswerFrom, MojDbIndex.canAnswerFrom, ih]

theorem canAnswer_page (index : MojDbIndex) (query : MojDbQuery) (page : MojDbKey)
    (limit : MojUInt32) :
    index.canAnswer { query with page := page, limit := limit } = index.canAnswer query := by
  have props : index.queryProps { query with page := page, limit := limit } =
      index.queryProps query := rfl
  unfold MojDbIndex.canAnswer
  simp only [props, canAnswerFrom_page]

theorem init_pages {index : MojDbIndex} {query : MojDbQuery} {plan : MojDbQueryPlan}
    (answers : index.canAnswer query = true) (built : init query index = .ok plan) :
    ∃ raw : List MojDbKeyRange, ∀ page limit, ∃ paged,
      init { query with page := page, limit := limit } index = .ok paged ∧
      paged.query.desc = query.desc ∧ paged.query.distinct = query.distinct ∧
      paged.query.limit = limit ∧ paged.idIndex = index.idIndex ∧
      ScanOrdered paged.query.desc paged.ranges ∧
      ∀ key, (∃ range ∈ paged.ranges, range.contains key) ↔
        (∃ range ∈ raw, range.contains key) ∧ OnPage page query.desc key := by
  rcases init_spec answers with ⟨planned, bound, rest, planning, answered, from_, builds, fails⟩
  have plannable : Plannable query.whereClauses := by
    by_contra unplannable
    rcases fails unplannable with ⟨text, stuck⟩
    rw [stuck] at built
    cases built
  rcases builds plannable with ⟨_, ranges, _, _, spec, _⟩
  rcases spec.clipped with ⟨raw, computed, _⟩
  rcases planQuery_page planning with ⟨clauses, plannedEq, replanned⟩
  refine ⟨raw, ?_⟩
  intro page limit
  have pageAnswers := (canAnswer_page index query page limit).trans answers
  rcases init_spec pageAnswers with ⟨pagePlanned, _, _, pagePlanning, _, pageFrom, pageBuilds, _⟩
  rcases pageBuilds plannable with ⟨paged, pageRanges, pageBuilt, queryEq, pageSpec, rangesEq⟩
  rw [replanned page limit, Except.ok.injEq] at pagePlanning
  rcases pageSpec.clipped with ⟨other, otherComputed, clipped⟩
  have sameRaw : other = raw := by
    rw [← pagePlanning] at otherComputed
    rw [plannedEq] at computed
    exact Except.ok.inj (otherComputed.symm.trans computed)
  refine ⟨paged, pageBuilt, ?_, ?_, ?_, init_idIndex pageBuilt, ?_, ?_⟩
  · rw [queryEq, pageFrom.desc]
  · rw [queryEq, ← pagePlanning]
  · rw [queryEq, ← pagePlanning]
  · rw [queryEq, pageFrom.desc, rangesEq]
    exact scanOrdered_of_spec pageSpec query.desc
  · intro key
    have exact := clipped key
    rw [sameRaw, pageFrom.page, pageFrom.desc] at exact
    rw [← exact, rangesEq]
    split_ifs <;> simp

end MojDbQueryPlan

end Db8.Db
