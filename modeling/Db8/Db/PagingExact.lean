import Db8.Db.Serve

/-!
# Pages add up

A page of a find serves the first hits behind its key, and the page behind it starts with the rest.
Without duplicates to suppress every hit is delivered, so the pages put together are one run without
a limit.
-/

set_option autoImplicit false

namespace Db8.Db

open Db8.Bytes
open Db8.Core

namespace MojDbIsamQuery

open MojDbQueryPlan

namespace Feed

variable {feed : Feed}

variable {last : Option MojObject}

theorem serve_length (room : Nat) {found : List Hit} {page : Served}
    (served : feed.serve room last found = .ok page) : page.delivered.length ≤ room := by
  induction found generalizing room last page with
  | nil =>
    cases room with
    | zero =>
      rw [serve, Except.ok.injEq] at served
      rw [← served]
      exact Nat.le_refl 0
    | succ room =>
      rw [serve, Except.ok.injEq] at served
      rw [← served]
      exact Nat.zero_le _
  | cons hit found ih =>
    cases room with
    | zero =>
      rw [serve, Except.ok.injEq] at served
      rw [← served]
      exact Nat.le_refl 0
    | succ room =>
      rcases hit with ⟨key, result⟩
      rw [serve] at served
      cases result with
      | error err => cases served
      | ok item =>
        simp only at served
        cases accepted : feed.accept last item.obj with
        | error err => simp [accepted] at served
        | ok fresh =>
          cases fresh with
          | false =>
            simp only [accepted] at served
            exact ih (room + 1) served
          | true =>
            simp only [accepted] at served
            cases later : feed.serve room (feed.keep last item.obj) found with
            | error err => simp [later, Except.map] at served
            | ok rest =>
              simp only [later, Except.map, Except.ok.injEq] at served
              rw [← served]
              exact Nat.succ_le_succ (ih room later)

theorem serve_collect {room : Nat} {found : List Hit} {page : Served}
    (served : feed.serve room last found = .ok page) :
    ∃ items, collect page.delivered = .ok items := by
  induction found generalizing room last page with
  | nil =>
    cases room with
    | zero =>
      rw [serve, Except.ok.injEq] at served
      rw [← served]
      exact ⟨[], rfl⟩
    | succ room =>
      rw [serve, Except.ok.injEq] at served
      rw [← served]
      exact ⟨[], rfl⟩
  | cons hit found ih =>
    cases room with
    | zero =>
      rw [serve, Except.ok.injEq] at served
      rw [← served]
      exact ⟨[], rfl⟩
    | succ room =>
      rcases hit with ⟨key, result⟩
      rw [serve] at served
      cases result with
      | error err => cases served
      | ok item =>
        simp only at served
        cases accepted : feed.accept last item.obj with
        | error err => simp [accepted] at served
        | ok fresh =>
          cases fresh with
          | false =>
            simp only [accepted] at served
            exact ih served
          | true =>
            simp only [accepted] at served
            cases later : feed.serve room (feed.keep last item.obj) found with
            | error err => simp [later, Except.map] at served
            | ok rest =>
              simp only [later, Except.map, Except.ok.injEq] at served
              rcases ih later with ⟨items, collected⟩
              rw [← served]
              exact ⟨item :: items, by simp only [collect, collected, Except.map]⟩

theorem serve_full (room : Nat) {found : List Hit} {page : Served}
    (served : feed.serve (room + 1) last found = .ok page) (full : room + 1 ≤ page.delivered.length) :
    ∃ front hit before, page.delivered = front ++ [hit] ∧ found = before ++ hit :: page.rest := by
  induction found generalizing room last page with
  | nil =>
    rw [serve, Except.ok.injEq] at served
    rw [← served] at full
    exact absurd full (Nat.not_succ_le_zero room)
  | cons hit found ih =>
    rw [serve] at served
    cases looked : hit.2 with
    | error err => simp [looked] at served
    | ok item =>
      simp only [looked] at served
      cases accepted : feed.accept last item.obj with
      | error err => simp [accepted] at served
      | ok fresh =>
        cases fresh with
        | false =>
          simp only [accepted] at served
          rcases ih room served full with ⟨front, final, before, delivered, split⟩
          exact ⟨front, final, hit :: before, delivered, by rw [split, List.cons_append]⟩
        | true =>
          simp only [accepted] at served
          cases later : feed.serve room (feed.keep last item.obj) found with
          | error err => simp [later, Except.map] at served
          | ok rest =>
            simp only [later, Except.map, Except.ok.injEq] at served
            rw [← served] at full ⊢
            cases room with
            | zero =>
              rw [serve, Except.ok.injEq] at later
              rw [← later]
              exact ⟨[], hit, [], rfl, rfl⟩
            | succ room =>
              rcases ih room later (Nat.le_of_succ_le_succ full) with
                ⟨front, final, before, delivered, split⟩
              refine ⟨hit :: front, final, hit :: before, ?_, ?_⟩
              · rw [delivered, List.cons_append]
              · rw [split, List.cons_append]

theorem serve_plain (plain : feed.distinct = []) (room : Nat) (last : Option MojObject)
    (found : List Hit) :
    feed.serve room last found =
      (collect (found.take room)).map fun _ => ⟨found.take room, found.drop room⟩ := by
  induction found generalizing room last with
  | nil => cases room <;> rfl
  | cons hit found ih =>
    cases room with
    | zero => rfl
    | succ room =>
      rcases hit with ⟨key, result⟩
      rw [serve, List.take_succ_cons, List.drop_succ_cons]
      cases result with
      | error err => rfl
      | ok item =>
        have fresh : feed.accept last item.obj = .ok true := by
          rw [accept, if_pos plain]
        simp only [fresh, collect, ih]
        cases collect (found.take room) <;> rfl

theorem serveAll_plain (plain : feed.distinct = []) (positive : 1 ≤ feed.limit) (pages : Nat)
    (found : List Hit) (enough : found.length < pages) :
    (feed.serveAll pages found).bind collect = collect found := by
  induction pages generalizing found with
  | zero => exact absurd enough (Nat.not_lt_zero _)
  | succ pages ih =>
    have parts := List.take_append_drop feed.limit found
    rw [serveAll, serve_plain plain]
    by_cases full : feed.limit ≤ found.length
    · have shorter : (found.drop feed.limit).length < pages := by
        rw [List.length_drop]
        omega
      have later := ih (found.drop feed.limit) shorter
      have whole := collect_append (found.take feed.limit) (found.drop feed.limit)
      rw [parts] at whole
      rw [whole]
      cases collected : collect (found.take feed.limit) with
      | error err => rfl
      | ok items =>
        simp only [Except.map, bind, Except.bind, List.length_take_of_le full, Nat.le_refl,
          if_true]
        rw [← later]
        cases feed.serveAll pages (found.drop feed.limit) with
        | error err => rfl
        | ok others =>
          simp only [Except.bind, collect_append, collected, Except.map]
    · have short := not_le.mp full
      rw [List.take_of_length_le short.le]
      cases collected : collect found with
      | error err => rfl
      | ok items =>
        simp only [Except.map, bind, Except.bind, full, if_false, collected]

end Feed

theorem getVal_included (store : MojDbIndexStore) (idIndex : Nat) (key : MojDbKey) :
    getVal store [] idIndex key ≠ .ok none := by
  unfold getVal
  cases parseId idIndex key with
  | error err => simp [bind, Except.bind]
  | ok id =>
    simp only [bind, Except.bind, getById]
    cases store.joinDb (id.getD .null) <;> simp

def findFeed (store : MojDbIndexStore) (index : MojDbIndex) (query : MojDbQuery) : Feed where
  look := getVal store [] index.idIndex
  distinct := query.distinct
  desc := query.desc
  limit := query.limit.toNat

def pageHits (store : MojDbIndexStore) (index : MojDbIndex) (query : MojDbQuery)
    (raw : List MojDbKeyRange) (page : MojDbKey) : List Hit :=
  (findFeed store index query).hits (pageKeys store query.desc raw page)

/-- The items a plan's keys lead to, up to the first error. -/
def everyItem (store : MojDbIndexStore) (plan : MojDbQueryPlan) :
    Except MojErr (List MojDbStorageItem) :=
  (planFeed store plan []).items ((covered store plan).map Prod.fst)

section Find

variable {store : MojDbIndexStore} {index : MojDbIndex} {query : MojDbQuery}
  {raw : List MojDbKeyRange}

/-- All pages of a query are cut from the ranges `raw`. -/
def CutFrom (index : MojDbIndex) (query : MojDbQuery) (raw : List MojDbKeyRange) : Prop :=
  ∀ page limit, ∃ paged,
    init { query with page := page, limit := limit } index = .ok paged ∧
    paged.query.desc = query.desc ∧ paged.query.distinct = query.distinct ∧
    paged.query.limit = limit ∧ paged.idIndex = index.idIndex ∧
    ScanOrdered paged.query.desc paged.ranges ∧
    ∀ key, (∃ range ∈ paged.ranges, range.contains key) ↔
      (∃ range ∈ raw, range.contains key) ∧ OnPage page query.desc key

/-- A fresh query on the plan of a page has the page's keys ahead. -/
theorem CutFrom.opens (cut : CutFrom index query raw) (store : MojDbIndexStore)
    (page : MojDbKey) (limit : MojUInt32) :
    ∃ paged, init { query with page := page, limit := limit } index = .ok paged ∧
      planFeed store paged [] = findFeed store index { query with limit := limit } ∧
      (covered store paged).map Prod.fst = pageKeys store query.desc raw page ∧
      Scans store (openQuery paged []) (covered store paged) := by
  rcases cut page limit with ⟨paged, built, descEq, distinctEq, limitEq, idEq, ordered, clipped⟩
  refine ⟨paged, built, ?_, ?_, ?_⟩
  · unfold planFeed feed findFeed openQuery
    simp only [descEq, limitEq, idEq, distinctEq]
  · rw [covered_keys, pageKeys, descEq]
    apply List.filter_congr
    intro key _
    rw [Bool.eq_iff_iff, decide_eq_true_eq, decide_eq_true_eq]
    exact clipped key
  · rw [← heldBy_eq_covered store ordered]
    exact openQuery_scans store [] ordered

/-- The key of the page behind a page that delivered some hits. -/
def nextKey (feed : Feed) (delivered : List Hit) : MojDbKey :=
  if feed.limit ≤ delivered.length then feed.endKeyAfter ⟨0, none, []⟩ delivered else []

theorem findPage_serve (cut : CutFrom index query raw) (store : MojDbIndexStore) (page : MojDbKey)
    (limit : MojUInt32) :
    findPage store index { query with page := page, limit := limit } =
      ((findFeed store index { query with limit := limit }).serve limit.toNat none
        (pageHits store index query raw page)).bind fun served =>
          (collect served.delivered).map fun items =>
            (items, nextKey (findFeed store index { query with limit := limit })
              served.delivered) := by
  rcases cut.opens store page limit with ⟨paged, built, feedEq, keysEq, scans⟩
  rcases getAll_fetchAll (callBound store (openQuery paged [])) rfl scans scans.length_lt with
    ⟨after, read, tallied, kept⟩
  have start : (openQuery paged []).tally = ⟨0, none, []⟩ := rfl
  have fed : feed store (openQuery paged []) = findFeed store index { query with limit := limit } :=
    feedEq
  rw [fed, keysEq, start] at read tallied
  have serves := @Feed.fetchAll_serves (findFeed store index { query with limit := limit })
    (getVal_included store index.idIndex) (pageKeys store query.desc raw page) ⟨0, none, []⟩
  have sameHits : (findFeed store index { query with limit := limit }).hits
      (pageKeys store query.desc raw page) = pageHits store index query raw page := rfl
  have sameLimit : (findFeed store index { query with limit := limit }).limit - 0 =
    limit.toNat := rfl
  rw [sameHits, sameLimit] at serves
  simp only [findPage, built, bind, Except.bind, read]
  cases served : (findFeed store index { query with limit := limit }).serve limit.toNat none
      (pageHits store index query raw page) with
  | error err =>
    rw [served] at serves
    simp only [Feed.Serves] at serves
    simp only [serves]
  | ok page' =>
    rw [served] at serves
    rcases serves with ⟨items, count, endKey⟩
    rw [Nat.zero_add] at count
    simp only [items]
    cases collect page'.delivered with
    | error err => rfl
    | ok list =>
      simp only [Except.map, Except.ok.injEq, Prod.mk.injEq, true_and]
      unfold nextPage nextKey
      have limitEq : (feed store after).limit =
          (findFeed store index { query with limit := limit }).limit := by
        rw [kept.feed store, fed]
      have enforced : after.limitEnforced = true ↔
          (findFeed store index { query with limit := limit }).limit ≤
            page'.delivered.length := by
        rw [@limitEnforced_true_iff store after, limitEq, tallied, count]
      by_cases reached : (findFeed store index { query with limit := limit }).limit ≤
          page'.delivered.length
      · rw [if_pos (enforced.mpr reached), if_pos reached, ← endKey, ← tallied]
        rfl
      · rw [if_neg (mt enforced.mp reached), if_neg reached]

theorem pageHits_next {indexes : List MojDbIndex} (stored : KeysOf indexes store.keys)
    {page : MojDbKey} {served : Feed.Served} (positive : 1 ≤ query.limit.toNat)
    (serves : (findFeed store index query).serve query.limit.toNat none
      (pageHits store index query raw page) = .ok served)
    (full : query.limit.toNat ≤ served.delivered.length) :
    nextKey (findFeed store index query) served.delivered ≠ [] ∧
      pageHits store index query raw (nextKey (findFeed store index query) served.delivered) =
        served.rest := by
  rcases Nat.exists_eq_add_of_le' positive with ⟨room, limitEq⟩
  rw [limitEq] at serves full
  rcases Feed.serve_full room serves full with ⟨front, hit, before, delivered, split⟩
  rcases Feed.hits_split split with ⟨first, behind, keysSplit, remaining⟩
  have member : hit.1 ∈ pageKeys store query.desc raw page := by
    rw [keysSplit]
    exact List.mem_append_right _ List.mem_cons_self
  have keyIn := (mem_pageKeys.mp member).1
  have reached : (findFeed store index query).limit ≤ served.delivered.length := by
    show query.limit.toNat ≤ _
    rw [limitEq]
    exact full
  have next : nextKey (findFeed store index query) served.delivered =
      if query.desc then hit.1 else MojDbKey.increment hit.1 := by
    rw [nextKey, if_pos reached, Feed.endKeyAfter, delivered, List.getLast?_concat]
    rw [delivered] at reached
    simp only [Nat.zero_add]
    rw [if_pos reached]
    rfl
  rw [next]
  constructor
  · split_ifs
    · exact stored.ne_nil keyIn
    · exact stored.successor_ne_nil keyIn
  · rw [pageHits, pageKeys_next stored keysSplit]
    exact remaining

theorem findPages_serveAll {indexes : List MojDbIndex} (cut : CutFrom index query raw)
    (stored : KeysOf indexes store.keys) (positive : 1 ≤ query.limit.toNat) (pages : Nat)
    (page : MojDbKey) :
    (findPages store index pages { query with page := page }).map List.flatten =
      ((findFeed store index query).serveAll pages (pageHits store index query raw page)).bind
        collect := by
  induction pages generalizing page with
  | zero => rfl
  | succ pages ih =>
    have first := findPage_serve cut store page query.limit
    have samePage : { query with page := page } =
      { query with page := page, limit := query.limit } := rfl
    have sameQuery : ({ query with limit := query.limit } : MojDbQuery) = query := rfl
    rw [sameQuery] at first
    rw [findPages, samePage, first, Feed.serveAll]
    have limitEq : (findFeed store index query).limit = query.limit.toNat := rfl
    rw [limitEq]
    cases serves : (findFeed store index query).serve query.limit.toNat none
        (pageHits store index query raw page) with
    | error err => rfl
    | ok served =>
      rcases Feed.serve_collect serves with ⟨items, collected⟩
      simp only [bind, Except.bind, collected, Except.map]
      by_cases full : query.limit.toNat ≤ served.delivered.length
      · rcases pageHits_next stored positive serves full with ⟨next, remaining⟩
        have later := ih (nextKey (findFeed store index query) served.delivered)
        rw [remaining] at later
        simp only [next, if_false, full, if_true, MojDbQuery.Page.fromObject_toObject]
        cases all : (findFeed store index query).serveAll pages served.rest with
        | error err =>
          rw [all] at later
          cases rest : findPages store index pages { query with
              page := nextKey (findFeed store index query) served.delivered } with
          | error other =>
            rw [rest] at later
            simp only [Except.map, Except.bind] at later
            simp only [later]
          | ok others => simp [rest, Except.map, Except.bind] at later
        | ok hits =>
          rw [all] at later
          simp only [Except.bind] at later
          simp only [collect_append, collected, Except.bind, ← later]
          cases findPages store index pages { query with
              page := nextKey (findFeed store index query) served.delivered } <;> rfl
      · have stop : nextKey (findFeed store index query) served.delivered = [] := by
          unfold nextKey
          rw [limitEq, if_neg full]
        simp only [stop, if_true, full, if_false, collected, List.flatten_cons,
          List.flatten_nil, List.append_nil]

/-- Page by page a find returns what it returns at once, and the page that is not full is the last
one. -/
theorem find_paged (indexes : List MojDbIndex) (store : MojDbIndexStore) (index : MojDbIndex)
    (query : MojDbQuery) (plan : MojDbQueryPlan) (stored : KeysOf indexes store.keys)
    (answers : index.canAnswer query = true) (built : init query index = .ok plan)
    (noDistinct : query.distinct = []) (positive : 1 ≤ query.limit.toNat) :
    (∃ enough, ∀ pages, enough ≤ pages →
      (findPages store index pages query).map List.flatten = everyItem store plan) ∧
    ((covered store plan).length ≤ MojDbQuery.limitDefault.toNat →
      (findPage store index { query with limit := MojDbQuery.limitDefault }).map Prod.fst =
        everyItem store plan) ∧
    ∀ page items next, findPage store index { query with page := page } = .ok (items, next) →
      items.length < query.limit.toNat → next = [] := by
  rcases init_pages answers built with ⟨raw, cut⟩
  have cutFrom : CutFrom index query raw := cut
  rcases cutFrom.opens store query.page query.limit with ⟨paged, pagedBuilt, feedEq, keysEq, _⟩
  have samePlan : paged = plan := Except.ok.inj (pagedBuilt.symm.trans built)
  rw [samePlan] at feedEq keysEq
  have every : everyItem store plan = collect (pageHits store index query raw query.page) := by
    rw [everyItem, feedEq, keysEq, Feed.items_eq_collect]
    rfl
  refine ⟨?_, ?_, ?_⟩
  · refine ⟨(pageHits store index query raw query.page).length + 1, ?_⟩
    intro pages enough
    have served := findPages_serveAll cutFrom stored positive pages query.page
    rw [every]
    exact served.trans (Feed.serveAll_plain noDistinct positive pages _ enough)
  · intro small
    have few : (pageHits store index query raw query.page).length ≤
        MojDbQuery.limitDefault.toNat := by
      have shorter := List.length_filterMap_le (findFeed store index query).hit
        (pageKeys store query.desc raw query.page)
      rw [← keysEq, List.length_map, keysEq] at shorter
      exact shorter.trans small
    have once := findPage_serve cutFrom store query.page MojDbQuery.limitDefault
    rw [Feed.serve_plain noDistinct, List.take_of_length_le few] at once
    have samePage : { query with limit := MojDbQuery.limitDefault } =
        { query with page := query.page, limit := MojDbQuery.limitDefault } := rfl
    rw [every, samePage, once]
    cases collected : collect (pageHits store index query raw query.page) with
    | error err => rfl
    | ok items => simp [Except.map, Except.bind, collected]
  · intro page items next found short
    have first := findPage_serve cutFrom store page query.limit
    have samePage : { query with page := page } =
        { query with page := page, limit := query.limit } := rfl
    rw [samePage, first] at found
    cases serves : (findFeed store index { query with limit := query.limit }).serve
        query.limit.toNat none (pageHits store index query raw page) with
    | error err => simp [serves, Except.bind] at found
    | ok served =>
      simp only [serves, Except.bind] at found
      cases collected : collect served.delivered with
      | error err => simp [collected, Except.map] at found
      | ok others =>
        simp only [collected, Except.map, Except.ok.injEq, Prod.mk.injEq] at found
        rw [found.1] at collected
        rw [← found.2, nextKey]
        apply if_neg
        rw [← collect_length collected]
        exact not_le.mpr short

end Find

section Instances

/-- The items of `orderedStore`, found under their ids. -/
def pagedStore : MojDbIndexStore where
  engine := .level
  keys := orderedStore.keys
  joinDb id := some ⟨chars ['K'], .object [(idKey, id)]⟩

def pagedQuery : MojDbQuery := { orderedQuery with limit := 1 }

theorem orderedStore_keysOf : KeysOf [twoPropIndex] orderedStore.keys where
  spelled := by
    intro key member
    refine ⟨twoPropIndex, List.mem_singleton.mpr rfl, ?_⟩
    have either := (SortedSet.mem_ofList _ _).mp member
    rcases List.mem_cons.mp either with first | others
    · refine ⟨[MojDbKey.assign (.int 1) none, MojDbKey.assign (.int 5) none,
        MojDbKey.assign (.string (chars ['x'])) none], rfl, ?_, ?_⟩
      · simp [MojDbKey.assign_mem_codes]
      · rw [first]
        rfl
    · refine ⟨[MojDbKey.assign (.int 1) none, MojDbKey.assign (.int 2) none,
        MojDbKey.assign (.string (chars ['y'])) none], rfl, ?_, ?_⟩
      · simp [MojDbKey.assign_mem_codes]
      · rw [List.mem_singleton.mp others]
        rfl
  ids := List.nodup_singleton _

/-- One item a page, by `b`: first `y`, then `x`, then an empty page. -/
theorem pagedQuery_paged :
    findPages pagedStore twoPropIndex 3 pagedQuery =
      .ok [[⟨chars ['K'], .object [(idKey, .string (chars ['y']))]⟩],
        [⟨chars ['K'], .object [(idKey, .string (chars ['x']))]⟩], []] ∧
    ((∃ enough, ∀ pages, enough ≤ pages →
      (findPages pagedStore twoPropIndex pages pagedQuery).map List.flatten =
        everyItem pagedStore { orderedPlan with query := pagedQuery }) ∧
    ((covered pagedStore { orderedPlan with query := pagedQuery }).length ≤
        MojDbQuery.limitDefault.toNat →
      (findPage pagedStore twoPropIndex { pagedQuery with limit := MojDbQuery.limitDefault }).map
        Prod.fst = everyItem pagedStore { orderedPlan with query := pagedQuery }) ∧
    ∀ page items next,
      findPage pagedStore twoPropIndex { pagedQuery with page := page } = .ok (items, next) →
        items.length < pagedQuery.limit.toNat → next = []) :=
  ⟨rfl, find_paged [twoPropIndex] pagedStore twoPropIndex pagedQuery
    { orderedPlan with query := pagedQuery } orderedStore_keysOf (by decide) rfl rfl (by decide)⟩

end Instances

end MojDbIsamQuery

end Db8.Db
