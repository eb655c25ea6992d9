import Db8.Db.Paging

/-!
# Reading a search page by page

A search loads all it finds, sorts it, and delivers a stretch. The page behind it is the id of the
next object, taken for base 64 text; it is found again by comparing the text of the page with the
ids. An id that is not such a text leaves the page as it was.
-/

set_option autoImplicit false

namespace Db8.Db

open Db8.Bytes
open Db8.Core

namespace MojDbSearchCursor

/-- The part of a search query that decides about the order and the pages. `sort` does nothing if
the query has no order. -/
structure Arrangement where
  passes : MojObject → Bool
  sort : List MojObject → List MojObject
  permutes : ∀ items, (sort items).Perm items
  /-- The comparison of a distinct query. -/
  distinct : Option (MojObject → MojObject → Bool)
  desc : Bool
  limit : MojUInt32

/-- `loadObjects`, for an unchanged store. -/
def loadObjects (arrangement : Arrangement) (getById : MojObject → Option MojObject)
    (ids : List MojObject) : List MojObject :=
  (ids.filterMap getById).filter arrangement.passes

/-- `distinct`: an item is erased behind an equal one. -/
def distinctFrom (same : MojObject → MojObject → Bool) : MojObject → List MojObject → List MojObject
  | kept, [] => [kept]
  | kept, next :: rest =>
    if same kept next then distinctFrom same kept rest else kept :: distinctFrom same next rest

/-- `distinct` of a query that has it. -/
def dropEqual : Option (MojObject → MojObject → Bool) → List MojObject →
    Except MojErr (List MojObject)
  | none, items => .ok items
  | some _, [] => .error (.assertFailed "!m_items.empty()")
  | some same, first :: rest => .ok (distinctFrom same first rest)

/-- `load` up to the position of the page. -/
def arrange (arrangement : Arrangement) (getById : MojObject → Option MojObject)
    (ids : List MojObject) : Except MojErr (List MojObject) :=
  (dropEqual arrangement.distinct (arrangement.sort (loadObjects arrangement getById ids))).map
    fun items => if arrangement.desc then items.reverse else items

def itemId (obj : MojObject) : MojObject := (obj.get idKey).getD .null

/-- `m_page.fromObject`, whose error is not looked at. -/
def setPage (locale : MojDbLocale) (page : MojDbKey) (id : MojObject) : MojDbKey :=
  match MojDbQuery.Page.fromObject locale id with
  | .error _ => page
  | .ok key => key

def position (locale : MojDbLocale) (limit : MojUInt32) (page : MojDbKey)
    (ahead : List MojObject) : List MojObject × MojDbKey :=
  match ahead[limit.toNat]? with
  | none => (ahead, [])
  | some next => (ahead.take limit.toNat, setPage locale page (itemId next))

def locate (items : List MojObject) (page : MojDbKey) : List MojObject :=
  items.dropWhile fun obj => decide (MojDbQuery.Page.toObject page ≠ itemId obj)

/-- The end of `load`; a page that is not found stays. -/
def serve (locale : MojDbLocale) (limit : MojUInt32) (items : List MojObject) (page : MojDbKey) :
    List MojObject × MojDbKey :=
  if page = [] then position locale limit [] items
  else
    match locate items page with
    | [] => ([], page)
    | first :: rest => position locale limit page (first :: rest)

/-- `init` with the page of the query. -/
def initPage (locale : MojDbLocale) (page : MojDbKey) : MojDbKey :=
  if page = [] then [] else setPage locale [] (MojDbQuery.Page.toObject page)

/-- Page after page, each asked for with the object the page before it sent. -/
def searchPages (locale : MojDbLocale) (limit : MojUInt32) (items : List MojObject) :
    Nat → MojDbKey → Except MojErr (List (List MojObject))
  | 0, _ => .error (.assertFailed "there are finitely many pages")
  | pages + 1, page => do
    let served := serve locale limit items (initPage locale page)
    if served.2 = [] then .ok [served.1]
    else do
      let next ← MojDbQuery.Page.fromObject locale (MojDbQuery.Page.toObject served.2)
      let later ← searchPages locale limit items pages next
      .ok (served.1 :: later)

def Canonical (locale : MojDbLocale) (id : MojObject) : Prop :=
  ∃ key, MojDbQuery.Page.fromObject locale id = .ok key ∧ key ≠ [] ∧
    MojDbQuery.Page.toObject key = id

section Arranged

variable {arrangement : Arrangement} {getById : MojObject → Option MojObject}

theorem distinctFrom_sublist (same : MojObject → MojObject → Bool) (kept : MojObject)
    (rest : List MojObject) : (distinctFrom same kept rest).Sublist (kept :: rest) := by
  induction rest generalizing kept with
  | nil => exact List.Sublist.refl _
  | cons next rest ih =>
    rw [distinctFrom]
    split_ifs
    · exact (ih kept).trans ((List.sublist_cons_self next rest).cons_cons kept)
    · exact (ih next).cons_cons kept

theorem dropEqual_sublist {distinct : Option (MojObject → MojObject → Bool)}
    {items kept : List MojObject} (dropped : dropEqual distinct items = .ok kept) :
    kept.Sublist items := by
  cases distinct with
  | none =>
    cases dropped
    exact List.Sublist.refl _
  | some same =>
    cases items with
    | nil => cases dropped
    | cons first rest =>
      cases dropped
      exact distinctFrom_sublist same first rest

theorem arrange_nodup {ids items : List MojObject} (nodup : ids.Nodup)
    (named : ∀ id obj, getById id = some obj → obj.get idKey = some id)
    (arranged : arrange arrangement getById ids = .ok items) : (items.map itemId).Nodup := by
  have found : ∀ ids : List MojObject, ((ids.filterMap getById).map itemId).Sublist ids := by
    intro ids
    induction ids with
    | nil => exact List.Sublist.refl _
    | cons id rest ih =>
      cases got : getById id with
      | none =>
        rw [List.filterMap_cons_none got]
        exact ih.cons id
      | some obj =>
        rw [List.filterMap_cons_some got, List.map_cons, itemId, named id obj got]
        exact ih.cons_cons id
  have loaded : ((loadObjects arrangement getById ids).map itemId).Nodup :=
    (nodup.sublist (found ids)).sublist (List.filter_sublist.map itemId)
  have sorted : ((arrangement.sort (loadObjects arrangement getById ids)).map itemId).Nodup :=
    ((arrangement.permutes _).map itemId).nodup_iff.mpr loaded
  unfold arrange at arranged
  cases kept : dropEqual arrangement.distinct
      (arrangement.sort (loadObjects arrangement getById ids)) with
  | error err =>
    rw [kept] at arranged
    cases arranged
  | ok left =>
    rw [kept] at arranged
    cases arranged
    have leftNodup := sorted.sublist ((dropEqual_sublist kept).map itemId)
    split_ifs
    · rw [List.map_reverse, List.nodup_reverse]
      exact leftNodup
    · exact leftNodup

end Arranged

section Pages

variable {locale : MojDbLocale} {limit : MojUInt32} {items : List MojObject}

theorem initPage_eq (locale : MojDbLocale) (page : MojDbKey) : initPage locale page = page := by
  unfold initPage setPage
  split_ifs with none
  · exact none.symm
  · rw [MojDbQuery.Page.fromObject_toObject]

theorem searchPages_succ (pages : Nat) (page : MojDbKey) :
    searchPages locale limit items (pages + 1) page =
      if (serve locale limit items page).2 = [] then .ok [(serve locale limit items page).1]
      else (searchPages locale limit items pages (serve locale limit items page).2).map
        ((serve locale limit items page).1 :: ·) := by
  rw [searchPages, initPage_eq]
  simp only [MojDbQuery.Page.fromObject_toObject]
  split_ifs
  · rfl
  · cases later : searchPages locale limit items pages (serve locale limit items page).2 <;>
      simp [later, bind, Except.bind, Except.map]

variable {page : MojDbKey}

theorem locate_eq (nodup : (items.map itemId).Nodup) {start : Nat} {obj : MojObject}
    (there : items[start]? = some obj) (named : MojDbQuery.Page.toObject page = itemId obj) :
    locate items page = items.drop start := by
  induction items generalizing start with
  | nil => cases there
  | cons head items ih =>
    rw [List.map_cons, List.nodup_cons] at nodup
    unfold locate
    cases start with
    | zero =>
      cases there
      rw [List.dropWhile_cons_of_neg (by simp [named])]
      rfl
    | succ start =>
      have other : MojDbQuery.Page.toObject page ≠ itemId head := by
        rw [named]
        intro same
        exact nodup.1 (same ▸ List.mem_map_of_mem (List.mem_of_getElem? there))
      rw [List.dropWhile_cons_of_pos (by simpa using other)]
      exact ih nodup.2 there

theorem locate_cons {first : MojObject} {rest : List MojObject}
    (located : locate items page = first :: rest) :
    MojDbQuery.Page.toObject page = itemId first := by
  unfold locate at located
  have some : items.dropWhile (fun obj => decide (MojDbQuery.Page.toObject page ≠ itemId obj)) ≠
      [] := by
    rw [located]
    exact List.cons_ne_nil first rest
  have fails := List.head_dropWhile_not _ some
  simp only [located, List.head_cons] at fails
  exact not_not.mp (of_decide_eq_false fails)

def StandsAt (items : List MojObject) (page : MojDbKey) (start : Nat) : Prop :=
  (page = [] ∧ start = 0) ∨
    (page ≠ [] ∧ ∃ obj, items[start]? = some obj ∧ MojDbQuery.Page.toObject page = itemId obj)

theorem serve_eq (locale : MojDbLocale) (limit : MojUInt32) (nodup : (items.map itemId).Nodup)
    {start : Nat} (stands : StandsAt items page start) :
    serve locale limit items page = position locale limit page (items.drop start) := by
  unfold serve
  rcases stands with ⟨none, zero⟩ | ⟨some, obj, there, named⟩
  · rw [if_pos none, none, zero]
    rfl
  · rw [if_neg some, locate_eq nodup there named]
    have inside := (List.getElem?_eq_some_iff.mp there).1
    cases ahead : items.drop start with
    | nil =>
      rw [List.drop_eq_nil_iff] at ahead
      omega
    | cons first rest => rfl

theorem searchPages_stuck (there : page ≠ []) (nowhere : serve locale limit items page = ([], page))
    (pages : Nat) (delivered : List (List MojObject)) :
    searchPages locale limit items pages page ≠ .ok delivered := by
  induction pages generalizing delivered with
  | zero =>
    intro ran
    cases ran
  | succ pages ih =>
    rw [searchPages_succ, nowhere, if_neg there]
    cases later : searchPages locale limit items pages page with
    | error err =>
      intro ran
      cases ran
    | ok others => exact absurd later (ih others)

theorem first_delivered {pages : Nat} {delivered : List (List MojObject)}
    (ran : searchPages locale limit items pages page = .ok delivered) :
    ∃ rest, delivered.flatten = (serve locale limit items page).1 ++ rest := by
  cases pages with
  | zero => cases ran
  | succ pages =>
    rw [searchPages_succ] at ran
    split_ifs at ran
    · cases ran
      exact ⟨[], by simp⟩
    · cases later : searchPages locale limit items pages (serve locale limit items page).2 with
      | error err =>
        rw [later] at ran
        cases ran
      | ok others =>
        rw [later] at ran
        cases ran
        exact ⟨others.flatten, rfl⟩

theorem position_head (positive : 0 < limit.toNat) (page : MojDbKey) (first : MojObject)
    (rest : List MojObject) :
    ∃ others, (position locale limit page (first :: rest)).1 = first :: others := by
  unfold position
  cases (first :: rest)[limit.toNat]? with
  | none => exact ⟨rest, rfl⟩
  | some next =>
    rcases Nat.exists_eq_succ_of_ne_zero (ne_of_gt positive) with ⟨less, same⟩
    simp only [same, List.take_succ_cons]
    exact ⟨_, rfl⟩

theorem canonical_of_pages (positive : 0 < limit.toNat) (nodup : (items.map itemId).Nodup)
    (pages : Nat) {start : Nat} {delivered : List (List MojObject)}
    (stands : StandsAt items page start)
    (ran : searchPages locale limit items pages page = .ok delivered)
    (whole : delivered.flatten = items.drop start) (place : Nat) (obj : MojObject)
    (there : items[start + limit.toNat * (place + 1)]? = some obj) :
    Canonical locale (itemId obj) := by
  induction pages generalizing page start delivered place with
  | zero => cases ran
  | succ pages ih =>
    have served := serve_eq locale limit nodup stands
    rw [searchPages_succ, served] at ran
    unfold position at ran
    rw [List.getElem?_drop] at ran
    cases ends : items[start + limit.toNat]? with
    | none =>
      have short := List.getElem?_eq_none_iff.mp ends
      have inside := (List.getElem?_eq_some_iff.mp there).1
      rw [Nat.mul_add, Nat.mul_one] at inside
      omega
    | some next =>
      rw [ends] at ran
      simp only at ran
      have inside := (List.getElem?_eq_some_iff.mp ends).1
      have stays : items.drop start =
          (items.drop start).take limit.toNat ++ items.drop (start + limit.toNat) := by
        rw [← List.drop_drop, List.take_append_drop]
      have more : items.drop (start + limit.toNat) ≠ [] := by
        intro none
        rw [List.drop_eq_nil_iff] at none
        omega
      have isNext : ∀ first rest, items.drop (start + limit.toNat) = first :: rest →
          first = next := by
        intro first rest same
        have head := congrArg List.head? same
        rw [List.head?_drop, ends] at head
        exact (Option.some.inj head).symm
      generalize turned : setPage locale page (itemId next) = key at ran
      split_ifs at ran with none
      · cases ran
        rw [List.flatten_cons, List.flatten_nil, List.append_nil] at whole
        rw [whole] at stays
        exact absurd (List.self_eq_append_right.mp stays) more
      · cases later : searchPages locale limit items pages key with
        | error err =>
          rw [later] at ran
          cases ran
        | ok others =>
          rw [later] at ran
          cases ran
          rw [List.flatten_cons] at whole
          have onward := List.append_cancel_left (whole.trans stays)
          rcases first_delivered later with ⟨rest, front⟩
          rw [onward] at front
          have canonical : Canonical locale (itemId next) ∧
              MojDbQuery.Page.toObject key = itemId next := by
            unfold setPage at turned
            cases read : MojDbQuery.Page.fromObject locale (itemId next) with
            | error err =>
              rw [read] at turned
              rw [← turned] at none front
              -- the page stays, and its first object comes once more
              rw [served] at front
              have first : start < items.length := by omega
              rw [List.drop_eq_getElem_cons first] at front
              rcases @position_head locale limit positive page items[start]
                (items.drop (start + 1)) with ⟨taken, head⟩
              rw [head, List.cons_append] at front
              have same := isNext _ _ front
              rw [← (List.getElem?_eq_some_iff.mp ends).2] at same
              have places := (List.Nodup.of_map itemId nodup).getElem_inj_iff.mp same
              omega
            | ok own =>
              rw [read] at turned
              simp only at turned
              rw [turned] at read
              cases located : locate items key with
              | nil =>
                have nowhere : serve locale limit items key = ([], key) := by
                  rw [serve, if_neg none, located]
                exact absurd later (searchPages_stuck none nowhere pages others)
              | cons first behind =>
                have named := locate_cons located
                have served : serve locale limit items key =
                    position locale limit key (first :: behind) := by
                  rw [serve, if_neg none, located]
                rcases @position_head locale limit positive key first behind with
                  ⟨taken, head⟩
                rw [served, head, List.cons_append] at front
                rw [isNext first _ front] at named
                exact ⟨⟨key, read, none, named⟩, named⟩
          cases place with
          | zero =>
            rw [Nat.zero_add, Nat.mul_one, ends] at there
            cases there
            exact canonical.1
          | succ place =>
            apply ih (Or.inr ⟨none, next, ends, canonical.2⟩) later onward place
            rw [← there]
            congr 1
            rw [Nat.mul_add limit.toNat (place + 1) 1, Nat.mul_one]
            omega

theorem pages_of_canonical (positive : 0 < limit.toNat) (nodup : (items.map itemId).Nodup)
    (pages : Nat) {page : MojDbKey} {start : Nat} (stands : StandsAt items page start)
    (enough : (items.drop start).length < pages)
    (canonical : ∀ place obj, items[start + limit.toNat * (place + 1)]? = some obj →
      Canonical locale (itemId obj)) :
    ∃ delivered, searchPages locale limit items pages page = .ok delivered ∧
      delivered.flatten = items.drop start := by
  induction pages generalizing page start with
  | zero => exact absurd enough (Nat.not_lt_zero _)
  | succ pages ih =>
    have served := serve_eq locale limit nodup stands
    rw [searchPages_succ, served]
    unfold position
    rw [List.getElem?_drop]
    cases ends : items[start + limit.toNat]? with
    | none => exact ⟨[items.drop start], rfl, by simp⟩
    | some next =>
      rcases canonical 0 next (by rw [Nat.zero_add, Nat.mul_one]; exact ends) with
        ⟨key, read, filled, named⟩
      have turned : setPage locale page (itemId next) = key := by rw [setPage, read]
      have inside := (List.getElem?_eq_some_iff.mp ends).1
      have fewer : (items.drop (start + limit.toNat)).length < pages := by
        rw [List.length_drop] at enough ⊢
        omega
      have later : ∀ place obj,
          items[start + limit.toNat + limit.toNat * (place + 1)]? = some obj →
            Canonical locale (itemId obj) := by
        intro place obj there
        apply canonical (place + 1) obj
        rw [← there]
        congr 1
        rw [Nat.mul_add limit.toNat (place + 1) 1, Nat.mul_one]
        omega
      rcases ih (Or.inr ⟨filled, next, ends, named⟩) fewer later with ⟨others, ran, whole⟩
      refine ⟨(items.drop start).take limit.toNat :: others, ?_, ?_⟩
      · simp only [turned, if_neg filled, ran]
        rfl
      · rw [List.flatten_cons, whole, ← List.drop_drop, List.take_append_drop]

end Pages

/-- Following the pages ends, and has delivered the items of the unpaged search. -/
def DeliversAll (locale : MojDbLocale) (arrangement : Arrangement)
    (getById : MojObject → Option MojObject) (ids : List MojObject) : Prop :=
  ∃ items pages delivered, arrange arrangement getById ids = .ok items ∧
    searchPages locale arrangement.limit items pages [] = .ok delivered ∧
    delivered.flatten = items

/-- A search is delivered whole by its pages just if the ids behind the full pages are base 64 texts
as the encoder writes them. -/
theorem pages_deliver_all_iff (locale : MojDbLocale) (arrangement : Arrangement)
    (getById : MojObject → Option MojObject) (ids : List MojObject) (nodup : ids.Nodup)
    (named : ∀ id obj, getById id = some obj → obj.get idKey = some id)
    (positive : 0 < arrangement.limit.toNat) :
    DeliversAll locale arrangement getById ids ↔
      ∃ items, arrange arrangement getById ids = .ok items ∧
        ∀ place obj, items[arrangement.limit.toNat * (place + 1)]? = some obj →
          Canonical locale (itemId obj) := by
  constructor
  · intro delivers
    rcases delivers with ⟨items, pages, delivered, arranged, ran, whole⟩
    refine ⟨items, arranged, ?_⟩
    intro place obj there
    apply canonical_of_pages positive (arrange_nodup nodup named arranged) pages
      (Or.inl ⟨rfl, rfl⟩) ran whole place obj
    rw [Nat.zero_add]
    exact there
  · intro canonical
    rcases canonical with ⟨items, arranged, canonical⟩
    rcases @pages_of_canonical locale _ _ positive (arrange_nodup nodup named arranged)
      ((items.drop 0).length + 1) [] 0 (Or.inl ⟨rfl, rfl⟩) (Nat.lt_succ_self _)
      (fun place obj there => canonical place obj (by rwa [Nat.zero_add] at there)) with
      ⟨delivered, ran, whole⟩
    exact ⟨items, _, delivered, arranged, ran, whole⟩

section Example

def plainLocale : MojDbLocale := ⟨fun _ => ⟨fun _ => []⟩, fun _ => [], fun _ => []⟩

def oneByOne : Arrangement where
  passes _ := true
  sort items := items
  permutes _ := List.Perm.refl _
  distinct := none
  desc := false
  limit := 1

def named (id : MojObject) : Option MojObject := some (.object [(idKey, id)])

theorem named_id (id obj : MojObject) (found : named id = some obj) : obj.get idKey = some id := by
  cases found
  simp [MojObject.get, MojObject.find, MojObject.map]

def item (id : String) : MojObject := .object [(idKey, .string (chars id.toList))]

/-- With ids of one letter no page leads to the second object. -/
theorem chosen_ids_end_early :
    arrange oneByOne named [.string (chars "a".toList), .string (chars "b".toList)] =
        .ok [item "a", item "b"] ∧
      searchPages plainLocale oneByOne.limit [item "a", item "b"] 1 [] = .ok [[item "a"]] ∧
      ¬ DeliversAll plainLocale oneByOne named
        [.string (chars "a".toList), .string (chars "b".toList)] := by
  have arranged : arrange oneByOne named [.string (chars "a".toList), .string (chars "b".toList)] =
      .ok [item "a", item "b"] := rfl
  apply And.intro arranged
  apply And.intro (by decide +kernel)
  intro delivers
  rcases delivers with ⟨items, pages, delivered, same, ran, whole⟩
  rw [arranged] at same
  cases same
  have canonical := canonical_of_pages (by decide) (by decide +kernel) pages (Or.inl ⟨rfl, rfl⟩) ran
    whole 0 (item "b") rfl
  rcases canonical with ⟨key, read, -, -⟩
  have refused : MojDbQuery.Page.fromObject plainLocale (itemId (item "b")) =
      .error .invalidBase64Data := by decide +kernel
  rw [refused] at read
  cases read

/-- Ids as the generator makes them. -/
theorem generated_ids_deliver :
    DeliversAll plainLocale oneByOne named
      [.string (chars "++IB".toList), .string (chars "++IC".toList)] := by
  apply (pages_deliver_all_iff plainLocale oneByOne named _ (by decide +kernel) named_id
    (by decide)).mpr
  refine ⟨[item "++IB", item "++IC"], rfl, ?_⟩
  intro place obj there
  cases place with
  | zero =>
    cases there
    exact ⟨[0, 4, 205], by decide +kernel, by decide, by decide +kernel⟩
  | succ place =>
    have inside := (List.getElem?_eq_some_iff.mp there).1
    have one : oneByOne.limit.toNat = 1 := rfl
    rw [one, List.length_cons, List.length_singleton] at inside
    omega

end Example

end MojDbSearchCursor

end Db8.Db
