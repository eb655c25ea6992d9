import Db8.Db.Fetch

/-!
# Limit and count

How many items repeated `get` calls return and what `count` says afterwards. Both go by the count
of a query, which an excluded item increments and a duplicate does not; they agree with the number
of items there are exactly when every key with an object is delivered, as far as the count reaches.
-/

set_option autoImplicit false

namespace Db8.Db

open Db8.Bytes
open Db8.Core

def MojDbQueryPlan.withLimit (plan : MojDbQueryPlan) (limit : MojUInt32) : MojDbQueryPlan :=
  { plan with query := { plan.query with limit := limit } }

namespace MojDbIsamQuery

/-- A number of `get` calls, with the items they return. -/
def getMany (store : MojDbIndexStore) :
    Nat → MojDbIsamQuery → MojDbIsamQuery × Except MojErr (List MojDbStorageItem)
  | 0, query => (query, .ok [])
  | calls + 1, query =>
    match get store query with
    | (query, .error err) => (query, .error err)
    | (query, .ok found) =>
      let later := getMany store calls query
      (later.1, later.2.map fun items => found.toList ++ items)

namespace Feed

def fetchMany (feed : Feed) :
    Nat → List Entry → Tally → List Entry × Tally × Except MojErr (List MojDbStorageItem)
  | 0, entries, tally => (entries, tally, .ok [])
  | calls + 1, entries, tally =>
    match feed.fetch entries tally with
    | ⟨rest, tally, .error err⟩ => (rest, tally, .error err)
    | ⟨rest, tally, .ok found⟩ =>
      let later := feed.fetchMany calls rest tally
      (later.1, later.2.1, later.2.2.map fun items => found.toList ++ items)

def live (feed : Feed) (entries : List Entry) : List Entry :=
  entries.filter fun entry =>
    match feed.look entry.1 with
    | .ok (some _) => true
    | _ => false

def existing (feed : Feed) (entries : List Entry) : List Entry :=
  entries.filter fun entry =>
    match feed.look entry.1 with
    | .ok _ => true
    | .error _ => false

/-- Every key leads to an item that is neither excluded nor suppressed as a duplicate. -/
def AllDelivered (feed : Feed) : Option MojObject → List Entry → Prop
  | _, [] => True
  | last, entry :: rest =>
    ∃ item, feed.look entry.1 = .ok (some item) ∧ feed.accept last item.obj = .ok true ∧
      feed.AllDelivered (feed.keep last item.obj) rest

theorem allDelivered_limit (feed : Feed) (limit : Nat) (last : Option MojObject)
    (entries : List Entry) :
    { feed with limit := limit }.AllDelivered last entries ↔ feed.AllDelivered last entries := by
  induction entries generalizing last with
  | nil => exact Iff.rfl
  | cons entry rest ih =>
    apply exists_congr
    intro item
    exact and_congr Iff.rfl (and_congr Iff.rfl (ih _))

/-- Nothing but a missing object keeps a key from being looked up. -/
def Ghosts (feed : Feed) (entries : List Entry) : Prop :=
  ∀ entry ∈ entries, ∀ err, feed.look entry.1 = .error err → err = .internalIndexOnFind

variable {feed : Feed}

theorem Ghosts.tail {entry : Entry} {entries : List Entry}
    (ghosts : feed.Ghosts (entry :: entries)) : feed.Ghosts entries :=
  fun other member => ghosts other (List.mem_cons_of_mem _ member)

variable {entries : List Entry} {entry : Entry}

theorem existing_ghost {err : MojErr} (looked : feed.look entry.1 = .error err) :
    feed.existing (entry :: entries) = feed.existing entries :=
  List.filter_cons_of_neg (by simp [looked])

theorem existing_found {item : Option MojDbStorageItem} (looked : feed.look entry.1 = .ok item) :
    feed.existing (entry :: entries) = entry :: feed.existing entries :=
  List.filter_cons_of_pos (by simp [looked])

theorem live_some {item : MojDbStorageItem} (looked : feed.look entry.1 = .ok (some item)) :
    feed.live (entry :: entries) = entry :: feed.live entries :=
  List.filter_cons_of_pos (by simp [looked])

theorem live_excluded (looked : feed.look entry.1 = .ok none) :
    feed.live (entry :: entries) = feed.live entries :=
  List.filter_cons_of_neg (by simp [looked])

theorem live_ghost {err : MojErr} (looked : feed.look entry.1 = .error err) :
    feed.live (entry :: entries) = feed.live entries :=
  List.filter_cons_of_neg (by simp [looked])

theorem live_length_le (entries : List Entry) :
    (feed.live entries).length ≤ (feed.existing entries).length := by
  induction entries with
  | nil => exact Nat.le_refl 0
  | cons entry entries ih =>
    cases looked : feed.look entry.1 with
    | error err => rw [live_ghost looked, existing_ghost looked]; exact ih
    | ok item =>
      rw [existing_found looked, List.length_cons]
      cases item with
      | none => rw [live_excluded looked]; exact Nat.le_succ_of_le ih
      | some item => rw [live_some looked, List.length_cons]; exact Nat.succ_le_succ ih

theorem le_live_length {last : Option MojObject} {bound : Nat}
    (delivered : feed.AllDelivered last ((feed.existing entries).take bound)) :
    min bound (feed.existing entries).length ≤ (feed.live entries).length := by
  induction entries generalizing last bound with
  | nil => simp [existing]
  | cons entry entries ih =>
    cases looked : feed.look entry.1 with
    | error err =>
      rw [existing_ghost looked] at delivered ⊢
      rw [live_ghost looked]
      exact ih delivered
    | ok item =>
      rw [existing_found looked] at delivered ⊢
      cases bound with
      | zero => simp
      | succ bound =>
        rw [List.take_succ_cons] at delivered
        rcases delivered with ⟨found, lookedFound, _, later⟩
        rw [live_some lookedFound, List.length_cons, List.length_cons]
        have tail := ih later
        omega

section Runs

theorem fetch_over {entries : List Entry} {tally : Tally} (stopped : feed.limit ≤ tally.count) :
    feed.fetch entries tally = ⟨entries, tally, .ok none⟩ := by
  cases entries with
  | nil => rfl
  | cons entry entries => rw [fetch, if_pos stopped]

/-- Below the limit, `get` returns the item of the first key with an object, if that is delivered. -/
theorem fetch_delivered {entries : List Entry} {tally : Tally} (ghosts : feed.Ghosts entries)
    (below : tally.count < feed.limit) :
    (feed.existing entries = [] ∧ feed.fetch entries tally = ⟨[], tally, .ok none⟩) ∨
      ∃ entry rest, feed.existing entries = entry :: feed.existing rest ∧ feed.Ghosts rest ∧
        ∀ item, feed.look entry.1 = .ok (some item) →
          feed.accept tally.last item.obj = .ok true →
          feed.fetch entries tally =
            ⟨rest, feed.counted (feed.kept tally item.obj) entry.1, .ok (some item)⟩ := by
  induction entries with
  | nil => exact Or.inl ⟨rfl, rfl⟩
  | cons entry entries ih =>
    rw [fetch, if_neg (not_le.mpr below), receive]
    cases looked : feed.look entry.1 with
    | error err =>
      rw [existing_ghost looked]
      simp only [ghosts entry List.mem_cons_self err looked, if_true]
      exact ih ghosts.tail
    | ok item =>
      refine Or.inr ⟨entry, entries, existing_found looked, ghosts.tail, ?_⟩
      intro found lookedFound admitted
      rw [looked, Except.ok.injEq] at lookedFound
      rw [lookedFound]
      simp only [admitted]

/-- A run of `get` calls, as long as what it reaches is delivered. -/
structure Ran (feed : Feed) (bound : Nat) (entries : List Entry) (tally : Tally)
    (calls : Nat) (rest : List Entry) (after : Tally) (items : List MojDbStorageItem) : Prop where
  items_length : items.length =
    min calls (min (feed.limit - tally.count) (feed.existing entries).length)
  count : after.count = tally.count + items.length
  existing : (feed.existing rest).length + items.length = (feed.existing entries).length
  delivered : feed.AllDelivered after.last ((feed.existing rest).take (bound - after.count))
  ghosts : feed.Ghosts rest

theorem fetchMany_delivered (calls : Nat) {entries : List Entry} {tally : Tally} {bound : Nat}
    (ghosts : feed.Ghosts entries) (limit : feed.limit ≤ bound)
    (delivered : feed.AllDelivered tally.last
      ((feed.existing entries).take (bound - tally.count))) :
    ∃ rest after items, feed.fetchMany calls entries tally = (rest, after, .ok items) ∧
      Ran feed bound entries tally calls rest after items := by
  induction calls generalizing entries tally with
  | zero =>
    refine ⟨entries, tally, [], rfl, ?_, rfl, rfl, delivered, ghosts⟩
    rw [Nat.zero_min]
    rfl
  | succ calls ih =>
    rw [fetchMany]
    by_cases below : tally.count < feed.limit
    · rcases fetch_delivered ghosts below with
        ⟨none, fetched⟩ | ⟨entry, later, split, laterGhosts, fetches⟩
      · rw [fetched]
        have empty : feed.Ghosts [] := fun _ member => absurd member List.not_mem_nil
        rcases @ih [] tally empty (by simp [existing, AllDelivered]) with
          ⟨rest, after, items, ran, facts⟩
        have noItems : items.length = 0 := by
          rw [facts.items_length]
          simp [existing]
        refine ⟨rest, after, items, ?_, ?_, facts.count, ?_, facts.delivered, facts.ghosts⟩
        · simp only [ran, Except.map, Option.toList, List.nil_append]
        · rw [noItems, none]
          simp
        · rw [none]
          exact facts.existing
      · rw [split] at delivered
        have room : bound - tally.count = (bound - (tally.count + 1)) + 1 := by omega
        rw [room, List.take_succ_cons] at delivered
        rcases delivered with ⟨item, looked, admitted, further⟩
        rw [fetches item looked admitted]
        rcases @ih later (feed.counted (feed.kept tally item.obj) entry.1) laterGhosts further
          with ⟨rest, after, items, ran, facts⟩
        have count := facts.count
        have length := facts.items_length
        have existing := facts.existing
        simp only [counted, kept] at count length
        refine ⟨rest, after, item :: items, ?_, ?_, ?_, ?_, facts.delivered, facts.ghosts⟩
        · simp only [ran, Except.map, Option.toList, List.cons_append, List.nil_append]
        · rw [List.length_cons, split, List.length_cons]
          omega
        · rw [List.length_cons]
          omega
        · rw [List.length_cons, split, List.length_cons]
          omega
    · rw [fetch_over (not_lt.mp below)]
      rcases ih ghosts delivered with
        ⟨rest, after, items, ran, facts⟩
      have length := facts.items_length
      refine ⟨rest, after, items, ?_, ?_, facts.count, facts.existing, facts.delivered,
        facts.ghosts⟩
      · simp only [ran, Except.map, Option.toList, List.nil_append]
      · omega

theorem countRest_delivered {entries : List Entry} {tally : Tally} (ghosts : feed.Ghosts entries)
    (below : tally.count ≤ feed.limit)
    (delivered : feed.AllDelivered tally.last
      ((feed.existing entries).take (feed.limit - tally.count))) :
    feed.countRest entries tally =
      .ok (min feed.limit (tally.count + (feed.existing entries).length)) := by
  induction entries generalizing tally with
  | nil =>
    rw [countRest, Except.ok.injEq]
    simp [existing, below]
  | cons entry entries ih =>
    rw [countRest]
    split_ifs with stopped
    · rw [Except.ok.injEq]
      omega
    · rw [receive]
      cases looked : feed.look entry.1 with
      | error err =>
        rw [existing_ghost looked] at delivered ⊢
        simp only [ghosts entry List.mem_cons_self err looked, if_true]
        exact ih ghosts.tail below delivered
      | ok item =>
        rw [existing_found looked] at delivered ⊢
        have room : feed.limit - tally.count = (feed.limit - (tally.count + 1)) + 1 := by omega
        rw [room, List.take_succ_cons] at delivered
        rcases delivered with ⟨found, lookedFound, admitted, further⟩
        rw [looked, Except.ok.injEq] at lookedFound
        rw [lookedFound]
        simp only [admitted]
        have rest := @ih (feed.counted (feed.kept tally found.obj) entry.1) ghosts.tail
          (by simp only [counted, kept]; omega) further
        rw [rest, Except.ok.injEq, List.length_cons]
        simp only [counted, kept]
        omega

theorem receive_count_le (key : MojDbKey) (tally : Tally) :
    tally.count ≤ (feed.receive key tally).1.count := by
  rw [receive]
  cases feed.look key with
  | error err => exact Nat.le_refl _
  | ok item =>
    cases item with
    | none => exact Nat.le_succ _
    | some item =>
      simp only
      cases feed.accept tally.last item.obj with
      | error err => exact Nat.le_refl _
      | ok fresh =>
        cases fresh with
        | false => exact Nat.le_refl _
        | true => exact Nat.le_succ _

/-- Whatever is passed over, each item returned used up a live key and was counted. -/
theorem fetch_bounds {entries rest : List Entry} {tally after : Tally}
    {found : Option MojDbStorageItem}
    (fetched : feed.fetch entries tally = ⟨rest, after, .ok found⟩) :
    found.toList.length + (feed.live rest).length ≤ (feed.live entries).length ∧
      tally.count + found.toList.length ≤ after.count := by
  induction entries generalizing tally with
  | nil =>
    rw [fetch, Fetched.mk.injEq, Except.ok.injEq] at fetched
    rcases fetched with ⟨restEq, tallyEq, foundEq⟩
    rw [← restEq, ← tallyEq, ← foundEq]
    simp
  | cons entry entries ih =>
    rw [fetch] at fetched
    split_ifs at fetched with stopped
    · rw [Fetched.mk.injEq, Except.ok.injEq] at fetched
      rcases fetched with ⟨restEq, tallyEq, foundEq⟩
      rw [← restEq, ← tallyEq, ← foundEq]
      simp
    · have count := @receive_count_le feed entry.1 tally
      have tail : (feed.live entries).length ≤ (feed.live (entry :: entries)).length := by
        apply List.Sublist.length_le
        exact (List.sublist_cons_self entry entries).filter _
      rcases received : feed.receive entry.1 tally with ⟨next, result⟩
      rw [received] at fetched count
      cases result with
      | error err =>
        simp only at fetched
        split_ifs at fetched
        · have later := ih fetched
          simp only at count
          omega
        · simp at fetched
      | ok item =>
        cases item with
        | none =>
          have later := ih fetched
          simp only at count
          omega
        | some item =>
          simp only [Fetched.mk.injEq, Except.ok.injEq] at fetched
          rcases fetched with ⟨restEq, tallyEq, foundEq⟩
          rw [← restEq, ← tallyEq, ← foundEq]
          rw [receive] at received
          cases looked : feed.look entry.1 with
          | error err => simp [looked] at received
          | ok look =>
            cases look with
            | none => simp [looked] at received
            | some other =>
              rw [live_some looked]
              simp only [looked] at received
              cases admitted : feed.accept tally.last other.obj with
              | error err => simp [admitted] at received
              | ok fresh =>
                cases fresh with
                | false => simp [admitted] at received
                | true =>
                  simp only [admitted, Prod.mk.injEq] at received
                  rw [← received.1]
                  simp only [Option.toList_some, List.length_cons, List.length_nil,
                    counted, kept]
                  omega

theorem fetchMany_bounds {calls : Nat} {entries rest : List Entry} {tally after : Tally}
    {items : List MojDbStorageItem}
    (ran : feed.fetchMany calls entries tally = (rest, after, .ok items)) :
    items.length + (feed.live rest).length ≤ (feed.live entries).length ∧
      tally.count + items.length ≤ after.count := by
  induction calls generalizing entries tally items with
  | zero =>
    simp only [fetchMany, Prod.mk.injEq, Except.ok.injEq] at ran
    rcases ran with ⟨restEq, tallyEq, itemsEq⟩
    rw [← restEq, ← tallyEq, ← itemsEq]
    simp
  | succ calls ih =>
    rw [fetchMany] at ran
    rcases fetched : feed.fetch entries tally with ⟨middle, next, found⟩
    rw [fetched] at ran
    cases found with
    | error err => simp at ran
    | ok found =>
      have first := fetch_bounds fetched
      rcases later : feed.fetchMany calls middle next with ⟨last, final, result⟩
      simp only [later, Prod.mk.injEq] at ran
      rcases ran with ⟨restEq, tallyEq, itemsEq⟩
      rw [restEq, tallyEq] at later
      cases result with
      | error err => simp [Except.map] at itemsEq
      | ok others =>
        have second := ih later
        simp only [Except.map, Except.ok.injEq] at itemsEq
        rw [← itemsEq, List.length_append]
        omega

theorem countRest_bounds {entries : List Entry} {tally : Tally} {total : Nat}
    (counts : feed.countRest entries tally = .ok total) :
    tally.count ≤ total ∧ (tally.count ≤ feed.limit → total ≤ feed.limit) := by
  induction entries generalizing tally with
  | nil =>
    rw [countRest, Except.ok.injEq] at counts
    omega
  | cons entry entries ih =>
    rw [countRest] at counts
    split_ifs at counts with stopped
    · rw [Except.ok.injEq] at counts
      omega
    · have count := @receive_count_le feed entry.1 tally
      have step : (feed.receive entry.1 tally).1.count ≤ tally.count + 1 := by
        rw [receive]
        cases feed.look entry.1 with
        | error err => exact Nat.le_succ _
        | ok item =>
          cases item with
          | none => exact Nat.le_refl _
          | some item =>
            simp only
            cases feed.accept tally.last item.obj with
            | error err => exact Nat.le_succ _
            | ok fresh =>
              cases fresh with
              | false => exact Nat.le_succ _
              | true => exact Nat.le_refl _
      rcases received : feed.receive entry.1 tally with ⟨next, result⟩
      rw [received] at counts count step
      simp only at count step
      cases result with
      | error err =>
        simp only at counts
        split_ifs at counts
        have later := ih counts
        omega
      | ok item =>
        have later := ih counts
        omega

theorem fetchMany_skip {calls : Nat} {entry : Entry} {entries : List Entry} {tally next : Tally}
    (passes : feed.fetch (entry :: entries) tally = feed.fetch entries next) :
    feed.fetchMany (calls + 1) (entry :: entries) tally =
      feed.fetchMany (calls + 1) entries next := by
  rw [fetchMany, fetchMany, passes]

theorem accept_error {last : Option MojObject} {obj : MojObject} {err : MojErr}
    (failed : feed.accept last obj = .error err) : err ≠ .internalIndexOnFind := by
  have required : ∀ (other : MojObject) (key : MojString) (missing : MojErr),
      getRequired other key = .error missing → missing ≠ .internalIndexOnFind := by
    intro other key missing lacks
    unfold getRequired at lacks
    cases found : other.get key with
    | some val => simp [found] at lacks
    | none =>
      simp only [found, Except.error.injEq] at lacks
      rw [← lacks]
      simp
  unfold accept at failed
  split_ifs at failed
  cases dest : getRequired obj feed.distinct with
  | error missing =>
    simp only [dest, bind, Except.bind, Except.error.injEq] at failed
    rw [← failed]
    exact required obj feed.distinct missing dest
  | ok val =>
    simp only [dest, bind, Except.bind] at failed
    cases last with
    | none => simp at failed
    | some last =>
      simp only at failed
      cases kept : getRequired last feed.distinct with
      | error missing =>
        simp only [kept, Except.error.injEq] at failed
        rw [← failed]
        exact required last feed.distinct missing kept
      | ok other => simp [kept] at failed

/-- When a run returns as many items as there are live keys and the count agrees in the end, every
key the count reaches was delivered. -/
theorem delivered_of_counts {entries rest : List Entry} {tally after : Tally}
    {items : List MojDbStorageItem} (ghosts : feed.Ghosts entries)
    (ran : feed.fetchMany ((feed.live entries).length + 1) entries tally = (rest, after, .ok items))
    (returned : items.length = (feed.live entries).length)
    (counts : feed.countRest rest after = .ok (tally.count + (feed.live entries).length)) :
    feed.AllDelivered tally.last ((feed.existing entries).take (feed.limit - tally.count)) := by
  induction entries generalizing tally items with
  | nil => simp [existing, AllDelivered]
  | cons entry entries ih =>
    by_cases stopped : feed.limit ≤ tally.count
    · rw [Nat.sub_eq_zero_of_le stopped, List.take_zero]
      trivial
    · have below : tally.count < feed.limit := not_le.mp stopped
      have step := fetch.eq_2 feed tally entry entries
      rw [if_neg stopped, receive] at step
      cases looked : feed.look entry.1 with
      | error err =>
        simp only [looked, ghosts entry List.mem_cons_self err looked, if_true] at step
        rw [live_ghost looked] at ran returned counts
        rw [existing_ghost looked]
        rw [fetchMany_skip step] at ran
        exact ih ghosts.tail ran returned counts
      | ok look =>
        cases look with
        | none =>
          -- an excluded key is counted without an item, so the count ends too high
          simp only [looked] at step
          rw [live_excluded looked] at ran returned counts
          rw [fetchMany_skip step] at ran
          have bounds := fetchMany_bounds ran
          have later := (countRest_bounds counts).1
          simp only [counted] at bounds
          omega
        | some item =>
          simp only [looked] at step
          rw [live_some looked, List.length_cons] at ran returned counts
          cases admitted : feed.accept tally.last item.obj with
          | error err =>
            simp only [admitted, accept_error admitted, if_false] at step
            simp [fetchMany, step] at ran
          | ok fresh =>
            cases fresh with
            | false =>
              -- a suppressed key is live without an item, so too few are returned
              simp only [admitted] at step
              rw [fetchMany_skip step] at ran
              have bounds := fetchMany_bounds ran
              omega
            | true =>
              simp only [admitted] at step
              rw [fetchMany, step] at ran
              rcases later : feed.fetchMany ((feed.live entries).length + 1) entries
                (feed.counted (feed.kept tally item.obj) entry.1) with
                ⟨last, final, result⟩
              simp only [later, Prod.mk.injEq] at ran
              rcases ran with ⟨restEq, tallyEq, itemsEq⟩
              rw [restEq, tallyEq] at later
              cases result with
              | error err => simp [Except.map] at itemsEq
              | ok others =>
                simp only [Except.map, Except.ok.injEq] at itemsEq
                rw [← itemsEq, Option.toList_some, List.singleton_append,
                  List.length_cons, Nat.succ.injEq] at returned
                have total : tally.count + ((feed.live entries).length + 1) =
                    (feed.counted (feed.kept tally item.obj) entry.1).count +
                      (feed.live entries).length := by
                  simp only [counted, kept]
                  omega
                rw [total] at counts
                have rest := ih ghosts.tail later returned counts
                have room : feed.limit - tally.count =
                    (feed.limit - (tally.count + 1)) + 1 := by omega
                rw [existing_found looked, room, List.take_succ_cons]
                exact ⟨item, looked, admitted, rest⟩

end Runs

end Feed

variable {store : MojDbIndexStore}

theorem getMany_fetchMany (calls : Nat) {query : MojDbIsamQuery} {pending : List Entry}
    (quiet : query.verify = false) (scans : Scans store query pending) :
    ∃ after, getMany store calls query =
        (after, ((feed store query).fetchMany calls pending query.tally).2.2) ∧
      after.tally = ((feed store query).fetchMany calls pending query.tally).2.1 ∧
      Kept query after ∧
      Scans store after ((feed store query).fetchMany calls pending query.tally).1 := by
  induction calls generalizing query pending with
  | zero => exact ⟨query, rfl, rfl, Kept.refl query, scans⟩
  | succ calls ih =>
    rcases get_fetch quiet scans with ⟨after, got, tallied, kept, moved⟩
    rw [getMany, Feed.fetchMany, got]
    rcases fetched : (feed store query).fetch pending query.tally with ⟨rest, tally, found⟩
    rw [fetched] at tallied moved
    cases found with
    | error err => exact ⟨after, rfl, tallied, kept, moved⟩
    | ok found =>
      have quietAfter : after.verify = false := by rw [kept.verify, quiet]
      rcases ih quietAfter moved with ⟨last, ran, lastTally, lastKept, lastMoved⟩
      rw [kept.feed store, tallied] at ran lastTally lastMoved
      refine ⟨last, ?_, lastTally, kept.trans lastKept, lastMoved⟩
      simp only [ran]

def planFeed (store : MojDbIndexStore) (plan : MojDbQueryPlan) (excludeKinds : List MojString) :
    Feed :=
  feed store (openQuery plan excludeKinds)

/-- The stored keys in a plan's ranges whose object exists and whose kind is not excluded. -/
def returnable (store : MojDbIndexStore) (plan : MojDbQueryPlan) (excludeKinds : List MojString) :
    List Entry :=
  (planFeed store plan excludeKinds).live (covered store plan)

/-- Under any limit, repeated `get` calls return as many items as the limit and the keys allow, and
`count` then says how many there are in all. -/
def CountsReturned (store : MojDbIndexStore) (plan : MojDbQueryPlan)
    (excludeKinds : List MojString) : Prop :=
  ∀ (limit : MojUInt32) (calls : Nat), ∃ after items,
    getMany store calls (openQuery (plan.withLimit limit) excludeKinds) = (after, .ok items) ∧
    items.length =
      min calls (min limit.toNat (returnable store plan excludeKinds).length) ∧
    (countAll store after).2.map BitVec.toNat = .ok (returnable store plan excludeKinds).length

theorem ghosts_of_parses {plan : MojDbQueryPlan} (excludeKinds : List MojString)
    (parses : ∀ entry ∈ covered store plan, ∃ id, parseId plan.idIndex entry.1 = .ok id) :
    (planFeed store plan excludeKinds).Ghosts (covered store plan) := by
  intro entry member err looked
  rcases parses entry member with ⟨id, parsed⟩
  have looks : getById store excludeKinds (id.getD .null) = .error err := by
    have unfolded : getVal store excludeKinds plan.idIndex entry.1 = .error err := looked
    rw [getVal, parsed] at unfolded
    exact unfolded
  unfold getById at looks
  cases found : store.joinDb (id.getD .null) with
  | none =>
    simp only [found, Except.error.injEq] at looks
    exact looks.symm
  | some item => simp [found] at looks

/-- Limit and count follow what is returned if and only if the number of items fits the counter,
and of the keys with an object, as far as the counter reaches, none is excluded or a duplicate. -/
theorem counts_returned_iff_delivered (store : MojDbIndexStore) (plan : MojDbQueryPlan)
    (excludeKinds : List MojString) (ordered : ScanOrdered plan.query.desc plan.ranges)
    (parses : ∀ entry ∈ covered store plan, ∃ id, parseId plan.idIndex entry.1 = .ok id) :
    CountsReturned store plan excludeKinds ↔
      (returnable store plan excludeKinds).length ≤ MojDbQuery.limitDefault.toNat ∧
      (planFeed store plan excludeKinds).AllDelivered none
        (((planFeed store plan excludeKinds).existing (covered store plan)).take
          MojDbQuery.limitDefault.toNat) := by
  have ghosts := ghosts_of_parses excludeKinds parses
  have starts : ∀ limit : MojUInt32,
      Scans store (openQuery (plan.withLimit limit) excludeKinds) (covered store plan) :=
    fun limit => heldBy_eq_covered store ordered ▸
      @openQuery_scans store (plan.withLimit limit) excludeKinds ordered
  constructor
  · intro returned
    rcases returned MojDbQuery.limitDefault
      ((returnable store plan excludeKinds).length + 1) with ⟨after, items, got, length, counts⟩
    have fits : (returnable store plan excludeKinds).length ≤ MojDbQuery.limitDefault.toNat := by
      cases counted : (countAll store after).2 with
      | error err => simp [counted, Except.map] at counts
      | ok total =>
        simp only [counted, Except.map, Except.ok.injEq] at counts
        have bounded := total.isLt
        rw [counts] at bounded
        exact Nat.le_of_lt_succ bounded
    refine ⟨fits, ?_⟩
    rcases getMany_fetchMany ((returnable store plan excludeKinds).length + 1) rfl
      (starts MojDbQuery.limitDefault) with ⟨last, ran, tallied, kept, moved⟩
    rw [got, Prod.mk.injEq] at ran
    rcases ran with ⟨sameQuery, sameItems⟩
    rw [← sameQuery] at tallied kept moved
    rw [countAll_countRest moved, kept.feed store, tallied] at counts
    have delivered := @Feed.delivered_of_counts
      { planFeed store plan excludeKinds with limit := MojDbQuery.limitDefault.toNat }
      (covered store plan) _ ⟨0, none, []⟩ _ _ ghosts
      (Prod.ext rfl (Prod.ext rfl sameItems.symm)) (by
        rw [length]
        exact (Nat.min_eq_right (le_trans (Nat.min_le_right _ _) (Nat.le_succ _))).trans
          (Nat.min_eq_right fits)) (by
        rw [Nat.zero_add]
        exact counts)
    exact (Feed.allDelivered_limit _ _ _ _).mp delivered
  · intro condition limit calls
    rcases condition with ⟨fits, delivered⟩
    have small : limit.toNat ≤ MojDbQuery.limitDefault.toNat := Nat.le_of_lt_succ limit.isLt
    rcases @Feed.fetchMany_delivered
      { planFeed store plan excludeKinds with limit := limit.toNat } calls _ ⟨0, none, []⟩ _
      ghosts small
      ((Feed.allDelivered_limit _ _ _ _).mpr delivered) with ⟨rest, tally, items, fetched, facts⟩
    rcases getMany_fetchMany calls rfl (starts limit) with
      ⟨after, got, tallied, kept, moved⟩
    have sameFetch : (feed store (openQuery (plan.withLimit limit) excludeKinds)).fetchMany calls
        (covered store plan) (openQuery (plan.withLimit limit) excludeKinds).tally =
        (rest, tally, .ok items) := fetched
    rw [sameFetch] at got tallied moved
    have enough := Feed.le_live_length delivered
    have atMost := (planFeed store plan excludeKinds).live_length_le
      (covered store plan)
    have total : (returnable store plan excludeKinds).length =
        min MojDbQuery.limitDefault.toNat
          ((planFeed store plan excludeKinds).existing (covered store plan)).length := by
      unfold returnable at fits ⊢
      omega
    have returned : items.length = min calls (min limit.toNat
        ((planFeed store plan excludeKinds).existing (covered store plan)).length) :=
      facts.items_length
    refine ⟨after, items, got, ?_, ?_⟩
    · rw [returned, total]
      omega
    · rw [countAll_countRest moved, kept.feed store, tallied]
      have count : tally.count = 0 + items.length := facts.count
      have left : ((planFeed store plan excludeKinds).existing rest).length + items.length =
          ((planFeed store plan excludeKinds).existing (covered store plan)).length :=
        facts.existing
      have counted := @Feed.countRest_delivered
        { planFeed store plan excludeKinds with limit := MojDbQuery.limitDefault.toNat } rest tally
        facts.ghosts (by
          show tally.count ≤ MojDbQuery.limitDefault.toNat
          omega) ((Feed.allDelivered_limit _ _ _ _).mpr
            ((Feed.allDelivered_limit _ limit.toNat _ _).mp facts.delivered))
      refine Eq.trans counted ?_
      rw [Except.ok.injEq, total]
      show min MojDbQuery.limitDefault.toNat
        (tally.count + ((planFeed store plan excludeKinds).existing rest).length) = _
      omega

section Instances

theorem twoKeyStore_parses (engine : StorageEngine) :
    ∀ entry ∈ covered (twoKeyStore engine) openRangePlan,
      ∃ id, parseId openRangePlan.idIndex entry.1 = .ok id := by
  intro entry member
  have parsed : ∀ entry ∈ covered (twoKeyStore engine) openRangePlan,
      (parseId openRangePlan.idIndex entry.1).toBool = true := by
    cases engine <;> decide
  cases found : parseId openRangePlan.idIndex entry.1 with
  | ok id => exact ⟨id, rfl⟩
  | error err =>
    have here := parsed entry member
    rw [found] at here
    cases here

theorem counts_returned_of_twoKeyStore :
    CountsReturned (twoKeyStore .sandwich) openRangePlan [] :=
  (counts_returned_iff_delivered (twoKeyStore .sandwich) openRangePlan []
    ⟨by simp [openRangePlan], by simp [openRangePlan]⟩ (twoKeyStore_parses .sandwich)).mpr
    ⟨by decide, ⟨chars ['K'], idObject (chars ['x'])⟩, rfl, rfl,
      ⟨chars ['K'], idObject (chars ['y'])⟩, rfl, rfl, trivial⟩

/-- With both objects of an excluded kind there is nothing to return, and `count` says two. -/
theorem counts_not_returned_when_excluded :
    ScanOrdered openRangePlan.query.desc openRangePlan.ranges ∧
    returnable (twoKeyStore .level) openRangePlan [chars ['K']] = [] ∧
    ¬ CountsReturned (twoKeyStore .level) openRangePlan [chars ['K']] := by
  refine ⟨⟨by simp [openRangePlan], by simp [openRangePlan]⟩, rfl, ?_⟩
  intro returned
  rcases returned 1 0 with ⟨after, items, got, _, counts⟩
  simp only [getMany, Prod.mk.injEq] at got
  rw [← got.1] at counts
  have two : (countAll (twoKeyStore .level)
      (openQuery (openRangePlan.withLimit 1) [chars ['K']])).2.map BitVec.toNat = .ok 2 := rfl
  rw [two, Except.ok.injEq] at counts
  cases counts

end Instances

end MojDbIsamQuery

end Db8.Db
