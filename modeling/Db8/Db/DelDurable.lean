import Db8.Db.DelAgain
import Mathlib.Data.Prod.Lex

/-!
# Query deletions that are kept

From one round to all of them. A round of a full batch is committed and turns the request into a
batch, and the end of the operation commits nothing in a batch: a request of its own keeps what
was deleted up to the last full round, and loses the rest.
-/

set_option autoImplicit false

namespace Db8.Db.MojDb

open Db8.Bytes
open Db8.Core

namespace Deletion

variable {κ : Type*} [LinearOrder κ] {deletion : Deletion κ}

theorem MetOnce.after {before after : ObjectStore} (once : deletion.MetOnce before)
    (vanishes : deletion.Vanishes before) (deleted : deletion.Deleted before after) :
    deletion.MetOnce after := by
  have kept : ∀ key ∈ deletion.indexKeys after, key ∈ deletion.indexKeys before := by
    intro key present
    exact (mem_indexKeys_of_same (deleted.kept vanishes (matching_of_indexKeys present))).mp present
  rcases once with purge | single | skips
  · exact Or.inl purge
  · apply Or.inr (Or.inl _)
    intro left leftIn right rightIn same
    exact single left (kept left leftIn) right (kept right rightIn) same
  · exact Or.inr (Or.inr skips)

theorem ran_deleted {limit queryLimit : Nat} {before after : ObjectStore}
    {swept : List (Swept × ObjectStore)}
    (ran : Ran deletion.sweep limit queryLimit before swept after) :
    deletion.Deleted before after ∧ ∀ round ∈ swept, deletion.Deleted before round.2 := by
  induction ran with
  | out limit txn => exact ⟨Deleted.refl deletion txn, by simp⟩
  | last _ round _ => exact ⟨sweep_deleted round, by simpa using sweep_deleted round⟩
  | more _ round _ _ ih =>
    have done := sweep_deleted round
    apply And.intro (done.trans ih.1)
    intro other member
    rcases List.mem_cons.mp member with first | member
    · rw [first]
      exact done
    · exact done.trans (ih.2 other member)

/-- Rounds go on until nothing is found as long as the limit covers what is to be met. -/
theorem ran_drained {size : ObjectStore → Nat} {fit : ObjectStore → Prop}
    (empty : ∀ store, size store = 0 ↔ deletion.matching store = [])
    (falls : ∀ limit before after swept, deletion.Vanishes before → fit before →
      deletion.sweep limit before = (after, .ok swept) →
        size after + swept.count ≤ size before ∧ fit after)
    {limit queryLimit : Nat} {before after : ObjectStore} {swept : List (Swept × ObjectStore)}
    (vanishes : deletion.Vanishes before) (fits : fit before)
    (positive : queryLimit ≠ 0 → 0 < limit) (covered : size before ≤ queryLimit)
    (ran : Ran deletion.sweep limit queryLimit before swept after) :
    deletion.matching after = [] := by
  induction ran with
  | out limit txn => exact (empty txn).mp (Nat.le_zero.mp covered)
  | last going round none =>
    exact (sweep_done vanishes round).2.drained (none ▸ positive going)
  | @more limit queryLimit txn next final swept later going round _ onward ih =>
    have done := (sweep_done vanishes round).2
    rcases falls limit txn next swept vanishes fits round with ⟨fewer, stillFits⟩
    apply ih (done.deleted.vanishes vanishes) stillFits nextLimit_pos
    have bounded := done.bounded
    rcases Nat.lt_or_ge swept.count limit with less | whole
    · rw [(empty next).mpr (done.drained less)]
      exact Nat.zero_le _
    · omega

theorem ran_drained_keys {limit queryLimit : Nat} {before after : ObjectStore}
    {swept : List (Swept × ObjectStore)} (vanishes : deletion.Vanishes before)
    (positive : queryLimit ≠ 0 → 0 < limit)
    (covered : (deletion.indexKeys before).elems.length ≤ queryLimit)
    (ran : Ran deletion.sweep limit queryLimit before swept after) :
    deletion.matching after = [] := by
  apply @ran_drained κ _ deletion (fun store => (deletion.indexKeys store).elems.length)
    (fun _ => True) _ _ limit queryLimit before after swept vanishes trivial positive covered ran
  · intro store
    rw [matching_eq_nil_iff, List.length_eq_zero_iff, List.eq_nil_iff_forall_not_mem]
    rfl
  · intro limit before after swept vanishes _ round
    exact ⟨(sweep_done vanishes round).2.keysLeft, trivial⟩

theorem ran_drained_once {limit queryLimit : Nat} {before after : ObjectStore}
    {swept : List (Swept × ObjectStore)} (vanishes : deletion.Vanishes before)
    (once : deletion.MetOnce before) (positive : queryLimit ≠ 0 → 0 < limit)
    (covered : (deletion.matching before).length ≤ queryLimit)
    (ran : Ran deletion.sweep limit queryLimit before swept after) :
    deletion.matching after = [] := by
  apply @ran_drained κ _ deletion (fun store => (deletion.matching store).length)
    deletion.MetOnce _ _ limit queryLimit before after swept vanishes once positive covered ran
  · intro store
    exact List.length_eq_zero_iff
  · intro limit before after swept vanishes once round
    have done := (sweep_done vanishes round).2
    exact ⟨le_of_eq (done.once once), once.after vanishes done.deleted⟩

theorem ran_limited {limit queryLimit : Nat} {before after : ObjectStore}
    {swept : List (Swept × ObjectStore)} (vanishes : deletion.Vanishes before)
    (once : deletion.MetOnce before) (aligned : limit ≤ queryLimit)
    (ran : Ran deletion.sweep limit queryLimit before swept after) :
    (deletion.matching before).length ≤ queryLimit + (deletion.matching after).length ∧
      ∀ round ∈ swept, (deletion.matching before).length ≤
        queryLimit + (deletion.matching round.2).length := by
  induction ran with
  | out limit txn => exact ⟨by simp, by simp⟩
  | last _ round none =>
    have counted := (sweep_done vanishes round).2.once once
    exact ⟨by omega, by simp; omega⟩
  | @more limit queryLimit txn next final swept later going round _ onward ih =>
    have done := (sweep_done vanishes round).2
    have counted := done.once once
    have bounded := done.bounded
    have below : nextLimit (queryLimit - limit) ≤ queryLimit - limit := by
      unfold nextLimit
      split_ifs <;> omega
    rcases ih (done.deleted.vanishes vanishes) (once.after vanishes done.deleted) below with
      ⟨whole, each⟩
    apply And.intro (by omega)
    intro other member
    rcases List.mem_cons.mp member with first | member
    · rw [first]
      simp only
      omega
    · have rest := each other member
      omega

/-- The number of objects left after the last round of a full batch. -/
theorem ran_full {limit queryLimit : Nat} {before after : ObjectStore}
    {swept : List (Swept × ObjectStore)} (vanishes : deletion.Vanishes before)
    (once : deletion.MetOnce before) (aligned : limit = nextLimit queryLimit)
    (covered : (deletion.matching before).length ≤ queryLimit)
    (ran : Ran deletion.sweep limit queryLimit before swept after) :
    (full swept = [] ↔ (deletion.matching before).length < 1000) ∧
      (deletion.matching ((full swept).getLastD before)).length =
        (deletion.matching before).length % 1000 := by
  induction ran with
  | out limit txn =>
    have none := Nat.le_zero.mp covered
    simp [full, none]
  | @last limit queryLimit txn after swept going round none =>
    rcases sweep_done vanishes round with ⟨batch, done⟩
    have counted := done.once once
    have positive := nextLimit_pos going
    have drained := done.drained (by omega)
    rw [drained, none, List.length_nil] at counted
    have part : ¬ autoBatchSize ≤ swept.numberInBatch := by
      rw [batch, none]
      decide
    simp [full, part, ← counted]
  | @more limit queryLimit txn next final swept later going round some onward ih =>
    rcases sweep_done vanishes round with ⟨batch, done⟩
    have counted := done.once once
    have bounded := done.bounded
    have drained : swept.count < limit → (deletion.matching next).length = 0 :=
      fun less => List.length_eq_zero_iff.mpr (done.drained less)
    have small : limit ≤ 1000 ∧ (limit < 1000 → limit = queryLimit) := by
      rw [aligned]
      unfold nextLimit autoBatchSize
      split_ifs <;> omega
    rcases ih (done.deleted.vanishes vanishes) (once.after vanishes done.deleted) rfl
      (by omega) with ⟨noneFull, last⟩
    by_cases whole : autoBatchSize ≤ swept.numberInBatch
    · have cons : full ((swept, next) :: later) = next :: full later := by simp [full, whole]
      rw [batch] at whole
      unfold autoBatchSize at whole
      rw [cons]
      constructor
      · simp
        omega
      · rw [List.getLastD_cons, last]
        omega
    · have skip : full ((swept, next) :: later) = full later := by simp [full, whole]
      rw [batch] at whole
      unfold autoBatchSize at whole
      have nothing : (deletion.matching next).length = 0 := by
        by_cases less : swept.count < limit
        · exact drained less
        · omega
      have empty := noneFull.mpr (by omega)
      rw [skip, empty]
      constructor
      · simp
        omega
      · simp
        omega

/-! ### The order of the rounds -/

theorem Deleted.alive_sub {before after : ObjectStore} (deleted : deletion.Deleted before after)
    (vanishes : deletion.Vanishes before) {id : MojString} (member : id ∈ deletion.alive after) :
    id ∈ deletion.alive before := by
  have kept := deleted.kept vanishes (alive_matching member)
  rw [mem_alive] at member ⊢
  rwa [kept] at member

theorem Deleted.dead_sub {before after : ObjectStore} (deleted : deletion.Deleted before after)
    (vanishes : deletion.Vanishes before) {id : MojString} (member : id ∈ deletion.dead after) :
    id ∈ deletion.dead before := by
  rcases (mem_dead after id).mp member with ⟨obj, stored, found, _⟩
  have kept := deleted.kept vanishes ((deletion.mem_matching after id).mpr ⟨obj, stored, found⟩)
  rw [mem_dead] at member ⊢
  rwa [kept] at member

/-- An object whose keys come after a key that is left was not touched. -/
theorem sweep_untouched {limit : Nat} {before after : ObjectStore} {swept : Swept}
    (vanishes : deletion.Vanishes before)
    (success : deletion.sweep limit before = (after, .ok swept)) {key : κ}
    (left : key ∈ deletion.indexKeys after) {id : MojString} {obj : MojObject}
    (stored : before.objDb.find id = some obj)
    (later : ∀ place ∈ deletion.index.keysOf id obj, key < place) :
    after.objDb.find id = before.objDb.find id := by
  by_contra changed
  rcases (sweep_done vanishes success).2.sweeping with ⟨last, sweeping⟩
  rcases sweeping.passed changed left with ⟨earlier, present, owner, below⟩
  rcases (deletion.mem_indexKeys before earlier).mp present with ⟨held, heldStored, inside⟩
  rw [owner] at heldStored inside
  rw [stored, Option.some.injEq] at heldStored
  rw [← heldStored] at inside
  exact absurd (later earlier inside) (lt_asymm below)

/-- Objects of the first kind are left only where none of the second is gone. -/
def Spares (first second : ObjectStore → List MojString) (before after : ObjectStore) : Prop :=
  first after ≠ [] → (second after).length = (second before).length

theorem sweep_spares_dead {limit : Nat} {before after : ObjectStore} {swept : Swept}
    (vanishes : deletion.Vanishes before) (order : deletion.LiveFirst)
    (success : deletion.sweep limit before = (after, .ok swept)) :
    Spares deletion.alive deletion.dead before after := by
  intro some
  rcases List.exists_mem_of_ne_nil _ some with ⟨id, member⟩
  rcases (mem_alive after id).mp member with ⟨obj, stored, found, living⟩
  rcases (deletion.finds_iff id obj).mp found with ⟨key, inside⟩
  apply le_antisymm
  · exact selected_length_le fun other gone => (sweep_deleted success).dead_sub vanishes gone
  · apply selected_length_le
    intro other gone
    rcases (mem_dead before other).mp gone with ⟨marked, markedStored, markedFound, isDead⟩
    have same := sweep_untouched vanishes success (mem_indexKeys_of_keysOf stored inside)
      markedStored fun place later => order id obj key inside living other marked place later isDead
    exact (mem_dead after other).mpr ⟨marked, same.trans markedStored, markedFound, isDead⟩

theorem sweep_spares_alive {limit : Nat} {before after : ObjectStore} {swept : Swept}
    (vanishes : deletion.Vanishes before) (order : deletion.DeadFirst)
    (success : deletion.sweep limit before = (after, .ok swept)) :
    Spares deletion.dead deletion.alive before after := by
  intro some
  rcases List.exists_mem_of_ne_nil _ some with ⟨id, member⟩
  rcases (mem_dead after id).mp member with ⟨obj, stored, found, gone⟩
  rcases (deletion.finds_iff id obj).mp found with ⟨key, inside⟩
  apply le_antisymm
  · exact selected_length_le fun other alive => (sweep_deleted success).alive_sub vanishes alive
  · apply selected_length_le
    intro other alive
    rcases (mem_alive before other).mp alive with ⟨held, heldStored, heldFound, living⟩
    have same := sweep_untouched vanishes success (mem_indexKeys_of_keysOf stored inside)
      heldStored fun place later => order other held place later living id obj key inside gone
    exact (mem_alive after other).mpr ⟨held, same.trans heldStored, heldFound, living⟩

/-- What holds of a round holds of the run up to the end of any round. -/
theorem ran_spares {first second : ObjectStore → List MojString}
    (shrinks : ∀ before after, deletion.Vanishes before → deletion.Deleted before after →
      first after ≠ [] → first before ≠ [])
    (spares : ∀ limit before after swept, deletion.Vanishes before →
      deletion.sweep limit before = (after, .ok swept) → Spares first second before after)
    {limit queryLimit : Nat} {before after : ObjectStore} {swept : List (Swept × ObjectStore)}
    (vanishes : deletion.Vanishes before)
    (ran : Ran deletion.sweep limit queryLimit before swept after) :
    Spares first second before after ∧ ∀ round ∈ swept, Spares first second before round.2 := by
  induction ran with
  | out limit txn => exact ⟨fun _ => rfl, by simp⟩
  | last _ round _ =>
    have one := spares _ _ _ _ vanishes round
    exact ⟨one, by simpa using one⟩
  | @more _ _ txn next final _ later _ round _ onward ih =>
    have one := spares _ _ _ _ vanishes round
    have still := (sweep_deleted round).vanishes vanishes
    have all := ran_deleted onward
    have joins : ∀ store, deletion.Deleted next store → Spares first second next store →
        Spares first second txn store := by
      intro store deleted rest some
      exact (rest some).trans (one (shrinks next store still deleted some))
    rcases ih still with ⟨last, each⟩
    refine ⟨joins final all.1 last, ?_⟩
    intro other member
    rcases List.mem_cons.mp member with rfl | member
    · exact one
    · exact joins other.2 (all.2 other member) (each other member)

theorem ran_spares_dead {limit queryLimit : Nat} {before after : ObjectStore}
    {swept : List (Swept × ObjectStore)} (vanishes : deletion.Vanishes before)
    (order : deletion.LiveFirst) (ran : Ran deletion.sweep limit queryLimit before swept after) :
    Spares deletion.alive deletion.dead before after ∧
      ∀ round ∈ swept, Spares deletion.alive deletion.dead before round.2 := by
  apply ran_spares _ (fun _ _ _ _ vanishes => sweep_spares_dead vanishes order) vanishes ran
  intro before after vanishes deleted some none
  rcases List.exists_mem_of_ne_nil _ some with ⟨id, member⟩
  have inside := deleted.alive_sub vanishes member
  rw [none] at inside
  cases inside

theorem ran_spares_alive {limit queryLimit : Nat} {before after : ObjectStore}
    {swept : List (Swept × ObjectStore)} (vanishes : deletion.Vanishes before)
    (order : deletion.DeadFirst) (ran : Ran deletion.sweep limit queryLimit before swept after) :
    Spares deletion.dead deletion.alive before after ∧
      ∀ round ∈ swept, Spares deletion.dead deletion.alive before round.2 := by
  apply ran_spares _ (fun _ _ _ _ vanishes => sweep_spares_alive vanishes order) vanishes ran
  intro before after vanishes deleted some none
  rcases List.exists_mem_of_ne_nil _ some with ⟨id, member⟩
  have inside := deleted.dead_sub vanishes member
  rw [none] at inside
  cases inside

/-! ### What is committed -/

/-- What a query deletion is for: no live object of the query is left, the others are untouched. -/
structure DelComplete (deletion : Deletion κ) (before after : ObjectStore) : Prop where
  cleared : ∀ id obj, after.objDb.find id = some obj → deletion.finds id obj = true →
    live obj = false
  others : ∀ id, id ∉ deletion.matching before → after.objDb.find id = before.objDb.find id

def FindsLive (deletion : Deletion κ) (store : ObjectStore) : Prop :=
  ∀ id obj, store.objDb.find id = some obj → deletion.finds id obj = true → live obj = true

/-- The store committed once a deletion without a limit and its request have ended. -/
def committedBy (deletion : Deletion κ) (session : Session ObjectStore) : ObjectStore :=
  let after := (del deletion.sweep MojDbQuery.limitDefault session).1
  if session.batch then after.endBatch.stored else after.stored

theorem Deleted.complete_iff {before after : ObjectStore} (deleted : deletion.Deleted before after) :
    deletion.DelComplete before after ↔ (deletion.alive after).length = 0 := by
  rw [List.length_eq_zero_iff, List.eq_nil_iff_forall_not_mem]
  constructor
  · intro complete id member
    rcases (mem_alive after id).mp member with ⟨obj, stored, found, living⟩
    rw [complete.cleared id obj stored found] at living
    cases living
  · intro none
    constructor
    · intro id obj stored found
      by_contra living
      exact none id ((mem_alive after id).mpr ⟨obj, stored, found, by simpa using living⟩)
    · intro id unmatched
      rcases deleted id with same | ⟨obj, stored, found, _⟩
      · exact same
      · exact absurd ((deletion.mem_matching before id).mpr ⟨obj, stored, found⟩) unmatched

/-- How many objects the last round deletes without a commit. -/
def lost (batch : Bool) (found : Nat) : Nat :=
  if batch = true ∨ found < 1000 then 0 else found % 1000

/-- How many live objects a request deletes for good in rounds that meet them first. -/
def reached (batch : Bool) : Nat :=
  if batch then MojDbQuery.limitDefault.toNat else MojDbQuery.limitDefault.toNat / 1000 * 1000

theorem ran_not_full {limit queryLimit : Nat} {before after : ObjectStore}
    {swept : List (Swept × ObjectStore)} (vanishes : deletion.Vanishes before)
    (few : (deletion.indexKeys before).elems.length < 1000)
    (ran : Ran deletion.sweep limit queryLimit before swept after) : full swept = [] := by
  have part : ∀ {limit : Nat} {txn next : ObjectStore} {swept : Swept}, deletion.Vanishes txn →
      (deletion.indexKeys txn).elems.length < 1000 →
        deletion.sweep limit txn = (next, .ok swept) → ¬ autoBatchSize ≤ swept.numberInBatch := by
    intro limit txn next swept vanishes few round
    rcases sweep_done vanishes round with ⟨batch, done⟩
    have fewer := done.keysLeft
    unfold autoBatchSize
    omega
  induction ran with
  | out limit txn => rfl
  | last _ round _ => simp [full, part vanishes few round]
  | @more limit queryLimit txn next final swept later _ round _ _ ih =>
    have done := (sweep_done vanishes round).2
    have fewer := done.keysLeft
    have rest := ih (done.deleted.vanishes vanishes) (by omega)
    unfold full at rest ⊢
    rw [List.filter_cons_of_neg (by simpa using part vanishes few round), rest]

theorem last_full (swept : List (Swept × ObjectStore)) (final : ObjectStore) :
    (full swept).getLastD final = final ∨
      ∃ round ∈ swept, (full swept).getLastD final = round.2 := by
  have inside : (full swept).getLastD final ∈ final :: full swept := List.getLastD_mem_cons
  rcases List.mem_cons.mp inside with same | member
  · exact Or.inl same
  · rcases List.mem_map.mp member with ⟨round, kept, named⟩
    exact Or.inr ⟨round, (List.mem_filter.mp kept).1, named.symm⟩

theorem last_full_length {before final : ObjectStore} {swept : List (Swept × ObjectStore)}
    (vanishes : deletion.Vanishes before) (once : deletion.MetOnce before)
    (covered : (deletion.matching before).length ≤ MojDbQuery.limitDefault.toNat)
    (ran : Ran deletion.sweep 1000 MojDbQuery.limitDefault.toNat before swept final) :
    (deletion.matching ((full swept).getLastD final)).length =
      if (deletion.matching before).length < 1000 then 0
      else (deletion.matching before).length % 1000 := by
  rcases ran_full vanishes once rfl covered ran with ⟨none, last⟩
  split_ifs with few
  · rw [none.mpr few, List.getLastD_nil, List.length_eq_zero_iff]
    exact ran_drained_once vanishes once (fun _ => by decide) covered ran
  · rcases whole : full swept with _ | ⟨first, rest⟩
    · exact absurd (none.mp whole) few
    · rw [whole, List.getLastD_cons] at last
      rw [List.getLastD_cons, last]

section Kept

variable {session : Session ObjectStore} {count : MojUInt32}

/-- What a deletion that succeeded has committed, as the last or one of the full rounds left it. -/
structure Committed (deletion : Deletion κ) (session : Session ObjectStore)
    (swept : List (Swept × ObjectStore)) (final : ObjectStore) : Prop where
  ran : Ran deletion.sweep 1000 MojDbQuery.limitDefault.toNat session.view swept final
  inBatch : session.batch = true → deletion.committedBy session = final
  alone : session.batch = false → deletion.committedBy session = (full swept).getLastD final
  oneOf : deletion.committedBy session = final ∨
    ∃ round ∈ swept, deletion.committedBy session = round.2

theorem committed_of_ok (idle : session.beginCount = 0)
    (success : (del deletion.sweep MojDbQuery.limitDefault session).2 = .ok count) :
    ∃ swept final, deletion.Committed session swept final := by
  rcases result : del deletion.sweep MojDbQuery.limitDefault session with ⟨after, outcome⟩
  have committed : deletion.committedBy session =
      if session.batch then after.endBatch.stored else after.stored := by
    unfold committedBy
    rw [result]
  simp only [result] at success
  rw [success] at result
  rcases del_ok idle result with ⟨ok, ended, _⟩
  rw [ended] at committed
  have ran := rounds_ran ok
  refine ⟨_, _, ⟨ran, ?_, ?_, ?_⟩⟩
  · intro batch
    rw [committed, if_pos batch, stored_in_batch _ idle batch]
    rfl
  · intro batch
    rw [committed, if_neg (by simp [batch]), stored_alone _ idle batch]
    rfl
  · cases batch : session.batch with
    | true =>
      rw [committed, if_pos batch, stored_in_batch _ idle batch]
      exact Or.inl rfl
    | false =>
      rw [committed, if_neg (by simp [batch]), stored_alone _ idle batch]
      exact last_full _ _

namespace Committed

variable {swept : List (Swept × ObjectStore)} {final : ObjectStore}

theorem deleted (committed : deletion.Committed session swept final) :
    deletion.Deleted session.view (deletion.committedBy session) := by
  rcases ran_deleted committed.ran with ⟨all, each⟩
  rcases committed.oneOf with same | ⟨round, inside, same⟩
  · exact same ▸ all
  · exact same ▸ each round inside

/-- A deletion whose deleted objects are not found again leaves what the last round has lost. -/
theorem left_over (committed : deletion.Committed session swept final)
    (vanishes : deletion.Vanishes session.view) (once : deletion.MetOnce session.view)
    (covered : (deletion.matching session.view).length ≤ MojDbQuery.limitDefault.toNat) :
    (deletion.matching (deletion.committedBy session)).length =
      lost session.batch (deletion.matching session.view).length := by
  unfold lost
  cases batch : session.batch with
  | true =>
    rw [committed.inBatch batch, if_pos (Or.inl rfl), List.length_eq_zero_iff]
    exact ran_drained_once vanishes once (fun _ => by decide) covered committed.ran
  | false =>
    rw [committed.alone batch, last_full_length vanishes once covered committed.ran]
    simp

theorem complete_iff_live_first (committed : deletion.Committed session swept final)
    (vanishes : deletion.Vanishes session.view) (once : deletion.MetOnce session.view)
    (covered : (deletion.matching session.view).length ≤ MojDbQuery.limitDefault.toNat)
    (order : deletion.LiveFirst) :
    deletion.DelComplete session.view (deletion.committedBy session) ↔
      lost session.batch (deletion.matching session.view).length ≤
        (deletion.dead session.view).length := by
  have left := committed.left_over vanishes once covered
  have both := @alive_dead κ _ deletion (deletion.committedBy session)
  have fewer : (deletion.dead (deletion.committedBy session)).length ≤
      (deletion.dead session.view).length :=
    selected_length_le fun _ gone => committed.deleted.dead_sub vanishes gone
  have spares : Spares deletion.alive deletion.dead session.view
      (deletion.committedBy session) := by
    rcases ran_spares_dead vanishes order committed.ran with ⟨all, each⟩
    rcases committed.oneOf with same | ⟨round, inside, same⟩
    · exact same ▸ all
    · exact same ▸ each round inside
  rw [committed.deleted.complete_iff]
  constructor
  · intro none
    omega
  · intro few
    by_contra some
    have kept := spares (List.ne_nil_of_length_pos (Nat.pos_of_ne_zero some))
    omega

theorem complete_iff_dead_first (committed : deletion.Committed session swept final)
    (vanishes : deletion.Vanishes session.view) (once : deletion.MetOnce session.view)
    (covered : (deletion.matching session.view).length ≤ MojDbQuery.limitDefault.toNat)
    (order : deletion.DeadFirst) :
    deletion.DelComplete session.view (deletion.committedBy session) ↔
      lost session.batch (deletion.matching session.view).length = 0 ∨
        (deletion.alive session.view).length = 0 := by
  have left := committed.left_over vanishes once covered
  have both := @alive_dead κ _ deletion (deletion.committedBy session)
  have fewer : (deletion.alive (deletion.committedBy session)).length ≤
      (deletion.alive session.view).length :=
    selected_length_le fun _ living => committed.deleted.alive_sub vanishes living
  have spares : Spares deletion.dead deletion.alive session.view
      (deletion.committedBy session) := by
    rcases ran_spares_alive vanishes order committed.ran with ⟨all, each⟩
    rcases committed.oneOf with same | ⟨round, inside, same⟩
    · exact same ▸ all
    · exact same ▸ each round inside
  rw [committed.deleted.complete_iff]
  constructor
  · intro none
    by_cases whole : (deletion.dead (deletion.committedBy session)).length = 0
    · exact Or.inl (by omega)
    · have kept := spares (List.ne_nil_of_length_pos (Nat.pos_of_ne_zero whole))
      exact Or.inr (by omega)
  · intro either
    omega

/-- A deletion that is complete had no more to find than a limit can say. -/
theorem covered_of_complete (committed : deletion.Committed session swept final)
    (vanishes : deletion.Vanishes session.view) (once : deletion.MetOnce session.view)
    (findsLive : deletion.FindsLive session.view)
    (complete : deletion.DelComplete session.view (deletion.committedBy session)) :
    (deletion.matching session.view).length ≤ MojDbQuery.limitDefault.toNat := by
  have none := committed.deleted.complete_iff.mp complete
  have both := @alive_dead κ _ deletion (deletion.committedBy session)
  have gone : (deletion.dead (deletion.committedBy session)).length = 0 := by
    rw [List.length_eq_zero_iff, List.eq_nil_iff_forall_not_mem]
    intro id member
    rcases (mem_dead _ id).mp (committed.deleted.dead_sub vanishes member) with
      ⟨obj, stored, found, isDead⟩
    rw [findsLive id obj stored found] at isDead
    cases isDead
  rcases ran_limited vanishes once (by decide) committed.ran with ⟨all, each⟩
  rcases committed.oneOf with same | ⟨round, inside, same⟩
  · rw [← same] at all
    omega
  · have bound := each round inside
    rw [← same] at bound
    omega

theorem complete_of_keys (committed : deletion.Committed session swept final)
    (vanishes : deletion.Vanishes session.view)
    (covered : (deletion.indexKeys session.view).elems.length ≤ MojDbQuery.limitDefault.toNat)
    (kept : session.batch = true ∨ (deletion.indexKeys session.view).elems.length < 1000) :
    deletion.DelComplete session.view (deletion.committedBy session) := by
  have drained := ran_drained_keys vanishes (fun _ => by decide) covered committed.ran
  have cleared : (deletion.alive final).length = 0 := by
    have both := @alive_dead κ _ deletion final
    rw [drained, List.length_nil] at both
    omega
  apply committed.deleted.complete_iff.mpr
  cases batch : session.batch with
  | true => rw [committed.inBatch batch, cleared]
  | false =>
    rw [batch] at kept
    rcases kept with impossible | few
    · cases impossible
    · rw [committed.alone batch, ran_not_full vanishes few committed.ran]
      exact cleared

/-- Where deleted objects are found again behind the live ones, all live ones are reached, and with a
thousand matches or more a full round commits them. -/
theorem complete_iff_again_live_first (committed : deletion.Committed session swept final)
    (includes : deletion.IncludesDeleted) (order : deletion.LiveFirst) :
    deletion.DelComplete session.view (deletion.committedBy session) ↔
      (deletion.alive session.view).length ≤ reached session.batch := by
  have aligned : 1000 = nextLimit MojDbQuery.limitDefault.toNat := by decide
  have limits : MojDbQuery.limitDefault.toNat = 4294967295 := by decide
  have both := @alive_dead κ _ deletion session.view
  have all := ran_live_first includes order aligned committed.ran
  rw [committed.deleted.complete_iff]
  unfold reached
  cases batch : session.batch with
  | true =>
    rw [committed.inBatch batch, all, if_pos rfl]
    omega
  | false =>
    rw [if_neg Bool.false_ne_true]
    by_cases many : 1000 ≤ (deletion.matching session.view).length
    · have left := ran_live_first_full includes order aligned many committed.ran
      rw [committed.alone batch]
      rcases whole : full swept with _ | ⟨first, rest⟩
      · rw [whole, List.getLastD_nil] at left
        rw [List.getLastD_nil, all]
        omega
      · rw [whole, List.getLastD_cons] at left
        rw [List.getLastD_cons, left]
        omega
    · have few : (deletion.alive session.view).length ≤
          MojDbQuery.limitDefault.toNat / 1000 * 1000 := by omega
      refine ⟨fun _ => few, fun _ => ?_⟩
      rcases committed.oneOf with same | ⟨round, inside, same⟩
      · rw [same, all]
        omega
      · have left := ran_live_first_each includes order committed.ran round inside
        rw [same]
        omega

/-- Where they are found again before the live ones, these are reached in the first round or never. -/
theorem complete_iff_again_dead_first (committed : deletion.Committed session swept final)
    (includes : deletion.IncludesDeleted) (order : deletion.DeadFirst) :
    deletion.DelComplete session.view (deletion.committedBy session) ↔
      (deletion.alive session.view).length = 0 ∨
        (deletion.deadKeys session.view).length + (deletion.alive session.view).length ≤ 1000 := by
  have going : MojDbQuery.limitDefault.toNat ≠ 0 := by decide
  rw [committed.deleted.complete_iff]
  constructor
  · intro none
    by_contra neither
    rw [not_or] at neither
    rcases ran_dead_first_stuck includes order (by decide) (Nat.pos_of_ne_zero neither.1)
      (not_le.mp neither.2) committed.ran with ⟨all, each⟩
    rcases committed.oneOf with same | ⟨round, inside, same⟩
    · rw [same] at none
      omega
    · have some := each round inside
      rw [same] at none
      omega
  · intro either
    have cleared : (deletion.alive final).length = 0 ∧
        ∀ round ∈ swept, (deletion.alive round.2).length = 0 := by
      rcases either with none | room
      · exact ran_dead_first_over includes order none committed.ran
      · exact ran_dead_first includes order going room committed.ran
    rcases committed.oneOf with same | ⟨round, inside, same⟩
    · rw [same]
      exact cleared.1
    · rw [same]
      exact cleared.2 round inside

theorem complete_of_few (committed : deletion.Committed session swept final)
    (marks : deletion.Marks) {width : Nat} (wide : deletion.Wide width)
    (few : 2 * width * (deletion.matching session.view).length < 1000) :
    deletion.DelComplete session.view (deletion.committedBy session) := by
  rcases ran_few marks wide few committed.ran with ⟨none, _, cleared⟩
  apply committed.deleted.complete_iff.mpr
  cases batch : session.batch with
  | true =>
    rw [committed.inBatch batch]
    exact cleared (by decide) (le_refl _)
  | false =>
    rw [committed.alone batch, none]
    exact cleared (by decide) (le_refl _)

end Committed

end Kept

/-- The index on `_id` alone, whose keys are the ids. -/
def idIndex : QueriedIndex MojString where
  keysOf id obj := if live obj then [id] else []
  idOf key := key
  owns id obj key member := by
    split_ifs at member
    · exact List.mem_singleton.mp member
    · cases member

/-- A deletion without `FlagPurge` over the whole index on `_id`, with nothing refused. -/
def deleteAll : Deletion MojString where
  index := idIndex
  cursor := StorageCursor.current
  purge := false
  backup := false
  find := .ok ()
  update _ _ := .ok ()

theorem deleteAll_finds (id : MojString) (obj : MojObject) :
    deleteAll.finds id obj = live obj := by
  unfold finds deleteAll idIndex
  simp only
  cases live obj <;> rfl

variable (store : ObjectStore)

theorem deleteAll_vanishes : deleteAll.Vanishes store := by
  intro _ id obj _ _ rev
  rw [deleteAll_finds]
  exact live_markDeleted _ rev obj

theorem deleteAll_metOnce : deleteAll.MetOnce store :=
  Or.inr (Or.inl fun _ _ _ _ same => same)

theorem deleteAll_findsLive : deleteAll.FindsLive store := by
  intro id obj _ found
  rwa [deleteAll_finds] at found

theorem sweepFrom_safe {deletion : Deletion κ} (safe : ∀ newObj obj, deletion.update newObj obj = .ok ())
    (opened : SortedSet κ) (room : Nat) (last : Option κ) (store : ObjectStore) :
    ∃ after count, deletion.sweepFrom opened room last store = (after, .ok count) := by
  induction room generalizing last store with
  | zero => exact ⟨store, 0, rfl⟩
  | succ room ih =>
    rw [sweepFrom]
    cases got : deletion.get opened last store with
    | none => exact ⟨store, 0, rfl⟩
    | some met =>
      rcases met with ⟨key, obj⟩
      have deleted : ∃ next, deletion.delObj (deletion.index.idOf key) obj store = .ok next := by
        unfold delObj
        dsimp only
        split_ifs
        · exact ⟨_, by rw [safe]; rfl⟩
        · exact ⟨_, rfl⟩
        · exact ⟨_, by rw [safe]; rfl⟩
      rcases deleted with ⟨next, deleted⟩
      rcases ih (some key) next with ⟨after, count, ran⟩
      simp only
      rw [deleted]
      simp only
      rw [ran]
      exact ⟨after, count + 1, rfl⟩

theorem sweep_safe {deletion : Deletion κ} (found : deletion.find = .ok ())
    (safe : ∀ newObj obj, deletion.update newObj obj = .ok ()) (limit : Nat)
    (store : ObjectStore) : ∃ after swept, deletion.sweep limit store = (after, .ok swept) := by
  rcases sweepFrom_safe safe (deletion.indexKeys store) limit none store with ⟨after, count, ran⟩
  unfold sweep
  rw [found]
  simp only
  rw [ran]
  exact ⟨after, ⟨count, count⟩, rfl⟩

theorem delImpl_safe (deletion : Deletion κ) (found : deletion.find = .ok ())
    (safe : ∀ newObj obj, deletion.update newObj obj = .ok ()) (limit : MojUInt32)
    (session : Session ObjectStore) (idle : session.beginCount = 0) :
    ∃ after rounds, delImpl deletion.sweep limit session.begin = (after, .ok rounds) := by
  have one : session.begin.beginCount = 1 := by simp [Session.begin, idle]
  have running : session.begin.txn = some session.view := by simp [Session.begin, idle]
  have ok : (rounds deletion.sweep (limit.toNat + 1) (firstLimit limit) limit.toNat
      session.view).result = .ok () :=
    rounds_ok (sweep_safe found safe) firstLimit_pos (Nat.lt_succ_self _)
  unfold delImpl
  rw [delRounds_eq deletion.sweep _ _ _ one running, ok]
  exact ⟨_, _, rfl⟩

theorem del_safe (deletion : Deletion κ) (found : deletion.find = .ok ())
    (safe : ∀ newObj obj, deletion.update newObj obj = .ok ()) (limit : MojUInt32)
    (session : Session ObjectStore) (idle : session.beginCount = 0) :
    ∃ count, (del deletion.sweep limit session).2 = .ok count := by
  rcases delImpl_safe deletion found safe limit session idle with ⟨after, rounds, ran⟩
  unfold del
  rw [ran]
  exact ⟨_, rfl⟩

theorem replicate_lt (char : MojChar) {short long : Nat} (shorter : short < long) :
    List.replicate short char < List.replicate long char := by
  have starts : List.replicate short char ≤ List.replicate long char := by
    rw [show long = short + (long - short) by omega, List.replicate_add]
    exact self_le_append _ _
  apply lt_of_le_of_ne starts
  intro same
  have lengths := congrArg List.length same
  rw [List.length_replicate, List.length_replicate] at lengths
  exact Nat.ne_of_lt shorter lengths

def emptyObjects (count : Nat) : ObjectStore where
  objDb :=
    { entries := (List.range count).map fun place =>
        (List.replicate place ⟨1, by decide⟩, .object [])
      sorted := by
        rw [List.map_map, List.pairwise_map]
        exact List.pairwise_lt_range.imp (replicate_lt _) }
  rev := 0

theorem deleteAll_matching (count : Nat) :
    (deleteAll.matching (emptyObjects count)).length = count := by
  have all : ∀ entry ∈ (emptyObjects count).objDb.entries,
      deleteAll.finds entry.1 entry.2 = true := by
    intro entry member
    rcases List.mem_map.mp member with ⟨place, _, same⟩
    rw [← same, deleteAll_finds]
    rfl
  unfold matching
  rw [List.filter_eq_self.mpr all, List.length_map]
  simp [emptyObjects]

theorem deleteAll_liveFirst : deleteAll.LiveFirst := by
  intro _ _ _ _ _ other marked later inside gone
  have found := (deleteAll.finds_iff other marked).mpr ⟨later, inside⟩
  rw [deleteAll_finds, gone] at found
  cases found

theorem deleteAll_dead : (deleteAll.dead store).length = 0 := by
  rw [List.length_eq_zero_iff, List.eq_nil_iff_forall_not_mem]
  intro id member
  rcases (mem_dead store id).mp member with ⟨obj, _, found, gone⟩
  rw [deleteAll_finds, gone] at found
  cases found

/-- The index on `_id` that includes deleted objects, within the ranges of a query that does. -/
def delIdIndex : QueriedIndex (Bool ×ₗ MojString) where
  keysOf id obj :=
    if obj.put delKey (.bool true) = obj then [toLex (true, id)]
    else if live obj then [toLex (false, id)] else []
  idOf key := (ofLex key).2
  owns id obj key member := by
    split_ifs at member
    · rw [List.mem_singleton.mp member]
      rfl
    · rw [List.mem_singleton.mp member]
      rfl
    · cases member

/-- A deletion without `FlagPurge` by a query that includes deleted objects. -/
def deleteDeleted : Deletion (Bool ×ₗ MojString) where
  index := delIdIndex
  cursor := StorageCursor.current
  purge := false
  backup := false
  find := .ok ()
  update _ _ := .ok ()

theorem delIdIndex_live {id : MojString} {obj : MojObject} {key : Bool ×ₗ MojString}
    (member : key ∈ delIdIndex.keysOf id obj) : key = toLex (!live obj, id) := by
  unfold delIdIndex at member
  dsimp only at member
  split_ifs at member with marked living
  · have gone : live obj = false := by
      have flag : obj.get delKey = some (.bool true) := by
        rw [← marked, MojObject.get_put, if_pos rfl]
      simp [live, flag, MojObject.boolValue]
    rw [gone]
    exact List.mem_singleton.mp member
  · rw [living]
    exact List.mem_singleton.mp member
  · cases member

theorem deleteDeleted_includes : deleteDeleted.IncludesDeleted where
  kept := rfl
  view := StorageCursor.current_liveView
  marked id obj rev found gone := by
    unfold finds deleteDeleted delIdIndex at found
    dsimp only at found
    split_ifs at found with marked living
    · exact if_pos marked
    · rw [gone] at living
      cases living
    · cases found
  again id obj rev _ := by
    unfold finds deleteDeleted delIdIndex
    dsimp only
    rw [if_pos (markDeleted_put _ rev obj)]
    rfl

theorem deleteDeleted_liveFirst : deleteDeleted.LiveFirst := by
  intro id obj key inside living other marked later laterIn gone
  rw [delIdIndex_live inside, delIdIndex_live laterIn, living, gone]
  exact Prod.Lex.toLex_lt_toLex.mpr (Or.inl Bool.false_lt_true)

end Deletion

end Db8.Db.MojDb
