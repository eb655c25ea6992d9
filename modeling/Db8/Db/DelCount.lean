import Db8.Db.DelDurable

/-!
# What a query deletion counts

The counts of the rounds add up to the objects deleted, and the rounds are as many as the matches
make them, when a deleted object is not found again. When it is, no round finds nothing, and the
loop runs until the limit, more than four billion, is used up.
-/

set_option autoImplicit false

namespace Db8.Db.MojDb

open Db8.Bytes
open Db8.Core

namespace Deletion

variable {κ : Type*} [LinearOrder κ] {deletion : Deletion κ}

def total (swept : List (Swept × ObjectStore)) : Nat :=
  ((swept.map Prod.fst).map Swept.count).sum

theorem total_cons (round : Swept) (store : ObjectStore) (swept : List (Swept × ObjectStore)) :
    total ((round, store) :: swept) = round.count + total swept := rfl

variable {swept : List (Swept × ObjectStore)} {before after : ObjectStore} {limit queryLimit : Nat}

theorem ran_total_left (vanishes : deletion.Vanishes before) (once : deletion.MetOnce before)
    (ran : Ran deletion.sweep limit queryLimit before swept after) :
    (deletion.matching after).length + total swept = (deletion.matching before).length := by
  induction ran with
  | out limit txn => rfl
  | last _ round _ => exact (sweep_done vanishes round).2.once once
  | more _ round _ _ ih =>
    have done := (sweep_done vanishes round).2
    have counted := done.once once
    have rest := ih (done.deleted.vanishes vanishes) (once.after vanishes done.deleted)
    rw [total_cons]
    omega

theorem ran_total (vanishes : deletion.Vanishes before) (once : deletion.MetOnce before)
    (aligned : limit ≤ queryLimit) (positive : queryLimit ≠ 0 → 0 < limit)
    (ran : Ran deletion.sweep limit queryLimit before swept after) :
    total swept = min queryLimit (deletion.matching before).length := by
  induction ran with
  | out limit txn => simp [total]
  | last going round none =>
    have done := (sweep_done vanishes round).2
    have counted := done.once once
    rw [done.drained (none ▸ positive going), none, List.length_nil] at counted
    rw [total_cons, none, ← counted]
    simp [total]
  | @more limit queryLimit txn next final swept later going round _ onward ih =>
    have done := (sweep_done vanishes round).2
    have counted := done.once once
    have bounded := done.bounded
    have drained : swept.count < limit → (deletion.matching next).length = 0 :=
      fun less => List.length_eq_zero_iff.mpr (done.drained less)
    have below : nextLimit (queryLimit - limit) ≤ queryLimit - limit := by
      unfold nextLimit
      split_ifs <;> omega
    have rest := ih (done.deleted.vanishes vanishes) (once.after vanishes done.deleted) below
      nextLimit_pos
    rw [total_cons]
    omega

theorem ran_length (vanishes : deletion.Vanishes before) (once : deletion.MetOnce before)
    (aligned : limit = nextLimit queryLimit ∨ limit = queryLimit)
    (ran : Ran deletion.sweep limit queryLimit before swept after) :
    swept.length ≤ (deletion.matching before).length / 1000 + 2 ∧
      (queryLimit = 0 → swept.length = 0) ∧
      ((deletion.matching before).length = 0 → swept.length ≤ 1) := by
  induction ran with
  | out limit txn => simp
  | last going _ _ => exact ⟨by simp, fun none => absurd none going, fun _ => by simp⟩
  | @more limit queryLimit txn next final swept later going round some onward ih =>
    have done := (sweep_done vanishes round).2
    have counted := done.once once
    have bounded := done.bounded
    have drained : swept.count < limit → (deletion.matching next).length = 0 :=
      fun less => List.length_eq_zero_iff.mpr (done.drained less)
    have small : limit = 1000 ∨ limit = queryLimit := by
      rcases aligned with next | whole
      · rw [next]
        unfold nextLimit autoBatchSize
        split_ifs
        · exact Or.inl rfl
        · exact Or.inr rfl
      · exact Or.inr whole
    rcases ih (done.deleted.vanishes vanishes) (once.after vanishes done.deleted) (Or.inl rfl)
      with ⟨length, ended, alone⟩
    rw [List.length_cons]
    refine ⟨?_, fun none => absurd none going, fun none => ?_⟩
    · rcases small with thousand | whole
      · by_cases less : swept.count < limit
        · have last := alone (drained less)
          omega
        · omega
      · have last := ended (by omega)
        omega
    · omega

/-- Whether what is left under an id counts as deleted. -/
def counts (deletion : Deletion κ) (obj : MojObject) (left : Option MojObject) : Bool :=
  if deletion.purge then decide (left = none) else live obj && !((left.map live).getD false)

/-- The ids of the objects that were live, or stored at all, and are deleted afterwards. -/
def deletedIds (deletion : Deletion κ) (before after : ObjectStore) : List MojString :=
  (before.objDb.entries.filter fun entry =>
    deletion.counts entry.2 (after.objDb.find entry.1)).map Prod.fst

/-- The objects a query deletion is about: the live ones it finds, or all with `FlagPurge`. -/
def due (deletion : Deletion κ) (before : ObjectStore) : Nat :=
  (before.objDb.entries.filter fun entry =>
    deletion.finds entry.1 entry.2 && (deletion.purge || live entry.2)).length

structure CountsDeleted (deletion : Deletion κ) (limit : MojUInt32) (before after : ObjectStore)
    (rounds : List Swept) : Prop where
  few : rounds.length ≤ before.objDb.entries.length / autoBatchSize + 2
  counted : (countOut rounds).toNat = (deletion.deletedIds before after).length
  limited : (countOut rounds).toNat = min limit.toNat (deletion.due before)

def FindsDue (deletion : Deletion κ) (store : ObjectStore) : Prop :=
  deletion.purge = true ∨ deletion.FindsLive store

theorem due_eq {before : ObjectStore} (findsDue : deletion.FindsDue before) :
    deletion.due before = (deletion.matching before).length := by
  unfold due matching
  rw [List.length_map]
  apply congrArg List.length
  apply List.filter_congr
  intro entry member
  have stored := (before.objDb.find_eq_some_iff entry.1 entry.2).mpr member
  cases found : deletion.finds entry.1 entry.2 with
  | false => rfl
  | true =>
    rcases findsDue with purge | findsLive
    · simp [purge]
    · simp [findsLive entry.1 entry.2 stored found]

theorem mem_deletedIds (before after : ObjectStore) (id : MojString) :
    id ∈ deletion.deletedIds before after ↔
      ∃ obj, before.objDb.find id = some obj ∧
        deletion.counts obj (after.objDb.find id) = true := by
  unfold deletedIds
  rw [List.mem_map]
  constructor
  · intro present
    rcases present with ⟨entry, member, named⟩
    rcases List.mem_filter.mp member with ⟨stored, gone⟩
    rw [← named]
    exact ⟨entry.2, (before.objDb.find_eq_some_iff entry.1 entry.2).mpr stored, gone⟩
  · intro present
    rcases present with ⟨obj, stored, gone⟩
    exact ⟨(id, obj), List.mem_filter.mpr ⟨(before.objDb.find_eq_some_iff id obj).mp stored, gone⟩,
      rfl⟩

theorem counts_same (obj : MojObject) : deletion.counts obj (some obj) = false := by
  unfold counts
  split_ifs
  · rfl
  · simp

theorem Gone.counts {obj : MojObject} {left : Option MojObject} (gone : deletion.Gone obj left)
    (due : deletion.purge = true ∨ live obj = true) : deletion.counts obj left = true := by
  unfold Gone at gone
  unfold Deletion.counts
  cases purge : deletion.purge with
  | true =>
    rw [if_pos purge] at gone
    simp [gone]
  | false =>
    rw [purge] at due
    rw [if_neg (by simp [purge])] at gone
    rcases gone with ⟨rev, marked⟩
    rcases due with impossible | lived
    · cases impossible
    · simp [marked, lived, live_markDeleted]

theorem deletedIds_length (vanishes : deletion.Vanishes before)
    (findsDue : deletion.FindsDue before) (deleted : deletion.Deleted before after) :
    (deletion.matching after).length + (deletion.deletedIds before after).length =
      (deletion.matching before).length := by
  have apart : ∀ id ∈ deletion.matching after, ∀ other ∈ deletion.deletedIds before after,
      id ≠ other := by
    intro id member other gone same
    have kept := deleted.kept vanishes member
    rcases (mem_deletedIds before after other).mp gone with ⟨obj, stored, counted⟩
    rw [← same] at stored counted
    rw [kept, stored, counts_same] at counted
    cases counted
  have nodup : (deletion.matching after ++ deletion.deletedIds before after).Nodup :=
    List.nodup_append.mpr ⟨deletion.matching_nodup after,
      before.objDb.keys_nodup.sublist (List.filter_sublist.map Prod.fst), apart⟩
  have perm : (deletion.matching after ++ deletion.deletedIds before after).Perm
      (deletion.matching before) := by
    rw [List.perm_ext_iff_of_nodup nodup (deletion.matching_nodup before)]
    intro id
    rw [List.mem_append]
    constructor
    · intro either
      rcases either with member | gone
      · exact deleted.matching_sub member
      · rcases (mem_deletedIds before after id).mp gone with ⟨obj, stored, counted⟩
        rcases deleted id with same | ⟨old, oldStored, oldFound, _⟩
        · rw [same, stored, counts_same] at counted
          cases counted
        · exact (deletion.mem_matching before id).mpr ⟨old, oldStored, oldFound⟩
    · intro member
      rcases deleted id with same | ⟨old, oldStored, oldFound, gone⟩
      · rw [deletion.mem_matching] at member ⊢
        exact Or.inl (same.symm ▸ member)
      · apply Or.inr ((mem_deletedIds before after id).mpr ⟨old, oldStored, gone.counts _⟩)
        exact findsDue.imp_right fun findsLive => findsLive id old oldStored oldFound
  rw [← List.length_append, perm.length_eq]

theorem matching_length_le (store : ObjectStore) :
    (deletion.matching store).length ≤ store.objDb.entries.length := by
  unfold matching
  rw [List.length_map]
  exact List.length_filter_le _ _

theorem firstLimit_le (limit : MojUInt32) :
    firstLimit limit ≤ limit.toNat ∧
      (firstLimit limit = nextLimit limit.toNat ∨ firstLimit limit = limit.toNat) := by
  unfold firstLimit
  split_ifs with default
  · rw [default]
    exact ⟨by decide, Or.inl rfl⟩
  · exact ⟨le_refl _, Or.inr rfl⟩

theorem countsDeleted_of_ran {limit : MojUInt32} (vanishes : deletion.Vanishes before)
    (once : deletion.MetOnce before) (findsDue : deletion.FindsDue before)
    (ran : Ran deletion.sweep (firstLimit limit) limit.toNat before swept after) :
    deletion.CountsDeleted limit before after (swept.map Prod.fst) := by
  rcases firstLimit_le limit with ⟨below, aligned⟩
  have counted := ran_total vanishes once below firstLimit_pos ran
  have fits : total swept < 2 ^ 32 := by
    rw [counted]
    exact lt_of_le_of_lt (Nat.min_le_left _ _) limit.isLt
  have value : (countOut (swept.map Prod.fst)).toNat = total swept := by
    unfold countOut
    rw [BitVec.toNat_ofNat]
    exact Nat.mod_eq_of_lt fits
  have left := ran_total_left vanishes once ran
  have gone := deletedIds_length vanishes findsDue (ran_deleted ran).1
  have many := @matching_length_le κ _ deletion before
  constructor
  · rw [List.length_map]
    have length := (ran_length vanishes once aligned ran).1
    unfold autoBatchSize
    omega
  · rw [value]
    omega
  · rw [value, counted, due_eq findsDue]

section Again

variable {before after : ObjectStore}

theorem sweepFrom_meets {room count : Nat}
    (success : deletion.sweepFrom (deletion.indexKeys before) (room + 1) none before =
      (after, .ok count)) (found : deletion.matching before ≠ []) : count ≠ 0 := by
  rcases sweepFrom_succ success with ⟨got, rfl, rfl⟩ | ⟨_, _, _, rest, _, _, _, rfl⟩
  · exfalso
    rw [Ne, matching_eq_nil_iff, not_forall] at found
    rcases found with ⟨key, present⟩
    have present := not_not.mp present
    have ahead := deletion.cursor.complete (deletion.indexKeys after)
      (deletion.indexKeys after) none key present present (by simp)
    have missing := List.findSome?_eq_none_iff.mp got key ahead
    rcases (deletion.mem_indexKeys after key).mp present with ⟨obj, stored, _⟩
    simp [stored] at missing
  · exact Nat.succ_ne_zero rest

theorem sweep_again (again : deletion.FindsAgain) {limit : Nat} {swept : Swept}
    (success : deletion.sweep limit before = (after, .ok swept)) (positive : 0 < limit)
    (found : deletion.matching before ≠ []) :
    swept.count ≠ 0 ∧ deletion.matching after ≠ [] := by
  have whole := (sweep_ok success).2
  constructor
  · rw [← Nat.succ_pred_eq_of_pos positive] at whole
    exact sweepFrom_meets whole found
  · intro none
    rcases List.exists_mem_of_ne_nil _ found with ⟨id, member⟩
    have still := sweepFrom_again again _ _ whole member
    rw [none] at still
    cases still

theorem ran_again (again : deletion.FindsAgain) {limit queryLimit : Nat}
    {swept : List (Swept × ObjectStore)} (aligned : limit = nextLimit queryLimit)
    (found : deletion.matching before ≠ [])
    (ran : Ran deletion.sweep limit queryLimit before swept after) :
    queryLimit ≤ autoBatchSize * swept.length := by
  induction ran with
  | out limit txn => exact Nat.zero_le _
  | last going round none =>
    exact absurd none (sweep_again again round (aligned ▸ nextLimit_pos going) found).1
  | @more limit queryLimit txn next final swept later going round _ onward ih =>
    have rest := ih rfl (sweep_again again round (aligned ▸ nextLimit_pos going) found).2
    have small : limit ≤ autoBatchSize := by
      rw [aligned]
      unfold nextLimit
      split_ifs <;> omega
    rw [List.length_cons, Nat.mul_succ]
    omega

end Again

/-- What `delImpl` leaves in the transaction, and whether its count and its rounds are right. -/
def Exact (deletion : Deletion κ) (limit : MojUInt32) (before : ObjectStore)
    (after : Session ObjectStore) (rounds : List Swept) : Prop :=
  ∃ final, after.txn = some final ∧ deletion.CountsDeleted limit before final rounds

variable {rounds : List Swept}

theorem delImpl_ran {limit : MojUInt32} {session after : Session ObjectStore} {before : ObjectStore}
    (one : session.beginCount = 1) (running : session.txn = some before)
    (success : delImpl deletion.sweep limit session = (after, .ok rounds)) :
    ∃ swept final, Ran deletion.sweep (firstLimit limit) limit.toNat before swept final ∧
      after.txn = some final ∧ rounds = swept.map Prod.fst := by
  unfold delImpl at success
  rw [delRounds_eq deletion.sweep _ _ _ one running, Prod.mk.injEq] at success
  rcases success with ⟨same, counted⟩
  cases ok : (MojDb.rounds deletion.sweep (limit.toNat + 1) (firstLimit limit) limit.toNat
      before).result with
  | error err => simp [ok, Except.map] at counted
  | ok _ =>
    rw [ok] at counted
    simp only [Except.map, Except.ok.injEq] at counted
    exact ⟨_, _, rounds_ran ok, by rw [← same]; rfl, counted.symm⟩

theorem exact_of_met_once {limit : MojUInt32} {session after : Session ObjectStore}
    {before : ObjectStore} (one : session.beginCount = 1) (running : session.txn = some before)
    (success : delImpl deletion.sweep limit session = (after, .ok rounds))
    (vanishes : deletion.Vanishes before) (once : deletion.MetOnce before)
    (findsDue : deletion.FindsDue before) : deletion.Exact limit before after rounds := by
  rcases delImpl_ran one running success with ⟨swept, final, ran, left, counted⟩
  rw [counted]
  exact ⟨final, left, countsDeleted_of_ran vanishes once findsDue ran⟩

theorem not_exact_of_found_again {session after : Session ObjectStore} {before : ObjectStore}
    (one : session.beginCount = 1) (running : session.txn = some before)
    (success : delImpl deletion.sweep MojDbQuery.limitDefault session = (after, .ok rounds))
    (again : deletion.FindsAgain) (small : before.objDb.entries.length < 4294966000)
    (found : deletion.matching before ≠ []) :
    ¬ deletion.Exact MojDbQuery.limitDefault before after rounds := by
  intro exact_
  rcases delImpl_ran one running success with ⟨swept, final, ran, _, counted⟩
  rcases exact_ with ⟨_, _, countsDeleted⟩
  have few := countsDeleted.few
  have aligned : firstLimit MojDbQuery.limitDefault = nextLimit MojDbQuery.limitDefault.toNat := by
    decide
  have long := ran_again again aligned found ran
  have default : MojDbQuery.limitDefault.toNat = 4294967295 := by decide
  rw [counted, List.length_map] at few
  unfold autoBatchSize at few long
  omega

theorem exact_of_nothing {limit : MojUInt32} {session after : Session ObjectStore}
    {before : ObjectStore} (one : session.beginCount = 1) (running : session.txn = some before)
    (success : delImpl deletion.sweep limit session = (after, .ok rounds))
    (none : deletion.matching before = []) : deletion.Exact limit before after rounds := by
  have unfound : ∀ id obj, before.objDb.find id = some obj → deletion.finds id obj = true →
      False := by
    intro id obj stored found
    have member := (deletion.mem_matching before id).mpr ⟨obj, stored, found⟩
    rw [none] at member
    cases member
  apply exact_of_met_once one running success
  · intro _ id obj stored found
    exact absurd found (fun found => unfound id obj stored found)
  · apply Or.inr (Or.inl _)
    intro left leftIn
    exact absurd leftIn ((matching_eq_nil_iff before).mp none left)
  · apply Or.inr
    intro id obj stored found
    exact absurd found (fun found => unfound id obj stored found)

section Limited

variable {before after : ObjectStore}

theorem ran_whole {limit queryLimit : Nat} {swept : List (Swept × ObjectStore)}
    (whole : limit = queryLimit)
    (ran : Ran deletion.sweep limit queryLimit before swept after) :
    (queryLimit = 0 ∧ swept = [] ∧ after = before) ∨
      ∃ round, deletion.sweep limit before = (after, .ok round) ∧ swept = [(round, after)] := by
  cases ran with
  | out => exact Or.inl ⟨rfl, rfl, rfl⟩
  | last _ round _ => exact Or.inr ⟨_, round, rfl⟩
  | more _ round _ onward =>
    have ended : queryLimit - limit = 0 := by rw [whole, Nat.sub_self]
    have spent := ran_out ended onward
    subst spent
    generalize queryLimit - limit = left at onward
    generalize nextLimit left = next at onward
    cases onward with
    | out => exact Or.inr ⟨_, round, rfl⟩

theorem alive_nodup (store : ObjectStore) : (deletion.alive store).Nodup := selected_nodup

theorem deletedIds_alive (kept : deletion.purge = false) (deleted : deletion.Deleted before after) :
    (deletion.alive after).length + (deletion.deletedIds before after).length =
      (deletion.alive before).length := by
  have untouched : ∀ id ∈ deletion.alive after, after.objDb.find id = before.objDb.find id := by
    intro id member
    rcases (mem_alive after id).mp member with ⟨obj, stored, _, living⟩
    rcases deleted id with same | ⟨old, _, _, gone⟩
    · exact same
    · unfold Gone at gone
      rw [if_neg (by simp [kept])] at gone
      rcases gone with ⟨rev, marked⟩
      rw [stored, Option.some.injEq] at marked
      rw [marked, live_markDeleted] at living
      cases living
  have apart : ∀ id ∈ deletion.alive after, ∀ other ∈ deletion.deletedIds before after,
      id ≠ other := by
    rintro id member other gone rfl
    rcases (mem_deletedIds before after id).mp gone with ⟨obj, stored, counted⟩
    rw [untouched id member, stored, counts_same] at counted
    cases counted
  have nodup : (deletion.alive after ++ deletion.deletedIds before after).Nodup :=
    List.nodup_append.mpr ⟨alive_nodup after,
      before.objDb.keys_nodup.sublist (List.filter_sublist.map Prod.fst), apart⟩
  have perm : (deletion.alive after ++ deletion.deletedIds before after).Perm
      (deletion.alive before) := by
    rw [List.perm_ext_iff_of_nodup nodup (alive_nodup before)]
    intro id
    rw [List.mem_append]
    constructor
    · rintro (member | gone)
      · have same := untouched id member
        rw [mem_alive] at member ⊢
        rwa [same] at member
      · rcases (mem_deletedIds before after id).mp gone with ⟨obj, stored, counted⟩
        unfold counts at counted
        rw [if_neg (by simp [kept]), Bool.and_eq_true] at counted
        rcases deleted id with same | ⟨old, oldStored, oldFound, _⟩
        · rw [same, stored] at counted
          simp [counted.1] at counted
        · rw [stored, Option.some.injEq] at oldStored
          exact (mem_alive before id).mpr ⟨obj, stored, oldStored ▸ oldFound, counted.1⟩
    · intro member
      rcases (mem_alive before id).mp member with ⟨obj, stored, found, living⟩
      rcases deleted id with same | ⟨old, oldStored, _, gone⟩
      · exact Or.inl ((mem_alive after id).mpr ⟨obj, same.trans stored, found, living⟩)
      · rw [stored, Option.some.injEq] at oldStored
        rw [← oldStored] at gone
        exact Or.inr ((mem_deletedIds before after id).mpr
          ⟨obj, stored, gone.counts (Or.inr living)⟩)
  rw [← List.length_append, perm.length_eq]

theorem due_alive (kept : deletion.purge = false) :
    deletion.due before = (deletion.alive before).length := by
  unfold due alive selected
  rw [List.length_map]
  simp only [kept, Bool.false_or]

theorem deadKeys_length_eq_zero_iff (store : ObjectStore) :
    (deletion.deadKeys store).length = 0 ↔ (deletion.dead store).length = 0 := by
  rw [List.length_eq_zero_iff, List.length_eq_zero_iff, List.eq_nil_iff_forall_not_mem,
    List.eq_nil_iff_forall_not_mem]
  constructor
  · intro none id member
    rcases (mem_dead store id).mp member with ⟨obj, stored, found, gone⟩
    rcases (deletion.finds_iff id obj).mp found with ⟨key, inside⟩
    have owner := deletion.index.owns id obj key inside
    rw [← owner] at stored inside
    exact none key ((mem_deadKeys store key).mpr ⟨obj, stored, inside, gone⟩)
  · intro none key member
    rcases (mem_deadKeys store key).mp member with ⟨obj, stored, inside, gone⟩
    exact none _ ((mem_dead store _).mpr
      ⟨obj, stored, (deletion.finds_iff _ obj).mpr ⟨key, inside⟩, gone⟩)

variable {rounds : List Swept}

theorem exact_limited {limit : MojUInt32} {session final : Session ObjectStore}
    (one : session.beginCount = 1) (running : session.txn = some before)
    (success : delImpl deletion.sweep limit session = (final, .ok rounds))
    (kept : deletion.purge = false) (own : limit ≠ MojDbQuery.limitDefault) (some : limit.toNat ≠ 0)
    (bounded : ∀ {after round}, deletion.sweep limit.toNat before = (after, .ok round) →
      round.count ≤ limit.toNat) :
    ∃ after round, deletion.sweep limit.toNat before = (after, .ok round) ∧
      (deletion.Exact limit before final rounds ↔
        round.count + (deletion.alive after).length = (deletion.alive before).length ∧
          round.count = min limit.toNat (deletion.alive before).length) := by
  rcases delImpl_ran one running success with ⟨swept, after, ran, left, counted⟩
  have alone : firstLimit limit = limit.toNat := if_neg own
  rw [alone] at ran
  rcases ran_whole rfl ran with ⟨none, _⟩ | ⟨round, ranOnce, rfl⟩
  · exact absurd none some
  · refine ⟨after, round, ranOnce, ?_⟩
    have value : (countOut rounds).toNat = round.count := by
      have most := bounded ranOnce
      have small := limit.isLt
      rw [counted]
      unfold countOut
      simp only [List.map_cons, List.map_nil, List.sum_cons, List.sum_nil, Nat.add_zero,
        BitVec.toNat_ofNat]
      exact Nat.mod_eq_of_lt (by omega)
    have gone := deletedIds_alive kept (sweep_deleted ranOnce)
    have due := @due_alive κ _ deletion before kept
    constructor
    · rintro ⟨other, otherLeft, exact_⟩
      rw [left, Option.some.injEq] at otherLeft
      subst otherLeft
      have first := exact_.counted
      have second := exact_.limited
      rw [value] at first second
      rw [due] at second
      exact ⟨by omega, second⟩
    · rintro ⟨first, second⟩
      refine ⟨after, left, ?_, ?_, ?_⟩
      · rw [counted]
        simp
      · rw [value]
        omega
      · rw [value, due, second]

theorem exact_out {limit : MojUInt32} {session final : Session ObjectStore}
    (one : session.beginCount = 1) (running : session.txn = some before)
    (success : delImpl deletion.sweep limit session = (final, .ok rounds))
    (kept : deletion.purge = false) (own : limit ≠ MojDbQuery.limitDefault) (none : limit.toNat = 0) :
    deletion.Exact limit before final rounds := by
  rcases delImpl_ran one running success with ⟨swept, after, ran, left, counted⟩
  have alone : firstLimit limit = limit.toNat := if_neg own
  rw [alone] at ran
  have gone := deletedIds_alive kept (ran_deleted ran).1
  rcases ran_whole rfl ran with ⟨_, rfl, rfl⟩ | ⟨round, ranOnce, rfl⟩
  · refine ⟨after, left, ?_, ?_, ?_⟩
    · simp [counted]
    · simp only [counted, List.map_nil]
      have zero : (countOut []).toNat = 0 := by decide
      omega
    · rw [counted, none, Nat.zero_min]
      decide
  · rw [none] at ran
    exact absurd (ran_out rfl ran) (List.cons_ne_nil _ _)

/-- A deletion with a limit of its own that meets live objects first counts right if it does not come to
the deleted ones, or finds nothing. -/
theorem exact_iff_live_first {limit : MojUInt32} {session after : Session ObjectStore}
    (one : session.beginCount = 1) (running : session.txn = some before)
    (success : delImpl deletion.sweep limit session = (after, .ok rounds))
    (includes : deletion.IncludesDeleted) (own : limit ≠ MojDbQuery.limitDefault)
    (order : deletion.LiveFirst) :
    deletion.Exact limit before after rounds ↔
      limit.toNat ≤ (deletion.alive before).length ∨ deletion.matching before = [] := by
  by_cases none : deletion.matching before = []
  · exact ⟨fun _ => Or.inr none, fun _ => exact_of_nothing one running success none⟩
  · have many := List.length_pos_of_ne_nil none
    by_cases zero : limit.toNat = 0
    · exact ⟨fun _ => Or.inl (zero ▸ Nat.zero_le _),
        fun _ => exact_out one running success includes.kept own zero⟩
    · rcases exact_limited one running success includes.kept own zero
        (fun round => (sweep_live_first includes order round).2.2.2) with
        ⟨next, round, ranOnce, iff_⟩
      rcases sweep_live_first includes order ranOnce with ⟨_, left, counted, most⟩
      rw [iff_, or_iff_left none]
      omega

theorem exact_iff_dead_first {limit : MojUInt32} {session after : Session ObjectStore}
    (one : session.beginCount = 1) (running : session.txn = some before)
    (success : delImpl deletion.sweep limit session = (after, .ok rounds))
    (includes : deletion.IncludesDeleted) (own : limit ≠ MojDbQuery.limitDefault)
    (order : deletion.DeadFirst) :
    deletion.Exact limit before after rounds ↔
      limit.toNat = 0 ∨ (deletion.dead before).length = 0 := by
  by_cases zero : limit.toNat = 0
  · exact ⟨fun _ => Or.inl zero, fun _ => exact_out one running success includes.kept own zero⟩
  · rcases exact_limited one running success includes.kept own zero
      (fun round => (sweep_dead_first includes order round).2.2.2.2) with
      ⟨next, round, ranOnce, iff_⟩
    rcases sweep_dead_first includes order ranOnce with ⟨left, counted, _, least, most⟩
    have both := @alive_dead κ _ deletion before
    have keyed := @deadKeys_length_eq_zero_iff κ _ deletion before
    rw [iff_, or_iff_right zero]
    omega

end Limited

theorem ran_same (same : ∀ room, deletion.sweep (room + 1) before = (before, .ok ⟨1, 1⟩))
    (aligned : limit = nextLimit queryLimit)
    (ran : Ran deletion.sweep limit queryLimit before swept after) :
    swept.length = (queryLimit + 999) / 1000 ∧ total swept = swept.length := by
  have rounds : ∀ {room next round}, 0 < room →
      deletion.sweep room before = (next, .ok round) → next = before ∧ round = ⟨1, 1⟩ := by
    intro room next round positive success
    rw [← Nat.succ_pred_eq_of_pos positive] at success
    have both := Prod.mk.inj ((same _).symm.trans success)
    exact ⟨both.1.symm, (Except.ok.inj both.2).symm⟩
  induction ran with
  | out limit txn => exact ⟨rfl, rfl⟩
  | last going round none =>
    rcases rounds (aligned ▸ nextLimit_pos going) round with ⟨_, rfl⟩
    cases none
  | @more limit queryLimit txn next final swept later going round _ onward ih =>
    rcases rounds (aligned ▸ nextLimit_pos going) round with ⟨rfl, rfl⟩
    rcases ih same rfl rounds with ⟨length, counted⟩
    have bounds := nextLimit_le queryLimit
    have last : queryLimit < 1000 → nextLimit queryLimit = queryLimit := by
      unfold nextLimit autoBatchSize
      split_ifs <;> omega
    rw [List.length_cons, total_cons, counted, length, aligned]
    constructor
    · by_cases whole : 1000 ≤ queryLimit
      · rw [bounds.2.2 whole]
        omega
      · rw [last (not_le.mp whole)]
        omega
    · exact Nat.add_comm _ _

theorem ran_after_first {before middle after : ObjectStore} {round : Swept} (going : queryLimit ≠ 0)
    (first : deletion.sweep limit before = (middle, .ok round)) (some : round.count ≠ 0)
    (ran : Ran deletion.sweep limit queryLimit before swept after) :
    ∃ later, Ran deletion.sweep (nextLimit (queryLimit - limit)) (queryLimit - limit) middle later
      after ∧ swept = (round, middle) :: later := by
  cases ran with
  | out => exact absurd rfl going
  | last _ only none =>
    rw [first, Prod.mk.injEq, Except.ok.injEq] at only
    exact absurd (only.2 ▸ none) some
  | more _ only _ onward =>
    rw [first, Prod.mk.injEq, Except.ok.injEq] at only
    rcases only with ⟨rfl, rfl⟩
    exact ⟨_, onward, rfl⟩

end Deletion

end Db8.Db.MojDb
