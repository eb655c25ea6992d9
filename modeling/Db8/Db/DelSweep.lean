import Db8.Db.DelQuery

/-!
# One round of a query deletion

What a round makes of the objects, whatever the cursors show of it: each object the query found is
gone or untouched, all others are untouched, and a round that stops before its limit leaves nothing
the query finds. Whether each of its steps deletes an object depends on the keys an object has.
-/

set_option autoImplicit false

namespace Db8.Db.MojDb

open Db8.Bytes
open Db8.Core

theorem markDeleted_put (backup : Bool) (rev : MojInt64) (obj : MojObject) :
    (markDeleted backup rev obj).put delKey (.bool true) = markDeleted backup rev obj := by
  have apart : delKey ≠ revKey ∧ delKey ≠ syncKey := by decide
  unfold markDeleted
  dsimp only
  split_ifs with same sync
  · exact same
  · apply MojObject.put_placed _ apart.2
    exact MojObject.put_placed _ apart.1 (MojObject.put_put obj delKey _)
  · exact MojObject.put_placed _ apart.1 (MojObject.put_put obj delKey _)

theorem markDeleted_markDeleted (backup : Bool) (first second : MojInt64) (obj : MojObject) :
    markDeleted backup second (markDeleted backup first obj) = markDeleted backup first obj :=
  if_pos (markDeleted_put backup first obj)

namespace Deletion

variable {κ : Type*} [LinearOrder κ] {deletion : Deletion κ}

def live (obj : MojObject) : Bool := !((obj.get delKey).map MojObject.boolValue).getD false

theorem live_markDeleted (backup : Bool) (rev : MojInt64) (obj : MojObject) :
    live (markDeleted backup rev obj) = false := by
  have marked : (markDeleted backup rev obj).get delKey = some (.bool true) := by
    rw [← markDeleted_put, MojObject.get_put, if_pos rfl]
  simp [live, marked, MojObject.boolValue]

def Vanishes (deletion : Deletion κ) (store : ObjectStore) : Prop :=
  deletion.purge = false → ∀ id obj, store.objDb.find id = some obj →
    deletion.finds id obj = true →
      ∀ rev, deletion.finds id (markDeleted deletion.backup rev obj) = false

/-- No object is met twice in a round: a purged one is not there any more, and a marked one has no
second key or none that the cursors still show. -/
def MetOnce (deletion : Deletion κ) (store : ObjectStore) : Prop :=
  deletion.purge = true ∨
    (∀ left ∈ deletion.indexKeys store, ∀ right ∈ deletion.indexKeys store,
      deletion.index.idOf left = deletion.index.idOf right → left = right) ∨
    (∀ opened now last, ∀ key ∈ deletion.cursor.ahead opened now last, key ∈ now)

def Gone (deletion : Deletion κ) (obj : MojObject) (left : Option MojObject) : Prop :=
  if deletion.purge then left = none
  else ∃ rev, left = some (markDeleted deletion.backup rev obj)

/-- Only objects the query found were touched, and those that were are gone. -/
def Deleted (deletion : Deletion κ) (before after : ObjectStore) : Prop :=
  ∀ id, after.objDb.find id = before.objDb.find id ∨
    ∃ obj, before.objDb.find id = some obj ∧ deletion.finds id obj = true ∧
      deletion.Gone obj (after.objDb.find id)

theorem Deleted.refl (deletion : Deletion κ) (store : ObjectStore) :
    deletion.Deleted store store := fun _ => Or.inl rfl

theorem Gone.lost {before after : ObjectStore} (vanishes : deletion.Vanishes before)
    {id : MojString} {obj : MojObject} (stored : before.objDb.find id = some obj)
    (found : deletion.finds id obj = true) (gone : deletion.Gone obj (after.objDb.find id)) :
    id ∉ deletion.matching after := by
  intro member
  rcases (deletion.mem_matching after id).mp member with ⟨left, leftStored, leftFound⟩
  unfold Gone at gone
  cases purge : deletion.purge with
  | true =>
    rw [if_pos purge, leftStored] at gone
    cases gone
  | false =>
    rw [if_neg (by simp [purge])] at gone
    rcases gone with ⟨rev, marked⟩
    rw [leftStored, Option.some.injEq] at marked
    have lost := vanishes purge id obj stored found rev
    rw [← marked, leftFound] at lost
    cases lost

theorem Gone.again {first : MojObject} {obj : MojObject} {left : Option MojObject}
    (gone : deletion.Gone first (some obj)) (again : deletion.Gone obj left) :
    deletion.Gone first left := by
  unfold Gone at gone again ⊢
  cases purge : deletion.purge with
  | true =>
    rw [if_pos purge] at gone
    cases gone
  | false =>
    rw [if_neg (by simp [purge])] at gone again ⊢
    rcases gone with ⟨rev, marked⟩
    rcases again with ⟨next, remarked⟩
    rw [Option.some.injEq] at marked
    rw [marked, markDeleted_markDeleted] at remarked
    exact ⟨rev, remarked⟩

theorem Deleted.kept {before after : ObjectStore} (deleted : deletion.Deleted before after)
    (vanishes : deletion.Vanishes before) {id : MojString} (member : id ∈ deletion.matching after) :
    after.objDb.find id = before.objDb.find id := by
  rcases deleted id with same | ⟨obj, stored, found, gone⟩
  · exact same
  · exact absurd member (gone.lost vanishes stored found)

theorem Deleted.matching_sub {before after : ObjectStore} (deleted : deletion.Deleted before after)
    {id : MojString} (member : id ∈ deletion.matching after) : id ∈ deletion.matching before := by
  rcases deleted id with same | ⟨obj, stored, found, _⟩
  · rw [deletion.mem_matching] at member ⊢
    rwa [same] at member
  · exact (deletion.mem_matching before id).mpr ⟨obj, stored, found⟩

theorem Deleted.vanishes {before after : ObjectStore} (deleted : deletion.Deleted before after)
    (vanishes : deletion.Vanishes before) : deletion.Vanishes after := by
  intro marks id obj stored found
  have same := deleted.kept vanishes ((deletion.mem_matching after id).mpr ⟨obj, stored, found⟩)
  exact vanishes marks id obj (same ▸ stored) found

theorem Deleted.trans {before middle after : ObjectStore} (first : deletion.Deleted before middle)
    (second : deletion.Deleted middle after) : deletion.Deleted before after := by
  intro id
  rcases second id with same | ⟨obj, stored, found, gone⟩
  · rw [same]
    exact first id
  · rcases first id with kept | ⟨old, oldStored, oldFound, oldGone⟩
    · exact Or.inr ⟨obj, kept ▸ stored, found, gone⟩
    · rw [stored] at oldGone
      exact Or.inr ⟨old, oldStored, oldFound, oldGone.again gone⟩

theorem mem_indexKeys_of_same {left right : ObjectStore} {key : κ}
    (same : left.objDb.find (deletion.index.idOf key) =
      right.objDb.find (deletion.index.idOf key)) :
    key ∈ deletion.indexKeys left ↔ key ∈ deletion.indexKeys right := by
  rw [deletion.mem_indexKeys, deletion.mem_indexKeys, same]

theorem matching_of_indexKeys {store : ObjectStore} {key : κ}
    (present : key ∈ deletion.indexKeys store) :
    deletion.index.idOf key ∈ deletion.matching store := by
  rcases (deletion.mem_indexKeys store key).mp present with ⟨obj, stored, member⟩
  exact (deletion.mem_matching store _).mpr
    ⟨obj, stored, (deletion.finds_iff _ obj).mpr ⟨key, member⟩⟩

theorem indexKeys_of_matching {store : ObjectStore} {id : MojString}
    (member : id ∈ deletion.matching store) :
    ∃ key ∈ deletion.indexKeys store, deletion.index.idOf key = id := by
  rcases (deletion.mem_matching store id).mp member with ⟨obj, stored, found⟩
  rcases (deletion.finds_iff id obj).mp found with ⟨key, inside⟩
  have owner := deletion.index.owns id obj key inside
  rw [← owner] at stored inside
  exact ⟨key, (deletion.mem_indexKeys store key).mpr ⟨obj, stored, inside⟩, owner⟩

theorem matching_eq_nil_iff (store : ObjectStore) :
    deletion.matching store = [] ↔ ∀ key, key ∉ deletion.indexKeys store := by
  rw [List.eq_nil_iff_forall_not_mem]
  constructor
  · intro none key present
    exact none _ (matching_of_indexKeys present)
  · intro none id member
    rcases indexKeys_of_matching member with ⟨key, present, _⟩
    exact none key present

theorem delObj_find {id : MojString} {obj : MojObject} {store after : ObjectStore}
    (stored : store.objDb.find id = some obj) (success : deletion.delObj id obj store = .ok after) :
    deletion.Gone obj (after.objDb.find id) ∧
      ∀ other, other ≠ id → after.objDb.find other = store.objDb.find other := by
  unfold delObj at success
  unfold Gone
  cases purge : deletion.purge with
  | true =>
    rw [if_pos purge] at success
    cases checked : deletion.update none obj with
    | error err => simp [checked, bind, Except.bind] at success
    | ok _ =>
      simp only [checked, bind, Except.bind, Except.ok.injEq] at success
      rw [← success]
      simp only [SortedMap.find_del]
      exact ⟨by simp, fun other different => if_neg (Ne.symm different)⟩
  | false =>
    rw [if_neg (by simp [purge])] at success
    dsimp only at success
    generalize store.rev + 1 = rev at success
    by_cases same : markDeleted deletion.backup rev obj = obj
    · rw [if_pos same, Except.ok.injEq] at success
      rw [← success]
      exact ⟨by simpa using ⟨rev, by rw [stored, same]⟩, fun _ _ => rfl⟩
    · rw [if_neg same] at success
      cases checked : deletion.update (some (markDeleted deletion.backup rev obj)) obj with
      | error err => simp [checked, bind, Except.bind] at success
      | ok _ =>
        simp only [checked, bind, Except.bind, Except.ok.injEq] at success
        rw [← success]
        simp only [SortedMap.find_put]
        exact ⟨by simpa using ⟨rev, rfl⟩, fun other different =>
          if_neg (Ne.symm different)⟩

theorem Deleted.delObj_gone {id : MojString} {obj : MojObject}
    {before store after : ObjectStore} (deleted : deletion.Deleted before store)
    (met : id ∈ deletion.matching before) (stored : store.objDb.find id = some obj)
    (success : deletion.delObj id obj store = .ok after) :
    ∃ first, before.objDb.find id = some first ∧ deletion.finds id first = true ∧
      deletion.Gone first (after.objDb.find id) := by
  have gone := (delObj_find stored success).1
  rcases (deletion.mem_matching before id).mp met with ⟨old, oldStored, oldFound⟩
  rcases deleted id with kept | ⟨first, firstStored, firstFound, firstGone⟩
  · rw [stored, oldStored, Option.some.injEq] at kept
    exact ⟨old, oldStored, oldFound, kept ▸ gone⟩
  · rw [stored] at firstGone
    exact ⟨first, firstStored, firstFound, firstGone.again gone⟩

theorem Deleted.delObj {id : MojString} {obj : MojObject} {before store after : ObjectStore}
    (deleted : deletion.Deleted before store) (met : id ∈ deletion.matching before)
    (stored : store.objDb.find id = some obj) (success : deletion.delObj id obj store = .ok after) :
    deletion.Deleted before after := by
  intro other
  by_cases same : other = id
  · rw [same]
    exact Or.inr (deleted.delObj_gone met stored success)
  · rw [(delObj_find stored success).2 other same]
    exact deleted other

/-- A cursor leads to objects the query found when the round began, or finds now. -/
theorem Deleted.met {before store : ObjectStore} {last : Option κ} {key : κ} {obj : MojObject}
    (deleted : deletion.Deleted before store)
    (got : deletion.get (deletion.indexKeys before) last store = some (key, obj)) :
    deletion.index.idOf key ∈ deletion.matching before := by
  rcases List.findSome?_eq_some_iff.mp got with ⟨front, next, back, split, found, _⟩
  rcases Option.map_eq_some_iff.mp found with ⟨held, _, pair⟩
  rcases Prod.mk.inj pair with ⟨rfl, _⟩
  rcases deletion.cursor.shown _ _ _ next (by rw [split]; simp) with old | now
  · exact matching_of_indexKeys old
  · exact deleted.matching_sub (matching_of_indexKeys now)

theorem get_stored {opened : SortedSet κ} {last : Option κ} {store : ObjectStore} {key : κ}
    {obj : MojObject} (got : deletion.get opened last store = some (key, obj)) :
    store.objDb.find (deletion.index.idOf key) = some obj := by
  rcases List.exists_of_findSome?_eq_some got with ⟨next, _, found⟩
  rcases Option.map_eq_some_iff.mp found with ⟨held, stored, pair⟩
  rcases Prod.mk.inj pair with ⟨rfl, rfl⟩
  exact stored

theorem sweepFrom_deleted {before : ObjectStore} (room : Nat) {last : Option κ}
    {store after : ObjectStore} {result : Except MojErr Nat}
    (deleted : deletion.Deleted before store)
    (ran : deletion.sweepFrom (deletion.indexKeys before) room last store = (after, result)) :
    deletion.Deleted before after := by
  induction room generalizing last store result with
  | zero =>
    cases ran
    exact deleted
  | succ room ih =>
    rw [sweepFrom] at ran
    cases got : deletion.get (deletion.indexKeys before) last store with
    | none =>
      rw [got] at ran
      cases ran
      exact deleted
    | some met =>
      rcases met with ⟨key, obj⟩
      rw [got] at ran
      simp only at ran
      cases deleting : deletion.delObj (deletion.index.idOf key) obj store with
      | error err =>
        rw [deleting] at ran
        cases ran
        exact deleted
      | ok next =>
        rw [deleting] at ran
        cases ran
        exact ih (deleted.delObj (deleted.met got) (get_stored got) deleting) rfl

theorem sweep_deleted {limit : Nat} {before after : ObjectStore} {result : Except MojErr Swept}
    (ran : deletion.sweep limit before = (after, result)) : deletion.Deleted before after := by
  unfold sweep at ran
  cases opened : deletion.find with
  | error err =>
    rw [opened] at ran
    cases ran
    exact Deleted.refl deletion before
  | ok _ =>
    rw [opened] at ran
    cases ran
    exact sweepFrom_deleted limit (Deleted.refl deletion before) rfl

def Beyond (last : Option κ) (key : κ) : Prop := ∀ passed ∈ last, passed < key

instance (last : Option κ) (key : κ) : Decidable (Beyond last key) :=
  inferInstanceAs (Decidable (∀ passed ∈ last, passed < key))

theorem beyond_some (passed key : κ) : Beyond (some passed) key ↔ passed < key := by
  simp [Beyond]

/-- A round on the way: what the index still holds lies ahead, and what is gone was passed. -/
structure Sweeping (deletion : Deletion κ) (before : ObjectStore) (last : Option κ)
    (store : ObjectStore) : Prop where
  deleted : deletion.Deleted before store
  ahead : ∀ key ∈ deletion.indexKeys store, Beyond last key
  behind : ∀ id, store.objDb.find id ≠ before.objDb.find id →
    ∃ key ∈ deletion.indexKeys before, deletion.index.idOf key = id ∧ ¬ Beyond last key

theorem sweeping_start (deletion : Deletion κ) (store : ObjectStore) :
    deletion.Sweeping store none store where
  deleted := Deleted.refl deletion store
  ahead key _ := by simp [Beyond]
  behind id changed := absurd rfl changed

theorem get_some {opened : SortedSet κ} {last : Option κ} {store : ObjectStore} {key : κ}
    {obj : MojObject} (got : deletion.get opened last store = some (key, obj)) :
    store.objDb.find (deletion.index.idOf key) = some obj ∧
      key ∈ deletion.cursor.ahead opened (deletion.indexKeys store) last ∧
      ∀ other ∈ deletion.cursor.ahead opened (deletion.indexKeys store) last, other < key →
        store.objDb.find (deletion.index.idOf other) = none := by
  unfold get at got
  rcases List.findSome?_eq_some_iff.mp got with ⟨front, next, back, split, found, skipped⟩
  rcases Option.map_eq_some_iff.mp found with ⟨held, stored, pair⟩
  rcases Prod.mk.inj pair with ⟨sameKey, sameObj⟩
  rw [sameKey] at stored split
  rw [sameObj] at stored
  apply And.intro stored
  apply And.intro (by rw [split]; simp)
  intro other member below
  have sorted := deletion.cursor.sorted opened (deletion.indexKeys store) last
  rw [split] at member sorted
  rcases List.mem_append.mp member with early | late
  · exact Option.map_eq_none_iff.mp (skipped other early)
  · have tail := (List.pairwise_append.mp sorted).2.1
    rcases List.mem_cons.mp late with same | later
    · exact absurd below (same ▸ lt_irrefl key)
    · exact absurd below (lt_asymm (List.rel_of_pairwise_cons tail later))

namespace Sweeping

variable {before store : ObjectStore} {last : Option κ}

theorem opened (sweeping : deletion.Sweeping before last store)
    (vanishes : deletion.Vanishes before) {key : κ} (present : key ∈ deletion.indexKeys store) :
    key ∈ deletion.indexKeys before :=
  (mem_indexKeys_of_same
    (sweeping.deleted.kept vanishes (matching_of_indexKeys present))).mp present

theorem shows (sweeping : deletion.Sweeping before last store)
    (vanishes : deletion.Vanishes before) {key : κ} (present : key ∈ deletion.indexKeys store) :
    key ∈ deletion.cursor.ahead (deletion.indexKeys before) (deletion.indexKeys store) last :=
  deletion.cursor.complete _ _ last key (sweeping.opened vanishes present) present
    (sweeping.ahead key present)

theorem drained (sweeping : deletion.Sweeping before last store)
    (vanishes : deletion.Vanishes before)
    (got : deletion.get (deletion.indexKeys before) last store = none) :
    deletion.matching store = [] := by
  rw [matching_eq_nil_iff]
  intro key present
  have missing := List.findSome?_eq_none_iff.mp got key (sweeping.shows vanishes present)
  rcases (deletion.mem_indexKeys store key).mp present with ⟨obj, stored, _⟩
  simp [stored] at missing

theorem met (sweeping : deletion.Sweeping before last store)
    (vanishes : deletion.Vanishes before) {key : κ} {obj : MojObject}
    (got : deletion.get (deletion.indexKeys before) last store = some (key, obj)) :
    key ∈ deletion.indexKeys before := by
  rcases deletion.cursor.shown _ _ _ key (get_some got).2.1 with old | now
  · exact old
  · exact sweeping.opened vanishes now

theorem step (sweeping : deletion.Sweeping before last store)
    (vanishes : deletion.Vanishes before) {key : κ} {obj : MojObject} {after : ObjectStore}
    (got : deletion.get (deletion.indexKeys before) last store = some (key, obj))
    (success : deletion.delObj (deletion.index.idOf key) obj store = .ok after) :
    deletion.Sweeping before (some key) after ∧
      deletion.index.idOf key ∉ deletion.matching after := by
  rcases get_some got with ⟨stored, inside, skipped⟩
  have member := sweeping.met vanishes got
  have matched := matching_of_indexKeys member
  have others := (delObj_find stored success).2
  rcases sweeping.deleted.delObj_gone matched stored success with
    ⟨first, firstStored, firstFound, gone⟩
  have lost := gone.lost vanishes firstStored firstFound
  refine ⟨⟨sweeping.deleted.delObj matched stored success, ?_, ?_⟩, lost⟩
  · intro other present
    have different : deletion.index.idOf other ≠ deletion.index.idOf key := by
      intro same
      exact lost (same ▸ matching_of_indexKeys present)
    have still := (mem_indexKeys_of_same (others _ different)).mp present
    rw [beyond_some]
    by_contra notBelow
    rcases lt_or_eq_of_le (not_lt.mp notBelow) with below | same
    · have missing := skipped other (sweeping.shows vanishes still) below
      rcases (deletion.mem_indexKeys store other).mp still with ⟨held, heldStored, _⟩
      rw [heldStored] at missing
      cases missing
    · exact different (congrArg deletion.index.idOf same)
  · intro id changed
    by_cases same : id = deletion.index.idOf key
    · exact ⟨key, member, same.symm, by rw [beyond_some]; exact lt_irrefl key⟩
    · rw [others id same] at changed
      rcases sweeping.behind id changed with ⟨passed, passedIn, owner, notBeyond⟩
      apply Exists.intro passed
      refine ⟨passedIn, owner, ?_⟩
      rw [beyond_some]
      intro above
      apply notBeyond
      intro earlier isLast
      exact lt_trans (deletion.cursor.beyond _ _ _ key inside earlier isLast) above

theorem passed (sweeping : deletion.Sweeping before last store) {id : MojString}
    (changed : store.objDb.find id ≠ before.objDb.find id) {key : κ}
    (left : key ∈ deletion.indexKeys store) :
    ∃ earlier ∈ deletion.indexKeys before, deletion.index.idOf earlier = id ∧ earlier < key := by
  rcases sweeping.behind id changed with ⟨earlier, present, owner, notBeyond⟩
  refine ⟨earlier, present, owner, ?_⟩
  have ahead := sweeping.ahead key left
  cases last with
  | none => exact absurd (by simp [Beyond]) notBeyond
  | some place =>
    rw [beyond_some] at notBeyond ahead
    exact lt_of_le_of_lt (not_lt.mp notBeyond) ahead

theorem fresh (sweeping : deletion.Sweeping before last store)
    (vanishes : deletion.Vanishes before) (once : deletion.MetOnce before) {key : κ}
    {obj : MojObject}
    (got : deletion.get (deletion.indexKeys before) last store = some (key, obj)) :
    deletion.index.idOf key ∈ deletion.matching store := by
  rcases get_some got with ⟨stored, inside, _⟩
  have member := sweeping.met vanishes got
  by_cases same : store.objDb.find (deletion.index.idOf key) =
      before.objDb.find (deletion.index.idOf key)
  · exact matching_of_indexKeys ((mem_indexKeys_of_same same).mpr member)
  · rcases once with purge | single | skips
    · rcases sweeping.deleted (deletion.index.idOf key) with kept | ⟨_, _, _, gone⟩
      · exact absurd kept same
      · unfold Gone at gone
        rw [if_pos purge, stored] at gone
        cases gone
    · rcases sweeping.behind _ same with ⟨passed, passedIn, owner, notBeyond⟩
      rw [single passed passedIn key member owner] at notBeyond
      exact absurd (deletion.cursor.beyond _ _ _ key inside) notBeyond
    · exact matching_of_indexKeys (skips _ _ _ key inside)

end Sweeping

theorem matching_length {store after : ObjectStore} {id : MojString}
    (member : id ∈ deletion.matching store) (lost : id ∉ deletion.matching after)
    (others : ∀ other, other ≠ id → after.objDb.find other = store.objDb.find other) :
    (deletion.matching after).length + 1 = (deletion.matching store).length := by
  have perm : (deletion.matching after).Perm ((deletion.matching store).erase id) := by
    rw [List.perm_ext_iff_of_nodup (deletion.matching_nodup after)
      ((deletion.matching_nodup store).erase id)]
    intro other
    rw [(deletion.matching_nodup store).mem_erase_iff]
    by_cases same : other = id
    · rw [same]
      simp [lost]
    · rw [deletion.mem_matching, deletion.mem_matching, others other same]
      simp [same]
  rw [perm.length_eq, List.length_erase_of_mem member]
  exact Nat.sub_add_cancel (List.length_pos_of_mem member)

/-- The keys a round that was started on `before` can still meet past `last`. -/
def remaining (deletion : Deletion κ) (before : ObjectStore) (last : Option κ) : Nat :=
  ((deletion.indexKeys before).elems.filter fun key => decide (Beyond last key)).length

theorem Sweeping.length_le {before store : ObjectStore} {last : Option κ}
    (sweeping : deletion.Sweeping before last store) (vanishes : deletion.Vanishes before) :
    (deletion.indexKeys store).elems.length ≤ deletion.remaining before last := by
  apply List.Subperm.length_le
  apply List.subperm_of_subset (deletion.indexKeys store).nodup
  intro key present
  exact List.mem_filter.mpr
    ⟨sweeping.opened vanishes present, by simpa using sweeping.ahead key present⟩

theorem remaining_lt {before : ObjectStore} {last : Option κ} {key : κ}
    (member : key ∈ deletion.indexKeys before) (beyond : Beyond last key) :
    deletion.remaining before (some key) + 1 ≤ deletion.remaining before last := by
  have fewer : ((deletion.indexKeys before).elems.filter fun other =>
      decide (Beyond (some key) other)) ⊆
      ((deletion.indexKeys before).elems.filter fun other => decide (Beyond last other)).erase key := by
    intro other inside
    rcases List.mem_filter.mp inside with ⟨present, past⟩
    have above : key < other := (beyond_some key other).mp (of_decide_eq_true past)
    rw [((deletion.indexKeys before).nodup.filter _).mem_erase_iff]
    apply And.intro (ne_of_gt above)
    apply List.mem_filter.mpr
    exact ⟨present, decide_eq_true fun passed isLast => lt_trans (beyond passed isLast) above⟩
  have short := (List.subperm_of_subset ((deletion.indexKeys before).nodup.filter _) fewer).length_le
  have held : key ∈ (deletion.indexKeys before).elems.filter fun other =>
      decide (Beyond last other) :=
    List.mem_filter.mpr ⟨member, decide_eq_true beyond⟩
  rw [List.length_erase_of_mem held] at short
  have positive := List.length_pos_of_mem held
  unfold remaining
  omega

structure RoundDone (deletion : Deletion κ) (before store after : ObjectStore)
    (room keys count : Nat) : Prop where
  deleted : deletion.Deleted before after
  sweeping : ∃ last, deletion.Sweeping before last after
  bounded : count ≤ room
  drained : count < room → deletion.matching after = []
  keysLeft : (deletion.indexKeys after).elems.length + count ≤ keys
  once : deletion.MetOnce before →
    (deletion.matching after).length + count = (deletion.matching store).length

theorem sweepFrom_succ {opened : SortedSet κ} {room count : Nat} {last : Option κ}
    {store after : ObjectStore}
    (success : deletion.sweepFrom opened (room + 1) last store = (after, .ok count)) :
    (deletion.get opened last store = none ∧ after = store ∧ count = 0) ∨
      ∃ key obj next rest, deletion.get opened last store = some (key, obj) ∧
        deletion.delObj (deletion.index.idOf key) obj store = .ok next ∧
        deletion.sweepFrom opened room (some key) next = (after, .ok rest) ∧ count = rest + 1 := by
  rw [sweepFrom] at success
  cases got : deletion.get opened last store with
  | none =>
    rw [got] at success
    cases success
    exact Or.inl ⟨rfl, rfl, rfl⟩
  | some met =>
    rcases met with ⟨key, obj⟩
    rw [got] at success
    simp only at success
    cases deleting : deletion.delObj (deletion.index.idOf key) obj store with
    | error err => simp [deleting] at success
    | ok next =>
      rw [deleting] at success
      simp only [Prod.mk.injEq] at success
      rcases success with ⟨same, counted⟩
      cases later : (deletion.sweepFrom opened room (some key) next).2 with
      | error err => simp [later, Except.map] at counted
      | ok rest =>
        rw [later] at counted
        simp only [Except.map, Except.ok.injEq] at counted
        exact Or.inr ⟨key, obj, next, rest, rfl, deleting, Prod.ext same later, counted.symm⟩

theorem sweepFrom_le {opened : SortedSet κ} (room : Nat) {last : Option κ}
    {store after : ObjectStore} {count : Nat}
    (success : deletion.sweepFrom opened room last store = (after, .ok count)) : count ≤ room := by
  induction room generalizing last store count with
  | zero =>
    cases success
    exact le_refl 0
  | succ room ih =>
    rcases sweepFrom_succ success with ⟨_, _, rfl⟩ | ⟨_, _, _, _, _, _, later, rfl⟩
    · exact Nat.zero_le _
    · exact Nat.succ_le_succ (ih later)

theorem sweepFrom_done {before : ObjectStore} (vanishes : deletion.Vanishes before) (room : Nat)
    {last : Option κ} {store after : ObjectStore} {count : Nat}
    (sweeping : deletion.Sweeping before last store)
    (success : deletion.sweepFrom (deletion.indexKeys before) room last store =
      (after, .ok count)) :
    deletion.RoundDone before store after room (deletion.remaining before last) count := by
  induction room generalizing last store count with
  | zero =>
    rw [sweepFrom, Prod.mk.injEq, Except.ok.injEq] at success
    rcases success with ⟨same, none⟩
    rw [← same, ← none]
    exact ⟨sweeping.deleted, ⟨last, sweeping⟩, le_refl 0, fun less => absurd less (Nat.lt_irrefl 0),
      sweeping.length_le vanishes, fun _ => rfl⟩
  | succ room ih =>
    rcases sweepFrom_succ success with ⟨got, rfl, rfl⟩ |
      ⟨key, obj, next, rest, got, deleting, later, rfl⟩
    · exact ⟨sweeping.deleted, ⟨last, sweeping⟩, Nat.zero_le _, fun _ => sweeping.drained vanishes got,
        sweeping.length_le vanishes, fun _ => rfl⟩
    · rcases sweeping.step vanishes got deleting with ⟨onward, lost⟩
      rcases get_some got with ⟨stored, inside, _⟩
      have done := ih onward later
      have fewer := remaining_lt (sweeping.met vanishes got)
        (deletion.cursor.beyond _ _ _ key inside)
      have keysLeft := done.keysLeft
      refine ⟨done.deleted, done.sweeping, Nat.succ_le_succ done.bounded, ?_, by omega, ?_⟩
      · intro less
        exact done.drained (Nat.lt_of_succ_lt_succ less)
      · intro once
        have found := sweeping.fresh vanishes once got
        have shorter := matching_length found lost (delObj_find stored deleting).2
        have rest := done.once once
        omega

theorem sweep_ok {limit : Nat} {before after : ObjectStore} {swept : Swept}
    (success : deletion.sweep limit before = (after, .ok swept)) :
    swept.numberInBatch = swept.count ∧
      deletion.sweepFrom (deletion.indexKeys before) limit none before =
        (after, .ok swept.count) := by
  unfold sweep at success
  cases opened : deletion.find with
  | error err => simp [opened] at success
  | ok _ =>
    rw [opened] at success
    simp only [Prod.mk.injEq] at success
    rcases success with ⟨same, counted⟩
    cases ran : (deletion.sweepFrom (deletion.indexKeys before) limit none before).2 with
    | error err => simp [ran, Except.map] at counted
    | ok count =>
      rw [ran] at counted
      simp only [Except.map, Except.ok.injEq] at counted
      rw [← counted]
      exact ⟨rfl, Prod.ext same ran⟩

theorem sweep_done {limit : Nat} {before after : ObjectStore} {swept : Swept}
    (vanishes : deletion.Vanishes before)
    (success : deletion.sweep limit before = (after, .ok swept)) :
    swept.numberInBatch = swept.count ∧
      deletion.RoundDone before before after limit (deletion.indexKeys before).elems.length
        swept.count := by
  rcases sweep_ok success with ⟨batch, ran⟩
  have done := sweepFrom_done vanishes limit (sweeping_start deletion before) ran
  have whole : deletion.remaining before none = (deletion.indexKeys before).elems.length := by
    simp [remaining, Beyond]
  exact ⟨batch, whole ▸ done⟩

end Deletion

end Db8.Db.MojDb
