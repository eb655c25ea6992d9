import Db8.Db.DelSweep
import Db8.Db.IndexUpdate

/-!
# A query deletion over the stored keys

A round of a query deletion once more, this time with the keys of all indexes as they are stored:
the cursor goes over the keys in the ranges of the query, and each deletion takes the object's keys
out. Which of the stored objects a query is meant for is a set of objects of its own, the target.
-/

set_option autoImplicit false

namespace Db8.Db.DelKind

open Db8.Bytes
open Db8.Core
open MojDb
open MojDbKindEngine
open Deletion (Beyond beyond_some)

/-- What storage and kinds do besides the indexes: cursors, backups, and errors. -/
structure Rest where
  cursor : StorageCursor MojDbKey
  backup : MojObject → Bool
  refuses : KindMap → Option MojObject → MojObject → Option MojErr

/-- A query as its plan sees it: the keys its ranges reach, the id a key ends in, and the checks of
the find. -/
structure KeyQuery where
  inRange : MojDbKey → Bool
  idOf : MojDbKey → MojString
  find : KindMap → Except MojErr Unit

namespace Rest

/-- `update` of the kind engine, with what else can refuse it. -/
def kindUpdate (rest : Rest) (kinds : KindMap) (newObj : Option MojObject) (obj : MojObject)
    (keys : KeySet) : Except MojErr KeySet :=
  match rest.refuses kinds newObj obj with
  | some err => .error err
  | none => update kinds newObj (some obj) keys

def delObj (rest : Rest) (kinds : KindMap) (purge : Bool) (id : MojString) (obj : MojObject)
    (db : Database) : Except MojErr Database :=
  if purge then do
    let keys ← rest.kindUpdate kinds none obj db.keys
    .ok { db with objDb := db.objDb.del id, keys := keys }
  else
    let newObj := markDeleted (rest.backup obj) (db.rev + 1) obj
    if newObj = obj then .ok db
    else do
      let keys ← rest.kindUpdate kinds (some newObj) obj db.keys
      .ok ⟨db.objDb.put id newObj, db.rev + 1, keys⟩

end Rest

namespace KeyQuery

def rangeKeys (query : KeyQuery) (db : Database) : KeySet := db.keys.keep query.inRange

/-- `get` of the cursor: keys without an object are passed over. -/
def get (query : KeyQuery) (rest : Rest) (opened : KeySet) (last : Option MojDbKey)
    (db : Database) : Option (MojDbKey × MojObject) :=
  (rest.cursor.ahead opened (query.rangeKeys db) last).findSome? fun key =>
    (db.objDb.find (query.idOf key)).map fun obj => (key, obj)

/-- The loop of a round, with the number of objects the limit still lets through. -/
def sweepFrom (query : KeyQuery) (rest : Rest) (kinds : KindMap) (purge : Bool) (opened : KeySet) :
    Nat → Option MojDbKey → Database → Database × Except MojErr Nat
  | 0, _, db => (db, .ok 0)
  | room + 1, last, db =>
    match query.get rest opened last db with
    | none => (db, .ok 0)
    | some (key, obj) =>
      match rest.delObj kinds purge (query.idOf key) obj db with
      | .error err => (db, .error err)
      | .ok db =>
        let later := query.sweepFrom rest kinds purge opened room (some key) db
        (later.1, later.2.map (· + 1))

def sweep (query : KeyQuery) (rest : Rest) (kinds : KindMap) (purge : Bool) : Sweep Database :=
  fun limit db =>
    match query.find kinds with
    | .error err => (db, .error err)
    | .ok () =>
      let swept := query.sweepFrom rest kinds purge (query.rangeKeys db) limit none db
      (swept.1, swept.2.map fun count => ⟨count, count⟩)

theorem mem_rangeKeys (query : KeyQuery) (db : Database) (key : MojDbKey) :
    key ∈ query.rangeKeys db ↔ key ∈ db.keys ∧ query.inRange key = true :=
  SortedSet.mem_keep db.keys query.inRange key

end KeyQuery

/-- What `delObj` leaves under the id. -/
def Gone (rest : Rest) (purge : Bool) (obj : MojObject) (left : Option MojObject) : Prop :=
  if purge then left = none
  else ∃ rev, left = some (markDeleted (rest.backup obj) rev obj)

/-- What `delObj` does to the objects and the keys. -/
structure DelDone (rest : Rest) (kinds : KindMap) (purge : Bool) (id : MojString) (obj : MojObject)
    (before after : Database) : Prop where
  gone : Gone rest purge obj (after.objDb.find id)
  others : ∀ other, other ≠ id → after.objDb.find other = before.objDb.find other
  exchanged : ∃ newObj, Exchanged kinds newObj (some obj) before.keys after.keys ∧
    (newObj = none ∨ purge = false ∧ ∃ rev, newObj = some (markDeleted (rest.backup obj) rev obj))

variable {kinds : KindMap} {rest : Rest}

theorem exchanged_kindUpdate {newObj : Option MojObject} {obj : MojObject} {before after : KeySet}
    (success : rest.kindUpdate kinds newObj obj before = .ok after) :
    Exchanged kinds newObj (some obj) before after := by
  unfold Rest.kindUpdate at success
  cases refused : rest.refuses kinds newObj obj with
  | some err => simp [refused] at success
  | none =>
    rw [refused] at success
    exact exchanged_update success

theorem delObj_done {purge : Bool} {id : MojString} {obj : MojObject} {before after : Database}
    (stored : before.objDb.find id = some obj)
    (success : rest.delObj kinds purge id obj before = .ok after) :
    DelDone rest kinds purge id obj before after := by
  unfold Rest.delObj at success
  cases purge with
  | true =>
    rw [if_pos rfl] at success
    rcases except_bind_ok success with ⟨keys, updated, same⟩
    rw [← Except.ok.inj same]
    constructor
    · unfold Gone
      rw [if_pos rfl, SortedMap.find_del, if_pos rfl]
    · intro other different
      rw [SortedMap.find_del, if_neg (Ne.symm different)]
    · exact ⟨none, exchanged_kindUpdate updated, Or.inl rfl⟩
  | false =>
    rw [if_neg Bool.false_ne_true] at success
    dsimp only at success
    generalize before.rev + 1 = rev at success
    by_cases unchanged : markDeleted (rest.backup obj) rev obj = obj
    · rw [if_pos unchanged, Except.ok.injEq] at success
      rw [← success]
      constructor
      · unfold Gone
        rw [if_neg Bool.false_ne_true]
        exact ⟨rev, by rw [stored, unchanged]⟩
      · intro other _
        rfl
      · exact ⟨none, Exchanged.refl before.keys, Or.inl rfl⟩
    · rw [if_neg unchanged] at success
      rcases except_bind_ok success with ⟨keys, updated, same⟩
      rw [← Except.ok.inj same]
      constructor
      · unfold Gone
        rw [if_neg Bool.false_ne_true, SortedMap.find_put, if_pos rfl]
        exact ⟨rev, rfl⟩
      · intro other different
        rw [SortedMap.find_put, if_neg (Ne.symm different)]
      · exact ⟨_, exchanged_kindUpdate updated, Or.inr ⟨rfl, rev, rfl⟩⟩

/-- The keys the ranges reach end in the ids of the objects they belong to. -/
def Owned (kinds : KindMap) (query : KeyQuery) (db : Database) : Prop :=
  ∀ id obj, db.objDb.find id = some obj → ∀ key, Keyed kinds (some obj) key →
    query.inRange key = true → query.idOf key = id

/-- The ranges of the query do not reach the keys of objects that are marked deleted. -/
def Hides (rest : Rest) (kinds : KindMap) (query : KeyQuery) : Prop :=
  ∀ rev obj key, Keyed kinds (some (markDeleted (rest.backup obj) rev obj)) key →
    query.inRange key = false

def Covered (target : MojObject → Prop) (query : KeyQuery) (db : Database) : Prop :=
  ∀ id obj, db.objDb.find id = some obj → target obj →
    ∃ key ∈ query.rangeKeys db, query.idOf key = id

def Without (target : MojObject → Prop) (db : Database) : Prop :=
  ∀ id obj, db.objDb.find id = some obj → ¬ target obj

def Ends (rest : Rest) (purge : Bool) (target : MojObject → Prop) : Prop :=
  purge = false → ∀ rev obj, ¬ target (markDeleted (rest.backup obj) rev obj)

section Step

variable {rest : Rest} {kinds : KindMap} {query : KeyQuery} {purge : Bool} {id : MojString}
  {obj : MojObject} {before after : Database} {target : MojObject → Prop}

theorem DelDone.range_sub (done : DelDone rest kinds purge id obj before after)
    (hides : purge = false → Hides rest kinds query) {key : MojDbKey}
    (member : key ∈ query.rangeKeys after) : key ∈ query.rangeKeys before := by
  rw [query.mem_rangeKeys] at member ⊢
  rcases done.exchanged with ⟨newObj, exchanged, none | ⟨marks, rev, marked⟩⟩
  · rw [none] at exchanged
    rcases exchanged.gained key member.1 with old | new
    · exact ⟨old, member.2⟩
    · exact absurd new (not_keyed_none kinds key)
  · rw [marked] at exchanged
    rcases exchanged.gained key member.1 with old | new
    · exact ⟨old, member.2⟩
    · rw [hides marks rev obj key new] at member
      exact absurd member.2 Bool.false_ne_true

theorem DelDone.range_kept (done : DelDone rest kinds purge id obj before after)
    (owned : Owned kinds query before) (stored : before.objDb.find id = some obj) {key : MojDbKey}
    (member : key ∈ query.rangeKeys before) (other : query.idOf key ≠ id) :
    key ∈ query.rangeKeys after := by
  rw [query.mem_rangeKeys] at member ⊢
  rcases done.exchanged with ⟨newObj, exchanged, _⟩
  rcases exchanged.lost key member.1 with kept | old
  · exact ⟨kept, member.2⟩
  · exact absurd (owned id obj stored key old member.2) other

theorem DelDone.owned (done : DelDone rest kinds purge id obj before after)
    (hides : purge = false → Hides rest kinds query) (owned : Owned kinds query before) :
    Owned kinds query after := by
  intro other held stored key keyed inside
  by_cases same : other = id
  · have gone := done.gone
    rw [← same, stored] at gone
    unfold Gone at gone
    cases purge with
    | true =>
      rw [if_pos rfl] at gone
      cases gone
    | false =>
      rw [if_neg Bool.false_ne_true] at gone
      rcases gone with ⟨rev, marked⟩
      rw [Option.some.inj marked] at keyed
      rw [hides rfl rev obj key keyed] at inside
      exact absurd inside Bool.false_ne_true
  · rw [done.others other same] at stored
    exact owned other held stored key keyed inside

theorem DelDone.target_before (done : DelDone rest kinds purge id obj before after)
    (ends : Ends rest purge target) {other : MojString} {held : MojObject}
    (stored : after.objDb.find other = some held) (meant : target held) :
    other ≠ id ∧ before.objDb.find other = some held := by
  have different : other ≠ id := by
    intro same
    have gone := done.gone
    rw [← same, stored] at gone
    unfold Gone at gone
    cases purge with
    | true =>
      rw [if_pos rfl] at gone
      cases gone
    | false =>
      rw [if_neg Bool.false_ne_true] at gone
      rcases gone with ⟨rev, marked⟩
      rw [Option.some.inj marked] at meant
      exact ends rfl rev obj meant
  exact ⟨different, by rw [← done.others other different, stored]⟩

theorem DelDone.covered (done : DelDone rest kinds purge id obj before after)
    (ends : Ends rest purge target) (owned : Owned kinds query before)
    (stored : before.objDb.find id = some obj) (covered : Covered target query before) :
    Covered target query after := by
  intro other held heldStored meant
  rcases done.target_before ends heldStored meant with ⟨different, old⟩
  rcases covered other held old meant with ⟨key, member, owner⟩
  exact ⟨key, done.range_kept owned stored member (owner ▸ different), owner⟩

end Step

structure Sweeping (kinds : KindMap) (query : KeyQuery) (target : MojObject → Prop)
    (opened : KeySet) (last : Option MojDbKey) (db : Database) : Prop where
  owned : Owned kinds query db
  shrunk : ∀ key ∈ query.rangeKeys db, key ∈ opened
  ahead : ∀ id obj, db.objDb.find id = some obj → target obj →
    ∃ key ∈ query.rangeKeys db, query.idOf key = id ∧ Beyond last key

variable {query : KeyQuery} {last : Option MojDbKey} {opened : KeySet}

theorem get_some {db : Database} {key : MojDbKey} {obj : MojObject}
    (got : query.get rest opened last db = some (key, obj)) :
    db.objDb.find (query.idOf key) = some obj ∧
      key ∈ rest.cursor.ahead opened (query.rangeKeys db) last ∧
      ∀ other ∈ rest.cursor.ahead opened (query.rangeKeys db) last, other < key →
        db.objDb.find (query.idOf other) = none := by
  unfold KeyQuery.get at got
  rcases List.findSome?_eq_some_iff.mp got with ⟨front, next, back, split, found, skipped⟩
  rcases Option.map_eq_some_iff.mp found with ⟨held, stored, pair⟩
  rcases Prod.mk.inj pair with ⟨sameKey, sameObj⟩
  rw [sameKey] at stored split
  rw [sameObj] at stored
  apply And.intro stored
  apply And.intro (by rw [split]; simp)
  intro other member below
  have sorted := rest.cursor.sorted opened (query.rangeKeys db) last
  rw [split] at member sorted
  rcases List.mem_append.mp member with early | late
  · exact Option.map_eq_none_iff.mp (skipped other early)
  · have tail := (List.pairwise_append.mp sorted).2.1
    rcases List.mem_cons.mp late with same | later
    · exact absurd below (same ▸ lt_irrefl key)
    · exact absurd below (lt_asymm (List.rel_of_pairwise_cons tail later))

namespace Sweeping

variable {rest : Rest} {kinds : KindMap} {query : KeyQuery} {target : MojObject → Prop}
  {opened : KeySet} {last : Option MojDbKey} {db : Database}

theorem drained (sweeping : Sweeping kinds query target opened last db)
    (got : query.get rest opened last db = none) : Without target db := by
  intro id obj stored meant
  rcases sweeping.ahead id obj stored meant with ⟨key, member, owner, beyond⟩
  have inside := rest.cursor.complete opened (query.rangeKeys db) last key
    (sweeping.shrunk key member) member beyond
  have missing := List.findSome?_eq_none_iff.mp got key inside
  rw [owner, stored] at missing
  cases missing

theorem met (sweeping : Sweeping kinds query target opened last db) {key : MojDbKey}
    {obj : MojObject} (got : query.get rest opened last db = some (key, obj)) :
    key ∈ opened ∧ Beyond last key := by
  have inside := (get_some got).2.1
  apply And.intro _ (rest.cursor.beyond _ _ _ key inside)
  rcases rest.cursor.shown _ _ _ key inside with old | now
  · exact old
  · exact sweeping.shrunk key now

theorem step {purge : Bool} (sweeping : Sweeping kinds query target opened last db)
    (hides : purge = false → Hides rest kinds query) (ends : Ends rest purge target)
    {key : MojDbKey} {obj : MojObject} {after : Database}
    (got : query.get rest opened last db = some (key, obj))
    (success : rest.delObj kinds purge (query.idOf key) obj db = .ok after) :
    Sweeping kinds query target opened (some key) after := by
  rcases get_some got with ⟨stored, inside, skipped⟩
  have done := delObj_done stored success
  constructor
  · exact done.owned hides sweeping.owned
  · intro other member
    exact sweeping.shrunk other (done.range_sub hides member)
  · intro id held heldStored meant
    rcases done.target_before ends heldStored meant with ⟨different, old⟩
    rcases sweeping.ahead id held old meant with ⟨found, member, owner, beyond⟩
    have kept := done.range_kept sweeping.owned stored member (owner ▸ different)
    refine ⟨found, kept, owner, ?_⟩
    rw [beyond_some]
    have shown := rest.cursor.complete opened (query.rangeKeys db) last found
      (sweeping.shrunk found member) member beyond
    rcases lt_trichotomy key found with above | same | below
    · exact above
    · exact absurd (same ▸ owner).symm different
    · have missing := skipped found shown below
      rw [owner, old] at missing
      cases missing

end Sweeping

/-- The keys the cursor was opened on that lie past the last one. -/
def remaining (opened : KeySet) (last : Option MojDbKey) : Nat :=
  (opened.elems.filter fun key => decide (Beyond last key)).length

variable {target : MojObject → Prop}

theorem Sweeping.passed {db : Database} (sweeping : Sweeping kinds query target opened last db)
    (none : remaining opened last = 0) : Without target db := by
  intro id obj stored meant
  rcases sweeping.ahead id obj stored meant with ⟨key, member, _, beyond⟩
  unfold remaining at none
  rw [List.length_eq_zero_iff, List.filter_eq_nil_iff] at none
  exact none key (sweeping.shrunk key member) (decide_eq_true beyond)

structure Swept (kinds : KindMap) (query : KeyQuery) (target : MojObject → Prop) (opened : KeySet)
    (room left count : Nat) (after : Database) : Prop where
  owned : Owned kinds query after
  shrunk : ∀ key ∈ query.rangeKeys after, key ∈ opened
  bounded : count ≤ room
  counted : count ≤ left
  drained : count < room ∨ count = left → Without target after

theorem remaining_lt {key : MojDbKey} (member : key ∈ opened) (beyond : Beyond last key) :
    remaining opened (some key) < remaining opened last := by
  have fewer : (opened.elems.filter fun other => decide (Beyond (some key) other)) =
      (opened.elems.filter fun other => decide (Beyond last other)).filter fun other =>
        decide (key < other) := by
    rw [List.filter_filter]
    apply List.filter_congr
    intro other _
    rw [← Bool.decide_and, decide_eq_decide, beyond_some]
    constructor
    · intro above
      exact ⟨above, fun passed isLast => lt_trans (beyond passed isLast) above⟩
    · exact And.left
  unfold remaining
  rw [fewer, List.length_filter_lt_length_iff_exists]
  exact ⟨key, List.mem_filter.mpr ⟨member, decide_eq_true beyond⟩, by simp⟩

theorem sweepFrom_swept {purge : Bool} (hides : purge = false → Hides rest kinds query)
    (ends : Ends rest purge target) (room : Nat) {db after : Database} {count : Nat}
    (sweeping : Sweeping kinds query target opened last db)
    (success : query.sweepFrom rest kinds purge opened room last db = (after, .ok count)) :
    Swept kinds query target opened room (remaining opened last) count after := by
  induction room generalizing last db count with
  | zero =>
    rw [KeyQuery.sweepFrom, Prod.mk.injEq, Except.ok.injEq] at success
    rcases success with ⟨same, none⟩
    rw [← same, ← none]
    refine ⟨sweeping.owned, sweeping.shrunk, Nat.le_refl 0, Nat.zero_le _, ?_⟩
    intro ended
    exact sweeping.passed ((ended.resolve_left (Nat.lt_irrefl 0)).symm)
  | succ room ih =>
    rw [KeyQuery.sweepFrom] at success
    cases got : query.get rest opened last db with
    | none =>
      rw [got] at success
      simp only [Prod.mk.injEq, Except.ok.injEq] at success
      rcases success with ⟨same, none⟩
      rw [← same, ← none]
      exact ⟨sweeping.owned, sweeping.shrunk, Nat.zero_le _, Nat.zero_le _,
        fun _ => sweeping.drained got⟩
    | some met =>
      rcases met with ⟨key, obj⟩
      rw [got] at success
      simp only at success
      cases deleting : rest.delObj kinds purge (query.idOf key) obj db with
      | error err => simp [deleting] at success
      | ok next =>
        rw [deleting] at success
        simp only [Prod.mk.injEq] at success
        rcases success with ⟨same, counted⟩
        cases later : (query.sweepFrom rest kinds purge opened room (some key) next).2 with
        | error err => simp [later, Except.map] at counted
        | ok more =>
          rw [later] at counted
          simp only [Except.map, Except.ok.injEq] at counted
          have done := ih (sweeping.step hides ends got deleting) (Prod.ext same later)
          rcases sweeping.met got with ⟨member, beyond⟩
          have fewer := remaining_lt member beyond
          have most := done.counted
          rw [← counted]
          exact ⟨done.owned, done.shrunk, Nat.succ_le_succ done.bounded, by omega,
            fun ended => done.drained (by omega)⟩

theorem sweep_swept {purge : Bool} (hides : purge = false → Hides rest kinds query)
    (ends : Ends rest purge target) {limit : Nat} {before after : Database} {swept : MojDb.Swept}
    (owned : Owned kinds query before) (covered : Covered target query before)
    (success : query.sweep rest kinds purge limit before = (after, .ok swept)) :
    swept.numberInBatch = swept.count ∧
      Swept kinds query target (query.rangeKeys before) limit (query.rangeKeys before).elems.length
        swept.count after := by
  unfold KeyQuery.sweep at success
  cases opened : query.find kinds with
  | error err => simp [opened] at success
  | ok _ =>
    rw [opened] at success
    simp only [Prod.mk.injEq] at success
    rcases success with ⟨same, counted⟩
    cases ran : (query.sweepFrom rest kinds purge (query.rangeKeys before) limit none before).2 with
    | error err => simp [ran, Except.map] at counted
    | ok count =>
      rw [ran] at counted
      simp only [Except.map, Except.ok.injEq] at counted
      rw [← counted]
      have start : Sweeping kinds query target (query.rangeKeys before) none before := by
        refine ⟨owned, fun _ member => member, ?_⟩
        intro id obj stored meant
        rcases covered id obj stored meant with ⟨key, member, owner⟩
        exact ⟨key, member, owner, by simp [Beyond]⟩
      have whole : remaining (query.rangeKeys before) none =
          (query.rangeKeys before).elems.length := by
        simp [remaining, Beyond]
      exact ⟨rfl, whole ▸ sweepFrom_swept hides ends limit start (Prod.ext same ran)⟩

theorem sweep_keeps {rest : Rest} {kinds : KindMap} {query : KeyQuery} {purge : Bool}
    {holds : Database → Prop}
    (keeps : ∀ id obj before after, holds before → before.objDb.find id = some obj →
      DelDone rest kinds purge id obj before after → holds after)
    {limit : Nat} {before after : Database} {swept : MojDb.Swept} (held : holds before)
    (success : query.sweep rest kinds purge limit before = (after, .ok swept)) : holds after := by
  have loop : ∀ room opened last db next count, holds db →
      query.sweepFrom rest kinds purge opened room last db = (next, .ok count) → holds next := by
    intro room
    induction room with
    | zero =>
      intro opened last db next count held ended
      rw [KeyQuery.sweepFrom, Prod.mk.injEq] at ended
      exact ended.1 ▸ held
    | succ room ih =>
      intro opened last db next count held ended
      rw [KeyQuery.sweepFrom] at ended
      cases got : query.get rest opened last db with
      | none =>
        rw [got] at ended
        simp only [Prod.mk.injEq] at ended
        exact ended.1 ▸ held
      | some met =>
        rcases met with ⟨key, obj⟩
        rw [got] at ended
        simp only at ended
        cases deleting : rest.delObj kinds purge (query.idOf key) obj db with
        | error err => simp [deleting] at ended
        | ok mid =>
          rw [deleting] at ended
          simp only [Prod.mk.injEq] at ended
          cases later : (query.sweepFrom rest kinds purge opened room (some key) mid).2 with
          | error err => simp [later, Except.map] at ended
          | ok more =>
            have stored := (get_some got).1
            have kept := keeps _ obj db mid held stored (delObj_done stored deleting)
            exact ih opened (some key) mid next more kept (Prod.ext ended.1 later)
  unfold KeyQuery.sweep at success
  cases opened : query.find kinds with
  | error err => simp [opened] at success
  | ok _ =>
    rw [opened] at success
    simp only [Prod.mk.injEq] at success
    cases ran : (query.sweepFrom rest kinds purge (query.rangeKeys before) limit none before).2 with
    | error err => simp [ran, Except.map] at success
    | ok count => exact loop limit _ none before after count held (Prod.ext success.1 ran)

theorem sweepFrom_ok {rest : Rest} {kinds : KindMap} {query : KeyQuery} {purge : Bool}
    {holds : Database → Prop}
    (works : ∀ id obj db, holds db → db.objDb.find id = some obj →
      ∃ after, rest.delObj kinds purge id obj db = .ok after ∧ holds after)
    (opened : KeySet) (room : Nat) (last : Option MojDbKey) {db : Database} (held : holds db) :
    ∃ after count, query.sweepFrom rest kinds purge opened room last db = (after, .ok count) := by
  induction room generalizing last db with
  | zero => exact ⟨db, 0, rfl⟩
  | succ room ih =>
    rw [KeyQuery.sweepFrom]
    cases got : query.get rest opened last db with
    | none => exact ⟨db, 0, rfl⟩
    | some met =>
      rcases met with ⟨key, obj⟩
      rcases works _ obj db held (get_some got).1 with ⟨next, deleted, still⟩
      rcases ih (some key) still with ⟨after, count, later⟩
      simp only [deleted, later]
      exact ⟨after, count + 1, rfl⟩

theorem sweepFrom_changed {purge : Bool} (opened : KeySet) (room : Nat) (last : Option MojDbKey)
    {db after : Database} {count : Nat}
    (success : query.sweepFrom rest kinds purge opened room last db = (after, .ok count)) :
    ∃ ids : List MojString, ids.length ≤ count ∧
      ∀ id, id ∉ ids → after.objDb.find id = db.objDb.find id := by
  induction room generalizing last db count with
  | zero =>
    rw [KeyQuery.sweepFrom, Prod.mk.injEq] at success
    rw [← success.1]
    exact ⟨[], Nat.zero_le _, fun _ _ => rfl⟩
  | succ room ih =>
    rw [KeyQuery.sweepFrom] at success
    cases got : query.get rest opened last db with
    | none =>
      rw [got] at success
      simp only [Prod.mk.injEq] at success
      rw [← success.1]
      exact ⟨[], Nat.zero_le _, fun _ _ => rfl⟩
    | some met =>
      rcases met with ⟨key, obj⟩
      rw [got] at success
      simp only at success
      cases deleting : rest.delObj kinds purge (query.idOf key) obj db with
      | error err => simp [deleting] at success
      | ok next =>
        rw [deleting] at success
        simp only [Prod.mk.injEq] at success
        cases later : (query.sweepFrom rest kinds purge opened room (some key) next).2 with
        | error err => simp [later, Except.map] at success
        | ok more =>
          rw [later] at success
          simp only [Except.map, Except.ok.injEq] at success
          rcases ih (some key) (Prod.ext success.1 later) with ⟨ids, fewer, others⟩
          have done := delObj_done (get_some got).1 deleting
          refine ⟨query.idOf key :: ids, ?_, ?_⟩
          · rw [List.length_cons, ← success.2]
            exact Nat.succ_le_succ fewer
          · intro id outside
            rw [List.mem_cons, not_or] at outside
            rw [others id outside.2, done.others id outside.1]

end Db8.Db.DelKind
