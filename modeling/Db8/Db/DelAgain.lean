import Db8.Db.DelSweep

/-!
# Rounds that find deleted objects again

An index that includes deleted objects has `_del` in front of its keys, so a scan meets the live
objects before the deleted ones, or after them when it goes down. A deletion without `FlagPurge` moves
the key of an object from the one part to the other: ahead of the cursor in a scan that goes up, behind
it in one that goes down. So the rounds of the first kind reach all live objects and count them again,
and those of the second stop at the deleted ones once these fill a round.
-/

set_option autoImplicit false

namespace Db8.Db.MojDb.Deletion

open Db8.Bytes
open Db8.Core

variable {κ : Type*} [LinearOrder κ] {deletion : Deletion κ}

/-! ### Live and deleted objects -/

def selected (accepts : MojString → MojObject → Bool) (store : ObjectStore) : List MojString :=
  (store.objDb.entries.filter fun entry => accepts entry.1 entry.2).map Prod.fst

section Selected

variable {accepts : MojString → MojObject → Bool} {store after : ObjectStore}

theorem mem_selected (id : MojString) :
    id ∈ selected accepts store ↔
      ∃ obj, store.objDb.find id = some obj ∧ accepts id obj = true := by
  unfold selected
  rw [List.mem_map]
  constructor
  · rintro ⟨entry, member, rfl⟩
    rcases List.mem_filter.mp member with ⟨stored, accepted⟩
    exact ⟨entry.2, (store.objDb.find_eq_some_iff entry.1 entry.2).mpr stored, accepted⟩
  · rintro ⟨obj, stored, accepted⟩
    exact ⟨(id, obj), List.mem_filter.mpr
      ⟨(store.objDb.find_eq_some_iff id obj).mp stored, accepted⟩, rfl⟩

theorem selected_nodup : (selected accepts store).Nodup :=
  store.objDb.keys_nodup.sublist (List.filter_sublist.map Prod.fst)

theorem selected_length_le {others : List MojString}
    (inside : ∀ id ∈ selected accepts store, id ∈ others) :
    (selected accepts store).length ≤ others.length :=
  (List.subperm_of_subset selected_nodup inside).length_le

theorem selected_length {id : MojString} (member : id ∈ selected accepts store)
    (lost : id ∉ selected accepts after)
    (others : ∀ other, other ≠ id → after.objDb.find other = store.objDb.find other) :
    (selected accepts after).length + 1 = (selected accepts store).length := by
  have perm : (selected accepts after).Perm ((selected accepts store).erase id) := by
    rw [List.perm_ext_iff_of_nodup selected_nodup (selected_nodup.erase id)]
    intro other
    rw [selected_nodup.mem_erase_iff]
    by_cases same : other = id
    · rw [same]
      simp [lost]
    · rw [mem_selected, mem_selected, others other same]
      simp [same]
  rw [perm.length_eq, List.length_erase_of_mem member]
  exact Nat.sub_add_cancel (List.length_pos_of_mem member)

end Selected

def alive (deletion : Deletion κ) (store : ObjectStore) : List MojString :=
  selected (fun id obj => deletion.finds id obj && live obj) store

def dead (deletion : Deletion κ) (store : ObjectStore) : List MojString :=
  selected (fun id obj => deletion.finds id obj && !live obj) store

variable (store : ObjectStore)

theorem mem_alive (id : MojString) :
    id ∈ deletion.alive store ↔ ∃ obj, store.objDb.find id = some obj ∧
      deletion.finds id obj = true ∧ live obj = true := by
  simp only [alive, mem_selected, Bool.and_eq_true]

theorem mem_dead (id : MojString) :
    id ∈ deletion.dead store ↔ ∃ obj, store.objDb.find id = some obj ∧
      deletion.finds id obj = true ∧ live obj = false := by
  simp only [dead, mem_selected, Bool.and_eq_true, Bool.not_eq_true']

theorem filter_both {α : Type*} (accepts also : α → Bool) (entries : List α) :
    (entries.filter fun entry => accepts entry && also entry).length +
        (entries.filter fun entry => accepts entry && !also entry).length =
      (entries.filter accepts).length := by
  induction entries with
  | nil => rfl
  | cons entry rest ih =>
    cases taken : accepts entry <;> cases more : also entry <;>
      simp only [List.filter_cons, taken, more, Bool.and_true, Bool.and_false, Bool.not_true,
        Bool.not_false, Bool.false_eq_true, if_false, if_true, List.length_cons] <;> omega

theorem alive_dead (store : ObjectStore) :
    (deletion.alive store).length + (deletion.dead store).length =
      (deletion.matching store).length := by
  unfold alive dead matching selected
  rw [List.length_map, List.length_map, List.length_map]
  exact filter_both (fun entry : MojString × MojObject => deletion.finds entry.1 entry.2)
    (fun entry => live entry.2) store.objDb.entries

theorem alive_matching {store : ObjectStore} {id : MojString} (member : id ∈ deletion.alive store) :
    id ∈ deletion.matching store := by
  rcases (mem_alive store id).mp member with ⟨obj, stored, found, _⟩
  exact (deletion.mem_matching store id).mpr ⟨obj, stored, found⟩

/-! ### The order of a scan -/

/-- A scan that meets live objects first: upwards, where the index includes deleted ones. -/
def LiveFirst (deletion : Deletion κ) : Prop :=
  ∀ id obj, ∀ key ∈ deletion.index.keysOf id obj, live obj = true →
    ∀ other marked, ∀ later ∈ deletion.index.keysOf other marked, live marked = false → key < later

/-- A scan that meets deleted objects first: downwards. -/
def DeadFirst (deletion : Deletion κ) : Prop :=
  ∀ id obj, ∀ key ∈ deletion.index.keysOf id obj, live obj = true →
    ∀ other marked, ∀ earlier ∈ deletion.index.keysOf other marked, live marked = false →
      earlier < key

/-- A deletion that does not purge. A deleted object its query finds is marked with `true`, the one
value that a clause on `_del` for deleted objects lets through. -/
structure Marks (deletion : Deletion κ) : Prop where
  kept : deletion.purge = false
  view : deletion.cursor.LiveView
  marked : ∀ id obj rev, deletion.finds id obj = true → live obj = false →
    markDeleted deletion.backup rev obj = obj

/-- The query includes deleted objects: what is marked is found again. -/
structure IncludesDeleted (deletion : Deletion κ) : Prop extends Marks deletion where
  again : ∀ id obj rev, deletion.finds id obj = true →
    deletion.finds id (markDeleted deletion.backup rev obj) = true

structure Met (deletion : Deletion κ) (store : ObjectStore) (last : Option κ) (key : κ)
    (obj : MojObject) : Prop where
  stored : store.objDb.find (deletion.index.idOf key) = some obj
  member : key ∈ deletion.index.keysOf (deletion.index.idOf key) obj
  beyond : Beyond last key
  least : ∀ other ∈ deletion.indexKeys store, Beyond last other → key ≤ other

section View

variable {opened : SortedSet κ} {last : Option κ} {store : ObjectStore}

theorem get_met (view : deletion.cursor.LiveView) {key : κ} {obj : MojObject}
    (got : deletion.get opened last store = some (key, obj)) : deletion.Met store last key obj := by
  rcases get_some got with ⟨stored, inside, skipped⟩
  rcases (view _ _ _ key).mp inside with ⟨present, beyond⟩
  rcases (deletion.mem_indexKeys store key).mp present with ⟨held, heldStored, member⟩
  rw [stored, Option.some.injEq] at heldStored
  refine ⟨stored, heldStored ▸ member, beyond, ?_⟩
  intro other otherIn past
  by_contra above
  have missing := skipped other ((view _ _ _ other).mpr ⟨otherIn, past⟩) (not_le.mp above)
  rcases (deletion.mem_indexKeys store other).mp otherIn with ⟨kept, keptStored, _⟩
  rw [missing] at keptStored
  cases keptStored

theorem get_end (view : deletion.cursor.LiveView) (got : deletion.get opened last store = none)
    {key : κ} (present : key ∈ deletion.indexKeys store) : ¬ Beyond last key := by
  intro beyond
  have missing := List.findSome?_eq_none_iff.mp got key
    ((view _ _ _ key).mpr ⟨present, beyond⟩)
  rcases (deletion.mem_indexKeys store key).mp present with ⟨obj, stored, _⟩
  simp [stored] at missing

end View

namespace Met

variable {store next : ObjectStore} {last : Option κ} {key : κ} {obj : MojObject}

theorem present (met : deletion.Met store last key obj) : key ∈ deletion.indexKeys store :=
  (deletion.mem_indexKeys store key).mpr ⟨obj, met.stored, met.member⟩

theorem found (met : deletion.Met store last key obj) :
    deletion.finds (deletion.index.idOf key) obj = true :=
  (deletion.finds_iff _ obj).mpr ⟨key, met.member⟩

theorem delObj_dead (met : deletion.Met store last key obj) (marks : deletion.Marks) (gone : live obj = false)
    (success : deletion.delObj (deletion.index.idOf key) obj store = .ok next) : next = store := by
  unfold delObj at success
  rw [if_neg (by simp [marks.kept])] at success
  dsimp only at success
  rw [if_pos (marks.marked _ obj _ met.found gone)] at success
  exact (Except.ok.inj success).symm

theorem delObj_marks (met : deletion.Met store last key obj) (marks : deletion.Marks)
    (success : deletion.delObj (deletion.index.idOf key) obj store = .ok next) :
    (∃ rev, next.objDb.find (deletion.index.idOf key) =
        some (markDeleted deletion.backup rev obj)) ∧
      ∀ other, other ≠ deletion.index.idOf key →
        next.objDb.find other = store.objDb.find other := by
  rcases delObj_find met.stored success with ⟨gone, others⟩
  unfold Gone at gone
  rw [if_neg (by simp [marks.kept])] at gone
  exact ⟨gone, others⟩

theorem delObj_again (met : deletion.Met store last key obj) (includes : deletion.IncludesDeleted)
    (success : deletion.delObj (deletion.index.idOf key) obj store = .ok next) :
    ∃ marked, next.objDb.find (deletion.index.idOf key) = some marked ∧ live marked = false ∧
      ∃ place, place ∈ deletion.index.keysOf (deletion.index.idOf key) marked := by
  rcases (met.delObj_marks includes.toMarks success).1 with ⟨rev, marked⟩
  exact ⟨_, marked, live_markDeleted _ _ _,
    (deletion.finds_iff _ _).mp (includes.again _ obj rev met.found)⟩

theorem beyond_of_ne (met : deletion.Met store last key obj) {other : κ}
    (present : other ∈ deletion.indexKeys store) (beyond : Beyond last other)
    (different : other ≠ key) : Beyond (some key) other := by
  rw [beyond_some]
  exact lt_of_le_of_ne (met.least other present beyond) (Ne.symm different)

theorem beyond_trans (met : deletion.Met store last key obj) {other : κ}
    (past : Beyond (some key) other) : Beyond last other := by
  intro passed isLast
  exact lt_trans (met.beyond passed isLast) ((beyond_some key other).mp past)

end Met

/-! ### A round -/

def deadKeys (deletion : Deletion κ) (store : ObjectStore) : List κ :=
  (deletion.indexKeys store).elems.filter fun key =>
    !(store.objDb.find (deletion.index.idOf key)).any live

theorem mem_deadKeys (key : κ) :
    key ∈ deletion.deadKeys store ↔ ∃ obj,
      store.objDb.find (deletion.index.idOf key) = some obj ∧
      key ∈ deletion.index.keysOf (deletion.index.idOf key) obj ∧ live obj = false := by
  unfold deadKeys
  rw [List.mem_filter]
  constructor
  · rintro ⟨present, gone⟩
    rcases (deletion.mem_indexKeys store key).mp present with ⟨obj, stored, member⟩
    rw [stored] at gone
    exact ⟨obj, stored, member, by simpa using gone⟩
  · rintro ⟨obj, stored, member, gone⟩
    exact ⟨(deletion.mem_indexKeys store key).mpr ⟨obj, stored, member⟩, by simp [stored, gone]⟩

theorem deadKeys_nodup : (deletion.deadKeys store).Nodup :=
  (deletion.indexKeys store).nodup.filter _

def unmet (deletion : Deletion κ) (last : Option κ) (store : ObjectStore) : List MojString :=
  selected (fun id obj => (deletion.index.keysOf id obj).any fun key => decide (Beyond last key))
    store

theorem mem_unmet (last : Option κ) (store : ObjectStore) (id : MojString) :
    id ∈ deletion.unmet last store ↔ ∃ obj, store.objDb.find id = some obj ∧
      ∃ key ∈ deletion.index.keysOf id obj, Beyond last key := by
  simp only [unmet, mem_selected, List.any_eq_true, decide_eq_true_eq]

theorem unmet_none : deletion.unmet none store = deletion.matching store := by
  unfold unmet matching selected
  congr 1
  apply List.filter_congr
  intro entry _
  unfold finds
  cases keys : deletion.index.keysOf entry.1 entry.2 <;> simp [keys, Beyond]

/-- The keys of deleted objects a cursor still has to come to. -/
def deadAhead (deletion : Deletion κ) (last : Option κ) (store : ObjectStore) : List κ :=
  (deletion.deadKeys store).filter fun key => decide (Beyond last key)

theorem mem_deadAhead (last : Option κ) (store : ObjectStore) (key : κ) :
    key ∈ deletion.deadAhead last store ↔ key ∈ deletion.deadKeys store ∧ Beyond last key := by
  simp only [deadAhead, List.mem_filter, decide_eq_true_eq]

def LiveAhead (deletion : Deletion κ) (last : Option κ) (store : ObjectStore) : Prop :=
  ∀ id obj, store.objDb.find id = some obj → live obj = true →
    ∀ key ∈ deletion.index.keysOf id obj, Beyond last key

theorem liveAhead_none : deletion.LiveAhead none store := by
  intro _ _ _ _ key _
  simp [Beyond]

theorem mem_indexKeys_of_keysOf {store : ObjectStore} {id : MojString} {obj : MojObject} {key : κ}
    (stored : store.objDb.find id = some obj) (member : key ∈ deletion.index.keysOf id obj) :
    key ∈ deletion.indexKeys store := by
  rw [← deletion.index.owns id obj key member] at stored member
  exact (deletion.mem_indexKeys store key).mpr ⟨obj, stored, member⟩

section Step

variable {store next : ObjectStore} {last : Option κ} {key : κ} {obj : MojObject}

theorem Met.unmet_sub (met : deletion.Met store last key obj)
    (others : ∀ other, other ≠ deletion.index.idOf key →
      next.objDb.find other = store.objDb.find other) {id : MojString}
    (member : id ∈ deletion.unmet last store) (different : id ≠ deletion.index.idOf key) :
    id ∈ deletion.unmet (some key) next := by
  rcases (mem_unmet last store id).mp member with ⟨held, stored, place, inside, beyond⟩
  rw [mem_unmet, others id different]
  refine ⟨held, stored, place, inside, ?_⟩
  apply met.beyond_of_ne (mem_indexKeys_of_keysOf stored inside) beyond
  intro same
  exact different (same ▸ (deletion.index.owns id held place inside).symm)

theorem Met.unmet_length (met : deletion.Met store last key obj)
    (others : ∀ other, other ≠ deletion.index.idOf key →
      next.objDb.find other = store.objDb.find other) :
    (deletion.unmet last store).length ≤ (deletion.unmet (some key) next).length + 1 := by
  apply @selected_length_le _ store (deletion.index.idOf key :: deletion.unmet (some key) next)
  intro id member
  by_cases same : id = deletion.index.idOf key
  · rw [same]
    exact List.mem_cons_self
  · exact List.mem_cons_of_mem _ (met.unmet_sub others member same)

theorem Met.alive_length (met : deletion.Met store last key obj) (marks : deletion.Marks)
    (living : live obj = true)
    (success : deletion.delObj (deletion.index.idOf key) obj store = .ok next) :
    (deletion.alive next).length + 1 = (deletion.alive store).length := by
  rcases met.delObj_marks marks success with ⟨⟨rev, stored⟩, others⟩
  apply @selected_length _ _ _ (deletion.index.idOf key) _ _ others
  · exact (mem_alive store _).mpr ⟨obj, met.stored, met.found, living⟩
  · intro member
    rcases (mem_alive next _).mp member with ⟨held, heldStored, _, heldLive⟩
    rw [stored, Option.some.injEq] at heldStored
    rw [← heldStored, live_markDeleted] at heldLive
    cases heldLive

theorem Met.live_kept (met : deletion.Met store last key obj) (marks : deletion.Marks)
    (success : deletion.delObj (deletion.index.idOf key) obj store = .ok next) {id : MojString}
    {held : MojObject} (stored : next.objDb.find id = some held) (living : live held = true) :
    id ≠ deletion.index.idOf key ∧ store.objDb.find id = some held := by
  rcases met.delObj_marks marks success with ⟨⟨rev, marked⟩, others⟩
  have different : id ≠ deletion.index.idOf key := by
    intro same
    rw [same, marked, Option.some.injEq] at stored
    rw [← stored, live_markDeleted] at living
    cases living
  exact ⟨different, others id different ▸ stored⟩

theorem Met.liveAhead (met : deletion.Met store last key obj) (marks : deletion.Marks)
    (ahead : deletion.LiveAhead last store)
    (success : deletion.delObj (deletion.index.idOf key) obj store = .ok next) :
    deletion.LiveAhead (some key) next := by
  intro id held stored living place inside
  rcases met.live_kept marks success stored living with ⟨different, before⟩
  apply met.beyond_of_ne (mem_indexKeys_of_keysOf before inside) (ahead id held before living _ inside)
  intro same
  exact different (same ▸ (deletion.index.owns id held place inside).symm)

theorem alive_eq_nil_of (none : ∀ id held, store.objDb.find id = some held → live held = true →
    ∀ place, place ∉ deletion.index.keysOf id held) : deletion.alive store = [] := by
  apply List.eq_nil_iff_forall_not_mem.mpr
  intro id member
  rcases (mem_alive store id).mp member with ⟨held, stored, found, living⟩
  rcases (deletion.finds_iff id held).mp found with ⟨place, inside⟩
  exact none id held stored living place inside

theorem alive_of_end (view : deletion.cursor.LiveView) {opened : SortedSet κ}
    (ahead : deletion.LiveAhead last store) (got : deletion.get opened last store = none) :
    deletion.alive store = [] := by
  apply alive_eq_nil_of
  intro id held stored living place inside
  exact get_end view got (mem_indexKeys_of_keysOf stored inside)
    (ahead id held stored living place inside)

end Step

section Sweeps

variable {opened : SortedSet κ} {last : Option κ} {store after : ObjectStore} {count : Nat}

theorem sweepFrom_counts (includes : deletion.IncludesDeleted) (room : Nat)
    (success : deletion.sweepFrom opened room last store = (after, .ok count)) :
    min room (deletion.unmet last store).length ≤ count ∧ count ≤ room := by
  refine ⟨?_, sweepFrom_le room success⟩
  induction room generalizing last store count with
  | zero => simp
  | succ room ih =>
    rcases sweepFrom_succ success with ⟨got, rfl, rfl⟩ |
      ⟨key, obj, next, rest, got, deleting, later, rfl⟩
    · have none : deletion.unmet last after = [] := by
        apply List.eq_nil_iff_forall_not_mem.mpr
        intro id member
        rcases (mem_unmet last after id).mp member with ⟨held, stored, place, inside, beyond⟩
        exact get_end includes.view got (mem_indexKeys_of_keysOf stored inside) beyond
      simp [none]
    · have met := get_met includes.view got
      have shorter := met.unmet_length ((met.delObj_marks includes.toMarks deleting).2)
      have counted := ih later
      omega

/-- A scan that meets live objects first deletes as many of them as it has room for, and goes on over
the deleted ones, those it has just deleted among them. -/
theorem sweepFrom_live_first (includes : deletion.IncludesDeleted) (order : deletion.LiveFirst)
    (room : Nat) (ahead : deletion.LiveAhead last store)
    (success : deletion.sweepFrom opened room last store = (after, .ok count)) :
    (deletion.alive after).length = (deletion.alive store).length - room ∧
      min room ((deletion.alive store).length + (deletion.unmet last store).length) ≤ count := by
  induction room generalizing last store count with
  | zero =>
    cases success
    simp
  | succ room ih =>
    rcases sweepFrom_succ success with ⟨got, rfl, rfl⟩ |
      ⟨key, obj, next, rest, got, deleting, later, rfl⟩
    · have counted := (sweepFrom_counts includes (room + 1) success).1
      rw [alive_of_end includes.view ahead got]
      simp only [List.length_nil, Nat.zero_sub, Nat.zero_add, true_and]
      exact counted
    · have met := get_met includes.view got
      have others := (met.delObj_marks includes.toMarks deleting).2
      cases living : live obj with
      | true =>
        have fewer := met.alive_length includes.toMarks living deleting
        have kept : (deletion.unmet last store).length ≤
            (deletion.unmet (some key) next).length := by
          apply selected_length_le
          intro id member
          by_cases same : id = deletion.index.idOf key
          · rcases met.delObj_again includes deleting with ⟨marked, stored, gone, place, inside⟩
            rw [same, mem_unmet]
            refine ⟨marked, stored, place, inside, ?_⟩
            rw [beyond_some]
            exact order _ obj key met.member living _ marked place inside gone
          · exact met.unmet_sub others member same
        rcases ih (met.liveAhead includes.toMarks ahead deleting) later with ⟨left, counted⟩
        constructor
        · omega
        · omega
      | false =>
        have same := met.delObj_dead includes.toMarks living deleting
        rw [same] at later others
        have none : ∀ id held, store.objDb.find id = some held → live held = true →
            ∀ place, place ∉ deletion.index.keysOf id held := by
          intro id held stored lives place inside
          have above := met.least place (mem_indexKeys_of_keysOf stored inside)
            (ahead id held stored lives place inside)
          exact absurd (order id held place inside lives _ obj key met.member living)
            (not_lt.mpr above)
        have still : deletion.LiveAhead (some key) store :=
          fun id held stored lives place inside =>
            absurd inside (none id held stored lives place)
        have shorter := met.unmet_length others
        rcases ih still later with ⟨left, counted⟩
        rw [alive_eq_nil_of none] at left counted ⊢
        rw [left]
        simp only [List.length_nil, Nat.zero_sub, Nat.zero_add, true_and] at counted ⊢
        omega

theorem deadAhead_nodup (last : Option κ) (store : ObjectStore) :
    (deletion.deadAhead last store).Nodup := (deadKeys_nodup store).filter _

/-- A live object that is met adds a key to those of deleted objects. -/
theorem Met.deadKeys_grown (includes : deletion.IncludesDeleted) {next : ObjectStore} {key : κ}
    {obj : MojObject} (met : deletion.Met store last key obj) (living : live obj = true)
    (success : deletion.delObj (deletion.index.idOf key) obj store = .ok next) :
    (deletion.deadKeys store).length + 1 ≤ (deletion.deadKeys next).length := by
  have others := (met.delObj_marks includes.toMarks success).2
  rcases met.delObj_again includes success with ⟨marked, stored, gone, place, inside⟩
  have owner := deletion.index.owns _ marked place inside
  have unowned : ∀ other ∈ deletion.deadKeys store,
      deletion.index.idOf other ≠ deletion.index.idOf key := by
    intro other old same
    rcases (mem_deadKeys store other).mp old with ⟨held, heldStored, _, dead⟩
    rw [same, met.stored, Option.some.injEq] at heldStored
    rw [← heldStored, living] at dead
    cases dead
  have fresh : place ∉ deletion.deadKeys store := fun old => unowned place old owner
  apply (List.subperm_of_subset (List.nodup_cons.mpr ⟨fresh, deadKeys_nodup store⟩) _).length_le
  intro other member
  rw [mem_deadKeys]
  rcases List.mem_cons.mp member with rfl | old
  · rw [owner]
    exact ⟨marked, stored, inside, gone⟩
  · rcases (mem_deadKeys store other).mp old with ⟨held, heldStored, owned, dead⟩
    exact ⟨held, others _ (unowned other old) ▸ heldStored, owned, dead⟩

theorem Met.deadAhead_length {key : κ} {obj : MojObject} (met : deletion.Met store last key obj)
    (gone : live obj = false) :
    (deletion.deadAhead (some key) store).length + 1 = (deletion.deadAhead last store).length := by
  have own : key ∈ deletion.deadAhead last store :=
    (mem_deadAhead last store key).mpr
      ⟨(mem_deadKeys store key).mpr ⟨obj, met.stored, met.member, gone⟩, met.beyond⟩
  have perm : (deletion.deadAhead (some key) store).Perm
      ((deletion.deadAhead last store).erase key) := by
    rw [List.perm_ext_iff_of_nodup (deadAhead_nodup _ store) ((deadAhead_nodup last store).erase key)]
    intro place
    rw [(deadAhead_nodup last store).mem_erase_iff, mem_deadAhead, mem_deadAhead]
    constructor
    · rintro ⟨inside, beyond⟩
      exact ⟨ne_of_gt ((beyond_some key place).mp beyond), inside, met.beyond_trans beyond⟩
    · rintro ⟨different, inside, beyond⟩
      rcases (mem_deadKeys store place).mp inside with ⟨held, stored, owned, _⟩
      exact ⟨inside, met.beyond_of_ne (mem_indexKeys_of_keysOf stored owned) beyond different⟩
  rw [perm.length_eq, List.length_erase_of_mem own]
  exact Nat.sub_add_cancel (List.length_pos_of_mem own)

/-- A scan that meets deleted objects first has room for live ones only behind them, and counts none
twice. -/
theorem sweepFrom_dead_first (includes : deletion.IncludesDeleted) (order : deletion.DeadFirst)
    (room : Nat) (ahead : deletion.LiveAhead last store)
    (success : deletion.sweepFrom opened room last store = (after, .ok count)) :
    (deletion.alive after).length =
        (deletion.alive store).length - (room - (deletion.deadAhead last store).length) ∧
      count ≤ (deletion.deadAhead last store).length + (deletion.alive store).length ∧
      (deletion.deadKeys store).length +
          ((deletion.alive store).length - (deletion.alive after).length) ≤
        (deletion.deadKeys after).length := by
  induction room generalizing last store count with
  | zero =>
    cases success
    simp
  | succ room ih =>
    rcases sweepFrom_succ success with ⟨got, rfl, rfl⟩ |
      ⟨key, obj, next, rest, got, deleting, later, rfl⟩
    · simp [alive_of_end includes.view ahead got]
    · have met := get_met includes.view got
      have others := (met.delObj_marks includes.toMarks deleting).2
      have onward := met.liveAhead includes.toMarks ahead deleting
      cases living : live obj with
      | true =>
        have fewer := met.alive_length includes.toMarks living deleting
        have passed : deletion.deadAhead last store = [] := by
          apply List.eq_nil_iff_forall_not_mem.mpr
          intro place member
          rcases (mem_deadAhead last store place).mp member with ⟨inside, beyond⟩
          rcases (mem_deadKeys store place).mp inside with ⟨held, stored, owned, gone⟩
          exact absurd (order _ obj key met.member living _ held place owned gone)
            (not_lt.mpr (met.least place (mem_indexKeys_of_keysOf stored owned) beyond))
        have stillPassed : deletion.deadAhead (some key) next = [] := by
          apply List.eq_nil_iff_forall_not_mem.mpr
          intro place member
          rcases (mem_deadAhead _ next place).mp member with ⟨inside, beyond⟩
          rcases (mem_deadKeys next place).mp inside with ⟨held, _, owned, gone⟩
          exact absurd (order _ obj key met.member living _ held place owned gone)
            (not_lt.mpr (le_of_lt ((beyond_some key place).mp beyond)))
        have grown := met.deadKeys_grown includes living deleting
        rcases ih onward later with ⟨left, counted, growing⟩
        rw [stillPassed] at left counted
        rw [passed]
        simp only [List.length_nil, Nat.sub_zero, Nat.zero_add] at left counted ⊢
        omega
      | false =>
        have same := met.delObj_dead includes.toMarks living deleting
        rw [same] at later onward
        have fewer := met.deadAhead_length living
        rcases ih onward later with ⟨left, counted, growing⟩
        omega

end Sweeps

def FindsAgain (deletion : Deletion κ) : Prop :=
  deletion.purge = false ∧ ∀ id obj rev, deletion.finds id obj = true →
    deletion.finds id (markDeleted deletion.backup rev obj) = true

theorem IncludesDeleted.findsAgain (includes : deletion.IncludesDeleted) : deletion.FindsAgain :=
  ⟨includes.kept, includes.again⟩

theorem sweepFrom_again (again : deletion.FindsAgain) (opened : SortedSet κ) (room : Nat)
    {last : Option κ} {store after : ObjectStore} {count : Nat}
    (success : deletion.sweepFrom opened room last store = (after, .ok count)) {id : MojString}
    (member : id ∈ deletion.matching store) : id ∈ deletion.matching after := by
  induction room generalizing last store count with
  | zero =>
    cases success
    exact member
  | succ room ih =>
    rcases sweepFrom_succ success with ⟨_, rfl, rfl⟩ |
      ⟨key, obj, next, rest, got, deleting, later, rfl⟩
    · exact member
    · apply ih later
      have stored := get_stored got
      rcases delObj_find stored deleting with ⟨gone, others⟩
      rw [deletion.mem_matching] at member ⊢
      by_cases same : id = deletion.index.idOf key
      · rcases member with ⟨old, oldStored, found⟩
        unfold Gone at gone
        rw [if_neg (by simp [again.1])] at gone
        rcases gone with ⟨rev, marked⟩
        rw [same, stored, Option.some.injEq] at oldStored
        rw [same, ← oldStored] at found
        rw [same]
        exact ⟨_, marked, again.2 _ obj rev found⟩
      · rwa [others id same]

section Rounds

variable {limit : Nat} {before after : ObjectStore} {swept : Swept}

theorem sweep_matching (again : deletion.FindsAgain)
    (success : deletion.sweep limit before = (after, .ok swept)) :
    (deletion.matching after).length = (deletion.matching before).length := by
  have ran := (sweep_ok success).2
  apply List.Perm.length_eq
  rw [List.perm_ext_iff_of_nodup (deletion.matching_nodup after) (deletion.matching_nodup before)]
  intro id
  exact ⟨(sweep_deleted success).matching_sub, sweepFrom_again again _ _ ran⟩

theorem sweep_live_first (includes : deletion.IncludesDeleted) (order : deletion.LiveFirst)
    (success : deletion.sweep limit before = (after, .ok swept)) :
    swept.numberInBatch = swept.count ∧
      (deletion.alive after).length = (deletion.alive before).length - limit ∧
      min limit ((deletion.alive before).length + (deletion.matching before).length) ≤
        swept.count ∧ swept.count ≤ limit := by
  rcases sweep_ok success with ⟨batch, ran⟩
  rcases sweepFrom_live_first includes order limit (liveAhead_none before) ran with ⟨left, counted⟩
  rw [unmet_none] at counted
  exact ⟨batch, left, counted, (sweepFrom_counts includes limit ran).2⟩

theorem sweep_dead_first (includes : deletion.IncludesDeleted) (order : deletion.DeadFirst)
    (success : deletion.sweep limit before = (after, .ok swept)) :
    (deletion.alive after).length =
        (deletion.alive before).length - (limit - (deletion.deadKeys before).length) ∧
      swept.count ≤ (deletion.deadKeys before).length + (deletion.alive before).length ∧
      (deletion.deadKeys before).length +
          ((deletion.alive before).length - (deletion.alive after).length) ≤
        (deletion.deadKeys after).length ∧
      min limit (deletion.matching before).length ≤ swept.count ∧ swept.count ≤ limit := by
  have ran := (sweep_ok success).2
  have all : deletion.deadAhead none before = deletion.deadKeys before := by
    simp [deadAhead, Beyond]
  rcases sweepFrom_dead_first includes order limit (liveAhead_none before) ran with
    ⟨left, counted, growing⟩
  rw [all] at left counted
  rcases sweepFrom_counts includes limit ran with ⟨least, most⟩
  rw [unmet_none] at least
  exact ⟨left, counted, growing, least, most⟩

end Rounds

/-! ### All rounds -/

theorem nextLimit_pos {queryLimit : Nat} (going : queryLimit ≠ 0) : 0 < nextLimit queryLimit := by
  unfold nextLimit autoBatchSize
  split_ifs <;> omega

theorem nextLimit_le (queryLimit : Nat) :
    nextLimit queryLimit ≤ queryLimit ∧ nextLimit queryLimit ≤ 1000 ∧
      (1000 ≤ queryLimit → nextLimit queryLimit = 1000) := by
  unfold nextLimit autoBatchSize
  split_ifs <;> omega

section Runs

variable {limit queryLimit : Nat} {before after : ObjectStore} {swept : List (Swept × ObjectStore)}

theorem ran_out (ended : queryLimit = 0)
    (ran : Ran deletion.sweep limit queryLimit before swept after) : swept = [] := by
  cases ran with
  | out => rfl
  | last going _ _ => exact absurd ended going
  | more going _ _ _ => exact absurd ended going

/-- Rounds that meet live objects first delete as many of them as the limit lets through. -/
theorem ran_live_first (includes : deletion.IncludesDeleted) (order : deletion.LiveFirst)
    (aligned : limit = nextLimit queryLimit)
    (ran : Ran deletion.sweep limit queryLimit before swept after) :
    (deletion.alive after).length = (deletion.alive before).length - queryLimit := by
  induction ran with
  | out limit txn => rfl
  | @last limit queryLimit txn after swept going round none =>
    rcases sweep_live_first includes order round with ⟨_, left, counted, _⟩
    have positive := nextLimit_pos going
    omega
  | @more limit queryLimit txn next final swept later going round _ _ ih =>
    have left := (sweep_live_first includes order round).2.1
    have rest := ih rfl
    have bounds := nextLimit_le queryLimit
    omega

/-- The same of the last round that is full: where there are a thousand matches, all are full but one
that has less room. -/
theorem ran_live_first_full (includes : deletion.IncludesDeleted) (order : deletion.LiveFirst)
    (aligned : limit = nextLimit queryLimit) (many : 1000 ≤ (deletion.matching before).length)
    (ran : Ran deletion.sweep limit queryLimit before swept after) :
    (deletion.alive ((full swept).getLastD before)).length =
      (deletion.alive before).length - queryLimit / 1000 * 1000 := by
  induction ran with
  | out limit txn => simp [full]
  | @last limit queryLimit txn after swept going round none =>
    rcases sweep_live_first includes order round with ⟨_, _, counted, _⟩
    have positive := nextLimit_pos going
    omega
  | @more limit queryLimit txn next final swept later going round _ onward ih =>
    rcases sweep_live_first includes order round with ⟨batch, left, counted, most⟩
    have bounds := nextLimit_le queryLimit
    by_cases whole : 1000 ≤ queryLimit
    · have cons : full ((swept, next) :: later) = next :: full later := by
        simp only [full, List.filter_cons, autoBatchSize, batch]
        rw [if_pos (by rw [decide_eq_true_eq]; omega)]
        rfl
      have rest := ih rfl (by rw [sweep_matching includes.findsAgain round]; exact many)
      rw [cons, List.getLastD_cons, rest, left, aligned, bounds.2.2 whole]
      omega
    · have skip : full ((swept, next) :: later) = full later := by
        simp only [full, List.filter_cons, autoBatchSize, batch]
        rw [if_neg (by rw [decide_eq_true_eq]; omega)]
      have ended : queryLimit - limit = 0 := by
        rw [aligned]
        unfold nextLimit autoBatchSize
        rw [if_neg (by omega)]
        exact Nat.sub_self _
      rw [skip, ran_out ended onward, Nat.div_eq_of_lt (not_le.mp whole)]
      simp [full]

theorem ran_live_first_each (includes : deletion.IncludesDeleted) (order : deletion.LiveFirst)
    (ran : Ran deletion.sweep limit queryLimit before swept after) :
    ∀ round ∈ swept,
      (deletion.alive round.2).length ≤ (deletion.alive before).length - limit := by
  induction ran with
  | out limit txn => simp
  | last _ round _ => simp [(sweep_live_first includes order round).2.1]
  | more _ round _ _ ih =>
    have left := (sweep_live_first includes order round).2.1
    intro other member
    rcases List.mem_cons.mp member with rfl | member
    · exact le_of_eq left
    · have rest := ih other member
      omega

theorem ran_dead_first_over (includes : deletion.IncludesDeleted) (order : deletion.DeadFirst)
    (none : (deletion.alive before).length = 0)
    (ran : Ran deletion.sweep limit queryLimit before swept after) :
    (deletion.alive after).length = 0 ∧
      ∀ round ∈ swept, (deletion.alive round.2).length = 0 := by
  induction ran with
  | out limit txn => exact ⟨none, by simp⟩
  | last _ round _ =>
    have left := (sweep_dead_first includes order round).1
    rw [none, Nat.zero_sub] at left
    exact ⟨left, by simpa using left⟩
  | more _ round _ _ ih =>
    have left := (sweep_dead_first includes order round).1
    rw [none, Nat.zero_sub] at left
    rcases ih left with ⟨final, each⟩
    refine ⟨final, ?_⟩
    intro other member
    rcases List.mem_cons.mp member with rfl | member
    · exact left
    · exact each other member

/-- Rounds that meet deleted objects first delete the live ones in the first, if it has room for all. -/
theorem ran_dead_first (includes : deletion.IncludesDeleted) (order : deletion.DeadFirst)
    (going : queryLimit ≠ 0)
    (room : (deletion.deadKeys before).length + (deletion.alive before).length ≤ limit)
    (ran : Ran deletion.sweep limit queryLimit before swept after) :
    (deletion.alive after).length = 0 ∧
      ∀ round ∈ swept, (deletion.alive round.2).length = 0 := by
  cases ran with
  | out => exact absurd rfl going
  | last _ round _ =>
    have left := (sweep_dead_first includes order round).1
    have none : (deletion.alive after).length = 0 := by omega
    exact ⟨none, by simpa using none⟩
  | @more _ _ _ next _ _ later _ round _ onward =>
    have left := (sweep_dead_first includes order round).1
    have none : (deletion.alive next).length = 0 := by omega
    rcases ran_dead_first_over includes order none onward with ⟨final, each⟩
    refine ⟨final, ?_⟩
    intro other member
    rcases List.mem_cons.mp member with rfl | member
    · exact none
    · exact each other member

/-- If it has not, the deleted objects fill every later round before it comes to a live one. -/
theorem ran_dead_first_stuck (includes : deletion.IncludesDeleted) (order : deletion.DeadFirst)
    (aligned : limit = nextLimit queryLimit) (some : 0 < (deletion.alive before).length)
    (many : 1000 < (deletion.deadKeys before).length + (deletion.alive before).length)
    (ran : Ran deletion.sweep limit queryLimit before swept after) :
    0 < (deletion.alive after).length ∧
      ∀ round ∈ swept, 0 < (deletion.alive round.2).length := by
  induction ran with
  | out limit txn => exact ⟨some, by simp⟩
  | @last limit queryLimit txn after swept going round none =>
    have left := (sweep_dead_first includes order round).1
    have bounds := nextLimit_le queryLimit
    have kept : 0 < (deletion.alive after).length := by omega
    exact ⟨kept, by simpa using kept⟩
  | @more limit queryLimit txn next final swept later going round _ _ ih =>
    rcases sweep_dead_first includes order round with ⟨left, _, growing, _⟩
    have bounds := nextLimit_le queryLimit
    have kept : 0 < (deletion.alive next).length := by omega
    rcases ih rfl kept (by omega) with ⟨last, each⟩
    refine ⟨last, ?_⟩
    intro other member
    rcases List.mem_cons.mp member with rfl | member
    · exact kept
    · exact each other member

end Runs


/-! ### Rounds that are never full -/

def keysAhead (deletion : Deletion κ) (last : Option κ) (store : ObjectStore) : List κ :=
  (deletion.indexKeys store).elems.filter fun key => decide (Beyond last key)

theorem mem_keysAhead (last : Option κ) (store : ObjectStore) (key : κ) :
    key ∈ deletion.keysAhead last store ↔ key ∈ deletion.indexKeys store ∧ Beyond last key := by
  unfold keysAhead
  rw [List.mem_filter, decide_eq_true_eq]
  rfl

theorem keysAhead_nodup (last : Option κ) (store : ObjectStore) :
    (deletion.keysAhead last store).Nodup := (deletion.indexKeys store).nodup.filter _

def Wide (deletion : Deletion κ) (width : Nat) : Prop :=
  ∀ id obj, (deletion.index.keysOf id obj).length ≤ width

variable {width : Nat}

theorem Wide.indexKeys (wide : deletion.Wide width) (store : ObjectStore) :
    (deletion.indexKeys store).elems.length ≤ width * (deletion.matching store).length := by
  have short : ∀ entries : List (MojString × MojObject),
      ((entries.filter fun entry => deletion.finds entry.1 entry.2).flatMap
          fun entry => deletion.index.keysOf entry.1 entry.2).length ≤
        width * (entries.filter fun entry => deletion.finds entry.1 entry.2).length := by
    intro entries
    induction entries.filter fun entry => deletion.finds entry.1 entry.2 with
    | nil => simp
    | cons entry rest ih =>
      rw [List.flatMap_cons, List.length_append, List.length_cons, Nat.mul_succ]
      have one := wide entry.1 entry.2
      omega
  unfold matching
  rw [List.length_map]
  apply le_trans _ (short store.objDb.entries)
  apply (List.subperm_of_subset (deletion.indexKeys store).nodup _).length_le
  intro key present
  rcases (deletion.mem_indexKeys store key).mp present with ⟨obj, stored, member⟩
  rw [List.mem_flatMap]
  exact ⟨_, List.mem_filter.mpr ⟨(store.objDb.find_eq_some_iff _ obj).mp stored,
    (deletion.finds_iff _ obj).mpr ⟨key, member⟩⟩, member⟩

/-- A step uses up one of the keys ahead; a marked object can bring as many as an object has. -/
theorem Met.keysAhead_length (wide : deletion.Wide width) {store next : ObjectStore}
    {last : Option κ} {key : κ} {obj : MojObject} (met : deletion.Met store last key obj)
    (marks : deletion.Marks)
    (success : deletion.delObj (deletion.index.idOf key) obj store = .ok next) :
    (deletion.keysAhead (some key) next).length + 1 + width * (deletion.alive next).length ≤
      (deletion.keysAhead last store).length + width * (deletion.alive store).length := by
  have own : key ∈ deletion.keysAhead last store :=
    (mem_keysAhead last store key).mpr ⟨met.present, met.beyond⟩
  have positive := List.length_pos_of_mem own
  have erased := List.length_erase_of_mem own
  have old : ∀ place ∈ deletion.indexKeys store, Beyond (some key) place →
      place ∈ (deletion.keysAhead last store).erase key := by
    intro place present beyond
    rw [(keysAhead_nodup last store).mem_erase_iff, mem_keysAhead]
    exact ⟨ne_of_gt ((beyond_some key place).mp beyond), present, met.beyond_trans beyond⟩
  cases living : live obj with
  | false =>
    rw [met.delObj_dead marks living success]
    have shorter : (deletion.keysAhead (some key) store).length ≤
        ((deletion.keysAhead last store).erase key).length := by
      apply (List.subperm_of_subset (keysAhead_nodup _ store) _).length_le
      intro place member
      rcases (mem_keysAhead _ store place).mp member with ⟨present, beyond⟩
      exact old place present beyond
    omega
  | true =>
    have fewer := met.alive_length marks living success
    rcases met.delObj_marks marks success with ⟨⟨rev, marked⟩, others⟩
    have most := wide (deletion.index.idOf key) (markDeleted deletion.backup rev obj)
    have shorter : (deletion.keysAhead (some key) next).length ≤
        ((deletion.keysAhead last store).erase key ++
          deletion.index.keysOf (deletion.index.idOf key)
            (markDeleted deletion.backup rev obj)).length := by
      apply (List.subperm_of_subset (keysAhead_nodup _ next) _).length_le
      intro place member
      rcases (mem_keysAhead _ next place).mp member with ⟨present, beyond⟩
      rcases (deletion.mem_indexKeys next place).mp present with ⟨held, stored, owned⟩
      rw [List.mem_append]
      by_cases same : deletion.index.idOf place = deletion.index.idOf key
      · rw [same, marked, Option.some.injEq] at stored
        exact Or.inr (by rw [stored, ← same]; exact owned)
      · rw [others _ same] at stored
        exact Or.inl (old place
          ((deletion.mem_indexKeys store place).mpr ⟨held, stored, owned⟩) beyond)
    rw [List.length_append] at shorter
    rw [← fewer, Nat.mul_succ]
    omega

/-- A round counts no more keys than there are and can come, and one that ends before its limit leaves
no live object. -/
theorem sweepFrom_few (marks : deletion.Marks) (wide : deletion.Wide width) {opened : SortedSet κ}
    (room : Nat) {last : Option κ} {store after : ObjectStore} {count : Nat}
    (ahead : deletion.LiveAhead last store)
    (success : deletion.sweepFrom opened room last store = (after, .ok count)) :
    count ≤ (deletion.keysAhead last store).length + width * (deletion.alive store).length ∧
      (count < room → (deletion.alive after).length = 0) ∧
      (deletion.alive after).length ≤ (deletion.alive store).length := by
  induction room generalizing last store count with
  | zero =>
    cases success
    simp
  | succ room ih =>
    rcases sweepFrom_succ success with ⟨got, rfl, rfl⟩ |
      ⟨key, obj, next, rest, got, deleting, later, rfl⟩
    · simp [alive_of_end marks.view ahead got]
    · have met := get_met marks.view got
      have used := met.keysAhead_length wide marks deleting
      have fewer : (deletion.alive next).length ≤ (deletion.alive store).length := by
        cases living : live obj with
        | true => exact Nat.le_of_succ_le (le_of_eq (met.alive_length marks living deleting))
        | false => rw [met.delObj_dead marks living deleting]
      rcases ih (met.liveAhead marks ahead deleting) later with ⟨counted, ended, less⟩
      refine ⟨by omega, fun short => ended (Nat.lt_of_succ_lt_succ short), le_trans less fewer⟩

theorem sweep_few (marks : deletion.Marks) (wide : deletion.Wide width) {limit : Nat}
    {before after : ObjectStore} {swept : Swept}
    (few : 2 * width * (deletion.matching before).length < 1000)
    (success : deletion.sweep limit before = (after, .ok swept)) :
    ¬ autoBatchSize ≤ swept.numberInBatch ∧
      (1000 ≤ limit → (deletion.alive after).length = 0) ∧
      (deletion.alive after).length ≤ (deletion.alive before).length ∧
      2 * width * (deletion.matching after).length < 1000 := by
  rcases sweep_ok success with ⟨batch, ran⟩
  rcases sweepFrom_few marks wide limit (liveAhead_none before) ran with ⟨counted, ended, less⟩
  have all : deletion.keysAhead none before = (deletion.indexKeys before).elems := by
    simp [keysAhead, Beyond]
  have keys := wide.indexKeys before
  have living : width * (deletion.alive before).length ≤
      width * (deletion.matching before).length := by
    apply Nat.mul_le_mul_left
    have both := @alive_dead κ _ deletion before
    omega
  have shrunk : (deletion.matching after).length ≤ (deletion.matching before).length :=
    (List.subperm_of_subset (deletion.matching_nodup after)
      fun _ member => (sweep_deleted success).matching_sub member).length_le
  have kept := Nat.mul_le_mul_left (2 * width) shrunk
  rw [all] at counted
  rw [Nat.mul_assoc] at few
  have small : swept.count < 1000 := by omega
  refine ⟨?_, fun room => ended (lt_of_lt_of_le small room), less, ?_⟩
  · rw [batch]
    exact not_le.mpr small
  · simp only [Nat.mul_assoc] at kept ⊢
    omega

theorem ran_few (marks : deletion.Marks) (wide : deletion.Wide width) {limit queryLimit : Nat}
    {before after : ObjectStore} {swept : List (Swept × ObjectStore)}
    (few : 2 * width * (deletion.matching before).length < 1000)
    (ran : Ran deletion.sweep limit queryLimit before swept after) :
    full swept = [] ∧ (deletion.alive after).length ≤ (deletion.alive before).length ∧
      (queryLimit ≠ 0 → 1000 ≤ limit → (deletion.alive after).length = 0) := by
  induction ran with
  | out limit txn => exact ⟨rfl, le_refl _, fun going => absurd rfl going⟩
  | last _ round _ =>
    rcases sweep_few marks wide few round with ⟨part, spent, less, _⟩
    exact ⟨by simp [full, part], less, fun _ => spent⟩
  | more _ round _ _ ih =>
    rcases sweep_few marks wide few round with ⟨part, spent, less, still⟩
    rcases ih still with ⟨none, fewer, _⟩
    refine ⟨?_, le_trans fewer less, fun _ room => ?_⟩
    · unfold full at none ⊢
      rw [List.filter_cons_of_neg (by simpa using part), none]
    · have ended := spent room
      omega

end Db8.Db.MojDb.Deletion
