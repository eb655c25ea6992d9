import Db8.Db.MergeQuery
import Mathlib.Data.Prod.Lex

/-!
# Each match is merged once

The loop of a merge by query is compared with the merges into the matches one after the other. They
go together as long as the merged objects stay behind the cursor.
-/

set_option autoImplicit false

namespace Db8.Db.MojDb.Merging

open Db8.Bytes
open Db8.Core
open Deletion (Beyond beyond_some)

variable {κ : Type} [LinearOrder κ] {merging : Merging κ}

def Taken (merging : Merging κ) (objDb : SortedMap MojString MojObject) (kept : Option MojObject)
    (key : κ) (obj : MojObject) : Prop :=
  objDb.find (merging.idOf key) = some obj ∧ merging.accept kept obj = .ok true

section Next

variable {store : KeyedStore κ} {kept : Option MojObject}

theorem next_split {keys : List κ} {key : κ} {obj : MojObject}
    (got : merging.next store kept keys = .ok (some (key, obj))) :
    merging.Taken store.objDb kept key obj ∧
      ∃ skipped rest, keys = skipped ++ key :: rest ∧
        ∀ other ∈ skipped, ∀ item, ¬ merging.Taken store.objDb kept other item := by
  induction keys with
  | nil => cases got
  | cons head tail ih =>
    have onward : merging.next store kept tail = .ok (some (key, obj)) →
        (∀ item, ¬ merging.Taken store.objDb kept head item) →
          merging.Taken store.objDb kept key obj ∧
            ∃ skipped rest, head :: tail = skipped ++ key :: rest ∧
              ∀ other ∈ skipped, ∀ item, ¬ merging.Taken store.objDb kept other item := by
      intro later passed
      rcases ih later with ⟨taken, skipped, rest, split, none⟩
      apply And.intro taken
      apply Exists.intro (head :: skipped)
      apply Exists.intro rest
      apply And.intro (congrArg (head :: ·) split)
      intro other member
      rcases List.mem_cons.mp member with same | inside
      · rw [same]
        exact passed
      · exact none other inside
    rw [next] at got
    cases stored : store.objDb.find (merging.idOf head) with
    | none =>
      rw [stored] at got
      apply onward got
      intro item taken
      rw [taken.1] at stored
      cases stored
    | some item =>
      rw [stored] at got
      simp only at got
      cases accepted : merging.accept kept item with
      | error err =>
        rw [accepted] at got
        cases got
      | ok passes =>
        rw [accepted] at got
        cases passes with
        | true =>
          cases got
          exact ⟨⟨stored, accepted⟩, [], tail, rfl, fun _ member => by cases member⟩
        | false =>
          apply onward got
          intro other taken
          rw [taken.1, Option.some.injEq] at stored
          rw [← stored, taken.2] at accepted
          cases accepted

theorem next_none {keys : List κ} (got : merging.next store kept keys = .ok none) :
    ∀ key ∈ keys, ∀ obj, ¬ merging.Taken store.objDb kept key obj := by
  induction keys with
  | nil => exact fun _ member => by cases member
  | cons head tail ih =>
    rw [next] at got
    intro key member obj taken
    rcases List.mem_cons.mp member with same | inside
    · rw [same] at taken
      rw [taken.1] at got
      simp only [taken.2] at got
      cases got
    · cases stored : store.objDb.find (merging.idOf head) with
      | none =>
        rw [stored] at got
        exact ih got key inside obj taken
      | some item =>
        rw [stored] at got
        simp only at got
        cases accepted : merging.accept kept item with
        | error err =>
          rw [accepted] at got
          cases got
        | ok passes =>
          rw [accepted] at got
          cases passes with
          | true => cases got
          | false => exact ih got key inside obj taken

theorem mem_ahead {last : Option κ} {key : κ} :
    key ∈ ahead store last ↔ key ∈ store.index ∧ Beyond last key := by
  unfold ahead
  rw [List.mem_filter, decide_eq_true_iff]
  rfl

theorem next_first {last : Option κ} {key : κ} {obj : MojObject}
    (got : merging.next store kept (ahead store last) = .ok (some (key, obj))) :
    merging.Taken store.objDb kept key obj ∧ key ∈ store.index ∧ Beyond last key ∧
      ∀ other ∈ ahead store last, other < key → ∀ item,
        ¬ merging.Taken store.objDb kept other item := by
  rcases next_split got with ⟨taken, skipped, rest, split, none⟩
  have sorted : (ahead store last).Pairwise (· < ·) := store.index.sorted.sublist List.filter_sublist
  have member : key ∈ ahead store last := by
    rw [split]
    exact List.mem_append_right skipped List.mem_cons_self
  rcases mem_ahead.mp member with ⟨inside, beyond⟩
  refine ⟨taken, inside, beyond, ?_⟩
  intro other present below
  rw [split] at present sorted
  rcases List.mem_append.mp present with early | late
  · exact none other early
  · have tail := (List.pairwise_append.mp sorted).2.1
    rcases List.mem_cons.mp late with same | later
    · exact absurd below (same ▸ lt_irrefl key)
    · exact absurd below (lt_asymm (List.rel_of_pairwise_cons tail later))

end Next

section Matches

variable {objDb : SortedMap MojString MojObject}

theorem matchesFrom_zero (kept : Option MojObject) (seen : List MojString) (keys : List κ) :
    merging.matchesFrom objDb 0 kept seen keys = [] := by
  cases keys <;> rfl

theorem matchesFrom_cons {room : Nat} {kept : Option MojObject} {seen : List MojString}
    {keys : List κ} {hit : Match κ} {rest : List (Match κ)}
    (found : merging.matchesFrom objDb (room + 1) kept seen keys = hit :: rest) :
    ∃ skipped tail, keys = skipped ++ hit.key :: tail ∧
      merging.Taken objDb kept hit.key hit.obj ∧ merging.idAt hit ∉ seen ∧
      (∀ key ∈ skipped, merging.idOf key ∉ seen → ∀ obj, ¬ merging.Taken objDb kept key obj) ∧
      rest = merging.matchesFrom objDb room (some hit.obj) (merging.idAt hit :: seen) tail := by
  induction keys with
  | nil => cases found
  | cons head keys ih =>
    have onward : merging.matchesFrom objDb (room + 1) kept seen keys = hit :: rest →
        (merging.idOf head ∉ seen → ∀ obj, ¬ merging.Taken objDb kept head obj) →
          ∃ skipped tail, head :: keys = skipped ++ hit.key :: tail ∧
            merging.Taken objDb kept hit.key hit.obj ∧ merging.idAt hit ∉ seen ∧
            (∀ key ∈ skipped, merging.idOf key ∉ seen →
              ∀ obj, ¬ merging.Taken objDb kept key obj) ∧
            rest = merging.matchesFrom objDb room (some hit.obj) (merging.idAt hit :: seen)
              tail := by
      intro later passed
      rcases ih later with ⟨skipped, tail, split, taken, unseen, none, others⟩
      refine ⟨head :: skipped, tail, congrArg (head :: ·) split, taken, unseen, ?_, others⟩
      intro key member
      rcases List.mem_cons.mp member with same | inside
      · rw [same]
        exact passed
      · exact none key inside
    rw [matchesFrom] at found
    cases stored : objDb.find (merging.idOf head) with
    | none =>
      rw [stored] at found
      apply onward found
      intro _ obj taken
      rw [taken.1] at stored
      cases stored
    | some item =>
      rw [stored] at found
      simp only at found
      by_cases delivers : merging.idOf head ∉ seen ∧ merging.accept kept item = .ok true
      · rw [if_pos delivers] at found
        cases found
        refine ⟨[], keys, rfl, ⟨stored, delivers.2⟩, delivers.1, ?_, rfl⟩
        intro key impossible
        cases impossible
      · rw [if_neg delivers] at found
        apply onward found
        intro unseen obj taken
        rw [taken.1, Option.some.injEq] at stored
        exact delivers ⟨unseen, stored ▸ taken.2⟩

theorem matchesFrom_nil {room : Nat} {kept : Option MojObject} {seen : List MojString}
    {keys : List κ} (found : merging.matchesFrom objDb (room + 1) kept seen keys = []) :
    ∀ key ∈ keys, merging.idOf key ∉ seen → ∀ obj, ¬ merging.Taken objDb kept key obj := by
  induction keys with
  | nil => exact fun _ member => by cases member
  | cons head keys ih =>
    rw [matchesFrom] at found
    intro key member unseen obj taken
    cases stored : objDb.find (merging.idOf head) with
    | none =>
      rw [stored] at found
      rcases List.mem_cons.mp member with same | inside
      · rw [← same, taken.1] at stored
        cases stored
      · exact ih found key inside unseen obj taken
    | some item =>
      rw [stored] at found
      simp only at found
      by_cases delivers : merging.idOf head ∉ seen ∧ merging.accept kept item = .ok true
      · rw [if_pos delivers] at found
        cases found
      · rw [if_neg delivers] at found
        rcases List.mem_cons.mp member with same | inside
        · rw [← same, taken.1, Option.some.injEq] at stored
          rw [← same, ← stored] at delivers
          exact delivers ⟨unseen, taken.2⟩
        · exact ih found key inside unseen obj taken

theorem matchesFrom_sublist (room : Nat) (kept : Option MojObject) (seen : List MojString)
    (keys : List κ) :
    ((merging.matchesFrom objDb room kept seen keys).map Match.key).Sublist keys := by
  induction keys generalizing room kept seen with
  | nil => cases room <;> exact List.Sublist.refl []
  | cons head keys ih =>
    cases room with
    | zero =>
      rw [matchesFrom_zero]
      exact List.nil_sublist _
    | succ room =>
      rw [matchesFrom]
      cases objDb.find (merging.idOf head) with
      | none => exact (ih _ _ _).cons head
      | some item =>
        simp only
        split_ifs
        · exact (ih _ _ _).cons_cons head
        · exact (ih _ _ _).cons head

theorem found_sorted (merging : Merging κ) (store : KeyedStore κ) :
    (merging.found store).Pairwise fun left right => left.key < right.key :=
  List.pairwise_map.mp (store.index.sorted.sublist (matchesFrom_sublist _ _ _ _))

theorem matchesFrom_length (room : Nat) (kept : Option MojObject) (seen : List MojString)
    (keys : List κ) : (merging.matchesFrom objDb room kept seen keys).length ≤ room := by
  induction keys generalizing room kept seen with
  | nil => cases room <;> exact Nat.zero_le _
  | cons head keys ih =>
    cases room with
    | zero =>
      rw [matchesFrom_zero]
      exact Nat.zero_le _
    | succ room =>
      rw [matchesFrom]
      cases objDb.find (merging.idOf head) with
      | none => exact ih _ _ _
      | some item =>
        simp only
        split_ifs
        · exact Nat.succ_le_succ (ih _ _ _)
        · exact ih _ _ _

end Matches

structure Stage (merging : Merging κ) (before : KeyedStore κ) (done : List (Match κ × Change))
    (store : KeyedStore κ) : Prop where
  changed : ∀ entry ∈ done, store.objDb.find (merging.idAt entry.1) = some entry.2.stored
  others : ∀ id, (∀ entry ∈ done, merging.idAt entry.1 ≠ id) →
    store.objDb.find id = before.objDb.find id
  untouched : ∀ key ∈ before.index, (∀ entry ∈ done, merging.idAt entry.1 ≠ merging.idOf key) →
    key ∈ store.index
  origin : ∀ key ∈ store.index,
    (key ∈ before.index ∧ ∀ entry ∈ done, merging.idAt entry.1 ≠ merging.idOf key) ∨
      ∃ entry ∈ done, key ∈ merging.keysOf entry.2.keyed

section Stages

variable {before store : KeyedStore κ} {done : List (Match κ × Change)}

theorem stage_start (merging : Merging κ) (before : KeyedStore κ) :
    merging.Stage before [] before where
  changed _ member := by cases member
  others _ _ := rfl
  untouched _ present _ := present
  origin key present := by
    apply Or.inl
    apply And.intro present
    intro entry impossible
    cases impossible

theorem mem_update (id : MojString) (prev : MojObject) (change : Change) (key : κ) :
    key ∈ (merging.update store id prev change).index ↔
      key ∈ merging.keysOf change.keyed ∨ (key ∈ store.index ∧ key ∉ merging.keysOf prev) := by
  unfold update
  rw [SortedSet.mem_putAll, SortedSet.mem_delAll]

theorem find_update (id other : MojString) (prev : MojObject) (change : Change) :
    (merging.update store id prev change).objDb.find other =
      if id = other then some change.stored else store.objDb.find other := by
  unfold update
  rw [SortedMap.find_put]

theorem Stage.step (stage : merging.Stage before done store)
    (consistent : merging.Consistent before) {hit : Match κ}
    (stored : before.objDb.find (merging.idAt hit) = some hit.obj)
    (fresh : ∀ entry ∈ done, merging.idAt entry.1 ≠ merging.idAt hit) (change : Change) :
    merging.Stage before (done ++ [(hit, change)])
      (merging.update store (merging.idAt hit) hit.obj change) where
  changed entry member := by
    rw [find_update]
    rcases List.mem_append.mp member with old | new
    · rw [if_neg (Ne.symm (fresh entry old))]
      exact stage.changed entry old
    · rw [List.mem_singleton.mp new, if_pos rfl]
  others id absent := by
    rw [find_update, if_neg (absent (hit, change) (by simp))]
    exact stage.others id fun entry member => absent entry (List.mem_append_left _ member)
  untouched key present absent := by
    rw [mem_update]
    apply Or.inr
    apply And.intro
      (stage.untouched key present fun entry member => absent entry (List.mem_append_left _ member))
    intro owned
    have named := merging.owns hit.obj key owned
    rw [consistent.named _ _ stored, Option.some.injEq, MojObject.string.injEq] at named
    exact absent (hit, change) (by simp) named
  origin key present := by
    rcases (mem_update _ _ _ key).mp present with new | ⟨inside, dropped⟩
    · exact Or.inr ⟨(hit, change), by simp, new⟩
    · rcases stage.origin key inside with ⟨old, absent⟩ | ⟨entry, member, owned⟩
      · apply Or.inl
        apply And.intro old
        intro entry member
        rcases List.mem_append.mp member with early | last
        · exact absent entry early
        · rw [List.mem_singleton.mp last]
          intro same
          rcases (consistent.indexed key).mp old with ⟨obj, found, owned⟩
          rw [← same, stored, Option.some.injEq] at found
          exact dropped (found ▸ owned)
      · exact Or.inr ⟨entry, List.mem_append_left _ member, owned⟩

def lastObj (done : List (Match κ × Change)) : Option MojObject :=
  done.getLast?.map fun entry => entry.1.obj

def lastKey (done : List (Match κ × Change)) : Option κ :=
  done.getLast?.map fun entry => entry.1.key

structure At (merging : Merging κ) (before : KeyedStore κ) (done : List (Match κ × Change))
    (rest : List (Match κ)) (seen : List MojString) (keys : List κ) (room : Nat)
    (store : KeyedStore κ) : Prop where
  stage : merging.Stage before done store
  whole : merging.found before = done.map Prod.fst ++ rest
  onward : rest = merging.matchesFrom before.objDb room (lastObj done) seen keys
  visited : ∀ id, id ∈ seen ↔ ∃ entry ∈ done, merging.idAt entry.1 = id
  remaining : ∀ key, key ∈ keys ↔ key ∈ before.index ∧ Beyond (lastKey done) key
  sorted : keys.Pairwise (· < ·)
  roomLeft : done.length + room = merging.limit.toNat

theorem at_start (merging : Merging κ) (before : KeyedStore κ) :
    merging.At before [] (merging.found before) [] before.index.elems merging.limit.toNat
      before where
  stage := stage_start merging before
  whole := rfl
  onward := rfl
  visited id := by simp
  remaining key := by simp [lastKey, Beyond, SortedSet.mem_def]
  sorted := before.index.sorted
  roomLeft := Nat.zero_add _

namespace At

variable {rest : List (Match κ)} {seen : List MojString} {keys : List κ} {room : Nat}

theorem unseen (here : merging.At before done rest seen keys room store) {id : MojString} :
    id ∉ seen ↔ ∀ entry ∈ done, merging.idAt entry.1 ≠ id := by
  rw [here.visited]
  constructor
  · intro absent entry member same
    exact absent ⟨entry, member, same⟩
  · intro absent present
    rcases present with ⟨entry, member, same⟩
    exact absent entry member same

variable {key : κ}

theorem beyond_done (here : merging.At before done rest seen keys room store)
    (beyond : Beyond (lastKey done) key) : ∀ entry ∈ done, entry.1.key < key := by
  intro entry member
  rcases List.eq_nil_or_concat done with none | ⟨front, last, split⟩
  · rw [none] at member
    cases member
  · rw [List.concat_eq_append] at split
    have below : last.1.key < key := beyond last.1.key (by simp [lastKey, split])
    have sorted := found_sorted merging before
    rw [here.whole, split, List.map_append] at sorted
    rw [split] at member
    rcases List.mem_append.mp member with early | isLast
    · have order := (List.pairwise_append.mp (List.pairwise_append.mp sorted).1).2.2
      exact lt_trans (order entry.1 (List.mem_map_of_mem early) last.1 (by simp)) below
    · rw [List.mem_singleton.mp isLast]
      exact below

theorem not_beyond_done (here : merging.At before done rest seen keys room store)
    {entry : Match κ × Change} (member : entry ∈ done) (beyond : Beyond (lastKey done) key) :
    ¬ key ≤ entry.1.key :=
  not_le.mpr (here.beyond_done beyond entry member)

theorem keptAt_eq (here : merging.At before done rest seen keys room store)
    (beyond : Beyond (lastKey done) key) (early : ∀ hit ∈ rest, ¬ hit.key < key) :
    keptAt (merging.found before) key = lastObj done := by
  unfold keptAt lastObj
  have all : (done.map Prod.fst).filter (fun hit => decide (hit.key < key)) =
      done.map Prod.fst := by
    rw [List.filter_eq_self]
    intro hit member
    rcases List.mem_map.mp member with ⟨entry, inside, same⟩
    rw [← same]
    exact decide_eq_true (here.beyond_done beyond entry inside)
  have none : rest.filter (fun hit => decide (hit.key < key)) = [] := by
    rw [List.filter_eq_nil_iff]
    intro hit member below
    exact early hit member (of_decide_eq_true below)
  rw [here.whole, List.filter_append, all, none, List.append_nil, List.getLast?_map,
    Option.map_map]
  rfl

theorem hit_taken {hit : Match κ}
    (here : merging.At before done (hit :: rest) seen keys room store) :
    merging.Taken before.objDb (lastObj done) hit.key hit.obj ∧
      (∀ entry ∈ done, merging.idAt entry.1 ≠ merging.idAt hit) ∧
      hit.key ∈ before.index ∧ Beyond (lastKey done) hit.key := by
  cases room with
  | zero =>
    have impossible := here.onward
    rw [matchesFrom_zero] at impossible
    cases impossible
  | succ room =>
    rcases matchesFrom_cons here.onward.symm with ⟨skipped, tail, split, taken, fresh, -, -⟩
    have member : hit.key ∈ keys := by
      rw [split]
      exact List.mem_append_right skipped List.mem_cons_self
    exact ⟨taken, here.unseen.mp fresh, (here.remaining hit.key).mp member⟩

theorem least (here : merging.At before done rest seen keys (room + 1) store) {obj : MojObject}
    (inside : key ∈ before.index) (beyond : Beyond (lastKey done) key)
    (fresh : ∀ entry ∈ done, merging.idAt entry.1 ≠ merging.idOf key)
    (taken : merging.Taken before.objDb (lastObj done) key obj) :
    ∃ hit later, rest = hit :: later ∧ hit.key ≤ key := by
  have member := (here.remaining key).mpr ⟨inside, beyond⟩
  have unseen := here.unseen.mpr fresh
  cases rest with
  | nil => exact absurd taken (matchesFrom_nil here.onward.symm key member unseen obj)
  | cons hit later =>
    rcases matchesFrom_cons here.onward.symm with ⟨skipped, tail, split, -, -, none, -⟩
    refine ⟨hit, later, rfl, ?_⟩
    have sorted := here.sorted
    rw [split] at member sorted
    rcases List.mem_append.mp member with early | late
    · exact absurd taken (none key early unseen obj)
    · rcases List.mem_cons.mp late with same | after
      · exact le_of_eq same.symm
      · exact le_of_lt
          (List.rel_of_pairwise_cons (List.pairwise_append.mp sorted).2.1 after)

theorem step {hit : Match κ}
    (here : merging.At before done (hit :: rest) seen keys (room + 1) store)
    (consistent : merging.Consistent before) (change : Change) :
    ∃ tail, merging.At before (done ++ [(hit, change)]) rest (merging.idAt hit :: seen) tail room
      (merging.update store (merging.idAt hit) hit.obj change) := by
  rcases here.hit_taken with ⟨taken, fresh, inside, beyond⟩
  rcases matchesFrom_cons here.onward.symm with ⟨skipped, tail, split, -, -, -, onward⟩
  have sorted := here.sorted
  rw [split] at sorted
  have parts := List.pairwise_append.mp sorted
  have last : lastKey (done ++ [(hit, change)]) = some hit.key := by simp [lastKey]
  apply Exists.intro tail
  refine ⟨here.stage.step consistent taken.1 fresh change, ?_, ?_, ?_, ?_, ?_, ?_⟩
  · rw [here.whole]
    simp
  · rw [onward]
    simp [lastObj]
  · intro id
    rw [List.mem_cons, here.visited]
    constructor
    · intro present
      rcases present with same | ⟨entry, member, named⟩
      · exact ⟨(hit, change), by simp, same.symm⟩
      · exact ⟨entry, List.mem_append_left _ member, named⟩
    · intro present
      rcases present with ⟨entry, member, named⟩
      rcases List.mem_append.mp member with old | new
      · exact Or.inr ⟨entry, old, named⟩
      · rw [List.mem_singleton.mp new] at named
        exact Or.inl named.symm
  · intro key
    rw [last, beyond_some]
    constructor
    · intro member
      have present : key ∈ keys := by
        rw [split]
        exact List.mem_append_right skipped (List.mem_cons_of_mem _ member)
      exact ⟨((here.remaining key).mp present).1, List.rel_of_pairwise_cons parts.2.1 member⟩
    · intro present
      rcases present with ⟨stored, above⟩
      have past : Beyond (lastKey done) key := fun passed isLast =>
        lt_trans (beyond passed isLast) above
      have member := (here.remaining key).mpr ⟨stored, past⟩
      rw [split] at member
      rcases List.mem_append.mp member with early | late
      · exact absurd above (lt_asymm (parts.2.2 key early hit.key List.mem_cons_self))
      · rcases List.mem_cons.mp late with same | after
        · exact absurd above (same ▸ lt_irrefl key)
        · exact after
  · exact (List.pairwise_cons.mp parts.2.1).2
  · rw [List.length_append, List.length_singleton, ← here.roomLeft]
    omega

theorem hit_ahead {hit : Match κ}
    (here : merging.At before done (hit :: rest) seen keys room store) :
    merging.Taken store.objDb (lastObj done) hit.key hit.obj ∧
      hit.key ∈ ahead store (lastKey done) := by
  rcases here.hit_taken with ⟨taken, fresh, inside, beyond⟩
  apply And.intro _ (mem_ahead.mpr ⟨here.stage.untouched hit.key inside fresh, beyond⟩)
  exact ⟨(here.stage.others _ fresh).trans taken.1, taken.2⟩

theorem rest_after {hit : Match κ}
    (here : merging.At before done (hit :: rest) seen keys room store) :
    ∀ other ∈ hit :: rest, hit.key ≤ other.key := by
  have sorted := found_sorted merging before
  rw [here.whole] at sorted
  have later := (List.pairwise_cons.mp (List.pairwise_append.mp sorted).2.1).1
  intro other member
  rcases List.mem_cons.mp member with same | inside
  · exact le_of_eq (congrArg Match.key same.symm)
  · exact le_of_lt (later other inside)

theorem early_key (here : merging.At before done rest seen keys (room + 1) store) {obj : MojObject}
    (inside : key ∈ store.index) (beyond : Beyond (lastKey done) key)
    (taken : merging.Taken store.objDb (lastObj done) key obj) :
    (∃ hit later, rest = hit :: later ∧ hit.key ≤ key) ∨
      ∃ entry ∈ done, key ∈ merging.keysOf entry.2.keyed := by
  rcases here.stage.origin key inside with ⟨old, fresh⟩ | merged
  · apply Or.inl
    apply here.least old beyond fresh
    exact ⟨(here.stage.others _ fresh).symm.trans taken.1, taken.2⟩
  · exact Or.inr merged

/-- Nothing is delivered before the next match as long as the merged objects are behind. -/
theorem settled_least (here : merging.At before done rest seen keys (room + 1) store)
    (behind : ∀ entry ∈ done, merging.Behind (merging.found before) entry) {obj : MojObject}
    (inside : key ∈ store.index) (beyond : Beyond (lastKey done) key)
    (taken : merging.Taken store.objDb (lastObj done) key obj) :
    ∃ hit later, rest = hit :: later ∧ hit.key ≤ key := by
  rcases here.early_key inside beyond taken with first | ⟨entry, member, owned⟩
  · exact first
  · rcases behind entry member key owned with passed | ⟨full, past⟩ | ⟨own, leaves⟩
    · exact absurd passed (here.not_beyond_done member beyond)
    · cases rest with
      | nil =>
        have length := here.roomLeft
        rw [here.whole, List.append_nil, List.length_map] at full
        omega
      | cons hit later =>
        refine ⟨hit, later, rfl, le_of_lt (past hit ?_)⟩
        rw [here.whole]
        simp
    · by_contra none
      have early : ∀ hit ∈ rest, ¬ hit.key < key := by
        cases rest with
        | nil => exact fun _ impossible => by cases impossible
        | cons first later =>
          intro hit among below
          exact none ⟨first, later, rfl, le_of_lt (lt_of_le_of_lt (here.rest_after hit among) below)⟩
      rw [here.keptAt_eq beyond early] at leaves
      have there := here.stage.changed entry member
      rw [← own, taken.1, Option.some.injEq] at there
      rw [← there] at leaves
      exact leaves taken.2

end At

theorem mergeEach_cons {hit : Match κ} {rest : List (Match κ)} {ids after : Ids}
    {entries : List (Match κ × Change)}
    (ran : merging.mergeEach (hit :: rest) ids = .ok entries after) :
    ∃ change middle later, merging.mergeObj (merging.idAt hit) hit.obj ids = .ok change middle ∧
      merging.mergeEach rest middle = .ok later after ∧ entries = (hit, change) :: later := by
  rw [mergeEach] at ran
  rcases taking_bind_ok ran with ⟨change, middle, first, ran⟩
  rcases taking_bind_ok ran with ⟨later, last, others, ran⟩
  cases ran
  exact ⟨change, middle, later, first, others, rfl⟩

theorem mergeFrom_some {room : Nat} {last : Option κ} {kept : Option MojObject} {key : κ}
    {obj : MojObject} {final : KeyedStore κ} {merged : List MojString} {ids after : Ids}
    (got : merging.next store kept (ahead store last) = .ok (some (key, obj)))
    (ran : merging.mergeFrom (room + 1) last kept store ids = .ok (final, merged) after) :
    ∃ change middle others, merging.mergeObj (merging.idOf key) obj ids = .ok change middle ∧
      merging.mergeFrom room (some key) (some obj)
        (merging.update store (merging.idOf key) obj change) middle = .ok (final, others) after ∧
      merged = merging.idOf key :: others := by
  rw [mergeFrom, got] at ran
  rcases taking_bind_ok ran with ⟨change, middle, first, ran⟩
  rcases taking_bind_ok ran with ⟨later, last, others, ran⟩
  cases ran
  exact ⟨change, middle, later.2, first, others, rfl⟩

/-- If the merged objects stay behind the cursor, the loop merges into the matches and ends. -/
theorem mergeFrom_settled (consistent : merging.Consistent before) (room : Nat)
    {rest : List (Match κ)} {seen : List MojString} {keys : List κ} {final : KeyedStore κ}
    {merged : List MojString} {entries : List (Match κ × Change)} {ids after ended : Ids}
    (here : merging.At before done rest seen keys room store)
    (each : merging.mergeEach rest ids = .ok entries ended)
    (behind : ∀ entry ∈ done ++ entries, merging.Behind (merging.found before) entry)
    (ran : merging.mergeFrom room (lastKey done) (lastObj done) store ids =
      .ok (final, merged) after) :
    merged = rest.map merging.idAt ∧ merging.Stage before (done ++ entries) final := by
  induction room generalizing done rest seen keys store entries merged ids with
  | zero =>
    have none := here.onward
    rw [matchesFrom_zero] at none
    rw [none] at each
    cases each
    cases ran
    rw [none, List.append_nil]
    exact ⟨rfl, here.stage⟩
  | succ room ih =>
    cases got : merging.next store (lastObj done) (ahead store (lastKey done)) with
    | error err =>
      rw [mergeFrom, got] at ran
      cases ran
    | ok item =>
      cases item with
      | none =>
        rw [mergeFrom, got] at ran
        cases ran
        cases rest with
        | nil =>
          cases each
          rw [List.append_nil]
          exact ⟨rfl, here.stage⟩
        | cons hit later =>
          rcases here.hit_ahead with ⟨taken, ahead⟩
          exact absurd taken (next_none got hit.key ahead hit.obj)
      | some item =>
        rcases item with ⟨key, obj⟩
        rcases next_first got with ⟨taken, inside, beyond, least⟩
        rcases here.settled_least
          (fun entry member => behind entry (List.mem_append_left _ member)) inside beyond taken
          with ⟨hit, later, split, below⟩
        rw [split] at here each ⊢
        rcases here.hit_ahead with ⟨hitTaken, hitAhead⟩
        have same : hit.key = key := by
          rcases lt_or_eq_of_le below with less | same
          · exact absurd hitTaken (least hit.key hitAhead less hit.obj)
          · exact same
        have sameObj : hit.obj = obj := by
          have found := hitTaken.1
          rw [same, taken.1, Option.some.injEq] at found
          exact found.symm
        rcases mergeFrom_some got ran with ⟨change, middle, others, first, onward, counted⟩
        rcases mergeEach_cons each with ⟨other, second, changes, again, eachLater, split⟩
        have sameId : merging.idAt hit = merging.idOf key := congrArg merging.idOf same
        rw [sameId, sameObj, first] at again
        cases again
        rcases here.step consistent change with ⟨tail, next⟩
        rw [split] at behind ⊢
        have lists : done ++ (hit, change) :: changes = done ++ [(hit, change)] ++ changes := by
          simp
        rw [lists] at behind ⊢
        have keyNow : lastKey (done ++ [(hit, change)]) = some key := by simp [lastKey, same]
        have objNow : lastObj (done ++ [(hit, change)]) = some obj := by
          simp [lastObj, sameObj]
        rw [sameId, sameObj] at next
        have settled := ih next eachLater behind (by rw [keyNow, objNow]; exact onward)
        rw [counted, settled.1, List.map_cons, sameId]
        exact ⟨rfl, settled.2⟩

end Stages

section Named

variable {ids after : Ids} {key : MojString}

theorem find_assignProps_flat {val : MojObject} {props out : List (MojString × MojObject)}
    (noArray : ∀ vals, val ≠ .array vals) (noObject : ∀ props, val ≠ .object props)
    (ran : assignProps props ids = .ok out after) (found : MojObject.find out key = some val) :
    MojObject.find props key = some val := by
  induction props generalizing out ids after with
  | nil =>
    rw [assignProps] at ran
    cases ran
    cases found
  | cons head rest ih =>
    rcases head with ⟨name, old⟩
    rw [assignProps] at ran
    rcases taking_bind_ok ran with ⟨new, middle, first, ran⟩
    rcases taking_bind_ok ran with ⟨others, late, last, ran⟩
    cases ran
    unfold MojObject.find at found ⊢
    rw [List.find?_cons] at found ⊢
    by_cases same : name = key
    · simp only [same, decide_true, Option.map_some, Option.some.injEq] at found ⊢
      rw [found] at first
      cases old with
      | array vals =>
        rw [assignVal] at first
        rcases taking_bind_ok first with ⟨others, middle, -, first⟩
        cases first
        exact absurd rfl (noArray others)
      | object props =>
        rw [assignVal] at first
        rcases taking_bind_ok first with ⟨others, middle, -, first⟩
        cases first
        exact absurd rfl (noObject others)
      | _ =>
        rw [assignVal] at first
        cases first
        rfl
    · simp only [same, decide_false] at found ⊢
      exact ih last found

theorem get_assignIds_flat {val obj out : MojObject} (noArray : ∀ vals, val ≠ .array vals)
    (noObject : ∀ props, val ≠ .object props) (ran : assignIds obj ids = .ok out after)
    (found : out.get key = some val) : obj.get key = some val := by
  cases obj with
  | object props =>
    rcases taking_bind_ok ran with ⟨new, middle, first, ran⟩
    cases ran
    exact find_assignProps_flat noArray noObject first found
  | _ =>
    cases ran
    exact found

theorem get_assignIds_string {key val : MojString} {obj out : MojObject}
    (ran : assignIds obj ids = .ok out after) (found : out.get key = some (.string val)) :
    obj.get key = some (.string val) :=
  get_assignIds_flat (fun _ => MojObject.noConfusion) (fun _ => MojObject.noConfusion) ran found

/-- The update of a kind puts no string, but for the values of its revision sets. -/
theorem get_apply_string {kind : KindUpdate} {prev : Option MojObject} {obj new : MojObject}
    {rev : MojInt64} (applied : kind.apply prev obj = .ok new)
    (has : obj.get revKey = some (.int rev)) {key val : MojString} (notSync : syncKey ≠ key)
    (found : new.get key = some (.string val)) : obj.get key = some (.string val) := by
  unfold KindUpdate.apply at applied
  cases refused : kind.refuses obj prev with
  | some err =>
    rw [refused] at applied
    cases applied
  | none =>
    rw [refused] at applied
    have put : ∀ (revSet : MojDbRevisionSet) (start : MojObject),
        start.get revKey = some (.int rev) →
          (revSet.update prev start).get key = some (.string val) →
            start.get key = some (.string val) := by
      intro revSet start has found
      have placed : (start.put revSet.name (.int rev)).get key = some (.string val) →
          start.get key = some (.string val) := by
        intro found
        rw [MojObject.get_put] at found
        split_ifs at found
        · cases found
        · exact found
      unfold MojDbRevisionSet.update at found
      simp only [has] at found
      cases prev with
      | none => exact placed found
      | some prev =>
        simp only at found
        split_ifs at found
        · exact placed found
        · exact found
    have folded : ∀ (revSets : List MojDbRevisionSet) (start : MojObject),
        start.get revKey = some (.int rev) →
          (revSets.foldl (fun obj revSet => revSet.update prev obj) start).get key =
            some (.string val) → start.get key = some (.string val) := by
      intro revSets
      induction revSets with
      | nil => exact fun _ _ found => found
      | cons revSet others ih =>
        intro start has found
        exact put revSet start has (ih _ (get_revSet_update revSet prev has) found)
    cases applied
    by_cases backs : kind.backup ∧ obj.get syncKey = none
    · rw [if_pos backs] at found
      have synced : (obj.put syncKey (.bool true)).get revKey = some (.int rev) := by
        rw [MojObject.get_put, if_neg (by decide)]
        exact has
      have kept := folded kind.revSets _ synced found
      rw [MojObject.get_put, if_neg notSync] at kept
      exact kept
    · rw [if_neg backs] at found
      exact folded kind.revSets obj has found

theorem find_mergeProps {obj prev : List (MojString × MojObject)}
    (absent : MojObject.find obj key = none) :
    MojObject.find (mergeProps obj prev) key = MojObject.find prev key := by
  induction obj generalizing prev with
  | nil => rw [mergeProps]
  | cons head obj ih =>
    rcases head with ⟨name, val⟩
    have split := absent
    unfold MojObject.find at split
    rw [List.find?_cons] at split
    by_cases same : name = key
    · simp [same] at split
    · simp only [same, decide_false] at split
      induction prev with
      | nil =>
        rw [mergeProps]
        · exact absent
        · exact List.cons_ne_nil _ _
      | cons other prev onward =>
        rcases other with ⟨otherName, old⟩
        rw [mergeProps]
        split_ifs with equal before
        · have kept := @ih prev split
          unfold MojObject.find at kept ⊢
          rw [List.find?_cons, List.find?_cons]
          simp only [← equal, same, decide_false]
          exact kept
        · have kept := @ih ((otherName, old) :: prev) split
          unfold MojObject.find at kept ⊢
          rw [List.find?_cons]
          simp only [same, decide_false]
          exact kept
        · unfold MojObject.find at onward ⊢
          rw [List.find?_cons, List.find?_cons]
          by_cases here : otherName = key
          · simp [here]
          · simp only [here, decide_false]
            exact onward

theorem get_mergeInto {obj prev : MojObject} (absent : obj.get key = none) :
    (mergeInto obj prev).get key = prev.get key :=
  find_mergeProps absent

theorem get_putKeyed_string {kind : KindUpdate} {storage : Option MojErr} {id obj : MojObject}
    {prev : Option MojObject} {change : Change}
    (ran : putKeyed kind storage id obj prev ids = .ok (some change) after) {key val : MojString}
    (notRev : revKey ≠ key) (notSync : syncKey ≠ key)
    (found : change.keyed.get key = some (.string val)) : obj.get key = some (.string val) := by
  unfold putKeyed at ran
  split_ifs at ran
  · cases ran
  · rcases taking_bind_ok ran with ⟨rev, middle, -, ran⟩
    simp only at ran
    have has : (obj.put revKey (.int (BitVec.ofNat 64 rev))).get revKey =
        some (.int (BitVec.ofNat 64 rev)) := by
      rw [MojObject.get_put, if_pos rfl]
    have same : (obj.put revKey (.int (BitVec.ofNat 64 rev))).get key = obj.get key := by
      rw [MojObject.get_put, if_neg notRev]
    rw [← same]
    cases hasKind : (obj.put revKey (.int (BitVec.ofNat 64 rev))).get kindKey with
    | none =>
      rw [hasKind] at ran
      cases ran
    | some kindName =>
      rw [hasKind] at ran
      rcases taking_bind_ok ran with ⟨stored, late, put, made⟩
      cases made
      rcases taking_bind_ok put with ⟨assigned, later, assigns, stores⟩
      unfold storeKeyed at stores
      cases applied : kind.apply prev assigned with
      | error err =>
        rw [applied] at stores
        cases stores
      | ok keyed =>
        rw [applied] at stores
        cases storage with
        | some err => cases stores
        | none =>
          cases stores
          split_ifs at assigns
          · cases assigns
            exact get_apply_string applied has notSync found
          · apply get_assignIds_string assigns
            exact get_apply_string applied (get_assignIds assigns has) notSync found

/-- Props without an id leave the keys of an object under its own id. -/
theorem idOf_mergeObj {id : MojString} {prev : MojObject} {change : Change}
    (noId : merging.props.get idKey = none) (named : prev.get idKey = some (.string id))
    (ran : merging.mergeObj id prev ids = .ok change after) {key : κ}
    (owned : key ∈ merging.keysOf change.keyed) : merging.idOf key = id := by
  have carried := merging.owns change.keyed key owned
  unfold mergeObj at ran
  rcases taking_bind_ok ran with ⟨made, last, put, ran⟩
  cases ran
  have own : prev.get idKey = some (.string (merging.idOf key)) := by
    cases made with
    | none => exact carried
    | some change =>
      rw [← get_mergeInto noId]
      exact get_putKeyed_string put (by decide) (by decide) carried
  rw [named, Option.some.injEq, MojObject.string.injEq] at own
  exact own.symm

end Named

/-- The merged objects have own keys, all of them in the index; those the cursor has passed it left
out. -/
structure Passed (merging : Merging κ) (before : KeyedStore κ) (done : List (Match κ × Change))
    (store : KeyedStore κ) : Prop where
  own : ∀ entry ∈ done, ∀ key ∈ merging.keysOf entry.2.keyed,
    merging.idOf key = merging.idAt entry.1 ∧ key ∈ store.index
  left : ∀ entry ∈ done, ∀ key ∈ merging.keysOf entry.2.keyed, entry.1.key < key →
    ¬ Beyond (lastKey done) key →
      merging.accept (keptAt (merging.found before) key) entry.2.stored ≠ .ok true

section Once

variable {before store : KeyedStore κ} {done : List (Match κ × Change)}

theorem Passed.behind (passed : merging.Passed before done store)
    {entry : Match κ × Change} (member : entry ∈ done)
    (onward : ∀ key ∈ merging.keysOf entry.2.keyed, Beyond (lastKey done) key →
      (done.length = merging.limit.toNat ∧ merging.found before = done.map Prod.fst ∧
          ∀ other ∈ done, other.1.key < key) ∨
        merging.accept (keptAt (merging.found before) key) entry.2.stored ≠ .ok true) :
    merging.Behind (merging.found before) entry := by
  intro key owned
  rcases passed.own entry member key owned with ⟨own, -⟩
  by_cases low : key ≤ entry.1.key
  · exact Or.inl low
  · apply Or.inr
    by_cases beyond : Beyond (lastKey done) key
    · rcases onward key owned beyond with ⟨full, whole, past⟩ | leaves
      · apply Or.inl
        rw [whole, List.length_map]
        apply And.intro full
        intro hit inside
        rcases List.mem_map.mp inside with ⟨other, among, same⟩
        rw [← same]
        exact past other among
      · exact Or.inr ⟨own, leaves⟩
    · exact Or.inr ⟨own, passed.left entry member key owned (not_le.mp low) beyond⟩

theorem Passed.refused {rest : List (Match κ)} {seen : List MojString} {keys : List κ} {room : Nat}
    (passed : merging.Passed before done store)
    (here : merging.At before done rest seen keys room store) {entry : Match κ × Change}
    (member : entry ∈ done) {key : κ} (owned : key ∈ merging.keysOf entry.2.keyed)
    (beyond : Beyond (lastKey done) key) (early : ∀ hit ∈ rest, ¬ hit.key < key)
    (skipped : ∀ obj, ¬ merging.Taken store.objDb (lastObj done) key obj) :
    merging.accept (keptAt (merging.found before) key) entry.2.stored ≠ .ok true := by
  rw [here.keptAt_eq beyond early]
  intro accepts
  apply skipped entry.2.stored
  apply And.intro _ accepts
  rw [(passed.own entry member key owned).1]
  exact here.stage.changed entry member

theorem Passed.step {rest : List (Match κ)} {seen : List MojString} {keys : List κ} {room : Nat}
    {hit : Match κ} (passed : merging.Passed before done store)
    (consistent : merging.Consistent before)
    (here : merging.At before done (hit :: rest) seen keys room store) {change : Change}
    (own : ∀ key ∈ merging.keysOf change.keyed, merging.idOf key = merging.idAt hit)
    (least : ∀ other ∈ ahead store (lastKey done), other < hit.key →
      ∀ item, ¬ merging.Taken store.objDb (lastObj done) other item) :
    merging.Passed before (done ++ [(hit, change)])
      (merging.update store (merging.idAt hit) hit.obj change) := by
  rcases here.hit_taken with ⟨taken, fresh, -, -⟩
  have named := consistent.named _ _ taken.1
  have last : lastKey (done ++ [(hit, change)]) = some hit.key := by simp [lastKey]
  constructor
  · intro entry member key owned
    rw [mem_update]
    rcases List.mem_append.mp member with old | new
    · rcases passed.own entry old key owned with ⟨named', inside⟩
      apply And.intro named'
      apply Or.inr
      apply And.intro inside
      intro dropped
      have carried := merging.owns hit.obj key dropped
      rw [named, Option.some.injEq, MojObject.string.injEq] at carried
      exact fresh entry old (named'.symm.trans carried.symm)
    · rw [List.mem_singleton.mp new] at owned ⊢
      exact ⟨own key owned, Or.inl owned⟩
  · intro entry member key owned above notBeyond
    rw [last, beyond_some] at notBeyond
    rcases List.mem_append.mp member with old | new
    · by_cases beyond : Beyond (lastKey done) key
      · rcases passed.own entry old key owned with ⟨named', inside⟩
        have below : key < hit.key := by
          apply lt_of_le_of_ne (not_lt.mp notBeyond)
          intro same
          rw [same] at named'
          exact fresh entry old named'.symm
        apply passed.refused here old owned beyond
        · intro other among earlier
          exact absurd (lt_of_lt_of_le below (here.rest_after other among)) (lt_asymm earlier)
        · exact least key (mem_ahead.mpr ⟨inside, beyond⟩) below
      · exact passed.left entry old key owned above beyond
    · rw [List.mem_singleton.mp new] at above
      exact absurd above notBeyond

variable {merged : List MojString}

/-- If the loop merges into no object twice, the merged objects stayed behind the cursor. -/
theorem mergeFrom_once (consistent : merging.Consistent before)
    (noId : merging.props.get idKey = none) (room : Nat) {rest : List (Match κ)}
    {seen : List MojString} {keys : List κ} {final : KeyedStore κ} {ids after : Ids}
    (here : merging.At before done rest seen keys room store)
    (passed : merging.Passed before done store)
    (ran : merging.mergeFrom room (lastKey done) (lastObj done) store ids =
      .ok (final, merged) after)
    (nodup : (done.map (fun entry => merging.idAt entry.1) ++ merged).Nodup) :
    ∃ entries ended, merging.mergeEach rest ids = .ok entries ended ∧
      ∀ entry ∈ done ++ entries, merging.Behind (merging.found before) entry := by
  induction room generalizing done rest seen keys store merged ids with
  | zero =>
    have none := here.onward
    rw [matchesFrom_zero] at none
    refine ⟨[], ids, by rw [none]; rfl, ?_⟩
    intro entry member
    rw [List.append_nil] at member
    apply passed.behind member
    intro key _ beyond
    apply Or.inl
    refine ⟨here.roomLeft, ?_, here.beyond_done beyond⟩
    rw [here.whole, none, List.append_nil]
  | succ room ih =>
    cases got : merging.next store (lastObj done) (ahead store (lastKey done)) with
    | error err =>
      rw [mergeFrom, got] at ran
      cases ran
    | ok item =>
      cases item with
      | none =>
        have skips := next_none got
        cases rest with
        | cons hit later =>
          rcases here.hit_ahead with ⟨taken, inside⟩
          exact absurd taken (skips hit.key inside hit.obj)
        | nil =>
          refine ⟨[], ids, rfl, ?_⟩
          intro entry member
          rw [List.append_nil] at member
          apply passed.behind member
          intro key owned beyond
          apply Or.inr
          apply passed.refused here member owned beyond
          · exact fun _ impossible => by cases impossible
          · exact skips key
              (mem_ahead.mpr ⟨(passed.own entry member key owned).2, beyond⟩)
      | some item =>
        rcases item with ⟨key, obj⟩
        rcases next_first got with ⟨taken, inside, beyond, least⟩
        rcases mergeFrom_some got ran with ⟨change, middle, others, first, onward, counted⟩
        rcases here.early_key inside beyond taken with
          ⟨hit, later, split, below⟩ | ⟨entry, member, owned⟩
        · rw [split] at here ⊢
          rcases here.hit_ahead with ⟨hitTaken, hitAhead⟩
          have same : hit.key = key := by
            rcases lt_or_eq_of_le below with less | same
            · exact absurd hitTaken (least hit.key hitAhead less hit.obj)
            · exact same
          have sameObj : hit.obj = obj := by
            have stored := hitTaken.1
            rw [same, taken.1, Option.some.injEq] at stored
            exact stored.symm
          have sameId : merging.idAt hit = merging.idOf key := congrArg merging.idOf same
          rw [← sameId, ← sameObj] at first onward
          have named := consistent.named _ _ here.hit_taken.1.1
          have own : ∀ key ∈ merging.keysOf change.keyed,
              merging.idOf key = merging.idAt hit :=
            fun _ owned => idOf_mergeObj noId named first owned
          rw [← same] at least
          have passedNow := passed.step consistent here own least
          rcases here.step consistent change with ⟨tail, next⟩
          have keyNow : lastKey (done ++ [(hit, change)]) = some key := by
            simp [lastKey, same]
          have objNow : lastObj (done ++ [(hit, change)]) = some hit.obj := by
            simp [lastObj]
          have fewer : ((done ++ [(hit, change)]).map (fun entry => merging.idAt entry.1) ++
              others).Nodup := by
            rw [counted, ← sameId] at nodup
            simpa using nodup
          rcases ih next passedNow (by rw [keyNow, objNow]; exact onward) fewer with
            ⟨entries, ended, each, behind⟩
          refine ⟨(hit, change) :: entries, ended, ?_, ?_⟩
          · rw [mergeEach, taking_bind, first]
            simp only
            rw [taking_bind, each]
            rfl
          · have lists : done ++ (hit, change) :: entries =
                done ++ [(hit, change)] ++ entries := by simp
            rw [lists]
            exact behind
        · rw [counted, ← (passed.own entry member key owned).1.symm] at nodup
          have apart := (List.nodup_append.mp nodup).2.2
          exact absurd rfl (apart _ (List.mem_map_of_mem member) _ List.mem_cons_self)

theorem matchesFrom_fresh {objDb : SortedMap MojString MojObject} (room : Nat)
    (kept : Option MojObject) (seen : List MojString) (keys : List κ) :
    ((merging.matchesFrom objDb room kept seen keys).map merging.idAt).Nodup ∧
      ∀ hit ∈ merging.matchesFrom objDb room kept seen keys, merging.idAt hit ∉ seen := by
  induction keys generalizing room kept seen with
  | nil => cases room <;> exact ⟨List.nodup_nil, fun _ impossible => by cases impossible⟩
  | cons head keys ih =>
    cases room with
    | zero =>
      rw [matchesFrom_zero]
      exact ⟨List.nodup_nil, fun _ impossible => by cases impossible⟩
    | succ room =>
      rw [matchesFrom]
      cases objDb.find (merging.idOf head) with
      | none => exact ih _ _ _
      | some item =>
        simp only
        split_ifs with delivers
        · rcases ih room (some item) (merging.idOf head :: seen) with ⟨nodup, unseen⟩
          constructor
          · rw [List.map_cons, List.nodup_cons]
            apply And.intro _ nodup
            intro again
            rcases List.mem_map.mp again with ⟨hit, member, same⟩
            exact unseen hit member (same ▸ List.mem_cons_self)
          · intro hit member
            rcases List.mem_cons.mp member with same | later
            · rw [same]
              exact delivers.1
            · exact fun among => unseen hit later (List.mem_cons_of_mem _ among)
        · exact ih _ _ _

theorem mergeEach_entries {hits : List (Match κ)} {entries : List (Match κ × Change)}
    {ids ended : Ids} (each : merging.mergeEach hits ids = .ok entries ended) :
    entries.map Prod.fst = hits ∧ ∀ entry ∈ entries, ∃ ids later,
      merging.mergeObj (merging.idAt entry.1) entry.1.obj ids = .ok entry.2 later := by
  induction hits generalizing entries ids with
  | nil =>
    cases each
    exact ⟨rfl, fun _ impossible => by cases impossible⟩
  | cons hit rest ih =>
    rcases mergeEach_cons each with ⟨change, middle, later, first, onward, split⟩
    rcases ih onward with ⟨names, all⟩
    rw [split]
    apply And.intro (by rw [List.map_cons, names])
    intro entry member
    rcases List.mem_cons.mp member with same | among
    · rw [same]
      exact ⟨ids, middle, first⟩
    · exact all entry among

theorem merge_ok {after : KeyedStore κ} {ids ended : Ids}
    (ran : merging.merge before ids = .ok (after, merged) ended) :
    merging.mergeFrom merging.limit.toNat none none before ids = .ok (after, merged) ended := by
  unfold merge at ran
  cases checked : merging.find with
  | error err =>
    rw [checked] at ran
    cases ran
  | ok done =>
    rw [checked] at ran
    exact ran

theorem mergedOnce_of_settles (consistent : merging.Consistent before) {after : KeyedStore κ}
    {ids ended : Ids} (ran : merging.merge before ids = .ok (after, merged) ended)
    (settles : merging.Settles before ids) : merging.MergedOnce before after merged := by
  rcases settles with ⟨entries, last, each, behind⟩
  rcases mergeFrom_settled consistent merging.limit.toNat (at_start merging before) each behind
    (merge_ok ran) with ⟨same, stage⟩
  rw [List.nil_append] at stage
  rcases mergeEach_entries each with ⟨names, all⟩
  have short := @matchesFrom_length κ _ merging before.objDb merging.limit.toNat none []
    before.index.elems
  constructor
  · rw [same]
  · intro hit member
    rw [← names] at member
    rcases List.mem_map.mp member with ⟨entry, inside, isHit⟩
    rcases all entry inside with ⟨start, later, changes⟩
    rw [← isHit]
    exact ⟨start, entry.2, later, changes, stage.changed entry inside⟩
  · intro id absent
    apply stage.others
    intro entry inside isId
    apply absent
    rw [← names, ← isId]
    exact List.mem_map_of_mem (List.mem_map_of_mem inside)
  · rw [same]
    unfold countOut
    rw [List.length_map, BitVec.toNat_ofNat]
    exact Nat.mod_eq_of_lt (lt_of_le_of_lt short merging.limit.isLt)

/-- A merge by query merges each match once, and no other object, if the merged objects stay behind
the cursor; with props that have no id only then. -/
theorem merge_once_iff_settles (merging : Merging κ) (before after : KeyedStore κ)
    (merged : List MojString) (ids ended : Ids) (consistent : merging.Consistent before)
    (ran : merging.merge before ids = .ok (after, merged) ended) :
    (merging.Settles before ids → merging.MergedOnce before after merged) ∧
      (merging.props.get idKey = none →
        (merging.MergedOnce before after merged ↔ merging.Settles before ids)) := by
  apply And.intro (mergedOnce_of_settles consistent ran)
  intro noId
  constructor
  · intro onceEach
    have nothing : merging.Passed before [] before := by
      constructor <;>
        · intro entry impossible
          cases impossible
    have nodup : merged.Nodup :=
      onceEach.once.nodup_iff.mpr (matchesFrom_fresh _ _ _ _).1
    exact mergeFrom_once consistent noId merging.limit.toNat (at_start merging before) nothing
      (merge_ok ran) nodup
  · exact mergedOnce_of_settles consistent ran

end Once

section Example

def valKey : MojString := chars "v".toList

def numberKeys (obj : MojObject) : List (Nat ×ₗ MojString) :=
  match obj.get idKey, obj.get valKey with
  | some (.string id), some (.int val) => [toLex (val.toNat, id)]
  | _, _ => []

theorem numberKeys_owns (obj : MojObject) :
    ∀ key ∈ numberKeys obj, obj.get idKey = some (.string (ofLex key).2) := by
  intro key member
  unfold numberKeys at member
  split at member
  · rename_i id val named _
    rw [List.mem_singleton.mp member]
    exact named
  · cases member

def numbered (props : MojObject) : Merging (Nat ×ₗ MojString) where
  keysOf := numberKeys
  idOf key := (ofLex key).2
  owns := numberKeys_owns
  accept _ _ := .ok true
  limit := MojDbQuery.limitDefault
  find := .ok ()
  props := props
  kind _ := ⟨false, [], fun _ _ => none⟩
  storage _ := none

def counterId : MojString := chars "x".toList

def counterAt (id : MojString) (val : MojInt64) : MojObject :=
  .object [(idKey, .string id), (kindKey, .string (chars "Item:1".toList)),
    (revKey, .int 1), (valKey, .int val)]

def indexed (objDb : SortedMap MojString MojObject) : KeyedStore (Nat ×ₗ MojString) where
  objDb := objDb
  index := SortedSet.ofList (objDb.entries.flatMap fun entry => numberKeys entry.2)

def oneCounter : KeyedStore (Nat ×ₗ MojString) :=
  indexed (SortedMap.empty.put counterId (counterAt counterId 1))

def threeCounters : KeyedStore (Nat ×ₗ MojString) :=
  indexed (((SortedMap.empty.put counterId (counterAt counterId 1)).put (chars "y".toList)
    (counterAt (chars "y".toList) 2)).put (chars "w".toList) (counterAt (chars "w".toList) 3))

def openIds : Ids := ⟨⟨some ⟨5, 10⟩, some 10⟩, [], []⟩

def raising : Merging (Nat ×ₗ MojString) := numbered (.object [(valKey, .int 2)])

def lowering : Merging (Nat ×ₗ MojString) := numbered (.object [(valKey, .int 1)])

theorem indexed_consistent (props : MojObject) {objDb : SortedMap MojString MojObject}
    (named : ∀ entry ∈ objDb.entries, entry.2.get idKey = some (.string entry.1)) :
    (numbered props).Consistent (indexed objDb) where
  named id obj found := named (id, obj) ((SortedMap.find_eq_some_iff _ _ _).mp found)
  indexed key := by
    change key ∈ SortedSet.ofList _ ↔ _
    rw [SortedSet.mem_ofList, List.mem_flatMap]
    constructor
    · rintro ⟨⟨id, obj⟩, member, keyed⟩
      have own := numberKeys_owns obj key keyed
      rw [named (id, obj) member, Option.some.injEq, MojObject.string.injEq] at own
      have found := (SortedMap.find_eq_some_iff objDb id obj).mpr member
      exact ⟨obj, (congrArg objDb.find own).symm.trans found, keyed⟩
    · rintro ⟨obj, found, keyed⟩
      exact ⟨(_, obj), (SortedMap.find_eq_some_iff _ _ _).mp found, keyed⟩

def mergedBy (merging : Merging (Nat ×ₗ MojString)) (store : KeyedStore (Nat ×ₗ MojString)) :
    Option (KeyedStore (Nat ×ₗ MojString) × List MojString) :=
  match merging.merge store openIds with
  | .ok done _ => some done
  | .error _ _ => none

theorem mergedBy_some {merging : Merging (Nat ×ₗ MojString)}
    {store : KeyedStore (Nat ×ₗ MojString)} {done : KeyedStore (Nat ×ₗ MojString) × List MojString}
    (ran : mergedBy merging store = some done) :
    ∃ ended, merging.merge store openIds = .ok done ended := by
  unfold mergedBy at ran
  split at ran
  · rename_i got ended success
    cases ran
    exact ⟨ended, success⟩
  · cases ran

/-- One object matches; it is merged and met again where the merge has put it, and the count is two. -/
theorem raising_meets_again :
    raising.Consistent oneCounter ∧ ((raising.found oneCounter).map raising.idAt) = [counterId] ∧
      ∃ after merged ended, raising.merge oneCounter openIds = .ok (after, merged) ended ∧
        merged = [counterId, counterId] ∧ ¬ raising.MergedOnce oneCounter after merged := by
  apply And.intro (indexed_consistent _ (by decide +kernel))
  have matched : (raising.found oneCounter).map raising.idAt = [counterId] := by decide +kernel
  apply And.intro matched
  have ran : (mergedBy raising oneCounter).map Prod.snd = some [counterId, counterId] := by
    decide +kernel
  rcases Option.map_eq_some_iff.mp ran with ⟨done, ran, twice⟩
  rcases mergedBy_some ran with ⟨ended, success⟩
  refine ⟨done.1, done.2, ended, success, twice, ?_⟩
  intro once
  have sizes := once.once.length_eq
  rw [twice, matched] at sizes
  cases sizes

/-- A merge that moves objects behind the cursor meets each of them once. -/
theorem lowering_once :
    ∃ after merged ended, lowering.merge threeCounters openIds = .ok (after, merged) ended ∧
      merged.length = 3 ∧ lowering.MergedOnce threeCounters after merged := by
  have ran : (mergedBy lowering threeCounters).map (fun done => done.2.length) = some 3 := by
    decide +kernel
  rcases Option.map_eq_some_iff.mp ran with ⟨done, ran, three⟩
  rcases mergedBy_some ran with ⟨ended, success⟩
  refine ⟨done.1, done.2, ended, success, three, ?_⟩
  apply (merge_once_iff_settles lowering threeCounters done.1 done.2 openIds ended
    (indexed_consistent _ (by decide +kernel)) success).1
  have stays : (match lowering.mergeEach (lowering.found threeCounters) openIds with
      | .ok entries _ => entries.all fun entry =>
        (numberKeys entry.2.keyed).all fun key => decide (key ≤ entry.1.key)
      | .error _ _ => false) = true := by decide +kernel
  split at stays
  · rename_i entries last each
    refine ⟨entries, last, each, ?_⟩
    intro entry member key owned
    have low := List.all_eq_true.mp (List.all_eq_true.mp stays entry member) key owned
    exact Or.inl (of_decide_eq_true low)
  · cases stays

end Example

end Db8.Db.MojDb.Merging
