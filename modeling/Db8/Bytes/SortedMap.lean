import Db8.Bytes.SortedSet
import Mathlib.Algebra.BigOperators.Group.Finset.Basic
import Mathlib.Algebra.Ring.Int.Defs

/-!
# Maps kept as lists with strictly increasing keys

A map over a linear order of keys, held as its entries in the order of the keys. The order is a
field, so a key occurs once and a walk through the entries needs no side condition. Sums of integer
weights over the entries are related to sums over any list of keys that covers them.
-/

set_option autoImplicit false

namespace Db8.Bytes

structure SortedMap (κ ν : Type*) [LinearOrder κ] where
  entries : List (κ × ν)
  sorted : (entries.map Prod.fst).Pairwise (· < ·)

namespace SortedMap

variable {κ ν : Type*} [LinearOrder κ]

def keys (map : SortedMap κ ν) : List κ := map.entries.map Prod.fst

theorem keys_sorted (map : SortedMap κ ν) : map.keys.Pairwise (· < ·) := map.sorted

theorem keys_nodup (map : SortedMap κ ν) : map.keys.Nodup := map.sorted.imp ne_of_lt

def findEntry (key : κ) : List (κ × ν) → Option ν
  | [] => none
  | (name, val) :: rest => if name = key then some val else findEntry key rest

def find (map : SortedMap κ ν) (key : κ) : Option ν := findEntry key map.entries

def empty : SortedMap κ ν := ⟨[], SortedSet.nil_sorted⟩

@[simp] theorem entries_empty : (empty : SortedMap κ ν).entries = [] := rfl

@[simp] theorem find_empty (key : κ) : (empty : SortedMap κ ν).find key = none := rfl

variable {entries : List (κ × ν)}

theorem findEntry_none {key : κ}
    (absent : key ∉ entries.map Prod.fst) : findEntry key entries = none := by
  induction entries with
  | nil => rfl
  | cons head rest ih =>
    rw [List.map_cons, List.mem_cons, not_or] at absent
    rw [findEntry, if_neg (Ne.symm absent.1), ih absent.2]

theorem findEntry_some {key : κ} {val : ν} {entries : List (κ × ν)}
    (nodup : (entries.map Prod.fst).Nodup) (member : (key, val) ∈ entries) :
    findEntry key entries = some val := by
  induction entries with
  | nil => cases member
  | cons head rest ih =>
    rw [List.map_cons, List.nodup_cons] at nodup
    rw [findEntry]
    rcases List.mem_cons.mp member with same | member
    · rw [← same, if_pos rfl]
    · have other : head.1 ≠ key := by
        intro same
        exact nodup.1 (same ▸ List.mem_map_of_mem member)
      rw [if_neg other, ih nodup.2 member]

theorem findEntry_mem {key : κ} {val : ν}
    (found : findEntry key entries = some val) : (key, val) ∈ entries := by
  induction entries with
  | nil => cases found
  | cons head rest ih =>
    rw [findEntry] at found
    split_ifs at found with same
    · rw [← Option.some.inj found, ← same]
      exact List.mem_cons_self
    · exact List.mem_cons_of_mem head (ih found)

theorem find_eq_some_iff (map : SortedMap κ ν) (key : κ) (val : ν) :
    map.find key = some val ↔ (key, val) ∈ map.entries :=
  ⟨findEntry_mem, findEntry_some map.keys_nodup⟩

theorem find_eq_none_iff (map : SortedMap κ ν) (key : κ) :
    map.find key = none ↔ key ∉ map.keys := by
  constructor
  · intro missing member
    rcases List.mem_map.mp member with ⟨entry, inside, same⟩
    rw [← same, (map.find_eq_some_iff entry.1 entry.2).mpr inside] at missing
    cases missing
  · exact findEntry_none

theorem ext_find {left right : SortedMap κ ν} (same : ∀ key, left.find key = right.find key) :
    left = right := by
  have distinct : ∀ map : SortedMap κ ν, map.entries.Nodup :=
    fun map => List.Nodup.of_map Prod.fst map.keys_nodup
  have perm : left.entries.Perm right.entries := by
    rw [List.perm_ext_iff_of_nodup (distinct left) (distinct right)]
    intro entry
    rw [← left.find_eq_some_iff entry.1 entry.2, same, right.find_eq_some_iff]
  have equal : left.entries = right.entries :=
    perm.eq_of_pairwise (fun _ _ _ _ below above => absurd below (lt_asymm above))
      (List.pairwise_map.mp left.sorted) (List.pairwise_map.mp right.sorted)
  cases left
  cases right
  simpa using equal

def putEntry (key : κ) (val : ν) : List (κ × ν) → List (κ × ν)
  | [] => [(key, val)]
  | (name, old) :: rest =>
    if key < name then (key, val) :: (name, old) :: rest
    else if key = name then (key, val) :: rest
    else (name, old) :: putEntry key val rest

theorem mem_keys_putEntry (key other : κ) (val : ν) (entries : List (κ × ν)) :
    other ∈ (putEntry key val entries).map Prod.fst ↔
      other = key ∨ other ∈ entries.map Prod.fst := by
  induction entries with
  | nil => simp [putEntry]
  | cons head rest ih =>
    rw [putEntry]
    split_ifs with below same
    · simp
    · simp [same]
    · simp only [List.map_cons, List.mem_cons, ih]
      exact or_left_comm

theorem putEntry_sorted (key : κ) (val : ν) (sorted : (entries.map Prod.fst).Pairwise (· < ·)) :
    ((putEntry key val entries).map Prod.fst).Pairwise (· < ·) := by
  induction entries with
  | nil => simp [putEntry]
  | cons head rest ih =>
    have whole := sorted
    rw [List.map_cons, List.pairwise_cons] at sorted
    rw [putEntry]
    split_ifs with below same
    · rw [List.map_cons, List.pairwise_cons]
      apply And.intro _ whole
      intro other member
      rcases List.mem_cons.mp member with first | member
      · exact first ▸ below
      · exact lt_trans below (sorted.1 other member)
    · rw [List.map_cons, List.pairwise_cons]
      exact ⟨same ▸ sorted.1, sorted.2⟩
    · rw [List.map_cons, List.pairwise_cons]
      apply And.intro _ (ih sorted.2)
      intro other member
      rcases (mem_keys_putEntry key other val rest).mp member with new | member
      · exact new ▸ lt_of_le_of_ne (not_lt.mp below) (Ne.symm same)
      · exact sorted.1 other member

def put (map : SortedMap κ ν) (key : κ) (val : ν) : SortedMap κ ν :=
  ⟨putEntry key val map.entries, putEntry_sorted key val map.sorted⟩

theorem findEntry_putEntry (key other : κ) (val : ν) (entries : List (κ × ν)) :
    findEntry other (putEntry key val entries) =
      if key = other then some val else findEntry other entries := by
  induction entries with
  | nil => rfl
  | cons head rest ih =>
    rw [putEntry]
    by_cases below : key < head.1
    · rw [if_pos below, findEntry]
    · rw [if_neg below]
      by_cases same : key = head.1
      · rw [if_pos same, findEntry, findEntry, ← same]
        split_ifs <;> rfl
      · rw [if_neg same, findEntry, findEntry, ih]
        by_cases hit : key = other
        · rw [if_neg (hit ▸ Ne.symm same), if_pos hit, if_pos hit]
        · rw [if_neg hit, if_neg hit]

@[simp] theorem find_put (map : SortedMap κ ν) (key other : κ) (val : ν)
    [Decidable (key = other)] :
    (map.put key val).find other = if key = other then some val else map.find other := by
  have same := findEntry_putEntry key other val map.entries
  split_ifs at same ⊢
  · exact same
  · exact same

variable {map : SortedMap κ ν}

theorem mem_entries_put {key : κ} {val : ν} {entry : κ × ν}
    (member : entry ∈ (map.put key val).entries) : entry = (key, val) ∨ entry ∈ map.entries := by
  have found := ((map.put key val).find_eq_some_iff entry.1 entry.2).mpr member
  rw [find_put] at found
  split_ifs at found with same
  · exact Or.inl (Prod.ext same.symm (Option.some.inj found).symm)
  · exact Or.inr ((map.find_eq_some_iff entry.1 entry.2).mp found)

/-- Putting a key makes it the first match, or leaves the first match as it was. -/
theorem find?_putEntry (hits : κ → Bool) (key : κ) (val : ν) (entries : List (κ × ν)) :
    (putEntry key val entries).find? (fun entry => hits entry.1) = some (key, val) ∨
      (putEntry key val entries).find? (fun entry => hits entry.1) =
        entries.find? fun entry => hits entry.1 := by
  by_cases hit : hits key = true
  · induction entries with
    | nil => simp [putEntry, hit]
    | cons head rest ih =>
      rw [putEntry]
      split_ifs
      · simp [hit]
      · simp [hit]
      · by_cases first : hits head.1 = true
        · simp [first]
        · simpa [first] using ih
  · apply Or.inr
    induction entries with
    | nil => simp [putEntry, hit]
    | cons head rest ih =>
      rw [putEntry]
      split_ifs with below same
      · simp [hit]
      · simp [← same, hit]
      · rw [List.find?_cons, List.find?_cons, ih]

theorem le_of_find? {hits : κ × ν → Bool} {first other : κ × ν}
    (found : map.entries.find? hits = some first) (there : other ∈ map.entries)
    (hit : hits other = true) : first.1 ≤ other.1 := by
  rcases List.find?_eq_some_iff_append.mp found with ⟨_, before, after, split, missed⟩
  have sorted := map.sorted
  rw [split, List.map_append, List.map_cons, List.pairwise_append, List.pairwise_cons] at sorted
  rw [split] at there
  rcases List.mem_append.mp there with early | later
  · have miss := missed other early
    rw [hit] at miss
    cases miss
  · rcases List.mem_cons.mp later with rfl | later
    · exact le_refl _
    · exact le_of_lt (sorted.2.1.1 _ (List.mem_map_of_mem later))

theorem put_put (map : SortedMap κ ν) (key : κ) (first second : ν) :
    (map.put key first).put key second = map.put key second := by
  apply ext_find
  intro other
  simp only [find_put]
  split_ifs <;> rfl

theorem put_comm (map : SortedMap κ ν) {key other : κ} (different : key ≠ other) (first second : ν) :
    (map.put key first).put other second = (map.put other second).put key first := by
  apply ext_find
  intro last
  simp only [find_put]
  split_ifs with behind front
  · exact absurd (front.trans behind.symm) different
  · rfl
  · rfl
  · rfl

theorem put_found {key : κ} {val : ν} (found : map.find key = some val) :
    map.put key val = map := by
  apply ext_find
  intro other
  rw [find_put]
  split_ifs with same
  · rw [← same, found]
  · rfl

theorem mem_keys_put (map : SortedMap κ ν) (key other : κ) (val : ν) :
    other ∈ (map.put key val).keys ↔ other = key ∨ other ∈ map.keys :=
  mem_keys_putEntry key other val map.entries

def modify (map : SortedMap κ ν) (key : κ) (change : ν → ν) : SortedMap κ ν :=
  ⟨map.entries.map fun entry => (entry.1, if entry.1 = key then change entry.2 else entry.2), by
    rw [List.map_map]
    exact map.sorted⟩

@[simp] theorem keys_modify (map : SortedMap κ ν) (key : κ) (change : ν → ν) :
    (map.modify key change).keys = map.keys :=
  List.map_map

theorem findEntry_map (key : κ) (change : κ → ν → ν) (entries : List (κ × ν)) :
    findEntry key (entries.map fun entry => (entry.1, change entry.1 entry.2)) =
      (findEntry key entries).map (change key) := by
  induction entries with
  | nil => rfl
  | cons head rest ih =>
    rw [List.map_cons, findEntry, findEntry, ih]
    split_ifs with same
    · rw [same]
      rfl
    · rfl

@[simp] theorem find_modify (map : SortedMap κ ν) (key other : κ) (change : ν → ν)
    [Decidable (key = other)] :
    (map.modify key change).find other =
      if key = other then (map.find other).map change else map.find other := by
  have general := findEntry_map other (fun name val => if name = key then change val else val)
    map.entries
  unfold find modify
  rw [general]
  by_cases same : key = other
  · rw [if_pos same]
    simp only [same, if_true]
  · rw [if_neg same]
    simp only [Ne.symm same, if_false]
    exact Option.map_id'

def del (map : SortedMap κ ν) (key : κ) : SortedMap κ ν :=
  ⟨map.entries.filter fun entry => decide (entry.1 ≠ key),
    map.sorted.sublist (List.filter_sublist.map Prod.fst)⟩

theorem entries_del {front rest : List (κ × ν)} {entry : κ × ν}
    (split : map.entries = front ++ entry :: rest) : (map.del entry.1).entries = front ++ rest := by
  have nodup := map.keys_nodup
  unfold keys at nodup
  rw [split, List.map_append, List.map_cons, List.nodup_append, List.nodup_cons] at nodup
  have kept : ∀ list : List (κ × ν), entry.1 ∉ list.map Prod.fst →
      list.filter (fun other => decide (other.1 ≠ entry.1)) = list := by
    intro list absent
    apply List.filter_eq_self.mpr
    intro other member
    apply decide_eq_true
    intro same
    exact absent (same ▸ List.mem_map_of_mem member)
  have inFront : entry.1 ∉ front.map Prod.fst := fun member =>
    nodup.2.2 _ member _ List.mem_cons_self rfl
  unfold del
  dsimp only
  rw [split, List.filter_append, List.filter_cons, if_neg (by simp), kept front inFront,
    kept rest nodup.2.1.1]

theorem mem_keys_del (map : SortedMap κ ν) (key other : κ) :
    other ∈ (map.del key).keys ↔ other ∈ map.keys ∧ other ≠ key := by
  constructor
  · intro member
    rcases List.mem_map.mp member with ⟨entry, inside, rfl⟩
    rcases List.mem_filter.mp inside with ⟨inside, different⟩
    exact ⟨List.mem_map_of_mem inside, of_decide_eq_true different⟩
  · rintro ⟨member, different⟩
    rcases List.mem_map.mp member with ⟨entry, inside, rfl⟩
    exact List.mem_map_of_mem (List.mem_filter.mpr ⟨inside, decide_eq_true different⟩)

theorem find_del (map : SortedMap κ ν) (key other : κ) [Decidable (key = other)] :
    (map.del key).find other = if key = other then none else map.find other := by
  split_ifs with same
  · rw [find_eq_none_iff]
    intro member
    rcases List.mem_map.mp member with ⟨entry, inside, named⟩
    have kept := (List.mem_filter.mp inside).2
    rw [named, same] at kept
    simp at kept
  · apply Option.ext
    intro val
    rw [find_eq_some_iff, find_eq_some_iff]
    unfold del
    rw [List.mem_filter]
    simp [Ne.symm same]

section Rebase

variable [DecidableEq ν]

/-- What a map has changed since another one, done to a third. -/
def rebase (base view stored : SortedMap κ ν) : SortedMap κ ν :=
  (base.keys ++ view.keys).foldl (fun map key =>
    if view.find key = base.find key then map
    else
      match view.find key with
      | some val => map.put key val
      | none => map.del key) stored

theorem find_rebase (base view stored : SortedMap κ ν) (key : κ) :
    (rebase base view stored).find key =
      if view.find key = base.find key then stored.find key else view.find key := by
  have walk : ∀ keys : List κ, ∀ map : SortedMap κ ν,
      (keys.foldl (fun map key =>
        if view.find key = base.find key then map
        else
          match view.find key with
          | some val => map.put key val
          | none => map.del key) map).find key =
        if view.find key ≠ base.find key ∧ key ∈ keys then view.find key else map.find key := by
    intro keys
    induction keys with
    | nil =>
      intro map
      simp
    | cons head rest ih =>
      intro map
      rw [List.foldl_cons, ih]
      by_cases later : view.find key ≠ base.find key ∧ key ∈ rest
      · rw [if_pos later, if_pos ⟨later.1, List.mem_cons_of_mem head later.2⟩]
      · rw [if_neg later]
        by_cases here : head = key
        · rw [here]
          by_cases same : view.find key = base.find key
          · simp [same]
          · rw [if_neg same, if_pos ⟨same, List.mem_cons_self⟩]
            cases found : view.find key <;> simp [find_del]
        · have elsewhere : ¬ (view.find key ≠ base.find key ∧ key ∈ head :: rest) := by
            intro both
            rcases List.mem_cons.mp both.2 with first | member
            · exact here first.symm
            · exact later ⟨both.1, member⟩
          rw [if_neg elsewhere]
          split_ifs
          · rfl
          · cases found : view.find head <;> simp [find_del, here]
  unfold rebase
  rw [walk]
  by_cases same : view.find key = base.find key
  · rw [if_pos same, if_neg fun both => both.1 same]
  · rw [if_neg same]
    apply if_pos
    apply And.intro same
    by_contra absent
    rw [List.mem_append, not_or, ← find_eq_none_iff, ← find_eq_none_iff] at absent
    exact same (absent.2.trans absent.1.symm)

end Rebase

def mapVals (map : SortedMap κ ν) (change : ν → ν) : SortedMap κ ν :=
  ⟨map.entries.map fun entry => (entry.1, change entry.2), by
    rw [List.map_map]
    exact map.sorted⟩

@[simp] theorem keys_mapVals (map : SortedMap κ ν) (change : ν → ν) :
    (map.mapVals change).keys = map.keys :=
  List.map_map

@[simp] theorem find_mapVals (map : SortedMap κ ν) (key : κ) (change : ν → ν) :
    (map.mapVals change).find key = (map.find key).map change :=
  findEntry_map key (fun _ => change) map.entries

section Sums

/-- A list of keys that covers an entry list gives the same sum of weights. -/
theorem sum_entries (weight : κ → ν → Int) (entries : List (κ × ν)) (keys : List κ)
    (distinct : (entries.map Prod.fst).Nodup) (nodup : keys.Nodup)
    (covered : ∀ key ∈ entries.map Prod.fst, key ∈ keys) :
    (entries.map fun entry => weight entry.1 entry.2).sum =
      (keys.map fun key => (findEntry key entries).elim 0 (weight key)).sum := by
  have pick : ∀ entry ∈ entries,
      weight entry.1 entry.2 = (findEntry entry.1 entries).elim 0 (weight entry.1) := by
    intro entry member
    rw [@findEntry_some _ _ _ entry.1 entry.2 entries distinct member]
    rfl
  rw [List.map_congr_left pick]
  have front : (entries.map fun entry => (findEntry entry.1 entries).elim 0 (weight entry.1)) =
      (entries.map Prod.fst).map fun key => (findEntry key entries).elim 0 (weight key) := by
    rw [List.map_map]
    rfl
  rw [front, ← List.sum_toFinset _ distinct, ← List.sum_toFinset _ nodup]
  apply Finset.sum_subset
  · intro key member
    rw [List.mem_toFinset] at member ⊢
    exact covered key member
  · intro key _ absent
    rw [List.mem_toFinset] at absent
    rw [findEntry_none absent]
    rfl

end Sums

end SortedMap

end Db8.Bytes
