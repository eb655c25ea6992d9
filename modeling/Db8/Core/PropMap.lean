import Db8.Core.Codec

/-!
# Property maps

What the maps of properties keep: their names stay in order under every operation, a lookup finds
what stands in the map, and a map is determined by what is found in it. A builder that is given the
properties in any order puts them into such a map.
-/

set_option autoImplicit false

namespace Db8.Core

open Db8.Bytes

namespace MojObject

def Sorted (props : List (MojString × MojObject)) : Prop :=
  (props.map fun prop => prop.1.map Subtype.val).Pairwise (· < ·)

theorem sorted_nil : Sorted [] := List.Pairwise.nil

variable {props : List (MojString × MojObject)} {val : MojObject}

theorem sorted_cons {name : MojString} :
    Sorted ((name, val) :: props) ↔
      (∀ prop ∈ props, name.map Subtype.val < prop.1.map Subtype.val) ∧ Sorted props := by
  unfold Sorted
  rw [List.map_cons, List.pairwise_cons, List.forall_mem_map]

theorem wellFormedProps_iff (props : List (MojString × MojObject)) :
    WellFormedProps props ↔ ∀ prop ∈ props, prop.2.WellFormed := by
  induction props with
  | nil => simp [WellFormedProps]
  | cons head props ih =>
    rcases head with ⟨name, val⟩
    rw [WellFormedProps, ih, List.forall_mem_cons]

theorem wellFormedVals_iff (vals : List MojObject) :
    WellFormedVals vals ↔ ∀ val ∈ vals, val.WellFormed := by
  induction vals with
  | nil => simp [WellFormedVals]
  | cons val vals ih => rw [WellFormedVals, ih, List.forall_mem_cons]

theorem names_lt_or {left right : MojString} (apart : left ≠ right)
    (above : ¬ left.map Subtype.val < right.map Subtype.val) :
    right.map Subtype.val < left.map Subtype.val := by
  have words : left.map Subtype.val ≠ right.map Subtype.val :=
    fun same => apart (Subtype.val_injective.list_map same)
  exact lt_of_le_of_ne (not_lt.mp above) (Ne.symm words)

variable {key : MojString}

theorem mem_putProp {prop : MojString × MojObject} (member : prop ∈ putProp key val props) :
    prop = (key, val) ∨ prop ∈ props := by
  induction props with
  | nil => exact Or.inl (List.mem_singleton.mp member)
  | cons head props ih =>
    rcases head with ⟨name, other⟩
    rw [putProp] at member
    split_ifs at member with same below
    · rcases List.mem_cons.mp member with here | there
      · exact Or.inl here
      · exact Or.inr (List.mem_cons_of_mem _ there)
    · rcases List.mem_cons.mp member with here | there
      · exact Or.inr (here ▸ List.mem_cons_self)
      · rcases ih there with added | kept
        · exact Or.inl added
        · exact Or.inr (List.mem_cons_of_mem _ kept)
    · exact List.mem_cons.mp member

theorem sorted_putProp (sorted : Sorted props) (key : MojString)
    (val : MojObject) : Sorted (putProp key val props) := by
  induction props with
  | nil => exact List.pairwise_singleton _ _
  | cons head props ih =>
    rcases head with ⟨name, other⟩
    rcases sorted_cons.mp sorted with ⟨first, rest⟩
    rw [putProp]
    split_ifs with same below
    · exact sorted_cons.mpr ⟨same ▸ first, rest⟩
    · apply sorted_cons.mpr
      constructor
      · intro prop member
        rcases mem_putProp member with rfl | kept
        · exact below
        · exact first prop kept
      · exact ih rest
    · have before := names_lt_or same below
      apply sorted_cons.mpr
      constructor
      · intro prop member
        rcases List.mem_cons.mp member with rfl | kept
        · exact before
        · exact lt_trans before (first prop kept)
      · exact sorted

theorem sorted_filter (sorted : Sorted props)
    (keep : MojString × MojObject → Bool) : Sorted (props.filter keep) :=
  List.Pairwise.sublist (List.filter_sublist.map _) sorted

@[simp] theorem find_nil (key : MojString) : find [] key = none := rfl

theorem find_cons (name : MojString) (val : MojObject) (props : List (MojString × MojObject))
    (key : MojString) :
    find ((name, val) :: props) key = if name = key then some val else find props key := by
  unfold find
  rw [List.find?_cons]
  by_cases same : name = key <;> simp [same]

theorem mem_of_find (found : find props key = some val) : (key, val) ∈ props := by
  induction props with
  | nil => cases found
  | cons head props ih =>
    rcases head with ⟨name, other⟩
    rw [find_cons] at found
    split_ifs at found with same
    · cases found
      rw [same]
      exact List.mem_cons_self
    · exact List.mem_cons_of_mem _ (ih found)

theorem sorted_names_nodup (sorted : Sorted props) : (props.map Prod.fst).Nodup := by
  rw [List.Nodup, List.pairwise_map]
  apply (List.pairwise_map.mp sorted).imp
  intro first second below same
  rw [same] at below
  exact lt_irrefl _ below

theorem find_eq_some_iff
    (nodup : (props.map Prod.fst).Nodup) : find props key = some val ↔ (key, val) ∈ props := by
  refine ⟨mem_of_find, ?_⟩
  intro member
  induction props with
  | nil => cases member
  | cons head props ih =>
    rcases head with ⟨name, other⟩
    rcases List.nodup_cons.mp nodup with ⟨once, rest⟩
    rw [find_cons]
    rcases List.mem_cons.mp member with here | there
    · cases here
      exact if_pos rfl
    · have known : key ∈ props.map Prod.fst := List.mem_map_of_mem there
      have apart : name ≠ key := fun same => once (same ▸ known)
      rw [if_neg apart, ih rest there]

theorem find_of_mem (sorted : Sorted props) (member : (key, val) ∈ props) :
    find props key = some val :=
  (find_eq_some_iff (sorted_names_nodup sorted)).mpr member

theorem eq_of_find_eq {left right : List (MojString × MojObject)} (leftSorted : Sorted left)
    (rightSorted : Sorted right) (same : ∀ key, find left key = find right key) : left = right := by
  have nodup : ∀ {props : List (MojString × MojObject)}, Sorted props → props.Nodup := by
    intro props sorted
    apply (List.pairwise_map.mp sorted).imp
    rintro first second below rfl
    exact lt_irrefl _ below
  apply List.Perm.eq_of_pairwise _ (List.pairwise_map.mp leftSorted) (List.pairwise_map.mp rightSorted)
  · apply (List.perm_ext_iff_of_nodup (nodup leftSorted) (nodup rightSorted)).mpr
    rintro ⟨key, val⟩
    constructor
    · intro member
      exact mem_of_find ((same key).symm.trans (find_of_mem leftSorted member))
    · intro member
      exact mem_of_find ((same key).trans (find_of_mem rightSorted member))
  · intro a b _ _ below above
    exact absurd (lt_trans below above) (lt_irrefl _)

theorem length_putProp (absent : find props key = none) (val : MojObject) :
    (putProp key val props).length = props.length + 1 := by
  induction props with
  | nil => rfl
  | cons head props ih =>
    rcases head with ⟨name, other⟩
    rw [find_cons] at absent
    split_ifs at absent with same
    rw [putProp, if_neg same]
    split_ifs
    · rw [List.length_cons, ih absent, List.length_cons]
    · rfl

end MojObject

/-! ### The builder over properties in any order -/

namespace MojObjectBuilder

open MojObject

def putAll (props done : List (MojString × MojObject)) : List (MojString × MojObject) :=
  props.foldl (fun done prop => putProp prop.1 prop.2 done) done

def propCalls (props : List (MojString × MojObject)) : List VisitorCall :=
  props.flatMap fun prop => .propName prop.1 :: prop.2.visits

variable (props : List (MojString × MojObject))

theorem visitsProps_eq : visitsProps props = propCalls props ++ [VisitorCall.endObject] := by
  induction props with
  | nil => rfl
  | cons head props ih =>
    rcases head with ⟨name, val⟩
    rw [visitsProps, ih, propCalls, propCalls, List.flatMap_cons]
    simp only [List.cons_append, List.append_assoc]

theorem foldlM_propCalls (wellFormed : ∀ prop ∈ props, prop.2.WellFormed)
    (done : List (MojString × MojObject)) (obj : Option MojObject) (outer name : MojString) :
    ∃ last,
      (propCalls props).foldlM visit ⟨obj, [(.object done, outer)], name⟩ =
        .ok ⟨obj, [(.object (putAll props done), outer)], last⟩ := by
  induction props generalizing done name with
  | nil => exact ⟨name, rfl⟩
  | cons head props ih =>
    rcases head with ⟨first, val⟩
    rcases ih (fun prop member => wellFormed prop (List.mem_cons_of_mem _ member))
      (putProp first val done) first with ⟨last, rest⟩
    apply Exists.intro last
    have added : val.visits.foldlM visit ⟨obj, [(.object done, outer)], first⟩ =
        .ok ⟨obj, [(.object (putProp first val done), outer)], first⟩ := by
      rw [foldlM_visits val (wellFormed _ List.mem_cons_self)]
      rfl
    rw [propCalls, List.flatMap_cons, List.foldlM_append, List.foldlM_cons]
    change (val.visits.foldlM visit ⟨obj, [(.object done, outer)], first⟩ >>= fun builder =>
      (propCalls props).foldlM visit builder) = _
    rw [added]
    exact rest

theorem foldlM_object (wellFormed : ∀ prop ∈ props, prop.2.WellFormed) :
    (.beginObject :: (propCalls props ++ [.endObject])).foldlM visit empty =
      .ok ⟨some (.object (putAll props [])), [], []⟩ := by
  rcases foldlM_propCalls props wellFormed [] none [] [] with ⟨last, run⟩
  rw [List.foldlM_cons]
  change ((propCalls props ++ [VisitorCall.endObject]).foldlM visit ⟨none, [(.object [], [])], []⟩) = _
  rw [List.foldlM_append, run]
  rfl

theorem sorted_putAll {done : List (MojString × MojObject)}
    (sorted : Sorted done) : Sorted (putAll props done) := by
  induction props generalizing done with
  | nil => exact sorted
  | cons head props ih => exact ih (sorted_putProp sorted head.1 head.2)

theorem find_putAll_of_nodup {props : List (MojString × MojObject)}
    (nodup : (props.map Prod.fst).Nodup) (done : List (MojString × MojObject)) (key : MojString) :
    find (putAll props done) key = (find props key).or (find done key) := by
  induction props generalizing done with
  | nil => rfl
  | cons head props ih =>
    rcases head with ⟨name, val⟩
    rcases List.nodup_cons.mp nodup with ⟨once, rest⟩
    rw [putAll, List.foldl_cons]
    change find (putAll props (putProp name val done)) key = _
    rw [ih rest, find_putProp, find_cons]
    by_cases same : name = key
    · have gone : find props key = none := by
        cases found : find props key with
        | none => rfl
        | some other =>
          have known : key ∈ props.map Prod.fst := List.mem_map_of_mem (mem_of_find found)
          exact absurd (same ▸ known) once
      rw [if_pos same, if_pos same, gone]
      rfl
    · rw [if_neg same, if_neg same]

theorem find_putAll {props : List (MojString × MojObject)} (sorted : Sorted props)
    (done : List (MojString × MojObject)) (key : MojString) :
    find (putAll props done) key = (find props key).or (find done key) :=
  find_putAll_of_nodup (sorted_names_nodup sorted) done key

theorem putAll_perm {props map : List (MojString × MojObject)} (sorted : Sorted map)
    (perm : props.Perm map) : putAll props [] = map := by
  have nodup : (props.map Prod.fst).Nodup :=
    (perm.map Prod.fst).nodup_iff.mpr (sorted_names_nodup sorted)
  apply eq_of_find_eq (sorted_putAll props sorted_nil) sorted
  intro key
  rw [find_putAll_of_nodup nodup, find_nil, Option.or_none]
  apply Option.ext
  intro val
  rw [find_eq_some_iff nodup, find_eq_some_iff (sorted_names_nodup sorted), perm.mem_iff]

end MojObjectBuilder

end Db8.Core
