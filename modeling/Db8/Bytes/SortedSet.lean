import Mathlib.Data.List.Lex
import Mathlib.Data.List.Sort
import Mathlib.Data.List.Pairwise

/-!
# Sets kept as strictly increasing lists

A set over a linear order, held as its elements in increasing order. The order is a field, so two
sets with the same members are equal and iteration order needs no side condition.
-/

set_option autoImplicit false

namespace Db8.Bytes

structure SortedSet (α : Type*) [LinearOrder α] where
  elems : List α
  sorted : elems.Pairwise (· < ·)

namespace SortedSet

variable {α : Type*} [LinearOrder α]

instance : Membership α (SortedSet α) where
  mem set value := value ∈ set.elems

theorem mem_def (set : SortedSet α) (value : α) : value ∈ set ↔ value ∈ set.elems := Iff.rfl

instance (set : SortedSet α) (value : α) : Decidable (value ∈ set) :=
  inferInstanceAs (Decidable (value ∈ set.elems))

instance : DecidableEq (SortedSet α) := fun left right =>
  decidable_of_iff (left.elems = right.elems) (by
    cases left
    cases right
    simp)

theorem nodup (set : SortedSet α) : set.elems.Nodup :=
  set.sorted.imp ne_of_lt

theorem elems_injective {left right : SortedSet α} (same : left.elems = right.elems) :
    left = right := by
  cases left
  cases right
  simpa using same

theorem list_eq_of_mem_iff {left right : List α} (leftSorted : left.Pairwise (· < ·))
    (rightSorted : right.Pairwise (· < ·)) (same : ∀ value, value ∈ left ↔ value ∈ right) :
    left = right := by
  have perm : left.Perm right :=
    (List.perm_ext_iff_of_nodup (leftSorted.imp ne_of_lt) (rightSorted.imp ne_of_lt)).mpr same
  exact perm.eq_of_pairwise (fun _ _ _ _ below above => absurd below (lt_asymm above))
    leftSorted rightSorted

@[ext] theorem ext {left right : SortedSet α} (same : ∀ value, value ∈ left ↔ value ∈ right) :
    left = right :=
  elems_injective (list_eq_of_mem_iff left.sorted right.sorted same)

theorem nil_sorted : ([] : List α).Pairwise (· < ·) := List.Pairwise.nil

def empty : SortedSet α := ⟨[], nil_sorted⟩

@[simp] theorem elems_empty : (empty : SortedSet α).elems = [] := rfl

@[simp] theorem not_mem_empty (value : α) : value ∉ (empty : SortedSet α) := List.not_mem_nil

def insertSorted (value : α) : List α → List α
  | [] => [value]
  | head :: tail =>
    if value < head then value :: head :: tail
    else if value = head then head :: tail
    else head :: insertSorted value tail

theorem mem_insertSorted (value other : α) (values : List α) :
    other ∈ insertSorted value values ↔ other = value ∨ other ∈ values := by
  induction values with
  | nil => simp [insertSorted]
  | cons head tail ih =>
    rw [insertSorted]
    split_ifs with below same
    · simp
    · subst same
      simp
    · simp only [List.mem_cons, ih]
      exact or_left_comm

theorem insertSorted_sorted (value : α) {values : List α} (sorted : values.Pairwise (· < ·)) :
    (insertSorted value values).Pairwise (· < ·) := by
  induction values with
  | nil => simp [insertSorted]
  | cons head tail ih =>
    obtain ⟨headBelow, tailSorted⟩ := List.pairwise_cons.mp sorted
    rw [insertSorted]
    split_ifs with below same
    · refine List.pairwise_cons.mpr ⟨?_, sorted⟩
      intro other member
      rcases List.mem_cons.mp member with rfl | member
      · exact below
      · exact lt_trans below (headBelow other member)
    · exact sorted
    · refine List.pairwise_cons.mpr ⟨?_, ih tailSorted⟩
      intro other member
      rcases (mem_insertSorted value other tail).mp member with rfl | member
      · exact lt_of_le_of_ne (not_lt.mp below) (Ne.symm same)
      · exact headBelow other member

def put (set : SortedSet α) (value : α) : SortedSet α :=
  ⟨insertSorted value set.elems, insertSorted_sorted value set.sorted⟩

@[simp] theorem mem_put (set : SortedSet α) (value other : α) :
    other ∈ set.put value ↔ other = value ∨ other ∈ set :=
  mem_insertSorted value other set.elems

def keep (set : SortedSet α) (accepts : α → Bool) : SortedSet α :=
  ⟨set.elems.filter accepts, set.sorted.filter accepts⟩

@[simp] theorem mem_keep (set : SortedSet α) (accepts : α → Bool) (value : α) :
    value ∈ set.keep accepts ↔ value ∈ set ∧ accepts value = true :=
  List.mem_filter

def del (set : SortedSet α) (value : α) : SortedSet α :=
  set.keep (fun other => decide (other ≠ value))

@[simp] theorem mem_del (set : SortedSet α) (value other : α) :
    other ∈ set.del value ↔ other ∈ set ∧ other ≠ value := by
  simp [del]

def putAll (set : SortedSet α) (values : List α) : SortedSet α :=
  values.foldl put set

@[simp] theorem mem_putAll (set : SortedSet α) (values : List α) (other : α) :
    other ∈ set.putAll values ↔ other ∈ values ∨ other ∈ set := by
  unfold putAll
  induction values generalizing set with
  | nil => simp
  | cons head tail ih =>
    rw [List.foldl_cons, ih, mem_put, List.mem_cons]
    exact or_left_comm.trans or_assoc.symm

def delAll (set : SortedSet α) (values : List α) : SortedSet α :=
  values.foldl del set

@[simp] theorem mem_delAll (set : SortedSet α) (values : List α) (other : α) :
    other ∈ set.delAll values ↔ other ∈ set ∧ other ∉ values := by
  unfold delAll
  induction values generalizing set with
  | nil => simp
  | cons head tail ih =>
    rw [List.foldl_cons, ih, mem_del, List.mem_cons, not_or, and_assoc]

def ofList (values : List α) : SortedSet α := empty.putAll values

@[simp] theorem mem_ofList (values : List α) (other : α) :
    other ∈ ofList values ↔ other ∈ values := by
  simp [ofList]

def single (value : α) : SortedSet α := ⟨[value], List.pairwise_singleton _ _⟩

@[simp] theorem mem_single (value other : α) : other ∈ single value ↔ other = value :=
  List.mem_singleton

@[simp] theorem elems_single (value : α) : (single value).elems = [value] := rfl

def diff (left right : SortedSet α) : SortedSet α :=
  left.keep (fun value => decide (value ∉ right))

@[simp] theorem mem_diff (left right : SortedSet α) (value : α) :
    value ∈ left.diff right ↔ value ∈ left ∧ value ∉ right := by
  simp [diff]

def union (left right : SortedSet α) : SortedSet α := left.putAll right.elems

@[simp] theorem mem_union (left right : SortedSet α) (value : α) :
    value ∈ left.union right ↔ value ∈ left ∨ value ∈ right := by
  rw [union, mem_putAll, or_comm, mem_def right]

end SortedSet

end Db8.Bytes
