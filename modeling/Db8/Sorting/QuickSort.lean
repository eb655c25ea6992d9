import Mathlib.Data.List.Sort
import Mathlib.Algebra.BigOperators.Group.List.Defs
import Mathlib.Data.List.Perm.Basic

/-!
# Quick sort by swaps

Sorting a stretch of an array in place: a pivot chosen anywhere is moved to the end, what is less
than it is swapped to the front, and both sides are sorted in turn. The stretch is a list, and comes
with the index it begins at, which the choice of pivots may depend on. Any choice gives a sorted
permutation.
-/

set_option autoImplicit false

namespace Db8.Sorting

variable {α : Type*}

section Algorithm

variable (less : α → α → Bool)

/-- What is less than the element at `last` is swapped to the front, where `mid` are so far. -/
def partitionLoop (last : Nat) : Nat → Nat → Nat → List α → Nat × List α
  | 0, _, mid, array => (mid, array)
  | turns + 1, i, mid, array =>
    match array[i]?, array[last]? with
    | some elem, some pivot =>
      if less elem pivot then partitionLoop last turns (i + 1) (mid + 1) (array.swap i mid)
      else partitionLoop last turns (i + 1) mid array
    | _, _ => (mid, array)

/-- The pivot is `left` plus a number taken modulo the length. -/
def partition (choose : Nat → Nat) (left : Nat) (array : List α) : Nat × List α :=
  let last := array.length - 1
  let parted := partitionLoop less last last 0 0 (array.swap (choose left % array.length) last)
  (parted.1, parted.2.swap parted.1 last)

def quickSortImpl (choose : Nat → Nat) : Nat → Nat → List α → List α
  | 0, _, array => array
  | turns + 1, left, array =>
    if array.length ≤ 1 then array
    else
      let parted := partition less choose left array
      quickSortImpl choose turns left (parted.2.take parted.1) ++
        (parted.2.drop parted.1).take 1 ++
        quickSortImpl choose turns (left + parted.1 + 1) (parted.2.drop (parted.1 + 1))

def quickSort (choose : Nat → Nat) (array : List α) : List α :=
  quickSortImpl less choose array.length 0 array

end Algorithm

theorem getElem?_swap {array : List α} {i j : Nat} (iThere : i < array.length)
    (jThere : j < array.length) (k : Nat) :
    (array.swap i j)[k]? =
      if k = i then array[j]? else if k = j then array[i]? else array[k]? := by
  rw [List.swap_eq_of_lt iThere jThere, List.getElem?_set, List.getElem?_set, List.length_set]
  by_cases atJ : j = k
  · subst atJ
    rw [if_pos rfl, if_pos jThere, if_pos rfl, List.getElem?_eq_getElem iThere]
    split_ifs with same
    · subst same
      rw [List.getElem?_eq_getElem iThere]
    · rfl
  · rw [if_neg atJ, if_neg (Ne.symm atJ)]
    by_cases atI : i = k
    · subst atI
      rw [if_pos rfl, if_pos iThere, if_pos rfl, List.getElem?_eq_getElem jThere]
    · rw [if_neg atI, if_neg (Ne.symm atI)]

section Partition

variable {less : α → α → Bool}

/-- The array while elements before `i` have been compared with the pivot at its end. -/
structure Parting (less : α → α → Bool) (pivot : α) (array : List α) (i mid : Nat) : Prop where
  mid_le : mid ≤ i
  before_last : i < array.length
  last : array[array.length - 1]? = some pivot
  small : ∀ k < mid, ∀ elem ∈ array[k]?, less elem pivot = true
  large : ∀ k, mid ≤ k → k < i → ∀ elem ∈ array[k]?, less elem pivot = false

theorem Parting.step_less {pivot : α} {array : List α} {i mid : Nat}
    (parting : Parting less pivot array i mid) (more : i + 1 < array.length) {elem : α}
    (there : array[i]? = some elem) (below : less elem pivot = true) :
    Parting less pivot (array.swap i mid) (i + 1) (mid + 1) := by
  have midThere : mid < array.length := lt_of_le_of_lt parting.mid_le parting.before_last
  have look := getElem?_swap parting.before_last midThere
  have notLater := parting.mid_le
  refine ⟨Nat.succ_le_succ parting.mid_le, by rwa [List.length_swap], ?_, ?_, ?_⟩
  · rw [List.length_swap, look, if_neg (by omega), if_neg (by omega)]
    exact parting.last
  · intro k early other found
    rw [look] at found
    split_ifs at found with atI atMid
    · have same : mid = i := by omega
      rw [same, there] at found
      rw [← Option.some.inj found]
      exact below
    · rw [there] at found
      rw [← Option.some.inj found]
      exact below
    · exact parting.small k (by omega) other found
  · intro k late early other found
    rw [look] at found
    split_ifs at found with atI atMid
    · exact parting.large mid (Nat.le_refl mid) (by omega) other found
    · omega
    · exact parting.large k (by omega) (by omega) other found

theorem Parting.step_not_less {pivot : α} {array : List α} {i mid : Nat}
    (parting : Parting less pivot array i mid) (more : i + 1 < array.length) {elem : α}
    (there : array[i]? = some elem) (above : less elem pivot = false) :
    Parting less pivot array (i + 1) mid := by
  refine ⟨Nat.le_succ_of_le parting.mid_le, more, parting.last, parting.small, ?_⟩
  intro k late early other found
  rcases Nat.lt_succ_iff_lt_or_eq.mp early with before | rfl
  · exact parting.large k late before other found
  · rw [there] at found
    rw [← Option.some.inj found]
    exact above

theorem partitionLoop_parts {pivot : α} (turns : Nat) {array : List α} {i mid : Nat}
    (parting : Parting less pivot array i mid) (bound : i + turns = array.length - 1) :
    let parted := partitionLoop less (array.length - 1) turns i mid array
    parted.2.Perm array ∧ Parting less pivot parted.2 (array.length - 1) parted.1 := by
  induction turns generalizing array i mid with
  | zero =>
    rw [Nat.add_zero] at bound
    rw [partitionLoop, ← bound]
    exact ⟨List.Perm.refl array, parting⟩
  | succ turns ih =>
    have inside := parting.before_last
    have there : array[i]? = some array[i] := List.getElem?_eq_getElem inside
    rw [partitionLoop]
    simp only [there, parting.last]
    split_ifs with below
    · have next := ih (parting.step_less (by omega) there below)
        (by rw [List.length_swap]; omega)
      simp only [List.length_swap] at next
      exact ⟨next.1.trans (List.swap_perm array i mid), next.2⟩
    · exact ih (parting.step_not_less (by omega) there (Bool.eq_false_iff.mpr below)) (by omega)

theorem partition_parts (choose : Nat → Nat) (left : Nat) {array : List α} (some_ : array ≠ []) :
    ∃ front pivot back, (partition less choose left array).2 = front ++ pivot :: back ∧
      front.length = (partition less choose left array).1 ∧
      (front ++ pivot :: back).Perm array ∧
      (∀ elem ∈ front, less elem pivot = true) ∧ ∀ elem ∈ back, less elem pivot = false := by
  have positive : 0 < array.length := List.length_pos_of_ne_nil some_
  have inside : choose left % array.length < array.length := Nat.mod_lt _ positive
  have moved : ∃ pivot, Parting less pivot
      (array.swap (choose left % array.length) (array.length - 1)) 0 0 := by
    refine ⟨array[choose left % array.length], Nat.le_refl 0,
      by rwa [List.length_swap], ?_, ?_, ?_⟩
    · rw [List.length_swap, List.getElem?_eq_getElem (by rw [List.length_swap]; omega),
        List.getElem_swap_right]
      rw [dif_pos inside]
    · intro k impossible
      omega
    · intro k _ impossible
      omega
  rcases moved with ⟨pivot, start⟩
  have parted := partitionLoop_parts (array.length - 1) start (by simp [List.length_swap])
  simp only [List.length_swap] at parted
  rcases parted with ⟨perm, parting⟩
  have whole := perm.trans (List.swap_perm array _ _)
  unfold partition
  simp only []
  generalize partitionLoop less (array.length - 1) (array.length - 1) 0 0
    (array.swap (choose left % array.length) (array.length - 1)) = parted at *
  rcases parted with ⟨mid, moved⟩
  have size : moved.length = array.length := whole.length_eq
  have midLe : mid ≤ array.length - 1 := parting.mid_le
  have midThere : mid < moved.length := by omega
  have lastThere : array.length - 1 < moved.length := by omega
  have look := getElem?_swap midThere lastThere
  have swapped := List.swap_perm moved mid (array.length - 1)
  have lastIs : moved[array.length - 1]? = some pivot := by
    rw [← size]
    exact parting.last
  simp only at look swapped ⊢
  have split : moved.swap mid (array.length - 1) =
      (moved.swap mid (array.length - 1)).take mid ++ pivot ::
        (moved.swap mid (array.length - 1)).drop (mid + 1) := by
    have there : mid < (moved.swap mid (array.length - 1)).length := by rwa [List.length_swap]
    have here : (moved.swap mid (array.length - 1))[mid] = pivot := by
      have found := look mid
      rw [if_pos rfl, lastIs, List.getElem?_eq_getElem there] at found
      exact Option.some.inj found
    rw [← here, ← List.drop_eq_getElem_cons there, List.take_append_drop]
  refine ⟨_, pivot, _, split, ?_, ?_, ?_, ?_⟩
  · rw [List.length_take, List.length_swap]
    omega
  · rw [← split]
    exact swapped.trans whole
  · intro elem member
    rcases List.mem_iff_getElem?.mp member with ⟨k, found⟩
    rw [List.getElem?_take] at found
    split_ifs at found with early
    rw [look, if_neg (by omega), if_neg (by omega)] at found
    exact parting.small k early elem found
  · intro elem member
    rcases List.mem_iff_getElem?.mp member with ⟨k, found⟩
    rw [List.getElem?_drop] at found
    have inside : mid + 1 + k < moved.length := by
      by_contra outside
      rw [List.getElem?_eq_none (by rw [List.length_swap]; omega)] at found
      cases found
    rw [look, if_neg (by omega)] at found
    split_ifs at found with atLast
    · exact parting.large mid (Nat.le_refl mid) (by omega) elem found
    · exact parting.large (mid + 1 + k) (by omega) (by omega) elem found

end Partition

section Sorted

theorem drop_past (front : List α) (pivot : α) (back : List α) :
    (front ++ pivot :: back).drop (front.length + 1) = back := by
  rw [List.drop_append, List.drop_of_length_le (Nat.le_succ _), Nat.add_sub_cancel_left]
  rfl

variable {less : α → α → Bool}

theorem quickSortImpl_perm (choose : Nat → Nat) (turns left : Nat) (array : List α) :
    (quickSortImpl less choose turns left array).Perm array := by
  induction turns generalizing left array with
  | zero => exact List.Perm.refl array
  | succ turns ih =>
    rw [quickSortImpl]
    split_ifs with short
    · exact List.Perm.refl array
    · have some_ : array ≠ [] := by
        rintro rfl
        exact short (Nat.zero_le 1)
      rcases @partition_parts α less choose left array some_ with
        ⟨front, pivot, back, parts, length, perm, -, -⟩
      simp only [parts, ← length, List.take_left, List.drop_left, List.take_succ_cons,
        List.take_zero, drop_past]
      have both := (ih left front).append ((ih (left + front.length + 1) back).cons pivot)
      rw [List.append_assoc]
      exact both.trans perm

/-- Where the comparison is a strict order nothing comes after a greater element. -/
theorem quickSortImpl_sorted (asymm : ∀ x y, less x y = true → less y x = false)
    (trans : ∀ x y z, less x y = true → less y z = true → less x z = true)
    (choose : Nat → Nat) (turns left : Nat) {array : List α} (enough : array.length ≤ turns) :
    (quickSortImpl less choose turns left array).Pairwise fun x y => less y x = false := by
  induction turns generalizing left array with
  | zero =>
    rw [List.length_eq_zero_iff.mp (Nat.le_zero.mp enough)]
    exact List.Pairwise.nil
  | succ turns ih =>
    rw [quickSortImpl]
    split_ifs with short
    · match array, short with
      | [], _ => exact List.Pairwise.nil
      | [elem], _ => exact List.pairwise_singleton _ elem
    · have some_ : array ≠ [] := by
        rintro rfl
        exact short (Nat.zero_le 1)
      rcases @partition_parts α less choose left array some_ with
        ⟨front, pivot, back, parts, length, perm, below, above⟩
      have size := perm.length_eq
      rw [List.length_append, List.length_cons] at size
      simp only [parts, ← length, List.take_left, List.drop_left, List.take_succ_cons,
        List.take_zero, drop_past]
      have frontPerm := @quickSortImpl_perm α less choose turns left front
      have backPerm := @quickSortImpl_perm α less choose turns (left + front.length + 1) back
      rw [List.append_assoc]
      refine List.pairwise_append.mpr ⟨ih left (by omega), ?_, ?_⟩
      · refine List.pairwise_cons.mpr ⟨?_, ih _ (by omega)⟩
        intro elem member
        exact above elem (backPerm.mem_iff.mp member)
      · intro early earlyIn late lateIn
        have less_ := below early (frontPerm.mem_iff.mp earlyIn)
        rcases List.mem_cons.mp lateIn with rfl | lateIn
        · exact asymm early late less_
        · have notLess := above late (backPerm.mem_iff.mp lateIn)
          rw [Bool.eq_false_iff]
          intro over_
          rw [trans late early pivot over_ less_] at notLess
          cases notLess

theorem quickSort_perm (choose : Nat → Nat) (array : List α) :
    (quickSort less choose array).Perm array :=
  quickSortImpl_perm choose array.length 0 array

theorem quickSort_sorted (asymm : ∀ x y, less x y = true → less y x = false)
    (trans : ∀ x y z, less x y = true → less y z = true → less x z = true)
    (choose : Nat → Nat) (array : List α) :
    (quickSort less choose array).Pairwise fun x y => less y x = false :=
  quickSortImpl_sorted asymm trans choose array.length 0 (Nat.le_refl _)

end Sorted

end Db8.Sorting
