import Db8.Sorting.QuickSort

/-!
# The memory of a vector

A stretch of memory with a cell for each element it has room for. A cell without an element is raw:
it may be constructed, and must not be read, assigned or destroyed. The loops of `MojVector` go over
such cells, and what they leave of cells laid out as a list is a list again.
-/

set_option autoImplicit false

namespace Db8.Core

variable {α : Type*}

abbrev Cells (α : Type*) := List (Option α)

namespace Cells

def read (cells : Cells α) (i : Nat) : Option α := cells[i]?.join

/-- `new(p) T(val)`. -/
def construct (cells : Cells α) (i : Nat) (val : α) : Option (Cells α) :=
  match cells[i]? with
  | some none => some (cells.set i (some val))
  | _ => none

/-- `*p = val`. -/
def assign (cells : Cells α) (i : Nat) (val : α) : Option (Cells α) :=
  match cells[i]? with
  | some (some _) => some (cells.set i (some val))
  | _ => none

section Loops

def constructAll : List α → Nat → Cells α → Option (Cells α)
  | [], _, cells => some cells
  | val :: vals, pos, cells => (cells.construct pos val).bind (constructAll vals (pos + 1))

def assignAll : List α → Nat → Cells α → Option (Cells α)
  | [], _, cells => some cells
  | val :: vals, pos, cells => (cells.assign pos val).bind (assignAll vals (pos + 1))

/-- `MojDestroy` past its assertion. -/
def destroy : Nat → Nat → Cells α → Option (Cells α)
  | 0, _, cells => some cells
  | turns + 1, pos, cells =>
    match cells[pos]? with
    | some (some _) => destroy turns (pos + 1) (cells.set pos none)
    | _ => none

def copyFrom (source : Cells α) : Nat → Nat → Cells α → Option (Cells α)
  | 0, _, cells => some cells
  | turns + 1, pos, cells => do
    let val ← source.read pos
    let cells ← cells.construct pos val
    copyFrom source turns (pos + 1) cells

/-- The second loop of `shift`: what is `numElems` before the end is constructed there. -/
def copyTail (numElems : Nat) : Nat → Nat → Cells α → Option (Cells α)
  | 0, _, cells => some cells
  | turns + 1, pos, cells => do
    let val ← cells.read (pos - numElems)
    let cells ← cells.construct pos val
    copyTail numElems turns (pos + 1) cells

/-- The last loop of `shift`, from the end down; `elem` is `top - 1`. -/
def assignDown (numElems : Nat) : Nat → Nat → Cells α → Option (Cells α)
  | 0, _, cells => some cells
  | turns + 1, top, cells => do
    let val ← cells.read (top - 1 - numElems)
    let cells ← cells.assign (top - 1) val
    assignDown numElems turns (top - 1) cells

/-- The moves of `erase`. -/
def moveDown (numElems : Nat) : Nat → Nat → Cells α → Option (Cells α)
  | 0, _, cells => some cells
  | turns + 1, pos, cells => do
    let val ← cells.read (pos + numElems)
    let cells ← cells.assign pos val
    moveDown numElems turns (pos + 1) cells

def swap (cells : Cells α) (i j : Nat) : Option (Cells α) := do
  let tmp ← cells.read i
  let other ← cells.read j
  let cells ← cells.assign i other
  cells.assign j tmp

def reverseLoop : Nat → Nat → Nat → Cells α → Option (Cells α)
  | 0, _, _, cells => some cells
  | turns + 1, i, j, cells =>
    if i < j then (cells.swap i j).bind (reverseLoop turns (i + 1) (j - 1)) else some cells

def readAll (cells : Cells α) : Nat → Nat → Option (List α)
  | 0, _ => some []
  | turns + 1, pos => do
    let val ← cells.read pos
    let vals ← cells.readAll turns (pos + 1)
    some (val :: vals)

def sort (less : α → α → Bool) (choose : Nat → Nat) (numElems : Nat) (cells : Cells α) :
    Option (Cells α) := do
  let vals ← cells.readAll numElems 0
  assignAll (Sorting.quickSort less choose vals) 0 cells

end Loops

/-- The elements of a list, then raw cells up to the capacity. -/
def laid (xs : List α) (capacity : Nat) : Cells α :=
  xs.map some ++ List.replicate (capacity - xs.length) none

section Laid

variable {xs : List α} {capacity : Nat}

theorem getElem?_laid (fits : xs.length ≤ capacity) (i : Nat) : (laid xs capacity)[i]? =
    if i < capacity then some xs[i]? else none := by
  rw [laid, List.getElem?_append, List.length_map, List.getElem?_map, List.getElem?_replicate]
  split_ifs with inside room more beyond
  · rw [List.getElem?_eq_getElem inside]
    rfl
  · omega
  · rw [List.getElem?_eq_none (Nat.le_of_not_lt inside)]
  · omega
  · omega
  · rfl

theorem length_laid (fits : xs.length ≤ capacity) : (laid xs capacity).length = capacity := by
  rw [laid, List.length_append, List.length_map, List.length_replicate]
  omega

theorem laid_nil (capacity : Nat) : laid ([] : List α) capacity = List.replicate capacity none := rfl

theorem read_laid (fits : xs.length ≤ capacity) (i : Nat) : (laid xs capacity).read i = xs[i]? := by
  rw [read, getElem?_laid fits]
  split_ifs with inside
  · rfl
  · rw [List.getElem?_eq_none (by omega)]
    rfl

theorem laid_ext {ys : List α} {cells : Cells α} (fits : ys.length ≤ capacity)
    (same : ∀ i, cells[i]? = if i < capacity then some ys[i]? else none) :
    cells = laid ys capacity := by
  apply List.ext_getElem?
  intro i
  rw [same, getElem?_laid fits]

theorem set_laid (fits : xs.length ≤ capacity) {i : Nat} (inside : i < xs.length) (val : α) :
    (laid xs capacity).set i (some val) = laid (xs.set i val) capacity := by
  apply laid_ext (by rw [List.length_set]; exact fits)
  intro j
  rw [List.getElem?_set, getElem?_laid fits, List.getElem?_set, length_laid fits]
  split_ifs <;> first | rfl | omega

theorem construct_laid (room : xs.length < capacity) (val : α) :
    (laid xs capacity).construct xs.length val = some (laid (xs ++ [val]) capacity) := by
  have raw : (laid xs capacity)[xs.length]? = some none := by
    rw [getElem?_laid (Nat.le_of_lt room), if_pos room, List.getElem?_eq_none (Nat.le_refl _)]
  rw [construct, raw]
  apply congrArg some
  apply laid_ext (by rw [List.length_append]; exact room)
  intro j
  rw [List.getElem?_set, getElem?_laid (Nat.le_of_lt room)]
  by_cases here : xs.length = j
  · subst here
    rw [if_pos rfl, if_pos room, if_pos (by rw [length_laid (Nat.le_of_lt room)]; exact room),
      List.getElem?_append_right (Nat.le_refl _), Nat.sub_self]
    rfl
  · rw [if_neg here]
    by_cases inside : j < xs.length
    · rw [List.getElem?_append_left inside]
    · rw [List.getElem?_eq_none (by omega), List.getElem?_eq_none]
      rw [List.length_append, List.length_singleton]
      omega

theorem assign_laid (fits : xs.length ≤ capacity) {i : Nat} (inside : i < xs.length) (val : α) :
    (laid xs capacity).assign i val = some (laid (xs.set i val) capacity) := by
  have full : (laid xs capacity)[i]? = some (some xs[i]) := by
    rw [getElem?_laid fits, if_pos (by omega), List.getElem?_eq_getElem inside]
  rw [assign, full]
  dsimp only
  rw [set_laid fits inside]

theorem constructAll_laid (vals : List α) (room : xs.length + vals.length ≤ capacity) :
    constructAll vals xs.length (laid xs capacity) = some (laid (xs ++ vals) capacity) := by
  induction vals generalizing xs with
  | nil => rw [constructAll, List.append_nil]
  | cons val vals ih =>
    rw [List.length_cons] at room
    rw [constructAll, construct_laid (by omega), Option.bind_some]
    have rest := @ih (xs ++ [val]) (by rw [List.length_append, List.length_singleton]; omega)
    rw [List.length_append, List.length_singleton, List.append_assoc, List.singleton_append] at rest
    exact rest

theorem assignAll_laid (vals : List α) (pos : Nat) (inside : pos + vals.length ≤ xs.length)
    (fits : xs.length ≤ capacity) : assignAll vals pos (laid xs capacity) =
      some (laid (xs.take pos ++ vals ++ xs.drop (pos + vals.length)) capacity) := by
  induction vals generalizing xs pos with
  | nil => rw [assignAll, List.append_nil, List.length_nil, Nat.add_zero, List.take_append_drop]
  | cons val vals ih =>
    rw [List.length_cons] at inside
    have here : pos < xs.length := by omega
    rw [assignAll, assign_laid fits here, Option.bind_some,
      ih (pos + 1) (by rw [List.length_set]; omega) (by rw [List.length_set]; exact fits)]
    rw [List.drop_set_of_lt (by omega), List.take_set, List.take_succ_eq_append_getElem here,
      List.set_append_right _ _ (by rw [List.length_take]; omega), List.length_take,
      Nat.min_eq_left (Nat.le_of_lt here), Nat.sub_self, List.set_cons_zero, List.append_assoc,
      List.append_assoc, List.append_assoc, List.length_cons, Nat.add_right_comm, Nat.add_assoc,
      List.singleton_append, List.cons_append]

theorem copyFrom_laid {ys : List α} {other : Nat} (sourceFits : ys.length ≤ other) (turns : Nat)
    (through : xs.length + turns = ys.length) (same : xs = ys.take xs.length)
    (room : ys.length ≤ capacity) :
    copyFrom (laid ys other) turns xs.length (laid xs capacity) = some (laid ys capacity) := by
  induction turns generalizing xs with
  | zero =>
    rw [copyFrom, same, List.take_of_length_le (by omega)]
  | succ turns ih =>
    have inside : xs.length < ys.length := by omega
    rw [copyFrom, read_laid sourceFits, List.getElem?_eq_getElem inside]
    dsimp only [Option.bind_eq_bind, Option.bind_some]
    rw [construct_laid (by omega)]
    dsimp only [Option.bind_some]
    have rest := @ih (xs ++ [ys[xs.length]])
    rw [List.length_append, List.length_singleton] at rest
    apply rest (by omega)
    rw [List.take_succ_eq_append_getElem inside, ← same]

theorem copyTail_laid (numElems turns : Nat) (few : turns ≤ numElems)
    (far : numElems ≤ xs.length) (room : xs.length + turns ≤ capacity) :
    copyTail numElems turns xs.length (laid xs capacity) =
      some (laid (xs ++ (xs.drop (xs.length - numElems)).take turns) capacity) := by
  induction turns generalizing xs with
  | zero => rw [copyTail, List.take_zero, List.append_nil]
  | succ turns ih =>
    have inside : xs.length - numElems < xs.length := by omega
    rw [copyTail, read_laid (by omega), List.getElem?_eq_getElem inside]
    dsimp only [Option.bind_eq_bind, Option.bind_some]
    rw [construct_laid (by omega)]
    dsimp only [Option.bind_some]
    have rest := @ih (xs ++ [xs[xs.length - numElems]]) (by omega)
    rw [List.length_append, List.length_singleton] at rest
    rw [rest (by omega) (by omega)]
    have next : xs.length + 1 - numElems = xs.length - numElems + 1 := by omega
    rw [next, List.drop_append_of_le_length (by omega), List.append_assoc,
      List.drop_eq_getElem_cons inside, List.take_succ_cons, List.singleton_append,
      List.take_append_of_le_length (by rw [List.length_drop]; omega)]

theorem assignDown_laid (numElems turns top : Nat) (inside : top ≤ xs.length)
    (far : turns = 0 ∨ turns + numElems ≤ top) (fits : xs.length ≤ capacity) :
    ∃ ys, assignDown numElems turns top (laid xs capacity) = some (laid ys capacity) ∧
      ys.length = xs.length ∧
      ∀ i, ys[i]? = if top - turns ≤ i ∧ i < top then xs[i - numElems]? else xs[i]? := by
  induction turns generalizing xs top with
  | zero =>
    refine ⟨xs, rfl, rfl, ?_⟩
    intro i
    rw [if_neg (by omega)]
  | succ turns ih =>
    have here : top - 1 - numElems < xs.length := by omega
    have last : top - 1 < xs.length := by omega
    rw [assignDown, read_laid fits, List.getElem?_eq_getElem here]
    dsimp only [Option.bind_eq_bind, Option.bind_some]
    rw [assign_laid fits last]
    dsimp only [Option.bind_some]
    rcases @ih (xs.set (top - 1) xs[top - 1 - numElems]) (top - 1)
      (by rw [List.length_set]; omega) (by omega) (by rw [List.length_set]; exact fits) with
      ⟨ys, gone, length, elems⟩
    refine ⟨ys, gone, by rw [length, List.length_set], ?_⟩
    intro i
    rw [elems, List.getElem?_set, List.getElem?_set]
    by_cases atTop : top - 1 = i
    · subst atTop
      rw [if_neg (by omega), if_pos rfl, if_pos last, if_pos (by omega),
        List.getElem?_eq_getElem here]
    · rw [if_neg atTop]
      by_cases moved : top - 1 - turns ≤ i ∧ i < top - 1
      · rw [if_pos moved, if_neg (by omega), if_pos (by omega)]
      · rw [if_neg moved, if_neg (by omega)]

theorem moveDown_laid (numElems turns pos : Nat)
    (inside : pos + numElems + turns ≤ xs.length) (fits : xs.length ≤ capacity) :
    ∃ ys, moveDown numElems turns pos (laid xs capacity) = some (laid ys capacity) ∧
      ys.length = xs.length ∧
      ∀ i, ys[i]? = if pos ≤ i ∧ i < pos + turns then xs[i + numElems]? else xs[i]? := by
  induction turns generalizing xs pos with
  | zero =>
    refine ⟨xs, rfl, rfl, ?_⟩
    intro i
    rw [if_neg (by omega)]
  | succ turns ih =>
    have here : pos + numElems < xs.length := by omega
    have first : pos < xs.length := by omega
    rw [moveDown, read_laid fits, List.getElem?_eq_getElem here]
    dsimp only [Option.bind_eq_bind, Option.bind_some]
    rw [assign_laid fits first]
    dsimp only [Option.bind_some]
    rcases @ih (xs.set pos xs[pos + numElems]) (pos + 1) (by rw [List.length_set]; omega)
      (by rw [List.length_set]; exact fits) with ⟨ys, gone, length, elems⟩
    refine ⟨ys, gone, by rw [length, List.length_set], ?_⟩
    intro i
    rw [elems, List.getElem?_set, List.getElem?_set]
    by_cases atPos : pos = i
    · subst atPos
      rw [if_neg (by omega), if_pos rfl, if_pos first, if_pos (by omega),
        List.getElem?_eq_getElem here]
    · rw [if_neg atPos]
      by_cases moved : pos + 1 ≤ i ∧ i < pos + 1 + turns
      · rw [if_pos moved, if_neg (by omega), if_pos (by omega)]
      · rw [if_neg moved, if_neg (by omega)]

theorem destroy_between (front : Cells α) (mid : List α) (back : Cells α) :
    destroy mid.length front.length (front ++ mid.map some ++ back) =
      some (front ++ List.replicate mid.length none ++ back) := by
  induction mid generalizing front with
  | nil => rfl
  | cons val mid ih =>
    have here : (front ++ (val :: mid).map some ++ back)[front.length]? = some (some val) := by
      rw [List.append_assoc, List.getElem?_append_right (Nat.le_refl _), Nat.sub_self]
      rfl
    have rest := ih (front ++ [none])
    rw [List.length_append, List.length_singleton] at rest
    rw [List.length_cons, destroy, here]
    dsimp only
    rw [List.append_assoc, List.set_append_right _ _ (Nat.le_refl _), Nat.sub_self, List.map_cons,
      List.cons_append, List.set_cons_zero, List.replicate_succ]
    rw [List.append_assoc, List.append_assoc, List.append_assoc, List.append_assoc] at *
    exact rest

theorem destroy_laid (numElems : Nat) (few : numElems ≤ xs.length) (fits : xs.length ≤ capacity) :
    destroy numElems (xs.length - numElems) (laid xs capacity) =
      some (laid (xs.take (xs.length - numElems)) capacity) := by
  have between := destroy_between ((xs.take (xs.length - numElems)).map some)
    (xs.drop (xs.length - numElems)) (List.replicate (capacity - xs.length) none)
  have kept : (xs.take (xs.length - numElems)).length = xs.length - numElems := by
    rw [List.length_take]
    omega
  have gone : (xs.drop (xs.length - numElems)).length = numElems := by
    rw [List.length_drop]
    omega
  rw [← List.map_append, List.take_append_drop, List.length_map, kept, gone, List.append_assoc,
    List.replicate_append_replicate] at between
  have raw : numElems + (capacity - xs.length) = capacity - (xs.length - numElems) := by omega
  rw [raw] at between
  rw [laid, between, laid, kept]

theorem swap_laid {i j : Nat} (ordered : i < j) (inside : j < xs.length)
    (fits : xs.length ≤ capacity) : ∃ ys, swap (laid xs capacity) i j = some (laid ys capacity) ∧
      ys.length = xs.length ∧
      ∀ k, ys[k]? = if k = i then xs[j]? else if k = j then xs[i]? else xs[k]? := by
  have before : i < xs.length := by omega
  refine ⟨(xs.set i xs[j]).set j xs[i], ?_, by rw [List.length_set, List.length_set], ?_⟩
  · rw [swap, read_laid fits, List.getElem?_eq_getElem before, read_laid fits,
      List.getElem?_eq_getElem inside]
    dsimp only [Option.bind_eq_bind, Option.bind_some]
    rw [assign_laid fits before]
    dsimp only [Option.bind_some]
    rw [assign_laid (by rw [List.length_set]; exact fits) (by rw [List.length_set]; exact inside)]
  · intro k
    rw [List.getElem?_set, List.getElem?_set, List.length_set]
    by_cases atJ : k = j
    · subst atJ
      rw [if_pos rfl, if_pos inside, if_neg (by omega), if_pos rfl, List.getElem?_eq_getElem before]
    · rw [if_neg (Ne.symm atJ)]
      by_cases atI : k = i
      · subst atI
        rw [if_pos rfl, if_pos before, if_pos rfl, List.getElem?_eq_getElem inside]
      · rw [if_neg (Ne.symm atI), if_neg atI, if_neg atJ]

theorem getElem?_met {i j : Nat} (opposite : i + j + 1 = xs.length) (met : j ≤ i) (k : Nat) :
    xs[k]? = if i ≤ k ∧ k ≤ j then xs[xs.length - 1 - k]? else xs[k]? := by
  split_ifs with between
  · have middle : xs.length - 1 - k = k := by omega
    rw [middle]
  · rfl

/-- Two positions move towards each other; what is between them is turned round. -/
theorem reverseLoop_laid (turns i j : Nat) (opposite : i + j + 1 = xs.length)
    (enough : j ≤ i + turns) (fits : xs.length ≤ capacity) :
    ∃ ys, reverseLoop turns i j (laid xs capacity) = some (laid ys capacity) ∧
      ys.length = xs.length ∧
      ∀ k, ys[k]? = if i ≤ k ∧ k ≤ j then xs[xs.length - 1 - k]? else xs[k]? := by
  induction turns generalizing xs i j with
  | zero => exact ⟨xs, rfl, rfl, getElem?_met opposite enough⟩
  | succ turns ih =>
    rw [reverseLoop]
    split_ifs with ordered
    · have inside : j < xs.length := by omega
      rcases swap_laid ordered inside fits with
        ⟨swapped, done, length, elems⟩
      rw [done, Option.bind_some]
      rcases @ih swapped (i + 1) (j - 1) (by omega) (by omega) (by omega) with
        ⟨ys, rest, same, others⟩
      refine ⟨ys, rest, by omega, ?_⟩
      intro k
      rw [others, elems, elems, length]
      by_cases inner : i + 1 ≤ k ∧ k ≤ j - 1
      · rw [if_pos inner, if_neg (by omega), if_neg (by omega), if_pos (by omega)]
      · rw [if_neg inner]
        by_cases atI : k = i
        · have far : xs.length - 1 - k = j := by omega
          rw [if_pos atI, if_pos (by omega), far]
        · rw [if_neg atI]
          by_cases atJ : k = j
          · have far : xs.length - 1 - k = i := by omega
            rw [if_pos atJ, if_pos (by omega), far]
          · rw [if_neg atJ, if_neg (by omega)]
    · exact ⟨xs, rfl, rfl, getElem?_met opposite (by omega)⟩

theorem readAll_laid (turns : Nat) {pos : Nat} (through : pos + turns = xs.length)
    (fits : xs.length ≤ capacity) : (laid xs capacity).readAll turns pos = some (xs.drop pos) := by
  induction turns generalizing pos with
  | zero => rw [readAll, List.drop_of_length_le (by omega)]
  | succ turns ih =>
    have here : pos < xs.length := by omega
    rw [readAll, read_laid fits, List.getElem?_eq_getElem here]
    dsimp only [Option.bind_eq_bind, Option.bind_some]
    rw [ih (by omega)]
    dsimp only [Option.bind_some]
    rw [← List.drop_eq_getElem_cons here]

theorem sort_laid (less : α → α → Bool) (choose : Nat → Nat) (fits : xs.length ≤ capacity) :
    sort less choose xs.length (laid xs capacity) =
      some (laid (Sorting.quickSort less choose xs) capacity) := by
  have length := (@Sorting.quickSort_perm _ less choose xs).length_eq
  rw [sort, readAll_laid xs.length (Nat.zero_add _) fits]
  dsimp only [Option.bind_eq_bind, Option.bind_some]
  rw [List.drop_zero, assignAll_laid _ 0 (by omega) fits, List.take_zero, List.nil_append,
    List.drop_of_length_le (by omega), List.append_nil]

end Laid

end Cells

end Db8.Core
