import Db8.Core.Vector
import Db8.Heap.Handles
import Db8.Steps

/-!
# Vectors as independent lists

Programs of operations on any number of handles, against lists under the same operations. A program
goes as far as its operations meet the assertions on their arguments. Each handle then reads as its
list at every moment, but for two operations: assigning a vector to itself that has the only
reference, which frees what it goes on to retain; and erasing nothing from a vector without memory,
which fails an assertion.
-/

set_option autoImplicit false

namespace Db8.Core.MojVector

open Db8.Heap

variable {α : Type}

section Programs

/-- A total preorder for `COMP`. -/
structure Comp (α : Type) where
  le : α → α → Bool
  total : ∀ x y, le x y = true ∨ le y x = true
  trans : ∀ x y z, le x y = true → le y z = true → le x z = true

def Comp.less (comp : Comp α) (x y : α) : Bool := !comp.le y x

inductive Change (α : Type) where
  | push (val : α)
  | pop
  | insertCopies (idx numElems : Nat) (val : α)
  | insertRange (idx : Nat) (vals : List α)
  | append (vals : List α)
  | erase (idx numElems : Nat)
  | resize (numElems : Nat) (val : α)
  | setAt (idx : Nat) (val : α)
  | reverse
  | sort
  | clear
  | reserve (numElems : Nat)
  | assignRange (vals : List α)

inductive Op (α : Type) where
  | create
  | copy (source : Nat)
  | assign (place source : Nat)
  | destroy (place : Nat)
  | change (place : Nat) (change : Change α)

structure World (α : Type) where
  memory : VectorMemory α
  handles : List MojVector

def World.start : World α := ⟨Memory.init, []⟩

structure Sorter (α : Type) where
  comp : Comp α
  choose : Nat → Nat

def apply [Inhabited α] (sorter : Sorter α) (memory : VectorMemory α) (v : MojVector) :
    Change α → Option (VectorMemory α × MojVector)
  | .push val => v.push memory val
  | .pop => v.pop memory
  | .insertCopies idx numElems val => v.insert memory idx (List.replicate numElems val)
  | .insertRange idx vals => v.insert memory idx vals
  | .append vals => v.append memory vals
  | .erase idx numElems => v.erase memory idx numElems
  | .resize numElems val => v.resize memory numElems val
  | .setAt idx val => v.setAt memory idx val
  | .reverse => v.reverse memory
  | .sort => v.sort memory sorter.comp.less sorter.choose
  | .clear => v.clear memory
  | .reserve numElems => v.reserve memory numElems
  | .assignRange vals => v.assignRange memory vals

def step [Inhabited α] (sorter : Sorter α) : Op α → World α → Option (World α)
  | .create, world => some ⟨world.memory, world.handles ++ [new]⟩
  | .copy source, world => do
    let v ← world.handles[source]?
    let memory ← v.retain world.memory
    some ⟨memory, world.handles ++ [v]⟩
  | .assign place source, world => do
    let v ← world.handles[place]?
    let other ← world.handles[source]?
    let (memory, v) ← v.assign world.memory other
    some ⟨memory, world.handles.set place v⟩
  | .destroy place, world => do
    let v ← world.handles[place]?
    let memory ← v.release world.memory
    some ⟨memory, world.handles.eraseIdx place⟩
  | .change place op, world => do
    let v ← world.handles[place]?
    let (memory, v) ← v.apply sorter world.memory op
    some ⟨memory, world.handles.set place v⟩

end Programs

section Lists

/-- The list after an operation; sorting may give any sorted permutation. -/
def Change.Acts (comp : Comp α) : Change α → List α → List α → Prop
  | .push val, xs, ys => ys = xs ++ [val]
  | .pop, xs, ys => ys = xs.dropLast
  | .insertCopies idx numElems val, xs, ys =>
    ys = xs.take idx ++ List.replicate numElems val ++ xs.drop idx
  | .insertRange idx vals, xs, ys => ys = xs.take idx ++ vals ++ xs.drop idx
  | .append vals, xs, ys => ys = xs ++ vals
  | .erase idx numElems, xs, ys => ys = xs.take idx ++ xs.drop (idx + numElems)
  | .resize numElems val, xs, ys =>
    ys = xs.take numElems ++ List.replicate (numElems - xs.length) val
  | .setAt idx val, xs, ys => ys = xs.set idx val
  | .reverse, xs, ys => ys = xs.reverse
  | .sort, xs, ys => ys.Perm xs ∧ ys.Pairwise fun x y => comp.le x y = true
  | .clear, _, ys => ys = []
  | .reserve _, xs, ys => ys = xs
  | .assignRange vals, _, ys => ys = vals

def Op.Acts (comp : Comp α) : Op α → List (List α) → List (List α) → Prop
  | .create, lists, after => after = lists ++ [[]]
  | .copy source, lists, after => ∃ xs, lists[source]? = some xs ∧ after = lists ++ [xs]
  | .assign place source, lists, after =>
    ∃ xs, lists[source]? = some xs ∧ after = lists.set place xs
  | .destroy place, lists, after => after = lists.eraseIdx place
  | .change place op, lists, after =>
    ∃ xs ys, lists[place]? = some xs ∧ op.Acts comp xs ys ∧ after = lists.set place ys

def Change.Legal (v : MojVector) : Change α → Prop
  | .pop => 0 < v.size
  | .insertCopies idx _ _ => idx ≤ v.size
  | .insertRange idx _ => idx ≤ v.size
  | .erase idx numElems => idx + numElems ≤ v.size
  | .setAt idx _ => idx < v.size
  | _ => True

def Op.Legal (world : World α) : Op α → Prop
  | .create => True
  | .copy source => source < world.handles.length
  | .assign place source => place < world.handles.length ∧ source < world.handles.length
  | .destroy place => place < world.handles.length
  | .change place op => ∃ v, world.handles[place]? = some v ∧ op.Legal v

/-- The elements from `begin()` to `end()`. -/
def elems (memory : VectorMemory α) (v : MojVector) : Option (List α) := do
  let cells ← v.cells memory
  cells.readAll v.size 0

def Reading (world : World α) (lists : List (List α)) : Prop :=
  List.Forall₂ (fun v xs => v.elems world.memory = some xs ∧ v.size ≤ v.capacity) world.handles lists

/-- Each legal operation of the program comes to its end and acts on the lists, and at every moment
the handles read as the lists. -/
def Behaves [Inhabited α] (sorter : Sorter α) : List (Op α) → World α → List (List α) → Prop
  | [], world, lists => Reading world lists
  | op :: ops, world, lists =>
    Reading world lists ∧ (op.Legal world → ∃ next after, step sorter op world = some next ∧
      op.Acts sorter.comp lists after ∧ Behaves sorter ops next after)

end Lists

section Condition

def Change.Meets (v : MojVector) : Change α → Prop
  | .erase _ numElems => numElems = 0 → v.begin ≠ none
  | _ => True

def Op.Meets (world : World α) : Op α → Prop
  | .assign place source =>
    place = source → ∀ v ∈ world.handles[place]?, ∀ ref ∈ v.begin, world.memory.refs ref ≠ 1
  | .change place op => ∀ v ∈ world.handles[place]?, op.Meets v
  | _ => True

instance decidableChangeMeets (v : MojVector) : (op : Change α) → Decidable (op.Meets v)
  | .erase _ numElems => inferInstanceAs (Decidable (numElems = 0 → v.begin ≠ none))
  | .push _ => isTrue trivial
  | .pop => isTrue trivial
  | .insertCopies _ _ _ => isTrue trivial
  | .insertRange _ _ => isTrue trivial
  | .append _ => isTrue trivial
  | .resize _ _ => isTrue trivial
  | .setAt _ _ => isTrue trivial
  | .reverse => isTrue trivial
  | .sort => isTrue trivial
  | .clear => isTrue trivial
  | .reserve _ => isTrue trivial
  | .assignRange _ => isTrue trivial

instance decidableOpMeets (world : World α) : (op : Op α) → Decidable (op.Meets world)
  | .assign place source => inferInstanceAs (Decidable
      (place = source → ∀ v ∈ world.handles[place]?, ∀ ref ∈ v.begin, world.memory.refs ref ≠ 1))
  | .change place op => inferInstanceAs (Decidable (∀ v ∈ world.handles[place]?, op.Meets v))
  | .create => isTrue trivial
  | .copy _ => isTrue trivial
  | .destroy _ => isTrue trivial

end Condition

section Steps

def view : View (Cells α) MojVector (List α) := ⟨held, Reads, Reads.other⟩

abbrev Stands (world : World α) (lists : List (List α)) : Prop :=
  view.Stands world.memory world.handles lists

variable {world : World α} {lists : List (List α)}

variable {memory : VectorMemory α} {v : MojVector}

theorem Reads.elems {xs : List α}
    (reads : Reads memory v xs) : v.elems memory = some xs ∧ v.size ≤ v.capacity := by
  refine ⟨?_, by rw [reads.size]; exact reads.fits⟩
  rw [MojVector.elems, reads.cells, Option.bind_eq_bind, Option.bind_some, reads.size,
    Cells.readAll_laid xs.length (Nat.zero_add _) reads.fits, List.drop_zero]

theorem stands_reading (stands : Stands world lists) : Reading world lists :=
  stands.reads.imp fun _ _ reads => Reads.elems reads

theorem Comp.less_asymm (comp : Comp α) (x y : α) (less : comp.less x y = true) :
    comp.less y x = false := by
  rw [Comp.less, Bool.not_eq_true'] at less
  rcases comp.total x y with below | below
  · rw [Comp.less, below]
    rfl
  · rw [less] at below
    cases below

theorem Comp.less_trans (comp : Comp α) (x y z : α) (one : comp.less x y = true)
    (two : comp.less y z = true) : comp.less x z = true := by
  rw [Comp.less, Bool.not_eq_true'] at one two ⊢
  by_contra back
  rw [Bool.not_eq_false] at back
  rcases comp.total x y with below | below
  · rw [comp.trans z x y back below] at two
    cases two
  · rw [one] at below
    cases below

variable (sorter : Sorter α)

theorem sort_acts (xs : List α) :
    (Change.sort : Change α).Acts sorter.comp xs
      (Sorting.quickSort sorter.comp.less sorter.choose xs) := by
  refine ⟨Sorting.quickSort_perm sorter.choose xs, ?_⟩
  apply (Sorting.quickSort_sorted sorter.comp.less_asymm sorter.comp.less_trans sorter.choose xs).imp
  intro x y notLess
  rw [Comp.less, Bool.not_eq_false'] at notLess
  exact notLess

/-- Assigned to itself, memory is held elsewhere too where there are other references to it. -/
theorem assign_self {xs : List α} (reads : Reads memory v xs) (sound : memory.Sound)
    (several : ∀ ref ∈ v.begin, memory.refs ref ≠ 1) :
    ∀ ref ∈ v.held, v.held.count ref < memory.refs ref := by
  intro ref member
  rw [held, Option.mem_toList] at member
  rcases reads.counted sound member with ⟨object, -, -, count, positive⟩
  have more := several ref member
  rw [held, member, Option.toList_some, List.count_singleton_self]
  omega

theorem apply_gives [Inhabited α] {xs : List α} (reads : Reads memory v xs) (sound : memory.Sound)
    {op : Change α} (legal : op.Legal v) (meets : op.Meets v) :
    ∃ ys, op.Acts sorter.comp xs ys ∧ Gives memory v (v.apply sorter memory op) ys := by
  have size := reads.size
  cases op with
  | push val => exact ⟨_, rfl, push_gives reads sound val⟩
  | pop =>
    rw [Change.Legal, size] at legal
    exact ⟨_, rfl, pop_gives reads sound (List.length_pos_iff.mp legal)⟩
  | insertCopies idx numElems val =>
    rw [Change.Legal, size] at legal
    exact ⟨_, rfl, insert_gives reads sound legal _⟩
  | insertRange idx vals =>
    rw [Change.Legal, size] at legal
    exact ⟨_, rfl, insert_gives reads sound legal vals⟩
  | append vals => exact ⟨_, rfl, append_gives reads sound vals⟩
  | erase idx numElems =>
    rw [Change.Legal, size] at legal
    refine ⟨_, rfl, erase_gives reads sound idx numElems legal ?_⟩
    intro null
    have empty : xs = [] := by
      by_contra more
      rcases reads.begin more with ⟨ref, begins⟩
      rw [null] at begins
      cases begins
    rw [empty, List.length_nil] at legal
    exact meets (by omega) null
  | resize numElems val => exact ⟨_, rfl, resize_gives reads sound numElems val⟩
  | setAt idx val =>
    rw [Change.Legal, size] at legal
    exact ⟨_, rfl, setAt_gives reads sound legal val⟩
  | reverse => exact ⟨_, rfl, reverse_gives reads sound⟩
  | sort => exact ⟨_, sort_acts sorter xs, sort_gives reads sound _ _⟩
  | clear => exact ⟨_, rfl, clear_gives reads sound⟩
  | reserve numElems => exact ⟨_, rfl, reserve_gives reads sound numElems⟩
  | assignRange vals => exact ⟨_, rfl, assignRange_gives reads sound vals⟩

theorem stands_step [Inhabited α] (stands : Stands world lists) {op : Op α} (legal : op.Legal world)
    (meets : op.Meets world) :
    ∃ next after, MojVector.step sorter op world = some next ∧ op.Acts sorter.comp lists after ∧
      Stands next after := by
  have sound := stands.valid.sound
  cases op with
  | create =>
    exact ⟨⟨world.memory, world.handles ++ [new]⟩, lists ++ [[]], rfl, rfl,
      stands.add (Memory.Moves.refl sound []) (reads_new world.memory)⟩
  | copy source =>
    have found := List.getElem?_eq_getElem legal
    rcases stands.at_place found with ⟨xs, there, reads⟩
    rcases Reads.retain reads sound with ⟨after, retained, moves, same⟩
    refine ⟨⟨after, world.handles ++ [world.handles[source]]⟩, lists ++ [xs], ?_, ⟨xs, there, rfl⟩,
      stands.add moves (Reads.other reads fun ref _ => same ref)⟩
    rw [MojVector.step, found, Option.bind_eq_bind, Option.bind_some, retained]
    rfl
  | assign place source =>
    rcases legal with ⟨placeThere, sourceThere⟩
    have found := List.getElem?_eq_getElem placeThere
    have other := List.getElem?_eq_getElem sourceThere
    rcases stands.at_place found with ⟨xs, -, reads⟩
    rcases stands.at_place other with ⟨ys, there, sourceReads⟩
    have elsewhere : ∀ ref ∈ world.handles[source].held,
        world.handles[place].held.count ref < world.memory.refs ref := by
      by_cases same : place = source
      · subst same
        exact assign_self reads sound fun ref begins => meets rfl _ found ref begins
      · exact stands.elsewhere found other same
    rcases stands.set found (assign_gives reads sound sourceReads elsewhere) with
      ⟨after, next, done, stands⟩
    refine ⟨⟨after, _⟩, _, ?_, ⟨ys, there, rfl⟩, stands⟩
    rw [MojVector.step, found, Option.bind_eq_bind, Option.bind_some, other, Option.bind_eq_bind,
      Option.bind_some, done]
    rfl
  | destroy place =>
    have found := List.getElem?_eq_getElem legal
    rcases stands.at_place found with ⟨xs, -, reads⟩
    rcases Reads.release reads sound with ⟨after, released, moves⟩
    refine ⟨⟨after, world.handles.eraseIdx place⟩, lists.eraseIdx place, ?_, rfl,
      stands.erase found moves⟩
    rw [MojVector.step, found, Option.bind_eq_bind, Option.bind_some, released]
    rfl
  | change place op =>
    rcases legal with ⟨v, found, legal⟩
    rcases stands.at_place found with ⟨xs, there, reads⟩
    rcases apply_gives sorter reads sound legal (meets v found) with ⟨ys, acts, gives⟩
    rcases stands.set found gives with ⟨after, next, done, stands⟩
    refine ⟨⟨after, _⟩, _, ?_, ⟨xs, ys, there, acts, rfl⟩, stands⟩
    rw [MojVector.step, found, Option.bind_eq_bind, Option.bind_some, done]
    rfl

theorem assign_self_fails {xs : List α} (reads : Reads memory v xs) (sound : memory.Sound)
    {ref : Nat} (begins : v.begin = some ref) (sole : memory.refs ref = 1) :
    v.assign memory v = none := by
  rcases reads.release sound with ⟨after, released, moves⟩
  have refs := moves.refs ref
  rw [sole, held, begins, Option.toList_some, List.count_singleton_self] at refs
  have gone : after.objects ref = none := by
    rcases there : after.objects ref with _ | object
    · rfl
    · have counted := moves.sound.counted ref object there
      rw [Memory.refs, there] at refs
      rw [List.count_nil, Option.elim_some] at refs
      omega
  rw [assign, released, Option.bind_eq_bind, Option.bind_some, retain, begins]
  dsimp only
  rw [Memory.retain, gone]
  rfl

theorem erase_null_fails (null : v.begin = none)
    (idx numElems : Nat) : v.erase memory idx numElems = none := by
  rw [erase]
  split_ifs
  · rw [ensureWritable, null, Option.bind_eq_bind, Option.bind_some]
    dsimp only
    rw [null]
    rfl
  · rfl

theorem stands_fails [Inhabited α] (stands : Stands world lists) {op : Op α}
    (breaks : ¬op.Meets world) : MojVector.step sorter op world = none := by
  cases op with
  | create => exact absurd trivial breaks
  | copy source => exact absurd trivial breaks
  | destroy place => exact absurd trivial breaks
  | assign place source =>
    rw [Op.Meets] at breaks
    push Not at breaks
    rcases breaks with ⟨rfl, v, found, ref, begins, sole⟩
    rcases stands.at_place found with ⟨xs, -, reads⟩
    rw [MojVector.step, found, Option.bind_eq_bind, Option.bind_some, Option.bind_eq_bind,
      Option.bind_some, assign_self_fails reads stands.valid.sound begins sole]
    rfl
  | change place op =>
    rw [Op.Meets] at breaks
    push Not at breaks
    rcases breaks with ⟨v, found, breaks⟩
    cases op with
    | erase idx numElems =>
      rw [Change.Meets] at breaks
      push Not at breaks
      rw [MojVector.step, found, Option.bind_eq_bind, Option.bind_some, MojVector.apply,
        erase_null_fails breaks.2]
      rfl
    | push val => exact absurd trivial breaks
    | pop => exact absurd trivial breaks
    | insertCopies idx numElems val => exact absurd trivial breaks
    | insertRange idx vals => exact absurd trivial breaks
    | append vals => exact absurd trivial breaks
    | resize numElems val => exact absurd trivial breaks
    | setAt idx val => exact absurd trivial breaks
    | reverse => exact absurd trivial breaks
    | sort => exact absurd trivial breaks
    | clear => exact absurd trivial breaks
    | reserve numElems => exact absurd trivial breaks
    | assignRange vals => exact absurd trivial breaks

theorem legal_of_apply [Inhabited α] (sorter : Sorter α) {memory : VectorMemory α} {v : MojVector}
    {op : Change α} (done : v.apply sorter memory op ≠ none) : op.Legal v := by
  by_contra illegal
  apply done
  cases op with
  | pop =>
    rw [Change.Legal, Nat.pos_iff_ne_zero, not_not] at illegal
    rw [MojVector.apply, pop, if_pos illegal]
  | insertCopies idx numElems val =>
    rw [Change.Legal] at illegal
    rw [MojVector.apply, insert, shift, if_neg illegal]
    rfl
  | insertRange idx vals =>
    rw [Change.Legal] at illegal
    rw [MojVector.apply, insert, shift, if_neg illegal]
    rfl
  | erase idx numElems =>
    rw [Change.Legal] at illegal
    rw [MojVector.apply, erase, if_neg illegal]
  | setAt idx val =>
    rw [Change.Legal] at illegal
    rw [MojVector.apply, setAt, if_neg illegal]
  | push val => exact absurd trivial illegal
  | append vals => exact absurd trivial illegal
  | resize numElems val => exact absurd trivial illegal
  | reverse => exact absurd trivial illegal
  | sort => exact absurd trivial illegal
  | clear => exact absurd trivial illegal
  | reserve numElems => exact absurd trivial illegal
  | assignRange vals => exact absurd trivial illegal

theorem legal_of_step [Inhabited α] {op : Op α} {next : World α}
    (stepped : MojVector.step sorter op world = some next) : op.Legal world := by
  cases op with
  | create => trivial
  | copy source =>
    rcases Option.bind_eq_some_iff.mp stepped with ⟨v, found, -⟩
    exact (List.getElem?_eq_some_iff.mp found).1
  | assign place source =>
    rcases Option.bind_eq_some_iff.mp stepped with ⟨v, found, rest⟩
    rcases Option.bind_eq_some_iff.mp rest with ⟨other, there, -⟩
    exact ⟨(List.getElem?_eq_some_iff.mp found).1, (List.getElem?_eq_some_iff.mp there).1⟩
  | destroy place =>
    rcases Option.bind_eq_some_iff.mp stepped with ⟨v, found, -⟩
    exact (List.getElem?_eq_some_iff.mp found).1
  | change place op =>
    rcases Option.bind_eq_some_iff.mp stepped with ⟨v, found, rest⟩
    rcases Option.bind_eq_some_iff.mp rest with ⟨result, done, -⟩
    refine ⟨v, found, @legal_of_apply α _ sorter world.memory v op ?_⟩
    rw [done]
    exact Option.some_ne_none result

theorem Reading.unique {one two : List (List α)} (first : Reading world one)
    (second : Reading world two) : one = two := by
  rw [Reading] at first second
  generalize world.handles = handles at first second
  induction first generalizing two with
  | nil =>
    cases second
    rfl
  | cons here _ ih =>
    cases second with
    | cons there rest =>
      rw [here.1] at there
      rw [Option.some.inj there.1, ih rest]

theorem Behaves.reading [Inhabited α] {sorter : Sorter α} {ops : List (Op α)}
    (behaves : Behaves sorter ops world lists) : Reading world lists := by
  cases ops with
  | nil => exact behaves
  | cons op ops => exact behaves.1

theorem behaves_iff [Inhabited α] (stands : Stands world lists)
    (ops : List (Op α)) : Behaves sorter ops world lists ↔
      Steps.Throughout (MojVector.step sorter) (fun op world => op.Legal world → op.Meets world)
        ops world := by
  induction ops generalizing world lists with
  | nil => exact ⟨fun _ => trivial, fun _ => stands_reading stands⟩
  | cons op ops ih =>
    constructor
    · rintro ⟨-, acts⟩
      refine ⟨?_, ?_⟩
      · intro legal
        by_contra breaks
        rcases acts legal with ⟨next, after, stepped, -, -⟩
        rw [stands_fails sorter stands breaks] at stepped
        cases stepped
      · intro next stepped
        have legal := legal_of_step sorter stepped
        rcases acts legal with ⟨other, after, again, acted, behaves⟩
        rw [stepped] at again
        cases again
        have meets : op.Meets world := by
          by_contra breaks
          rw [stands_fails sorter stands breaks] at stepped
          cases stepped
        rcases stands_step sorter stands legal meets with ⟨other, lists, again, -, rest⟩
        rw [stepped] at again
        cases again
        rw [behaves.reading.unique (stands_reading rest)] at behaves
        exact (ih rest).mp behaves
    · rintro ⟨here, later⟩
      refine ⟨stands_reading stands, ?_⟩
      intro legal
      rcases stands_step sorter stands legal (here legal) with ⟨next, after, stepped, acted, rest⟩
      exact ⟨next, after, stepped, acted, (ih rest).mpr (later next stepped)⟩

theorem stands_start : Stands (World.start : World α) [] := view.stands_init

/-- The handles of a program are lists of their own just if it assigns no vector that has the only
reference to itself, and erases zero elements only from vectors that have memory. -/
theorem vectors_independent [Inhabited α] (sorter : Sorter α) (ops : List (Op α)) :
    Behaves sorter ops World.start [] ↔
      Steps.Throughout (MojVector.step sorter) (fun op world => op.Legal world → op.Meets world)
        ops World.start :=
  behaves_iff sorter stands_start ops

/-- Natural numbers in their order, with the first element as the pivot. -/
def natSorter : Sorter Nat where
  comp :=
    { le := fun x y => decide (x ≤ y)
      total := fun x y => by
        rw [decide_eq_true_iff, decide_eq_true_iff]
        exact Nat.le_total x y
      trans := fun x y z => by
        rw [decide_eq_true_iff, decide_eq_true_iff, decide_eq_true_iff]
        exact Nat.le_trans }
  choose := id

/-- A vector of one element is assigned to itself; nothing is erased from a new vector. -/
theorem self_assignment_frees :
    ¬Behaves natSorter [.create, .change 0 (.push 1), .assign 0 0] World.start [] ∧
      ¬Behaves natSorter [.create, .change 0 (.erase 0 0)] World.start [] := by
  refine ⟨?_, ?_⟩
  · rintro ⟨-, created⟩
    rcases created trivial with ⟨_, _, ⟨⟩, -, -, pushed⟩
    rcases pushed ⟨_, rfl, trivial⟩ with ⟨_, _, ⟨⟩, -, -, assigned⟩
    rcases assigned ⟨Nat.one_pos, Nat.one_pos⟩ with ⟨_, _, ⟨⟩, -⟩
  · rintro ⟨-, created⟩
    rcases created trivial with ⟨_, _, ⟨⟩, -, -, erased⟩
    rcases erased ⟨_, rfl, Nat.le_refl 0⟩ with ⟨_, _, ⟨⟩, -⟩

end Steps

end Db8.Core.MojVector
