import Db8.Core.VectorCells
import Db8.Heap.Sharing

/-!
# Copy-on-write vectors

`MojVector`: a handle on counted memory, with its own end. Before it writes, a handle that is not
the only one takes a copy. An operation has no value where an assertion fails, or where it goes to
memory that has been freed or to a cell in the wrong state.
-/

set_option autoImplicit false

namespace Db8.Core

open Db8.Heap

variable {α : Type}

abbrev VectorMemory (α : Type) := Memory (Cells α)

/-- `m_begin`, which may be null, and how far `m_end` and `m_endAlloc` are from it. -/
structure MojVector where
  begin : Option Nat
  size : Nat
  capacity : Nat
deriving DecidableEq

namespace MojVector

section Operations

variable (memory : VectorMemory α) (v : MojVector)

def new : MojVector := ⟨none, 0, 0⟩

def initialSize : Nat := 8

def cells : Option (Cells α) :=
  match v.begin with
  | none => some []
  | some ref => memory.content ref

/-- The loops of an operation change the cells from `m_begin` on, and `m_end` is moved. -/
def update (change : Cells α → Option (Cells α)) (size : Nat) :
    Option (VectorMemory α × MojVector) :=
  match v.begin with
  | none => (change []).map fun _ => (memory, { v with size := size })
  | some ref => do
    let cells ← memory.content ref
    let changed ← change cells
    let memory ← memory.write ref changed
    some (memory, { v with size := size })

/-- `MojRefCountRelease`; the elements are destroyed with the last reference. -/
def release : Option (VectorMemory α) :=
  match v.begin with
  | none => some memory
  | some ref => do
    let object ← memory.objects ref
    if object.refCount = 1 then (object.content.destroy v.size 0).bind fun _ => memory.release ref
    else memory.release ref

def retain : Option (VectorMemory α) :=
  match v.begin with
  | none => some memory
  | some ref => memory.retain ref

/-- A temporary vector takes the elements, and then the old memory to release it. -/
def realloc (numElems : Nat) : Option (VectorMemory α × MojVector) := do
  let source ← v.cells memory
  let copied ← source.copyFrom v.size 0 (List.replicate numElems none)
  let after ← v.release (memory.alloc copied)
  some (after, ⟨some memory.next, v.size, numElems⟩)

def ensureWritable : Option (VectorMemory α × MojVector) :=
  match v.begin with
  | none => some (memory, v)
  | some ref => do
    let object ← memory.objects ref
    if 1 < object.refCount then v.realloc memory v.capacity else some (memory, v)

def ensureSpace (numElems : Nat) : Option (VectorMemory α × MojVector) :=
  if v.capacity < numElems then do
    let (memory, v) ← v.realloc memory (max numElems (max initialSize (v.capacity * 2)))
    v.ensureWritable memory
  else v.ensureWritable memory

def clear : Option (VectorMemory α × MojVector) :=
  if v.size = 0 then some (memory, v)
  else do
    let ref ← v.begin
    let object ← memory.objects ref
    if object.refCount = 1 then v.update memory (Cells.destroy v.size 0) 0
    else (v.release memory).map fun memory => (memory, new)

/-- The other's memory is retained after this one's has been released. -/
def assign (other : MojVector) : Option (VectorMemory α × MojVector) := do
  let memory ← v.release memory
  let memory ← other.retain memory
  some (memory, other)

def reserve (numElems : Nat) : Option (VectorMemory α × MojVector) :=
  if v.capacity < numElems then v.realloc memory numElems else some (memory, v)

def push (val : α) : Option (VectorMemory α × MojVector) := do
  let (memory, v) ← v.ensureSpace memory (v.size + 1)
  v.update memory (fun cells => cells.construct v.size val) (v.size + 1)

def setAt (idx : Nat) (val : α) : Option (VectorMemory α × MojVector) :=
  if idx < v.size then do
    let (memory, v) ← v.ensureWritable memory
    v.update memory (fun cells => cells.assign idx val) v.size
  else none

def append (vals : List α) : Option (VectorMemory α × MojVector) := do
  let (memory, v) ← v.ensureSpace memory (v.size + vals.length)
  v.update memory (Cells.constructAll vals v.size) (v.size + vals.length)

def assignRange (vals : List α) : Option (VectorMemory α × MojVector) := do
  let (memory, v) ← v.clear memory
  v.append memory vals

/-- The three loops of `shift`; `default` is what `T()` constructs. -/
def shiftCells [Inhabited α] (size idx numElems : Nat) (cells : Cells α) : Option (Cells α) := do
  let numMove := size - idx
  let numCopyConstruct := min numElems numMove
  let numDefaultConstruct := numElems - numCopyConstruct
  let numAssign := numMove - numCopyConstruct
  let cells ← Cells.constructAll (List.replicate numDefaultConstruct default) size cells
  let cells ← Cells.copyTail numElems numCopyConstruct (size + numDefaultConstruct) cells
  Cells.assignDown numElems numAssign size cells

def shift [Inhabited α] (idx numElems : Nat) : Option (VectorMemory α × MojVector) :=
  if idx ≤ v.size then do
    let (memory, v) ← v.ensureSpace memory (v.size + numElems)
    v.update memory (shiftCells v.size idx numElems) (v.size + numElems)
  else none

/-- Both kinds of `insert`: the elements of a range, or so many copies of one. -/
def insert [Inhabited α] (idx : Nat) (vals : List α) : Option (VectorMemory α × MojVector) := do
  let (memory, v) ← v.shift memory idx vals.length
  v.update memory (Cells.assignAll vals idx) v.size

/-- `MojDestroy` asserts that there is memory, even for no elements. -/
def erase (idx numElems : Nat) : Option (VectorMemory α × MojVector) :=
  if idx + numElems ≤ v.size then do
    let (memory, v) ← v.ensureWritable memory
    let numMove := v.size - (idx + numElems)
    let _ ← v.begin
    v.update memory
      (fun cells => (Cells.moveDown numElems numMove idx cells).bind
        (Cells.destroy numElems (v.size - numElems)))
      (v.size - numElems)
  else none

def pop : Option (VectorMemory α × MojVector) :=
  if v.size = 0 then none else v.erase memory (v.size - 1) 1

def resize [Inhabited α] (numElems : Nat) (val : α) : Option (VectorMemory α × MojVector) :=
  if v.size < numElems then v.insert memory v.size (List.replicate (numElems - v.size) val)
  else if numElems < v.size then v.erase memory numElems (v.size - numElems)
  else some (memory, v)

def reverse : Option (VectorMemory α × MojVector) :=
  if 1 < v.size then do
    let (memory, v) ← v.ensureWritable memory
    v.update memory (Cells.reverseLoop v.size 0 (v.size - 1)) v.size
  else some (memory, v)

def sort (less : α → α → Bool) (choose : Nat → Nat) : Option (VectorMemory α × MojVector) :=
  if 1 < v.size then do
    let (memory, v) ← v.ensureWritable memory
    v.update memory (Cells.sort less choose v.size) v.size
  else some (memory, v)

end Operations

def held (v : MojVector) : List Nat := v.begin.toList

structure Reads (memory : VectorMemory α) (v : MojVector) (xs : List α) : Prop where
  size : v.size = xs.length
  fits : xs.length ≤ v.capacity
  cells : v.cells memory = some (Cells.laid xs v.capacity)

def Sole (memory : VectorMemory α) (v : MojVector) : Prop :=
  ∀ ref, v.begin = some ref → memory.refs ref = 1

structure Ready (memory : VectorMemory α) (v : MojVector) (after : VectorMemory α)
    (next : MojVector) (xs : List α) : Prop where
  moves : Memory.Moves memory v.held after next.held
  reads : Reads after next xs
  sole : Sole after next

def Readies (memory : VectorMemory α) (v : MojVector)
    (result : Option (VectorMemory α × MojVector)) (xs : List α) : Prop :=
  ∃ after next, result = some (after, next) ∧ Ready memory v after next xs

/-- An operation leaves the handle with these elements, and all others as they are. -/
def Gives (memory : VectorMemory α) (v : MojVector)
    (result : Option (VectorMemory α × MojVector)) (xs : List α) : Prop :=
  ∃ after next, result = some (after, next) ∧ Memory.Moves memory v.held after next.held ∧
    Reads after next xs

section Handles

variable {memory after : VectorMemory α} {v next : MojVector} {xs : List α}

theorem Readies.gives {result : Option (VectorMemory α × MojVector)}
    (readies : Readies memory v result xs) : Gives memory v result xs := by
  rcases readies with ⟨after, next, done, ready⟩
  exact ⟨after, next, done, ready.moves, ready.reads⟩

theorem Reads.begin (reads : Reads memory v xs) (more : xs ≠ []) : ∃ ref, v.begin = some ref := by
  rcases null : v.begin with _ | ref
  · have cells := reads.cells
    have length := Cells.length_laid reads.fits
    rw [MojVector.cells, null] at cells
    rw [← Option.some.inj cells] at length
    have none_ := reads.fits
    rw [← length] at none_
    exact absurd (List.length_eq_zero_iff.mp (Nat.le_zero.mp none_)) more
  · exact ⟨ref, rfl⟩

theorem reads_new (memory : VectorMemory α) : Reads memory new [] :=
  ⟨rfl, Nat.le_refl 0, rfl⟩

theorem Reads.other (reads : Reads memory v xs)
    (same : ∀ ref ∈ v.held, after.content ref = memory.content ref) : Reads after v xs := by
  refine ⟨reads.size, reads.fits, ?_⟩
  rw [← reads.cells, MojVector.cells, MojVector.cells]
  rcases null : v.begin with _ | ref
  · rfl
  · exact same ref (by rw [held, null]; exact List.mem_singleton_self ref)

theorem Reads.counted (reads : Reads memory v xs) (sound : memory.Sound) {ref : Nat}
    (begins : v.begin = some ref) : ∃ object, memory.objects ref = some object ∧
      object.content = Cells.laid xs v.capacity ∧ memory.refs ref = object.refCount ∧
      0 < object.refCount := by
  have cells := reads.cells
  rw [MojVector.cells, begins] at cells
  rcases Memory.refs_of_content cells with ⟨object, there, content, count⟩
  exact ⟨object, there, content, count, sound.counted ref object there⟩

theorem Reads.release (reads : Reads memory v xs) (sound : memory.Sound) :
    ∃ after, v.release memory = some after ∧ Memory.Moves memory v.held after [] := by
  rcases begins : v.begin with _ | ref
  · refine ⟨memory, by rw [MojVector.release, begins], ?_⟩
    rw [held, begins]
    exact Memory.Moves.refl sound []
  · rcases reads.counted sound begins with ⟨object, there, content, -, -⟩
    have found : memory.content ref = some object.content := by
      rw [Memory.content, there]
      rfl
    rcases Memory.moves_release sound found with ⟨after, released, moves⟩
    refine ⟨after, ?_, by rw [held, begins]; exact moves⟩
    rw [MojVector.release, begins]
    dsimp only
    rw [there, Option.bind_eq_bind, Option.bind_some]
    split_ifs
    · have destroyed := Cells.destroy_laid xs.length (Nat.le_refl xs.length) reads.fits
      rw [Nat.sub_self] at destroyed
      rw [content, reads.size, destroyed, Option.bind_some]
      exact released
    · exact released

theorem Reads.retain (reads : Reads memory v xs) (sound : memory.Sound) :
    ∃ after, v.retain memory = some after ∧ Memory.Moves memory [] after v.held ∧
      ∀ other, after.content other = memory.content other := by
  rcases begins : v.begin with _ | ref
  · refine ⟨memory, by rw [MojVector.retain, begins], ?_, fun _ => rfl⟩
    rw [held, begins]
    exact Memory.Moves.refl sound []
  · have cells := reads.cells
    rw [MojVector.cells, begins] at cells
    rcases Memory.moves_retain sound cells with ⟨after, retained, moves, contents⟩
    refine ⟨after, by rw [MojVector.retain, begins]; exact retained, ?_, contents⟩
    rw [held, begins]
    exact moves

theorem Reads.realloc (reads : Reads memory v xs) (sound : memory.Sound) (numElems : Nat)
    (room : xs.length ≤ numElems) : ∃ after next, v.realloc memory numElems = some (after, next) ∧
      Ready memory v after next xs ∧ next.capacity = numElems ∧ next.begin ≠ none := by
  have copied := @Cells.copyFrom_laid α [] numElems xs v.capacity reads.fits xs.length
    (Nat.zero_add _) rfl room
  rcases Memory.moves_alloc sound (Cells.laid xs numElems) with ⟨allocated, content, sole⟩
  have apart : memory.next ∉ v.held := by
    intro member
    rcases begins : v.begin with _ | ref
    · rw [held, begins] at member
      cases member
    · rw [held, begins, Option.toList_some, List.mem_singleton] at member
      rcases reads.counted sound begins with ⟨object, there, -, -, -⟩
      rw [← member, sound.fresh memory.next (Nat.le_refl _)] at there
      cases there
  have stays : Reads (memory.alloc (Cells.laid xs numElems)) v xs := by
    apply reads.other
    intro ref member
    apply allocated.others
    rw [held, Option.mem_toList] at member
    rcases reads.counted sound member with ⟨object, -, -, count, positive⟩
    rw [count]
    exact positive
  rcases stays.release allocated.sound with ⟨after, released, moves⟩
  have zero : v.held.count memory.next = 0 := List.count_eq_zero_of_not_mem apart
  refine ⟨after, ⟨some memory.next, v.size, numElems⟩, ?_, ⟨?_, ?_, ?_⟩, rfl,
    Option.some_ne_none _⟩
  · rw [MojVector.realloc, reads.cells, Option.bind_eq_bind, Option.bind_some, reads.size]
    rw [Cells.laid_nil] at copied
    rw [List.length_nil] at copied
    rw [copied, Option.bind_eq_bind, Option.bind_some, released]
    rfl
  · have one := allocated.frame v.held
    have two := moves.frame [memory.next]
    exact one.trans (two.perm List.perm_append_comm (List.Perm.refl _))
  · refine ⟨reads.size, room, ?_⟩
    exact (moves.others memory.next (by rw [zero, sole]; exact Nat.one_pos)).trans content
  · intro ref same
    cases same
    have refs := moves.refs memory.next
    rw [zero, sole] at refs
    exact refs

theorem Reads.ensureWritable (reads : Reads memory v xs) (sound : memory.Sound) :
    ∃ after next, v.ensureWritable memory = some (after, next) ∧ Ready memory v after next xs ∧
      next.capacity = v.capacity ∧ (v.begin ≠ none → next.begin ≠ none) := by
  rcases begins : v.begin with _ | ref
  · refine ⟨memory, v, by rw [MojVector.ensureWritable, begins],
      ⟨Memory.Moves.refl sound _, reads, ?_⟩, rfl, fun some_ => absurd rfl some_⟩
    intro ref same
    rw [begins] at same
    cases same
  · rcases reads.counted sound begins with ⟨object, there, -, count, positive⟩
    rw [MojVector.ensureWritable, begins]
    dsimp only
    rw [there, Option.bind_eq_bind, Option.bind_some]
    split_ifs with shared
    · rcases reads.realloc sound v.capacity reads.fits with ⟨after, next, done, ready, same, there⟩
      exact ⟨after, next, done, ready, same, fun _ => there⟩
    · refine ⟨memory, v, rfl, ⟨Memory.Moves.refl sound _, reads, ?_⟩, rfl, ?_⟩
      · intro other same
        rw [begins] at same
        cases same
        omega
      · rw [begins]
        exact id

theorem Ready.trans {middle : VectorMemory α} {between : MojVector}
    (one : Memory.Moves memory v.held middle between.held)
    (two : Ready middle between after next xs) : Ready memory v after next xs :=
  ⟨one.trans two.moves, two.reads, two.sole⟩

theorem Reads.ensureSpace (reads : Reads memory v xs) (sound : memory.Sound) (numElems : Nat) :
    ∃ after next, v.ensureSpace memory numElems = some (after, next) ∧
      Ready memory v after next xs ∧ numElems ≤ next.capacity := by
  rw [MojVector.ensureSpace]
  split_ifs with short
  · have fits := reads.fits
    rcases reads.realloc sound (max numElems (max initialSize (v.capacity * 2))) (by omega) with
      ⟨middle, between, moved, ready, room, -⟩
    rcases ready.reads.ensureWritable ready.moves.sound with ⟨after, next, done, last, same, -⟩
    refine ⟨after, next, ?_, Ready.trans ready.moves last, by omega⟩
    rw [moved]
    exact done
  · rcases reads.ensureWritable sound with ⟨after, next, done, ready, same, -⟩
    exact ⟨after, next, done, ready, by omega⟩

theorem Ready.update (ready : Ready memory v after next xs) (ys : List α)
    (change : Cells α → Option (Cells α))
    (changed : change (Cells.laid xs next.capacity) = some (Cells.laid ys next.capacity))
    (fits : ys.length ≤ next.capacity) : Readies memory v (next.update after change ys.length) ys := by
  have cells := ready.reads.cells
  rcases begins : next.begin with _ | ref
  · rw [MojVector.cells, begins] at cells
    have empty := Cells.length_laid ready.reads.fits
    rw [← Option.some.inj cells] at empty
    rw [← empty] at fits
    have nil : ys = [] := List.length_eq_zero_iff.mp (Nat.le_zero.mp fits)
    refine ⟨after, { next with size := ys.length }, ?_, ready.moves, ⟨rfl, ?_, ?_⟩, ready.sole⟩
    · rw [MojVector.update, begins]
      dsimp only
      rw [Option.some.inj cells, changed]
      rfl
    · rw [nil]
      exact Nat.zero_le _
    · rw [MojVector.cells, begins, nil, Cells.laid_nil]
      dsimp only
      rw [← empty]
      rfl
  · rw [MojVector.cells, begins] at cells
    dsimp only at cells
    rcases Memory.moves_write ready.moves.sound (ready.sole ref begins)
      (Cells.laid ys next.capacity) with ⟨last, written, moves, content, sole⟩
    refine ⟨last, { next with size := ys.length }, ?_, ?_, ⟨rfl, fits, ?_⟩, ?_⟩
    · rw [MojVector.update, begins]
      dsimp only
      rw [cells, Option.bind_eq_bind, Option.bind_some, changed, Option.bind_eq_bind,
        Option.bind_some, written]
      rfl
    · refine ready.moves.trans ?_
      rw [held, held, begins]
      exact moves
    · rw [MojVector.cells, begins]
      exact content
    · intro other same
      rw [begins] at same
      cases same
      exact sole

end Handles

section Shift

variable {xs : List α} {idx numElems capacity : Nat}

/-- What the first two loops of `shift` leave: the list, and past new elements its own end again. -/
theorem getElem?_moved {few many : Nat} (default_ : α) (all : few + many = numElems)
    (inside : many ≤ xs.length) (i : Nat) :
    (xs ++ List.replicate few default_ ++ ((xs ++ List.replicate few default_).drop
      (xs.length + few - numElems)).take many)[i]? =
      if i < xs.length then xs[i]?
      else if i < xs.length + few then some default_
      else xs[i - numElems]? := by
  have length : (xs ++ List.replicate few default_).length = xs.length + few := by
    rw [List.length_append, List.length_replicate]
  rw [List.getElem?_append, length]
  by_cases inList : i < xs.length
  · rw [if_pos (by omega), if_pos inList, List.getElem?_append_left inList]
  · rw [if_neg inList]
    by_cases new : i < xs.length + few
    · rw [if_pos new, if_pos new, List.getElem?_append_right (by omega), List.getElem?_replicate,
        if_pos (by omega)]
    · rw [if_neg new, if_neg new, List.getElem?_take]
      split_ifs with more
      · have from_ : xs.length + few - numElems + (i - (xs.length + few)) = i - numElems := by omega
        rw [List.getElem?_drop, from_, List.getElem?_append_left (by omega)]
      · rw [List.getElem?_eq_none (by omega)]

theorem shiftCells_laid [Inhabited α] (inside : idx ≤ xs.length)
    (room : xs.length + numElems ≤ capacity) :
    ∃ zs, shiftCells xs.length idx numElems (Cells.laid xs capacity) =
        some (Cells.laid zs capacity) ∧
      zs.length = xs.length + numElems ∧ zs.take idx = xs.take idx ∧
      zs.drop (idx + numElems) = xs.drop idx := by
  obtain ⟨many, manyIs⟩ : ∃ many, many = min numElems (xs.length - idx) := ⟨_, rfl⟩
  obtain ⟨few, fewIs⟩ : ∃ few, few = numElems - many := ⟨_, rfl⟩
  have all : few + many = numElems := by omega
  obtain ⟨moved, movedIs⟩ : ∃ moved, moved = xs ++ List.replicate few (default : α) ++
      ((xs ++ List.replicate few default).drop (xs.length + few - numElems)).take many := ⟨_, rfl⟩
  have length : (xs ++ List.replicate few (default : α)).length = xs.length + few := by
    rw [List.length_append, List.length_replicate]
  have movedLength : moved.length = xs.length + numElems := by
    rw [movedIs, List.length_append, length, List.length_take, List.length_drop, length]
    omega
  have roomFew : xs.length + (List.replicate few (default : α)).length ≤ capacity := by
    rw [List.length_replicate]
    omega
  have roomMany : (xs ++ List.replicate few (default : α)).length + many ≤ capacity := by
    rw [length]
    omega
  have roomMoved : moved.length ≤ capacity := by omega
  have first := Cells.constructAll_laid (List.replicate few (default : α)) roomFew
  have second := Cells.copyTail_laid numElems many (by omega) (by rw [length]; omega) roomMany
  rw [length, ← movedIs] at second
  rcases Cells.assignDown_laid numElems (xs.length - idx - many) xs.length (by omega) (by omega)
    roomMoved with
    ⟨zs, third, same, elems⟩
  have looks := @getElem?_moved α xs numElems few many default all (by omega)
  rw [← movedIs] at looks
  refine ⟨zs, ?_, by omega, ?_, ?_⟩
  · rw [shiftCells, ← manyIs, ← fewIs, first]
    dsimp only [Option.bind_eq_bind, Option.bind_some]
    rw [second]
    exact third
  · apply List.ext_getElem?
    intro i
    rw [List.getElem?_take, List.getElem?_take]
    split_ifs with before
    · rw [elems, if_neg (by omega), looks, if_pos (by omega)]
    · rfl
  · apply List.ext_getElem?
    intro i
    have back : idx + numElems + i - numElems = idx + i := by omega
    rw [List.getElem?_drop, List.getElem?_drop, elems]
    split_ifs with assigned
    · rw [looks, back, if_pos (by omega)]
    · rw [looks, if_neg (by omega), if_neg (by omega), back]

end Shift

section Lists

variable {memory : VectorMemory α} {v : MojVector} {xs : List α} (reads : Reads memory v xs)
  (sound : memory.Sound)
include reads sound

theorem reserve_gives (numElems : Nat) : Gives memory v (v.reserve memory numElems) xs := by
  rw [reserve]
  split_ifs with short
  · have fits := reads.fits
    rcases reads.realloc sound numElems (by omega) with ⟨after, next, done, ready, -⟩
    exact ⟨after, next, done, ready.moves, ready.reads⟩
  · exact ⟨memory, v, rfl, Memory.Moves.refl sound _, reads⟩

theorem push_gives (val : α) : Gives memory v (v.push memory val) (xs ++ [val]) := by
  rcases reads.ensureSpace sound (v.size + 1) with ⟨after, next, done, ready, room⟩
  have size := ready.reads.size
  rw [reads.size] at room
  have last := ready.update (xs ++ [val]) (fun cells => cells.construct next.size val)
    (by rw [size]; exact Cells.construct_laid room val)
    (by rw [List.length_append]; exact room)
  rw [List.length_append, List.length_singleton, ← size] at last
  rw [push, done]
  exact last.gives

theorem setAt_gives {idx : Nat} (inside : idx < xs.length) (val : α) :
    Gives memory v (v.setAt memory idx val) (xs.set idx val) := by
  rcases reads.ensureWritable sound with ⟨after, next, done, ready, -⟩
  have last := ready.update (xs.set idx val) (fun cells => cells.assign idx val)
    (Cells.assign_laid ready.reads.fits inside val)
    (by rw [List.length_set]; exact ready.reads.fits)
  rw [List.length_set, ← ready.reads.size] at last
  rw [setAt, if_pos (by rw [reads.size]; exact inside), done]
  exact last.gives

theorem append_gives (vals : List α) : Gives memory v (v.append memory vals) (xs ++ vals) := by
  rcases reads.ensureSpace sound (v.size + vals.length) with ⟨after, next, done, ready, room⟩
  have size := ready.reads.size
  rw [reads.size] at room
  have last := ready.update (xs ++ vals) (Cells.constructAll vals next.size)
    (by rw [size]; exact Cells.constructAll_laid vals room)
    (by rw [List.length_append]; exact room)
  rw [List.length_append, ← size] at last
  rw [append, done]
  exact last.gives

theorem clear_gives : Gives memory v (v.clear memory) [] := by
  rw [clear]
  split_ifs with empty
  · have nil : xs = [] := List.length_eq_zero_iff.mp (reads.size.symm.trans empty)
    exact ⟨memory, v, rfl, Memory.Moves.refl sound _, nil ▸ reads⟩
  · have more : xs ≠ [] := by
      intro nil
      rw [reads.size, nil] at empty
      exact empty rfl
    rcases reads.begin more with ⟨ref, begins⟩
    rcases reads.counted sound begins with ⟨object, there, -, count, -⟩
    rw [begins, Option.bind_eq_bind, Option.bind_some, there, Option.bind_eq_bind, Option.bind_some]
    split_ifs with last
    · have ready : Ready memory v memory v xs := by
        refine ⟨Memory.Moves.refl sound _, reads, ?_⟩
        intro other same
        rw [begins] at same
        cases same
        rw [count]
        exact last
      have destroyed := Cells.destroy_laid xs.length (Nat.le_refl xs.length) reads.fits
      rw [Nat.sub_self, List.take_zero, ← reads.size] at destroyed
      exact (ready.update [] (Cells.destroy v.size 0) destroyed (Nat.zero_le _)).gives
    · rcases reads.release sound with ⟨after, released, moves⟩
      exact ⟨after, new, by rw [released]; rfl, moves, reads_new after⟩

theorem assignRange_gives (vals : List α) : Gives memory v (v.assignRange memory vals) vals := by
  rcases clear_gives reads sound with ⟨after, next, done, moves, cleared⟩
  rcases append_gives cleared moves.sound vals with ⟨last, final, appended, more, filled⟩
  refine ⟨last, final, ?_, moves.trans more, filled⟩
  rw [assignRange, done]
  exact appended

theorem insert_gives [Inhabited α] {idx : Nat} (inside : idx ≤ xs.length) (vals : List α) :
    Gives memory v (v.insert memory idx vals) (xs.take idx ++ vals ++ xs.drop idx) := by
  rcases reads.ensureSpace sound (v.size + vals.length) with ⟨after, next, done, ready, room⟩
  rw [reads.size] at room
  rcases shiftCells_laid inside room with ⟨zs, shifted, length, front, back⟩
  rcases ready.update zs (shiftCells next.size idx vals.length)
    (by rw [ready.reads.size]; exact shifted) (by rw [length]; exact room) with
    ⟨middle, between, moved, gap⟩
  have last := gap.update _ (Cells.assignAll vals idx)
    (Cells.assignAll_laid vals idx (by omega) gap.reads.fits) (by
      rw [List.length_append, List.length_append, List.length_take, List.length_drop]
      have fits := gap.reads.fits
      omega)
  have size : (zs.take idx ++ vals ++ zs.drop (idx + vals.length)).length = between.size := by
    rw [List.length_append, List.length_append, List.length_take, List.length_drop, gap.reads.size]
    omega
  rw [size, front, back] at last
  rw [length, ← ready.reads.size] at moved
  rw [insert, shift, if_pos (by rw [reads.size]; exact inside), done]
  dsimp only [Option.bind_eq_bind, Option.bind_some]
  rw [moved]
  exact last.gives

theorem erase_gives (idx numElems : Nat) (inside : idx + numElems ≤ xs.length)
    (there : v.begin ≠ none) :
    Gives memory v (v.erase memory idx numElems) (xs.take idx ++ xs.drop (idx + numElems)) := by
  rcases reads.ensureWritable sound with ⟨after, next, done, ready, -, stays⟩
  have size := ready.reads.size
  have begins : ∃ ref, next.begin = some ref := by
    rcases null : next.begin with _ | ref
    · exact absurd null (stays there)
    · exact ⟨ref, rfl⟩
  rcases begins with ⟨ref, begins⟩
  rcases Cells.moveDown_laid numElems (xs.length - (idx + numElems)) idx (by omega)
    ready.reads.fits with ⟨ys, moved, length, elems⟩
  have kept : ys.take (ys.length - numElems) = xs.take idx ++ xs.drop (idx + numElems) := by
    apply List.ext_getElem?
    intro i
    rw [List.getElem?_take, List.getElem?_append, List.length_take, elems, length]
    split_ifs with inList assigned before before before
    · omega
    · rw [List.getElem?_drop]
      congr 1
      omega
    · rw [List.getElem?_take, if_pos (by omega)]
    · omega
    · omega
    · rw [List.getElem?_drop, List.getElem?_eq_none (by omega)]
  have ysFits : ys.length ≤ next.capacity := length.trans_le ready.reads.fits
  have destroyed := Cells.destroy_laid numElems (by omega) ysFits
  rw [kept, length] at destroyed
  have last := ready.update (xs.take idx ++ xs.drop (idx + numElems)) (fun cells =>
      (Cells.moveDown numElems (next.size - (idx + numElems)) idx cells).bind
        (Cells.destroy numElems (next.size - numElems)))
    (by rw [size, moved, Option.bind_some]; exact destroyed)
    (by
      rw [← kept, List.length_take]
      have fits := ready.reads.fits
      omega)
  have left : (xs.take idx ++ xs.drop (idx + numElems)).length = next.size - numElems := by
    rw [List.length_append, List.length_take, List.length_drop, size]
    omega
  rw [left] at last
  rw [erase, if_pos (by rw [reads.size]; exact inside), done, Option.bind_eq_bind, Option.bind_some]
  dsimp only
  rw [begins]
  exact last.gives

theorem pop_gives (more : xs ≠ []) : Gives memory v (v.pop memory) xs.dropLast := by
  rcases reads.begin more with ⟨ref, begins⟩
  have positive := List.length_pos_iff.mpr more
  have erased := erase_gives reads sound (xs.length - 1) 1 (by omega)
    (by rw [begins]; exact Option.some_ne_none ref)
  rw [List.drop_of_length_le (by omega), List.append_nil, ← List.dropLast_eq_take] at erased
  rw [pop, if_neg (by rw [reads.size]; omega), reads.size]
  exact erased

theorem resize_gives [Inhabited α] (numElems : Nat) (val : α) :
    Gives memory v (v.resize memory numElems val)
      (xs.take numElems ++ List.replicate (numElems - xs.length) val) := by
  rw [resize, reads.size]
  split_ifs with longer shorter
  · have inserted := insert_gives reads sound (Nat.le_refl xs.length)
      (List.replicate (numElems - xs.length) val)
    rw [List.take_length, List.drop_length, List.append_nil] at inserted
    rw [List.take_of_length_le (Nat.le_of_lt longer)]
    exact inserted
  · have more : xs ≠ [] := List.length_pos_iff.mp (Nat.zero_lt_of_lt shorter)
    rcases reads.begin more with ⟨ref, begins⟩
    have erased := erase_gives reads sound numElems (xs.length - numElems) (by omega) (by rw [begins]; exact Option.some_ne_none ref)
    rw [List.drop_of_length_le (by omega), List.append_nil] at erased
    rw [Nat.sub_eq_zero_of_le (Nat.le_of_lt shorter), List.replicate_zero, List.append_nil]
    exact erased
  · have same : numElems = xs.length := by omega
    rw [same, Nat.sub_self, List.take_length, List.replicate_zero, List.append_nil]
    exact ⟨memory, v, rfl, Memory.Moves.refl sound _, reads⟩

theorem reverse_gives : Gives memory v (v.reverse memory) xs.reverse := by
  rw [reverse]
  split_ifs with several
  · rw [reads.size] at several
    rcases reads.ensureWritable sound with ⟨after, next, done, ready, -⟩
    have size := ready.reads.size
    rcases Cells.reverseLoop_laid xs.length 0 (xs.length - 1) (by omega) (by omega)
      ready.reads.fits with ⟨ys, turned, length, elems⟩
    have reversed : ys = xs.reverse := by
      apply List.ext_getElem?
      intro i
      rw [elems]
      split_ifs with inside
      · rw [List.getElem?_reverse (by omega)]
      · rw [List.getElem?_eq_none (by omega), List.getElem?_eq_none]
        rw [List.length_reverse]
        omega
    have last := ready.update xs.reverse (Cells.reverseLoop next.size 0 (next.size - 1))
      (by rw [size, turned, reversed])
      (by rw [List.length_reverse]; exact ready.reads.fits)
    rw [List.length_reverse, ← size] at last
    rw [done]
    exact last.gives
  · have same : xs.reverse = xs := by
      rw [reads.size] at several
      rcases xs with _ | ⟨x, _ | ⟨y, rest⟩⟩
      · rfl
      · rfl
      · exact absurd (Nat.succ_lt_succ (Nat.succ_pos rest.length)) several
    rw [same]
    exact ⟨memory, v, rfl, Memory.Moves.refl sound _, reads⟩

theorem sort_gives (less : α → α → Bool) (choose : Nat → Nat) :
    Gives memory v (v.sort memory less choose) (Sorting.quickSort less choose xs) := by
  have length := (@Sorting.quickSort_perm _ less choose xs).length_eq
  rw [sort]
  split_ifs with several
  · rcases reads.ensureWritable sound with ⟨after, next, done, ready, -⟩
    have size := ready.reads.size
    have last := ready.update (Sorting.quickSort less choose xs)
      (Cells.sort less choose next.size)
      (by rw [size]; exact Cells.sort_laid less choose ready.reads.fits)
      (by rw [length]; exact ready.reads.fits)
    rw [length, ← size] at last
    rw [done]
    exact last.gives
  · have same : Sorting.quickSort less choose xs = xs := by
      rw [reads.size] at several
      rcases xs with _ | ⟨x, _ | ⟨y, rest⟩⟩
      · rfl
      · rfl
      · exact absurd (Nat.succ_lt_succ (Nat.succ_pos rest.length)) several
    rw [same]
    exact ⟨memory, v, rfl, Memory.Moves.refl sound _, reads⟩

theorem assign_gives {other : MojVector} {ys : List α} (source : Reads memory other ys)
    (elsewhere : ∀ ref ∈ other.held, v.held.count ref < memory.refs ref) :
    Gives memory v (v.assign memory other) ys := by
  rcases reads.release sound with ⟨middle, released, gone⟩
  have stays : Reads middle other ys :=
    source.other fun ref member => gone.others ref (elsewhere ref member)
  rcases stays.retain gone.sound with ⟨after, retained, moves, same⟩
  refine ⟨after, other, ?_, gone.trans moves, stays.other fun ref _ => same ref⟩
  rw [assign, released, Option.bind_eq_bind, Option.bind_some, retained]
  rfl

end Lists

end MojVector

end Db8.Core
