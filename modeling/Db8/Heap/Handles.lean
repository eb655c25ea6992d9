import Db8.Heap.Sharing
import Mathlib.Data.List.Forall2

/-!
# Handles on shared objects

Any number of handles, each with the references it holds and read as a value of its own. While the
references they hold are all there are, what is done through one handle is read by no other.
-/

set_option autoImplicit false

namespace Db8.Heap

variable {γ H A : Type}

/-- How handles are read; a handle's value rests on nothing but the objects it refers to. -/
structure View (γ H A : Type) where
  held : H → List Nat
  reads : Memory γ → H → A → Prop
  stays : ∀ {memory after : Memory γ} {handle : H} {value : A}, reads memory handle value →
    (∀ ref ∈ held handle, after.content ref = memory.content ref) → reads after handle value

/-- An operation through a handle leaves it with a value, and all other references as they are. -/
def View.Gives (view : View γ H A) (memory : Memory γ) (handle : H)
    (result : Option (Memory γ × H)) (value : A) : Prop :=
  ∃ after next, result = some (after, next) ∧
    Memory.Moves memory (view.held handle) after (view.held next) ∧ view.reads after next value

structure View.Stands (view : View γ H A) (memory : Memory γ) (handles : List H) (values : List A) :
    Prop where
  valid : Memory.Valid memory (handles.flatMap view.held)
  reads : List.Forall₂ (view.reads memory) handles values

theorem forall₂_splits {R : H → A → Prop} {handles : List H} {values : List A}
    (all : List.Forall₂ R handles values) {place : Nat} {handle : H}
    (found : handles[place]? = some handle) :
    ∃ front back firsts value lasts, handles = front ++ handle :: back ∧
      values = firsts ++ value :: lasts ∧ front.length = place ∧ firsts.length = place ∧
      List.Forall₂ R front firsts ∧ R handle value ∧ List.Forall₂ R back lasts := by
  induction all generalizing place with
  | nil => cases found
  | @cons other value handles values one all ih =>
    cases place with
    | zero =>
      cases found
      exact ⟨[], handles, [], value, values, rfl, rfl, rfl, rfl, .nil, one, all⟩
    | succ place =>
      rcases ih found with
        ⟨front, back, firsts, here, lasts, rfl, rfl, length, firstLength, before, reads, after⟩
      exact ⟨other :: front, back, value :: firsts, here, lasts, rfl, rfl,
        congrArg Nat.succ length, congrArg Nat.succ firstLength, .cons one before, reads, after⟩

namespace View

variable {view : View γ H A} {memory after : Memory γ} {handles : List H} {values : List A}

theorem held_perm (view : View γ H A) (front back : List H) (handle : H) :
    ((front ++ handle :: back).flatMap view.held).Perm
      (view.held handle ++ (front ++ back).flatMap view.held) := by
  rw [List.flatMap_append, List.flatMap_cons, List.flatMap_append, ← List.append_assoc,
    ← List.append_assoc]
  exact List.perm_append_comm.append_right _

theorem forall₂_keeps (all : List.Forall₂ (view.reads memory) handles values)
    (same : ∀ ref ∈ handles.flatMap view.held, after.content ref = memory.content ref) :
    List.Forall₂ (view.reads after) handles values := by
  induction all with
  | nil => exact .nil
  | @cons handle value handles values one all ih =>
    rw [List.flatMap_cons] at same
    exact .cons (view.stays one fun ref member => same ref (List.mem_append_left _ member))
      (ih fun ref member => same ref (List.mem_append_right _ member))

theorem stands_init (view : View γ H A) : view.Stands Memory.init [] [] :=
  ⟨⟨Memory.sound_init, fun _ => rfl⟩, .nil⟩

theorem Stands.at_place (stands : view.Stands memory handles values) {place : Nat} {handle : H}
    (found : handles[place]? = some handle) :
    ∃ value, values[place]? = some value ∧ view.reads memory handle value := by
  rcases forall₂_splits stands.reads found with
    ⟨front, back, firsts, value, lasts, -, rfl, -, length, -, here, -⟩
  refine ⟨value, ?_, here⟩
  rw [List.getElem?_append_right (Nat.le_of_eq length), length, Nat.sub_self]
  rfl

theorem Stands.moves {front back : List H} {firsts lasts : List A} {handle : H}
    {heldAfter : List Nat} (valid : Memory.Valid memory ((front ++ handle :: back).flatMap view.held))
    (before : List.Forall₂ (view.reads memory) front firsts)
    (behind : List.Forall₂ (view.reads memory) back lasts)
    (moves : Memory.Moves memory (view.held handle) after heldAfter) :
    Memory.Valid after (heldAfter ++ (front ++ back).flatMap view.held) ∧
      List.Forall₂ (view.reads after) front firsts ∧
      List.Forall₂ (view.reads after) back lasts := by
  have among := valid.perm (view.held_perm front back handle)
  have same := (moves.keeps among.holds).2
  rw [List.flatMap_append] at same
  exact ⟨among.moves moves, forall₂_keeps before fun ref member =>
    same ref (List.mem_append_left _ member), forall₂_keeps behind fun ref member =>
    same ref (List.mem_append_right _ member)⟩

theorem Stands.set (stands : view.Stands memory handles values) {place : Nat} {handle : H}
    (found : handles[place]? = some handle) {result : Option (Memory γ × H)} {value : A}
    (gives : view.Gives memory handle result value) :
    ∃ after next, result = some (after, next) ∧
      view.Stands after (handles.set place next) (values.set place value) := by
  rcases forall₂_splits stands.reads found with
    ⟨front, back, firsts, old, lasts, rfl, rfl, length, firstLength, before, -, behind⟩
  rcases gives with ⟨after, next, done, moves, reads⟩
  rcases Stands.moves stands.valid before behind moves with ⟨valid, beforeAfter, behindAfter⟩
  refine ⟨after, next, done, ?_, ?_⟩
  · rw [List.set_append_right _ _ (Nat.le_of_eq length), length, Nat.sub_self, List.set_cons_zero]
    exact valid.perm (view.held_perm front back next).symm
  · rw [List.set_append_right _ _ (Nat.le_of_eq length), length,
      List.set_append_right _ _ (Nat.le_of_eq firstLength), firstLength, Nat.sub_self,
      List.set_cons_zero, List.set_cons_zero]
    exact List.rel_append beforeAfter (.cons reads behindAfter)

theorem Stands.add (stands : view.Stands memory handles values) {next : H} {value : A}
    (moves : Memory.Moves memory [] after (view.held next)) (reads : view.reads after next value) :
    view.Stands after (handles ++ [next]) (values ++ [value]) := by
  have valid : Memory.Valid memory ([] ++ handles.flatMap view.held) := stands.valid
  have same := (moves.keeps valid.holds).2
  refine ⟨?_, List.rel_append (forall₂_keeps stands.reads same) (.cons reads .nil)⟩
  rw [List.flatMap_append, List.flatMap_singleton]
  exact (valid.moves moves).perm List.perm_append_comm

theorem Stands.erase (stands : view.Stands memory handles values) {place : Nat} {handle : H}
    (found : handles[place]? = some handle)
    (moves : Memory.Moves memory (view.held handle) after []) :
    view.Stands after (handles.eraseIdx place) (values.eraseIdx place) := by
  rcases forall₂_splits stands.reads found with
    ⟨front, back, firsts, old, lasts, rfl, rfl, length, firstLength, before, -, behind⟩
  rcases Stands.moves stands.valid before behind moves with ⟨valid, beforeAfter, behindAfter⟩
  refine ⟨?_, ?_⟩
  · rw [List.eraseIdx_append_of_length_le (Nat.le_of_eq length), length, Nat.sub_self,
      List.eraseIdx_cons_zero]
    exact valid
  · rw [List.eraseIdx_append_of_length_le (Nat.le_of_eq length), length,
      List.eraseIdx_append_of_length_le (Nat.le_of_eq firstLength), firstLength, Nat.sub_self,
      List.eraseIdx_cons_zero, List.eraseIdx_cons_zero]
    exact List.rel_append beforeAfter behindAfter

theorem Stands.elsewhere (stands : view.Stands memory handles values) {place source : Nat}
    {handle other : H} (found : handles[place]? = some handle)
    (otherFound : handles[source]? = some other) (apart : place ≠ source) :
    ∀ ref ∈ view.held other, (view.held handle).count ref < memory.refs ref := by
  rcases forall₂_splits stands.reads found with
    ⟨front, back, firsts, value, lasts, rfl, -, length, -, -, -, -⟩
  have member : other ∈ front ++ back := by
    rcases Nat.lt_or_ge source front.length with before | behind
    · rw [List.getElem?_append_left before] at otherFound
      exact List.mem_append_left back (List.mem_of_getElem? otherFound)
    · rw [List.getElem?_append_right behind] at otherFound
      rcases past : source - front.length with _ | rest
      · omega
      · rw [past, List.getElem?_cons_succ] at otherFound
        exact List.mem_append_right front (List.mem_of_getElem? otherFound)
  intro ref refers
  have holds := (stands.valid.perm (view.held_perm front back handle)).holds ref
  have there := List.count_pos_iff.mpr (List.mem_flatMap.mpr ⟨other, member, refers⟩)
  rw [List.count_append] at holds
  omega

end View

end Db8.Heap
