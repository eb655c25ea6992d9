import Mathlib.Data.List.Count
import Mathlib.Logic.Function.Basic

/-!
# Objects shared by counted references

A memory of objects, each with the number of references to it. An object is freed with its last
reference. What one party does with the references it holds keeps the counts of all others, and the
content of what the others refer to.
-/

set_option autoImplicit false

namespace Db8.Heap

variable {γ : Type*}

structure Shared (γ : Type*) where
  refCount : Nat
  content : γ

structure Memory (γ : Type*) where
  objects : Nat → Option (Shared γ)
  next : Nat

namespace Memory

def init : Memory γ := ⟨fun _ => none, 0⟩

def content (memory : Memory γ) (ref : Nat) : Option γ := (memory.objects ref).map Shared.content

def refs (memory : Memory γ) (ref : Nat) : Nat := (memory.objects ref).elim 0 Shared.refCount

def setAt (memory : Memory γ) (ref : Nat) (object : Option (Shared γ)) : Memory γ :=
  { memory with objects := Function.update memory.objects ref object }

def alloc (memory : Memory γ) (content : γ) : Memory γ :=
  { objects := Function.update memory.objects memory.next (some ⟨1, content⟩)
    next := memory.next + 1 }

def retain (memory : Memory γ) (ref : Nat) : Option (Memory γ) :=
  (memory.objects ref).map fun object =>
    memory.setAt ref (some { object with refCount := object.refCount + 1 })

def release (memory : Memory γ) (ref : Nat) : Option (Memory γ) :=
  (memory.objects ref).map fun object =>
    memory.setAt ref
      (if object.refCount = 1 then none
        else some { object with refCount := object.refCount - 1 })

def write (memory : Memory γ) (ref : Nat) (content : γ) : Option (Memory γ) :=
  (memory.objects ref).map fun object =>
    memory.setAt ref (some { object with content := content })

/-- Objects without references are freed, and new ones are put where none has been. -/
structure Sound (memory : Memory γ) : Prop where
  counted : ∀ ref object, memory.objects ref = some object → 0 < object.refCount
  fresh : ∀ ref, memory.next ≤ ref → memory.objects ref = none

theorem sound_init : (init : Memory γ).Sound := ⟨nofun, fun _ _ => rfl⟩

/-- A party that holds some references leaves the memory with others in their place. -/
structure Moves (memory : Memory γ) (held : List Nat) (after : Memory γ) (heldAfter : List Nat) :
    Prop where
  sound : after.Sound
  refs : ∀ ref, after.refs ref + held.count ref = memory.refs ref + heldAfter.count ref
  others : ∀ ref, held.count ref < memory.refs ref → after.content ref = memory.content ref

structure Valid (memory : Memory γ) (held : List Nat) : Prop where
  sound : memory.Sound
  refs : ∀ ref, memory.refs ref = held.count ref

section SetAt

variable {memory : Memory γ} {ref : Nat} {object : Option (Shared γ)}

theorem refs_setAt (other : Nat) : (memory.setAt ref object).refs other =
    if other = ref then object.elim 0 Shared.refCount else memory.refs other := by
  unfold refs setAt
  dsimp only
  rw [Function.update_apply]
  split_ifs <;> rfl

theorem content_setAt (other : Nat) : (memory.setAt ref object).content other =
    if other = ref then object.map Shared.content else memory.content other := by
  unfold content setAt
  dsimp only
  rw [Function.update_apply]
  split_ifs <;> rfl

theorem sound_setAt (sound : memory.Sound) (there : memory.objects ref ≠ none)
    (counted : ∀ shared, object = some shared → 0 < shared.refCount) :
    (memory.setAt ref object).Sound := by
  refine ⟨?_, ?_⟩
  · intro other shared found
    unfold setAt at found
    dsimp only at found
    rw [Function.update_apply] at found
    split_ifs at found
    · exact counted shared found
    · exact sound.counted other shared found
  · intro other beyond
    have apart : other ≠ ref := fun same => there (sound.fresh ref (same ▸ beyond))
    unfold setAt
    dsimp only
    rw [Function.update_of_ne apart]
    exact sound.fresh other beyond

end SetAt

section Moves

variable {memory middle after : Memory γ} {held heldMiddle heldAfter : List Nat} {ref : Nat}

theorem Moves.refl (sound : memory.Sound) (held : List Nat) : Moves memory held memory held :=
  ⟨sound, fun _ => rfl, fun _ _ => rfl⟩

theorem Moves.trans (one : Moves memory held middle heldMiddle)
    (two : Moves middle heldMiddle after heldAfter) : Moves memory held after heldAfter := by
  refine ⟨two.sound, ?_, ?_⟩
  · intro ref
    have first := one.refs ref
    have second := two.refs ref
    omega
  · intro ref more
    have first := one.refs ref
    rw [two.others ref (by omega), one.others ref more]

theorem Moves.frame (moves : Moves memory held after heldAfter) (frame : List Nat) :
    Moves memory (held ++ frame) after (heldAfter ++ frame) := by
  refine ⟨moves.sound, ?_, ?_⟩
  · intro ref
    have refs := moves.refs ref
    rw [List.count_append, List.count_append]
    omega
  · intro ref more
    rw [List.count_append] at more
    exact moves.others ref (by omega)

theorem Moves.perm (moves : Moves memory held after heldAfter) {one two : List Nat}
    (before : held.Perm one) (behind : heldAfter.Perm two) : Moves memory one after two := by
  refine ⟨moves.sound, ?_, ?_⟩
  · intro ref
    rw [← before.count_eq, ← behind.count_eq]
    exact moves.refs ref
  · intro ref more
    rw [← before.count_eq] at more
    exact moves.others ref more

theorem refs_of_content {content : γ} (found : memory.content ref = some content) :
    ∃ object, memory.objects ref = some object ∧ object.content = content ∧
      memory.refs ref = object.refCount := by
  rcases Option.map_eq_some_iff.mp found with ⟨object, there, same⟩
  refine ⟨object, there, same, ?_⟩
  rw [refs, there]
  rfl

theorem moves_alloc (sound : memory.Sound) (content : γ) :
    Moves memory [] (memory.alloc content) [memory.next] ∧
      (memory.alloc content).content memory.next = some content ∧
      (memory.alloc content).refs memory.next = 1 := by
  have fresh := sound.fresh memory.next (Nat.le_refl _)
  have refs : ∀ other, (memory.alloc content).refs other =
      if other = memory.next then 1 else memory.refs other := by
    intro other
    unfold Memory.refs alloc
    dsimp only
    rw [Function.update_apply]
    split_ifs <;> rfl
  have contents : ∀ other, (memory.alloc content).content other =
      if other = memory.next then some content else memory.content other := by
    intro other
    unfold Memory.content alloc
    dsimp only
    rw [Function.update_apply]
    split_ifs <;> rfl
  refine ⟨⟨⟨?_, ?_⟩, ?_, ?_⟩, ?_, ?_⟩
  · intro other object found
    unfold alloc at found
    dsimp only at found
    rw [Function.update_apply] at found
    split_ifs at found
    · cases found
      exact Nat.one_pos
    · exact sound.counted other object found
  · intro other beyond
    have apart : other ≠ memory.next := by
      unfold alloc at beyond
      dsimp only at beyond
      omega
    unfold alloc
    dsimp only at beyond ⊢
    rw [Function.update_of_ne apart]
    exact sound.fresh other (by unfold alloc at beyond; dsimp only at beyond; omega)
  · intro other
    rw [refs]
    by_cases same : other = memory.next
    · rw [if_pos same, same, Memory.refs, fresh, List.count_singleton_self]
      rfl
    · rw [if_neg same, List.count_eq_zero_of_not_mem fun member => same (List.mem_singleton.mp member)]
      rfl
  · intro other more
    rw [contents, if_neg]
    rintro rfl
    rw [Memory.refs, fresh] at more
    exact absurd more (Nat.lt_irrefl 0)
  · rw [contents, if_pos rfl]
  · rw [refs, if_pos rfl]

theorem moves_retain (sound : memory.Sound) {content : γ} (found : memory.content ref = some content) :
    ∃ after, memory.retain ref = some after ∧ Moves memory [] after [ref] ∧
      ∀ other, after.content other = memory.content other := by
  rcases refs_of_content found with ⟨object, there, -, count⟩
  have contents : ∀ other, (memory.setAt ref
      (some { object with refCount := object.refCount + 1 })).content other =
        memory.content other := by
    intro other
    rw [content_setAt]
    split_ifs with same
    · rw [same, Memory.content, there]
      rfl
    · rfl
  refine ⟨memory.setAt ref (some { object with refCount := object.refCount + 1 }), ?_, ?_, contents⟩
  · rw [retain, there]
    rfl
  · refine ⟨sound_setAt sound (by rw [there]; exact Option.some_ne_none _) ?_, ?_, ?_⟩
    · intro shared same
      cases same
      exact Nat.succ_pos _
    · intro other
      rw [refs_setAt]
      split_ifs with same
      · rw [same, count, List.count_singleton_self]
        rfl
      · rw [List.count_eq_zero_of_not_mem fun member => same (List.mem_singleton.mp member)]
        rfl
    · intro other _
      exact contents other

theorem moves_release (sound : memory.Sound) {content : γ} (found : memory.content ref = some content) :
    ∃ after, memory.release ref = some after ∧ Moves memory [ref] after [] := by
  rcases refs_of_content found with ⟨object, there, -, count⟩
  have positive := sound.counted ref object there
  refine ⟨memory.setAt ref (if object.refCount = 1 then none
    else some { object with refCount := object.refCount - 1 }), ?_, ?_, ?_, ?_⟩
  · rw [release, there]
    rfl
  · refine sound_setAt sound (by rw [there]; exact Option.some_ne_none _) ?_
    intro shared same
    split_ifs at same with last
    cases same
    dsimp only
    omega
  · intro other
    rw [refs_setAt]
    split_ifs with same last
    · rw [same, count, last, List.count_singleton_self]
      rfl
    · rw [same, count, List.count_singleton_self, Option.elim_some, List.count_nil]
      dsimp only
      omega
    · rw [List.count_eq_zero_of_not_mem fun member => same (List.mem_singleton.mp member)]
      rfl
  · intro other more
    rw [content_setAt]
    split_ifs with same last
    · rw [same, count, List.count_singleton_self] at more
      omega
    · rw [same, Memory.content, there]
      rfl
    · rfl

theorem moves_write (sound : memory.Sound) (sole : memory.refs ref = 1) (content : γ) :
    ∃ after, memory.write ref content = some after ∧ Moves memory [ref] after [ref] ∧
      after.content ref = some content ∧ after.refs ref = 1 := by
  rcases there : memory.objects ref with _ | object
  · rw [refs, there] at sole
    cases sole
  have count : object.refCount = 1 := by
    rw [refs, there] at sole
    exact sole
  refine ⟨memory.setAt ref (some { object with content := content }), ?_, ⟨?_, ?_, ?_⟩, ?_, ?_⟩
  · rw [write, there]
    rfl
  · refine sound_setAt sound (by rw [there]; exact Option.some_ne_none _) ?_
    intro shared same
    cases same
    exact sound.counted ref object there
  · intro other
    rw [refs_setAt]
    split_ifs with same
    · rw [same, sole, Option.elim_some, count]
    · rfl
  · intro other more
    rw [content_setAt]
    split_ifs with same
    · rw [same, sole, List.count_singleton_self] at more
      exact absurd more (Nat.lt_irrefl 1)
    · rfl
  · rw [content_setAt, if_pos rfl]
    rfl
  · rw [refs_setAt, if_pos rfl]
    exact count

def Holds (memory : Memory γ) (held : List Nat) : Prop :=
  ∀ ref, held.count ref ≤ memory.refs ref

theorem Moves.keeps (moves : Moves memory held after heldAfter) {frame : List Nat}
    (holds : Holds memory (held ++ frame)) :
    Holds after (heldAfter ++ frame) ∧ ∀ ref ∈ frame, after.content ref = memory.content ref := by
  refine ⟨?_, ?_⟩
  · intro ref
    have before := holds ref
    have counts := moves.refs ref
    rw [List.count_append] at before ⊢
    omega
  · intro ref member
    have before := holds ref
    have there := List.count_pos_iff.mpr member
    rw [List.count_append] at before
    exact moves.others ref (by omega)

theorem Valid.holds (valid : Valid memory held) : Holds memory held :=
  fun ref => Nat.le_of_eq (valid.refs ref).symm

theorem Valid.moves (valid : Valid memory (heldMiddle ++ held))
    (moves : Moves memory heldMiddle after heldAfter) : Valid after (heldAfter ++ held) := by
  refine ⟨moves.sound, ?_⟩
  intro ref
  have before := valid.refs ref
  have counts := moves.refs ref
  rw [List.count_append] at before ⊢
  omega

theorem Valid.perm (valid : Valid memory held) (same : held.Perm heldAfter) :
    Valid memory heldAfter := by
  refine ⟨valid.sound, ?_⟩
  intro ref
  rw [← same.count_eq]
  exact valid.refs ref

end Moves

end Memory

end Db8.Heap
