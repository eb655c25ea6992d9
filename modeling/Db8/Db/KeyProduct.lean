import Db8.Db.Key

/-!
# What the key builder returns

The loop of `MojDbKeyBuilder::keys` comes to its end over any sets, reads no iterator that has
nothing left, and leaves the concatenations of one key from each set. A builder nothing was pushed
to has no combination at all, not the empty one.
-/

set_option autoImplicit false

namespace Db8.Db.MojDbKeyBuilder

open Db8.Bytes

def Combines (stack : List KeySet) (key : MojDbKey) : Prop :=
  ∃ parts, List.Forall₂ (fun part vals => part ∈ vals) parts stack ∧ key = parts.flatten

/-- The loop starts on the first record with every iterator reset. -/
def start (vals : KeySet) (rest : List KeySet) : Walk :=
  ⟨[], PropRec.ofVals vals, rest.map PropRec.ofVals, SortedSet.empty⟩

/-- Every record before the one at hand still has the value it was left at. -/
def Walk.Standing (walk : Walk) : Prop := ∀ rec ∈ walk.before, rec.iter ≠ []

theorem Walk.Standing.step {walk next : Walk} (standing : walk.Standing)
    (stepped : MojDbKeyBuilder.step walk = some next) : next.Standing := by
  rcases walk with ⟨before, ⟨vals, iter⟩, after, keysOut⟩
  cases iter with
  | nil =>
    cases before with
    | nil => simp [MojDbKeyBuilder.step] at stepped
    | cons up before =>
      simp only [MojDbKeyBuilder.step, Option.some.injEq] at stepped
      subst stepped
      intro rec member
      exact standing rec (List.mem_cons_of_mem up member)
  | cons val iter =>
    cases after with
    | nil =>
      simp only [MojDbKeyBuilder.step, Option.some.injEq] at stepped
      subst stepped
      exact standing
    | cons down after =>
      simp only [MojDbKeyBuilder.step, Option.some.injEq] at stepped
      subst stepped
      intro rec member
      rcases List.mem_cons.mp member with rfl | member
      · exact List.cons_ne_nil val iter
      · exact standing rec member

theorem standing_turns {count : Nat} {walk next : Walk} (standing : walk.Standing)
    (turned : turns count walk = some next) : next.Standing := by
  induction count generalizing walk with
  | zero =>
    cases turned
    exact standing
  | succ count ih =>
    rcases Option.bind_eq_some_iff.mp turned with ⟨middle, stepped, rest⟩
    exact ih (standing.step stepped) rest

/-- After the turns that visit every value the loop stops, at the set `keys` returns. -/
theorem loop_stops (vals : KeySet) (rest : List KeySet) :
    ∃ count last, turns count (start vals rest) = some last ∧ step last = none ∧
      keys (vals :: rest) = last.keysOut := by
  have fresh : ∀ rec ∈ rest.map PropRec.ofVals, rec.iter = rec.vals.elems := by
    intro rec member
    rcases List.mem_map.mp member with ⟨other, _, rfl⟩
    rfl
  have run := turns_exhaust (rest.map PropRec.ofVals) fresh [] (PropRec.ofVals vals)
    SortedSet.empty
  refine ⟨_, _, run, rfl, ?_⟩
  exact loop_of_turns run 1

theorem combines_nil (key : MojDbKey) : Combines [] key ↔ key = [] := by
  rw [← mem_product_nil key, mem_product_iff]
  rfl

theorem not_combines_of_empty {stack : List KeySet} (member : SortedSet.empty ∈ stack)
    (key : MojDbKey) : ¬ Combines stack key := by
  rintro ⟨parts, picked, rfl⟩
  rcases List.mem_iff_getElem.mp member with ⟨place, inside, here⟩
  have partThere : place < parts.length := picked.length_eq ▸ inside
  have one := (List.forall₂_iff_get.mp picked).2 place partThere inside
  simp only [List.get_eq_getElem, here] at one
  exact SortedSet.not_mem_empty _ one

theorem mem_keys_combines (stack : List KeySet) (key : MojDbKey) :
    key ∈ keys stack ↔ stack ≠ [] ∧ Combines stack key := by
  cases stack with
  | nil => simp [keys_nil]
  | cons vals rest =>
    rw [mem_keys_iff, mem_product_iff]
    simp [Combines]

/-- The builder enumerates the product of the sets, whatever their number and sizes. -/
theorem keys_enumerates (stack : List KeySet) :
    (∀ vals rest, stack = vals :: rest →
      (∃ count last, turns count (start vals rest) = some last ∧ step last = none ∧
        keys stack = last.keysOut) ∧
      ∀ count walk, turns count (start vals rest) = some walk → walk.Standing) ∧
    (∀ key, key ∈ keys stack ↔ stack ≠ [] ∧ Combines stack key) ∧
    (SortedSet.empty ∈ stack → keys stack = SortedSet.empty) := by
  refine ⟨?_, mem_keys_combines stack, ?_⟩
  · rintro vals rest rfl
    refine ⟨loop_stops vals rest, ?_⟩
    intro count walk turned
    exact standing_turns (fun rec member => absurd member List.not_mem_nil) turned
  · intro empty
    ext key
    rw [mem_keys_combines]
    constructor
    · rintro ⟨_, combines⟩
      exact absurd combines (not_combines_of_empty empty key)
    · intro member
      exact absurd member (SortedSet.not_mem_empty key)

/-- No keys are returned before anything is pushed, though the empty key combines no sets. -/
theorem keys_of_none_lacks_combination :
    ¬ ∀ stack key, key ∈ keys stack ↔ Combines stack key := by
  intro all
  have member := (all [] []).mpr ((combines_nil []).mpr rfl)
  exact SortedSet.not_mem_empty [] member

end Db8.Db.MojDbKeyBuilder
