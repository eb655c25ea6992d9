import Db8.Db.RangeOrder
import Mathlib.Order.Interval.Set.Basic

/-!
# Key successors and ranges within ranges

The incremented key is the least one above every key that begins with the given one, so the two
bound exactly its extensions. A range stands for the interval between its bounds, an empty bound
leaving that side open. The test for one key follows the interval; the test for a whole range
compares upper bounds without asking whether the inner one is open.
-/

set_option autoImplicit false

namespace Db8.Db

open Db8.Bytes

namespace MojDbKey

def prefixOf (key other : MojDbKey) : Bool :=
  decide (key.length ≤ other.length) && other.take key.length == key

theorem prefixOf_iff (key other : MojDbKey) : key.prefixOf other = true ↔ key <+: other := by
  rw [prefixOf, Bool.and_eq_true, decide_eq_true_eq, beq_iff_eq, List.prefix_iff_eq_take]
  constructor
  · rintro ⟨_, same⟩
    exact same.symm
  · intro same
    refine ⟨?_, same.symm⟩
    have shorter := congrArg List.length same
    rw [List.length_take] at shorter
    omega

theorem increment_ne_nil {key : MojDbKey} (bounded : ∃ byte ∈ key, byte.val ≠ 255) :
    increment key ≠ [] := by
  rcases bounded with ⟨byte, member, small⟩
  rcases List.append_of_mem member with ⟨front, rest, rfl⟩
  have here : byte.val < 255 := by
    have := byte.isLt
    omega
  have tail := successor_ne_nil here rest
  rw [increment, successor_append tail front]
  exact List.append_ne_nil_of_right_ne_nil front tail

/-- `key` up to `increment key` is the set of keys that begin with `key`, and no smaller bound
lies above them all. -/
structure IncrementLaw (key : MojDbKey) : Prop where
  above : ∀ other, key.prefixOf other = true → other < increment key
  least : ∀ bound, (∀ other, key.prefixOf other = true → other < bound) → increment key ≤ bound
  between : ∀ other, key ≤ other ∧ other < increment key ↔ key.prefixOf other = true

theorem increment_law {key : MojDbKey} (bounded : ∃ byte ∈ key, byte.val ≠ 255) :
    IncrementLaw key := by
  have there := increment_ne_nil bounded
  have between : ∀ other, key ≤ other ∧ other < increment key ↔ key.prefixOf other = true := by
    intro other
    rw [prefixOf_iff, ← le_and_below_successor_iff]
    exact and_congr_right fun _ => (below_iff_lt there other).symm
  refine ⟨?_, ?_, between⟩
  · intro other starts
    exact ((between other).mpr starts).2
  · intro bound above
    have outside : ¬ key <+: bound := by
      intro starts
      exact lt_irrefl bound (above bound ((prefixOf_iff key bound).mpr starts))
    have beyond := above key ((prefixOf_iff key key).mpr (List.prefix_refl key))
    exact (successor_le_of_separate beyond outside).2

end MojDbKey

namespace MojDbKeyRange

def fromBound (lower : MojDbKey) : Set MojDbKey := if lower = [] then Set.univ else Set.Ici lower

/-- The keys before an upper bound; all of them before the empty one. -/
def beforeBound (upper : MojDbKey) : Set MojDbKey := if upper = [] then Set.univ else Set.Iio upper

def interval (range : MojDbKeyRange) : Set MojDbKey :=
  fromBound range.lowerKey ∩ beforeBound range.upperKey

theorem mem_beforeBound (upper key : MojDbKey) : key ∈ beforeBound upper ↔ Below key upper := by
  unfold beforeBound
  split_ifs with unbounded
  · rw [unbounded]
    exact ⟨fun _ => below_nil key, fun _ => Set.mem_univ key⟩
  · rw [below_iff_lt unbounded]
    exact Set.mem_Iio

theorem mem_fromBound (lower key : MojDbKey) : key ∈ fromBound lower ↔ lower ≤ key := by
  unfold fromBound
  split_ifs with unbounded
  · rw [unbounded]
    exact ⟨fun _ => not_lt.mp (List.not_lt_nil key), fun _ => Set.mem_univ key⟩
  · exact Set.mem_Ici

theorem contains_iff_mem (range : MojDbKeyRange) (key : MojDbKey) :
    range.contains key ↔ key ∈ range.interval := by
  rw [contains_iff, interval, Set.mem_inter_iff, mem_fromBound, mem_beforeBound]

/-- An inner range that is open above while the outer one is not, and begins inside it. -/
def Overruns (outer inner : MojDbKeyRange) : Prop :=
  inner.upperKey = [] ∧ outer.upperKey ≠ [] ∧
    outer.lowerKey ≤ inner.lowerKey ∧ inner.lowerKey < outer.upperKey

instance (outer inner : MojDbKeyRange) : Decidable (outer.Overruns inner) :=
  inferInstanceAs (Decidable (_ ∧ _))

theorem containsRange_sound_iff (outer inner : MojDbKeyRange) :
    (outer.containsRange inner → inner.interval ⊆ outer.interval) ↔ ¬ outer.Overruns inner := by
  constructor
  · rintro sound ⟨open_, bounded, above, below⟩
    have judged : outer.containsRange inner := by
      refine ⟨(contains_iff outer inner.lowerKey).mpr ⟨above, Or.inr below⟩, Or.inr ?_⟩
      rw [open_]
      exact not_lt.mp (List.not_lt_nil _)
    -- the outer bound itself lies in the inner range but not in the outer one
    have inside : outer.upperKey ∈ inner.interval := by
      rw [interval, Set.mem_inter_iff, mem_fromBound, mem_beforeBound, open_]
      exact ⟨below.le, below_nil _⟩
    have contained := (contains_iff_mem outer _).mpr (sound judged inside)
    rw [contains_iff, below_iff_lt bounded] at contained
    exact lt_irrefl _ contained.2
  · intro fits judged key inside
    rw [← contains_iff_mem] at inside ⊢
    by_cases open_ : inner.upperKey = []
    · have lower := (contains_iff outer inner.lowerKey).mp judged.1
      have unbounded : outer.upperKey = [] := by
        by_contra bounded
        exact fits ⟨open_, bounded, lower.1, (below_iff_lt bounded _).mp lower.2⟩
      rw [contains_iff] at inside ⊢
      exact ⟨lower.1.trans inside.1, Or.inl unbounded⟩
    · exact containsRange_subset open_ judged inside

/-- Successors and key tests are always right; the range test is right just where the inner range
does not overrun the outer one. -/
theorem successor_and_containment_iff (outer inner : MojDbKeyRange) :
    ((∀ key : MojDbKey, (∃ byte ∈ key, byte.val ≠ 255) → MojDbKey.IncrementLaw key) ∧
      (∀ key, outer.contains key ↔ key ∈ outer.interval) ∧
      (outer.containsRange inner → inner.interval ⊆ outer.interval)) ↔
    ¬ outer.Overruns inner := by
  rw [← containsRange_sound_iff]
  constructor
  · rintro ⟨_, _, sound⟩
    exact sound
  · intro sound
    exact ⟨fun key bounded => MojDbKey.increment_law bounded, contains_iff_mem outer, sound⟩

/-- A range from one key on counts as part of the range that ends right after that key. -/
theorem open_range_judged_contained :
    ¬ ∀ outer inner : MojDbKeyRange,
      outer.containsRange inner → inner.interval ⊆ outer.interval := by
  intro all
  have sound := all ⟨[1], [2], 0⟩ ⟨[1], [], 0⟩
  rw [containsRange_sound_iff] at sound
  exact sound (by decide)

end MojDbKeyRange

end Db8.Db
