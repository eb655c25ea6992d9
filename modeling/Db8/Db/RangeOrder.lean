import Db8.Db.QueryPlan
import Mathlib.Order.MinMax

/-!
# Sequences of ranges

The order in which the ranges of a plan lie. Ranges come out of `rangesFromKeys` either one after
the other or one inside an earlier one; moving them to a page keeps that, and dropping a range that
lies in the one before it leaves a sequence in which every range ends where the next begins or
earlier, over the same keys.
-/

set_option autoImplicit false

namespace Db8.Db

open Db8.Bytes

namespace MojDbKeyRange

/-- Both bounds come no later, and the first range ends before the second begins. -/
structure Precedes (first second : MojDbKeyRange) : Prop where
  apart : first.upperKey ≤ second.lowerKey
  lowers : first.lowerKey ≤ second.lowerKey
  uppers : first.upperKey ≤ second.upperKey

theorem Precedes.trans {first second third : MojDbKeyRange} (front : first.Precedes second)
    (back : second.Precedes third) : first.Precedes third where
  apart := front.apart.trans back.lowers
  lowers := front.lowers.trans back.lowers
  uppers := front.uppers.trans back.uppers

theorem Precedes.disjoint {first second : MojDbKeyRange} (front : first.Precedes second)
    (bounded : first.upperKey ≠ []) {key : MojDbKey} (inFirst : first.contains key) :
    ¬ second.contains key := by
  rw [contains_iff] at inFirst ⊢
  rintro ⟨above, _⟩
  have below := (below_iff_lt bounded key).mp inFirst.2
  exact absurd (front.apart.trans above) (not_le.mpr below)

theorem containsRange_subset {outer inner : MojDbKeyRange} (bounded : inner.upperKey ≠ [])
    (encloses : outer.containsRange inner) {key : MojDbKey} (inside : inner.contains key) :
    outer.contains key := by
  obtain ⟨lower, upper⟩ := encloses
  rw [contains_iff] at lower inside ⊢
  refine ⟨lower.1.trans inside.1, ?_⟩
  rcases upper with open_ | upper
  · exact Or.inl open_
  · exact Or.inr (((below_iff_lt bounded key).mp inside.2).trans_le upper)

def Staged (first second : MojDbKeyRange) : Prop :=
  first.Precedes second ∨ first.containsRange second

end MojDbKeyRange

open MojDbKeyRange

namespace MojDbQueryPlan

def OnPage (pageKey : MojDbKey) (desc : Bool) (key : MojDbKey) : Prop :=
  pageKey = [] ∨ if desc then key < pageKey else pageKey ≤ key

variable {pageKey : MojDbKey}

theorem clipToPage_bounded {desc : Bool} {range clipped : MojDbKeyRange}
    (bounded : range.upperKey ≠ []) (kept : clipToPage pageKey desc range = some clipped) :
    clipped.upperKey ≠ [] := by
  unfold clipToPage at kept
  split_ifs at kept with noPage <;> obtain rfl := Option.some.inj kept <;> assumption

theorem contains_clipToPage {desc : Bool} {range : MojDbKeyRange} (bounded : range.upperKey ≠ [])
    (key : MojDbKey) :
    (∃ clipped, clipToPage pageKey desc range = some clipped ∧ clipped.contains key) ↔
      range.contains key ∧ OnPage pageKey desc key := by
  unfold clipToPage OnPage
  by_cases noPage : pageKey = []
  · simp [noPage]
  cases desc with
  | true =>
    simp only [noPage, if_false, if_true, false_or, contains_iff]
    by_cases before : range.lowerKey ≠ [] ∧ pageKey ≤ range.lowerKey
    · rw [if_pos before]
      simp only [reduceCtorEq, false_and, exists_false, false_iff]
      rintro ⟨⟨above, _⟩, onPage⟩
      exact absurd (before.2.trans above) (not_le.mpr onPage)
    · simp only [before, if_false]
      by_cases inside : range.upperKey = [] ∨ pageKey < range.upperKey
      · have shorter : pageKey < range.upperKey := inside.resolve_left bounded
        simp only [inside, if_true, Option.some.injEq, exists_eq_left', below_iff_lt noPage,
          below_iff_lt bounded]
        constructor
        · rintro ⟨above, onPage⟩
          exact ⟨⟨above, onPage.trans shorter⟩, onPage⟩
        · rintro ⟨⟨above, _⟩, onPage⟩
          exact ⟨above, onPage⟩
      · simp only [inside, if_false, Option.some.injEq, exists_eq_left', below_iff_lt bounded]
        have shorter : range.upperKey ≤ pageKey := not_lt.mp (not_or.mp inside).2
        constructor
        · rintro ⟨above, below⟩
          exact ⟨⟨above, below⟩, below.trans_le shorter⟩
        · exact And.left
  | false =>
    simp only [noPage, if_false, false_or, contains_iff, Bool.false_eq_true, not_le, not_lt]
    by_cases before : range.upperKey ≠ [] ∧ range.upperKey < pageKey
    · rw [if_pos before]
      simp only [reduceCtorEq, false_and, exists_false, false_iff]
      rintro ⟨⟨_, below⟩, onPage⟩
      have under := (below_iff_lt bounded key).mp below
      exact absurd (onPage.trans under.le) (not_le.mpr before.2)
    · simp only [before, if_false]
      by_cases inside : range.lowerKey = [] ∨ range.lowerKey ≤ pageKey
      · simp only [inside, if_true, Option.some.injEq, exists_eq_left']
        have longer : range.lowerKey ≤ pageKey := by
          rcases inside with open_ | longer
          · rw [open_]
            exact not_lt.mp (List.not_lt_nil _)
          · exact longer
        constructor
        · rintro ⟨onPage, below⟩
          exact ⟨⟨longer.trans onPage, below⟩, onPage⟩
        · rintro ⟨⟨_, below⟩, onPage⟩
          exact ⟨onPage, below⟩
      · simp only [inside, if_false, Option.some.injEq, exists_eq_left']
        have shorter : pageKey ≤ range.lowerKey := (not_le.mp (not_or.mp inside).2).le
        constructor
        · rintro ⟨above, below⟩
          exact ⟨⟨above, below⟩, shorter.trans above⟩
        · exact And.left

/-- What a page leaves of a range: both bounds are moved towards the page, or left alone. -/
theorem clipToPage_bounds {desc : Bool} {range clipped : MojDbKeyRange} (page : pageKey ≠ [])
    (bounded : range.upperKey ≠ []) (kept : clipToPage pageKey desc range = some clipped) :
    (desc = true → clipped.lowerKey = range.lowerKey ∧
      clipped.upperKey = min range.upperKey pageKey ∧
        (range.lowerKey = [] ∨ range.lowerKey < pageKey)) ∧
    (desc = false → clipped.upperKey = range.upperKey ∧
      clipped.lowerKey = max range.lowerKey pageKey ∧ pageKey ≤ range.upperKey) := by
  unfold clipToPage at kept
  cases desc with
  | true =>
    refine ⟨fun _ => ?_, by simp⟩
    simp only [page, if_false, if_true] at kept
    split_ifs at kept with before inside
    · obtain rfl := Option.some.inj kept
      refine ⟨rfl, (min_eq_right (inside.resolve_left bounded).le).symm, ?_⟩
      by_cases open_ : range.lowerKey = []
      · exact Or.inl open_
      · exact Or.inr (not_le.mp fun reached => before ⟨open_, reached⟩)
    · obtain rfl := Option.some.inj kept
      refine ⟨rfl, (min_eq_left (not_lt.mp (not_or.mp inside).2)).symm, ?_⟩
      by_cases open_ : range.lowerKey = []
      · exact Or.inl open_
      · exact Or.inr (not_le.mp fun reached => before ⟨open_, reached⟩)
  | false =>
    refine ⟨by simp, fun _ => ?_⟩
    simp only [page, if_false, Bool.false_eq_true] at kept
    split_ifs at kept with before inside
    · obtain rfl := Option.some.inj kept
      refine ⟨rfl, ?_, not_not.mp fun beyond => before ⟨bounded, beyond⟩⟩
      rcases inside with open_ | longer
      · rw [open_]
        exact (max_eq_right (not_lt.mp (List.not_lt_nil _))).symm
      · exact (max_eq_right (not_lt.mp longer)).symm
    · obtain rfl := Option.some.inj kept
      refine ⟨rfl, ?_, not_not.mp fun beyond => before ⟨bounded, beyond⟩⟩
      exact (max_eq_left (not_not.mp (not_or.mp inside).2).le).symm

theorem Staged.clip {desc : Bool} {first second firstClip secondClip : MojDbKeyRange}
    (firstBounded : first.upperKey ≠ []) (secondBounded : second.upperKey ≠ [])
    (staged : Staged first second) (firstKept : clipToPage pageKey desc first = some firstClip)
    (secondKept : clipToPage pageKey desc second = some secondClip) :
    Staged firstClip secondClip := by
  by_cases page : pageKey = []
  · subst page
    simp only [clipToPage, if_true, Option.some.injEq] at firstKept secondKept
    subst firstKept
    subst secondKept
    exact staged
  have firstBounds := clipToPage_bounds page firstBounded firstKept
  have secondBounds := clipToPage_bounds page secondBounded secondKept
  have clippedBounded := clipToPage_bounded firstBounded firstKept
  cases desc with
  | true =>
    obtain ⟨firstLower, firstUpper, firstOn⟩ := firstBounds.1 rfl
    obtain ⟨secondLower, secondUpper, secondOn⟩ := secondBounds.1 rfl
    have onPage : second.lowerKey ≤ pageKey := by
      rcases secondOn with open_ | below
      · rw [open_]
        exact not_lt.mp (List.not_lt_nil _)
      · exact below.le
    rcases staged with front | ⟨lower, upper⟩
    · left
      constructor
      · rw [firstUpper, secondLower]
        exact (min_le_left _ _).trans front.apart
      · rw [firstLower, secondLower]
        exact front.lowers
      · rw [firstUpper, secondUpper]
        exact min_le_min_right _ front.uppers
    · rw [contains_iff, below_iff_lt firstBounded] at lower
      by_cases reached : second.lowerKey = pageKey
      · left
        rw [reached] at secondLower
        constructor
        · rw [firstUpper, secondLower]
          exact min_le_right _ _
        · rw [firstLower, secondLower]
          exact lower.1.trans reached.le
        · rw [firstUpper, secondUpper]
          have beyond : pageKey ≤ second.upperKey := by
            rcases secondOn with open_ | below
            · rw [open_] at reached
              exact absurd reached.symm page
            · exact absurd reached below.ne
          rw [min_eq_right beyond]
          exact min_le_right _ _
      · right
        refine ⟨?_, Or.inr ?_⟩
        · rw [contains_iff, below_iff_lt clippedBounded, firstLower, firstUpper, secondLower]
          exact ⟨lower.1, lt_min lower.2 (lt_of_le_of_ne onPage reached)⟩
        · rw [firstUpper, secondUpper]
          exact min_le_min_right _ (upper.resolve_left firstBounded)
  | false =>
    obtain ⟨firstUpper, firstLower, firstOn⟩ := firstBounds.2 rfl
    obtain ⟨secondUpper, secondLower, secondOn⟩ := secondBounds.2 rfl
    rcases staged with front | ⟨lower, upper⟩
    · left
      constructor
      · rw [firstUpper, secondLower]
        exact front.apart.trans (le_max_left _ _)
      · rw [firstLower, secondLower]
        exact max_le_max_right _ front.lowers
      · rw [firstUpper, secondUpper]
        exact front.uppers
    · rw [contains_iff, below_iff_lt firstBounded] at lower
      have uppers := upper.resolve_left firstBounded
      by_cases reached : pageKey = first.upperKey
      · left
        constructor
        · rw [firstUpper, secondLower, ← reached]
          exact le_max_right _ _
        · rw [firstLower, secondLower]
          exact max_le_max_right _ lower.1
        · rw [firstUpper, secondUpper, ← reached]
          exact secondOn
      · right
        refine ⟨?_, Or.inr ?_⟩
        · rw [contains_iff, below_iff_lt clippedBounded, firstLower, firstUpper, secondLower]
          exact ⟨max_le_max_right _ lower.1, max_lt lower.2 (lt_of_le_of_ne firstOn reached)⟩
        · rw [firstUpper, secondUpper]
          exact uppers

/-- Ranges kept so far, each before the next, and each before or around what is still to come. -/
theorem pushRange_precedes {kept : List MojDbKeyRange} {range : MojDbKeyRange}
    (ordered : kept.Pairwise Precedes) (staged : ∀ other ∈ kept, Staged other range) :
    (pushRange kept range).Pairwise Precedes ∧ ∀ other ∈ pushRange kept range,
      other ∈ kept ∨ other = range := by
  unfold pushRange
  cases last : kept.getLast? with
  | none => exact ⟨List.pairwise_singleton _ _, fun other member =>
    Or.inr (List.mem_singleton.mp member)⟩
  | some back =>
    by_cases encloses : back.containsRange range
    · simp only [encloses, if_true]
      exact ⟨ordered, fun _ => Or.inl⟩
    · simp only [encloses, if_false]
      have backIn : back ∈ kept := List.mem_of_getLast? last
      have front : back.Precedes range := (staged back backIn).resolve_right encloses
      refine ⟨List.pairwise_append.mpr ⟨ordered, List.pairwise_singleton _ _, ?_⟩, ?_⟩
      · intro other otherIn new newIn
        rw [List.mem_singleton.mp newIn]
        obtain ⟨initial, rfl⟩ := List.getLast?_eq_some_iff.mp last
        rcases List.mem_append.mp otherIn with earlier | same
        · have before := (List.pairwise_append.mp ordered).2.2 other earlier back
            (List.mem_singleton.mpr rfl)
          exact before.trans front
        · rw [List.mem_singleton.mp same]
          exact front
      · intro other member
        exact (List.mem_append.mp member).imp_right List.mem_singleton.mp

theorem contains_pushRange {kept : List MojDbKeyRange} {range : MojDbKeyRange}
    (bounded : range.upperKey ≠ []) (key : MojDbKey) :
    (∃ other ∈ pushRange kept range, other.contains key) ↔
      (∃ other ∈ kept, other.contains key) ∨ range.contains key := by
  unfold pushRange
  cases last : kept.getLast? with
  | none =>
    rw [List.getLast?_eq_none_iff] at last
    subst last
    simp
  | some back =>
    by_cases encloses : back.containsRange range
    · simp only [encloses, if_true]
      constructor
      · exact Or.inl
      · rintro (inKept | inRange)
        · exact inKept
        · exact ⟨back, List.mem_of_getLast? last,
            containsRange_subset bounded encloses inRange⟩
    · simp only [encloses, if_false, List.mem_append, List.mem_singleton, or_and_right,
        exists_or, exists_eq_left]

/-- Adding a staged sequence of ranges leaves a sequence over the same keys without overlaps. -/
theorem pushRanges_spec (raw kept : List MojDbKeyRange)
    (rawBounded : ∀ range ∈ raw, range.upperKey ≠ [])
    (keptBounded : ∀ range ∈ kept, range.upperKey ≠ [])
    (rawStaged : raw.Pairwise Staged) (ordered : kept.Pairwise Precedes)
    (staged : ∀ other ∈ kept, ∀ range ∈ raw, Staged other range) :
    (raw.foldl pushRange kept).Pairwise Precedes ∧
      (∀ range ∈ raw.foldl pushRange kept, range.upperKey ≠ []) ∧
      ∀ key, (∃ range ∈ raw.foldl pushRange kept, range.contains key) ↔
        (∃ range ∈ kept, range.contains key) ∨ ∃ range ∈ raw, range.contains key := by
  induction raw generalizing kept with
  | nil => exact ⟨ordered, keptBounded, by simp⟩
  | cons range raw ih =>
    have here : range.upperKey ≠ [] := rawBounded range List.mem_cons_self
    obtain ⟨rangeStaged, tailStaged⟩ := List.pairwise_cons.mp rawStaged
    have pushed := pushRange_precedes ordered fun other member =>
      staged other member range List.mem_cons_self
    have next := ih (pushRange kept range)
      (fun other member => rawBounded other (List.mem_cons_of_mem _ member))
      (fun other member => by
        rcases pushed.2 other member with old | rfl
        · exact keptBounded other old
        · exact here)
      tailStaged pushed.1
      (fun other member later laterIn => by
        rcases pushed.2 other member with old | rfl
        · exact staged other old later (List.mem_cons_of_mem _ laterIn)
        · exact rangeStaged later laterIn)
    refine ⟨next.1, next.2.1, ?_⟩
    intro key
    rw [List.foldl_cons, next.2.2, contains_pushRange here, or_assoc]
    simp only [List.mem_cons, exists_eq_or_imp]

theorem foldl_addRange (query : MojDbQuery) (raw kept : List MojDbKeyRange) :
    raw.foldl (addRange query) kept =
      (raw.filterMap (clipToPage query.page query.desc)).foldl pushRange kept := by
  induction raw generalizing kept with
  | nil => rfl
  | cons range raw ih =>
    rw [List.foldl_cons, ih, List.filterMap_cons, addRange]
    cases clipToPage query.page query.desc range <;> rfl

theorem filterMap_clip_staged (pageKey : MojDbKey) (desc : Bool) {raw : List MojDbKeyRange}
    (bounded : ∀ range ∈ raw, range.upperKey ≠ []) (staged : raw.Pairwise Staged) :
    (raw.filterMap (clipToPage pageKey desc)).Pairwise Staged := by
  induction raw with
  | nil => exact List.Pairwise.nil
  | cons range raw ih =>
    obtain ⟨rangeStaged, tailStaged⟩ := List.pairwise_cons.mp staged
    have tail := ih (fun other member => bounded other (List.mem_cons_of_mem _ member)) tailStaged
    rw [List.filterMap_cons]
    cases kept : clipToPage pageKey desc range with
    | none => exact tail
    | some clipped =>
      refine List.pairwise_cons.mpr ⟨?_, tail⟩
      intro otherClip member
      obtain ⟨other, otherIn, otherKept⟩ := List.mem_filterMap.mp member
      exact Staged.clip (bounded range List.mem_cons_self)
        (bounded other (List.mem_cons_of_mem _ otherIn)) (rangeStaged other otherIn)
        kept otherKept

/-- `addRange` over a staged sequence: no overlaps, and the keys are those on the page. -/
theorem addRanges_spec (query : MojDbQuery) {raw : List MojDbKeyRange}
    (bounded : ∀ range ∈ raw, range.upperKey ≠ []) (staged : raw.Pairwise Staged) :
    (raw.foldl (addRange query) []).Pairwise Precedes ∧
      (∀ range ∈ raw.foldl (addRange query) [], range.upperKey ≠ []) ∧
      ∀ key, (∃ range ∈ raw.foldl (addRange query) [], range.contains key) ↔
        (∃ range ∈ raw, range.contains key) ∧ OnPage query.page query.desc key := by
  have clippedBounded : ∀ range ∈ raw.filterMap (clipToPage query.page query.desc),
      range.upperKey ≠ [] := by
    intro clipped member
    obtain ⟨range, rangeIn, kept⟩ := List.mem_filterMap.mp member
    exact clipToPage_bounded (bounded range rangeIn) kept
  have spec := pushRanges_spec (raw.filterMap (clipToPage query.page query.desc)) []
    clippedBounded (by simp) (filterMap_clip_staged query.page query.desc bounded staged)
    List.Pairwise.nil (by simp)
  rw [foldl_addRange]
  refine ⟨spec.1, spec.2.1, ?_⟩
  intro key
  rw [spec.2.2]
  constructor
  · rintro (⟨_, absent, _⟩ | ⟨clipped, member, inside⟩)
    · exact absurd absent List.not_mem_nil
    · obtain ⟨range, rangeIn, kept⟩ := List.mem_filterMap.mp member
      have both := (contains_clipToPage (bounded range rangeIn) key).mp ⟨clipped, kept, inside⟩
      exact ⟨⟨range, rangeIn, both.1⟩, both.2⟩
  · rintro ⟨⟨range, rangeIn, inside⟩, onPage⟩
    obtain ⟨clipped, kept, inClipped⟩ :=
      (contains_clipToPage (bounded range rangeIn) key).mpr ⟨inside, onPage⟩
    exact Or.inr ⟨clipped, List.mem_filterMap.mpr ⟨range, rangeIn, kept⟩, inClipped⟩

end MojDbQueryPlan

end Db8.Db
