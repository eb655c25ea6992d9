import Mathlib.Data.List.TakeDrop
import Db8.Bytes.SortedSet

/-!
# Cursors over a sorted list of keys

The operations every ordered store offers (seek, first, last, next, previous), in a direction that
is fixed for a whole scan. A cursor is related to what the scan still has ahead of it: the rest of
the keys going up, the keys up to the cursor going down.
-/

set_option autoImplicit false

namespace Db8.Bytes

section Lists

variable {α : Type*}

variable {values : List α} {test : α → Bool}

theorem dropWhile_eq_self_of_forall
    (fails : ∀ value ∈ values, test value = false) : values.dropWhile test = values := by
  cases values with
  | nil => rfl
  | cons head tail => rw [List.dropWhile_cons_of_neg (by simp [fails head List.mem_cons_self])]

theorem mem_takeWhile_holds {value : α}
    (member : value ∈ values.takeWhile test) : test value = true := by
  have all := List.all_takeWhile (p := test) (l := values)
  rw [List.all_eq_true] at all
  exact all value member

variable {rel : α → α → Prop}

/-- A test that only stops holding along a list selects a first part of it. -/
theorem filter_eq_takeWhile {within : α → Bool} (sorted : values.Pairwise rel)
    (closed : ∀ left right, rel left right → within right = true → within left = true) :
    values.filter within = values.takeWhile within := by
  induction values with
  | nil => rfl
  | cons head tail ih =>
    rcases List.pairwise_cons.mp sorted with ⟨headRel, tailSorted⟩
    cases inside : within head with
    | true =>
      rw [List.filter_cons_of_pos inside, List.takeWhile_cons_of_pos inside, ih tailSorted]
    | false =>
      rw [List.filter_cons_of_neg (by simp [inside]),
        List.takeWhile_cons_of_neg (by simp [inside]), List.filter_eq_nil_iff]
      intro value member holds
      rw [closed head value (headRel value member) holds] at inside
      cases inside

/-- A test that only stops holding along a list fails on all that is left behind it. -/
theorem dropWhile_fails (sorted : values.Pairwise rel)
    (closed : ∀ left right, rel left right → test right = true → test left = true) :
    ∀ value ∈ values.dropWhile test, test value = false := by
  induction values with
  | nil => simp
  | cons head tail ih =>
    rcases List.pairwise_cons.mp sorted with ⟨headRel, tailSorted⟩
    cases holds : test head with
    | true =>
      rw [List.dropWhile_cons_of_pos holds]
      exact ih tailSorted
    | false =>
      rw [List.dropWhile_cons_of_neg (by simp [holds])]
      intro value member
      rcases List.mem_cons.mp member with same | member
      · rw [same, holds]
      · cases later : test value with
        | false => rfl
        | true =>
          rw [closed head value (headRel value member) later] at holds
          exact holds

theorem dropWhile_reverse (sorted : values.Pairwise rel)
    (closed : ∀ left right, rel left right → test right = true → test left = true) :
    values.reverse.dropWhile (fun value => !test value) = (values.takeWhile test).reverse := by
  have split : values.reverse =
      (values.dropWhile test).reverse ++ (values.takeWhile test).reverse := by
    rw [← List.reverse_append, List.takeWhile_append_dropWhile]
  rw [split, List.dropWhile_append_of_pos]
  · apply dropWhile_eq_self_of_forall
    intro value member
    rw [mem_takeWhile_holds (List.mem_reverse.mp member)]
    rfl
  · intro value member
    rw [dropWhile_fails sorted closed value (List.mem_reverse.mp member)]
    rfl

end Lists

inductive Cursor
  | front
  | entry (index : Nat)
  | back
deriving DecidableEq

namespace Cursor

variable {α : Type*}

def key (keys : List α) : Cursor → Option α
  | .entry index => keys[index]?
  | _ => none

def ofIndex (keys : List α) (index : Nat) : Cursor :=
  if index < keys.length then .entry index else .back

def seekToFirst (keys : List α) : Cursor := ofIndex keys 0

def seekToLast (keys : List α) : Cursor :=
  match keys.length with
  | 0 => .front
  | last + 1 => .entry last

/-- To the first key that is not below `bound`. -/
def seek [LinearOrder α] (keys : List α) (bound : α) : Cursor :=
  ofIndex keys (keys.findIdx fun key => decide (bound ≤ key))

def next (keys : List α) : Cursor → Cursor
  | .front => seekToFirst keys
  | .entry index => ofIndex keys (index + 1)
  | .back => .back

def prev (keys : List α) : Cursor → Cursor
  | .front => .front
  | .entry 0 => .front
  | .entry (index + 1) => .entry index
  | .back => seekToLast keys

def line (desc : Bool) (keys : List α) : List α := if desc then keys.reverse else keys

def step (desc : Bool) (keys : List α) (cursor : Cursor) : Cursor :=
  if desc then cursor.prev keys else cursor.next keys

def aheadFrom (desc : Bool) (keys : List α) (index : Nat) : List α :=
  if desc then (keys.take (index + 1)).reverse else keys.drop index

/-- The cursor of a scan that still has `ahead` to go. -/
def Stands (desc : Bool) (keys : List α) (cursor : Cursor) (ahead : List α) : Prop :=
  (ahead = [] ∧ cursor.key keys = none) ∨
    ∃ index, index < keys.length ∧ cursor = .entry index ∧ ahead = aheadFrom desc keys index

theorem aheadFrom_cons (desc : Bool) {keys : List α} {index : Nat} (inside : index < keys.length) :
    ∃ rest, aheadFrom desc keys index = keys[index] :: rest ∧
      Stands desc keys (step desc keys (.entry index)) rest := by
  cases desc with
  | false =>
    refine ⟨keys.drop (index + 1), List.drop_eq_getElem_cons inside, ?_⟩
    rw [step, if_neg (by simp), next, ofIndex]
    by_cases more : index + 1 < keys.length
    · rw [if_pos more]
      exact Or.inr ⟨index + 1, more, rfl, rfl⟩
    · rw [if_neg more]
      exact Or.inl ⟨List.drop_eq_nil_of_le (by omega), rfl⟩
  | true =>
    refine ⟨(keys.take index).reverse, ?_, ?_⟩
    · rw [aheadFrom, if_pos rfl, List.take_add_one, List.getElem?_eq_getElem inside]
      simp
    · rw [step, if_pos rfl]
      cases index with
      | zero => exact Or.inl ⟨rfl, rfl⟩
      | succ index => exact Or.inr ⟨index, by omega, rfl, rfl⟩

theorem Stands.key_eq {desc : Bool} {keys ahead : List α} {cursor : Cursor}
    (stands : Stands desc keys cursor ahead) : cursor.key keys = ahead.head? := by
  rcases stands with ⟨empty, missing⟩ | ⟨index, inside, here, aheadEq⟩
  · rw [empty, missing]
    rfl
  · rcases aheadFrom_cons desc inside with ⟨rest, headed, _⟩
    rw [aheadEq, headed, here, key, List.getElem?_eq_getElem inside]
    rfl

theorem Stands.step {desc : Bool} {keys rest : List α} {head : α} {cursor : Cursor}
    (stands : Stands desc keys cursor (head :: rest)) :
    Stands desc keys (step desc keys cursor) rest := by
  rcases stands with ⟨empty, _⟩ | ⟨index, inside, here, aheadEq⟩
  · cases empty
  · rcases aheadFrom_cons desc inside with ⟨after, headed, stepped⟩
    rw [headed] at aheadEq
    injection aheadEq with _ sameRest
    rw [here, sameRest]
    exact stepped

theorem stands_ofIndex (keys : List α) (index : Nat) :
    Stands false keys (ofIndex keys index) (keys.drop index) := by
  unfold ofIndex
  split_ifs with inside
  · exact Or.inr ⟨index, inside, rfl, rfl⟩
  · exact Or.inl ⟨List.drop_eq_nil_of_le (not_lt.mp inside), rfl⟩

theorem stands_seekToFirst (keys : List α) : Stands false keys (seekToFirst keys) keys :=
  stands_ofIndex keys 0

theorem stands_seekToLast (keys : List α) :
    Stands true keys (seekToLast keys) keys.reverse := by
  unfold seekToLast
  split
  · rename_i empty
    rw [List.length_eq_zero_iff] at empty
    exact Or.inl ⟨by rw [empty]; rfl, rfl⟩
  · rename_i last size
    refine Or.inr ⟨last, by omega, rfl, ?_⟩
    rw [aheadFrom, if_pos rfl, List.take_of_length_le (by omega)]

variable [LinearOrder α]

omit [LinearOrder α] in
theorem drop_findIdx (test : α → Bool) (keys : List α) :
    keys.drop (keys.findIdx test) = keys.dropWhile (fun key => !test key) ∧
      keys.take (keys.findIdx test) = keys.takeWhile (fun key => !test key) := by
  induction keys with
  | nil => exact ⟨rfl, rfl⟩
  | cons head tail ih =>
    rw [List.findIdx_cons]
    cases holds : test head with
    | true => simp [holds]
    | false => simp [holds, ih.1, ih.2]

theorem stands_seek (keys : List α) (bound : α) :
    Stands false keys (seek keys bound) (keys.dropWhile fun key => !decide (bound ≤ key)) := by
  rw [← (drop_findIdx _ keys).1]
  exact stands_ofIndex keys _

/-- Going down, a scan starts one key before the first one that is not below its bound. -/
theorem stands_seek_prev {keys : List α} (sorted : keys.Pairwise (· < ·)) (bound : α) :
    Stands true keys ((seek keys bound).prev keys)
      (keys.reverse.dropWhile fun key => decide (bound ≤ key)) := by
  have sides : keys.reverse.dropWhile (fun key => decide (bound ≤ key)) =
      (keys.takeWhile fun key => !decide (bound ≤ key)).reverse := by
    rw [← dropWhile_reverse sorted]
    · congr 1
      funext key
      rw [Bool.not_not]
    · intro left right before holds
      simp only [Bool.not_eq_true', decide_eq_false_iff_not, not_le] at holds ⊢
      exact lt_trans before holds
  rw [sides, ← (drop_findIdx _ keys).2, seek, ofIndex]
  split_ifs with inside
  · cases found : keys.findIdx (fun key => decide (bound ≤ key)) with
    | zero => exact Or.inl ⟨rfl, rfl⟩
    | succ index => exact Or.inr ⟨index, by omega, rfl, rfl⟩
  · rw [List.take_of_length_le (not_lt.mp inside)]
    exact stands_seekToLast keys

end Cursor

end Db8.Bytes
