import Mathlib.Algebra.GroupWithZero.Nat
import Mathlib.Data.List.Lex
import Mathlib.Data.List.Induction
import Mathlib.Data.Fin.Basic
import Mathlib.Order.Fin.Basic

/-!
# Byte strings in lexicographic order

General facts about lexicographically ordered lists: separated prefixes decide the order of their
extensions, prefix-free codes concatenate injectively, and the byte successor of a string is the
least string above every extension of it. Nothing here names a key of the database.
-/

set_option autoImplicit false

namespace Db8.Bytes

section Prefix

variable {α : Type*}

def Separate (left right : List α) : Prop := ¬ left <+: right ∧ ¬ right <+: left

/-- A code in which no word is a proper prefix of another word. -/
def PrefixFree (code : Set (List α)) : Prop :=
  ∀ left ∈ code, ∀ right ∈ code, left <+: right → left = right

variable {code : Set (List α)}

theorem PrefixFree.separate (free : PrefixFree code) {left right : List α} (leftIn : left ∈ code)
    (rightIn : right ∈ code) (distinct : left ≠ right) : Separate left right := by
  constructor
  · intro starts
    exact distinct (free left leftIn right rightIn starts)
  · intro starts
    exact distinct (free right rightIn left leftIn starts).symm

/-- Two words of a prefix-free code that begin the same list are the same word. -/
theorem PrefixFree.eq_of_append_eq (free : PrefixFree code) {left right leftRest rightRest : List α}
    (leftIn : left ∈ code) (rightIn : right ∈ code) (same : left ++ leftRest = right ++ rightRest) :
    left = right ∧ leftRest = rightRest := by
  have words : left = right := by
    rcases List.append_eq_append_iff.mp same with ⟨middle, rightEq, _⟩ | ⟨middle, leftEq, _⟩
    · exact free left leftIn right rightIn ⟨middle, rightEq.symm⟩
    · exact (free right rightIn left leftIn ⟨middle, leftEq.symm⟩).symm
  subst words
  exact ⟨rfl, List.append_cancel_left same⟩

theorem PrefixFree.append_prefix_append (free : PrefixFree code) {left right : List α}
    (leftIn : left ∈ code) (rightIn : right ∈ code) {leftRest rightRest : List α}
    (starts : left ++ leftRest <+: right ++ rightRest) : left = right ∧ leftRest <+: rightRest := by
  obtain ⟨rest, same⟩ := starts
  rw [List.append_assoc] at same
  obtain ⟨words, tails⟩ := free.eq_of_append_eq leftIn rightIn same
  exact ⟨words, rest, tails⟩

theorem PrefixFree.flatten_append_inj (free : PrefixFree code) {left right : List (List α)}
    (leftIn : ∀ part ∈ left, part ∈ code) (rightIn : ∀ part ∈ right, part ∈ code)
    (lengths : left.length = right.length) {leftRest rightRest : List α}
    (same : left.flatten ++ leftRest = right.flatten ++ rightRest) :
    left = right ∧ leftRest = rightRest := by
  induction left generalizing right with
  | nil =>
    obtain rfl := List.length_eq_zero_iff.mp lengths.symm
    exact ⟨rfl, by simpa using same⟩
  | cons head left ih =>
    cases right with
    | nil => simp at lengths
    | cons other right =>
      rw [List.flatten_cons, List.flatten_cons, List.append_assoc, List.append_assoc] at same
      obtain ⟨rfl, tails⟩ := free.eq_of_append_eq (leftIn head List.mem_cons_self)
        (rightIn other List.mem_cons_self) same
      obtain ⟨rfl, rests⟩ := ih (fun part member => leftIn part (List.mem_cons_of_mem _ member))
        (fun part member => rightIn part (List.mem_cons_of_mem _ member))
        (by simpa using lengths) tails
      exact ⟨rfl, rests⟩

theorem PrefixFree.flatten_inj (free : PrefixFree code) {left right : List (List α)}
    (leftIn : ∀ part ∈ left, part ∈ code) (rightIn : ∀ part ∈ right, part ∈ code)
    (lengths : left.length = right.length) (same : left.flatten = right.flatten) :
    left = right := by
  have whole : left.flatten ++ [] = right.flatten ++ [] := by rw [same]
  exact (free.flatten_append_inj leftIn rightIn lengths whole).1

/-- Words made of a fixed number of code words. -/
def Words (code : Set (List α)) (count : Nat) : Set (List α) :=
  {word | ∃ parts : List (List α),
    parts.length = count ∧ (∀ part ∈ parts, part ∈ code) ∧ word = parts.flatten}

theorem PrefixFree.words (free : PrefixFree code) (count : Nat) :
    PrefixFree (Words code count) := by
  rintro _ ⟨left, leftLength, leftIn, rfl⟩ _ ⟨right, rightLength, rightIn, rfl⟩ ⟨rest, same⟩
  have whole : left.flatten ++ rest = right.flatten ++ [] := by rw [same, List.append_nil]
  rw [(free.flatten_append_inj leftIn rightIn (leftLength.trans rightLength.symm) whole).1]

theorem mem_words_one {word : List α} (member : word ∈ code) : word ∈ Words code 1 :=
  ⟨[word], rfl, by simpa using member, by simp⟩

end Prefix

section Lexicographic

variable {α : Type*} [LinearOrder α]

theorem append_lt_append_left_iff (common left right : List α) :
    common ++ left < common ++ right ↔ left < right := by
  induction common with
  | nil => rfl
  | cons head tail ih =>
    rw [List.cons_append, List.cons_append, List.cons_lt_cons_iff]
    constructor
    · rintro (below | ⟨_, below⟩)
      · exact absurd below (lt_irrefl head)
      · exact ih.mp below
    · intro below
      exact Or.inr ⟨rfl, ih.mpr below⟩

theorem append_le_append_left_iff (common left right : List α) :
    common ++ left ≤ common ++ right ↔ left ≤ right := by
  rw [← not_lt, ← not_lt, append_lt_append_left_iff]

theorem self_le_append (left right : List α) : left ≤ left ++ right := by
  have base := append_le_append_left_iff left [] right
  rw [List.append_nil] at base
  exact base.mpr (not_lt.mp (List.not_lt_nil right))

theorem le_of_starts {left right : List α} (starts : left <+: right) : left ≤ right := by
  obtain ⟨rest, rfl⟩ := starts
  exact self_le_append left rest

theorem append_lt_append_iff_of_separate {left right : List α} (separate : Separate left right)
    (leftRest rightRest : List α) :
    left ++ leftRest < right ++ rightRest ↔ left < right := by
  induction left generalizing right with
  | nil => exact absurd List.nil_prefix separate.1
  | cons a left ih =>
    cases right with
    | nil => exact absurd List.nil_prefix separate.2
    | cons b right =>
      rw [List.cons_append, List.cons_append, List.cons_lt_cons_iff, List.cons_lt_cons_iff]
      rcases lt_trichotomy a b with below | same | above
      · simp only [below, true_or]
      · subst same
        have tails : Separate left right := by
          constructor
          · intro starts
            exact separate.1 ((List.prefix_cons_inj a).mpr starts)
          · intro starts
            exact separate.2 ((List.prefix_cons_inj a).mpr starts)
        simp only [lt_self_iff_false, true_and, false_or]
        exact ih tails
      · simp only [not_lt_of_gt above, above.ne', false_and, or_self]

/-- Pairs of words of a prefix-free code and arbitrary tails compare lexicographically. -/
theorem PrefixFree.append_lt_append_iff {code : Set (List α)} (free : PrefixFree code)
    {left right : List α} (leftIn : left ∈ code) (rightIn : right ∈ code)
    (leftRest rightRest : List α) :
    left ++ leftRest < right ++ rightRest ↔
      left < right ∨ left = right ∧ leftRest < rightRest := by
  by_cases same : left = right
  · subst same
    rw [append_lt_append_left_iff]
    simp only [lt_self_iff_false, true_and, false_or]
  · rw [append_lt_append_iff_of_separate (free.separate leftIn rightIn same)]
    simp only [same, false_and, or_false]

end Lexicographic

section Successor

abbrev Byte := Fin 256

instance byteNeZero : NeZero 256 := ⟨by decide⟩

abbrev ByteString := List Byte

/-- Drop trailing maximal bytes of a reversed string and add one to the byte before them. -/
def bumpReversed : ByteString → ByteString
  | [] => []
  | byte :: rest => if byte.val < 255 then (byte + 1) :: rest else bumpReversed rest

/-- The string after every extension of `text`; empty when there is none. -/
def successor (text : ByteString) : ByteString := (bumpReversed text.reverse).reverse

@[simp] theorem successor_nil : successor [] = [] := rfl

theorem successor_concat (text : ByteString) (byte : Byte) :
    successor (text ++ [byte]) =
      if byte.val < 255 then text ++ [byte + 1] else successor text := by
  unfold successor
  rw [List.reverse_append, List.reverse_singleton, List.singleton_append, bumpReversed]
  split_ifs with small
  · simp
  · rfl

/-- An upper bound that is open to the right when it is the empty string. -/
def Below (text bound : ByteString) : Prop := bound = [] ∨ text < bound

instance (text bound : ByteString) : Decidable (Below text bound) :=
  inferInstanceAs (Decidable (_ ∨ _))

@[simp] theorem below_nil (text : ByteString) : Below text [] := Or.inl rfl

theorem below_iff_lt {bound : ByteString} (bounded : bound ≠ []) (text : ByteString) :
    Below text bound ↔ text < bound := by
  simp only [Below, bounded, false_or]

theorem Below.of_le {smaller larger bound : ByteString} (below : Below larger bound)
    (ordered : smaller ≤ larger) : Below smaller bound := by
  rcases below with rfl | below
  · exact below_nil smaller
  · exact Or.inr (lt_of_le_of_lt ordered below)

theorem byte_succ_val {byte : Byte} (small : byte.val < 255) : (byte + 1).val = byte.val + 1 := by
  rw [Fin.val_add]
  simp only [Fin.val_one]
  omega

theorem lt_concat_succ_iff (text other : ByteString) (byte : Byte) (small : byte.val < 255) :
    other < text ++ [byte + 1] ↔ other < text ++ [byte] ∨ text ++ [byte] <+: other := by
  induction text generalizing other with
  | nil =>
    cases other with
    | nil => simp
    | cons head rest =>
      have split : head < byte + 1 ↔ head < byte ∨ byte = head := by
        rw [Fin.lt_def, Fin.lt_def, Fin.ext_iff, byte_succ_val small]
        omega
      simp only [List.nil_append, List.cons_lt_cons_iff, List.not_lt_nil, and_false, or_false,
        List.cons_prefix_cons, List.nil_prefix, and_true]
      exact split
  | cons first text ih =>
    cases other with
    | nil => simp
    | cons head rest =>
      simp only [List.cons_append, List.cons_lt_cons_iff, ih, List.cons_prefix_cons]
      constructor
      · rintro (below | ⟨same, below | starts⟩)
        · exact Or.inl (Or.inl below)
        · exact Or.inl (Or.inr ⟨same, below⟩)
        · exact Or.inr ⟨same.symm, starts⟩
      · rintro ((below | ⟨same, below⟩) | ⟨same, starts⟩)
        · exact Or.inl below
        · exact Or.inr ⟨same, Or.inl below⟩
        · exact Or.inr ⟨same.symm, Or.inr starts⟩

theorem lt_concat_or_prefix_iff_of_max (text other : ByteString) (byte : Byte)
    (full : ¬ byte.val < 255) :
    other < text ++ [byte] ∨ text ++ [byte] <+: other ↔ other < text ∨ text <+: other := by
  have top : ∀ head : Byte, head < byte ∨ byte = head := by
    intro head
    rw [Fin.lt_def, Fin.ext_iff]
    have := head.isLt
    have := byte.isLt
    omega
  induction text generalizing other with
  | nil =>
    cases other with
    | nil => simp
    | cons head rest =>
      simp only [List.nil_append, List.cons_lt_cons_iff, List.not_lt_nil, and_false, or_false,
        List.cons_prefix_cons, List.nil_prefix, and_true, or_true, iff_true]
      exact top head
  | cons first text ih =>
    cases other with
    | nil => simp
    | cons head rest =>
      simp only [List.cons_append, List.cons_lt_cons_iff, List.cons_prefix_cons]
      have tails := ih rest
      constructor
      · rintro ((below | ⟨same, below⟩) | ⟨same, starts⟩)
        · exact Or.inl (Or.inl below)
        · rcases tails.mp (Or.inl below) with below | starts
          · exact Or.inl (Or.inr ⟨same, below⟩)
          · exact Or.inr ⟨same.symm, starts⟩
        · rcases tails.mp (Or.inr starts) with below | starts
          · exact Or.inl (Or.inr ⟨same.symm, below⟩)
          · exact Or.inr ⟨same, starts⟩
      · rintro ((below | ⟨same, below⟩) | ⟨same, starts⟩)
        · exact Or.inl (Or.inl below)
        · rcases tails.mpr (Or.inl below) with below | starts
          · exact Or.inl (Or.inr ⟨same, below⟩)
          · exact Or.inr ⟨same.symm, starts⟩
        · rcases tails.mpr (Or.inr starts) with below | starts
          · exact Or.inl (Or.inr ⟨same.symm, below⟩)
          · exact Or.inr ⟨same, starts⟩

/-- A string lies below the successor exactly when it precedes `text` or extends it. -/
theorem below_successor_iff (text other : ByteString) :
    Below other (successor text) ↔ other < text ∨ text <+: other := by
  induction text using List.reverseRecOn with
  | nil => simp
  | append_singleton text byte ih =>
    rw [successor_concat]
    split_ifs with small
    · rw [below_iff_lt (by simp), lt_concat_succ_iff text other byte small]
    · rw [ih, lt_concat_or_prefix_iff_of_max text other byte small]

/-- From `text` inclusive to its successor exclusive lie exactly the extensions of `text`. -/
theorem le_and_below_successor_iff (text other : ByteString) :
    text ≤ other ∧ Below other (successor text) ↔ text <+: other := by
  rw [below_successor_iff]
  constructor
  · rintro ⟨above, below | starts⟩
    · exact absurd below (not_lt.mpr above)
    · exact starts
  · intro starts
    exact ⟨le_of_starts starts, Or.inr starts⟩

theorem prefix_of_between {text low high : ByteString} (above : text ≤ low)
    (below : low ≤ high) (starts : text <+: high) : text <+: low := by
  have bounded := ((le_and_below_successor_iff text high).mpr starts).2
  exact (le_and_below_successor_iff text low).mp ⟨above, bounded.of_le below⟩

theorem below_successor_self (text : ByteString) : Below text (successor text) :=
  (below_successor_iff text text).mpr (Or.inr (List.prefix_refl text))

theorem successor_le_of_separate {text other : ByteString} (above : text < other)
    (separate : ¬ text <+: other) : successor text ≠ [] ∧ successor text ≤ other := by
  have outside : ¬ Below other (successor text) := by
    rw [below_successor_iff]
    rintro (below | starts)
    · exact lt_asymm above below
    · exact separate starts
  simp only [Below, not_or, not_lt] at outside
  exact outside

theorem bumpReversed_append {text : ByteString} (bounded : bumpReversed text ≠ [])
    (rest : ByteString) : bumpReversed (text ++ rest) = bumpReversed text ++ rest := by
  induction text with
  | nil => exact absurd rfl bounded
  | cons byte text ih =>
    rw [bumpReversed] at bounded
    rw [List.cons_append, bumpReversed, bumpReversed]
    split_ifs at bounded ⊢ with small
    · rfl
    · exact ih bounded

theorem successor_append {text : ByteString} (bounded : successor text ≠ [])
    (front : ByteString) : successor (front ++ text) = front ++ successor text := by
  have bumped : bumpReversed text.reverse ≠ [] := by
    intro empty
    exact bounded (by rw [successor, empty, List.reverse_nil])
  rw [successor, List.reverse_append, bumpReversed_append bumped, List.reverse_append,
    List.reverse_reverse, successor]

theorem successor_ne_nil {byte : Byte} (small : byte.val < 255) (rest : ByteString) :
    successor (byte :: rest) ≠ [] := by
  induction rest using List.reverseRecOn with
  | nil =>
    rw [← List.nil_append [byte], successor_concat, if_pos small]
    simp
  | append_singleton rest last ih =>
    rw [← List.cons_append, successor_concat]
    split_ifs
    · simp
    · exact ih

theorem lt_successor {text : ByteString} (bounded : successor text ≠ []) :
    text < successor text :=
  (below_iff_lt bounded text).mp (below_successor_self text)

end Successor

section Cuts

/-! Where a code word followed by anything lies against another code word. -/

variable {code : Set ByteString} (free : PrefixFree code) {bound word : ByteString}
  (boundIn : bound ∈ code) (wordIn : word ∈ code) (rest : ByteString)
include free boundIn wordIn

theorem lt_append_of_code : word ++ rest < bound ↔ word < bound := by
  have cut := free.append_lt_append_iff wordIn boundIn rest []
  rw [List.append_nil] at cut
  rw [cut]
  simp

theorem le_append_of_code : bound ≤ word ++ rest ↔ bound ≤ word := by
  rw [← not_lt, ← not_lt, lt_append_of_code free boundIn wordIn rest]

theorem prefix_append_of_code : bound <+: word ++ rest ↔ bound = word := by
  constructor
  · intro starts
    have whole : bound ++ [] <+: word ++ rest := by rwa [List.append_nil]
    exact (free.append_prefix_append boundIn wordIn whole).1
  · rintro rfl
    exact List.prefix_append bound rest

theorem below_successor_of_code : Below (word ++ rest) (successor bound) ↔ word ≤ bound := by
  rw [below_successor_iff, lt_append_of_code free boundIn wordIn rest,
    prefix_append_of_code free boundIn wordIn rest, le_iff_lt_or_eq, eq_comm]

theorem successor_le_of_code (bounded : successor bound ≠ []) :
    successor bound ≤ word ++ rest ↔ bound < word := by
  rw [← not_lt, ← below_iff_lt bounded, below_successor_of_code free boundIn wordIn rest, not_le]

end Cuts

end Db8.Bytes
