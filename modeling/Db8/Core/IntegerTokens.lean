import Db8.Core.JsonChunks
import Db8.Core.JsonRoundTrip

/-!
# Integer tokens

A number without point and exponent goes to `strtoll`, which takes a leading zero for base 8 and
stays within 64 bits. The visitor is called with what comes out before the end of the number is
looked at. So a token comes through as the integer its digits spell when the integer fits and no
zero leads, or when it is a single digit behind zeros.
-/

set_option autoImplicit false

namespace Db8.Core.MojJsonParser

open Db8.Bytes
open MojNumber

section Octal

open Literal

theorem self_le_natFrom (number : Nat) (digits : List (Fin 10)) : number ≤ natFrom number digits :=
  (Nat.le_mul_of_pos_right number (Nat.pow_pos (by decide))).trans (le_natFrom number digits)

theorem digitBelow_eight {x : Fin 10} (above : ¬ x.val < 8) : digitBelow 8 (digitChar x) = none := by
  rw [digitBelow, digitOf_digitChar, Option.filter_some, if_neg (by simpa using above)]

theorem octal_lt {low high : Nat} (less : low < high) (digits : List (Fin 10)) :
    readDigits 8 low (digits.map digitChar) < natFrom high digits := by
  induction digits generalizing low high with
  | nil => exact less
  | cons x digits ih =>
    rw [List.map_cons, readDigits, natFrom_cons]
    by_cases below : x.val < 8
    · rw [digitBelow_digitChar below]
      exact ih (by omega)
    · rw [digitBelow_eight below]
      have grows := self_le_natFrom (high * 10 + x.val) digits
      dsimp only
      omega

theorem octal_lt_self {number : Nat} (positive : 0 < number) (x : Fin 10)
    (digits : List (Fin 10)) :
    readDigits 8 number ((x :: digits).map digitChar) < natFrom number (x :: digits) := by
  rw [List.map_cons, readDigits, natFrom_cons]
  by_cases below : x.val < 8
  · rw [digitBelow_digitChar below]
    exact octal_lt (by omega) digits
  · rw [digitBelow_eight below]
    have grows := self_le_natFrom (number * 10 + x.val) digits
    dsimp only
    omega

/-- A single digit below 8 means the same in both bases, whatever zeros lead it. -/
theorem octal_small {digits : List (Fin 10)} (small : natFrom 0 digits < 8) :
    readDigits 8 0 (digits.map digitChar) = natFrom 0 digits ∧
      (digits.map digitChar).all fun c => (digitBelow 8 c).isSome := by
  induction digits with
  | nil => exact ⟨rfl, rfl⟩
  | cons x digits ih =>
    rw [natFrom_cons, Nat.zero_mul, Nat.zero_add] at small
    rw [List.map_cons, readDigits, natFrom_cons, List.all_cons]
    by_cases zero : x = 0
    · subst zero
      rcases ih small with ⟨read, all⟩
      rw [digitBelow_digitChar (by decide : (0 : Fin 10).val < 8)]
      exact ⟨read, all⟩
    · have positive : x.val ≠ 0 := fun same => zero (Fin.ext same)
      have grows := le_natFrom x.val digits
      have single : digits = [] := by
        cases digits with
        | nil => rfl
        | cons y digits =>
          rw [List.length_cons, Nat.pow_succ] at grows
          have power : 0 < 10 ^ digits.length := Nat.pow_pos (by decide)
          have large : 1 * (1 * 10) ≤ x.val * (10 ^ digits.length * 10) :=
            Nat.mul_le_mul (by omega) (Nat.mul_le_mul_right 10 power)
          omega
      subst single
      have below : x.val < 8 := small
      rw [digitBelow_digitChar below]
      exact ⟨rfl, rfl⟩

theorem octal_large {digits : List (Fin 10)} (large : 8 ≤ natFrom 0 digits) :
    readDigits 8 0 (digits.map digitChar) < natFrom 0 digits := by
  induction digits with
  | nil => exact absurd large (by decide)
  | cons x digits ih =>
    rw [natFrom_cons, Nat.zero_mul, Nat.zero_add] at large ⊢
    rw [List.map_cons, readDigits]
    by_cases below : x.val < 8
    · rw [digitBelow_digitChar below]
      simp only [Nat.zero_mul, Nat.zero_add]
      cases digits with
      | nil => exact absurd large (Nat.not_le.mpr below)
      | cons y digits =>
        by_cases zero : x = 0
        · subst zero
          exact ih large
        · have positive : x.val ≠ 0 := fun same => zero (Fin.ext same)
          exact octal_lt_self (Nat.pos_of_ne_zero positive) y digits
    · rw [digitBelow_eight below]
      dsimp only
      omega

theorem readBase_zero (digits : List (Fin 10)) :
    readBase ((0 :: digits).map digitChar) = (8, (0 :: digits).map digitChar) := by
  have zero : (digitChar 0).val.val = 48 := rfl
  have noLetter : ∀ y : Fin 10, ¬ ((digitChar y).val.val = 120 ∨ (digitChar y).val.val = 88) := by
    decide
  rcases digits with _ | ⟨y, _ | ⟨z, digits⟩⟩ <;> simp [readBase, zero, noLetter]

end Octal

section Token

open Literal

/-- The integer that a token spells: decimal digits, with a minus before them or not. -/
def denotes (token : ByteString) : Option Int :=
  let negative := decide (token.head? = some minus)
  let spelt := if negative then token.drop 1 else token
  if spelt = [] then none
  else (spelt.mapM MojNumber.digitOf).map fun digits => signed negative (natFrom 0 digits)

def ZeroLeads (token : ByteString) : Prop :=
  (if token.head? = some minus then token.drop 1 else token).head? = some (ch '0')

instance (token : ByteString) : Decidable (ZeroLeads token) :=
  inferInstanceAs (Decidable (_ = _))

def Fits (n : Int) : Prop := -2 ^ 63 ≤ n ∧ n < 2 ^ 63

instance (n : Int) : Decidable (Fits n) := inferInstanceAs (Decidable (_ ∧ _))

theorem mapM_digitOf {spelt : ByteString} {digits : List (Fin 10)}
    (all : spelt.mapM MojNumber.digitOf = some digits) : spelt = digits.map digitByte := by
  induction spelt generalizing digits with
  | nil =>
    cases all
    rfl
  | cons c spelt ih =>
    rw [List.mapM_cons] at all
    rcases Option.bind_eq_some_iff.mp all with ⟨x, read, all⟩
    rcases Option.bind_eq_some_iff.mp all with ⟨more, others, all⟩
    cases all
    have code : c = digitByte x := by
      unfold MojNumber.digitOf at read
      split_ifs at read with digit
      cases read
      apply Fin.ext
      change c.val = 48 + (c.val - 48)
      omega
    rw [List.map_cons, ← code, ih others]

theorem denotes_some {token : ByteString} {n : Int} (spells : denotes token = some n) :
    ∃ negative x digits, token = ((if negative then [minusChar] else []) ++
        (x :: digits).map digitChar).map Subtype.val ∧
      n = signed negative (natFrom 0 (x :: digits)) ∧ (ZeroLeads token ↔ x = 0) := by
  have zero : ∀ x : Fin 10, digitByte x = ch '0' ↔ x = 0 := by decide
  have noMinus : ∀ x : Fin 10, digitByte x ≠ minus := by decide
  unfold denotes at spells
  unfold ZeroLeads
  by_cases negative : token.head? = some minus
  · rcases List.head?_eq_some_iff.mp negative with ⟨spelt, rfl⟩
    simp only [negative, decide_true, if_true, List.drop_one, List.tail_cons] at spells ⊢
    split_ifs at spells with empty
    rcases Option.map_eq_some_iff.mp spells with ⟨digits, all, value⟩
    obtain rfl := mapM_digitOf all
    cases digits with
    | nil => exact absurd rfl empty
    | cons x digits =>
      refine ⟨true, x, digits, ?_, value.symm, ?_⟩
      · rw [if_pos rfl, List.map_append, ← map_digitByte]
        rfl
      · rw [List.map_cons, List.head?_cons, Option.some_inj]
        exact zero x
  · simp only [negative, decide_false, Bool.false_eq_true, if_false] at spells ⊢
    split_ifs at spells with empty
    rcases Option.map_eq_some_iff.mp spells with ⟨digits, all, value⟩
    obtain rfl := mapM_digitOf all
    cases digits with
    | nil => exact absurd rfl empty
    | cons x digits =>
      refine ⟨false, x, digits, ?_, value.symm, ?_⟩
      · rw [if_neg Bool.false_ne_true, List.nil_append, ← map_digitByte]
      · rw [List.map_cons, List.head?_cons, Option.some_inj]
        exact zero x

theorem ofInt_clamped_eq_iff {n m : Int} (fits : Fits n) :
    BitVec.ofInt 64 (max (-2 ^ 63) (min m (2 ^ 63 - 1))) = BitVec.ofInt 64 n ↔
      max (-2 ^ 63) (min m (2 ^ 63 - 1)) = n := by
  have kept : ∀ k : Int, Fits k → (BitVec.ofInt 64 k).toInt = k := by
    intro k range
    exact BitVec.toInt_ofInt_eq_self (by decide) range.1 range.2
  constructor
  · intro same
    have ints := congrArg BitVec.toInt same
    rw [kept n fits, kept _ ⟨by omega, by omega⟩] at ints
    exact ints
  · intro same
    rw [same]

theorem strToInt64_token {token : ByteString} {n : Int} (spells : denotes token = some n)
    (fits : Fits n) :
    (strToInt64 (cString token) = BitVec.ofInt 64 n ∧ intEnds (cString token) = true ↔
      (ZeroLeads token → n.natAbs < 8)) := by
  rcases denotes_some spells with ⟨negative, x, digits, spelt, value, zero⟩
  rw [zero, spelt, cString_map]
  unfold Fits at fits
  have magnitude : n.natAbs = natFrom 0 (x :: digits) := by
    rw [value]
    unfold signed
    split_ifs
    · rw [Int.natAbs_neg, Int.natAbs_natCast]
    · rw [Int.natAbs_natCast]
  rw [magnitude]
  by_cases leads : x = 0
  · subst leads
    rcases strToInt64_signed negative digits (readBase_zero digits) with ⟨read, ends⟩
    rw [read, ends]
    rcases Nat.lt_or_ge (natFrom 0 (0 :: digits)) 8 with small | large
    · rcases octal_small small with ⟨octal, all⟩
      rw [octal, ← value, all]
      have clamped : max (-2 ^ 63) (min n (2 ^ 63 - 1)) = n := by
        norm_num at fits ⊢
        omega
      rw [clamped]
      exact ⟨fun _ _ => small, fun _ => ⟨rfl, rfl⟩⟩
    · have less := octal_large large
      constructor
      · rintro ⟨same, _⟩
        have clamped := (ofInt_clamped_eq_iff fits).mp same
        rw [value] at clamped fits
        unfold signed at clamped fits
        generalize readDigits 8 0 ((0 :: digits).map digitChar) = octal at clamped less
        generalize natFrom 0 (0 :: digits) = number at clamped fits less
        exfalso
        norm_num at clamped fits
        split_ifs at clamped fits <;> omega
      · intro small
        exact absurd (small rfl) (Nat.not_lt.mpr large)
  · rcases strToInt64_digitChars negative digits leads with ⟨read, ends⟩
    rw [read, ends, ← value]
    have clamped : max (-2 ^ 63) (min n (2 ^ 63 - 1)) = n := by
      norm_num at fits ⊢
      omega
    rw [clamped]
    exact ⟨fun _ same => absurd same leads, fun _ => ⟨rfl, rfl⟩⟩

end Token

section Spelt

def InInteger (c : Byte) : Prop := isDigitByte c ∨ c = ch '+' ∨ c = ch '-'

instance (c : Byte) : Decidable (InInteger c) := inferInstanceAs (Decidable (_ ∨ _))

theorem inInteger_char : ∀ c : Byte, ∀ nonzero : c ≠ 0, InInteger c →
    isSpace ⟨c, nonzero⟩ = false ∧ c.val ≠ 120 ∧ c.val ≠ 88 ∧
      ((Db8.Core.digitOf ⟨c, nonzero⟩).isSome → (MojNumber.digitOf c).isSome) := by
  decide +kernel

theorem readBase_integer {str : MojString} (integer : ∀ c ∈ str, InInteger c.val) :
    (readBase str).2 = str := by
  match str, integer with
  | [], _ => rfl
  | [zero], _ =>
    simp only [readBase]
    split_ifs <;> rfl
  | [zero, letter], _ =>
    simp only [readBase]
    split_ifs <;> rfl
  | zero :: letter :: digit :: rest, integer =>
    have noLetter := inInteger_char letter.val letter.property (integer letter (by simp))
    simp only [readBase, noLetter.2.1, noLetter.2.2.1, or_self, false_and, and_false, if_false]
    split_ifs <;> rfl

theorem mapM_digitOf_of_all {spelt : ByteString}
    (all : ∀ c ∈ spelt, (MojNumber.digitOf c).isSome) :
    ∃ digits, spelt.mapM MojNumber.digitOf = some digits := by
  induction spelt with
  | nil => exact ⟨[], rfl⟩
  | cons c spelt ih =>
    rcases Option.isSome_iff_exists.mp (all c List.mem_cons_self) with ⟨x, read⟩
    rcases ih fun d member => all d (List.mem_cons_of_mem _ member) with ⟨digits, others⟩
    refine ⟨x :: digits, ?_⟩
    rw [List.mapM_cons, read, others]
    rfl

theorem chars_of_integer {token : ByteString} (integer : ∀ c ∈ token, InInteger c) :
    ∃ str : MojString, token = str.map Subtype.val := by
  induction token with
  | nil => exact ⟨[], rfl⟩
  | cons c token ih =>
    rcases ih fun d member => integer d (List.mem_cons_of_mem _ member) with ⟨str, rfl⟩
    have nonzero : c ≠ 0 := by
      intro zero
      have notInteger : ¬ InInteger 0 := by decide
      exact notInteger (zero ▸ integer c List.mem_cons_self)
    exact ⟨⟨c, nonzero⟩ :: str, rfl⟩

theorem denotes_of_intEnds {token : ByteString} (integer : ∀ c ∈ token, InInteger c)
    (noPlus : token.head? ≠ some (ch '+')) (ends : intEnds (cString token) = true) :
    ∃ n, denotes token = some n := by
  rcases chars_of_integer integer with ⟨str, rfl⟩
  rw [cString_map] at ends
  have integers : ∀ c ∈ str, InInteger c.val := by
    intro c member
    exact integer c.val (List.mem_map_of_mem member)
  have body : ∀ rest : MojString, (∀ c ∈ rest, InInteger c.val) →
      (!(readBase rest).2.isEmpty && (readBase rest).2.all
        fun c => (digitBelow (readBase rest).1 c).isSome) = true →
      rest ≠ [] ∧ ∃ digits, (rest.map Subtype.val).mapM MojNumber.digitOf = some digits := by
    intro rest inside all
    rw [readBase_integer inside, Bool.and_eq_true] at all
    refine ⟨by simpa using all.1, mapM_digitOf_of_all ?_⟩
    intro c member
    rcases List.mem_map.mp member with ⟨d, there, rfl⟩
    have below := List.all_eq_true.mp all.2 d there
    apply (inInteger_char d.val d.property (inside d there)).2.2.2
    unfold digitBelow at below
    rcases Option.isSome_iff_exists.mp below with ⟨x, filtered⟩
    exact Option.isSome_iff_exists.mpr ⟨x, (Option.filter_eq_some_iff.mp filtered).1⟩
  cases str with
  | nil => cases ends
  | cons c str =>
    have space := (inInteger_char c.val c.property (integers c List.mem_cons_self)).1
    have plusCode : c.val.val ≠ 43 := by
      intro code
      apply noPlus
      rw [List.map_cons, List.head?_cons]
      exact congrArg some (Fin.ext code)
    unfold intEnds at ends
    unfold denotes
    rw [List.dropWhile_cons, space] at ends
    simp only [List.map_cons, List.head?_cons, Option.some_inj]
    by_cases negative : c.val = minus
    · have code : c.val.val = 45 := congrArg Fin.val negative
      simp only [Bool.false_eq_true, if_false, List.head?_cons, Option.any_some, code, true_or,
        decide_true, if_true, List.drop_one, List.tail_cons] at ends
      rcases body str (fun d member => integers d (List.mem_cons_of_mem _ member)) ends with
        ⟨nonempty, digits, all⟩
      simp only [negative, decide_true, if_true, List.drop_one, List.tail_cons, all,
        List.map_eq_nil_iff, nonempty, if_false]
      exact ⟨_, rfl⟩
    · have code : c.val.val ≠ 45 := fun same => negative (Fin.ext same)
      simp only [Bool.false_eq_true, if_false, List.head?_cons, Option.any_some, code, plusCode,
        or_self, decide_false] at ends
      rcases body (c :: str) integers ends with ⟨nonempty, digits, all⟩
      rw [List.map_cons] at all
      simp only [negative, decide_false, Bool.false_eq_true, if_false, all, reduceCtorEq]
      exact ⟨_, rfl⟩

end Spelt

section Delivery

def recorder : JsonVisitor (List JsonCall) := fun calls call => (calls ++ [call], none)

/-- The text has a number token of digits and signs behind its front: with the first character of
the token the parser, which has made these calls by then, is at the beginning of a number. -/
structure HasToken (toDecimal : ByteString → Except MojErr MojInt64) (parser : MojJsonParser)
    (before : List JsonCall) (front token : ByteString) : Prop where
  begins : ∃ first more begun, token = first :: more ∧
    parseChunk recorder toDecimal parser [] (front ++ [first]) = (begun, before, .ok []) ∧
    begun.top.state = .number ∧ begun.str = [first] ∧ begun.isDecimal = false
  integer : ∀ c ∈ token, InInteger c

/-- The token is delivered as its integer, or refused before it is delivered when the integer does
not fit. -/
def Delivered (n : Int) (before : List JsonCall) (pass : Pass (List JsonCall)) : Prop :=
  if Fits n then ∃ later, pass = .redo later (before ++ [.intValue (BitVec.ofInt 64 n)])
  else ∃ err later, pass = .fail err later before

variable {toDecimal : ByteString → Except MojErr MojInt64} {parser : MojJsonParser}
  {before : List JsonCall} {front token : ByteString}

theorem token_read (has : HasToken toDecimal parser before front token) :
    ∃ later, parseChunk recorder toDecimal parser [] (front ++ token) = (later, before, .ok []) ∧
      later.top.state = .number ∧ later.str = token ∧ later.isDecimal = false := by
  rcases has.begins with ⟨first, more, begun, rfl, read, inside, str, whole⟩
  have parts : ∀ c ∈ more, InNumber c := by
    intro c member
    exact Or.inr (has.integer c (List.mem_cons_of_mem _ member))
  have noPoint : more.any (fun c => decide (IsPoint c)) = false := by
    have apart : ∀ c : Byte, InInteger c → ¬ IsPoint c := by decide +kernel
    rw [List.any_eq_false]
    intro c member pointed
    exact apart c (has.integer c (List.mem_cons_of_mem _ member)) (of_decide_eq_true pointed)
  rcases reads_number inside before parts begun.line begun.col with ⟨line, col, reads⟩
  have rest := reads []
  rw [List.append_nil, parseChunk] at rest
  refine ⟨(begun.withNumber more).located line col, ?_, inside, ?_, ?_⟩
  · have chunks := parseChunk_append recorder toDecimal parser [] (front ++ [first]) more
    rw [read] at chunks
    rw [show front ++ first :: more = front ++ [first] ++ more by simp, chunks]
    exact rest
  · rw [located_str]
    simp only [withNumber, str, List.singleton_append]
  · rw [located_isDecimal]
    simp only [withNumber, whole, noPoint, Bool.or_self]

theorem pass_integer {calls : List JsonCall} {c : Byte} (inside : parser.top.state = .number)
    (whole : parser.isDecimal = false) (ends : ¬ InNumber c) :
    let call := JsonCall.intValue (strToInt64 (cString parser.str))
    pass recorder toDecimal parser calls c =
      if intEnds (cString parser.str) then .redo (parser.eatThen .finish) (calls ++ [call])
      else .fail (parser.fault .int "json: error parsing int at") parser (calls ++ [call]) := by
  have notPoint : ¬ (c = ch '.' ∨ c = ch 'e' ∨ c = ch 'E') := fun pointed => ends (Or.inl pointed)
  have notDigit : ¬ (isDigitByte c = true ∨ c = ch '+' ∨ c = ch '-') :=
    fun digit => ends (Or.inr digit)
  rw [pass, inside]
  dsimp only
  rw [passNumber, if_neg notPoint, if_neg notDigit, whole]
  rfl

theorem delivered_iff {n : Int} {calls : List JsonCall} {c : Byte}
    (inside : parser.top.state = .number) (whole : parser.isDecimal = false) (ends : ¬ InNumber c)
    (spells : denotes parser.str = some n) :
    Delivered n calls (pass recorder toDecimal parser calls c) ↔
      Fits n ∧ (ZeroLeads parser.str → n.natAbs < 8) := by
  have passed := @pass_integer toDecimal parser calls c inside whole ends
  dsimp only at passed
  rw [passed]
  unfold Delivered
  by_cases fits : Fits n
  · rw [if_pos fits, ← strToInt64_token spells fits]
    constructor
    · rintro ⟨later, same⟩
      split at same
      next all =>
        injection same with _ told
        have call := List.append_cancel_left told
        injection call with call _
        injection call with val
        exact ⟨fits, val, all⟩
      next => cases same
    · rintro ⟨_, val, all⟩
      rw [if_pos all, val]
      exact ⟨_, rfl⟩
  · rw [if_neg fits]
    constructor
    · rintro ⟨err, later, same⟩
      split at same
      · cases same
      · injection same with _ _ told
        exact absurd told (by simp)
    · intro both
      exact absurd both.1 fits

theorem refused_of_not_denotes {calls : List JsonCall} {c : Byte}
    (inside : parser.top.state = .number) (whole : parser.isDecimal = false) (ends : ¬ InNumber c)
    (integer : ∀ d ∈ parser.str, InInteger d) (noPlus : parser.str.head? ≠ some (ch '+'))
    (nothing : denotes parser.str = none) :
    ∃ val, pass recorder toDecimal parser calls c =
      .fail (parser.fault .int "json: error parsing int at") parser (calls ++ [.intValue val]) := by
  have passed := @pass_integer toDecimal parser calls c inside whole ends
  dsimp only at passed
  have notAll : ¬ intEnds (cString parser.str) = true := by
    intro all
    rcases denotes_of_intEnds integer noPlus all with ⟨n, spells⟩
    rw [nothing] at spells
    cases spells
  rw [if_neg notAll] at passed
  exact ⟨_, passed⟩

theorem countLine_same (parser : MojJsonParser) (c : Byte) :
    (parser.countLine c).top = parser.top ∧ (parser.countLine c).str = parser.str ∧
      (parser.countLine c).isDecimal = parser.isDecimal := by
  unfold countLine
  split <;> exact ⟨rfl, rfl, rfl⟩

end Delivery

/-- Where a number token of a text ends, its integer is delivered if it fits and no zero leads its
digits, or only one behind zeros counts; it goes wrong with all other tokens that spell an integer.
Signs in wrong places are refused, after a call of the visitor. -/
theorem integer_tokens {toDecimal : ByteString → Except MojErr MojInt64} {parser : MojJsonParser}
    {before : List JsonCall} {front token : ByteString}
    (has : HasToken toDecimal parser before front token) :
    ∃ later, parseChunk recorder toDecimal parser [] (front ++ token) = (later, before, .ok []) ∧
      ∀ c, ¬ InNumber c →
        (∀ n, denotes token = some n →
          (Delivered n before (pass recorder toDecimal (later.countLine c) before c) ↔
            Fits n ∧ (ZeroLeads token → n.natAbs < 8))) ∧
        (denotes token = none → token.head? ≠ some (ch '+') →
          ∃ next val, pass recorder toDecimal (later.countLine c) before c =
            .fail (next.fault .int "json: error parsing int at") next
              (before ++ [.intValue val])) := by
  rcases token_read has with ⟨later, read, inside, str, whole⟩
  refine ⟨later, read, ?_⟩
  intro c ends
  rcases countLine_same later c with ⟨topEq, strEq, wholeEq⟩
  rw [← topEq] at inside
  rw [← wholeEq] at whole
  rw [← strEq] at str
  constructor
  · intro n spells
    rw [← str] at spells ⊢
    exact delivered_iff inside whole ends spells
  · intro nothing noPlus
    have integer := has.integer
    rw [← str] at nothing noPlus integer
    rcases refused_of_not_denotes inside whole ends integer noPlus nothing with ⟨val, passed⟩
    exact ⟨_, val, passed⟩

def noDecimal : ByteString → Except MojErr MojInt64 := fun _ => .error .unexpectedEof

set_option maxRecDepth 20000 in
theorem integer_tokens_sample :
    ∃ later, parseChunk recorder noDecimal create.restart [] (literal "[-17") =
        (later, [.beginArray], .ok []) ∧
      Delivered (-17) [.beginArray]
        (pass recorder noDecimal (later.countLine (ch ']')) [.beginArray] (ch ']')) := by
  have has : HasToken noDecimal create.restart [.beginArray] (literal "[") (literal "-17") :=
    ⟨⟨ch '-', literal "17", _, rfl, rfl, rfl, rfl, rfl⟩, by decide⟩
  rcases integer_tokens has with ⟨later, read, passes⟩
  have spelt : denotes (literal "-17") = some (-17) := by decide +kernel
  exact ⟨later, read, ((passes (ch ']') (by decide)).1 _ spelt).mpr (by decide +kernel)⟩

set_option maxRecDepth 20000 in
/-- In the text `[010]` the token `010` is delivered as eight. -/
theorem integer_tokens_octal :
    (parseChunk recorder noDecimal create.restart [] (literal "[010]")).2.1 =
        [.beginArray, .intValue 8, .endArray] ∧
      ¬ ∀ (toDecimal : ByteString → Except MojErr MojInt64) (parser later : MojJsonParser)
        (before : List JsonCall) (front token : ByteString) (c : Byte) (n : Int),
        HasToken toDecimal parser before front token →
        parseChunk recorder toDecimal parser [] (front ++ token) = (later, before, .ok []) →
        ¬ InNumber c → denotes token = some n →
        Delivered n before (pass recorder toDecimal (later.countLine c) before c) := by
  constructor
  · decide +kernel
  · intro all
    have has : HasToken noDecimal create.restart [.beginArray] (literal "[") (literal "010") :=
      ⟨⟨ch '0', literal "10", _, rfl, rfl, rfl, rfl, rfl⟩, by decide⟩
    rcases token_read has with ⟨later, read, inside, str, whole⟩
    have spelt : denotes (literal "010") = some 10 := by decide +kernel
    have delivered := all noDecimal create.restart later [.beginArray] (literal "[") (literal "010")
      (ch ']') 10 has read (by decide) spelt
    rcases countLine_same later (ch ']') with ⟨topEq, strEq, wholeEq⟩
    rw [← topEq] at inside
    rw [← wholeEq] at whole
    rw [← strEq] at str
    rw [← str] at spelt
    have exactly := ((delivered_iff inside whole (by decide) spelt).mp delivered).2
    rw [str] at exactly
    exact absurd exactly (by decide +kernel)

end Db8.Core.MojJsonParser
