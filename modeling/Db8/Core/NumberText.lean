import Db8.Core.JsonParser
import Db8.Core.NumberExact

/-!
# Numbers as text

How an integer and a decimal are written, and that they are read back as they were. An integer is
printed by its digits, which `strtoll` takes for decimal ones since the first is not zero. A decimal
is printed with its point and no more zeros behind it than one, and no digit of it is lost to the
parser of numbers.
-/

set_option autoImplicit false

namespace Db8.Core

open Db8.Bytes MojNumber

/-- The decimal digits of a number from the last on, none for zero. -/
def digitsUp (number : Nat) : List (Fin 10) :=
  if number = 0 then [] else Fin.ofNat 10 number :: digitsUp (number / 10)

def digitByte (x : Fin 10) : Byte := ⟨48 + x.val, by omega⟩

/-- `%lld`. -/
def intText (val : MojInt64) : ByteString :=
  let digits := (digitsUp val.toInt.natAbs).reverse
  (if val.toInt < 0 then [minus] else []) ++
    (if digits = [] then [0] else digits).map digitByte

namespace MojDecimal

def precision : Nat := 6

/-- All digits in reverse order, zero padded up to the decimal point. -/
def tmpDigits (number : Nat) : List (Fin 10) :=
  let digits := digitsUp number
  digits ++ List.replicate (precision + 1 - digits.length) 0

def firstDigit (tmp : List (Fin 10)) : Nat :=
  min (tmp.findIdx fun x => decide (x ≠ 0)) (precision - 1)

/-- The least representation has no absolute value in its type; it is not asked for. -/
def stringValue (rep : MojInt64) : ByteString :=
  let tmp := tmpDigits rep.toInt.natAbs
  (if rep.toInt < 0 then [minus] else []) ++ ((tmp.drop precision).reverse.map digitByte ++
    point :: ((tmp.take precision).drop (firstDigit tmp)).reverse.map digitByte)

/-- `assign`, whatever the errors are that it reports. -/
def assign (fault : NumberErr → MojErr) (str : ByteString) : Except MojErr MojInt64 :=
  match (MojNumber.assign str).2 with
  | .ok rep => .ok (BitVec.ofInt 64 rep)
  | .error err => .error (fault err)

end MojDecimal

section Digits

open Literal

@[simp] theorem natFrom_cons (start : Nat) (x : Fin 10) (digits : List (Fin 10)) :
    natFrom start (x :: digits) = natFrom (start * 10 + x.val) digits := rfl

theorem natFrom_append (start : Nat) (front back : List (Fin 10)) :
    natFrom start (front ++ back) = natFrom (natFrom start front) back :=
  List.foldl_append

theorem natFrom_zeros (start count : Nat) :
    natFrom start (List.replicate count 0) = start * 10 ^ count := by
  induction count generalizing start with
  | zero => exact (Nat.mul_one start).symm
  | succ count ih =>
    rw [List.replicate_succ, natFrom_cons, ih, Nat.pow_succ']
    simp only [Fin.val_zero, Nat.add_zero]
    exact Nat.mul_assoc start 10 _

/-- Digits behind a number make it ten times as large for each of them, or more. -/
theorem le_natFrom (start : Nat) (digits : List (Fin 10)) :
    start * 10 ^ digits.length ≤ natFrom start digits := by
  induction digits generalizing start with
  | nil => exact (Nat.mul_one start).le
  | cons x digits ih =>
    have grows : start * 10 * 10 ^ digits.length ≤ (start * 10 + x.val) * 10 ^ digits.length :=
      Nat.mul_le_mul_right _ (Nat.le_add_right _ _)
    rw [List.length_cons, Nat.pow_succ', ← Nat.mul_assoc]
    exact grows.trans (ih _)

theorem natFrom_digitsUp (number : Nat) : natFrom 0 (digitsUp number).reverse = number := by
  induction number using digitsUp.induct with
  | case1 =>
    rw [digitsUp]
    rfl
  | case2 number nonzero ih =>
    rw [digitsUp, if_neg nonzero, List.reverse_cons, natFrom_append, ih]
    have low : (Fin.ofNat 10 number).val = number % 10 := rfl
    change number / 10 * 10 + (Fin.ofNat 10 number).val = number
    omega

theorem digitsUp_reverse {number : Nat} (nonzero : number ≠ 0) :
    ∃ x digits, (digitsUp number).reverse = x :: digits ∧ x ≠ 0 := by
  induction number using digitsUp.induct with
  | case1 => exact absurd rfl nonzero
  | case2 number _ ih =>
    rw [digitsUp, if_neg nonzero, List.reverse_cons]
    by_cases single : number / 10 = 0
    · rw [single, digitsUp, if_pos rfl]
      refine ⟨Fin.ofNat 10 number, [], rfl, ?_⟩
      intro zero
      have low : number % 10 = 0 := congrArg Fin.val zero
      omega
    · rcases ih single with ⟨x, digits, same, first⟩
      exact ⟨x, digits ++ [Fin.ofNat 10 number], by rw [same]; rfl, first⟩

theorem length_digitsUp {number count : Nat} (small : number < 10 ^ count) :
    (digitsUp number).length ≤ count := by
  induction count generalizing number with
  | zero =>
    have zero : number = 0 := by omega
    rw [zero, digitsUp]
    exact le_refl 0
  | succ count ih =>
    rw [digitsUp]
    split
    · exact Nat.zero_le _
    · have shorter : number / 10 < 10 ^ count :=
        Nat.div_lt_of_lt_mul (by rwa [← Nat.pow_succ'])
      exact Nat.succ_le_succ (ih shorter)

end Digits

section Integers

open MojJsonParser Literal

theorem cString_map (str : MojString) : cString (str.map Subtype.val) = str := by
  induction str with
  | nil => rfl
  | cons c str ih =>
    have nonzero : c.val ≠ 0 := c.property
    rw [List.map_cons, cString, dif_pos nonzero, ih]

def digitChar (x : Fin 10) : MojChar :=
  ⟨digitByte x, by
    intro zero
    have code : 48 + x.val = 0 := congrArg Fin.val zero
    omega⟩

def minusChar : MojChar := ⟨minus, by decide⟩

theorem digitOf_digitChar (x : Fin 10) : Db8.Core.digitOf (digitChar x) = some x.val := by
  revert x
  decide

theorem digitBelow_digitChar {base : Nat} {x : Fin 10} (below : x.val < base) :
    digitBelow base (digitChar x) = some x.val := by
  rw [digitBelow, digitOf_digitChar, Option.filter_some, if_pos (decide_eq_true below)]

theorem readDigits_digitChars (number : Nat) (digits : List (Fin 10)) :
    readDigits 10 number (digits.map digitChar) = natFrom number digits := by
  induction digits generalizing number with
  | nil => rfl
  | cons x digits ih =>
    rw [List.map_cons, readDigits, digitBelow_digitChar x.isLt]
    exact ih _

theorem readBase_digitChars {x : Fin 10} (digits : List (Fin 10)) (first : x ≠ 0) :
    readBase ((x :: digits).map digitChar) = (10, (x :: digits).map digitChar) := by
  have code : (digitChar x).val.val ≠ 48 := by
    intro same
    apply first
    apply Fin.ext
    have shifted : 48 + x.val = 48 := same
    change x.val = 0
    omega
  rcases digits with _ | ⟨y, _ | ⟨z, digits⟩⟩ <;> simp [readBase, code]

theorem isSpace_digitChar (x : Fin 10) : isSpace (digitChar x) = false := by
  revert x
  decide

theorem digitChar_code (x : Fin 10) :
    (digitChar x).val.val ≠ 45 ∧ (digitChar x).val.val ≠ 43 := by
  revert x
  decide

theorem strToInt64_signed (negative : Bool) {x : Fin 10} (digits : List (Fin 10)) {base : Nat}
    (based : readBase ((x :: digits).map digitChar) = (base, (x :: digits).map digitChar)) :
    let str := (if negative then [minusChar] else []) ++ (x :: digits).map digitChar
    strToInt64 str = BitVec.ofInt 64 (max (-2 ^ 63)
      (min (signed negative (readDigits base 0 ((x :: digits).map digitChar))) (2 ^ 63 - 1))) ∧
      intEnds str = ((x :: digits).map digitChar).all fun c => (digitBelow base c).isSome := by
  have space := isSpace_digitChar x
  have code := digitChar_code x
  rw [List.map_cons] at based ⊢
  unfold strToInt64 intEnds signed
  cases negative with
  | false =>
    simp only [Bool.false_eq_true, if_false, List.nil_append, List.dropWhile_cons, space,
      List.head?_cons, Option.any_some, code.1, code.2, or_self, decide_false, based,
      List.isEmpty_cons, Bool.not_false, Bool.true_and, and_self]
  | true =>
    have spaceMinus : isSpace minusChar = false := by decide
    have codeMinus : minusChar.val.val = 45 := rfl
    simp only [if_true, List.singleton_append, List.dropWhile_cons, spaceMinus,
      Bool.false_eq_true, if_false, List.head?_cons, Option.any_some, codeMinus, true_or,
      decide_true, List.drop_one, List.tail_cons, based, List.isEmpty_cons, Bool.not_false,
      Bool.true_and, and_self]

theorem strToInt64_digitChars (negative : Bool) {x : Fin 10} (digits : List (Fin 10))
    (first : x ≠ 0) :
    let str := (if negative then [minusChar] else []) ++ (x :: digits).map digitChar
    strToInt64 str = BitVec.ofInt 64 (max (-2 ^ 63)
      (min (signed negative (natFrom 0 (x :: digits))) (2 ^ 63 - 1))) ∧ intEnds str = true := by
  have all : ((x :: digits).map digitChar).all fun c => (digitBelow 10 c).isSome := by
    apply List.all_eq_true.mpr
    intro c member
    rcases List.mem_map.mp member with ⟨y, _, rfl⟩
    rw [digitBelow_digitChar y.isLt]
    rfl
  have read := strToInt64_signed negative digits (readBase_digitChars digits first)
  rw [all, readDigits_digitChars] at read
  exact read

theorem map_digitByte (digits : List (Fin 10)) :
    digits.map digitByte = (digits.map digitChar).map Subtype.val := by
  rw [List.map_map]
  rfl

theorem signed_natAbs (val : Int) : signed (decide (val < 0)) val.natAbs = val := by
  unfold signed
  split_ifs with negative
  · have below : val < 0 := of_decide_eq_true negative
    omega
  · have above : ¬ val < 0 := fun below => negative (decide_eq_true below)
    omega

theorem strToInt64_intText (val : MojInt64) :
    strToInt64 (cString (intText val)) = val ∧ intEnds (cString (intText val)) = true := by
  by_cases zero : val.toInt = 0
  · have same : val = 0 := BitVec.eq_of_toInt_eq zero
    have noDigits : digitsUp (0 : MojInt64).toInt.natAbs = [] := by
      rw [digitsUp]
      rfl
    rw [same, intText, noDigits]
    decide
  · rcases digitsUp_reverse (Int.natAbs_ne_zero.mpr zero) with ⟨x, digits, same, first⟩
    have number := natFrom_digitsUp val.toInt.natAbs
    have spelt : intText val = ((if decide (val.toInt < 0) then [minusChar] else []) ++
        (x :: digits).map digitChar).map Subtype.val := by
      rw [intText, same, if_neg (List.cons_ne_nil x digits), map_digitByte, List.map_append]
      by_cases negative : val.toInt < 0 <;> simp [negative, minusChar]
    rw [same] at number
    have read := strToInt64_digitChars (decide (val.toInt < 0)) digits first
    dsimp only at read
    rw [number, signed_natAbs] at read
    have low := BitVec.le_toInt val
    have high := BitVec.toInt_lt (x := val)
    have clamped : max (-2 ^ 63) (min val.toInt (2 ^ 63 - 1)) = val.toInt := by
      norm_num at low high ⊢
      omega
    rw [clamped, BitVec.ofInt_toInt] at read
    rw [spelt, cString_map]
    exact read

end Integers

section Decimals

open Literal

theorem digitOf_digitByte (x : Fin 10) : MojNumber.digitOf (digitByte x) = some x := by
  revert x
  decide

theorem lexChar_digitByte (x : Fin 10) : ∀ state ∈ [LexState.number, .magnitude],
    lexChar state (digitByte x) = .ok (some (.digit x), .magnitudeDigits) := by
  revert x
  decide

theorem events_fractionDigits (digits : List (Fin 10)) :
    events .fractionDigits (digits.map digitByte) =
      .ok (digits.map Event.fractionDigit ++ [.finish]) := by
  induction digits with
  | nil => rfl
  | cons x digits ih =>
    rw [List.map_cons, MojNumber.events, lexChar, digitOf_digitByte]
    dsimp only
    rw [ih]
    rfl

theorem events_pointed (whole : List (Fin 10)) (x : Fin 10) (digits : List (Fin 10)) :
    events .magnitudeDigits (whole.map digitByte ++ point :: (x :: digits).map digitByte) =
      .ok (whole.map Event.digit ++ ((x :: digits).map Event.fractionDigit ++ [.finish])) := by
  induction whole with
  | nil =>
    have pointNext : lexChar .magnitudeDigits point = .ok (none, .fraction) := by decide
    rw [List.map_nil, List.nil_append, MojNumber.events, pointNext]
    dsimp only
    rw [List.map_cons, MojNumber.events, lexChar, digitOf_digitByte]
    dsimp only
    rw [events_fractionDigits]
    rfl
  | cons y whole ih =>
    rw [List.map_cons, List.cons_append, MojNumber.events, lexChar, lexMagnitude,
      digitOf_digitByte]
    dsimp only
    rw [ih]
    rfl

theorem events_decimal (negative : Bool) {whole fraction : List (Fin 10)} (inFront : whole ≠ [])
    (behind : fraction ≠ []) :
    events .number ((if negative then [minus] else []) ++
        (whole.map digitByte ++ point :: fraction.map digitByte)) =
      .ok (Literal.events ⟨negative, whole, fraction, false, []⟩) := by
  obtain ⟨y, rest, rfl⟩ := List.exists_cons_of_ne_nil inFront
  obtain ⟨x, digits, rfl⟩ := List.exists_cons_of_ne_nil behind
  have read := events_pointed rest x digits
  have unsigned : ∀ state ∈ [LexState.number, .magnitude],
      events state ((y :: rest).map digitByte ++ point :: (x :: digits).map digitByte) =
        .ok ((y :: rest).map Event.digit ++ ((x :: digits).map Event.fractionDigit ++ [.finish])) := by
    intro state member
    rw [List.map_cons, List.cons_append, MojNumber.events, lexChar_digitByte y state member]
    dsimp only
    rw [read]
    rfl
  cases negative with
  | false => exact unsigned .number (by decide)
  | true =>
    have sign : lexChar .number minus = .ok (some .negative, .magnitude) := by decide
    rw [if_pos rfl, List.singleton_append, MojNumber.events, sign]
    dsimp only
    rw [unsigned .magnitude (by decide)]
    rfl

theorem push_passes {number : Nat} {x : Fin 10} {digits : List (Fin 10)}
    (small : natFrom number (x :: digits) ≤ int64Max) : (Check.push number).fails = false := by
  have grown := le_natFrom number (x :: digits)
  have tenfold : number * 10 ≤ number * 10 ^ (x :: digits).length :=
    Nat.mul_le_mul_left _ (Nat.le_self_pow (by simp) 10)
  have max : int64Max = 9223372036854775807 := rfl
  have most : bound = 1844674407370955160 := rfl
  have top : uint64Max = 18446744073709551615 := rfl
  simp [Check.fails, Check.wraps, Check.refused]
  omega

/-- Digits that spell a number within 64 bits are pushed without a check that fails. -/
theorem wholeChecks_pass {number zeros : Nat} {digits : List (Fin 10)}
    (small : natFrom number digits ≤ int64Max) (few : zeros + digits.length ≤ intMax) :
    (wholeChecks number zeros digits).find? Check.fails = none := by
  induction digits generalizing number zeros with
  | nil => rfl
  | cons x digits ih =>
    rw [List.length_cons] at few
    rw [wholeChecks]
    split
    · have passed : (Check.zeros (zeros + 1)).fails = false := by
        simp [Check.fails, Check.wraps, Check.refused]
        omega
      rw [List.find?_cons, passed]
      exact ih small (by omega)
    · rw [List.find?_cons, push_passes small]
      exact ih small (by omega)

theorem fractionChecks_pass {number count : Nat} {digits : List (Fin 10)}
    (small : natFrom number digits ≤ int64Max) (few : count + digits.length ≤ intMax) :
    (fractionChecks number count digits).find? Check.fails = none := by
  induction digits generalizing number count with
  | nil => rfl
  | cons x digits ih =>
    rw [List.length_cons] at few
    have passed : (Check.point (count + 1)).fails = false := by
      simp [Check.fails, Check.wraps, Check.refused]
      omega
    rw [fractionChecks, List.find?_cons, passed, List.find?_cons, push_passes small]
    exact ih small (by omega)

variable {literal : Literal}

/-- A literal without an exponent, within the range and with no more than six digits behind the point
loses none of them. -/
theorem assign_literal {str : ByteString} (accepted : events .number str = .ok literal.events)
    (plain : literal.exponent = []) (pointed : literal.fraction ≠ []) (places : literal.fraction.length ≤ 6)
    (long : literal.whole.length ≤ intMax)
    (small : literal.mantissa * 10 ^ (6 - literal.fraction.length) ≤ int64Max) :
    MojNumber.assign str = (false, .ok (signed literal.negative
      (literal.mantissa * 10 ^ (6 - literal.fraction.length)))) := by
  have held : literal.mantissa ≤ int64Max :=
    (Nat.le_mul_of_pos_right _ (Nat.pow_pos (by decide))).trans small
  have passes : literal.checks.find? Check.fails = none := by
    have front := le_natFrom (natFrom 0 literal.whole) literal.fraction
    have whole : natFrom 0 literal.whole ≤ literal.mantissa := by
      rw [mantissa, natFrom_append]
      exact (Nat.le_mul_of_pos_right _ (Nat.pow_pos (by decide))).trans front
    have behind : natFrom (natFrom 0 literal.whole) literal.fraction ≤ int64Max := by
      rwa [← natFrom_append]
    have max : intMax = 2147483647 := rfl
    rw [checks, plain, List.find?_append, List.find?_append,
      wholeChecks_pass (whole.trans held) (by omega), fractionChecks_pass behind (by omega)]
    rfl
  have shifted : literal.shift = -(literal.fraction.length : Int) := by
    rw [shift, MojNumber.pointed, if_neg pointed, Nat.zero_add]
  have aligned : literal.align = ((6 - literal.fraction.length : Nat) : Int) := by
    have plainValue : literal.exponentValue = 0 := by
      rw [exponentValue, plain]
      unfold signed
      split <;> rfl
    rw [align, shifted, plainValue]
    unfold MojNumber.precision
    omega
  have kept : literal.kept = literal.mantissa := by
    rw [Literal.kept, shifted, Int.toNat_eq_zero.mpr (by omega), pow_zero, Nat.div_one]
  have max : intMax = 2147483647 := rfl
  have rounds : literal.Rounds := {
    shiftFits := by
      rw [fitsInt_iff, shifted]
      unfold MojNumber.precision
      omega
    alignFits := by
      rw [fitsInt_iff, aligned]
      omega
    zero := by
      intro large
      unfold int64Pow10Max at large
      omega
    least := by
      rintro _ ⟨_, least⟩
      rw [kept, aligned, Int.toNat_natCast] at least
      omega
    dropped := by omega
    half := by omega }
  have whole : 0 ≤ literal.align := by omega
  rcases stage_literal literal with ⟨check, found, _⟩ | ⟨_, parser, told, ended⟩
  · rw [passes] at found
    cases found
  · have met := (meets_toDecimal ended).mpr rounds
    have assigned : MojNumber.assign str = parser.toDecimal := by
      rw [MojNumber.assign, parse_eq_tell Parser.visit accepted, told]
    have held : literal.kept * 10 ^ literal.align.toNat =
        literal.mantissa * 10 ^ (6 - literal.fraction.length) := by
      rw [kept, aligned, Int.toNat_natCast]
    rw [assigned]
    generalize parser.toDecimal = outcome at met ⊢
    rcases outcome with ⟨wraps, outcome⟩
    rcases met with ⟨clear, met⟩
    cases outcome with
    | ok rep =>
      have only := (ended.served_whole whole).mp met.1
      rw [held] at only
      rw [only]
      exact Prod.ext clear rfl
    | error err =>
      cases err with
      | valueOutOfRange =>
        have outside := (ended.outOfRange_whole whole).mp met
        rw [held] at outside
        exact absurd (Or.inl small) outside
      | _ => exact met.elim

end Decimals

namespace MojDecimal

theorem natFrom_tmpDigits (number : Nat) :
    Literal.natFrom 0 (tmpDigits number).reverse = number := by
  have zeros := natFrom_zeros 0 (precision + 1 - (digitsUp number).length)
  rw [Nat.zero_mul] at zeros
  rw [tmpDigits, List.reverse_append, List.reverse_replicate, natFrom_append, zeros,
    natFrom_digitsUp]

theorem length_tmpDigits (number : Nat) : precision + 1 ≤ (tmpDigits number).length ∧
    (tmpDigits number).length ≤ precision + 1 + (digitsUp number).length := by
  rw [tmpDigits, List.length_append, List.length_replicate]
  omega

theorem take_firstDigit {tmp : List (Fin 10)} (long : precision ≤ tmp.length) :
    tmp.take (firstDigit tmp) = List.replicate (firstDigit tmp) 0 := by
  apply List.eq_replicate_iff.mpr
  have within : firstDigit tmp ≤ tmp.length := by
    unfold firstDigit
    omega
  constructor
  · rw [List.length_take]
    omega
  · intro x member
    rcases List.mem_take_iff_getElem.mp member with ⟨index, before, rfl⟩
    have early : index < tmp.findIdx fun x => decide (x ≠ 0) := by
      unfold firstDigit at before
      omega
    have zero := List.not_of_lt_findIdx early
    simpa using zero

theorem natFrom_printed {tmp : List (Fin 10)} (long : precision ≤ tmp.length) :
    Literal.natFrom 0 ((tmp.drop precision).reverse ++
        ((tmp.take precision).drop (firstDigit tmp)).reverse) * 10 ^ firstDigit tmp =
      Literal.natFrom 0 tmp.reverse := by
  have few : firstDigit tmp ≤ precision := by
    unfold firstDigit
    omega
  have split : tmp = tmp.take (firstDigit tmp) ++
      ((tmp.take precision).drop (firstDigit tmp) ++ tmp.drop precision) := by
    have inner := List.take_append_drop (firstDigit tmp) (tmp.take precision)
    rw [List.take_take, Nat.min_eq_left few] at inner
    rw [← List.append_assoc, inner, List.take_append_drop]
  conv => rhs; rw [split]
  rw [List.reverse_append, List.reverse_append, take_firstDigit long, List.reverse_replicate,
    natFrom_append 0 (_ ++ _) (List.replicate _ _), natFrom_zeros]

theorem assign_stringValue (fault : NumberErr → MojErr) {rep : MojInt64}
    (absolute : rep ≠ BitVec.intMin 64) : assign fault (stringValue rep) = .ok rep := by
  have range : rep.toInt.natAbs ≤ int64Max := by
    have low := BitVec.le_toInt rep
    have high := BitVec.toInt_lt (x := rep)
    have more : rep.toInt ≠ -2 ^ 63 := by
      intro least
      exact absolute (BitVec.eq_of_toInt_eq least)
    have max : int64Max = 9223372036854775807 := rfl
    norm_num at low high more
    omega
  generalize shown : tmpDigits rep.toInt.natAbs = tmp
  have number := natFrom_tmpDigits rep.toInt.natAbs
  have lengths := length_tmpDigits rep.toInt.natAbs
  rw [shown] at number lengths
  have long : precision ≤ tmp.length := by omega
  let literal : Literal := ⟨decide (rep.toInt < 0), (tmp.drop precision).reverse,
    ((tmp.take precision).drop (firstDigit tmp)).reverse, false, []⟩
  have few : firstDigit tmp < precision := by
    unfold firstDigit precision
    omega
  have front : literal.whole.length = tmp.length - precision := by simp [literal]
  have places : literal.fraction.length = precision - firstDigit tmp := by
    simp [literal, long]
  have pointed : literal.fraction ≠ [] := by
    apply List.ne_nil_of_length_pos
    omega
  have accepted : events .number (stringValue rep) = .ok literal.events := by
    have inFront : literal.whole ≠ [] := by
      apply List.ne_nil_of_length_pos
      omega
    have read := events_decimal literal.negative inFront pointed
    simpa [stringValue, shown, literal] using read
  have spelt : literal.mantissa * 10 ^ (6 - literal.fraction.length) = rep.toInt.natAbs := by
    have cut : 6 - literal.fraction.length = firstDigit tmp := by
      unfold precision at places few
      omega
    rw [cut, ← number, ← natFrom_printed long]
    rfl
  have short : (digitsUp rep.toInt.natAbs).length ≤ 19 :=
    length_digitsUp (lt_of_le_of_lt range (by decide))
  have max : intMax = 2147483647 := rfl
  have six : precision = 6 := rfl
  have read := assign_literal accepted rfl pointed (by omega) (by omega) (by omega)
  rw [assign, read, spelt, signed_natAbs]
  exact congrArg Except.ok BitVec.ofInt_toInt

end MojDecimal

end Db8.Core
