import Db8.Core.NumberLexer
import Mathlib.Tactic.Linarith

/-!
# The number parser

`MojNumber::Parser`: the visitor that accumulates a literal, and the decimal made of what it holds.
The words of the code are numbers taken into their range, and every operation whose exact result is
beyond the range of its type is recorded. What a literal asks of the accumulators is a list of checks,
and the first one that fails decides how the parse ends.
-/

set_option autoImplicit false

namespace Db8.Core.MojNumber

def uint64Max : Nat := 18446744073709551615

def int64Max : Nat := 9223372036854775807

def intMax : Int := 2147483647

def bound : Nat := (uint64Max - 9) / 10

def exponentBound : Int := (intMax - 9) / 10

def int64Pow10Max : Int := 18

def precision : Int := 6

def fits64 (x : Nat) : Bool := decide (x ≤ uint64Max)

def wrap64 (x : Nat) : Nat := x % (uint64Max + 1)

def fitsInt (x : Int) : Bool := decide (-(intMax + 1) ≤ x ∧ x ≤ intMax)

def wrapInt (x : Int) : Int := x.bmod 4294967296

/-- One round of the loop of `npow`. -/
def npowBit (x exp : Nat) (y : Nat × Bool) (bit : Nat) : Nat × Bool :=
  let squared := y.1 * y.1
  let wraps := y.2 || !fits64 squared
  let product := wrap64 squared * x
  if exp.testBit bit then (wrap64 product, wraps || !fits64 product) else (wrap64 squared, wraps)

/-- `npow<uint64_t>`, and whether one of its products wraps. -/
def npow (x exp : Nat) : Nat × Bool := (List.range 31).reverse.foldl (npowBit x exp) (1, false)

/-- `wraps` is not in the code: an operation so far has had a result beyond the range of its type. -/
structure Parser where
  positive : Bool
  value : Nat
  valueExp : Int
  exponentPositive : Bool
  exponent : Int
  wraps : Bool
deriving DecidableEq

namespace Parser

def reset : Parser where
  positive := true
  value := 0
  valueExp := 0
  exponentPositive := true
  exponent := 0
  wraps := false

def realignValue (parser : Parser) : Parser :=
  if 0 < parser.valueExp then
    let power := npow 10 parser.valueExp.toNat
    let value := parser.value * power.1
    { parser with
      value := wrap64 value
      valueExp := 0
      wraps := parser.wraps || power.2 || !fits64 value }
  else parser

/-- Its assertion that `valueExp` is not positive holds behind `realignValue`. -/
def pushDigit (x : Fin 10) (parser : Parser) : Parser × Option NumberErr :=
  if bound < parser.value then (parser, some .valueOutOfRange)
  else
    let value := parser.value * 10 + x.val
    ({ parser with value := wrap64 value, wraps := parser.wraps || !fits64 value }, none)

def digit (x : Fin 10) (parser : Parser) : Parser × Option NumberErr :=
  if parser.value ≠ 0 ∧ x = 0 then
    if parser.valueExp = intMax then (parser, some .valueOutOfRange)
    else ({ parser with valueExp := parser.valueExp + 1 }, none)
  else parser.realignValue.pushDigit x

/-- `--valueExp`. -/
def decExp (parser : Parser) : Parser :=
  { parser with
    valueExp := wrapInt (parser.valueExp - 1)
    wraps := parser.wraps || !fitsInt (parser.valueExp - 1) }

def fractionDigit (x : Fin 10) (parser : Parser) : Parser × Option NumberErr :=
  parser.realignValue.decExp.pushDigit x

def exponentDigit (x : Fin 10) (parser : Parser) : Parser × Option NumberErr :=
  if parser.exponent = 0 ∧ x = 0 then (parser, none)
  else if exponentBound ≤ parser.exponent then (parser, some .valueOutOfRange)
  else
    let exponent := parser.exponent * 10 + x.val
    ({ parser with
      exponent := wrapInt exponent
      wraps := parser.wraps || !fitsInt exponent }, none)

def finish (parser : Parser) : Parser :=
  if parser.exponentPositive then parser
  else
    { parser with
      exponent := wrapInt (-parser.exponent)
      wraps := parser.wraps || !fitsInt (-parser.exponent) }

def visit (event : Event) (parser : Parser) : Parser × Option NumberErr :=
  match event with
  | .negative => ({ parser with positive := false }, none)
  | .digit x => parser.digit x
  | .fractionDigit x => parser.fractionDigit x
  | .negativeExponent => ({ parser with exponentPositive := false }, none)
  | .exponentDigit x => parser.exponentDigit x
  | .finish => (parser.finish, none)

/-- The `uint64_t` of `toDecimal` with its sign, as the `MojInt64` of a decimal. -/
def assignRep (positive : Bool) (rep : Nat) : Int :=
  Int.bmod (if positive then rep else -(rep : Int)) (uint64Max + 1)

/-- Division of a dropped part by ten, the last digit of which decides. -/
def roundLast (rep : Nat) : Nat := if 10 < rep % 10 * 2 then rep / 10 + 1 else rep / 10

/-- The branches of `toDecimal`: whether an operation wraps, and the representation of the decimal. -/
def alignedDecimal (alignExp : Int) (wraps : Bool) (parser : Parser) :
    Bool × Except NumberErr Int :=
  if alignExp < 0 then
    if alignExp < -1 then
      let dropped := wrapInt (-alignExp) - 1
      let wraps := wraps || !fitsInt (-alignExp) || !fitsInt dropped
      let power := npow 10 (wrapInt dropped).toNat
      if power.1 = 0 then (wraps || power.2, .error .divisionByZero)
      else
        (wraps || power.2,
          .ok (assignRep parser.positive (roundLast (parser.value / power.1))))
    else (wraps, .ok (assignRep parser.positive (roundLast parser.value)))
  else if int64Pow10Max < alignExp then (wraps, .error .valueOutOfRange)
  else
    let factor := npow 10 alignExp.toNat
    if int64Max / factor.1 < parser.value then (wraps || factor.2, .error .valueOutOfRange)
    else
      let rep := parser.value * factor.1
      (wraps || factor.2 || !fits64 rep, .ok (assignRep parser.positive (wrap64 rep)))

/-- `toDecimal`, with the sum of the exponents that it starts from. -/
def toDecimal (parser : Parser) : Bool × Except NumberErr Int :=
  let aligned := precision + parser.valueExp
  let sum := wrapInt aligned + parser.exponent
  parser.alignedDecimal (wrapInt sum) (parser.wraps || !fitsInt aligned || !fitsInt sum)

end Parser

/-- `MojDecimal::assign` of a string. -/
def assign (str : Db8.Bytes.ByteString) : Bool × Except NumberErr Int :=
  match parse Parser.visit .number str .reset with
  | (parser, some err) => (parser.wraps, .error err)
  | (parser, none) => parser.toDecimal

section Words

theorem fits64_iff {x : Nat} : fits64 x = true ↔ x ≤ uint64Max := decide_eq_true_iff

theorem wrap64_of_fits {x : Nat} (fits : x ≤ uint64Max) : wrap64 x = x :=
  Nat.mod_eq_of_lt (Nat.lt_succ_of_le fits)

theorem fitsInt_iff {x : Int} : fitsInt x = true ↔ -(intMax + 1) ≤ x ∧ x ≤ intMax :=
  decide_eq_true_iff

theorem wrapInt_of_fits {x : Int} (fits : -(intMax + 1) ≤ x ∧ x ≤ intMax) : wrapInt x = x := by
  unfold intMax at fits
  unfold wrapInt
  rw [Int.bmod_eq_of_le (by omega) (by omega)]

/-- Between two rounds of `npow` either nothing has wrapped or the power is too large already. -/
def Powered (x exp bit : Nat) (y : Nat × Bool) : Prop :=
  (y.2 = false ∧ y.1 = x ^ (exp / 2 ^ bit) ∧ y.1 ≤ uint64Max) ∨
    (y.2 = true ∧ uint64Max < x ^ (exp / 2 ^ bit))

theorem powered_npowBit {x exp bit : Nat} (positive : 0 < x) {y : Nat × Bool}
    (powered : Powered x exp (bit + 1) y) : Powered x exp bit (npowBit x exp y bit) := by
  have halved : exp / 2 ^ bit = 2 * (exp / 2 ^ (bit + 1)) + (if exp.testBit bit then 1 else 0) := by
    rw [Nat.pow_succ, ← Nat.div_div_eq_div_mul, Nat.testBit_eq_decide_div_mod_eq]
    have split := Nat.div_add_mod (exp / 2 ^ bit) 2
    by_cases odd : exp / 2 ^ bit % 2 = 1
    · simp only [odd, decide_true, if_true]
      omega
    · simp only [odd, decide_false, Bool.false_eq_true, if_false]
      omega
  have power : x ^ (exp / 2 ^ bit) =
      x ^ (exp / 2 ^ (bit + 1)) * x ^ (exp / 2 ^ (bit + 1)) *
        (if exp.testBit bit then x else 1) := by
    rw [halved, Nat.pow_add, Nat.two_mul, Nat.pow_add]
    split <;> simp
  have grows : ∀ number : Nat, number ≤ number * (if exp.testBit bit then x else 1) := by
    intro number
    apply Nat.le_mul_of_pos_right
    split
    · exact positive
    · exact Nat.one_pos
  unfold Powered npowBit
  rw [power]
  rcases powered with ⟨clear, same, fits⟩ | ⟨wrapped, beyond⟩
  · rw [← same]
    by_cases squares : y.1 * y.1 ≤ uint64Max
    · simp only [clear, fits64_iff.mpr squares, wrap64_of_fits squares, Bool.not_true, Bool.or_false,
        Bool.false_or]
      split
      · by_cases products : y.1 * y.1 * x ≤ uint64Max
        · simp [fits64_iff.mpr products, wrap64_of_fits products, products]
        · have unfit : fits64 (y.1 * y.1 * x) = false :=
            Bool.eq_false_of_not_eq_true fun fits => products (fits64_iff.mp fits)
          simp [unfit, Nat.lt_of_not_le products]
      · simp [squares]
    · have unfit : fits64 (y.1 * y.1) = false :=
        Bool.eq_false_of_not_eq_true fun fits => squares (fits64_iff.mp fits)
      have large := (Nat.lt_of_not_le squares).trans_le (grows (y.1 * y.1))
      right
      refine ⟨?_, large⟩
      split <;> simp [unfit]
  · right
    have squared : x ^ (exp / 2 ^ (bit + 1)) ≤
        x ^ (exp / 2 ^ (bit + 1)) * x ^ (exp / 2 ^ (bit + 1)) :=
      Nat.le_mul_of_pos_right _ (Nat.pow_pos positive)
    refine ⟨?_, beyond.trans_le (squared.trans (grows _))⟩
    split <;> simp [wrapped]

theorem powered_foldl {x exp : Nat} (positive : 0 < x) (bits : Nat) {y : Nat × Bool}
    (powered : Powered x exp bits y) :
    Powered x exp 0 ((List.range bits).reverse.foldl (npowBit x exp) y) := by
  induction bits generalizing y with
  | zero => exact powered
  | succ bits ih =>
    rw [List.range_succ, List.reverse_append, List.reverse_singleton, List.singleton_append,
      List.foldl_cons]
    exact ih (powered_npowBit positive powered)

theorem powered_npow {x exp : Nat} (positive : 0 < x) (small : exp < 2 ^ 31) :
    Powered x exp 0 (npow x exp) := by
  apply powered_foldl positive 31
  left
  rw [Nat.div_eq_of_lt small]
  exact ⟨rfl, rfl, by decide⟩

theorem npow_of_fits {x exp : Nat} (positive : 0 < x) (small : exp < 2 ^ 31)
    (fits : x ^ exp ≤ uint64Max) : npow x exp = (x ^ exp, false) := by
  rcases powered_npow positive small with ⟨clear, same, _⟩ | ⟨_, beyond⟩
  · rw [pow_zero, Nat.div_one] at same
    exact Prod.ext same clear
  · rw [pow_zero, Nat.div_one] at beyond
    omega

theorem npow_of_beyond {x exp : Nat} (positive : 0 < x) (small : exp < 2 ^ 31)
    (beyond : uint64Max < x ^ exp) : (npow x exp).2 = true := by
  rcases powered_npow positive small with ⟨_, same, fits⟩ | ⟨wrapped, _⟩
  · rw [pow_zero, Nat.div_one] at same
    omega
  · exact wrapped

end Words

end Db8.Core.MojNumber
