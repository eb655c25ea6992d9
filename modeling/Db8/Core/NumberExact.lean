import Db8.Core.NumberChecks
import Mathlib.Algebra.Order.Round
import Mathlib.Data.Rat.Floor
import Mathlib.Tactic.IntervalCases
import Mathlib.Tactic.FieldSimp
import Mathlib.Tactic.Positivity

/-!
# Which literals become their nearest decimal

A decimal counts millionths in 64 bits. A literal is served as it should be when no operation wraps or
divides by zero and the result is a nearest count, or an error where a nearest count does not fit. The
literals that are served so are described by their digits.
-/

set_option autoImplicit false

namespace Db8.Core.MojNumber

def Nearest (rep : Int) (exact : ℚ) : Prop := ∀ other : Int, |(rep : ℚ) - exact| ≤ |(other : ℚ) - exact|

def InRange (rep : Int) : Prop := -((int64Max : Int) + 1) ≤ rep ∧ rep ≤ int64Max

def Served (exact : ℚ) (rep : Int) : Prop := Nearest rep (exact * 10 ^ 6)

def OutOfRange (exact : ℚ) : Prop := ∃ rep, Served exact rep ∧ ¬ InRange rep

def Meets (outcome : Bool × Except NumberErr Int) (exact : ℚ) : Prop :=
  outcome.1 = false ∧
    match outcome.2 with
    | .ok rep => Served exact rep ∧ InRange rep
    | .error .valueOutOfRange => OutOfRange exact
    | .error _ => False

namespace Literal

/-- The digits that are held, without the zeros in front of the point that are put off. -/
def kept (literal : Literal) : Nat := literal.mantissa / 10 ^ literal.shift.toNat

def align (literal : Literal) : Int := precision + literal.shift + literal.exponentValue

/-- The first digit that is dropped is a five, and one that is dropped behind it is not zero. -/
def HalfLost (literal : Literal) (dropped : Nat) : Prop :=
  5 * 10 ^ (dropped - 1) < literal.kept % 10 ^ dropped ∧
    literal.kept % 10 ^ dropped < 6 * 10 ^ (dropped - 1)

/-- The digits are held without a check that fails, and what is made of them is exact or rounds well. -/
structure Rounds (literal : Literal) : Prop where
  shiftFits : fitsInt (precision + literal.shift) = true
  alignFits : fitsInt literal.align = true
  zero : int64Pow10Max < literal.align → literal.mantissa ≠ 0
  least : 0 ≤ literal.align →
    ¬ (literal.negative = true ∧ literal.kept * 10 ^ literal.align.toNat = int64Max + 1)
  dropped : -20 ≤ literal.align
  half : literal.align < 0 → ¬ literal.HalfLost (-literal.align).toNat

/-- The first check that fails is a guard and the number is out of range, or none fails. -/
def Plain (literal : Literal) : Prop :=
  match literal.checks.find? Check.fails with
  | some check => check.wraps = false ∧ OutOfRange literal.value
  | none => literal.Rounds

end Literal

section Nearest

variable {rep : Int} {exact : ℚ}

theorem nearest_iff : Nearest rep exact ↔ |(rep : ℚ) - exact| ≤ 1 / 2 := by
  constructor
  · intro nearest
    refine (nearest (round exact)).trans ?_
    rw [abs_sub_comm]
    exact abs_sub_round exact
  · intro near other
    by_cases same : other = rep
    · rw [same]
    · have apart : (1 : ℚ) ≤ |(other : ℚ) - rep| := by
        exact_mod_cast Int.one_le_abs (sub_ne_zero.mpr same)
      have triangle := abs_sub_le (other : ℚ) exact rep
      rw [abs_sub_comm exact] at triangle
      linarith

theorem nearest_neg : Nearest (-rep) (-exact) ↔ Nearest rep exact := by
  rw [nearest_iff, nearest_iff, ← abs_neg]
  push_cast
  rw [show -(-(rep : ℚ) - -exact) = rep - exact by ring]

theorem nearest_whole {whole : Int} : Nearest rep (whole : ℚ) ↔ rep = whole := by
  rw [nearest_iff]
  constructor
  · intro near
    by_contra different
    have apart : (1 : ℚ) ≤ |(rep : ℚ) - whole| := by
      exact_mod_cast Int.one_le_abs (sub_ne_zero.mpr different)
    linarith
  · rintro rfl
    rw [sub_self, abs_zero]
    norm_num

theorem nearest_div {number parts : Nat} (positive : 0 < parts) (rep : Nat) :
    Nearest rep ((number : ℚ) / parts) ↔
      2 * (rep * parts) ≤ 2 * number + parts ∧ 2 * number ≤ 2 * (rep * parts) + parts := by
  have real : (0 : ℚ) < parts := by exact_mod_cast positive
  have scaled : (rep : ℚ) - number / parts = (rep * parts - number) / parts := by
    field_simp
  rw [nearest_iff, Int.cast_natCast, scaled, abs_div, abs_of_pos real, div_le_iff₀ real, abs_le]
  constructor
  · rintro ⟨low, high⟩
    constructor
    · have cast : (2 * (rep * parts) : ℚ) ≤ 2 * number + parts := by linarith
      exact_mod_cast cast
    · have cast : (2 * number : ℚ) ≤ 2 * (rep * parts) + parts := by linarith
      exact_mod_cast cast
  · rintro ⟨high, low⟩
    have highCast : (2 * (rep * parts) : ℚ) ≤ 2 * number + parts := by exact_mod_cast high
    have lowCast : (2 * number : ℚ) ≤ 2 * (rep * parts) + parts := by exact_mod_cast low
    constructor <;> linarith

end Nearest

/-- Rounding by the first digit that is dropped is right but for a half that is more than one. -/
theorem nearest_roundLast (number dropped : Nat) :
    Nearest (Parser.roundLast (number / 10 ^ dropped) : Nat)
        ((number : ℚ) / (10 ^ (dropped + 1) : Nat)) ↔
      ¬ (5 * 10 ^ dropped < number % 10 ^ (dropped + 1) ∧
        number % 10 ^ (dropped + 1) < 6 * 10 ^ dropped) := by
  have positive : 0 < 10 ^ dropped := Nat.pow_pos (by decide)
  rw [nearest_div (Nat.pow_pos (by decide)), Nat.pow_succ, Nat.mod_mul]
  generalize 10 ^ dropped = part at positive ⊢
  have divided := Nat.div_add_mod number part
  have low := Nat.mod_lt number positive
  have high := Nat.div_add_mod (number / part) 10
  have digit := Nat.mod_lt (number / part) (by decide : 0 < 10)
  unfold Parser.roundLast
  generalize number % part = rest at divided low ⊢
  generalize number / part % 10 = lead at high digit ⊢
  generalize number / part / 10 = whole at high ⊢
  have split : part * (number / part) = 10 * (part * whole) + part * lead := by
    rw [← high]
    ring
  have below : whole * (part * 10) = 10 * (part * whole) := by ring
  have above : (whole + 1) * (part * 10) = 10 * (part * whole) + part * 10 := by ring
  generalize part * whole = base at split below above
  interval_cases lead <;> simp only [Nat.reduceMul, Nat.reduceLT, if_true, if_false, below, above] <;>
    omega

section ToDecimal

variable {literal : Literal} {parser : Parser}

theorem Ended.value_eq (ended : Ended literal parser) : parser.value = literal.kept := by
  unfold Literal.kept
  rw [← ended.spells]
  exact (Nat.mul_div_cancel _ (Nat.pow_pos (by decide))).symm

theorem Ended.scaled (ended : Ended literal parser) :
    literal.value * 10 ^ 6 =
      (Literal.signed literal.negative literal.kept : ℚ) * (10 : ℚ) ^ literal.align := by
  have ten : (10 : ℚ) ≠ 0 := by norm_num
  have held : (literal.mantissa : ℚ) * (10 : ℚ) ^ (-(literal.fraction.length : Int)) =
      literal.kept * (10 : ℚ) ^ literal.shift := by
    rw [← ended.spells, ended.value_eq]
    unfold Literal.shift pointed
    by_cases whole : literal.fraction = []
    · rw [if_pos whole, whole, Int.toNat_natCast]
      simp
    · rw [if_neg whole, Int.toNat_eq_zero.mpr (by omega)]
      simp
  have sized : ∀ number : Nat, ((Literal.signed literal.negative number : Int) : ℚ) =
      (if literal.negative then -1 else 1) * (number : ℚ) := by
    intro number
    unfold Literal.signed
    split <;> simp
  rw [Literal.value, Literal.align, sized, sized, sub_eq_add_neg, zpow_add₀ ten, zpow_add₀ ten,
    zpow_add₀ ten]
  have million : (10 : ℚ) ^ precision = 10 ^ 6 := by
    unfold precision
    norm_num
  rw [million]
  calc _ = (if literal.negative = true then (-1 : ℚ) else 1) * (10 : ℚ) ^ literal.exponentValue *
        10 ^ 6 * (literal.mantissa * (10 : ℚ) ^ (-(literal.fraction.length : Int))) := by ring
    _ = _ := by
      rw [held]
      ring

theorem alignedDecimal_wraps (alignExp : Int) (parser : Parser) :
    (parser.alignedDecimal alignExp true).1 = true := by
  unfold Parser.alignedDecimal
  simp only [Bool.true_or]
  split
  · split
    · split <;> rfl
    · rfl
  · split
    · rfl
    · split <;> rfl

theorem toDecimal_wraps (wrapped : parser.wraps = true) : parser.toDecimal.1 = true := by
  unfold Parser.toDecimal
  simp only [wrapped, Bool.true_or]
  exact alignedDecimal_wraps _ parser

theorem Ended.toDecimal_eq (ended : Ended literal parser)
    (sums : fitsInt (precision + literal.shift) = true) (aligns : fitsInt literal.align = true) :
    parser.toDecimal = parser.alignedDecimal literal.align false := by
  unfold Parser.toDecimal
  dsimp only
  rw [ended.shifted, wrapInt_of_fits (fitsInt_iff.mp sums), ended.exponent, ended.clear, sums]
  change parser.alignedDecimal (wrapInt literal.align) (false || !true || !fitsInt literal.align) = _
  rw [wrapInt_of_fits (fitsInt_iff.mp aligns), aligns]
  rfl

theorem not_meets_of_wraps {outcome : Bool × Except NumberErr Int} {exact : ℚ}
    (wrapped : outcome.1 = true) : ¬ Meets outcome exact := by
  rintro ⟨clear, _⟩
  rw [wrapped] at clear
  cases clear

theorem assignRep_signed {rep : Nat} (negative : Bool) (small : rep ≤ int64Max) :
    Parser.assignRep (!negative) rep = Literal.signed negative rep := by
  have max : int64Max = 9223372036854775807 := rfl
  have top : uint64Max = 18446744073709551615 := rfl
  unfold Parser.assignRep Literal.signed
  cases negative
  · exact Int.bmod_eq_of_le (by push_cast; omega) (by push_cast; omega)
  · exact Int.bmod_eq_of_le (by push_cast; omega) (by push_cast; omega)

theorem inRange_signed {rep : Nat} (negative : Bool) (small : rep ≤ int64Max) :
    InRange (Literal.signed negative rep) := by
  have max : int64Max = 9223372036854775807 := rfl
  unfold InRange Literal.signed
  split <;> omega

theorem nearest_signed (negative : Bool) (rep number : Nat) (scale : ℚ) :
    Nearest (Literal.signed negative rep) ((Literal.signed negative number : Int) * scale) ↔
      Nearest rep ((number : ℚ) * scale) := by
  unfold Literal.signed
  cases negative
  · exact Iff.rfl
  · simp only [if_true, Int.cast_neg, neg_mul]
    exact nearest_neg

theorem inRange_signed_iff {negative : Bool} {number : Nat} :
    InRange (Literal.signed negative number) ↔
      number ≤ int64Max ∨ negative = true ∧ number = int64Max + 1 := by
  have max : int64Max = 9223372036854775807 := rfl
  unfold InRange Literal.signed
  cases negative
  · simp
    omega
  · simp
    omega

theorem Ended.served_whole (ended : Ended literal parser) (whole : 0 ≤ literal.align) {rep : Int} :
    Served literal.value rep ↔
      rep = Literal.signed literal.negative (literal.kept * 10 ^ literal.align.toNat) := by
  have scaled : literal.value * 10 ^ 6 =
      ((Literal.signed literal.negative (literal.kept * 10 ^ literal.align.toNat) : Int) : ℚ) := by
    rw [ended.scaled]
    obtain ⟨power, same⟩ := Int.eq_ofNat_of_zero_le whole
    rw [same, Int.toNat_natCast, zpow_natCast]
    unfold Literal.signed
    split <;> push_cast <;> ring
  rw [Served, scaled, nearest_whole]

theorem Ended.outOfRange_whole (ended : Ended literal parser) (whole : 0 ≤ literal.align) :
    OutOfRange literal.value ↔
      ¬ (literal.kept * 10 ^ literal.align.toNat ≤ int64Max ∨ literal.negative = true ∧
        literal.kept * 10 ^ literal.align.toNat = int64Max + 1) := by
  rw [← inRange_signed_iff]
  constructor
  · rintro ⟨rep, served, beyond⟩
    rwa [(ended.served_whole whole).mp served] at beyond
  · intro beyond
    exact ⟨_, (ended.served_whole whole).mpr rfl, beyond⟩

theorem meets_exact (ended : Ended literal parser)
    (sums : fitsInt (precision + literal.shift) = true) (aligns : fitsInt literal.align = true)
    (whole : 0 ≤ literal.align) :
    Meets parser.toDecimal literal.value ↔
      (int64Pow10Max < literal.align → literal.mantissa ≠ 0) ∧
        ¬ (literal.negative = true ∧
          literal.kept * 10 ^ literal.align.toNat = int64Max + 1) := by
  have max : int64Max = 9223372036854775807 := rfl
  rw [ended.toDecimal_eq sums aligns, Parser.alignedDecimal, if_neg (not_lt.mpr whole)]
  have errs : Meets (false, .error .valueOutOfRange) literal.value ↔ OutOfRange literal.value :=
    ⟨And.right, fun outside => ⟨rfl, outside⟩⟩
  by_cases large : int64Pow10Max < literal.align
  · rw [if_pos large, errs, ended.outOfRange_whole whole]
    have power : 10 ^ 19 ≤ 10 ^ literal.align.toNat := by
      apply Nat.pow_le_pow_right (by decide)
      unfold int64Pow10Max at large
      omega
    have digits : literal.mantissa = 0 ↔ literal.kept = 0 := by
      rw [← ended.spells, ended.value_eq, Nat.mul_eq_zero]
      exact or_iff_left (Nat.pow_pos (by decide)).ne'
    by_cases zero : literal.kept = 0
    · have spelt := digits.mpr zero
      simp [zero, spelt, large]
    · have grows : 10 ^ literal.align.toNat ≤ literal.kept * 10 ^ literal.align.toNat :=
        Nat.le_mul_of_pos_left _ (Nat.pos_of_ne_zero zero)
      have beyond : ¬ literal.kept * 10 ^ literal.align.toNat ≤ int64Max := by omega
      have more : literal.kept * 10 ^ literal.align.toNat ≠ int64Max + 1 := by omega
      simp [beyond, more, mt digits.mp zero]
  · rw [if_neg large]
    have most : literal.align.toNat ≤ 18 := by
      unfold int64Pow10Max at large
      omega
    have fits : 10 ^ literal.align.toNat ≤ uint64Max :=
      (Nat.pow_le_pow_right (by decide) most).trans (by decide)
    have positive : 0 < 10 ^ literal.align.toNat := Nat.pow_pos (by decide)
    rw [npow_of_fits (by decide) (by omega) fits, ended.value_eq]
    dsimp only
    by_cases beyond : int64Max / 10 ^ literal.align.toNat < literal.kept
    · rw [if_pos beyond]
      refine errs.trans ?_
      rw [ended.outOfRange_whole whole]
      have product := (Nat.div_lt_iff_lt_mul positive).mp beyond
      simp [not_le.mpr product, large]
    · rw [if_neg beyond]
      have product : literal.kept * 10 ^ literal.align.toNat ≤ int64Max :=
        (Nat.le_div_iff_mul_le positive).mp (not_lt.mp beyond)
      have word : literal.kept * 10 ^ literal.align.toNat ≤ uint64Max := product.trans (by decide)
      rw [wrap64_of_fits word, fits64_iff.mpr word, ended.sign,
        assignRep_signed literal.negative product]
      apply iff_of_true
      · exact ⟨rfl, (ended.served_whole whole).mpr rfl, inRange_signed literal.negative product⟩
      · refine ⟨fun more => absurd more large, ?_⟩
        rintro ⟨_, least⟩
        omega

theorem alignedDecimal_drops (few : -20 ≤ literal.align) (drops : literal.align < 0) :
    parser.alignedDecimal literal.align false =
      (false, .ok (Parser.assignRep parser.positive
        (Parser.roundLast (parser.value / 10 ^ ((-literal.align).toNat - 1))))) := by
  rw [Parser.alignedDecimal, if_pos drops]
  by_cases more : literal.align < -1
  · have fits : -(intMax + 1) ≤ -literal.align ∧ -literal.align ≤ intMax := by
      unfold intMax
      omega
    have fitsLess : -(intMax + 1) ≤ -literal.align - 1 ∧ -literal.align - 1 ≤ intMax := by
      unfold intMax
      omega
    have count : (-literal.align - 1).toNat = (-literal.align).toNat - 1 := by omega
    have power : 10 ^ ((-literal.align).toNat - 1) ≤ uint64Max := by
      have most : (-literal.align).toNat - 1 ≤ 19 := by omega
      exact (Nat.pow_le_pow_right (by decide) most).trans (by decide)
    have positive : 10 ^ ((-literal.align).toNat - 1) ≠ 0 := (Nat.pow_pos (by decide)).ne'
    rw [if_pos more, wrapInt_of_fits fits]
    dsimp only
    rw [wrapInt_of_fits fitsLess, fitsInt_iff.mpr fits, fitsInt_iff.mpr fitsLess, count, npow_of_fits (by decide) (by omega) power, if_neg positive]
    rfl
  · have single : (-literal.align).toNat - 1 = 0 := by omega
    rw [if_neg more, single, pow_zero, Nat.div_one]

/-- With more than twenty digits to drop the power wraps that they are divided by. -/
theorem alignedDecimal_far (far : literal.align < -20) (aligns : fitsInt literal.align = true) :
    (parser.alignedDecimal literal.align false).1 = true := by
  have low := (fitsInt_iff.mp aligns).1
  rw [Parser.alignedDecimal, if_pos (by omega), if_pos (by omega)]
  dsimp only
  by_cases least : fitsInt (-literal.align) = true
  · have fits := fitsInt_iff.mp least
    have fitsLess : -(intMax + 1) ≤ -literal.align - 1 ∧ -literal.align - 1 ≤ intMax := by
      unfold intMax at fits ⊢
      omega
    have small : (-literal.align - 1).toNat < 2 ^ 31 := by
      unfold intMax at fits
      omega
    have beyond : uint64Max < 10 ^ (-literal.align - 1).toNat := by
      have most : 20 ≤ (-literal.align - 1).toNat := by omega
      exact lt_of_lt_of_le (by decide) (Nat.pow_le_pow_right (by decide) most)
    rw [wrapInt_of_fits fits, wrapInt_of_fits fitsLess, npow_of_beyond (by decide) small beyond]
    split <;> exact Bool.or_true _
  · rw [Bool.eq_false_of_not_eq_true least]
    split <;> simp

theorem meets_rounded (ended : Ended literal parser)
    (sums : fitsInt (precision + literal.shift) = true) (aligns : fitsInt literal.align = true)
    (drops : literal.align < 0) :
    Meets parser.toDecimal literal.value ↔
      -20 ≤ literal.align ∧ ¬ literal.HalfLost (-literal.align).toNat := by
  rw [ended.toDecimal_eq sums aligns]
  by_cases few : -20 ≤ literal.align
  · obtain ⟨dropped, count⟩ : ∃ dropped, (-literal.align).toNat = dropped + 1 :=
      ⟨(-literal.align).toNat - 1, by omega⟩
    have small : Parser.roundLast (literal.kept / 10 ^ dropped) ≤ int64Max := by
      have word := Nat.div_le_self literal.kept (10 ^ dropped)
      have within := ended.value_eq ▸ ended.within
      have max : int64Max = 9223372036854775807 := rfl
      have top : uint64Max = 18446744073709551615 := rfl
      unfold Parser.roundLast
      split <;> omega
    have power : (10 : ℚ) ^ literal.align = ((10 ^ (dropped + 1) : Nat) : ℚ)⁻¹ := by
      rw [show literal.align = -((dropped + 1 : Nat) : Int) by omega, zpow_neg, zpow_natCast]
      push_cast
      rfl
    rw [alignedDecimal_drops few drops, count, Nat.add_sub_cancel, ended.value_eq, ended.sign,
      assignRep_signed literal.negative small]
    have served : Served literal.value
        (Literal.signed literal.negative (Parser.roundLast (literal.kept / 10 ^ dropped))) ↔
          ¬ literal.HalfLost (dropped + 1) := by
      rw [Served, ended.scaled, nearest_signed, power, ← div_eq_mul_inv, Literal.HalfLost,
        Nat.add_sub_cancel]
      exact nearest_roundLast literal.kept dropped
    rw [← served]
    constructor
    · rintro ⟨_, near, _⟩
      exact ⟨few, near⟩
    · rintro ⟨_, near⟩
      exact ⟨rfl, near, inRange_signed literal.negative small⟩
  · exact iff_of_false (not_meets_of_wraps (alignedDecimal_far (not_le.mp few) aligns))
      fun both => few both.1

end ToDecimal

/-- With the digits held exactly, the sums of the exponents and the digits to drop decide. -/
theorem meets_toDecimal {literal : Literal} {parser : Parser} (ended : Ended literal parser) :
    Meets parser.toDecimal literal.value ↔ literal.Rounds := by
  by_cases sums : fitsInt (precision + literal.shift) = true
  · by_cases aligns : fitsInt literal.align = true
    · by_cases drops : literal.align < 0
      · rw [meets_rounded ended sums aligns drops]
        constructor
        · rintro ⟨few, half⟩
          refine ⟨sums, aligns, ?_, fun whole => absurd drops (not_lt.mpr whole), few, fun _ => half⟩
          intro large
          unfold int64Pow10Max at large
          omega
        · exact fun rounds => ⟨rounds.dropped, rounds.half drops⟩
      · have whole := not_lt.mp drops
        rw [meets_exact ended sums aligns whole]
        constructor
        · rintro ⟨zero, least⟩
          exact ⟨sums, aligns, zero, fun _ => least, by omega, fun below => absurd below drops⟩
        · exact fun rounds => ⟨rounds.zero, rounds.least whole⟩
    · apply iff_of_false _ fun rounds => aligns rounds.alignFits
      apply not_meets_of_wraps
      have sum : fitsInt (wrapInt (precision + parser.valueExp) + parser.exponent) = false := by
        rw [ended.shifted, wrapInt_of_fits (fitsInt_iff.mp sums), ended.exponent]
        exact Bool.eq_false_of_not_eq_true aligns
      rw [Parser.toDecimal, sum, Bool.not_false, Bool.or_true]
      exact alignedDecimal_wraps _ parser
  · apply iff_of_false _ fun rounds => sums rounds.shiftFits
    apply not_meets_of_wraps
    rw [Parser.toDecimal, ended.shifted, Bool.eq_false_of_not_eq_true sums, Bool.not_false, Bool.or_true,
      Bool.true_or]
    exact alignedDecimal_wraps _ parser

/-- A literal becomes what it should, with no operation that wraps or divides by zero, if and only if
it is plain. -/
theorem assign_meets_iff {str : Db8.Bytes.ByteString} {literal : Literal}
    (accepted : events .number str = .ok literal.events) :
    Meets (assign str) literal.value ↔ literal.Plain := by
  unfold assign Literal.Plain
  rw [parse_eq_tell Parser.visit accepted]
  rcases stage_literal literal with ⟨check, found, failed⟩ | ⟨passed, parser, told, ended⟩
  · rw [found]
    rcases told : tell Parser.visit literal.events .reset with ⟨parser, err⟩
    rw [told] at failed
    unfold Failed at failed
    by_cases wraps : check.wraps = true
    · rw [if_pos wraps] at failed
      apply iff_of_false
      · apply not_meets_of_wraps
        cases err with
        | none => exact toDecimal_wraps failed
        | some err => exact failed
      · rintro ⟨clear, _⟩
        rw [wraps] at clear
        cases clear
    · rw [if_neg wraps] at failed
      rcases failed with ⟨rfl, clear⟩
      constructor
      · rintro ⟨_, outside⟩
        exact ⟨Bool.eq_false_of_not_eq_true wraps, outside⟩
      · rintro ⟨_, outside⟩
        exact ⟨clear, outside⟩
  · rw [passed, told]
    exact meets_toDecimal ended

/-- The bytes of `-3.14e1`. -/
def sampleText : Db8.Bytes.ByteString := [45, 51, 46, 49, 52, 101, 49]

def sampleLiteral : Literal := ⟨true, [3], [1, 4], false, [1]⟩

theorem assign_meets_of_sample : Meets (assign sampleText) sampleLiteral.value := by
  apply (assign_meets_iff (show events .number sampleText = .ok sampleLiteral.events by
    decide +kernel)).mpr
  have passed : sampleLiteral.checks.find? Check.fails = none := by decide +kernel
  unfold Literal.Plain
  rw [passed]
  refine ⟨by decide +kernel, by decide +kernel, ?_, ?_, by decide +kernel, ?_⟩
  · intro _
    decide +kernel
  · rintro _ ⟨_, least⟩
    revert least
    decide +kernel
  · intro below
    exact absurd below (by decide +kernel)

/-- The bytes of `1e-100`. -/
def tinyText : Db8.Bytes.ByteString := [49, 101, 45, 49, 48, 48]

def tinyLiteral : Literal := ⟨false, [1], [], true, [1, 0, 0]⟩

/-- The power that the digits are divided by wraps around to zero. -/
theorem assign_divides_by_zero :
    ¬ ∀ (str : Db8.Bytes.ByteString) (literal : Literal),
      events .number str = .ok literal.events → Meets (assign str) literal.value := by
  intro meets
  have met := (meets tinyText tinyLiteral (by decide +kernel)).2
  have divided : (assign tinyText).2 = .error .divisionByZero := by decide +kernel
  rw [divided] at met
  exact met

end Db8.Core.MojNumber
