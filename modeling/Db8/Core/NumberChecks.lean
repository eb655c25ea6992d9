import Db8.Core.NumberParser

/-!
# What a literal asks of the accumulators

Every digit that is pushed asks for a shift of what was read before it, every zero that is put off for a
count, and every digit of the exponent for a shift of the exponent. Up to the first of these checks that
fails the accumulators hold exactly what the literal spells.
-/

set_option autoImplicit false

namespace Db8.Core.MojNumber

inductive Check
  | zeros (count : Nat)
  | push (number : Nat)
  | point (count : Nat)
  | exponent (number : Nat)
deriving DecidableEq

namespace Check

/-- What is asked goes beyond the range of a type, and the code goes on. -/
def wraps : Check → Bool
  | .push number => decide (uint64Max < number)
  | .point count => decide (intMax + 1 < count)
  | _ => false

def refused : Check → Bool
  | .zeros count => decide (intMax < count)
  | .push number => decide (bound < number)
  | .point _ => false
  | .exponent number => decide (exponentBound ≤ number)

def fails (check : Check) : Bool := check.wraps || check.refused

end Check

namespace Literal

/-- The checks of the digits in front of the point, behind a number and the zeros it ends in. -/
def wholeChecks : Nat → Nat → List (Fin 10) → List Check
  | _, _, [] => []
  | number, zeros, x :: digits =>
    if number ≠ 0 ∧ x = 0 then
      .zeros (zeros + 1) :: wholeChecks (number * 10 + x.val) (zeros + 1) digits
    else .push number :: wholeChecks (number * 10 + x.val) 0 digits

def fractionChecks : Nat → Nat → List (Fin 10) → List Check
  | _, _, [] => []
  | number, count, x :: digits =>
    .point (count + 1) :: .push number ::
      fractionChecks (number * 10 + x.val) (count + 1) digits

def exponentChecks : Nat → List (Fin 10) → List Check
  | _, [] => []
  | number, x :: digits =>
    if number = 0 ∧ x = 0 then exponentChecks (number * 10 + x.val) digits
    else .exponent number :: exponentChecks (number * 10 + x.val) digits

def checks (literal : Literal) : List Check :=
  wholeChecks 0 0 literal.whole ++
    (fractionChecks (natFrom 0 literal.whole) 0 literal.fraction ++
      exponentChecks 0 literal.exponent)

def zerosFrom : Nat → Nat → List (Fin 10) → Nat
  | _, zeros, [] => zeros
  | number, zeros, x :: digits =>
    if number ≠ 0 ∧ x = 0 then zerosFrom (number * 10 + x.val) (zeros + 1) digits
    else zerosFrom (number * 10 + x.val) 0 digits

end Literal

/-- The first check that fails has decided: an operation has wrapped, or a guard has spoken and none
has wrapped before. -/
def Failed (check : Check) (outcome : Parser × Option NumberErr) : Prop :=
  if check.wraps then outcome.1.wraps = true
  else outcome.2 = some .valueOutOfRange ∧ outcome.1.wraps = false

/-- How some calls end that ask for some checks. -/
def Stage (checks : List Check) (outcome : Parser × Option NumberErr) (holds : Parser → Prop) :
    Prop :=
  (∃ check, checks.find? Check.fails = some check ∧ Failed check outcome) ∨
    (checks.find? Check.fails = none ∧ ∃ parser, outcome = (parser, none) ∧ holds parser)

section Stages

open MojNumber.Parser

variable {parser : Parser}

theorem pushDigit_wraps (x : Fin 10) (wrapped : parser.wraps = true) :
    (parser.pushDigit x).1.wraps = true := by
  unfold pushDigit
  split
  · exact wrapped
  · simp [wrapped]

theorem visit_wraps (event : Event) (wrapped : parser.wraps = true) :
    (visit event parser).1.wraps = true := by
  have realigned : parser.realignValue.wraps = true := by
    unfold realignValue
    split
    · simp [wrapped]
    · exact wrapped
  cases event with
  | negative => exact wrapped
  | digit x =>
    rw [visit, digit]
    split
    · split <;> exact wrapped
    · exact pushDigit_wraps x realigned
  | fractionDigit x =>
    rw [visit, fractionDigit]
    apply pushDigit_wraps x
    simp [decExp, realigned]
  | negativeExponent => exact wrapped
  | exponentDigit x =>
    rw [visit, exponentDigit]
    split
    · exact wrapped
    · split
      · exact wrapped
      · simp [wrapped]
  | finish =>
    rw [visit, finish]
    split
    · exact wrapped
    · simp [wrapped]

theorem tell_wraps (events : List Event) (wrapped : parser.wraps = true) :
    (tell visit events parser).1.wraps = true := by
  induction events generalizing parser with
  | nil => exact wrapped
  | cons event events ih =>
    have next := visit_wraps event wrapped
    rw [tell]
    split
    · rename_i stopped
      rwa [stopped] at next
    · rename_i goesOn
      rw [goesOn] at next
      exact ih next

theorem Stage.append {checks further : List Check} {events rest : List Event}
    {holds later : Parser → Prop} (first : Stage checks (tell visit events parser) holds)
    (second : ∀ next, holds next → Stage further (tell visit rest next) later) :
    Stage (checks ++ further) (tell visit (events ++ rest) parser) later := by
  rcases first with ⟨check, found, failed⟩ | ⟨passed, next, told, held⟩
  · left
    refine ⟨check, by rw [List.find?_append, found, Option.some_or], ?_⟩
    unfold Failed at failed ⊢
    split at failed
    · rename_i wraps
      rw [if_pos wraps, tell_append]
      split
      · rename_i stopped
        rwa [stopped] at failed
      · rename_i goesOn
        rw [goesOn] at failed
        exact tell_wraps rest failed
    · rename_i clear
      rcases told : tell visit events parser with ⟨next, err⟩
      rw [told] at failed
      rcases failed with ⟨rfl, unwrapped⟩
      rw [if_neg clear, tell_append_err told]
      exact ⟨rfl, unwrapped⟩
  · rw [tell_append_ok told]
    rcases second next held with ⟨check, found, failed⟩ | ⟨passes, last, ended, reached⟩
    · exact Or.inl ⟨check, by rw [List.find?_append, passed, Option.none_or, found], failed⟩
    · exact Or.inr ⟨by rw [List.find?_append, passed, Option.none_or, passes], last, ended, reached⟩

theorem tell_single (event : Event) (parser : Parser) :
    tell visit [event] parser = visit event parser := by
  rw [tell]
  rcases visit event parser with ⟨next, _ | err⟩ <;> rfl

end Stages

section Digits

open MojNumber.Parser Literal

variable {positive : Bool} {parser : Parser}

/-- The accumulators hold a number: the value without zeros that are put off, or with digits behind
the point. -/
structure Holding (positive : Bool) (parser : Parser) (number : Nat) (valueExp : Int) : Prop where
  spells : parser.value * 10 ^ valueExp.toNat = number
  shifted : parser.valueExp = valueExp
  nonzero : 0 < valueExp → parser.value ≠ 0
  small : valueExp ≤ intMax
  within : parser.value ≤ uint64Max
  clear : parser.wraps = false
  sign : parser.positive = positive
  unscaled : parser.exponentPositive = true ∧ parser.exponent = 0

variable {valueExp : Int} {number : Nat}

theorem Holding.zero_iff
    (holding : Holding positive parser number valueExp) : parser.value = 0 ↔ number = 0 := by
  rw [← holding.spells, Nat.mul_eq_zero]
  constructor
  · exact Or.inl
  · exact fun zero => zero.resolve_right (Nat.pow_pos (by decide)).ne'

theorem Holding.value_eq (holding : Holding positive parser number valueExp) (level : valueExp ≤ 0) :
    parser.value = number := by
  have spells := holding.spells
  rwa [Int.toNat_eq_zero.mpr level, pow_zero, Nat.mul_one] at spells

theorem holding_realign (holding : Holding positive parser number valueExp)
    (fits : number ≤ uint64Max) : Holding positive parser.realignValue number (min valueExp 0) := by
  have spells := holding.spells
  have small := holding.small
  unfold realignValue
  rw [holding.shifted]
  by_cases ahead : 0 < valueExp
  · have below : valueExp.toNat < 2 ^ 31 := by
      unfold intMax at small
      omega
    have power : 10 ^ valueExp.toNat ≤ uint64Max := by
      apply le_trans _ fits
      rw [← spells]
      exact Nat.le_mul_of_pos_left _ (Nat.pos_of_ne_zero (holding.nonzero ahead))
    have fitting := fits64_iff.mpr (spells.trans_le fits)
    rw [if_pos ahead, npow_of_fits (by decide) below power]
    dsimp only
    rw [fitting, spells, wrap64_of_fits fits, min_eq_right ahead.le]
    refine ⟨?_, rfl, ?_, by decide, fits, ?_, holding.sign, holding.unscaled⟩
    · exact Nat.mul_one number
    · intro more
      exact absurd more (lt_irrefl 0)
    · simp [holding.clear]
  · rw [if_neg ahead, min_eq_left (not_lt.mp ahead)]
    exact holding

theorem realign_wraps (holding : Holding positive parser number valueExp)
    (beyond : uint64Max < number) : parser.realignValue.wraps = true := by
  have spells := holding.spells
  have small := holding.small
  have ahead : 0 < valueExp := by
    by_contra behind
    have same := holding.value_eq (not_lt.mp behind)
    exact absurd holding.within (not_le.mpr (same ▸ beyond))
  have below : valueExp.toNat < 2 ^ 31 := by
    unfold intMax at small
    omega
  unfold realignValue
  rw [holding.shifted, if_pos ahead]
  by_cases power : 10 ^ valueExp.toNat ≤ uint64Max
  · have unfit : fits64 number = false :=
      Bool.eq_false_of_not_eq_true fun fits => not_le.mpr beyond (fits64_iff.mp fits)
    rw [npow_of_fits (by decide) below power]
    simp only [spells, unfit, Bool.not_false, Bool.or_true]
  · simp [npow_of_beyond (by decide) below (not_le.mp power)]

theorem holding_push (holding : Holding positive parser number valueExp) (level : valueExp ≤ 0)
    (x : Fin 10) (room : number ≤ bound) :
    ∃ next, parser.pushDigit x = (next, none) ∧
      Holding positive next (number * 10 + x.val) valueExp := by
  have value := holding.value_eq level
  have fits : parser.value * 10 + x.val ≤ uint64Max := by
    have digit := x.isLt
    have most : bound = 1844674407370955160 := rfl
    have max : uint64Max = 18446744073709551615 := rfl
    omega
  unfold pushDigit
  rw [if_neg (not_lt.mpr (value.trans_le room))]
  dsimp only
  rw [fits64_iff.mpr fits, wrap64_of_fits fits]
  refine ⟨_, rfl, ?_, holding.shifted, ?_, holding.small, fits, ?_, holding.sign,
    holding.unscaled⟩
  · dsimp only
    rw [Int.toNat_eq_zero.mpr level, pow_zero, Nat.mul_one, value]
  · intro ahead
    exact absurd ahead (not_lt.mpr level)
  · simp [holding.clear]

theorem push_refused (holding : Holding positive parser number valueExp) (level : valueExp ≤ 0)
    (x : Fin 10) (full : bound < number) :
    parser.pushDigit x = (parser, some .valueOutOfRange) := by
  unfold pushDigit
  rw [if_pos (holding.value_eq level ▸ full)]

theorem stage_push {behind : Parser} {x : Fin 10} (wraps : uint64Max < number → behind.wraps = true)
    (holding : number ≤ uint64Max → Holding positive behind number valueExp) (level : valueExp ≤ 0) :
    Stage [.push number] (behind.pushDigit x)
      fun next => Holding positive next (number * 10 + x.val) valueExp := by
  by_cases beyond : uint64Max < number
  · left
    refine ⟨.push number, by simp [Check.fails, Check.wraps, beyond], ?_⟩
    rw [Failed, if_pos (by simpa [Check.wraps] using beyond)]
    exact pushDigit_wraps x (wraps beyond)
  · have held := holding (not_lt.mp beyond)
    have clear : ¬ (Check.push number).wraps = true := by simpa [Check.wraps] using beyond
    by_cases full : bound < number
    · left
      refine ⟨.push number, by simp [Check.fails, Check.refused, full], ?_⟩
      rw [Failed, if_neg clear, push_refused held level x full]
      exact ⟨rfl, held.clear⟩
    · right
      refine ⟨?_, holding_push held level x (not_lt.mp full)⟩
      simpa [Check.fails, Check.wraps, Check.refused] using ⟨not_lt.mp beyond, not_lt.mp full⟩

theorem stage_digit {number zeros : Nat} (x : Fin 10)
    (holding : Holding positive parser number zeros) :
    Stage (wholeChecks number zeros [x]) (tell visit [.digit x] parser)
      fun next => Holding positive next (number * 10 + x.val) (zerosFrom number zeros [x] : Nat) := by
  rw [tell_single, visit, digit]
  have same : (parser.value ≠ 0 ∧ x = 0) ↔ (number ≠ 0 ∧ x = 0) :=
    and_congr_left' (not_congr holding.zero_iff)
  by_cases zero : number ≠ 0 ∧ x = 0
  · rw [wholeChecks, if_pos zero, zerosFrom, if_pos zero, wholeChecks, zerosFrom,
      if_pos (same.mpr zero), holding.shifted]
    have small := holding.small
    by_cases full : (zeros : Int) = intMax
    · left
      refine ⟨.zeros (zeros + 1), ?_, ?_⟩
      · simp [Check.fails, Check.refused, full]
      · rw [if_pos full]
        exact ⟨rfl, holding.clear⟩
    · have room : ((zeros + 1 : Nat) : Int) ≤ intMax := by omega
      right
      refine ⟨by simpa [Check.fails, Check.wraps, Check.refused] using room, ?_⟩
      rw [if_neg full]
      have spells := holding.spells
      refine ⟨_, rfl, ?_, ?_, ?_, room, holding.within, holding.clear, holding.sign,
        holding.unscaled⟩
      · rw [Int.toNat_natCast] at spells ⊢
        rw [zero.2, Fin.val_zero, ← spells, Nat.pow_succ, Nat.mul_assoc]
        rfl
      · simp
      · exact fun _ => mt holding.zero_iff.mp zero.1
  · rw [wholeChecks, if_neg zero, zerosFrom, if_neg zero, wholeChecks, zerosFrom,
      if_neg (mt same.mp zero)]
    apply stage_push (realign_wraps holding) _ le_rfl
    intro fits
    have realigned := holding_realign holding fits
    rwa [min_eq_right (Int.natCast_nonneg zeros)] at realigned

theorem stage_whole {number zeros : Nat} (digits : List (Fin 10))
    (holding : Holding positive parser number zeros) :
    Stage (wholeChecks number zeros digits) (tell visit (digits.map .digit) parser)
      fun next => Holding positive next (natFrom number digits)
        (zerosFrom number zeros digits : Nat) := by
  induction digits generalizing parser number zeros with
  | nil => exact Or.inr ⟨rfl, parser, rfl, holding⟩
  | cons x digits ih =>
    have first := stage_digit x holding
    have joined := first.append fun next held => ih held
    have checks : wholeChecks number zeros [x] ++
        wholeChecks (number * 10 + x.val) (zerosFrom number zeros [x]) digits =
          wholeChecks number zeros (x :: digits) := by
      simp only [wholeChecks, zerosFrom]
      split <;> rfl
    have sameZeros : zerosFrom (number * 10 + x.val) (zerosFrom number zeros [x]) digits =
        zerosFrom number zeros (x :: digits) := by
      simp only [zerosFrom]
      split <;> rfl
    rw [checks, sameZeros] at joined
    exact joined

theorem stage_fractionDigit {number count : Nat} (x : Fin 10)
    (holding : Holding positive parser number valueExp) (level : min valueExp 0 = -(count : Int)) :
    Stage [.point (count + 1), .push number] (tell visit [.fractionDigit x] parser)
      fun next => Holding positive next (number * 10 + x.val) (-((count + 1 : Nat) : Int)) := by
  rw [tell_single, visit, fractionDigit]
  have below : -(count : Int) - 1 = -((count + 1 : Nat) : Int) := by omega
  by_cases long : intMax + 1 < ((count + 1 : Nat) : Int)
  · left
    refine ⟨.point (count + 1), by simpa [Check.fails, Check.wraps] using Or.inl long, ?_⟩
    rw [Failed, if_pos (by simpa [Check.wraps] using long)]
    apply pushDigit_wraps
    by_cases beyond : uint64Max < number
    · simp [decExp, realign_wraps holding beyond]
    · have realigned := holding_realign holding (not_lt.mp beyond)
      have unfit : fitsInt (-(count : Int) - 1) = false := by
        apply Bool.eq_false_of_not_eq_true
        rw [fitsInt_iff]
        omega
      simp [decExp, realigned.shifted, level, unfit]
  · have fits : -(intMax + 1) ≤ -(count : Int) - 1 ∧ -(count : Int) - 1 ≤ intMax := by
      unfold intMax at long ⊢
      omega
    have passed : (Check.point (count + 1)).fails = false := by
      simpa [Check.fails, Check.wraps, Check.refused] using not_lt.mp long
    have pushed : Stage [.push number] (parser.realignValue.decExp.pushDigit x)
        fun next => Holding positive next (number * 10 + x.val) (-((count + 1 : Nat) : Int)) := by
      apply stage_push
      · intro beyond
        simp [decExp, realign_wraps holding beyond]
      · intro within
        have realigned := holding_realign holding within
        have value := realigned.value_eq (min_le_right _ _)
        have flat : (-((count + 1 : Nat) : Int)).toNat = 0 := Int.toNat_eq_zero.mpr (by omega)
        refine ⟨?_, ?_, ?_, ?_, realigned.within, ?_, realigned.sign, realigned.unscaled⟩
        · rw [flat, pow_zero, Nat.mul_one]
          exact value
        · simp only [decExp, realigned.shifted, level]
          rw [wrapInt_of_fits fits, below]
        · intro ahead
          omega
        · unfold intMax
          omega
        · simp only [decExp, realigned.shifted, level, realigned.clear, fitsInt_iff.mpr fits,
            Bool.not_true, Bool.or_false]
      · omega
    rcases pushed with ⟨check, found, failed⟩ | ⟨passes, next, went, held⟩
    · exact Or.inl ⟨check, by rw [List.find?_cons, passed, found], failed⟩
    · exact Or.inr ⟨by rw [List.find?_cons, passed, passes], next, went, held⟩

/-- How far the value is shifted behind the digits on both sides of the point. -/
def pointed (valueExp : Int) (count : Nat) (digits : List (Fin 10)) : Int :=
  if digits = [] then valueExp else -((count + digits.length : Nat) : Int)

theorem stage_fraction {number count : Nat} (digits : List (Fin 10))
    (holding : Holding positive parser number valueExp) (level : min valueExp 0 = -(count : Int)) :
    Stage (fractionChecks number count digits) (tell visit (digits.map .fractionDigit) parser)
      fun next => Holding positive next (natFrom number digits)
        (pointed valueExp count digits) := by
  induction digits generalizing parser number count valueExp with
  | nil => exact Or.inr ⟨rfl, parser, rfl, holding⟩
  | cons x digits ih =>
    have first := stage_fractionDigit x holding level
    have goesOn : ∀ next, Holding positive next (number * 10 + x.val) (-((count + 1 : Nat) : Int)) →
        Stage (fractionChecks (number * 10 + x.val) (count + 1) digits)
          (tell visit (digits.map .fractionDigit) next) fun last =>
            Holding positive last (natFrom number (x :: digits))
              (pointed (-((count + 1 : Nat) : Int)) (count + 1) digits) :=
      fun next held => ih held (by omega)
    have joined := first.append goesOn
    have same : pointed (-((count + 1 : Nat) : Int)) (count + 1) digits =
        pointed valueExp count (x :: digits) := by
      unfold pointed
      rw [if_neg (List.cons_ne_nil x digits), List.length_cons]
      split
      · rename_i empty
        rw [empty]
        rfl
      · omega
    rw [same] at joined
    exact joined

theorem stage_exponent {number : Nat} (digits : List (Fin 10)) (clear : parser.wraps = false)
    (small : (number : Int) ≤ intMax) :
    Stage (exponentChecks number digits)
      (tell visit (digits.map .exponentDigit) { parser with exponent := (number : Int) })
      fun next => next = { parser with exponent := (natFrom number digits : Nat) } ∧
        ((natFrom number digits : Nat) : Int) ≤ intMax := by
  induction digits generalizing number with
  | nil => exact Or.inr ⟨rfl, _, rfl, rfl, small⟩
  | cons x digits ih =>
    rw [List.map_cons, tell, visit, exponentDigit, exponentChecks]
    dsimp only
    by_cases zero : number = 0 ∧ x = 0
    · have unread : (number : Int) = 0 ∧ x = 0 := by
        rw [zero.1]
        exact ⟨rfl, zero.2⟩
      have stays : number * 10 + x.val = number := by
        rw [zero.1, zero.2]
        rfl
      have goesOn := ih small
      rw [if_pos unread, if_pos zero]
      dsimp only
      simpa only [stays, natFrom, List.foldl_cons] using goesOn
    · have read : ¬ ((number : Int) = 0 ∧ x = 0) := by
        rwa [Int.natCast_eq_zero]
      rw [if_neg read, if_neg zero]
      by_cases full : exponentBound ≤ (number : Int)
      · left
        refine ⟨.exponent number, by simp [Check.fails, Check.refused, full], ?_⟩
        rw [if_pos full]
        exact ⟨rfl, clear⟩
      · have room : (number : Int) * 10 + x.val ≤ intMax := by
          have digit := x.isLt
          have most : exponentBound = 214748363 := rfl
          unfold intMax
          omega
        have fits : -(intMax + 1) ≤ (number : Int) * 10 + x.val ∧
            (number : Int) * 10 + x.val ≤ intMax := by
          refine ⟨?_, room⟩
          unfold intMax
          omega
        have next : Parser.mk parser.positive parser.value parser.valueExp parser.exponentPositive
            (wrapInt ((number : Int) * 10 + x.val))
            (parser.wraps || !fitsInt ((number : Int) * 10 + x.val)) =
              { parser with exponent := ((number * 10 + x.val : Nat) : Int) } := by
          rw [fitsInt_iff.mpr fits, wrapInt_of_fits fits, clear]
          simp
        rw [if_neg full]
        dsimp only
        rw [next]
        have passed : (Check.exponent number).fails = false := by
          simpa [Check.fails, Check.wraps, Check.refused] using full
        have within : ((number * 10 + x.val : Nat) : Int) ≤ intMax := by
          push_cast
          exact room
        rcases ih within with ⟨check, found, failed⟩ | ⟨passes, last, went, held⟩
        · exact Or.inl ⟨check, by rw [List.find?_cons, passed, found], failed⟩
        · exact Or.inr ⟨by rw [List.find?_cons, passed, passes], last, went, held⟩

end Digits

/-- The power of ten that the digits are held without, or less it. -/
def Literal.shift (literal : Literal) : Int :=
  pointed (Literal.zerosFrom 0 0 literal.whole : Nat) 0 literal.fraction

structure Ended (literal : Literal) (parser : Parser) : Prop where
  spells : parser.value * 10 ^ literal.shift.toNat = literal.mantissa
  shifted : parser.valueExp = literal.shift
  within : parser.value ≤ uint64Max
  clear : parser.wraps = false
  sign : parser.positive = !literal.negative
  exponent : parser.exponent = literal.exponentValue

section Literals

open MojNumber.Parser Literal

theorem tell_sign (negative : Bool) {event : Event} {parser next : Parser}
    (told : visit event parser = (next, none)) :
    tell visit (signEvents negative event) parser = (if negative then next else parser, none) := by
  unfold signEvents
  cases negative with
  | false => rfl
  | true => exact (tell_single event parser).trans told

theorem stage_exponentEvents (literal : Literal) {parser : Parser}
    (holding : Holding (!literal.negative) parser literal.mantissa literal.shift) :
    Stage (exponentChecks 0 literal.exponent)
      (tell visit (exponentEvents literal.negativeExponent literal.exponent) parser)
      (Ended literal) := by
  let scaled : Parser := { parser with exponentPositive := !literal.negativeExponent }
  have signs : tell visit (signEvents literal.negativeExponent .negativeExponent) parser =
      (scaled, none) := by
    refine (tell_sign literal.negativeExponent rfl).trans ?_
    have positive := holding.unscaled.1
    cases parser
    cases negative : literal.negativeExponent <;> simp_all [scaled]
  have start : { scaled with exponent := ((0 : Nat) : Int) } = scaled := by
    have unread := holding.unscaled.2
    cases parser
    simp_all [scaled]
  rw [exponentEvents, tell_append_ok signs]
  have digits := @stage_exponent scaled 0 literal.exponent holding.clear
    (show ((0 : Nat) : Int) ≤ intMax by decide)
  rw [start] at digits
  rw [← List.append_nil (exponentChecks 0 literal.exponent)]
  apply digits.append
  rintro _ ⟨rfl, small⟩
  right
  refine ⟨rfl, _, tell_single .finish _, ?_⟩
  have fits : -(intMax + 1) ≤ -((natFrom 0 literal.exponent : Nat) : Int) ∧
      -((natFrom 0 literal.exponent : Nat) : Int) ≤ intMax := by
    unfold intMax at small ⊢
    omega
  unfold finish
  dsimp only [scaled]
  rw [fitsInt_iff.mpr fits, wrapInt_of_fits fits]
  by_cases negative : literal.negativeExponent = true
  · rw [if_neg (by simp [negative])]
    refine ⟨holding.spells, holding.shifted, holding.within, ?_, holding.sign, ?_⟩
    · simp [holding.clear]
    · rw [exponentValue, negative]
      rfl
  · rw [if_pos (by simp [negative])]
    refine ⟨holding.spells, holding.shifted, holding.within, holding.clear, holding.sign, ?_⟩
    rw [exponentValue, Bool.eq_false_of_not_eq_true negative]
    rfl

theorem stage_literal (literal : Literal) :
    Stage literal.checks (tell visit literal.events .reset) (Ended literal) := by
  let signed : Parser := { Parser.reset with positive := !literal.negative }
  have signs : tell visit (signEvents literal.negative .negative) .reset = (signed, none) := by
    refine (tell_sign literal.negative rfl).trans ?_
    cases negative : literal.negative <;> simp [signed, negative, reset]
  have start : Holding (!literal.negative) signed 0 ((0 : Nat) : Int) :=
    ⟨rfl, rfl, fun ahead => absurd ahead (lt_irrefl 0), by decide, Nat.zero_le _, rfl, rfl, rfl, rfl⟩
  rw [Literal.events, tell_append_ok signs, Literal.checks]
  apply (stage_whole literal.whole start).append
  intro next whole
  apply (stage_fraction literal.fraction whole (min_eq_right (Int.natCast_nonneg _))).append
  intro last fraction
  apply stage_exponentEvents literal
  rwa [mantissa, natFrom, List.foldl_append]

end Literals

end Db8.Core.MojNumber
