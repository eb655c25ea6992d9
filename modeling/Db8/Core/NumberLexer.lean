import Db8.Bytes.Lex
import Mathlib.Data.Rat.Defs
import Mathlib.Algebra.Order.Field.Power

/-!
# Number literals

`MojNumber::Lexer`: a state machine that tells a visitor what it reads, digit by digit. A visitor may
refuse what it is told, which ends the parse. What an accepted string tells is a literal: a sign,
digits, digits behind the point, and an exponent.
-/

set_option autoImplicit false

namespace Db8.Core.MojNumber

open Db8.Bytes

inductive NumberErr
  | invalidDecimal
  | valueOutOfRange
  | divisionByZero
deriving DecidableEq, Repr

instance digitNeZero : NeZero 10 := ⟨by decide⟩

inductive Event
  | negative
  | digit (x : Fin 10)
  | fractionDigit (x : Fin 10)
  | negativeExponent
  | exponentDigit (x : Fin 10)
  | finish
deriving DecidableEq

inductive LexState
  | number
  | magnitude
  | magnitudeDigits
  | fraction
  | fractionDigits
  | exponent
  | exponentFirstDigit
  | exponentDigits
deriving DecidableEq

def digitOf (c : Byte) : Option (Fin 10) :=
  if digit : 48 ≤ c.val ∧ c.val ≤ 57 then some ⟨c.val - 48, by omega⟩ else none

def minus : Byte := 45

def plus : Byte := 43

def point : Byte := 46

def IsExponentSign (c : Byte) : Prop := c = 101 ∨ c = 69

instance (c : Byte) : Decidable (IsExponentSign c) := inferInstanceAs (Decidable (_ ∨ _))

/-- The labels `StateMagnitude` and `StateMagnitudeDigits`. -/
def lexMagnitude (c : Byte) : Except NumberErr (Option Event × LexState) :=
  match digitOf c with
  | some x => .ok (some (.digit x), .magnitudeDigits)
  | none =>
    if c = point then .ok (none, .fraction)
    else if IsExponentSign c then .ok (none, .exponent)
    else .error .invalidDecimal

/-- The labels `StateExponentFirstDigit` and `StateExponentDigits`. -/
def lexExponent (c : Byte) : Except NumberErr (Option Event × LexState) :=
  match digitOf c with
  | some x => .ok (some (.exponentDigit x), .exponentDigits)
  | none => .error .invalidDecimal

/-- The switch: what the visitor is told of a character, and the next state. -/
def lexChar (state : LexState) (c : Byte) : Except NumberErr (Option Event × LexState) :=
  match state with
  | .number =>
    if c = minus then .ok (some .negative, .magnitude)
    else if c = plus then .ok (none, .magnitude)
    else if digitOf c = none then .error .invalidDecimal
    else lexMagnitude c
  | .magnitude => lexMagnitude c
  | .magnitudeDigits => lexMagnitude c
  | .fraction =>
    match digitOf c with
    | some x => .ok (some (.fractionDigit x), .fractionDigits)
    | none => .error .invalidDecimal
  | .fractionDigits =>
    match digitOf c with
    | some x => .ok (some (.fractionDigit x), .fractionDigits)
    | none => if IsExponentSign c then .ok (none, .exponent) else .error .invalidDecimal
  | .exponent =>
    if c = minus then .ok (some .negativeExponent, .exponentFirstDigit)
    else if c = plus then .ok (none, .exponentFirstDigit)
    else lexExponent c
  | .exponentFirstDigit => lexExponent c
  | .exponentDigits => lexExponent c

def LexState.isFinal : LexState → Bool
  | .magnitudeDigits | .fractionDigits | .exponentDigits => true
  | _ => false

section Parse

variable {σ : Type} (visitor : Event → σ → σ × Option NumberErr)

def tellOption (event : Option Event) (vis : σ) : σ × Option NumberErr :=
  match event with
  | some event => visitor event vis
  | none => (vis, none)

/-- `Lexer::parse` from a state on; the visitor is left as the last call left it. -/
def parse : LexState → ByteString → σ → σ × Option NumberErr
  | state, [], vis => if state.isFinal then visitor .finish vis else (vis, some .invalidDecimal)
  | state, c :: str, vis =>
    match lexChar state c with
    | .error err => (vis, some err)
    | .ok (event, next) =>
      match tellOption visitor event vis with
      | (vis, some err) => (vis, some err)
      | (vis, none) => parse next str vis

/-- The calls one after another, up to the first that is refused. -/
def tell : List Event → σ → σ × Option NumberErr
  | [], vis => (vis, none)
  | event :: events, vis =>
    match visitor event vis with
    | (vis, some err) => (vis, some err)
    | (vis, none) => tell events vis

variable {visitor}

theorem tell_append (first second : List Event) (vis : σ) :
    tell visitor (first ++ second) vis =
      match tell visitor first vis with
      | (vis, some err) => (vis, some err)
      | (vis, none) => tell visitor second vis := by
  induction first generalizing vis with
  | nil => rfl
  | cons event first ih =>
    rw [List.cons_append, tell, tell]
    rcases visitor event vis with ⟨next, _ | err⟩
    · exact ih next
    · rfl

theorem tell_append_ok {first second : List Event} {vis next : σ}
    (told : tell visitor first vis = (next, none)) :
    tell visitor (first ++ second) vis = tell visitor second next := by
  rw [tell_append, told]

theorem tell_append_err {first second : List Event} {vis next : σ} {err : NumberErr}
    (told : tell visitor first vis = (next, some err)) :
    tell visitor (first ++ second) vis = (next, some err) := by
  rw [tell_append, told]

end Parse

def events : LexState → ByteString → Except NumberErr (List Event)
  | state, [] => if state.isFinal then .ok [.finish] else .error .invalidDecimal
  | state, c :: str =>
    match lexChar state c with
    | .error err => .error err
    | .ok (event, next) =>
      match events next str with
      | .error err => .error err
      | .ok rest => .ok (event.toList ++ rest)

theorem events_cons {state : LexState} {c : Byte} {str : ByteString} {all : List Event}
    (accepted : events state (c :: str) = .ok all) :
    ∃ event next rest, lexChar state c = .ok (event, next) ∧ events next str = .ok rest ∧
      all = event.toList ++ rest := by
  unfold events at accepted
  split at accepted
  · cases accepted
  · rename_i event next read
    split at accepted
    · cases accepted
    · rename_i rest goesOn
      cases accepted
      exact ⟨event, next, rest, read, goesOn, rfl⟩

theorem parse_eq_tell {σ : Type} (visitor : Event → σ → σ × Option NumberErr) {state : LexState}
    {str : ByteString} {all : List Event} (accepted : events state str = .ok all) (vis : σ) :
    parse visitor state str vis = tell visitor all vis := by
  induction str generalizing state all vis with
  | nil =>
    unfold events at accepted
    split at accepted
    · rename_i final
      cases accepted
      rw [parse, if_pos final, tell]
      rcases visitor .finish vis with ⟨next, _ | err⟩ <;> rfl
    · cases accepted
  | cons c str ih =>
    rcases events_cons accepted with ⟨event, next, rest, read, goesOn, rfl⟩
    rw [parse, read]
    cases event with
    | none => exact ih goesOn vis
    | some event =>
      simp only [tellOption, Option.toList_some, List.cons_append, List.nil_append, tell]
      rcases visitor event vis with ⟨told, _ | err⟩
      · exact ih goesOn told
      · rfl

structure Literal where
  negative : Bool
  whole : List (Fin 10)
  fraction : List (Fin 10)
  negativeExponent : Bool
  exponent : List (Fin 10)

namespace Literal

def signEvents (negative : Bool) (event : Event) : List Event := if negative then [event] else []

def exponentEvents (negative : Bool) (exponent : List (Fin 10)) : List Event :=
  signEvents negative .negativeExponent ++ (exponent.map .exponentDigit ++ [.finish])

def events (literal : Literal) : List Event :=
  signEvents literal.negative .negative ++ (literal.whole.map .digit ++
    (literal.fraction.map .fractionDigit ++
      exponentEvents literal.negativeExponent literal.exponent))

/-- The number that digits spell, behind one that has been read. -/
def natFrom (start : Nat) (digits : List (Fin 10)) : Nat :=
  digits.foldl (fun number x => number * 10 + x.val) start

def mantissa (literal : Literal) : Nat := natFrom 0 (literal.whole ++ literal.fraction)

def signed (negative : Bool) (number : Nat) : Int := if negative then -number else number

def exponentValue (literal : Literal) : Int :=
  signed literal.negativeExponent (natFrom 0 literal.exponent)

def value (literal : Literal) : ℚ :=
  signed literal.negative literal.mantissa *
    (10 : ℚ) ^ (literal.exponentValue - literal.fraction.length)

end Literal

section Shape

variable {str : ByteString} {all : List Event}

end Shape

end Db8.Core.MojNumber
