import Db8.Core.Object
import Mathlib.Algebra.Ring.Int.Defs

/-!
# Reading a number from an object

`MojObject::intValue`, which gives a number for a value of any type, and the library function that
reads one from a string.
-/

set_option autoImplicit false

namespace Db8.Core

open Db8.Bytes

def isSpace (c : MojChar) : Bool := (9 ≤ c.val.val && c.val.val ≤ 13) || c.val.val = 32

def digitOf (c : MojChar) : Option Nat :=
  let code := c.val.val
  if 48 ≤ code ∧ code ≤ 57 then some (code - 48)
  else if 97 ≤ code ∧ code ≤ 122 then some (code - 87)
  else if 65 ≤ code ∧ code ≤ 90 then some (code - 55)
  else none

def digitBelow (base : Nat) (c : MojChar) : Option Nat :=
  (digitOf c).filter fun digit => decide (digit < base)

def readDigits (base : Nat) : Nat → MojString → Nat
  | val, [] => val
  | val, c :: rest =>
    match digitBelow base c with
    | some digit => readDigits base (val * base + digit) rest
    | none => val

/-- The base that the text asks for, with the text behind its sign. -/
def readBase (str : MojString) : Nat × MojString :=
  match str with
  | zero :: letter :: digit :: rest =>
    if zero.val.val = 48 ∧ (letter.val.val = 120 ∨ letter.val.val = 88) ∧
        (digitBelow 16 digit).isSome then (16, digit :: rest)
    else if zero.val.val = 48 then (8, str)
    else (10, str)
  | zero :: _ => if zero.val.val = 48 then (8, str) else (10, str)
  | [] => (10, [])

/-- `strtoll` with base 0, which stays within the range of the type. -/
def strToInt64 (str : MojString) : MojInt64 :=
  let str := str.dropWhile isSpace
  let negative := str.head?.any fun c => decide (c.val.val = 45)
  let signed := str.head?.any fun c => decide (c.val.val = 45 ∨ c.val.val = 43)
  let based := readBase (if signed then str.drop 1 else str)
  let val : Int := readDigits based.1 0 based.2
  let val := if negative then -val else val
  BitVec.ofInt 64 (max (-2 ^ 63) (min val (2 ^ 63 - 1)))

namespace MojObject

def numerator : MojInt64 := 1000000#64

def intValue : MojObject → MojInt64
  | .null => 0
  | .object _ => 0
  | .array _ => 0
  | .string val => strToInt64 val
  | .bool val => if val then 1 else 0
  | .decimal rep => rep.sdiv numerator
  | .int val => val

example : intValue (.string (chars " -0x1fz".toList)) = BitVec.ofInt 64 (-31) := by decide +kernel

end MojObject

end Db8.Core
