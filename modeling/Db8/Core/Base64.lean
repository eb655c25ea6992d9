import Db8.Core.Err
import Db8.Core.Object

/-!
# Base 64

`MojBase64Encode` and `MojBase64Decode` with the character set that is ordered by ASCII value. Bytes
go out in chunks of three; the decoder puts a chunk together character by character, and accepts a
shorter last chunk with or without padding. What is encoded decodes to itself.
-/

set_option autoImplicit false

namespace Db8.Core.MojBase64

open Db8.Bytes

def encodeChars : MojString :=
  chars ['+', '0', '1', '2', '3', '4', '5', '6', '7', '8', '9', 'A', 'B', 'C', 'D', 'E', 'F', 'G',
    'H', 'I', 'J', 'K', 'L', 'M', 'N', 'O', 'P', 'Q', 'R', 'S', 'T', 'U', 'V', 'W', 'X', 'Y', 'Z',
    '_', 'a', 'b', 'c', 'd', 'e', 'f', 'g', 'h', 'i', 'j', 'k', 'l', 'm', 'n', 'o', 'p', 'q', 'r',
    's', 't', 'u', 'v', 'w', 'x', 'y', 'z']

def decodeVals : List Nat := [
  255, 255, 255, 255, 255, 255, 255, 255, 255, 255, 255, 255, 255, 255, 255, 255,
  255, 255, 255, 255, 255, 255, 255, 255, 255, 255, 255, 255, 255, 255, 255, 255,
  255, 255, 255, 255, 255, 255, 255, 255, 255, 255, 255, 0, 255, 255, 255, 255,
  1, 2, 3, 4, 5, 6, 7, 8, 9, 10, 255, 255, 255, 255, 255, 255,
  255, 11, 12, 13, 14, 15, 16, 17, 18, 19, 20, 21, 22, 23, 24, 25,
  26, 27, 28, 29, 30, 31, 32, 33, 34, 35, 36, 255, 255, 255, 255, 37,
  255, 38, 39, 40, 41, 42, 43, 44, 45, 46, 47, 48, 49, 50, 51, 52,
  53, 54, 55, 56, 57, 58, 59, 60, 61, 62, 63]

def encodedLenMax (size : Nat) : Nat := (size + 2) / 3 * 4

def decodedSizeMax (length : Nat) : Nat := (length + 3) / 4 * 3

def padChar : MojChar := ⟨61, by decide⟩

/-- A six-bit value of a chunk; the character set covers all of them. -/
def charAt (val : Nat) : MojChar := encodeChars.getD val padChar

def encode (pad : Bool) : ByteString → MojString
  | first :: second :: third :: rest =>
    let chunk := first.val <<< 16 + second.val <<< 8 + third.val
    charAt (chunk >>> 18) :: charAt (chunk >>> 12 &&& 0x3F) :: charAt (chunk >>> 6 &&& 0x3F) ::
      charAt (chunk &&& 0x3F) :: encode pad rest
  | [first, second] =>
    let chunk := first.val <<< 16 + second.val <<< 8
    [charAt (chunk >>> 18), charAt (chunk >>> 12 &&& 0x3F), charAt (chunk >>> 6 &&& 0x3F)] ++
      if pad then [padChar] else []
  | [first] =>
    let chunk := first.val <<< 16
    [charAt (chunk >>> 18), charAt (chunk >>> 12 &&& 0x3F)] ++
      if pad then [padChar, padChar] else []
  | [] => []

def decodeChar (c : MojChar) : Except MojErr Nat :=
  match decodeVals[c.val.val]? with
  | none => .error .invalidBase64Data
  | some val => if val = 255 then .error .invalidBase64Data else .ok val

/-- The loop of the decoder: the bytes of the full chunks, and what is left in the last one. -/
def decodeLoop : MojString → Nat → Nat → Except MojErr (ByteString × Nat)
  | [], _, chunk => .ok ([], chunk)
  | c :: rest, place, chunk => do
    let val ← decodeChar c
    match place % 4 with
    | 0 => decodeLoop rest (place + 1) (val <<< 18)
    | 1 => decodeLoop rest (place + 1) (chunk ||| val <<< 12)
    | 2 => decodeLoop rest (place + 1) (chunk ||| val <<< 6)
    | _ =>
      let chunk := chunk ||| val
      let (dest, left) ← decodeLoop rest (place + 1) chunk
      .ok (Fin.ofNat 256 (chunk >>> 16) :: Fin.ofNat 256 (chunk >>> 8) ::
        Fin.ofNat 256 chunk :: dest, left)

def trimPadding (src : MojString) : MojString :=
  if src.getLast? = some padChar then src.dropLast else src

def decode (src : MojString) : Except MojErr ByteString := do
  let sizeOut := decodedSizeMax src.length
  let trimmed := trimPadding (trimPadding src)
  let (dest, chunk) ← decodeLoop trimmed 0 0
  match trimmed.length % 4 with
  | 0 => do
    mojAssert (dest.length == sizeOut) "(MojSize)(dest - bufOut) == sizeOut"
    .ok dest
  | 2 => do
    let dest := dest ++ [Fin.ofNat 256 (chunk >>> 16)]
    mojAssert (dest.length == sizeOut - 2) "(MojSize)(dest - bufOut) == sizeOut"
    .ok dest
  | 3 => do
    let dest := dest ++ [Fin.ofNat 256 (chunk >>> 16), Fin.ofNat 256 (chunk >>> 8)]
    mojAssert (dest.length == sizeOut - 1) "(MojSize)(dest - bufOut) == sizeOut"
    .ok dest
  | _ => .error .invalidBase64Data

theorem decodeChar_charAt {val : Nat} (small : val < 64) : decodeChar (charAt val) = .ok val := by
  have table : ∀ val : Fin 64, decodeChar (charAt val.val) = .ok val.val := by decide +kernel
  exact table ⟨val, small⟩

theorem charAt_ne_padChar {val : Nat} (small : val < 64) : charAt val ≠ padChar := by
  have table : ∀ val : Fin 64, charAt val.val ≠ padChar := by decide +kernel
  exact table ⟨val, small⟩

theorem mask_lt (val : Nat) : val &&& 0x3F < 64 := Nat.and_lt_two_pow val (by decide : 0x3F < 2 ^ 6)

theorem chunk_eq (chunk : Nat) :
    (chunk >>> 18) <<< 18 ||| (chunk >>> 12 &&& 0x3F) <<< 12 ||| (chunk >>> 6 &&& 0x3F) <<< 6 |||
      (chunk &&& 0x3F) = chunk := by
  apply Nat.eq_of_testBit_eq
  intro place
  have mask : ∀ bit, Nat.testBit 0x3F bit = decide (bit < 6) := by
    intro bit
    exact Nat.testBit_two_pow_sub_one 6 bit
  simp only [Nat.testBit_or, Nat.testBit_shiftLeft, Nat.testBit_shiftRight, Nat.testBit_and, mask]
  rcases Nat.lt_or_ge place 6 with below | from6
  · have places : ¬ 18 ≤ place ∧ ¬ 12 ≤ place ∧ ¬ 6 ≤ place := by omega
    simp [places, below]
  rcases Nat.lt_or_ge place 12 with below | from12
  · have places : ¬ 18 ≤ place ∧ ¬ 12 ≤ place ∧ 6 ≤ place ∧ place - 6 < 6 ∧ ¬ place < 6 := by omega
    have same : 6 + (place - 6) = place := by omega
    simp [places, same]
  rcases Nat.lt_or_ge place 18 with below | from18
  · have places : ¬ 18 ≤ place ∧ 12 ≤ place ∧ place - 12 < 6 ∧ ¬ place - 6 < 6 ∧ ¬ place < 6 := by
      omega
    have same : 12 + (place - 12) = place := by omega
    simp [places, same]
  · have places : 18 ≤ place ∧ ¬ place - 12 < 6 ∧ ¬ place - 6 < 6 ∧ ¬ place < 6 := by omega
    have same : 18 + (place - 18) = place := by omega
    simp [places, same]

theorem byte_ofNat {byte : Byte} {number : Nat} (low : number % 256 = byte.val) :
    Fin.ofNat 256 number = byte :=
  Fin.ext low

theorem chunk_bytes (first second third : Byte) :
    let chunk := first.val <<< 16 + second.val <<< 8 + third.val
    chunk >>> 18 < 64 ∧ Fin.ofNat 256 (chunk >>> 16) = first ∧
      Fin.ofNat 256 (chunk >>> 8) = second ∧ Fin.ofNat 256 chunk = third := by
  have firstLt := first.isLt
  have secondLt := second.isLt
  have thirdLt := third.isLt
  simp only [Nat.shiftLeft_eq, Nat.shiftRight_eq_div_pow]
  refine ⟨by omega, byte_ofNat (by omega), byte_ofNat (by omega), byte_ofNat (by omega)⟩

theorem chunk_bytes_two (first second : Byte) :
    let chunk := first.val <<< 16 + second.val <<< 8
    chunk >>> 18 < 64 ∧ Fin.ofNat 256 (chunk >>> 16) = first ∧
      Fin.ofNat 256 (chunk >>> 8) = second := by
  have firstLt := first.isLt
  have secondLt := second.isLt
  simp only [Nat.shiftLeft_eq, Nat.shiftRight_eq_div_pow]
  exact ⟨by omega, byte_ofNat (by omega), byte_ofNat (by omega)⟩

theorem chunk_bytes_one (first : Byte) :
    let chunk := first.val <<< 16
    chunk >>> 18 < 64 ∧ Fin.ofNat 256 (chunk >>> 16) = first := by
  have firstLt := first.isLt
  simp only [Nat.shiftLeft_eq, Nat.shiftRight_eq_div_pow]
  exact ⟨by omega, byte_ofNat (by omega)⟩

theorem decodeLoop_charAt {val : Nat} (small : val < 64) (rest : MojString) (place chunk : Nat) :
    decodeLoop (charAt val :: rest) place chunk =
      match place % 4 with
      | 0 => decodeLoop rest (place + 1) (val <<< 18)
      | 1 => decodeLoop rest (place + 1) (chunk ||| val <<< 12)
      | 2 => decodeLoop rest (place + 1) (chunk ||| val <<< 6)
      | _ =>
        (decodeLoop rest (place + 1) (chunk ||| val)).map fun last =>
          (Fin.ofNat 256 ((chunk ||| val) >>> 16) :: Fin.ofNat 256 ((chunk ||| val) >>> 8) ::
            Fin.ofNat 256 (chunk ||| val) :: last.1, last.2) := by
  rw [decodeLoop, decodeChar_charAt small]
  rfl

theorem decodeLoop_chunk {place : Nat} (aligned : place % 4 = 0) (first second third : Byte)
    (rest : MojString) (before : Nat) :
    let chunk := first.val <<< 16 + second.val <<< 8 + third.val
    decodeLoop (charAt (chunk >>> 18) :: charAt (chunk >>> 12 &&& 0x3F) ::
        charAt (chunk >>> 6 &&& 0x3F) :: charAt (chunk &&& 0x3F) :: rest) place before =
      (decodeLoop rest (place + 4) chunk).map fun last =>
        (first :: second :: third :: last.1, last.2) := by
  intro chunk
  rcases chunk_bytes first second third with ⟨small, firstEq, secondEq, thirdEq⟩
  have places : (place + 1) % 4 = 1 ∧ (place + 1 + 1) % 4 = 2 ∧ (place + 1 + 1 + 1) % 4 = 3 := by
    omega
  rw [decodeLoop_charAt small, aligned]
  simp only
  rw [decodeLoop_charAt (mask_lt _), places.1]
  simp only
  rw [decodeLoop_charAt (mask_lt _), places.2.1]
  simp only
  rw [decodeLoop_charAt (mask_lt _), places.2.2]
  simp only
  rw [chunk_eq chunk, firstEq, secondEq, thirdEq]

theorem decodeLoop_two {place : Nat} (aligned : place % 4 = 0) (first second : Byte)
    (before : Nat) :
    let chunk := first.val <<< 16 + second.val <<< 8
    ∃ left, decodeLoop [charAt (chunk >>> 18), charAt (chunk >>> 12 &&& 0x3F),
        charAt (chunk >>> 6 &&& 0x3F)] place before = .ok ([], left) ∧
      Fin.ofNat 256 (left >>> 16) = first ∧ Fin.ofNat 256 (left >>> 8) = second := by
  intro chunk
  rcases chunk_bytes_two first second with ⟨small, firstEq, secondEq⟩
  have places : (place + 1) % 4 = 1 ∧ (place + 1 + 1) % 4 = 2 := by omega
  have noThird : chunk &&& 0x3F = 0 := by
    have low : chunk % 64 = 0 := by
      simp only [chunk, Nat.shiftLeft_eq]
      omega
    rw [show (0x3F : Nat) = 2 ^ 6 - 1 from rfl, Nat.and_two_pow_sub_one_eq_mod]
    exact low
  have whole := chunk_eq chunk
  rw [noThird, Nat.or_zero] at whole
  refine ⟨chunk, ?_, firstEq, secondEq⟩
  rw [decodeLoop_charAt small, aligned]
  simp only
  rw [decodeLoop_charAt (mask_lt _), places.1]
  simp only
  rw [decodeLoop_charAt (mask_lt _), places.2]
  simp only
  rw [whole]
  rfl

theorem decodeLoop_one {place : Nat} (aligned : place % 4 = 0) (first : Byte) (before : Nat) :
    let chunk := first.val <<< 16
    ∃ left, decodeLoop [charAt (chunk >>> 18), charAt (chunk >>> 12 &&& 0x3F)] place before =
        .ok ([], left) ∧ Fin.ofNat 256 (left >>> 16) = first := by
  intro chunk
  rcases chunk_bytes_one first with ⟨small, firstEq⟩
  have places : (place + 1) % 4 = 1 := by omega
  have noSecond : chunk >>> 6 &&& 0x3F = 0 ∧ chunk &&& 0x3F = 0 := by
    have low : chunk / 2 ^ 6 % 64 = 0 ∧ chunk % 64 = 0 := by
      simp only [chunk, Nat.shiftLeft_eq]
      omega
    rw [show (0x3F : Nat) = 2 ^ 6 - 1 from rfl, Nat.and_two_pow_sub_one_eq_mod,
      Nat.and_two_pow_sub_one_eq_mod, Nat.shiftRight_eq_div_pow]
    exact low
  have whole := chunk_eq chunk
  rw [noSecond.1, noSecond.2, Nat.zero_shiftLeft, Nat.or_zero, Nat.or_zero] at whole
  refine ⟨chunk, ?_, firstEq⟩
  rw [decodeLoop_charAt small, aligned]
  simp only
  rw [decodeLoop_charAt (mask_lt _), places]
  simp only
  rw [whole]
  rfl

variable (bytes : ByteString)

/-- The bytes of the full chunks come out of the loop, the others are left in the last chunk. -/
theorem decodeLoop_encode {place : Nat} (aligned : place % 4 = 0) (before : Nat) :
    ∃ dest left tail, decodeLoop (encode false bytes) place before = .ok (dest, left) ∧
      bytes = dest ++ tail ∧
      ((tail = [] ∧ (encode false bytes).length * 3 = dest.length * 4 ∧ dest.length % 3 = 0) ∨
        (∃ first, tail = [first] ∧ Fin.ofNat 256 (left >>> 16) = first ∧
          (encode false bytes).length * 3 = dest.length * 4 + 6 ∧ dest.length % 3 = 0) ∨
        ∃ first second, tail = [first, second] ∧ Fin.ofNat 256 (left >>> 16) = first ∧
          Fin.ofNat 256 (left >>> 8) = second ∧
          (encode false bytes).length * 3 = dest.length * 4 + 9 ∧ dest.length % 3 = 0) := by
  induction bytes using encode.induct generalizing place before with
  | case1 first second third rest ih =>
    rcases @ih (place + 4) (by omega) (first.val <<< 16 + second.val <<< 8 + third.val) with ⟨dest, left, tail, ran, split, ends⟩
    refine ⟨first :: second :: third :: dest, left, tail, ?_, ?_, ?_⟩
    · rw [encode, decodeLoop_chunk aligned first second third, ran]
      rfl
    · rw [split]
      rfl
    · simp only [encode, List.length_cons] at ends ⊢
      rcases ends with ⟨tailEq, length, whole⟩ | ⟨byte, tailEq, byteEq, length, whole⟩ |
        ⟨one, two, tailEq, oneEq, twoEq, length, whole⟩
      · exact Or.inl ⟨tailEq, by omega, by omega⟩
      · exact Or.inr (Or.inl ⟨byte, tailEq, byteEq, by omega, by omega⟩)
      · exact Or.inr (Or.inr ⟨one, two, tailEq, oneEq, twoEq, by omega, by omega⟩)
  | case2 first second =>
    rcases decodeLoop_two aligned first second before with ⟨left, ran, firstEq, secondEq⟩
    refine ⟨[], left, [first, second], ?_, rfl, ?_⟩
    · rw [encode]
      exact ran
    · exact Or.inr (Or.inr ⟨first, second, rfl, firstEq, secondEq, rfl, rfl⟩)
  | case3 first =>
    rcases decodeLoop_one aligned first before with ⟨left, ran, firstEq⟩
    refine ⟨[], left, [first], ?_, rfl, ?_⟩
    · rw [encode]
      exact ran
    · exact Or.inr (Or.inl ⟨first, rfl, firstEq, rfl, rfl⟩)
  | case4 => exact ⟨[], before, [], rfl, rfl, Or.inl ⟨rfl, rfl, rfl⟩⟩

theorem padChar_not_mem_encode : padChar ∉ encode false bytes := by
  induction bytes using encode.induct with
  | case1 first second third rest ih =>
    have small := (chunk_bytes first second third).1
    simp only [encode, List.mem_cons, not_or]
    exact ⟨(charAt_ne_padChar small).symm, (charAt_ne_padChar (mask_lt _)).symm,
      (charAt_ne_padChar (mask_lt _)).symm, (charAt_ne_padChar (mask_lt _)).symm, ih⟩
  | case2 first second =>
    have small := (chunk_bytes_two first second).1
    simp only [encode, Bool.false_eq_true, if_false, List.append_nil, List.mem_cons,
      List.not_mem_nil, or_false, not_or]
    exact ⟨(charAt_ne_padChar small).symm, (charAt_ne_padChar (mask_lt _)).symm,
      (charAt_ne_padChar (mask_lt _)).symm⟩
  | case3 first =>
    have small := (chunk_bytes_one first).1
    simp only [encode, Bool.false_eq_true, if_false, List.append_nil, List.mem_cons,
      List.not_mem_nil, or_false, not_or]
    exact ⟨(charAt_ne_padChar small).symm, (charAt_ne_padChar (mask_lt _)).symm⟩
  | case4 => exact List.not_mem_nil

theorem trimPadding_encode : trimPadding (encode false bytes) = encode false bytes := by
  unfold trimPadding
  apply if_neg
  intro last
  exact padChar_not_mem_encode bytes (List.mem_of_getLast? last)

theorem decode_encode : decode (encode false bytes) = .ok bytes := by
  rcases decodeLoop_encode bytes (Nat.zero_mod 4) 0 with ⟨dest, left, tail, ran, split, ends⟩
  rw [decode, trimPadding_encode, trimPadding_encode, ran]
  simp only [bind, Except.bind, decodedSizeMax]
  generalize encode false bytes = text at ends
  rcases ends with ⟨tailEq, length, whole⟩ | ⟨first, tailEq, firstEq, length, whole⟩ |
    ⟨first, second, tailEq, firstEq, secondEq, length, whole⟩
  · have aligned : text.length % 4 = 0 := by omega
    have size : dest.length = (text.length + 3) / 4 * 3 := by omega
    rw [tailEq, List.append_nil] at split
    rw [aligned, split, size]
    simp [mojAssert]
  · have aligned : text.length % 4 = 2 := by omega
    have size : (dest ++ [first]).length = (text.length + 3) / 4 * 3 - 2 := by
      rw [List.length_append, List.length_singleton]
      omega
    rw [tailEq] at split
    rw [aligned, split]
    simp only [firstEq, size]
    simp [mojAssert]
  · have aligned : text.length % 4 = 3 := by omega
    have size : (dest ++ [first, second]).length = (text.length + 3) / 4 * 3 - 1 := by
      rw [List.length_append, List.length_cons, List.length_singleton]
      omega
    rw [tailEq] at split
    rw [aligned, split]
    simp only [firstEq, secondEq, size]
    simp [mojAssert]

end Db8.Core.MojBase64
