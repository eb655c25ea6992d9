import Db8.Core.Base64

/-!
# Base 64 over buffers

The encoder and the decoder as they are called: any bytes may come in, the caller's buffer has a
size, and the decoder returns the size it computed beside the bytes it wrote. The size is taken
from the length before the padding is trimmed, so it is right only where the padding fits what it
ends.
-/

set_option autoImplicit false

namespace Db8.Core.MojBase64

open Db8.Bytes

/-- `MojBase64EncodeImpl` with this character set: what it writes to a buffer of `bufLen`. -/
def encodeImpl (src : ByteString) (bufLen : Nat) (pad : Bool) : Except MojErr ByteString :=
  if bufLen < encodedLenMax src.length then .error .insufficientBuf
  else .ok ((encode pad src).map (·.val))

/-- A character from 128 on is no index of the table either: it is widened with its sign. -/
def decodeVal (c : Byte) : Except MojErr Nat :=
  match decodeVals[c.val]? with
  | none => .error .invalidBase64Data
  | some val => if val = 255 then .error .invalidBase64Data else .ok val

/-- The loop of `MojBase64DecodeImpl`: the bytes of the full chunks, and the last chunk. -/
def decodeChunks : ByteString → Nat → Nat → Except MojErr (ByteString × Nat)
  | [], _, chunk => .ok ([], chunk)
  | c :: rest, place, chunk => do
    let val ← decodeVal c
    match place % 4 with
    | 0 => decodeChunks rest (place + 1) (val <<< 18)
    | 1 => decodeChunks rest (place + 1) (chunk ||| val <<< 12)
    | 2 => decodeChunks rest (place + 1) (chunk ||| val <<< 6)
    | _ =>
      let chunk := chunk ||| val
      let (dest, left) ← decodeChunks rest (place + 1) chunk
      .ok (Fin.ofNat 256 (chunk >>> 16) :: Fin.ofNat 256 (chunk >>> 8) ::
        Fin.ofNat 256 chunk :: dest, left)

def trimPad (src : ByteString) : ByteString :=
  if src.getLast? = some padChar.val then src.dropLast else src

/-- `MojBase64DecodeImpl` as released: the bytes written and `sizeOut`. -/
def decodeImpl (src : ByteString) (bufSize : Nat) : Except MojErr (ByteString × Nat) :=
  let sizeOut := decodedSizeMax src.length
  if bufSize < sizeOut then .error .insufficientBuf
  else do
    let trimmed := trimPad (trimPad src)
    let (dest, chunk) ← decodeChunks trimmed 0 0
    match trimmed.length % 4 with
    | 0 => .ok (dest, sizeOut)
    | 2 => .ok (dest ++ [Fin.ofNat 256 (chunk >>> 16)], sizeOut - 2)
    | 3 => .ok (dest ++ [Fin.ofNat 256 (chunk >>> 16), Fin.ofNat 256 (chunk >>> 8)], sizeOut - 1)
    | _ => .error .invalidBase64Data

def base64Encode (vec : ByteString) (pad : Bool) : Except MojErr ByteString :=
  encodeImpl vec (encodedLenMax vec.length) pad

/-- `MojString::base64Decode`: the vector has been resized to the largest size, and so is filled
with zeros, before the decoder writes to it. -/
def base64Decode (str : ByteString) : Except MojErr ByteString := do
  let (dest, size) ← decodeImpl str (decodedSizeMax str.length)
  .ok ((dest ++ List.replicate (decodedSizeMax str.length - dest.length) 0).take size)

section Chars

theorem decodeVal_char (c : MojChar) : decodeVal c.val = decodeChar c := rfl

theorem decodeChunks_chars (src : MojString) (place chunk : Nat) :
    decodeChunks (src.map (·.val)) place chunk = decodeLoop src place chunk := by
  induction src generalizing place chunk with
  | nil => rfl
  | cons c rest ih =>
    have same : decodeChunks (rest.map (·.val)) = decodeLoop rest :=
      funext fun place => funext fun chunk => ih place chunk
    rw [List.map_cons, decodeChunks, same, decodeVal_char]
    rfl

theorem trimPad_append (src : ByteString) : trimPad (src ++ [padChar.val]) = src := by
  simp [trimPad]

theorem trimPad_encode (bytes : ByteString) :
    trimPad ((encode false bytes).map (·.val)) = (encode false bytes).map (·.val) := by
  unfold trimPad
  apply if_neg
  intro last
  rcases List.mem_map.mp (List.mem_of_getLast? last) with ⟨c, found, isPad⟩
  rw [Subtype.ext isPad] at found
  exact padChar_not_mem_encode bytes found

end Chars

section RoundTrip

/-- The padding the encoder puts after what it writes without. -/
def padding (length : Nat) : ByteString :=
  match length % 3 with
  | 1 => [padChar.val, padChar.val]
  | 2 => [padChar.val]
  | _ => []

theorem padding_step (length : Nat) : padding (length + 3) = padding length := by
  unfold padding
  rw [Nat.add_mod_right]

theorem encode_padded (bytes : ByteString) :
    (encode true bytes).map (·.val) = (encode false bytes).map (·.val) ++ padding bytes.length := by
  induction bytes using encode.induct with
  | case1 first second third rest ih =>
    have longer : (first :: second :: third :: rest).length = rest.length + 3 := rfl
    rw [longer, padding_step]
    simp only [encode, List.map_cons, ih, List.cons_append]
  | case2 first second => simp [encode, padding]
  | case3 first => simp [encode, padding]
  | case4 => rfl

theorem length_padding (length : Nat) : (padding length).length = (3 - length % 3) % 3 := by
  have cases3 : length % 3 = 0 ∨ length % 3 = 1 ∨ length % 3 = 2 := by omega
  unfold padding
  rcases cases3 with left | left | left <;> rw [left] <;> rfl

theorem trimPad_padding (bytes : ByteString) :
    trimPad (trimPad ((encode false bytes).map (·.val) ++ padding bytes.length)) =
      (encode false bytes).map (·.val) := by
  unfold padding
  split
  · have apart : (encode false bytes).map (·.val) ++ [padChar.val, padChar.val] =
        ((encode false bytes).map (·.val) ++ [padChar.val]) ++ [padChar.val] := by simp
    rw [apart, trimPad_append, trimPad_append]
  · rw [trimPad_append, trimPad_encode]
  · rw [List.append_nil, trimPad_encode, trimPad_encode]

theorem decodeImpl_encode (bytes : ByteString) (pad : Bool) (bufSize : Nat)
    (room : decodedSizeMax ((encode pad bytes).map (·.val)).length ≤ bufSize) :
    decodeImpl ((encode pad bytes).map (·.val)) bufSize = .ok (bytes, bytes.length) := by
  have trimmed : trimPad (trimPad ((encode pad bytes).map (·.val))) =
      (encode false bytes).map (·.val) := by
    cases pad with
    | false => rw [trimPad_encode, trimPad_encode]
    | true => rw [encode_padded, trimPad_padding]
  have lengths : ∃ extra, (encode pad bytes).length = (encode false bytes).length + extra ∧
      (extra = 0 ∨ extra = (3 - bytes.length % 3) % 3) := by
    cases pad with
    | false => exact ⟨0, rfl, Or.inl rfl⟩
    | true =>
      refine ⟨(padding bytes.length).length, ?_, Or.inr (length_padding bytes.length)⟩
      have padded := congrArg List.length (encode_padded bytes)
      rw [List.length_append, List.length_map, List.length_map] at padded
      exact padded
  rcases lengths with ⟨extra, lengths, fits⟩
  rcases decodeLoop_encode bytes (Nat.zero_mod 4) 0 with ⟨dest, left, tail, ran, split, ends⟩
  rw [← decodeChunks_chars] at ran
  rw [List.length_map, decodedSizeMax, lengths] at room
  unfold decodeImpl
  simp only [trimmed, ran, bind, Except.bind, List.length_map, decodedSizeMax, lengths,
    Nat.not_lt.mpr room, if_false]
  generalize (encode false bytes).length = length at ends
  rcases ends with ⟨tailEq, length4, whole⟩ | ⟨first, tailEq, firstEq, length4, whole⟩ |
    ⟨first, second, tailEq, firstEq, secondEq, length4, whole⟩
  · rw [tailEq, List.append_nil] at split
    subst split
    have rest : length % 4 = 0 := by omega
    have size : (length + extra + 3) / 4 * 3 = bytes.length := by omega
    simp only [rest, size]
  · subst split
    rw [tailEq, List.length_append, List.length_singleton] at fits ⊢
    have rest : length % 4 = 2 := by omega
    have size : (length + extra + 3) / 4 * 3 - 2 = dest.length + 1 := by omega
    simp only [rest, size, firstEq]
  · subst split
    rw [tailEq, List.length_append, List.length_cons, List.length_singleton] at fits ⊢
    have rest : length % 4 = 3 := by omega
    have size : (length + extra + 3) / 4 * 3 - 1 = dest.length + (1 + 1) := by omega
    simp only [rest, size, firstEq, secondEq]

end RoundTrip

section Order

theorem charAt_lt {val other : Nat} (less : val < other) (small : other < 64) :
    (charAt val).val < (charAt other).val := by
  have table : ∀ val other : Fin 64, val < other → (charAt val.val).val < (charAt other.val).val := by
    decide +kernel
  exact table ⟨val, Nat.lt_trans less small⟩ ⟨other, small⟩ less

theorem values_lt {chunk other : Nat} (less : chunk < other) :
    chunk >>> 18 < other >>> 18 ∨ chunk >>> 18 = other >>> 18 ∧
      (chunk >>> 12 &&& 0x3F < other >>> 12 &&& 0x3F ∨
        chunk >>> 12 &&& 0x3F = other >>> 12 &&& 0x3F ∧
        (chunk >>> 6 &&& 0x3F < other >>> 6 &&& 0x3F ∨
          chunk >>> 6 &&& 0x3F = other >>> 6 &&& 0x3F ∧ chunk &&& 0x3F < other &&& 0x3F)) := by
  rw [show (0x3F : Nat) = 2 ^ 6 - 1 from rfl]
  simp only [Nat.and_two_pow_sub_one_eq_mod, Nat.shiftRight_eq_div_pow]
  omega

variable {left right : ByteString}

theorem cons_charAt_lt {val other : Nat} (small : other < 64)
    (less : val < other ∨ val = other ∧ left < right) :
    (charAt val).val :: left < (charAt other).val :: right := by
  apply List.cons_lt_cons_iff.mpr
  rcases less with lower | ⟨same, later⟩
  · exact Or.inl (charAt_lt lower small)
  · exact Or.inr ⟨by rw [same], later⟩

/-- The four characters of a greater chunk come after, whatever follows either. -/
theorem chunk_chars_lt {chunk other : Nat} (less : chunk < other) (small : other >>> 18 < 64)
    (left right : ByteString) :
    (charAt (chunk >>> 18)).val :: (charAt (chunk >>> 12 &&& 0x3F)).val ::
        (charAt (chunk >>> 6 &&& 0x3F)).val :: (charAt (chunk &&& 0x3F)).val :: left <
      (charAt (other >>> 18)).val :: (charAt (other >>> 12 &&& 0x3F)).val ::
        (charAt (other >>> 6 &&& 0x3F)).val :: (charAt (other &&& 0x3F)).val :: right := by
  rcases values_lt less with first | ⟨first, second | ⟨second, third | ⟨third, fourth⟩⟩⟩
  · exact cons_charAt_lt small (Or.inl first)
  · exact cons_charAt_lt small (Or.inr ⟨first, cons_charAt_lt (mask_lt _) (Or.inl second)⟩)
  · exact cons_charAt_lt small (Or.inr ⟨first, cons_charAt_lt (mask_lt _)
      (Or.inr ⟨second, cons_charAt_lt (mask_lt _) (Or.inl third)⟩)⟩)
  · exact cons_charAt_lt small (Or.inr ⟨first, cons_charAt_lt (mask_lt _)
      (Or.inr ⟨second, cons_charAt_lt (mask_lt _)
        (Or.inr ⟨third, cons_charAt_lt (mask_lt _) (Or.inl fourth)⟩)⟩)⟩)

theorem chunk_lt {first second third other next last : Byte}
    (less : first < other ∨ first = other ∧ (second < next ∨ second = next ∧ third < last)) :
    first.val <<< 16 + second.val <<< 8 + third.val <
      other.val <<< 16 + next.val <<< 8 + last.val := by
  have secondLt := second.isLt
  have thirdLt := third.isLt
  simp only [Fin.lt_def, Fin.ext_iff] at less
  simp only [Nat.shiftLeft_eq]
  omega

theorem low_values_two (first second : Byte) :
    (first.val <<< 16 + second.val <<< 8) &&& 0x3F = 0 := by
  rw [show (0x3F : Nat) = 2 ^ 6 - 1 from rfl, Nat.and_two_pow_sub_one_eq_mod]
  simp only [Nat.shiftLeft_eq]
  omega

theorem low_values_one (first : Byte) :
    first.val <<< 16 >>> 6 &&& 0x3F = 0 ∧ first.val <<< 16 &&& 0x3F = 0 := by
  rw [show (0x3F : Nat) = 2 ^ 6 - 1 from rfl, Nat.and_two_pow_sub_one_eq_mod,
    Nat.and_two_pow_sub_one_eq_mod]
  simp only [Nat.shiftLeft_eq, Nat.shiftRight_eq_div_pow]
  omega

theorem encode_lt_two {first second other next : Byte}
    (less : first < other ∨ first = other ∧ second < next) :
    (encode false [first, second]).map (·.val) < (encode false [other, next]).map (·.val) := by
  have small := (chunk_bytes_two other next).1
  have lower : first.val <<< 16 + second.val <<< 8 < other.val <<< 16 + next.val <<< 8 := by
    have secondLt := second.isLt
    simp only [Fin.lt_def, Fin.ext_iff] at less
    simp only [Nat.shiftLeft_eq]
    omega
  have values := values_lt lower
  rw [low_values_two, low_values_two] at values
  simp only [encode, Bool.false_eq_true, if_false, List.append_nil, List.map_cons, List.map_nil]
  rcases values with at1 | ⟨same1, at2 | ⟨same2, at3 | ⟨_, at4⟩⟩⟩
  · exact cons_charAt_lt small (Or.inl at1)
  · exact cons_charAt_lt small (Or.inr ⟨same1, cons_charAt_lt (mask_lt _) (Or.inl at2)⟩)
  · exact cons_charAt_lt small (Or.inr ⟨same1, cons_charAt_lt (mask_lt _)
      (Or.inr ⟨same2, cons_charAt_lt (mask_lt _) (Or.inl at3)⟩)⟩)
  · exact absurd at4 (Nat.lt_irrefl 0)

theorem encode_lt_one {first other : Byte} (less : first < other) :
    (encode false [first]).map (·.val) < (encode false [other]).map (·.val) := by
  have small := (chunk_bytes_one other).1
  have lower : first.val <<< 16 < other.val <<< 16 := by
    simp only [Fin.lt_def] at less
    simp only [Nat.shiftLeft_eq]
    omega
  have values := values_lt lower
  rw [(low_values_one first).1, (low_values_one first).2, (low_values_one other).1,
    (low_values_one other).2] at values
  simp only [encode, Bool.false_eq_true, if_false, List.append_nil, List.map_cons, List.map_nil]
  rcases values with at1 | ⟨same1, at2 | ⟨_, at3 | ⟨_, at4⟩⟩⟩
  · exact cons_charAt_lt small (Or.inl at1)
  · exact cons_charAt_lt small (Or.inr ⟨same1, cons_charAt_lt (mask_lt _) (Or.inl at2)⟩)
  · exact absurd at3 (Nat.lt_irrefl 0)
  · exact absurd at4 (Nat.lt_irrefl 0)

theorem encode_lt (same : left.length = right.length) (less : left < right) :
    (encode false left).map (·.val) < (encode false right).map (·.val) := by
  induction left using encode.induct generalizing right with
  | case1 first second third rest ih =>
    rcases right with _ | ⟨other, _ | ⟨next, _ | ⟨last, others⟩⟩⟩
    · simp at same
    · simp at same
    · simp at same
    · have small := (chunk_bytes other next last).1
      simp only [List.length_cons, Nat.add_right_cancel_iff] at same
      simp only [List.cons_lt_cons_iff] at less
      simp only [encode, List.map_cons]
      rcases less with lower | ⟨rfl, lower | ⟨rfl, lower | ⟨rfl, later⟩⟩⟩
      · exact chunk_chars_lt (chunk_lt (Or.inl lower)) small _ _
      · exact chunk_chars_lt (chunk_lt (Or.inr ⟨rfl, Or.inl lower⟩)) small _ _
      · exact chunk_chars_lt (chunk_lt (Or.inr ⟨rfl, Or.inr ⟨rfl, lower⟩⟩)) small _ _
      · have rests := ih same later
        simp only [List.cons_lt_cons_iff, true_and, rests, or_true]
  | case2 first second =>
    rcases right with _ | ⟨other, _ | ⟨next, _ | ⟨last, others⟩⟩⟩
    · simp at same
    · simp at same
    · simp only [List.cons_lt_cons_iff] at less
      apply encode_lt_two
      rcases less with lower | ⟨equal, lower | ⟨_, nothing⟩⟩
      · exact Or.inl lower
      · exact Or.inr ⟨equal, lower⟩
      · cases nothing
    · simp at same
  | case3 first =>
    rcases right with _ | ⟨other, _ | ⟨next, others⟩⟩
    · simp at same
    · rcases List.cons_lt_cons_iff.mp less with lower | ⟨_, nothing⟩
      · exact encode_lt_one lower
      · cases nothing
    · simp at same
  | case4 =>
    cases right with
    | nil => exact absurd less (lt_irrefl _)
    | cons other others => simp at same

theorem encode_lt_iff (same : left.length = right.length) :
    (encode false left).map (·.val) < (encode false right).map (·.val) ↔ left < right := by
  constructor
  · intro texts
    rcases lt_trichotomy left right with less | equal | greater
    · exact less
    · rw [equal] at texts
      exact absurd texts (lt_irrefl _)
    · exact absurd texts (lt_asymm (encode_lt same.symm greater))
  · exact encode_lt same

end Order

section Sizes

theorem length_decodeChunks {src : ByteString} {place chunk : Nat} {out : ByteString × Nat}
    (ran : decodeChunks src place chunk = .ok out) :
    out.1.length = (place % 4 + src.length) / 4 * 3 := by
  induction src generalizing place chunk out with
  | nil =>
    cases ran
    have low := Nat.mod_lt place (by decide : 4 > 0)
    simp only [List.length_nil]
    omega
  | cons c rest ih =>
    rw [decodeChunks] at ran
    rcases except_bind_ok ran with ⟨val, _, ran⟩
    rw [List.length_cons]
    have places : place % 4 = 0 ∨ place % 4 = 1 ∨ place % 4 = 2 ∨ place % 4 = 3 := by omega
    rcases places with at0 | at1 | at2 | at3
    · rw [at0] at ran
      have length := ih ran
      omega
    · rw [at1] at ran
      have length := ih ran
      omega
    · rw [at2] at ran
      have length := ih ran
      omega
    · rw [at3] at ran
      rcases except_bind_ok ran with ⟨last, later, ran⟩
      cases ran
      have length := ih later
      simp only [List.length_cons]
      omega

theorem length_trimPad (src : ByteString) : (trimPad src).length ≤ src.length ∧
    src.length ≤ (trimPad src).length + 1 := by
  unfold trimPad
  split
  · rw [List.length_dropLast]
    omega
  · omega

/-- The padding fits what it ends: none after full chunks, at most one character after three. -/
def PaddingFits (src : ByteString) : Prop :=
  let trimmed := trimPad (trimPad src)
  (trimmed.length % 4 = 0 → trimmed = src) ∧
    (trimmed.length % 4 = 3 → src.length ≤ trimmed.length + 1)

theorem trimPad_eq_of_length {src : ByteString} (same : (trimPad (trimPad src)).length = src.length) :
    trimPad (trimPad src) = src := by
  have first := length_trimPad src
  have second := length_trimPad (trimPad src)
  have kept : ∀ text : ByteString, (trimPad text).length = text.length → trimPad text = text := by
    intro text lengths
    unfold trimPad at lengths ⊢
    split
    next last =>
      rw [if_pos last, List.length_dropLast] at lengths
      have nonempty : text ≠ [] := by
        rintro rfl
        cases last
      have positive := List.length_pos_iff.mpr nonempty
      omega
    next => rfl
  have once := kept src (by omega)
  rw [once]
  exact once

theorem decodeImpl_size {src written : ByteString} {bufSize sizeOut : Nat}
    (ran : decodeImpl src bufSize = .ok (written, sizeOut)) :
    sizeOut ≤ decodedSizeMax src.length ∧ (sizeOut = written.length ↔ PaddingFits src) := by
  have lengths : (trimPad (trimPad src)).length = src.length ↔ trimPad (trimPad src) = src := by
    constructor
    · exact trimPad_eq_of_length
    · exact congrArg List.length
  have first := length_trimPad src
  have second := length_trimPad (trimPad src)
  unfold decodeImpl at ran
  dsimp only at ran
  split at ran
  · cases ran
  rcases except_bind_ok ran with ⟨⟨dest, chunk⟩, looped, ran⟩
  have wrote := length_decodeChunks looped
  unfold PaddingFits
  simp only [← lengths] 
  generalize (trimPad (trimPad src)).length = length at *
  have rests : length % 4 = 0 ∨ length % 4 = 1 ∨ length % 4 = 2 ∨ length % 4 = 3 := by omega
  unfold decodedSizeMax at ran ⊢
  rcases rests with rest | rest | rest | rest
  · simp only [rest] at ran
    cases ran
    simp only at wrote
    omega
  · simp only [rest] at ran
    cases ran
  · simp only [rest] at ran
    cases ran
    simp only [List.length_append, List.length_singleton] at wrote ⊢
    omega
  · simp only [rest] at ran
    cases ran
    simp only [List.length_append, List.length_cons, List.length_nil] at wrote ⊢
    omega

end Sizes

theorem encodeImpl_of_room {bytes : ByteString} {bufLen : Nat}
    (room : encodedLenMax bytes.length ≤ bufLen) (pad : Bool) :
    encodeImpl bytes bufLen pad = .ok ((encode pad bytes).map (·.val)) :=
  if_neg (Nat.not_lt.mpr room)

theorem base64Decode_encode (bytes : ByteString) (pad : Bool) :
    base64Decode ((encode pad bytes).map (·.val)) = .ok bytes := by
  unfold base64Decode
  rw [decodeImpl_encode bytes pad _ (Nat.le_refl _)]
  simp only [bind, Except.bind, List.take_left]

/-- Encodings of both kinds decode to what was encoded, those without padding keep its order, and
of all the texts the decoder accepts it gets the size right for those whose padding fits. -/
theorem base64_laws (bytes src : ByteString) (bufLen bufSize : Nat) :
    (∀ pad, encodedLenMax bytes.length ≤ bufLen →
      ∃ text, encodeImpl bytes bufLen pad = .ok text ∧ base64Encode bytes pad = .ok text ∧
        base64Decode text = .ok bytes ∧
        (decodedSizeMax text.length ≤ bufSize →
          decodeImpl text bufSize = .ok (bytes, bytes.length))) ∧
    (∀ other, bytes.length = other.length →
      ∃ text otherText, base64Encode bytes false = .ok text ∧
        base64Encode other false = .ok otherText ∧ (text < otherText ↔ bytes < other)) ∧
    ∀ written sizeOut, decodeImpl src bufSize = .ok (written, sizeOut) →
      (sizeOut = written.length ∧ sizeOut ≤ decodedSizeMax src.length ↔ PaddingFits src) := by
  refine ⟨?_, ?_, ?_⟩
  · intro pad room
    refine ⟨_, encodeImpl_of_room room pad, encodeImpl_of_room (Nat.le_refl _) pad,
      base64Decode_encode bytes pad, ?_⟩
    intro large
    exact decodeImpl_encode bytes pad bufSize large
  · intro other same
    exact ⟨_, _, encodeImpl_of_room (Nat.le_refl _) false, encodeImpl_of_room (Nat.le_refl _) false,
      encode_lt_iff same⟩
  · intro written sizeOut ran
    rcases decodeImpl_size ran with ⟨bounded, right⟩
    constructor
    · intro both
      exact right.mp both.1
    · intro fits
      exact ⟨right.mpr fits, bounded⟩

theorem base64_laws_sample :
    base64Decode [122, 107, 61, 61] = .ok [255] ∧
      (∃ leftText rightText, base64Encode [0] false = .ok leftText ∧
        base64Encode [255] false = .ok rightText ∧ leftText < rightText) ∧
      PaddingFits [122, 107, 61] ∧ ¬ PaddingFits [122, 107, 122, 61, 61] := by
  refine ⟨?_, ?_, ?_, ?_⟩
  · rcases (base64_laws [255] [] 4 0).1 true (by decide) with ⟨text, encoded, _, decoded, _⟩
    have textEq : encodeImpl [255] 4 true = .ok [122, 107, 61, 61] := by decide +kernel
    rw [textEq] at encoded
    cases encoded
    exact decoded
  · rcases (base64_laws [0] [] 0 0).2.1 [255] rfl with ⟨leftText, rightText, leftEq, rightEq, order⟩
    exact ⟨leftText, rightText, leftEq, rightEq, order.mpr (by decide)⟩
  · have ran : decodeImpl [122, 107, 61] 3 = .ok ([255], 1) := by decide +kernel
    exact ((base64_laws [] _ 0 _).2.2 _ _ ran).mp (by decide)
  · have ran : decodeImpl [122, 107, 122, 61, 61] 6 = .ok ([255, 15], 5) := by decide +kernel
    intro fits
    exact absurd (((base64_laws [] _ 0 _).2.2 _ _ ran).mpr fits) (by decide)

/-- A padding character alone is three bytes long to the decoder, which writes none. -/
theorem decodeImpl_padding_alone :
    ¬ ∀ src bufSize written sizeOut, decodeImpl src bufSize = .ok (written, sizeOut) →
      sizeOut = written.length ∧ sizeOut ≤ decodedSizeMax src.length := by
  intro all
  have ran : decodeImpl [61] 3 = .ok ([], 3) := by decide +kernel
  exact absurd (all [61] 3 [] 3 ran).1 (by decide)

end Db8.Core.MojBase64
