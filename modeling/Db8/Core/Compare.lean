import Db8.Core.Object
import Mathlib.Data.Int.Order.Basic

/-!
# The order of objects and of their bytes

`MojObject::compare` and the byte-wise `MojLexicalCompare`. One pair of encodings decides a
comparison when it settles it before the bytes behind it are looked at, and leaves it to them when
the two are equal; this composes along concatenation, so it goes through an object part by part.
-/

set_option autoImplicit false

namespace Db8.Core

open Db8.Bytes

/-- `MojLexicalCompare`. Bytes that agree are dropped from both sides, so what is left at the end
differs in length as the whole did; the difference is cut to an `int`. -/
def lexicalCompare : ByteString → ByteString → Int
  | byte :: data1, other :: data2 =>
    if byte ≠ other then (byte.val : Int) - other.val else lexicalCompare data1 data2
  | data1, data2 => (BitVec.ofInt 32 ((data1.length : Int) - data2.length)).toInt

def mojComp (val1 val2 : Int) : Int :=
  if val1 < val2 then -1 else if val2 < val1 then 1 else 0

/-- `MojStrCmp`: the first characters that differ as bytes, the end counting as zero. -/
def strCmp : MojString → MojString → Int
  | [], [] => 0
  | [], other :: _ => -(other.val.val : Int)
  | first :: _, [] => first.val.val
  | first :: str1, other :: str2 =>
    if first = other then strCmp str1 str2 else (first.val.val : Int) - other.val.val

def ObjectType.rank : ObjectType → Int
  | .null => 1
  | .object => 2
  | .array => 3
  | .string => 4
  | .bool => 5
  | .decimal => 6
  | .int => 7

namespace MojObject

mutual

def compare : MojObject → MojObject → Int
  | .null, .null => 0
  | .object props, .object rhs => compareProps props rhs
  | .array vals, .array rhs => compareVals vals rhs
  | .string val, .string rhs => strCmp val rhs
  | .bool val, .bool rhs => (if val then 1 else 0) - (if rhs then 1 else 0)
  | .decimal rep, .decimal rhs => mojComp rep.toInt rhs.toInt
  | .int val, .int rhs => mojComp val.toInt rhs.toInt
  | obj, rhs => obj.type.rank - rhs.type.rank

/-- `MojRbTreeBase::compare`, a name before its value. -/
def compareProps : List (MojString × MojObject) → List (MojString × MojObject) → Int
  | [], [] => 0
  | [], _ :: _ => -1
  | _ :: _, [] => 1
  | (name, val) :: props, (otherName, otherVal) :: others =>
    if strCmp name otherName ≠ 0 then strCmp name otherName
    else if compare val otherVal ≠ 0 then compare val otherVal
    else compareProps props others

/-- `MojVector::compare`. -/
def compareVals : List MojObject → List MojObject → Int
  | [], [] => 0
  | [], _ :: _ => -1
  | _ :: _, [] => 1
  | val :: vals, other :: others =>
    if compare val other ≠ 0 then compare val other else compareVals vals others

end

theorem compare_of_type_ne {left right : MojObject} (types : left.type ≠ right.type) :
    compare left right = left.type.rank - right.type.rank := by
  cases left <;> cases right <;> first | rfl | exact absurd rfl types

end MojObject

/-! ### Deciding before the rest -/

/-- Two byte strings settle a comparison by themselves unless they are equal. -/
def Decides (comp : Int) (left right : ByteString) : Prop :=
  ∀ leftRest rightRest, (lexicalCompare (left ++ leftRest) (right ++ rightRest)).sign =
    if comp = 0 then (lexicalCompare leftRest rightRest).sign else comp.sign

theorem decides_nil : Decides 0 [] [] := by
  intro leftRest rightRest
  rfl

theorem Decides.congr {comp other : Int} {left right : ByteString}
    (decides : Decides comp left right) (signs : comp.sign = other.sign) :
    Decides other left right := by
  have zero : comp = 0 ↔ other = 0 := by
    rw [← Int.sign_eq_zero_iff_zero, signs, Int.sign_eq_zero_iff_zero]
  intro leftRest rightRest
  rw [decides leftRest rightRest, signs]
  simp only [zero]

theorem Decides.append {first second : Int} {left right leftMore rightMore : ByteString}
    (front : Decides first left right) (back : Decides second leftMore rightMore) :
    Decides (if first ≠ 0 then first else second) (left ++ leftMore) (right ++ rightMore) := by
  intro leftRest rightRest
  rw [List.append_assoc, List.append_assoc, front]
  by_cases settled : first = 0
  · simp only [settled, ne_eq, not_true_eq_false, if_true, if_false]
    exact back leftRest rightRest
  · simp only [settled, ne_eq, not_false_eq_true, if_true, if_false]

theorem decides_byte (left right : Byte) :
    Decides ((left.val : Int) - right.val) [left] [right] := by
  intro leftRest rightRest
  rw [List.singleton_append, List.singleton_append, lexicalCompare]
  by_cases same : left = right
  · simp [same]
  · have apart : (left.val : Int) - right.val ≠ 0 := by
      rw [Fin.ext_iff] at same
      omega
    rw [if_pos same, if_neg apart]

theorem decides_cons_ne {left right : Byte} (apart : left ≠ right) (leftMore rightMore : ByteString) :
    Decides ((left.val : Int) - right.val) (left :: leftMore) (right :: rightMore) := by
  intro leftRest rightRest
  have nonzero : (left.val : Int) - right.val ≠ 0 := by
    rw [ne_eq, Fin.ext_iff] at apart
    omega
  rw [List.cons_append, List.cons_append, lexicalCompare, if_pos apart, if_neg nonzero]

theorem Decides.cons {comp : Int} {left right : ByteString} (decides : Decides comp left right)
    (byte : Byte) : Decides comp (byte :: left) (byte :: right) := by
  intro leftRest rightRest
  rw [List.cons_append, List.cons_append, lexicalCompare, if_neg (by simp)]
  exact decides leftRest rightRest

theorem Decides.sign {comp : Int} {left right : ByteString} (decides : Decides comp left right) :
    (lexicalCompare left right).sign = comp.sign := by
  have whole := decides [] []
  rw [List.append_nil, List.append_nil] at whole
  rw [whole]
  split_ifs with zero
  · rw [zero]
    rfl
  · rfl

theorem sign_sub_of_lt {left right : Int} (below : left < right) : (left - right).sign = -1 :=
  Int.sign_eq_neg_one_of_neg (by omega)

theorem sign_sub_of_gt {left right : Int} (above : right < left) : (left - right).sign = 1 :=
  Int.sign_eq_one_of_pos (by omega)

theorem sign_sub_nat {left right : Nat} (high : left / 256 ≠ right / 256) :
    ((left / 256 : Nat) - (right / 256 : Nat) : Int).sign = ((left : Int) - right).sign := by
  rcases Nat.lt_or_gt_of_ne high with below | above
  · rw [sign_sub_of_lt (by omega), sign_sub_of_lt (by omega)]
  · rw [sign_sub_of_gt (by omega), sign_sub_of_gt (by omega)]

namespace MojObjectWriter

theorem decides_bytesBE (count : Nat) {left right : Nat} (leftFits : left < 256 ^ count)
    (rightFits : right < 256 ^ count) :
    Decides ((left : Int) - right) (bytesBE count left) (bytesBE count right) := by
  induction count generalizing left right with
  | zero =>
    have none : ((left : Int) - right) = 0 := by omega
    rw [none]
    exact decides_nil
  | succ count ih =>
    rw [Nat.pow_succ] at leftFits rightFits
    have high := @ih (left / 256) (right / 256) (by omega) (by omega)
    have low := decides_byte (Fin.ofNat 256 left) (Fin.ofNat 256 right)
    have leftLow : (Fin.ofNat 256 left).val = left % 256 := rfl
    have rightLow : (Fin.ofNat 256 right).val = right % 256 := rfl
    apply (high.append low).congr
    split_ifs with apart
    · exact sign_sub_nat (by omega)
    · rw [leftLow, rightLow]
      congr 1
      omega

theorem decides_charBytes (left right : MojString) :
    Decides (strCmp left right) (charBytes left ++ [0]) (charBytes right ++ [0]) := by
  induction left generalizing right with
  | nil =>
    cases right with
    | nil => exact decides_nil.cons 0
    | cons other right =>
      have first := decides_cons_ne (Ne.symm other.property) [] (charBytes right ++ [0])
      apply first.congr
      rw [strCmp]
      congr 1
      exact Int.zero_sub _
  | cons first left ih =>
    cases right with
    | nil =>
      have settled := decides_cons_ne first.property (charBytes left ++ [0]) []
      apply settled.congr
      rw [strCmp]
      congr 1
    | cons other right =>
      rw [strCmp]
      by_cases same : first = other
      · rw [if_pos same, same]
        exact (ih right).cons other.val
      · rw [if_neg same]
        have apart : first.val ≠ other.val := fun bytes => same (Subtype.ext bytes)
        exact decides_cons_ne apart (charBytes left ++ [0]) (charBytes right ++ [0])

theorem decides_stringValue (left right : MojString) :
    Decides (strCmp left right) (stringValue (charBytes left)) (stringValue (charBytes right)) :=
  (decides_charBytes left right).cons 4

theorem sign_mojComp (left right : Int) : (mojComp left right).sign = (left - right).sign := by
  unfold mojComp
  split_ifs with below above
  · rw [sign_sub_of_lt below]
    rfl
  · rw [sign_sub_of_gt above]
    rfl
  · rw [show left - right = 0 by omega]

variable {left right : MojInt64}

/-- Two's complement keeps the order among numbers of one sign. -/
theorem sub_toNat_of_msb_eq (signs : left.msb = right.msb) :
    (left.toNat : Int) - right.toNat = left.toInt - right.toInt := by
  rw [BitVec.toInt_eq_msb_cond, BitVec.toInt_eq_msb_cond, signs]
  split_ifs <;> omega

theorem toInt_lt_of_msb (negative : left.msb = true)
    (positive : right.msb = false) : left.toInt < right.toInt := by
  have leftFits := left.isLt
  rw [BitVec.toInt_eq_msb_cond, BitVec.toInt_eq_msb_cond, negative, positive]
  simp only [if_true, Bool.false_eq_true, if_false]
  omega

theorem decides_decimalValue (left right : MojInt64) :
    Decides (mojComp left.toInt right.toInt) (decimalValue left) (decimalValue right) := by
  have numbers := decides_bytesBE 8 (int64_fits left) (int64_fits right)
  unfold decimalValue
  cases leftSign : left.msb with
  | true =>
    cases rightSign : right.msb with
    | true =>
      apply (numbers.cons 7).congr
      rw [sign_mojComp, sub_toNat_of_msb_eq (leftSign.trans rightSign.symm)]
    | false =>
      have below := toInt_lt_of_msb leftSign rightSign
      apply (decides_cons_ne (show (7 : Byte) ≠ 8 by decide) _ _).congr
      rw [sign_mojComp, sign_sub_of_lt below]
      rfl
  | false =>
    cases rightSign : right.msb with
    | true =>
      have below := toInt_lt_of_msb rightSign leftSign
      apply (decides_cons_ne (show (8 : Byte) ≠ 7 by decide) _ _).congr
      rw [sign_mojComp, sign_sub_of_gt below]
      rfl
    | false =>
      apply (numbers.cons 8).congr
      rw [sign_mojComp, sub_toNat_of_msb_eq (leftSign.trans rightSign.symm)]

def InMarker (marker : Byte) (val : MojInt64) : Prop :=
  (marker = 9 ∧ val.toInt < 0) ∨ (marker = 10 ∧ val.toInt = 0) ∨
  (marker = 11 ∧ 0 < val.toInt ∧ val.toInt ≤ 0xFF) ∨
  (marker = 12 ∧ 0xFF < val.toInt ∧ val.toInt ≤ 0xFFFF) ∨
  (marker = 13 ∧ 0xFFFF < val.toInt ∧ val.toInt ≤ 0xFFFFFFFF) ∨
  (marker = 14 ∧ 0xFFFFFFFF < val.toInt)

theorem intValue_inMarker (val : MojInt64) :
    ∃ marker, intValue val = marker :: bytesBE (intWidth marker) val.toNat ∧
      val.toNat < 256 ^ intWidth marker ∧ InMarker marker val := by
  have fits := int64_fits val
  have whole := val.isLt
  have number := BitVec.toInt_eq_msb_cond val
  unfold intValue
  split_ifs with negative zero small short long
  · rw [if_pos negative] at number
    exact ⟨9, rfl, fits, Or.inl ⟨rfl, by omega⟩⟩
  all_goals rw [if_neg negative] at number
  · exact ⟨10, rfl, by rw [zero]; decide, Or.inr (Or.inl ⟨rfl, by omega⟩)⟩
  · exact ⟨11, rfl, Nat.lt_succ_of_le small, Or.inr (Or.inr (Or.inl ⟨rfl, by omega, by omega⟩))⟩
  · exact ⟨12, rfl, Nat.lt_succ_of_le short,
      Or.inr (Or.inr (Or.inr (Or.inl ⟨rfl, by omega, by omega⟩)))⟩
  · exact ⟨13, rfl, Nat.lt_succ_of_le long,
      Or.inr (Or.inr (Or.inr (Or.inr (Or.inl ⟨rfl, by omega, by omega⟩))))⟩
  · exact ⟨14, rfl, fits, Or.inr (Or.inr (Or.inr (Or.inr (Or.inr ⟨rfl, by omega⟩))))⟩

theorem msb_eq_decide (val : MojInt64) : val.msb = decide (val.toInt < 0) := by
  have whole := val.isLt
  have number := BitVec.toInt_eq_msb_cond val
  cases sign : val.msb with
  | true =>
    rw [if_pos sign] at number
    simp only [true_eq_decide_iff]
    omega
  | false =>
    rw [if_neg (by simp [sign])] at number
    simp only [false_eq_decide_iff]
    omega

theorem sign_marker {leftMarker rightMarker : Byte} (leftIn : InMarker leftMarker left)
    (rightIn : InMarker rightMarker right) (apart : leftMarker ≠ rightMarker) :
    ((leftMarker.val : Int) - rightMarker.val).sign = (left.toInt - right.toInt).sign := by
  rcases lt_or_gt_of_ne apart with below | above
  · have numbers : left.toInt < right.toInt := by
      rcases leftIn with ⟨rfl, _⟩ | ⟨rfl, _⟩ | ⟨rfl, _, _⟩ | ⟨rfl, _, _⟩ | ⟨rfl, _, _⟩ | ⟨rfl, _⟩ <;>
        rcases rightIn with ⟨rfl, _⟩ | ⟨rfl, _⟩ | ⟨rfl, _, _⟩ | ⟨rfl, _, _⟩ | ⟨rfl, _, _⟩ | ⟨rfl, _⟩ <;>
          first | omega | exact absurd below (by decide)
    rw [Fin.lt_def] at below
    rw [sign_sub_of_lt (by omega), sign_sub_of_lt numbers]
  · have numbers : right.toInt < left.toInt := by
      rcases leftIn with ⟨rfl, _⟩ | ⟨rfl, _⟩ | ⟨rfl, _, _⟩ | ⟨rfl, _, _⟩ | ⟨rfl, _, _⟩ | ⟨rfl, _⟩ <;>
        rcases rightIn with ⟨rfl, _⟩ | ⟨rfl, _⟩ | ⟨rfl, _, _⟩ | ⟨rfl, _, _⟩ | ⟨rfl, _, _⟩ | ⟨rfl, _⟩ <;>
          first | omega | exact absurd above (by decide)
    rw [Fin.lt_def] at above
    rw [sign_sub_of_gt (by omega), sign_sub_of_gt numbers]

theorem negative_of_marker {marker : Byte} (leftIn : InMarker marker left)
    (rightIn : InMarker marker right) : left.msb = right.msb := by
  rw [msb_eq_decide, msb_eq_decide]
  congr 1
  rw [eq_iff_iff]
  rcases leftIn with ⟨rfl, _⟩ | ⟨rfl, _⟩ | ⟨rfl, _, _⟩ | ⟨rfl, _, _⟩ | ⟨rfl, _, _⟩ | ⟨rfl, _⟩ <;>
    rcases rightIn with ⟨same, _⟩ | ⟨same, _⟩ | ⟨same, _, _⟩ | ⟨same, _, _⟩ | ⟨same, _, _⟩ |
        ⟨same, _⟩ <;>
      first | omega | exact absurd same (by decide)

theorem decides_intValue (left right : MojInt64) :
    Decides (mojComp left.toInt right.toInt) (intValue left) (intValue right) := by
  rcases intValue_inMarker left with ⟨leftMarker, leftEq, leftFits, leftIn⟩
  rcases intValue_inMarker right with ⟨rightMarker, rightEq, rightFits, rightIn⟩
  rw [leftEq, rightEq]
  by_cases same : leftMarker = rightMarker
  · subst same
    have numbers := (decides_bytesBE (intWidth leftMarker) leftFits rightFits).cons leftMarker
    apply numbers.congr
    rw [sign_mojComp, sub_toNat_of_msb_eq (negative_of_marker leftIn rightIn)]
  · apply (decides_cons_ne same _ _).congr
    rw [sign_mojComp, sign_marker leftIn rightIn same]

theorem decides_boolValue (left right : Bool) :
    Decides ((if left then 1 else 0) - (if right then 1 else 0)) (boolValue left)
      (boolValue right) := by
  apply (decides_byte (if left then 6 else 5) (if right then 6 else 5)).congr
  cases left <;> cases right <;> rfl

theorem sign_markerType {left right : Byte} {leftType rightType : ObjectType}
    (leftKnown : markerType left = some leftType) (rightKnown : markerType right = some rightType)
    (types : leftType ≠ rightType) : left ≠ right ∧
      ((left.val : Int) - right.val).sign = (leftType.rank - rightType.rank).sign := by
  have marker : ∀ (byte : Byte) (type : ObjectType), markerType byte = some type →
      (type = .null ∧ byte.val = 1) ∨ (type = .object ∧ byte.val = 2) ∨
      (type = .array ∧ byte.val = 3) ∨ (type = .string ∧ byte.val = 4) ∨
      (type = .bool ∧ 5 ≤ byte.val ∧ byte.val ≤ 6) ∨
      (type = .decimal ∧ 7 ≤ byte.val ∧ byte.val ≤ 8) ∨
      (type = .int ∧ 9 ≤ byte.val ∧ byte.val ≤ 14) := by
    intro byte type known
    unfold markerType at known
    split_ifs at known <;> cases known <;> simp_all [Fin.ext_iff] <;> omega
  have sides : ∀ {low high : Int} {lowRank highRank : Int}, low < high → lowRank < highRank →
      (low - high).sign = (lowRank - highRank).sign ∧
        (high - low).sign = (highRank - lowRank).sign := by
    intro low high lowRank highRank bytes ranks
    constructor
    · rw [sign_sub_of_lt bytes, sign_sub_of_lt ranks]
    · rw [sign_sub_of_gt bytes, sign_sub_of_gt ranks]
  have below : ∀ {low high : Byte} {lowType highType : ObjectType},
      markerType low = some lowType → markerType high = some highType →
      lowType.rank < highType.rank → (low.val : Int) < high.val := by
    intro low high lowType highType lowKnown highKnown ranks
    rcases marker low lowType lowKnown with ⟨rfl, _⟩ | ⟨rfl, _⟩ | ⟨rfl, _⟩ | ⟨rfl, _⟩ | ⟨rfl, _⟩ |
        ⟨rfl, _⟩ | ⟨rfl, _⟩ <;>
      rcases marker high highType highKnown with ⟨rfl, _⟩ | ⟨rfl, _⟩ | ⟨rfl, _⟩ | ⟨rfl, _⟩ |
          ⟨rfl, _⟩ | ⟨rfl, _⟩ | ⟨rfl, _⟩ <;>
        first | omega | exact absurd ranks (by decide)
  have ranks : leftType.rank ≠ rightType.rank := by
    cases leftType <;> cases rightType <;> first | decide | exact absurd rfl types
  have apart : left ≠ right := by
    rintro rfl
    rw [leftKnown] at rightKnown
    exact types (Option.some.inj rightKnown)
  apply And.intro apart
  rcases lt_or_gt_of_ne ranks with lower | higher
  · exact (sides (below leftKnown rightKnown lower) lower).1
  · exact (sides (below rightKnown leftKnown higher) higher).2

theorem decides_of_type_ne {left right : MojObject} (types : left.type ≠ right.type) :
    Decides (MojObject.compare left right) (value left) (value right) := by
  rcases value_marker left with ⟨leftMarker, leftBody, leftShape, leftKnown⟩
  rcases value_marker right with ⟨rightMarker, rightBody, rightShape, rightKnown⟩
  rcases sign_markerType leftKnown rightKnown types with ⟨apart, signs⟩
  rw [leftShape, rightShape, MojObject.compare_of_type_ne types]
  exact (decides_cons_ne apart leftBody rightBody).congr signs

theorem decides_end {marker : Byte} (starts : marker ≠ 0) (body : ByteString) :
    Decides (-1) [0] (marker :: body) ∧ Decides 1 (marker :: body) [0] := by
  have positive : (0 : Int) < marker.val := by
    rw [ne_eq, Fin.ext_iff] at starts
    have := starts
    simp only [Fin.val_zero] at this
    omega
  constructor
  · apply (decides_cons_ne (Ne.symm starts) [] body).congr
    rw [sign_sub_of_lt (by simpa using positive)]
    rfl
  · apply (decides_cons_ne starts body []).congr
    rw [sign_sub_of_gt (by simpa using positive)]
    rfl

theorem decides_end_value (obj : MojObject) (rest : ByteString) :
    Decides (-1) [0] (value obj ++ rest) ∧ Decides 1 (value obj ++ rest) [0] := by
  rcases value_marker obj with ⟨marker, body, shape, known⟩
  have starts : marker ≠ 0 := by
    rintro rfl
    simp [markerType] at known
  rw [shape]
  exact decides_end starts (body ++ rest)

mutual

/-- The bytes of two objects are ordered as the objects are, whatever stands behind them. -/
theorem decides_value (left right : MojObject) :
    Decides (MojObject.compare left right) (value left) (value right) := by
  by_cases types : left.type = right.type
  · cases left with
    | null =>
      cases right with
      | null => exact decides_byte 1 1
      | _ => simp [MojObject.type] at types
    | object props =>
      cases right with
      | object others =>
        simp only [MojObject.compare, value]
        exact (decides_propsValue props others).cons 2
      | _ => simp [MojObject.type] at types
    | array vals =>
      cases right with
      | array others =>
        simp only [MojObject.compare, value]
        exact (decides_valsValue vals others).cons 3
      | _ => simp [MojObject.type] at types
    | string val =>
      cases right with
      | string other =>
        simp only [MojObject.compare, value]
        exact decides_stringValue val other
      | _ => simp [MojObject.type] at types
    | bool val =>
      cases right with
      | bool other =>
        simp only [MojObject.compare, value]
        exact decides_boolValue val other
      | _ => simp [MojObject.type] at types
    | decimal rep =>
      cases right with
      | decimal other =>
        simp only [MojObject.compare, value]
        exact decides_decimalValue rep other
      | _ => simp [MojObject.type] at types
    | int val =>
      cases right with
      | int other =>
        simp only [MojObject.compare, value]
        exact decides_intValue val other
      | _ => simp [MojObject.type] at types
  · exact decides_of_type_ne types

theorem decides_propsValue (left right : List (MojString × MojObject)) :
    Decides (MojObject.compareProps left right) (propsValue left) (propsValue right) := by
  match left, right with
  | [], [] => exact decides_byte 0 0
  | [], (name, val) :: others => exact (decides_end (show (4 : Byte) ≠ 0 by decide) _).1
  | (name, val) :: props, [] => exact (decides_end (show (4 : Byte) ≠ 0 by decide) _).2
  | (name, val) :: props, (otherName, otherVal) :: others =>
    have names := decides_stringValue name otherName
    have vals := decides_value val otherVal
    have rests := decides_propsValue props others
    rw [MojObject.compareProps, propsValue, propsValue, List.append_assoc, List.append_assoc]
    exact names.append (vals.append rests)

theorem decides_valsValue (left right : List MojObject) :
    Decides (MojObject.compareVals left right) (valsValue left) (valsValue right) := by
  match left, right with
  | [], [] => exact decides_byte 0 0
  | [], val :: others => exact (decides_end_value val (valsValue others)).1
  | val :: vals, [] => exact (decides_end_value val (valsValue vals)).2
  | val :: vals, other :: others =>
    have first := decides_value val other
    have rests := decides_valsValue vals others
    rw [MojObject.compareVals, valsValue, valsValue]
    exact first.append rests

end

end MojObjectWriter

/-- Comparing the bytes of two objects gives the sign of comparing the objects. -/
theorem sign_lexicalCompare_value (left right : MojObject) :
    (lexicalCompare (MojObjectWriter.value left) (MojObjectWriter.value right)).sign =
      (MojObject.compare left right).sign :=
  (MojObjectWriter.decides_value left right).sign

end Db8.Core
