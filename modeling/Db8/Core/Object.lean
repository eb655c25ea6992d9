import Db8.Bytes.Lex

/-!
# Objects and their serialized form

`MojObject` as a tree of properties, and the bytes `MojObjectWriter` emits for it when no token set
is attached, which is how index keys are written. Strings are sequences of non-NUL characters: the
JSON parser refuses an escaped NUL and every string primitive stops at the first one. The writer's
code is uniquely decodable, so it is prefix-free; equality of objects is equality of their bytes.
-/

set_option autoImplicit false

namespace Db8.Core

open Db8.Bytes

abbrev MojChar := {byte : Byte // byte ≠ 0}

abbrev MojString := List MojChar

instance : LawfulBEq MojString := inferInstance

def chars (literal : List Char) : MojString :=
  literal.filterMap fun c =>
    if nonzero : Fin.ofNat 256 c.toNat ≠ 0 then some ⟨Fin.ofNat 256 c.toNat, nonzero⟩ else none

abbrev MojInt64 := BitVec 64

/-- `Undefined` is not a constructor: it only marks an absent value and is an `Option` here. -/
inductive MojObject where
  | null
  | object (props : List (MojString × MojObject))
  | array (vals : List MojObject)
  | string (val : MojString)
  | bool (val : Bool)
  | decimal (rep : MojInt64)
  | int (val : MojInt64)
deriving Inhabited

inductive ObjectType where
  | null
  | object
  | array
  | string
  | bool
  | decimal
  | int
deriving DecidableEq, Repr

def MojObject.type : MojObject → ObjectType
  | .null => .null
  | .object _ => .object
  | .array _ => .array
  | .string _ => .string
  | .bool _ => .bool
  | .decimal _ => .decimal
  | .int _ => .int

namespace MojObjectWriter

/-- The low `count` bytes of a number, most significant first. -/
def bytesBE : Nat → Nat → ByteString
  | 0, _ => []
  | count + 1, value => bytesBE count (value / 256) ++ [Fin.ofNat 256 value]

def charBytes (val : MojString) : ByteString := val.map Subtype.val

def stringValue (val : ByteString) : ByteString := 4 :: val ++ [0]

def boolValue (val : Bool) : ByteString := [if val then 6 else 5]

def decimalValue (rep : MojInt64) : ByteString :=
  (if rep.msb then 7 else 8) :: bytesBE 8 rep.toNat

def intValue (val : MojInt64) : ByteString :=
  if val.msb then 9 :: bytesBE 8 val.toNat
  else if val.toNat = 0 then [10]
  else if val.toNat ≤ 0xFF then 11 :: bytesBE 1 val.toNat
  else if val.toNat ≤ 0xFFFF then 12 :: bytesBE 2 val.toNat
  else if val.toNat ≤ 0xFFFFFFFF then 13 :: bytesBE 4 val.toNat
  else 14 :: bytesBE 8 val.toNat

mutual

def value : MojObject → ByteString
  | .null => [1]
  | .object props => 2 :: propsValue props
  | .array vals => 3 :: valsValue vals
  | .string val => stringValue (charBytes val)
  | .bool val => boolValue val
  | .decimal rep => decimalValue rep
  | .int val => intValue val

def propsValue : List (MojString × MojObject) → ByteString
  | [] => [0]
  | (name, val) :: rest => stringValue (charBytes name) ++ value val ++ propsValue rest

def valsValue : List MojObject → ByteString
  | [] => [0]
  | val :: rest => value val ++ valsValue rest

end

theorem bytesBE_length (count number : Nat) : (bytesBE count number).length = count := by
  induction count generalizing number with
  | zero => rfl
  | succ count ih => rw [bytesBE, List.length_append, ih, List.length_singleton]

theorem bytesBE_injective (count : Nat) {left right : Nat} (leftFits : left < 256 ^ count)
    (rightFits : right < 256 ^ count) (same : bytesBE count left = bytesBE count right) :
    left = right := by
  induction count generalizing left right with
  | zero => omega
  | succ count ih =>
    rw [bytesBE, bytesBE] at same
    obtain ⟨high, low⟩ := List.append_inj' same rfl
    rw [Nat.pow_succ] at leftFits rightFits
    have quotients : left / 256 = right / 256 :=
      ih (by omega) (by omega) high
    have remainders : left % 256 = right % 256 := by
      simpa [Fin.ext_iff] using low
    omega

variable {leftRest rightRest : ByteString}

theorem bytesBE_append_inj (count : Nat) {left right : Nat} (leftFits : left < 256 ^ count)
    (rightFits : right < 256 ^ count)
    (same : bytesBE count left ++ leftRest = bytesBE count right ++ rightRest) :
    left = right ∧ leftRest = rightRest := by
  obtain ⟨bytes, rests⟩ := List.append_inj same (by rw [bytesBE_length, bytesBE_length])
  exact ⟨bytesBE_injective count leftFits rightFits bytes, rests⟩

/-- A NUL-terminated run of non-NUL bytes can be split off in one way only. -/
theorem charBytes_append_inj {left right : MojString}
    (same : charBytes left ++ 0 :: leftRest = charBytes right ++ 0 :: rightRest) :
    left = right ∧ leftRest = rightRest := by
  induction left generalizing right with
  | nil =>
    cases right with
    | nil => simpa [charBytes] using same
    | cons head right =>
      simp only [charBytes, List.map_nil, List.nil_append, List.map_cons, List.cons_append,
        List.cons.injEq] at same
      exact absurd same.1.symm head.property
  | cons first left ih =>
    cases right with
    | nil =>
      simp only [charBytes, List.map_nil, List.nil_append, List.map_cons, List.cons_append,
        List.cons.injEq] at same
      exact absurd same.1 first.property
    | cons head right =>
      simp only [charBytes, List.map_cons, List.cons_append, List.cons.injEq] at same
      obtain ⟨rfl, rests⟩ := ih same.2
      exact ⟨by rw [Subtype.ext same.1], rests⟩

theorem stringValue_append_inj {left right : MojString}
    (same : stringValue (charBytes left) ++ leftRest = stringValue (charBytes right) ++ rightRest) :
    left = right ∧ leftRest = rightRest := by
  simp only [stringValue, List.cons_append, List.append_assoc, List.cons.injEq, true_and,
    List.nil_append] at same
  exact charBytes_append_inj same

theorem boolValue_append_inj {left right : Bool}
    (same : boolValue left ++ leftRest = boolValue right ++ rightRest) :
    left = right ∧ leftRest = rightRest := by
  cases left <;> cases right <;> simp_all [boolValue]

theorem int64_fits (val : MojInt64) : val.toNat < 256 ^ 8 := val.isLt

theorem decimalValue_append_inj {left right : MojInt64}
    (same : decimalValue left ++ leftRest = decimalValue right ++ rightRest) :
    left = right ∧ leftRest = rightRest := by
  simp only [decimalValue, List.cons_append, List.cons.injEq] at same
  obtain ⟨numbers, rests⟩ :=
    bytesBE_append_inj 8 (int64_fits left) (int64_fits right) same.2
  exact ⟨BitVec.eq_of_toNat_eq numbers, rests⟩

def markerType (marker : Byte) : Option ObjectType :=
  if marker = 1 then some .null
  else if marker = 2 then some .object
  else if marker = 3 then some .array
  else if marker = 4 then some .string
  else if marker = 5 ∨ marker = 6 then some .bool
  else if marker = 7 ∨ marker = 8 then some .decimal
  else if marker ∈ [(9 : Byte), 10, 11, 12, 13, 14] then some .int
  else none

/-- How many bytes follow the marker of an integer. -/
def intWidth (marker : Byte) : Nat :=
  if marker = 10 then 0
  else if marker = 11 then 1
  else if marker = 12 then 2
  else if marker = 13 then 4
  else 8

theorem intValue_shape (val : MojInt64) :
    ∃ marker, intValue val = marker :: bytesBE (intWidth marker) val.toNat ∧
      val.toNat < 256 ^ intWidth marker ∧ markerType marker = some .int := by
  have fits := int64_fits val
  unfold intValue
  split_ifs with negative zero small short long
  · exact ⟨9, rfl, fits, rfl⟩
  · exact ⟨10, rfl, by rw [zero]; decide, rfl⟩
  · exact ⟨11, rfl, Nat.lt_succ_of_le small, rfl⟩
  · exact ⟨12, rfl, Nat.lt_succ_of_le short, rfl⟩
  · exact ⟨13, rfl, Nat.lt_succ_of_le long, rfl⟩
  · exact ⟨14, rfl, fits, rfl⟩

theorem intValue_append_inj {left right : MojInt64}
    (same : intValue left ++ leftRest = intValue right ++ rightRest) :
    left = right ∧ leftRest = rightRest := by
  obtain ⟨leftMarker, leftEq, leftFits, _⟩ := intValue_shape left
  obtain ⟨rightMarker, rightEq, rightFits, _⟩ := intValue_shape right
  rw [leftEq, rightEq, List.cons_append, List.cons_append, List.cons.injEq] at same
  obtain ⟨rfl, bytes⟩ := same
  obtain ⟨numbers, rests⟩ := bytesBE_append_inj (intWidth leftMarker) leftFits rightFits bytes
  exact ⟨BitVec.eq_of_toNat_eq numbers, rests⟩

theorem value_marker (obj : MojObject) :
    ∃ marker rest, value obj = marker :: rest ∧ markerType marker = some obj.type := by
  cases obj with
  | null => exact ⟨1, [], by rw [value], rfl⟩
  | object props => exact ⟨2, propsValue props, by rw [value], rfl⟩
  | array vals => exact ⟨3, valsValue vals, by rw [value], rfl⟩
  | string val => exact ⟨4, charBytes val ++ [0], by rw [value]; rfl, rfl⟩
  | bool val => cases val <;> exact ⟨_, [], by rw [value]; rfl, rfl⟩
  | decimal rep =>
    rw [value, decimalValue]
    split_ifs
    · exact ⟨7, _, rfl, rfl⟩
    · exact ⟨8, _, rfl, rfl⟩
  | int val =>
    obtain ⟨marker, shape, _, known⟩ := intValue_shape val
    exact ⟨marker, bytesBE (intWidth marker) val.toNat, by rw [value, shape], known⟩

theorem type_eq_of_append_eq {left right : MojObject}
    (same : value left ++ leftRest = value right ++ rightRest) : left.type = right.type := by
  obtain ⟨leftMarker, leftBody, leftShape, leftType⟩ := value_marker left
  obtain ⟨rightMarker, rightBody, rightShape, rightType⟩ := value_marker right
  rw [leftShape, rightShape, List.cons_append, List.cons_append, List.cons.injEq] at same
  rw [same.1, rightType] at leftType
  exact (Option.some.inj leftType).symm

theorem value_append_ne_end (obj : MojObject) (rest tail : ByteString) :
    value obj ++ tail ≠ 0 :: rest := by
  intro same
  obtain ⟨marker, body, shape, known⟩ := value_marker obj
  rw [shape, List.cons_append, List.cons.injEq] at same
  rw [same.1] at known
  simp [markerType] at known

mutual

theorem value_append_inj (left right : MojObject) (leftRest rightRest : ByteString)
    (same : value left ++ leftRest = value right ++ rightRest) :
    left = right ∧ leftRest = rightRest := by
  have types := type_eq_of_append_eq same
  cases left with
  | null =>
    cases right with
    | null => simpa [value] using same
    | _ => simp [MojObject.type] at types
  | object props =>
    cases right with
    | object others =>
      simp only [value, List.cons_append, List.cons.injEq, true_and] at same
      obtain ⟨rfl, rests⟩ := propsValue_append_inj props others leftRest rightRest same
      exact ⟨rfl, rests⟩
    | _ => simp [MojObject.type] at types
  | array vals =>
    cases right with
    | array others =>
      simp only [value, List.cons_append, List.cons.injEq, true_and] at same
      obtain ⟨rfl, rests⟩ := valsValue_append_inj vals others leftRest rightRest same
      exact ⟨rfl, rests⟩
    | _ => simp [MojObject.type] at types
  | string val =>
    cases right with
    | string other =>
      simp only [value] at same
      obtain ⟨rfl, rests⟩ := stringValue_append_inj same
      exact ⟨rfl, rests⟩
    | _ => simp [MojObject.type] at types
  | bool val =>
    cases right with
    | bool other =>
      simp only [value] at same
      obtain ⟨rfl, rests⟩ := boolValue_append_inj same
      exact ⟨rfl, rests⟩
    | _ => simp [MojObject.type] at types
  | decimal rep =>
    cases right with
    | decimal other =>
      simp only [value] at same
      obtain ⟨rfl, rests⟩ := decimalValue_append_inj same
      exact ⟨rfl, rests⟩
    | _ => simp [MojObject.type] at types
  | int val =>
    cases right with
    | int other =>
      simp only [value] at same
      obtain ⟨rfl, rests⟩ := intValue_append_inj same
      exact ⟨rfl, rests⟩
    | _ => simp [MojObject.type] at types

theorem propsValue_append_inj (left right : List (MojString × MojObject))
    (leftRest rightRest : ByteString)
    (same : propsValue left ++ leftRest = propsValue right ++ rightRest) :
    left = right ∧ leftRest = rightRest := by
  match left, right with
  | [], [] => simpa [propsValue] using same
  | [], (name, val) :: rest => simp [propsValue, stringValue] at same
  | (name, val) :: rest, [] => simp [propsValue, stringValue] at same
  | (name, val) :: rest, (otherName, otherVal) :: otherRest =>
    simp only [propsValue, List.append_assoc] at same
    obtain ⟨rfl, vals⟩ := stringValue_append_inj same
    obtain ⟨rfl, tails⟩ := value_append_inj val otherVal _ _ vals
    obtain ⟨rfl, rests⟩ := propsValue_append_inj rest otherRest leftRest rightRest tails
    exact ⟨rfl, rests⟩

theorem valsValue_append_inj (left right : List MojObject) (leftRest rightRest : ByteString)
    (same : valsValue left ++ leftRest = valsValue right ++ rightRest) :
    left = right ∧ leftRest = rightRest := by
  match left, right with
  | [], [] => simpa [valsValue] using same
  | [], val :: rest =>
    simp only [valsValue, List.cons_append, List.nil_append, List.append_assoc] at same
    exact absurd same.symm (value_append_ne_end val _ _)
  | val :: rest, [] =>
    simp only [valsValue, List.cons_append, List.nil_append, List.append_assoc] at same
    exact absurd same (value_append_ne_end val _ _)
  | val :: rest, otherVal :: otherRest =>
    simp only [valsValue, List.append_assoc] at same
    obtain ⟨rfl, tails⟩ := value_append_inj val otherVal _ _ same
    obtain ⟨rfl, rests⟩ := valsValue_append_inj rest otherRest leftRest rightRest tails
    exact ⟨rfl, rests⟩

end

theorem value_injective {left right : MojObject} (same : value left = value right) :
    left = right :=
  (value_append_inj left right [] [] (by rw [same])).1

def codes : Set ByteString := Set.range value

theorem codes_prefixFree : PrefixFree codes := by
  rintro _ ⟨left, rfl⟩ _ ⟨right, rfl⟩ ⟨rest, same⟩
  have whole : value left ++ rest = value right ++ [] := by rw [same, List.append_nil]
  rw [(value_append_inj left right rest [] whole).1]

theorem value_ne_nil (obj : MojObject) : value obj ≠ [] := by
  obtain ⟨_, _, shape, _⟩ := value_marker obj
  simp [shape]

end MojObjectWriter

namespace MojObject

instance : DecidableEq MojObject := fun left right =>
  decidable_of_iff (MojObjectWriter.value left = MojObjectWriter.value right)
    ⟨MojObjectWriter.value_injective, fun same => by rw [same]⟩

def boolValue : MojObject → Bool
  | .null => false
  | .object props => !props.isEmpty
  | .array vals => !vals.isEmpty
  | .string val => !val.isEmpty
  | .bool val => val
  | .decimal rep => rep ≠ 0
  | .int val => val ≠ 0

/-- The property map of an object; other values have none. -/
def map : MojObject → List (MojString × MojObject)
  | .object props => props
  | _ => []

def find (props : List (MojString × MojObject)) (key : MojString) : Option MojObject :=
  (props.find? (fun prop => decide (prop.1 = key))).map Prod.snd

def get (obj : MojObject) (key : MojString) : Option MojObject := find obj.map key

/-- Insert into the property map, which is kept in the order of its names. -/
def putProp (key : MojString) (val : MojObject) :
    List (MojString × MojObject) → List (MojString × MojObject)
  | [] => [(key, val)]
  | (name, other) :: rest =>
    if name = key then (key, val) :: rest
    else if name.map Subtype.val < key.map Subtype.val then (name, other) :: putProp key val rest
    else (key, val) :: (name, other) :: rest

def put (obj : MojObject) (key : MojString) (val : MojObject) : MojObject :=
  .object (putProp key val obj.map)

def del (obj : MojObject) (key : MojString) : MojObject :=
  match obj with
  | .object props => .object (props.filter (fun prop => decide (prop.1 ≠ key)))
  | other => other

theorem find_putProp (props : List (MojString × MojObject)) (key other : MojString)
    (val : MojObject) :
    find (putProp key val props) other = if key = other then some val else find props other := by
  induction props with
  | nil =>
    by_cases same : key = other <;> simp [putProp, find, same]
  | cons head rest ih =>
    obtain ⟨name, kept⟩ := head
    rw [putProp]
    split_ifs with sameName below sameKey
    all_goals simp_all [find, List.find?_cons]
    all_goals split <;> simp_all

theorem putProp_putProp (key : MojString) (val : MojObject) (props : List (MojString × MojObject)) :
    putProp key val (putProp key val props) = putProp key val props := by
  induction props with
  | nil => simp [putProp]
  | cons head rest ih =>
    rcases head with ⟨name, kept⟩
    rw [putProp]
    split_ifs with same below
    · rw [putProp, if_pos rfl]
    · rw [putProp, if_neg same, if_pos below, ih]
    · rw [putProp, if_pos rfl]

theorem putProp_placed {key other : MojString} {val : MojObject} (added : MojObject)
    {props : List (MojString × MojObject)} (different : key ≠ other)
    (placed : putProp key val props = props) :
    putProp key val (putProp other added props) = putProp other added props := by
  have order : ∀ {left right : MojString}, left ≠ right →
      ¬ left.map Subtype.val < right.map Subtype.val →
      right.map Subtype.val < left.map Subtype.val := by
    intro left right apart notBelow
    have words : left.map Subtype.val ≠ right.map Subtype.val :=
      fun same => apart (Subtype.val_injective.list_map same)
    exact lt_of_le_of_ne (not_lt.mp notBelow) (Ne.symm words)
  induction props with
  | nil => simp [putProp] at placed
  | cons head rest ih =>
    rcases head with ⟨name, kept⟩
    rw [putProp] at placed
    rw [putProp]
    by_cases named : name = key
    · rw [if_pos named] at placed
      rw [if_neg (named ▸ different)]
      split_ifs with below
      · rw [putProp, if_pos named]
        simp_all
      · rw [putProp, if_neg (Ne.symm different), if_pos (order different (named ▸ below)),
          putProp, if_pos named]
        simp_all
    · rw [if_neg named] at placed
      by_cases before : name.map Subtype.val < key.map Subtype.val
      · rw [if_pos before] at placed
        have inner : putProp key val rest = rest := (List.cons.inj placed).2
        split_ifs with same below
        · rw [putProp, if_neg (Ne.symm different), ← same, if_pos before, inner]
        · rw [putProp, if_neg named, if_pos before, ih inner]
        · have first := lt_trans (order same below) before
          rw [putProp, if_neg (Ne.symm different), if_pos first, putProp, if_neg named,
            if_pos before, inner]
      · rw [if_neg before] at placed
        have lengths := congrArg List.length placed
        simp at lengths

theorem put_put (obj : MojObject) (key : MojString) (val : MojObject) :
    (obj.put key val).put key val = obj.put key val :=
  congrArg object (putProp_putProp key val obj.map)

theorem put_placed {obj : MojObject} {key other : MojString} {val : MojObject} (added : MojObject)
    (different : key ≠ other) (placed : obj.put key val = obj) :
    (obj.put other added).put key val = obj.put other added := by
  have inside : putProp key val obj.map = obj.map := congrArg map placed
  exact congrArg object (putProp_placed added different inside)

@[simp] theorem get_put (obj : MojObject) (key other : MojString) (val : MojObject) :
    (obj.put key val).get other = if key = other then some val else obj.get other :=
  find_putProp obj.map key other val

@[simp] theorem get_del (obj : MojObject) (key other : MojString) :
    (obj.del key).get other = if key = other then none else obj.get other := by
  unfold get del map find
  split_ifs with same
  · subst same
    cases obj <;> simp [List.find?_eq_none]
  · cases obj with
    | object props =>
      congr 1
      rw [List.find?_filter]
      congr 1
      funext prop
      by_cases hit : prop.1 = other
      · subst hit
        simp [Ne.symm same]
      · simp [hit]
    | _ => rfl

end MojObject

end Db8.Core
