import Db8.Core.ObjectReader

/-!
# Reading back what was written

The calls a reader makes on the bytes of an object, whatever the reader is in the middle of, and what
a builder makes of them. A reader stops after exactly the bytes of one object, so a run of objects is
read one by one; a builder gives back any object whose properties stand in the order of their names.
-/

set_option autoImplicit false

namespace Db8.Core

open Db8.Bytes

namespace MojObject

mutual

/-- `visit`: the calls an object makes on a visitor. -/
def visits : MojObject → List VisitorCall
  | .null => [.nullValue]
  | .object props => .beginObject :: visitsProps props
  | .array vals => .beginArray :: visitsVals vals
  | .string val => [.stringValue val]
  | .bool val => [.boolValue val]
  | .decimal rep => [.decimalValue rep]
  | .int val => [.intValue val]

def visitsProps : List (MojString × MojObject) → List VisitorCall
  | [] => [.endObject]
  | (name, val) :: rest => .propName name :: (visits val ++ visitsProps rest)

def visitsVals : List MojObject → List VisitorCall
  | [] => [.endArray]
  | val :: rest => visits val ++ visitsVals rest

end

mutual

/-- The properties of every object in it stand in the order of their names, as a map keeps them. -/
def WellFormed : MojObject → Prop
  | .object props =>
    (props.map fun prop => prop.1.map Subtype.val).Pairwise (· < ·) ∧ WellFormedProps props
  | .array vals => WellFormedVals vals
  | _ => True

def WellFormedProps : List (MojString × MojObject) → Prop
  | [] => True
  | (_, val) :: rest => WellFormed val ∧ WellFormedProps rest

def WellFormedVals : List MojObject → Prop
  | [] => True
  | val :: rest => WellFormed val ∧ WellFormedVals rest

end

end MojObject

namespace MojDataReader

theorem foldl_bytesBE (count number start : Nat) :
    (MojObjectWriter.bytesBE count number).foldl (fun read byte => read * 256 + byte.val) start =
      start * 256 ^ count + number % 256 ^ count := by
  induction count generalizing number with
  | zero => simp [MojObjectWriter.bytesBE, Nat.mod_one]
  | succ count ih =>
    rw [MojObjectWriter.bytesBE, List.foldl_append, ih, List.foldl_cons, List.foldl_nil]
    have low : (Fin.ofNat 256 number).val = number % 256 := rfl
    have shifted : start * (256 * 256 ^ count) = start * 256 ^ count * 256 := by
      rw [Nat.mul_comm 256, Nat.mul_assoc]
    rw [low, Nat.pow_succ', Nat.mod_mul, shifted]
    omega

theorem readNumber_bytesBE {count number : Nat} (fits : number < 256 ^ count)
    (rest : ByteString) :
    readNumber count (MojObjectWriter.bytesBE count number ++ rest) = .ok (number, rest) := by
  have length := MojObjectWriter.bytesBE_length count number
  rw [readNumber, if_neg (by rw [List.length_append, length]; omega), List.take_left' length,
    List.drop_left' length, foldl_bytesBE, Nat.zero_mul, Nat.zero_add, Nat.mod_eq_of_lt fits]

theorem readInt64_bytesBE (val : MojInt64) (rest : ByteString) :
    readInt64 (MojObjectWriter.bytesBE 8 val.toNat ++ rest) = .ok (val, rest) := by
  simp [readInt64, readNumber_bytesBE (MojObjectWriter.int64_fits val), bind, Except.bind]

end MojDataReader

namespace MojObjectReader

open MojObject

theorem readString_charBytes (val : MojString) (rest : ByteString) :
    readString (MojObjectWriter.charBytes val ++ 0 :: rest) = .ok (val, rest) := by
  induction val with
  | nil => rfl
  | cons c val ih =>
    have nonzero : c.val ≠ 0 := c.property
    rw [MojObjectWriter.charBytes] at ih
    rw [MojObjectWriter.charBytes, List.map_cons, List.cons_append, readString, dif_neg nonzero, ih]
    rfl

theorem readInt_intValue (val : MojInt64) :
    ∃ marker body, MojObjectWriter.intValue val = marker :: body ∧
      MojObjectWriter.markerType marker = some .int ∧
      ∀ rest, readInt marker (body ++ rest) = .ok (val, rest) := by
  have whole := MojObjectWriter.int64_fits val
  unfold MojObjectWriter.intValue
  split_ifs with negative zero small short long
  · exact ⟨9, _, rfl, rfl, fun rest => MojDataReader.readInt64_bytesBE val rest⟩
  · refine ⟨10, [], rfl, rfl, ?_⟩
    intro rest
    rw [show val = 0 from BitVec.eq_of_toNat_eq zero]
    rfl
  · refine ⟨11, _, rfl, rfl, ?_⟩
    intro rest
    have read := @MojDataReader.readNumber_bytesBE 1 _ (Nat.lt_succ_of_le small) rest
    simp [readInt, MojObjectWriter.intWidth, read, bind, Except.bind]
  · refine ⟨12, _, rfl, rfl, ?_⟩
    intro rest
    have read := @MojDataReader.readNumber_bytesBE 2 _ (Nat.lt_succ_of_le short) rest
    simp [readInt, MojObjectWriter.intWidth, read, bind, Except.bind]
  · refine ⟨13, _, rfl, rfl, ?_⟩
    intro rest
    have read := @MojDataReader.readNumber_bytesBE 4 _ (Nat.lt_succ_of_le long) rest
    simp [readInt, MojObjectWriter.intWidth, read, bind, Except.bind]
  · exact ⟨14, _, rfl, rfl, fun rest => MojDataReader.readInt64_bytesBE val rest⟩

/-- The rest of the loop of `nextObject` after some calls. -/
def resume (steps : Nat) (read : MojObjectReader × List VisitorCall) :
    Except MojErr (MojObjectReader × List VisitorCall) :=
  if read.1.stack = [] then .ok read
  else (nextObjectLoop steps read.1).map fun later => (later.1, read.2 ++ later.2)

theorem nextObjectLoop_succ (steps : Nat) (reader : MojObjectReader) :
    nextObjectLoop (steps + 1) reader = reader.next >>= resume steps := by
  rw [nextObjectLoop]
  cases reader.next with
  | error err => rfl
  | ok read =>
    simp only [bind, Except.bind, resume]
    split_ifs
    · rfl
    · cases nextObjectLoop steps read.1 <;> rfl

theorem resume_append (steps : Nat) (reader : MojObjectReader) (calls later : List VisitorCall) :
    (resume steps (reader, later)).map (fun read => (read.1, calls ++ read.2)) =
      resume steps (reader, calls ++ later) := by
  unfold resume
  split_ifs
  · rfl
  · cases nextObjectLoop steps reader <;> simp [Except.map]

theorem resume_open (steps : Nat) {reader : MojObjectReader} (calls : List VisitorCall)
    (unfinished : reader.stack ≠ []) : resume steps (reader, calls) =
      (nextObjectLoop steps reader).map fun later => (later.1, calls ++ later.2) :=
  if_neg unfinished

theorem nextValue_scalar {obj : MojObject} {marker : Byte} {body : ByteString}
    (shape : MojObjectWriter.value obj = marker :: body) (notObject : obj.type ≠ .object)
    (notArray : obj.type ≠ .array) (rest : ByteString) (stack : List State) :
    nextValue marker (body ++ rest) stack = .ok (⟨rest, stack⟩, visits obj) := by
  cases obj with
  | object props => exact absurd rfl notObject
  | array vals => exact absurd rfl notArray
  | null =>
    rw [MojObjectWriter.value] at shape
    cases shape
    rfl
  | bool val =>
    cases val <;>
      · simp only [MojObjectWriter.value, MojObjectWriter.boolValue] at shape
        cases shape
        rfl
  | string val =>
    rw [MojObjectWriter.value, MojObjectWriter.stringValue, List.cons_append] at shape
    cases shape
    have read := readString_charBytes val rest
    simp [nextValue, MojObjectWriter.markerType, read, bind, Except.bind, visits]
  | decimal rep =>
    have read := MojDataReader.readInt64_bytesBE rep rest
    rw [MojObjectWriter.value, MojObjectWriter.decimalValue] at shape
    split_ifs at shape <;>
      · cases shape
        simp [nextValue, MojObjectWriter.markerType, read, bind, Except.bind, visits]
  | int val =>
    rcases readInt_intValue val with ⟨intMarker, intBody, intShape, known, read⟩
    rw [MojObjectWriter.value, intShape] at shape
    cases shape
    simp [nextValue, known, read, bind, Except.bind, visits]

/-- What reading a value comes to, in at most as many more steps as it has bytes behind its marker. -/
def ReadsValue (obj : MojObject) : Prop :=
  ∀ marker body, MojObjectWriter.value obj = marker :: body → ∀ rest stack, ∃ steps,
    steps ≤ body.length ∧ ∀ more, nextValue marker (body ++ rest) stack >>= resume (more + steps) =
      resume more (⟨rest, stack⟩, visits obj)

/-- The same for what stands in a container, up to its end marker. -/
def ReadsInside (state : State) (bytes : ByteString) (calls : List VisitorCall) : Prop :=
  ∀ rest stack, ∃ steps, steps ≤ bytes.length ∧ ∀ more,
    nextObjectLoop (more + steps) ⟨bytes ++ rest, state :: stack⟩ =
      resume more (⟨rest, stack⟩, calls)

theorem readsInside_nil {state : State} {call : VisitorCall}
    (ends : ∀ rest stack, next ⟨0 :: rest, state :: stack⟩ = .ok (⟨rest, stack⟩, [call])) :
    ReadsInside state [0] [call] := by
  intro rest stack
  apply Exists.intro 1
  constructor
  · exact le_refl 1
  · intro more
    rw [nextObjectLoop_succ, List.singleton_append, ends]
    rfl

theorem readsInside_value {state : State} {obj : MojObject} {bytes : ByteString}
    {calls : List VisitorCall} (value : ReadsValue obj) (inside : ReadsInside state bytes calls)
    (rest : ByteString) (stack : List State) {marker : Byte} {body : ByteString}
    (shape : MojObjectWriter.value obj = marker :: body) : ∃ steps,
      steps ≤ body.length + bytes.length ∧ ∀ more,
        nextValue marker (body ++ (bytes ++ rest)) (state :: stack) >>= resume (more + steps) =
          resume more (⟨rest, stack⟩, visits obj ++ calls) := by
  rcases value marker body shape (bytes ++ rest) (state :: stack) with ⟨first, firstBound, read⟩
  rcases inside rest stack with ⟨second, secondBound, finish⟩
  apply Exists.intro (second + first)
  constructor
  · omega
  · intro more
    rw [← Nat.add_assoc, read, resume_open _ _ (List.cons_ne_nil state stack), finish,
      resume_append]

mutual

theorem readsValue (obj : MojObject) : ReadsValue obj := by
  intro marker body shape rest stack
  cases obj with
  | object props =>
    rw [MojObjectWriter.value] at shape
    cases shape
    rcases readsProps props rest stack with ⟨steps, bound, read⟩
    apply Exists.intro steps
    constructor
    · exact bound
    · intro more
      have opens : nextValue 2 (MojObjectWriter.propsValue props ++ rest) stack =
          .ok (⟨MojObjectWriter.propsValue props ++ rest, .object :: stack⟩, [.beginObject]) := rfl
      rw [opens]
      calc
        resume (more + steps) (⟨MojObjectWriter.propsValue props ++ rest, .object :: stack⟩,
            [.beginObject]) = (nextObjectLoop (more + steps) _).map _ :=
          resume_open _ _ (List.cons_ne_nil _ stack)
        _ = resume more (⟨rest, stack⟩, visits (.object props)) := by
          rw [read, resume_append, visits, List.singleton_append]
  | array vals =>
    rw [MojObjectWriter.value] at shape
    cases shape
    rcases readsVals vals rest stack with ⟨steps, bound, read⟩
    apply Exists.intro steps
    constructor
    · exact bound
    · intro more
      have opens : nextValue 3 (MojObjectWriter.valsValue vals ++ rest) stack =
          .ok (⟨MojObjectWriter.valsValue vals ++ rest, .array :: stack⟩, [.beginArray]) := rfl
      rw [opens]
      calc
        resume (more + steps) (⟨MojObjectWriter.valsValue vals ++ rest, .array :: stack⟩,
            [.beginArray]) = (nextObjectLoop (more + steps) _).map _ :=
          resume_open _ _ (List.cons_ne_nil _ stack)
        _ = resume more (⟨rest, stack⟩, visits (.array vals)) := by
          rw [read, resume_append, visits, List.singleton_append]
  | null | string val | bool val | decimal rep | int val =>
    apply Exists.intro 0
    constructor
    · exact Nat.zero_le _
    · intro more
      rw [nextValue_scalar shape (by simp [MojObject.type]) (by simp [MojObject.type])]
      rfl

theorem readsProps (props : List (MojString × MojObject)) :
    ReadsInside .object (MojObjectWriter.propsValue props) (visitsProps props) := by
  match props with
  | [] =>
    rw [MojObjectWriter.propsValue, visitsProps]
    exact readsInside_nil fun rest stack => rfl
  | (name, val) :: others =>
    intro rest stack
    rcases MojObjectWriter.value_marker val with ⟨marker, body, shape, _⟩
    rcases readsInside_value (readsValue val) (readsProps others) rest stack shape with
      ⟨steps, bound, read⟩
    have named : next ⟨MojObjectWriter.propsValue ((name, val) :: others) ++ rest,
        .object :: stack⟩ = .ok (⟨marker :: (body ++ (MojObjectWriter.propsValue others ++ rest)),
          .value :: .object :: stack⟩, [.propName name]) := by
      have bytes : MojObjectWriter.propsValue ((name, val) :: others) ++ rest =
          4 :: (MojObjectWriter.charBytes name ++
            0 :: (marker :: (body ++ (MojObjectWriter.propsValue others ++ rest)))) := by
        rw [MojObjectWriter.propsValue, shape, MojObjectWriter.stringValue]
        simp
      have read := readString_charBytes name
        (marker :: (body ++ (MojObjectWriter.propsValue others ++ rest)))
      rw [bytes]
      simp [next, read, bind, Except.bind]
    apply Exists.intro (steps + 2)
    constructor
    · rw [MojObjectWriter.propsValue, shape, MojObjectWriter.stringValue]
      simp only [List.length_append, List.length_cons]
      omega
    · intro more
      have more_eq : more + (steps + 2) = more + steps + 1 + 1 := by omega
      have inner : next ⟨marker :: (body ++ (MojObjectWriter.propsValue others ++ rest)),
          .value :: .object :: stack⟩ =
            nextValue marker (body ++ (MojObjectWriter.propsValue others ++ rest))
              (.object :: stack) := rfl
      rw [more_eq, nextObjectLoop_succ, named]
      calc
        resume (more + steps + 1) (⟨_, .value :: .object :: stack⟩, [.propName name]) =
            (nextObjectLoop (more + steps + 1) _).map _ :=
          resume_open _ _ (List.cons_ne_nil _ _)
        _ = resume more (⟨rest, stack⟩, visitsProps ((name, val) :: others)) := by
          rw [nextObjectLoop_succ, inner, read, resume_append, visitsProps,
            List.singleton_append]

theorem readsVals (vals : List MojObject) :
    ReadsInside .array (MojObjectWriter.valsValue vals) (visitsVals vals) := by
  match vals with
  | [] =>
    rw [MojObjectWriter.valsValue, visitsVals]
    exact readsInside_nil fun rest stack => rfl
  | val :: others =>
    intro rest stack
    rcases MojObjectWriter.value_marker val with ⟨marker, body, shape, known⟩
    rcases readsInside_value (readsValue val) (readsVals others) rest stack shape with
      ⟨steps, bound, read⟩
    have started : marker ≠ 0 := by
      rintro rfl
      simp [MojObjectWriter.markerType] at known
    have bytes : MojObjectWriter.valsValue (val :: others) ++ rest =
        marker :: (body ++ (MojObjectWriter.valsValue others ++ rest)) := by
      rw [MojObjectWriter.valsValue, shape]
      simp
    apply Exists.intro (steps + 1)
    constructor
    · rw [MojObjectWriter.valsValue, shape]
      simp only [List.length_append, List.length_cons]
      omega
    · intro more
      have inner : next ⟨marker :: (body ++ (MojObjectWriter.valsValue others ++ rest)),
          .array :: stack⟩ =
            nextValue marker (body ++ (MojObjectWriter.valsValue others ++ rest))
              (.array :: stack) := by
        rw [next]
        exact if_neg started
      rw [← Nat.add_assoc, nextObjectLoop_succ, bytes, inner, read, visitsVals]

end

/-- Exactly the bytes of one object are read, wherever the reader stands at the top level. -/
theorem nextObject_value (obj : MojObject) (rest : ByteString) :
    nextObject ⟨MojObjectWriter.value obj ++ rest, []⟩ = .ok (⟨rest, []⟩, visits obj) := by
  rcases MojObjectWriter.value_marker obj with ⟨marker, body, shape, _⟩
  rcases readsValue obj marker body shape rest [] with ⟨steps, bound, read⟩
  have first : next ⟨marker :: (body ++ rest), []⟩ = nextValue marker (body ++ rest) [] := rfl
  have enough : (marker :: (body ++ rest)).length = rest.length + 1 + (body.length - steps) +
      steps := by
    rw [List.length_cons, List.length_append]
    omega
  rw [nextObject, shape, List.cons_append, nextObjectLoop_succ, first, enough, read]
  rfl

theorem skipObjects_flatten {parts : List ByteString}
    (codes : ∀ part ∈ parts, part ∈ MojObjectWriter.codes) (rest : ByteString) :
    skipObjects parts.length ⟨parts.flatten ++ rest, []⟩ = .ok ⟨rest, []⟩ := by
  induction parts with
  | nil => rfl
  | cons part parts ih =>
    rcases codes part List.mem_cons_self with ⟨obj, rfl⟩
    rw [List.length_cons, skipObjects, List.flatten_cons, List.append_assoc, nextObject_value]
    exact ih fun other member => codes other (List.mem_cons_of_mem _ member)

end MojObjectReader

namespace MojObject

theorem putProp_last {props : List (MojString × MojObject)} {name : MojString} (val : MojObject)
    (behind : ∀ prop ∈ props, prop.1.map Subtype.val < name.map Subtype.val) :
    putProp name val props = props ++ [(name, val)] := by
  induction props with
  | nil => rfl
  | cons head props ih =>
    rcases head with ⟨first, kept⟩
    have below := behind (first, kept) List.mem_cons_self
    have different : first ≠ name := by
      rintro rfl
      exact lt_irrefl _ below
    rw [putProp, if_neg different, if_pos below,
      ih fun prop member => behind prop (List.mem_cons_of_mem _ member)]
    rfl

end MojObject

namespace MojObjectBuilder

open MojObject

mutual

theorem foldlM_visits (obj : MojObject) (wellFormed : WellFormed obj)
    (builder : MojObjectBuilder) : (visits obj).foldlM visit builder = builder.value obj := by
  match obj with
  | .null | .bool val | .int val | .decimal rep | .string val =>
    rw [visits, List.foldlM_cons]
    exact bind_pure _
  | .object props =>
    rw [WellFormed] at wellFormed
    rw [visits, List.foldlM_cons]
    exact foldlM_visitsProps props wellFormed.2 [] wellFormed.1 builder builder.propName
  | .array vals =>
    rw [WellFormed] at wellFormed
    rw [visits, List.foldlM_cons]
    exact foldlM_visitsVals vals wellFormed [] builder

theorem foldlM_visitsProps (props : List (MojString × MojObject))
    (wellFormed : WellFormedProps props) (done : List (MojString × MojObject))
    (ordered : ((done ++ props).map fun prop => prop.1.map Subtype.val).Pairwise (· < ·))
    (builder : MojObjectBuilder) (propName : MojString) :
    (visitsProps props).foldlM visit { builder with
      stack := (.object done, builder.propName) :: builder.stack, propName := propName } =
        builder.value (.object (done ++ props)) := by
  match props with
  | [] =>
    rw [visitsProps, List.foldlM_cons, List.append_nil]
    exact bind_pure _
  | (name, val) :: rest =>
    rw [WellFormedProps] at wellFormed
    have behind : ∀ prop ∈ done, prop.1.map Subtype.val < name.map Subtype.val := by
      intro prop member
      rw [List.map_append, List.map_cons, List.pairwise_append] at ordered
      exact ordered.2.2 _ (List.mem_map_of_mem member) _ List.mem_cons_self
    have added : value { builder with
          stack := (.object done, builder.propName) :: builder.stack, propName := name } val =
        .ok { builder with
          stack := (.object (done ++ [(name, val)]), builder.propName) :: builder.stack,
          propName := name } := by
      simp only [value, put, map, putProp_last val behind]
    have rest := foldlM_visitsProps rest wellFormed.2 (done ++ [(name, val)])
      (by rwa [List.append_assoc, List.singleton_append]) builder name
    rw [List.append_assoc, List.singleton_append] at rest
    rw [visitsProps, List.foldlM_cons]
    change List.foldlM visit { builder with
      stack := (.object done, builder.propName) :: builder.stack, propName := name } _ = _
    rw [List.foldlM_append, foldlM_visits val wellFormed.1, added]
    exact rest

theorem foldlM_visitsVals (vals : List MojObject) (wellFormed : WellFormedVals vals)
    (done : List MojObject) (builder : MojObjectBuilder) :
    (visitsVals vals).foldlM visit { builder with
      stack := (.array done, builder.propName) :: builder.stack } =
        builder.value (.array (done ++ vals)) := by
  match vals with
  | [] =>
    rw [visitsVals, List.foldlM_cons, List.append_nil]
    exact bind_pure _
  | val :: rest =>
    rw [WellFormedVals] at wellFormed
    rw [visitsVals, List.foldlM_append, foldlM_visits val wellFormed.1]
    have added := foldlM_visitsVals rest wellFormed.2 (done ++ [val]) builder
    rw [List.append_assoc, List.singleton_append] at added
    exact added

end

theorem foldlM_visits_empty {obj : MojObject} (wellFormed : WellFormed obj) :
    (visits obj).foldlM visit empty = .ok ⟨some obj, [], []⟩ :=
  foldlM_visits obj wellFormed empty

end MojObjectBuilder

end Db8.Core
