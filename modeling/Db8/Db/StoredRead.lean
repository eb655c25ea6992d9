import Db8.Db.StoredObject

/-!
# Reading back what is stored

With a table that has the words an encoding uses in their places, the reader of a storage item makes
the calls of the object and stops behind its bytes. The header's own properties come first, and the
builder ends with the object they were taken from.
-/

set_option autoImplicit false

namespace Db8.Db

open Db8.Bytes
open Db8.Core

namespace MojItemReader

open MojObjectReader (State)

inductive Steps (set : MojTokenSet) : MojItemReader → MojItemReader → List VisitorCall → Prop where
  | refl (reader : MojItemReader) : Steps set reader reader []
  | step {reader middle last : MojItemReader} {calls later : List VisitorCall}
      (first : next set reader = .ok (middle, calls)) (rest : Steps set middle last later) :
      Steps set reader last (calls ++ later)

variable {calls : List VisitorCall} {set : MojTokenSet}

theorem Steps.one {reader last : MojItemReader}
    (first : next set reader = .ok (last, calls)) : Steps set reader last calls := by
  have step := Steps.step first (Steps.refl last)
  rwa [List.append_nil] at step

theorem Steps.trans {reader middle last : MojItemReader} {calls later : List VisitorCall}
    (front : Steps set reader middle calls) (back : Steps set middle last later) :
    Steps set reader last (calls ++ later) := by
  induction front with
  | refl reader => exact back
  | step first rest ih =>
    rw [List.append_assoc]
    exact Steps.step first (ih back)

theorem nextValue_rest {marker : Byte} {bytes : ByteString} {stack : List State}
    {skipBeginObj : Bool} {after : MojItemReader}
    (reads : nextValue set marker bytes stack skipBeginObj = .ok (after, calls)) :
    after.bytes.length ≤ bytes.length := by
  unfold nextValue at reads
  split_ifs at reads
  · cases reads
    exact le_refl _
  · cases reads
    exact le_refl _
  · rcases except_bind_ok reads with ⟨⟨plain, inner⟩, read, ends⟩
    cases ends
    exact MojObjectReader.nextValue_rest read
  · rcases except_bind_ok reads with ⟨val, known, ends⟩
    cases ends
    exact le_refl _

theorem next_shortens {reader after : MojItemReader}
    (reads : next set reader = .ok (after, calls)) : after.bytes.length < reader.bytes.length := by
  rcases reader with ⟨bytes, stack, skipBeginObj⟩
  cases bytes with
  | nil => cases reads
  | cons marker rest =>
    apply Nat.lt_succ_of_le
    rcases stack with _ | ⟨_ | _ | _, stack⟩
    · exact nextValue_rest reads
    · exact nextValue_rest reads
    · simp only [next] at reads
      split_ifs at reads
      · cases reads
        exact le_refl _
      · rcases except_bind_ok reads with ⟨⟨name, tail⟩, inner, ends⟩
        cases ends
        exact MojObjectReader.readString_rest inner
      · rcases except_bind_ok reads with ⟨name, known, ends⟩
        cases ends
        exact le_refl _
    · simp only [next] at reads
      split_ifs at reads
      · cases reads
        exact le_refl _
      · exact nextValue_rest reads

theorem readLoop_of_steps {reader last : MojItemReader} (steps : Steps set reader last calls)
    (ended : last.bytes = []) (count : Nat) (enough : reader.bytes.length ≤ count) :
    readLoop set count reader = .ok calls := by
  induction steps generalizing count with
  | refl reader => cases count <;> exact if_pos ended
  | step first rest ih =>
    rename_i reader middle last calls later
    have shorter := next_shortens first
    cases count with
    | zero => omega
    | succ count =>
      have some : reader.bytes ≠ [] := by
        intro none
        rw [none] at shorter
        exact Nat.not_lt_zero _ shorter
      rw [readLoop, if_neg some, first]
      change (readLoop set count middle >>= fun later => _) = _
      rw [ih ended count (by omega)]
      rfl

/-- Where the reader takes the next byte, unless it is an end, for the marker of a value. -/
def Expects (stack behind : List State) : Prop :=
  ∀ (set : MojTokenSet) (marker : Byte) (rest : ByteString) (skipBeginObj : Bool), marker ≠ 0 →
    next set ⟨marker :: rest, stack, skipBeginObj⟩ = nextValue set marker rest behind skipBeginObj

theorem expects_value (stack : List State) : Expects (.value :: stack) stack :=
  fun _ _ _ _ _ => rfl

theorem expects_array (stack : List State) : Expects (.array :: stack) (.array :: stack) :=
  fun _ _ _ _ starts => if_neg starts

theorem markerType_token {token : Byte} (high : 16 ≤ token.val) :
    MojObjectWriter.markerType token = none := by
  have apart : ∀ marker : Byte, marker.val < 16 → token ≠ marker := by
    rintro marker low rfl
    omega
  simp only [MojObjectWriter.markerType, apart 1 (by decide), apart 2 (by decide),
    apart 3 (by decide), apart 4 (by decide), apart 5 (by decide), apart 6 (by decide),
    apart 7 (by decide), apart 8 (by decide), apart 9 (by decide), apart 10 (by decide),
    apart 11 (by decide), apart 12 (by decide), apart 13 (by decide), apart 14 (by decide),
    List.mem_cons, List.not_mem_nil, or_self, if_false]

theorem steps_scalar (set : MojTokenSet) {obj : MojObject} (notObject : obj.type ≠ .object)
    (notArray : obj.type ≠ .array) (rest : ByteString) {stack behind : List State}
    (expects : Expects stack behind) :
    Steps set ⟨MojObjectWriter.value obj ++ rest, stack, false⟩ ⟨rest, behind, false⟩ obj.visits := by
  rcases MojObjectWriter.value_marker obj with ⟨marker, body, shape, known⟩
  have read := MojObjectReader.nextValue_scalar shape notObject notArray rest behind
  have starts : marker ≠ 0 := by
    rintro rfl
    simp [MojObjectWriter.markerType] at known
  have plain : marker ≠ 2 := by
    rintro rfl
    exact notObject (Option.some.inj known).symm
  apply Steps.one
  rw [shape, List.cons_append, expects set marker _ _ starts]
  simp [nextValue, plain, known, read, bind, Except.bind]

section Words

variable {words more : List MojString} {set : MojTokenSet} (front : words <+: more)
  (copies : set.Copies more)
include front copies

theorem token_byte {place : Nat} {val : MojString} (word : words[place]? = some val)
    (small : place < 223) :
    ∃ token : Byte, Fin.ofNat 256 (tokenStartMarker + place) = token ∧ token ≠ 0 ∧ token ≠ 2 ∧
      token ≠ 4 ∧ token ≠ 15 ∧ MojObjectWriter.markerType token = none ∧
      set.stringFromToken token.val = .ok val := by
  have number : (Fin.ofNat 256 (tokenStartMarker + place)).val = tokenStartMarker + place :=
    Nat.mod_eq_of_lt (by unfold tokenStartMarker; omega)
  have start : tokenStartMarker = 32 := rfl
  have apart : ∀ marker : Byte, marker.val < 32 →
      Fin.ofNat 256 (tokenStartMarker + place) ≠ marker := by
    rintro marker low rfl
    omega
  refine ⟨_, rfl, apart 0 (by decide), apart 2 (by decide), apart 4 (by decide),
    apart 15 (by decide), markerType_token (by omega), ?_⟩
  rw [number]
  exact copies.stringFromToken (TokenSystem.word_of_front front word)

theorem steps_string {val : MojString} {bytes : ByteString}
    (encodes : EncodesString words val bytes) (rest : ByteString) {stack behind : List State}
    (expects : Expects stack behind) :
    Steps set ⟨bytes ++ rest, stack, false⟩ ⟨rest, behind, false⟩ [.stringValue val] := by
  rcases encodes with rfl | ⟨place, word, small, rfl⟩
  · have read := MojObjectReader.readString_charBytes val rest
    apply Steps.one
    simp only [MojObjectWriter.stringValue, List.cons_append, List.append_assoc,
      List.nil_append, expects set 4 _ _ (by decide)]
    simp [nextValue, MojObjectReader.nextValue, MojObjectWriter.markerType, read, bind, Except.bind]
  · rcases token_byte front copies word small with
      ⟨token, byte, starts, notObject, _, notExtension, unmarked, known⟩
    apply Steps.one
    rw [byte, List.singleton_append, expects set token rest _ starts]
    simp [nextValue, notObject, notExtension, unmarked, known, bind, Except.bind]

end Words

section Steps

variable {words more : List MojString} {set : MojTokenSet}

mutual

theorem steps_value (front : words <+: more) (copies : set.Copies more) (obj : MojObject)
    {bytes : ByteString} (encodes : Encodes words obj bytes) (rest : ByteString)
    {stack behind : List State} (expects : Expects stack behind) :
    Steps set ⟨bytes ++ rest, stack, false⟩ ⟨rest, behind, false⟩ obj.visits := by
  match obj with
  | .null | .bool _ | .decimal _ | .int _ =>
    rw [Encodes] at encodes
    rw [encodes]
    exact steps_scalar set (by simp [MojObject.type]) (by simp [MojObject.type]) rest
      expects
  | .string val =>
    rw [Encodes] at encodes
    rw [MojObject.visits]
    exact steps_string front copies encodes rest expects
  | .object props =>
    rw [Encodes] at encodes
    rcases encodes with ⟨inner, rfl, inside⟩
    rw [MojObject.visits, List.cons_append]
    apply Steps.step (expects set 2 _ _ (by decide))
    exact steps_props front copies props inside rest behind
  | .array vals =>
    rw [Encodes] at encodes
    rcases encodes with ⟨inner, rfl, inside⟩
    rw [MojObject.visits, List.cons_append]
    apply Steps.step (expects set 3 _ _ (by decide))
    exact steps_vals front copies vals inside rest behind

theorem steps_props (front : words <+: more) (copies : set.Copies more)
    (props : List (MojString × MojObject)) {bytes : ByteString}
    (encodes : EncodesProps words props bytes) (rest : ByteString) (stack : List State) :
    Steps set ⟨bytes ++ rest, .object :: stack, false⟩ ⟨rest, stack, false⟩
      (MojObject.visitsProps props) := by
  match props with
  | [] =>
    rw [EncodesProps] at encodes
    rw [encodes, MojObject.visitsProps]
    exact Steps.one rfl
  | (name, val) :: props =>
    rw [EncodesProps] at encodes
    rcases encodes with ⟨nameBytes, valBytes, inner, rfl, named, valued, others⟩
    have nameStep : Steps set ⟨nameBytes ++ (valBytes ++ (inner ++ rest)), .object :: stack, false⟩
        ⟨valBytes ++ (inner ++ rest), .value :: .object :: stack, false⟩ [.propName name] := by
      apply Steps.one
      rcases named with rfl | ⟨place, word, small, rfl⟩
      · have read := MojObjectReader.readString_charBytes name (valBytes ++ (inner ++ rest))
        simp only [MojObjectWriter.stringValue, List.cons_append, List.append_assoc,
          List.nil_append]
        simp [next, read, bind, Except.bind]
      · rcases token_byte front copies word small with
          ⟨token, byte, starts, _, notString, _, _, known⟩
        rw [byte, List.singleton_append]
        simp [next, starts, notString, known, bind, Except.bind]
    have valStep := steps_value front copies val valued (inner ++ rest) (expects_value (.object :: stack))
    have restStep := steps_props front copies props others rest stack
    rw [List.append_assoc, List.append_assoc, MojObject.visitsProps]
    exact nameStep.trans (valStep.trans restStep)

theorem steps_vals (front : words <+: more) (copies : set.Copies more) (vals : List MojObject)
    {bytes : ByteString} (encodes : EncodesVals words vals bytes) (rest : ByteString) (stack : List State) :
    Steps set ⟨bytes ++ rest, .array :: stack, false⟩ ⟨rest, stack, false⟩
      (MojObject.visitsVals vals) := by
  match vals with
  | [] =>
    rw [EncodesVals] at encodes
    rw [encodes, MojObject.visitsVals]
    exact Steps.one rfl
  | val :: vals =>
    rw [EncodesVals] at encodes
    rcases encodes with ⟨valBytes, inner, rfl, valued, others⟩
    have valStep := steps_value front copies val valued (inner ++ rest) (expects_array stack)
    have restStep := steps_vals front copies vals others rest stack
    rw [List.append_assoc, MojObject.visitsVals]
    exact valStep.trans restStep

end

theorem read_body (front : words <+: more) (copies : set.Copies more)
    {props : List (MojString × MojObject)} {bytes : ByteString}
    (encodes : Encodes words (.object props) bytes) :
    read set ⟨bytes, [], true⟩ = .ok (MojObject.visitsProps props) := by
  rw [Encodes] at encodes
  rcases encodes with ⟨inner, rfl, inside⟩
  have steps := steps_props front copies props inside [] []
  rw [List.append_nil] at steps
  have first : next set ⟨2 :: inner, [], true⟩ = .ok (⟨inner, [.object], false⟩, []) := rfl
  exact readLoop_of_steps (Steps.step first steps) rfl _ (le_refl _)

end Steps

end MojItemReader

end Db8.Db
