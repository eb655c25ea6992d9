import Db8.Core.ReadBack

/-!
# The binary codec

`MojObject::toBytes` and `fromBytes`, and reading a run of objects one after another. A reader that
stands at an object reads exactly the bytes written for it, so the code is prefix-free and what was
concatenated is read back as a sequence.
-/

set_option autoImplicit false

namespace Db8.Core

open Db8.Bytes

/-- An object as the classes keep it: the properties of every object in it form a map. -/
abbrev DefinedObject := {obj : MojObject // obj.WellFormed}

namespace MojObjectReader

def hasNext (reader : MojObjectReader) : Bool := !reader.bytes.isEmpty

def readLoop : Nat → MojObjectReader → Except MojErr (MojObjectReader × List VisitorCall)
  | 0, reader => if reader.hasNext then .error .unexpectedEof else .ok (reader, [])
  | steps + 1, reader =>
    if reader.hasNext then do
      let (reader, calls) ← reader.next
      let (reader, later) ← readLoop steps reader
      .ok (reader, calls ++ later)
    else .ok (reader, [])

/-- `read`: every step reads a byte, so there are at most as many steps as bytes. -/
def read (bytes : ByteString) : Except MojErr (MojObjectReader × List VisitorCall) :=
  readLoop bytes.length ⟨bytes, []⟩

/-- `nextObject` with a fresh `MojObjectBuilder`. -/
def readObject (reader : MojObjectReader) : Except MojErr (MojObjectReader × Option MojObject) := do
  let (reader, calls) ← reader.nextObject
  let builder ← calls.foldlM MojObjectBuilder.visit MojObjectBuilder.empty
  .ok (reader, builder.obj)

def readObjectsLoop : Nat → MojObjectReader → Except MojErr (List MojObject)
  | 0, reader => if reader.hasNext then .error .unexpectedEof else .ok []
  | count + 1, reader =>
    if reader.hasNext then do
      let (reader, obj) ← reader.readObject
      let later ← readObjectsLoop count reader
      .ok (obj.toList ++ later)
    else .ok []

/-- Objects read one after another while there are bytes. -/
def readObjects (bytes : ByteString) : Except MojErr (List MojObject) :=
  readObjectsLoop bytes.length ⟨bytes, []⟩

end MojObjectReader

namespace MojObject

def toBytes (obj : MojObject) : ByteString := MojObjectWriter.value obj

def fromBytes (bytes : ByteString) : Except MojErr (Option MojObject) := do
  let (_, calls) ← MojObjectReader.read bytes
  let builder ← calls.foldlM MojObjectBuilder.visit MojObjectBuilder.empty
  .ok builder.obj

end MojObject

namespace MojDataReader

variable {bytes rest : ByteString}

theorem readNumber_rest {count number : Nat}
    (reads : readNumber count bytes = .ok (number, rest)) : rest.length ≤ bytes.length := by
  unfold readNumber at reads
  split_ifs at reads
  cases reads
  rw [List.length_drop]
  exact Nat.sub_le _ _

theorem readInt64_rest {val : MojInt64}
    (reads : readInt64 bytes = .ok (val, rest)) : rest.length ≤ bytes.length := by
  rcases except_bind_ok reads with ⟨⟨number, after⟩, numbers, ends⟩
  cases ends
  exact readNumber_rest numbers

theorem skip_rest {len : Nat} (skips : skip len bytes = .ok rest) : rest.length ≤ bytes.length := by
  unfold skip at skips
  split_ifs at skips
  cases skips
  rw [List.length_drop]
  exact Nat.sub_le _ _

end MojDataReader

namespace MojObjectReader

theorem readString_rest {val : MojString} {bytes rest : ByteString}
    (reads : readString bytes = .ok (val, rest)) : rest.length ≤ bytes.length := by
  induction bytes generalizing val with
  | nil => cases reads
  | cons byte bytes ih =>
    rw [readString] at reads
    split_ifs at reads
    · cases reads
      exact Nat.le_succ _
    · rcases except_bind_ok reads with ⟨⟨tail, after⟩, inner, ends⟩
      cases ends
      exact (ih inner).trans (Nat.le_succ _)

theorem readInt_rest {marker : Byte} {val : MojInt64} {bytes rest : ByteString}
    (reads : readInt marker bytes = .ok (val, rest)) : rest.length ≤ bytes.length := by
  unfold readInt at reads
  split_ifs at reads
  · cases reads
    exact le_refl _
  · rcases except_bind_ok reads with ⟨⟨number, after⟩, numbers, ends⟩
    cases ends
    exact MojDataReader.readNumber_rest numbers
  · exact MojDataReader.readInt64_rest reads

variable {calls : List VisitorCall}

theorem nextValue_rest {marker : Byte} {bytes : ByteString} {stack : List State}
    {after : MojObjectReader} (reads : nextValue marker bytes stack = .ok (after, calls)) :
    after.bytes.length ≤ bytes.length := by
  unfold nextValue at reads
  split at reads
  · cases reads
    exact le_refl _
  · cases reads
    exact le_refl _
  · rcases except_bind_ok reads with ⟨⟨str, rest⟩, inner, ends⟩
    cases ends
    exact readString_rest inner
  · cases reads
    exact le_refl _
  · cases reads
    exact le_refl _
  · rcases except_bind_ok reads with ⟨⟨rep, rest⟩, inner, ends⟩
    cases ends
    exact MojDataReader.readInt64_rest inner
  · rcases except_bind_ok reads with ⟨⟨val, rest⟩, inner, ends⟩
    cases ends
    exact readInt_rest inner
  · split_ifs at reads
    rcases except_bind_ok reads with ⟨⟨extSize, sized⟩, size, skips⟩
    rcases except_bind_ok skips with ⟨rest, skipped, ends⟩
    cases ends
    exact (MojDataReader.skip_rest skipped).trans (MojDataReader.readNumber_rest size)

variable {reader after : MojObjectReader}

theorem next_shortens
    (reads : reader.next = .ok (after, calls)) : after.bytes.length < reader.bytes.length := by
  rcases reader with ⟨bytes, stack⟩
  cases bytes with
  | nil => cases reads
  | cons marker rest =>
    apply Nat.lt_succ_of_le
    rcases stack with _ | ⟨_ | _ | _, stack⟩
    · exact nextValue_rest reads
    · exact nextValue_rest reads
    · simp only [next] at reads
      split_ifs at reads
      · cases reads
        exact le_refl _
      · rcases except_bind_ok reads with ⟨⟨name, tail⟩, inner, ends⟩
        cases ends
        exact readString_rest inner
    · simp only [next] at reads
      split_ifs at reads
      · cases reads
        exact le_refl _
      · exact nextValue_rest reads

theorem hasNext_of_next (reads : reader.next = .ok (after, calls)) : reader.hasNext = true := by
  rcases reader with ⟨_ | ⟨marker, rest⟩, stack⟩
  · cases reads
  · rfl

theorem readLoop_of_nextObjectLoop {steps : Nat}
    (reads : nextObjectLoop steps reader = .ok (after, calls)) :
    ∃ used, used + after.bytes.length ≤ reader.bytes.length ∧ ∀ more,
      readLoop (more + used) reader =
        (readLoop more after).map fun later => (later.1, calls ++ later.2) := by
  induction steps generalizing reader calls with
  | zero => cases reads
  | succ steps ih =>
    rw [nextObjectLoop] at reads
    rcases except_bind_ok reads with ⟨⟨first, firstCalls⟩, step, rest⟩
    have shorter := next_shortens step
    have unfoldStep : ∀ more, readLoop (more + 1) reader =
        (readLoop more first).map fun later => (later.1, firstCalls ++ later.2) := by
      intro more
      rw [readLoop, if_pos (hasNext_of_next step), step]
      simp only [bind, Except.bind]
      cases readLoop more first <;> rfl
    simp only at rest
    split_ifs at rest with finished
    · cases rest
      exact ⟨1, by omega, unfoldStep⟩
    · rcases except_bind_ok rest with ⟨⟨last, later⟩, others, ends⟩
      cases ends
      rcases ih others with ⟨used, bound, run⟩
      apply Exists.intro (used + 1)
      constructor
      · omega
      · intro more
        rw [← Nat.add_assoc, unfoldStep, run]
        cases readLoop more last <;> simp [Except.map]

theorem readLoop_values (objs : List MojObject) (steps : Nat)
    (enough : (objs.flatMap MojObjectWriter.value).length ≤ steps) :
    readLoop steps ⟨objs.flatMap MojObjectWriter.value, []⟩ =
      .ok (⟨[], []⟩, objs.flatMap MojObject.visits) := by
  induction objs generalizing steps with
  | nil => cases steps <;> rfl
  | cons obj objs ih =>
    rcases readLoop_of_nextObjectLoop
      (nextObject_value obj (objs.flatMap MojObjectWriter.value)) with ⟨used, bound, run⟩
    rw [List.flatMap_cons] at enough ⊢
    simp only at bound
    have split : steps = (steps - used) + used := by omega
    rw [split, run, ih (steps - used) (by omega)]
    rfl

theorem readObject_value (obj : DefinedObject) (rest : ByteString) :
    readObject ⟨MojObjectWriter.value obj.val ++ rest, []⟩ = .ok (⟨rest, []⟩, some obj.val) := by
  rw [readObject, nextObject_value]
  change ((MojObject.visits obj.val).foldlM MojObjectBuilder.visit MojObjectBuilder.empty >>=
    fun builder => _) = _
  rw [MojObjectBuilder.foldlM_visits_empty obj.property]
  rfl

theorem hasNext_value (obj : MojObject) (rest : ByteString) (stack : List State) :
    hasNext ⟨MojObjectWriter.value obj ++ rest, stack⟩ = true := by
  rcases MojObjectWriter.value_marker obj with ⟨marker, body, shape, _⟩
  rw [shape]
  rfl

theorem readObjectsLoop_values (objs : List DefinedObject) (count : Nat)
    (enough : (objs.flatMap fun obj => MojObjectWriter.value obj.val).length ≤ count) :
    readObjectsLoop count ⟨objs.flatMap fun obj => MojObjectWriter.value obj.val, []⟩ =
      .ok (objs.map Subtype.val) := by
  induction objs generalizing count with
  | nil => cases count <;> rfl
  | cons obj objs ih =>
    rw [List.flatMap_cons] at enough ⊢
    have written := List.length_pos_of_ne_nil (MojObjectWriter.value_ne_nil obj.val)
    rw [List.length_append] at enough
    cases count with
    | zero => omega
    | succ count =>
      rw [readObjectsLoop, if_pos (hasNext_value obj.val _ _), readObject_value]
      simp only [bind, Except.bind]
      rw [ih count (by omega)]
      rfl

end MojObjectReader

namespace MojObject

theorem fromBytes_toBytes (obj : DefinedObject) : fromBytes obj.val.toBytes = .ok (some obj.val) := by
  have run := MojObjectReader.readLoop_values [obj.val] _ (le_refl _)
  simp only [List.flatMap_cons, List.flatMap_nil, List.append_nil] at run
  rw [fromBytes, MojObjectReader.read, toBytes, run]
  change ((visits obj.val).foldlM MojObjectBuilder.visit MojObjectBuilder.empty >>=
    fun builder => _) = _
  rw [MojObjectBuilder.foldlM_visits_empty obj.property]
  rfl

/-- The reader gives back what was written and stops behind it, whatever follows; no encoding
continues another; encodings written one after another are read as the sequence. -/
theorem codec_round_trip :
    (∀ (obj : DefinedObject) (rest : ByteString),
      MojObjectReader.readObject ⟨obj.val.toBytes ++ rest, []⟩ = .ok (⟨rest, []⟩, some obj.val)) ∧
    (∀ obj : DefinedObject, fromBytes obj.val.toBytes = .ok (some obj.val)) ∧
    (∀ left right : MojObject, left.toBytes <+: right.toBytes → left = right) ∧
    (∀ objs : List DefinedObject,
      MojObjectReader.readObjects (objs.flatMap fun obj => obj.val.toBytes) =
        .ok (objs.map Subtype.val)) := by
  apply And.intro MojObjectReader.readObject_value
  apply And.intro fromBytes_toBytes
  constructor
  · intro left right starts
    apply MojObjectWriter.value_injective
    exact MojObjectWriter.codes_prefixFree _ ⟨left, rfl⟩ _ ⟨right, rfl⟩ starts
  · intro objs
    exact MojObjectReader.readObjectsLoop_values objs _ (le_refl _)

end MojObject

end Db8.Core
