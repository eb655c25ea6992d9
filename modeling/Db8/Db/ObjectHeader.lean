import Db8.Db.PutObj
import Db8.Db.TokenRuns

/-!
# The stored form of an object

`MojDb::putObj` takes four properties of an object into a header, writes the header without tokens
and the rest with the token set of the kind, and a storage item reads both with one reader. While an
object is written, other writers of its kind may be given tokens between any two of its strings.
-/

set_option autoImplicit false

namespace Db8.Db

open Db8.Bytes
open Db8.Core

structure KindRegistry where
  kinds : List (MojString × MojInt64)
  tokens : List (MojInt64 × MojString)
  agree : ∀ id token, kinds.lookup id = some token → tokens.lookup token = some id

namespace KindRegistry

def empty : KindRegistry := ⟨[], [], by simp⟩

/-- The end of `createKind`; tokens of kinds come from a sequence and are kept in a record, so that
no other kind ever had this one. -/
def createKind (registry : KindRegistry) (id : MojString) (token : MojInt64)
    (unused : ∀ other, registry.kinds.lookup other = some token → other = id) : KindRegistry where
  kinds := (id, token) :: registry.kinds
  tokens := (token, id) :: registry.tokens
  agree := by
    intro other found known
    rw [List.lookup_cons] at known ⊢
    by_cases same : other = id
    · simp only [same, beq_self_eq_true] at known
      rw [← Option.some.inj known, same]
      simp
    · have apart : (other == id) = false := by simpa using same
      rw [apart] at known
      have tokens : (found == token) = false := by
        rw [beq_eq_false_iff_ne]
        rintro rfl
        exact same (unused other known)
      rw [tokens]
      exact registry.agree other found known

def tokenFromId (registry : KindRegistry) (id : MojString) : Except MojErr MojInt64 :=
  match registry.kinds.lookup id with
  | some token => .ok token
  | none => .error .dbKindNotRegistered

def idFromToken (registry : KindRegistry) (token : MojInt64) : Except MojErr MojString :=
  match registry.tokens.lookup token with
  | some id => .ok id
  | none => .error .dbInvalidKindToken

theorem idFromToken_of_tokenFromId {registry : KindRegistry} {id : MojString} {token : MojInt64}
    (known : registry.tokenFromId id = .ok token) : registry.idFromToken token = .ok id := by
  unfold tokenFromId at known
  split at known
  · rename_i found inside
    cases known
    rw [idFromToken, registry.agree id token inside]
  · cases known

end KindRegistry

/-! ### Writing with tokens -/

/-- What happens around a call of the writer: the strings other sets of the kind ask for before it,
and how the write of the record ends. -/
structure TokenTurn where
  others : List (MojString × TokenWrite)
  write : TokenWrite

structure TokenWorld where
  set : MojTokenSet
  state : MojDbKindState
  store : Option ByteString
  turns : List TokenTurn

abbrev TokenWriting (α : Type) := EStateM MojErr TokenWorld α

/-- The calls of `addToken` that other sets make. -/
def addOthers : List (MojString × TokenWrite) → MojDbKindState → Option ByteString →
    MojDbKindState × Option ByteString
  | [], state, store => (state, store)
  | (str, write) :: others, state, store =>
    let (_, state, store) := state.addPropImpl str (some write) store
    addOthers others state store

namespace MojTokenWriter

def writeString (val : MojString) (addToken : Bool) : TokenWriting ByteString := fun world =>
  let turn := world.turns.head?.getD ⟨[], .done⟩
  let (state, store) := addOthers turn.others world.state world.store
  match world.set.tokenFromString val addToken turn.write state store with
  | (.error err, set, state, store) => .error err ⟨set, state, store, world.turns.tail⟩
  | (.ok token, set, state, store) =>
    .ok (if token ≠ invalidToken then [Fin.ofNat 256 token]
      else MojObjectWriter.stringValue (MojObjectWriter.charBytes val))
      ⟨set, state, store, world.turns.tail⟩

mutual

/-- `MojObject::visit` with a `MojObjectWriter` that has a token set. -/
def value : MojObject → TokenWriting ByteString
  | .null => return MojObjectWriter.value .null
  | .object props => do
    let bytes ← propsValue props
    return 2 :: bytes
  | .array vals => do
    let bytes ← valsValue vals
    return 3 :: bytes
  | .string val => writeString val false
  | .bool val => return MojObjectWriter.value (.bool val)
  | .decimal rep => return MojObjectWriter.value (.decimal rep)
  | .int val => return MojObjectWriter.value (.int val)

def propsValue : List (MojString × MojObject) → TokenWriting ByteString
  | [] => return [0]
  | (name, val) :: rest => do
    let nameBytes ← writeString name true
    let valBytes ← value val
    let restBytes ← propsValue rest
    return nameBytes ++ (valBytes ++ restBytes)

def valsValue : List MojObject → TokenWriting ByteString
  | [] => return [0]
  | val :: rest => do
    let valBytes ← value val
    let restBytes ← valsValue rest
    return valBytes ++ restBytes

end

end MojTokenWriter

/-! ### The header -/

/-- The kind is the text of the object's property; the text of a value that is no string names no
kind. -/
structure MojDbObjectHeader where
  id : MojObject
  kindId : Option MojString
  rev : MojInt64
  del : Bool

namespace MojDbObjectHeader

open MojDb

def version : Byte := 1

def markerHeaderEnd : Byte := 16

/-- `extractFrom` for the header of an id, with what it leaves of the object. -/
def extractFrom (id obj : MojObject) : Except MojErr (MojDbObjectHeader × MojObject) := do
  mojAssert (obj.get idKey).isSome "found"
  let obj := obj.del idKey
  match obj.get kindKey with
  | none => .error (.requiredPropNotFound (kindKey.map Subtype.val))
  | some kind =>
    let obj := obj.del kindKey
    match obj.get revKey with
    | none => .error (.requiredPropNotFound (revKey.map Subtype.val))
    | some rev =>
      let obj := obj.del revKey
      let kindId := match kind with
        | .string kindId => some kindId
        | _ => none
      .ok (⟨id, kindId, rev.intValue, deleted obj⟩, obj)

def write (header : MojDbObjectHeader) (registry : KindRegistry) : Except MojErr ByteString :=
  match header.kindId with
  | none => .error .dbKindNotRegistered
  | some kindId => do
    let kindTok ← registry.tokenFromId kindId
    .ok (version :: MojObjectWriter.intValue kindTok ++ MojObjectWriter.intValue header.rev ++
      (if header.del then MojObjectWriter.boolValue true else []) ++ [markerHeaderEnd])

/-- A step of the reader with the builder that `read` uses throughout. -/
def nextVal (builder : MojObjectBuilder) (reader : MojObjectReader) :
    Except MojErr (MojObjectBuilder × MojObjectReader) := do
  let (reader, calls) ← reader.next
  let builder ← calls.foldlM MojObjectBuilder.visit builder
  .ok (builder, reader)

def peeksEnd (reader : MojObjectReader) : Bool := reader.bytes.head? = some markerHeaderEnd

/-- What newer versions may have added to the header; every step reads a byte. -/
def skipUnknown : Nat → MojObjectReader → Except MojErr MojObjectReader
  | 0, reader => .ok reader
  | count + 1, reader =>
    if peeksEnd reader then .ok reader
    else do
      let (reader, _) ← reader.next
      skipUnknown count reader

/-- `read`, with the reader as it leaves it. -/
def read (id : MojObject) (registry : KindRegistry) (bytes : ByteString) :
    Except MojErr (MojDbObjectHeader × MojObjectReader) :=
  match bytes with
  | [] => .error .unexpectedEof
  | found :: bytes =>
    if found ≠ version then .error .dbHeaderVersionMismatch
    else do
      let (builder, reader) ← nextVal .empty ⟨bytes, []⟩
      let kindId ← registry.idFromToken ((builder.obj.map MojObject.intValue).getD 0)
      let (builder, reader) ← nextVal builder reader
      let rev := (builder.obj.map MojObject.intValue).getD 0
      let (del, reader) ←
        if peeksEnd reader then .ok (false, reader)
        else do
          let (builder, reader) ← nextVal builder reader
          .ok ((builder.obj.map MojObject.boolValue).getD false, reader)
      let reader ← skipUnknown reader.bytes.length reader
      match reader.bytes with
      | [] => .error .unexpectedEof
      | _ :: bytes => .ok (⟨id, some kindId, rev, del⟩, ⟨bytes, reader.stack⟩)

/-- The calls of `visit` on its visitor. -/
def visits (header : MojDbObjectHeader) : List VisitorCall :=
  .beginObject :: .propName idKey :: (header.id.visits ++
    .propName kindKey :: .stringValue (header.kindId.getD []) ::
    .propName revKey :: .intValue header.rev ::
    (if header.del then [.propName delKey, .boolValue true] else []))

end MojDbObjectHeader

/-! ### Reading with tokens -/

/-- The reader of an item: it has a token set, and one `beginObject` to leave out. -/
structure MojItemReader where
  bytes : ByteString
  stack : List MojObjectReader.State
  skipBeginObj : Bool

namespace MojItemReader

/-- `next` in the value state. Only the default case of the source looks at the token set, and only
the begin of an object at what is left out. -/
def nextValue (set : MojTokenSet) (marker : Byte) (bytes : ByteString)
    (stack : List MojObjectReader.State) (skipBeginObj : Bool) :
    Except MojErr (MojItemReader × List VisitorCall) :=
  if marker = 2 then
    .ok (⟨bytes, .object :: stack, false⟩, if skipBeginObj then [] else [.beginObject])
  else if (MojObjectWriter.markerType marker).isSome ∨ marker = 15 then do
    let (reader, calls) ← MojObjectReader.nextValue marker bytes stack
    .ok (⟨reader.bytes, reader.stack, skipBeginObj⟩, calls)
  else do
    let val ← set.stringFromToken marker.val
    .ok (⟨bytes, stack, skipBeginObj⟩, [.stringValue val])

def next (set : MojTokenSet) (reader : MojItemReader) :
    Except MojErr (MojItemReader × List VisitorCall) :=
  match reader.bytes with
  | [] => .error .unexpectedEof
  | marker :: rest =>
    match reader.stack with
    | [] => nextValue set marker rest [] reader.skipBeginObj
    | .value :: stack => nextValue set marker rest stack reader.skipBeginObj
    | .object :: stack =>
      if marker = 0 then .ok (⟨rest, stack, reader.skipBeginObj⟩, [.endObject])
      else if marker = 4 then do
        let (name, rest) ← MojObjectReader.readString rest
        .ok (⟨rest, .value :: .object :: stack, reader.skipBeginObj⟩, [.propName name])
      else do
        let name ← set.stringFromToken marker.val
        .ok (⟨rest, .value :: .object :: stack, reader.skipBeginObj⟩, [.propName name])
    | .array :: stack =>
      if marker = 0 then .ok (⟨rest, stack, reader.skipBeginObj⟩, [.endArray])
      else nextValue set marker rest (.array :: stack) reader.skipBeginObj

def readLoop (set : MojTokenSet) : Nat → MojItemReader → Except MojErr (List VisitorCall)
  | 0, reader => if reader.bytes = [] then .ok [] else .error .unexpectedEof
  | steps + 1, reader =>
    if reader.bytes = [] then .ok []
    else do
      let (reader, calls) ← reader.next set
      let later ← readLoop set steps reader
      .ok (calls ++ later)

/-- `read`: every step reads a byte. -/
def read (set : MojTokenSet) (reader : MojItemReader) : Except MojErr (List VisitorCall) :=
  readLoop set reader.bytes.length reader

end MojItemReader

/-- The bytes `putObj` stores under an id for an object that has its revision. -/
def storedBytes (registry : KindRegistry) (id obj : MojObject) : TokenWriting ByteString := fun world =>
  match MojDbObjectHeader.extractFrom id obj with
  | .error err => .error err world
  | .ok (header, rest) =>
    match header.write registry with
    | .error err => .error err world
    | .ok front =>
      match MojTokenWriter.value rest world with
      | .error err world => .error err world
      | .ok body world => .ok (front ++ body) world

/-- `toObject` of a storage item: the header is read and visited, then the token set of its kind is
taken and the rest read with it. -/
def toObject (registry : KindRegistry) (tokenSet : MojString → Except MojErr MojTokenSet)
    (id : MojObject) (bytes : ByteString) : Except MojErr (Option MojObject) := do
  let (header, reader) ← MojDbObjectHeader.read id registry bytes
  let set ← tokenSet (header.kindId.getD [])
  let calls ← MojItemReader.read set ⟨reader.bytes, reader.stack, true⟩
  let builder ← (header.visits ++ calls).foldlM MojObjectBuilder.visit MojObjectBuilder.empty
  .ok builder.obj

end Db8.Db
