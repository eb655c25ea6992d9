import Db8.Core.Err
import Db8.Core.Object

/-!
# Reading serialized objects

`MojObjectReader` without a token set: a stack machine that reports what it reads to a visitor, one
marker at a time, and `MojObjectBuilder`, the visitor that puts an object together again.
-/

set_option autoImplicit false

namespace Db8.Core

open Db8.Bytes

/-- The calls of a `MojObjectVisitor`. -/
inductive VisitorCall where
  | beginObject
  | endObject
  | beginArray
  | endArray
  | propName (name : MojString)
  | nullValue
  | boolValue (val : Bool)
  | intValue (val : MojInt64)
  | decimalValue (rep : MojInt64)
  | stringValue (val : MojString)
deriving DecidableEq

namespace MojDataReader

/-- A big-endian number of `count` bytes. -/
def readNumber (count : Nat) (bytes : ByteString) : Except MojErr (Nat × ByteString) :=
  if bytes.length < count then .error .unexpectedEof
  else .ok ((bytes.take count).foldl (fun number byte => number * 256 + byte.val) 0,
    bytes.drop count)

def readInt64 (bytes : ByteString) : Except MojErr (MojInt64 × ByteString) := do
  let (number, rest) ← readNumber 8 bytes
  .ok (BitVec.ofNat 64 number, rest)

def skip (len : Nat) (bytes : ByteString) : Except MojErr ByteString :=
  if bytes.length < len then .error .unexpectedEof else .ok (bytes.drop len)

end MojDataReader

namespace MojObjectReader

inductive State where
  | value
  | object
  | array
deriving DecidableEq

end MojObjectReader

structure MojObjectReader where
  bytes : ByteString
  stack : List MojObjectReader.State

namespace MojObjectReader

/-- The characters up to the next NUL, which is read too. -/
def readString : ByteString → Except MojErr (MojString × ByteString)
  | [] => .error .unexpectedEof
  | byte :: rest =>
    if ends : byte = 0 then .ok ([], rest)
    else do
      let (str, rest) ← readString rest
      .ok (⟨byte, ends⟩ :: str, rest)

def readInt (marker : Byte) (bytes : ByteString) : Except MojErr (MojInt64 × ByteString) :=
  if marker = 10 then .ok (0, bytes)
  else if marker = 11 ∨ marker = 12 ∨ marker = 13 then do
    let (number, rest) ← MojDataReader.readNumber (MojObjectWriter.intWidth marker) bytes
    .ok (BitVec.ofNat 64 number, rest)
  else if marker = 9 ∨ marker = 14 then MojDataReader.readInt64 bytes
  else .error .objectReaderUnexpectedMarker

/-- `next` in the value state, its own state popped already. -/
def nextValue (marker : Byte) (bytes : ByteString) (stack : List State) :
    Except MojErr (MojObjectReader × List VisitorCall) :=
  match MojObjectWriter.markerType marker with
  | some .object => .ok (⟨bytes, .object :: stack⟩, [.beginObject])
  | some .array => .ok (⟨bytes, .array :: stack⟩, [.beginArray])
  | some .string => do
    let (str, rest) ← readString bytes
    .ok (⟨rest, stack⟩, [.stringValue str])
  | some .null => .ok (⟨bytes, stack⟩, [.nullValue])
  | some .bool => .ok (⟨bytes, stack⟩, [.boolValue (decide (marker = 6))])
  | some .decimal => do
    let (rep, rest) ← MojDataReader.readInt64 bytes
    .ok (⟨rest, stack⟩, [.decimalValue rep])
  | some .int => do
    let (val, rest) ← readInt marker bytes
    .ok (⟨rest, stack⟩, [.intValue val])
  | none =>
    if marker = 15 then do
      let (extSize, rest) ← MojDataReader.readNumber 4 bytes
      let rest ← MojDataReader.skip extSize rest
      .ok (⟨rest, stack⟩, [])
    else .error .objectReaderUnexpectedMarker

def next (reader : MojObjectReader) : Except MojErr (MojObjectReader × List VisitorCall) :=
  match reader.bytes with
  | [] => .error .unexpectedEof
  | marker :: rest =>
    match reader.stack with
    | [] => nextValue marker rest []
    | .value :: stack => nextValue marker rest stack
    | .object :: stack =>
      if marker = 0 then .ok (⟨rest, stack⟩, [.endObject])
      else if marker = 4 then do
        let (name, rest) ← readString rest
        .ok (⟨rest, .value :: .object :: stack⟩, [.propName name])
      else .error .objectReaderUnexpectedMarker
    | .array :: stack =>
      if marker = 0 then .ok (⟨rest, stack⟩, [.endArray])
      else nextValue marker rest (.array :: stack)

def nextObjectLoop : Nat → MojObjectReader → Except MojErr (MojObjectReader × List VisitorCall)
  | 0, _ => .error .unexpectedEof
  | steps + 1, reader => do
    let (reader, calls) ← reader.next
    if reader.stack = [] then .ok (reader, calls)
    else do
      let (reader, later) ← nextObjectLoop steps reader
      .ok (reader, calls ++ later)

/-- Every step reads a byte, so one step more than there are bytes meets the end of them. -/
def nextObject (reader : MojObjectReader) :
    Except MojErr (MojObjectReader × List VisitorCall) :=
  nextObjectLoop (reader.bytes.length + 1) reader

/-- Read past some objects, with a `MojObjectEater`. -/
def skipObjects : Nat → MojObjectReader → Except MojErr MojObjectReader
  | 0, reader => .ok reader
  | count + 1, reader => do
    let (reader, _) ← reader.nextObject
    skipObjects count reader

end MojObjectReader

/-- The object under construction, the enclosing ones with their property names, and the last
property name seen. -/
structure MojObjectBuilder where
  obj : Option MojObject
  stack : List (MojObject × MojString)
  propName : MojString

namespace MojObjectBuilder

def empty : MojObjectBuilder := ⟨none, [], []⟩

def value (builder : MojObjectBuilder) (val : MojObject) : Except MojErr MojObjectBuilder :=
  match builder.stack with
  | [] => .ok { builder with obj := some val }
  | (.object props, name) :: stack =>
    .ok { builder with
      stack := ((MojObject.object props).put builder.propName val, name) :: stack }
  | (.array vals, name) :: stack =>
    .ok { builder with stack := (.array (vals ++ [val]), name) :: stack }
  | _ => .error (.assertFailed "obj.type() == MojObject::TypeArray")

def push (builder : MojObjectBuilder) (obj : MojObject) : MojObjectBuilder :=
  { builder with stack := (obj, builder.propName) :: builder.stack }

def pop (builder : MojObjectBuilder) : Except MojErr MojObjectBuilder :=
  match builder.stack with
  | [] => .error (.assertFailed "!m_stack.empty()")
  | (obj, name) :: stack => value { builder with stack := stack, propName := name } obj

def visit (builder : MojObjectBuilder) : VisitorCall → Except MojErr MojObjectBuilder
  | .beginObject => .ok (builder.push (.object []))
  | .beginArray => .ok (builder.push (.array []))
  | .endObject => builder.pop
  | .endArray => builder.pop
  | .propName name => .ok { builder with propName := name }
  | .nullValue => builder.value .null
  | .boolValue val => builder.value (.bool val)
  | .intValue val => builder.value (.int val)
  | .decimalValue rep => builder.value (.decimal rep)
  | .stringValue val => builder.value (.string val)

end MojObjectBuilder

end Db8.Core
