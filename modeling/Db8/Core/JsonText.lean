import Db8.Core.JsonWriter
import Db8.Core.NumberText
import Db8.Core.ReadBack

/-!
# JSON text, written and parsed

The bytes that the writer appends for a token, `MojObject::toJson`, and `fromJson`, which parses a
text into a builder.
-/

set_option autoImplicit false

namespace Db8.Core

open Db8.Bytes MojJsonParser

namespace MojJsonWriter

/-- The table `escape`: zero for a byte that is written as it is, one for a byte that is written by
its code, else the letter behind the backslash. -/
def escapeTable : List Byte :=
  [1, 1, 1, 1, 1, 1, 1, 1, ch 'b', ch 't', ch 'n', 1, ch 'f', ch 'r', 1, 1] ++
  List.replicate 16 1 ++
  ([0, 0, ch '"'] ++ List.replicate 13 0) ++
  List.replicate 16 0 ++
  List.replicate 16 0 ++
  (List.replicate 12 0 ++ [ch '\\', 0, 0, 0])

def hexByte (digit : Nat) : Byte := Fin.ofNat 256 (if digit < 10 then 48 + digit else 55 + digit)

def escaped (c : Byte) : ByteString :=
  match escapeTable[c.val]? with
  | none => [c]
  | some escape =>
    if escape = 0 then [c]
    else if escape = 1 then
      ch '\\' :: ch 'u' :: [3, 2, 1, 0].map fun place => hexByte (c.val / 16 ^ place % 16)
    else [ch '\\', escape]

def writeString (val : MojString) : ByteString :=
  ch '"' :: ((val.flatMap fun c => escaped c.val) ++ [ch '"'])

end MojJsonWriter

def JsonToken.text : JsonToken → ByteString
  | .openObject => [ch '\x7b']
  | .closeObject => [ch '\x7d']
  | .openArray => [ch '[']
  | .closeArray => [ch ']']
  | .comma => [ch ',']
  | .colon => [ch ':']
  | .null => nullString
  | .bool val => if val then trueString else falseString
  | .int val => intText val
  | .decimal rep => MojDecimal.stringValue rep
  | .string val => MojJsonWriter.writeString val

/-- `m_str`. -/
def MojJsonWriter.str (writer : MojJsonWriter) : ByteString := writer.json.flatMap JsonToken.text

def MojObject.toJson (obj : MojObject) : ByteString := (MojJsonWriter.create.write obj.visit).str

def JsonCall.visitorCall : JsonCall → VisitorCall
  | .beginObject => .beginObject
  | .endObject => .endObject
  | .beginArray => .beginArray
  | .endArray => .endArray
  | .propName name => .propName (cString name)
  | .nullValue => .nullValue
  | .boolValue val => .boolValue val
  | .intValue val => .intValue val
  | .decimalValue rep => .decimalValue rep
  | .stringValue val => .stringValue (cString val)

def VisitorCall.jsonCall : VisitorCall → JsonCall
  | .beginObject => .beginObject
  | .endObject => .endObject
  | .beginArray => .beginArray
  | .endArray => .endArray
  | .propName name => .propName (name.map Subtype.val)
  | .nullValue => .nullValue
  | .boolValue val => .boolValue val
  | .intValue val => .intValue val
  | .decimalValue rep => .decimalValue rep
  | .stringValue val => .stringValue (val.map Subtype.val)

def MojObjectBuilder.visitor : JsonVisitor MojObjectBuilder := fun builder call =>
  match builder.visit call.visitorCall with
  | .ok builder => (builder, none)
  | .error err => (builder, some err)

/-- `parse`; none if it does not come back. -/
def MojJsonParser.parse {σ : Type} (visitor : JsonVisitor σ)
    (toDecimal : ByteString → Except MojErr MojInt64) (vis : σ) (chars : ByteString) :
    Option (Except MojErr σ) :=
  match parseChunk visitor toDecimal create.restart vis chars with
  | (_, _, .never) => none
  | (_, _, .error err) => some (.error err)
  | (parser, vis, .ok _) =>
    match parseEnd visitor toDecimal parser vis with
    | (_, _, .never) => none
    | (_, _, .error err) => some (.error err)
    | (parser, vis, .ok _) =>
      if parser.finished then some (.ok vis) else some (.error (.jsonParse .eof "" 0 0))

def MojObject.fromJson (fault : MojNumber.NumberErr → MojErr) (chars : ByteString) :
    Option (Except MojErr (Option MojObject)) :=
  (MojJsonParser.parse MojObjectBuilder.visitor (MojDecimal.assign fault) MojObjectBuilder.empty
    chars).map fun built => built.map MojObjectBuilder.obj

namespace MojObject

theorem toJson_eq (obj : MojObject) : obj.toJson = obj.json.flatMap JsonToken.text := by
  rw [toJson, MojJsonWriter.write_visit, MojJsonWriter.str]
  rfl

mutual

/-- How many objects and arrays stand around the innermost value. -/
def nesting : MojObject → Nat
  | .object props => nestingProps props
  | .array vals => nestingVals vals
  | _ => 0

def nestingProps : List (MojString × MojObject) → Nat
  | [] => 0
  | (_, val) :: rest => max (nesting val + 1) (nestingProps rest)

def nestingVals : List MojObject → Nat
  | [] => 0
  | val :: rest => max (nesting val + 1) (nestingVals rest)

end

mutual

def Absolute : MojObject → Prop
  | .object props => AbsoluteProps props
  | .array vals => AbsoluteVals vals
  | .decimal rep => rep ≠ BitVec.intMin 64
  | _ => True

def AbsoluteProps : List (MojString × MojObject) → Prop
  | [] => True
  | (_, val) :: rest => Absolute val ∧ AbsoluteProps rest

def AbsoluteVals : List MojObject → Prop
  | [] => True
  | val :: rest => Absolute val ∧ AbsoluteVals rest

end

end MojObject

end Db8.Core
