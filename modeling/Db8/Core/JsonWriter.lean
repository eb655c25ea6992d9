import Db8.Core.ObjectReader
import Mathlib.Algebra.Ring.Int.Defs

/-!
# The JSON writer

`MojJsonWriter` is a visitor that appends to its text and keeps one bit, whether the next value or
name needs a comma. The text is a list of tokens here. Visiting an object appends the text of the
object, and in such a text everything opened is closed.
-/

set_option autoImplicit false

namespace Db8.Core

inductive JsonToken where
  | openObject
  | closeObject
  | openArray
  | closeArray
  | comma
  | colon
  | null
  | bool (val : Bool)
  | int (val : MojInt64)
  | decimal (rep : MojInt64)
  | string (val : MojString)
deriving DecidableEq

def separator (comma : Bool) : List JsonToken := if comma then [.comma] else []

namespace MojObject

mutual

def visit : MojObject → List VisitorCall
  | .null => [.nullValue]
  | .object props => .beginObject :: visitProps props ++ [.endObject]
  | .array vals => .beginArray :: visitVals vals ++ [.endArray]
  | .string val => [.stringValue val]
  | .bool val => [.boolValue val]
  | .decimal rep => [.decimalValue rep]
  | .int val => [.intValue val]

def visitProps : List (MojString × MojObject) → List VisitorCall
  | [] => []
  | (name, val) :: rest => .propName name :: visit val ++ visitProps rest

def visitVals : List MojObject → List VisitorCall
  | [] => []
  | val :: rest => visit val ++ visitVals rest

end

mutual

def json : MojObject → List JsonToken
  | .null => [.null]
  | .object props => .openObject :: jsonProps false props ++ [.closeObject]
  | .array vals => .openArray :: jsonVals false vals ++ [.closeArray]
  | .string val => [.string val]
  | .bool val => [.bool val]
  | .decimal rep => [.decimal rep]
  | .int val => [.int val]

def jsonProps (comma : Bool) : List (MojString × MojObject) → List JsonToken
  | [] => []
  | (name, val) :: rest =>
    separator comma ++ .string name :: .colon :: json val ++ jsonProps true rest

def jsonVals (comma : Bool) : List MojObject → List JsonToken
  | [] => []
  | val :: rest => separator comma ++ json val ++ jsonVals true rest

end

theorem json_ne_nil (obj : MojObject) : obj.json ≠ [] := by
  cases obj <;> simp [json]

end MojObject

structure MojJsonWriter where
  json : List JsonToken
  writeComma : Bool
deriving DecidableEq

namespace MojJsonWriter

def create : MojJsonWriter := ⟨[], false⟩

def reset (_ : MojJsonWriter) : MojJsonWriter := create

/-- Append tokens behind the comma they may need. -/
def append (writer : MojJsonWriter) (tokens : List JsonToken) (comma : Bool) : MojJsonWriter :=
  ⟨writer.json ++ separator writer.writeComma ++ tokens, comma⟩

def visit (writer : MojJsonWriter) : VisitorCall → MojJsonWriter
  | .beginObject => writer.append [.openObject] false
  | .endObject => ⟨writer.json ++ [.closeObject], true⟩
  | .beginArray => writer.append [.openArray] false
  | .endArray => ⟨writer.json ++ [.closeArray], true⟩
  | .propName name => writer.append [.string name, .colon] false
  | .nullValue => writer.append [.null] true
  | .boolValue val => writer.append [.bool val] true
  | .intValue val => writer.append [.int val] true
  | .decimalValue rep => writer.append [.decimal rep] true
  | .stringValue val => writer.append [.string val] true

def write (writer : MojJsonWriter) (calls : List VisitorCall) : MojJsonWriter :=
  calls.foldl visit writer

@[simp] theorem write_nil (writer : MojJsonWriter) : writer.write [] = writer := rfl

@[simp] theorem write_cons (writer : MojJsonWriter) (call : VisitorCall)
    (calls : List VisitorCall) :
    writer.write (call :: calls) = (writer.visit call).write calls := rfl

@[simp] theorem write_append (writer : MojJsonWriter) (front back : List VisitorCall) :
    writer.write (front ++ back) = (writer.write front).write back :=
  List.foldl_append

mutual

theorem write_visit (writer : MojJsonWriter) :
    ∀ obj : MojObject, writer.write obj.visit = writer.append obj.json true
  | .null => rfl
  | .object props => by
    rw [MojObject.visit, MojObject.json, List.cons_append, write_cons, write_append,
      write_visitProps]
    simp [visit, append, separator]
  | .array vals => by
    rw [MojObject.visit, MojObject.json, List.cons_append, write_cons, write_append,
      write_visitVals]
    simp [visit, append, separator]
  | .string _ => rfl
  | .bool _ => rfl
  | .decimal _ => rfl
  | .int _ => rfl

theorem write_visitProps (writer : MojJsonWriter) :
    ∀ props : List (MojString × MojObject), writer.write (MojObject.visitProps props) =
      ⟨writer.json ++ MojObject.jsonProps writer.writeComma props,
        writer.writeComma || !props.isEmpty⟩
  | [] => by simp [MojObject.visitProps, MojObject.jsonProps]
  | (name, val) :: rest => by
    rw [MojObject.visitProps, MojObject.jsonProps, List.cons_append, write_cons, write_append,
      write_visit, write_visitProps]
    simp [visit, append, separator]

theorem write_visitVals (writer : MojJsonWriter) :
    ∀ vals : List MojObject, writer.write (MojObject.visitVals vals) =
      ⟨writer.json ++ MojObject.jsonVals writer.writeComma vals,
        writer.writeComma || !vals.isEmpty⟩
  | [] => by simp [MojObject.visitVals, MojObject.jsonVals]
  | val :: rest => by
    rw [MojObject.visitVals, MojObject.jsonVals, write_append, write_visit, write_visitVals]
    simp [append]

end

end MojJsonWriter

namespace JsonToken

/-- How many objects and arrays a token opens. -/
def opens : JsonToken → Int
  | .openObject => 1
  | .openArray => 1
  | .closeObject => -1
  | .closeArray => -1
  | _ => 0

/-- How many objects and arrays of a text are open at its end. -/
def depth (tokens : List JsonToken) : Int := (tokens.map opens).sum

@[simp] theorem depth_nil : depth [] = 0 := rfl

@[simp] theorem depth_cons (token : JsonToken) (tokens : List JsonToken) :
    depth (token :: tokens) = token.opens + depth tokens := by
  simp [depth]

@[simp] theorem depth_append (front back : List JsonToken) :
    depth (front ++ back) = depth front + depth back := by
  simp [depth]

@[simp] theorem depth_separator (comma : Bool) : depth (separator comma) = 0 := by
  cases comma <;> rfl

mutual

theorem depth_json : ∀ obj : MojObject, depth obj.json = 0
  | .null => rfl
  | .object props => by
    simp [MojObject.json, opens, depth_jsonProps]
  | .array vals => by
    simp [MojObject.json, opens, depth_jsonVals]
  | .string _ => rfl
  | .bool _ => rfl
  | .decimal _ => rfl
  | .int _ => rfl

theorem depth_jsonProps (comma : Bool) :
    ∀ props : List (MojString × MojObject), depth (MojObject.jsonProps comma props) = 0
  | [] => by simp [MojObject.jsonProps]
  | (name, val) :: rest => by
    simp [MojObject.jsonProps, opens, depth_json val, depth_jsonProps true rest]

theorem depth_jsonVals (comma : Bool) :
    ∀ vals : List MojObject, depth (MojObject.jsonVals comma vals) = 0
  | [] => by simp [MojObject.jsonVals]
  | val :: rest => by
    simp [MojObject.jsonVals, depth_json val, depth_jsonVals true rest]

end

end JsonToken

end Db8.Core
