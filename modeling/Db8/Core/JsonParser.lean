import Db8.Core.Convert
import Db8.Core.Err

/-!
# The JSON parser

`MojJsonParser`, a stack of states with the state to go back to beside each, the text of the token
under way and the digits of an escape. It is given its text in chunks and calls a visitor, whose
calls may fail. The reading of decimals is left open: nothing here depends on it.
-/

set_option autoImplicit false

namespace Db8.Core

open Db8.Bytes

/-- The calls of the parser on its visitor, with strings as they stand in the text. -/
inductive JsonCall where
  | beginObject
  | endObject
  | beginArray
  | endArray
  | propName (name : ByteString)
  | nullValue
  | boolValue (val : Bool)
  | intValue (val : MojInt64)
  | decimalValue (rep : MojInt64)
  | stringValue (val : ByteString)
deriving DecidableEq

/-- A `MojObjectVisitor` as a state and what a call makes of it. -/
abbrev JsonVisitor (σ : Type) := σ → JsonCall → σ × Option MojErr

namespace MojJsonParser

inductive State where
  | eatWhitespace
  | start
  | finish
  | null
  | commentStart
  | comment
  | commentEol
  | commentEnd
  | string
  | stringEscape
  | escapeUnicode
  | bool
  | number
  | array
  | arraySep
  | objFieldStart
  | objField
  | objFieldEnd
  | objValue
  | objSep
deriving DecidableEq, Repr

structure StackRec where
  state : State
  savedState : State
deriving DecidableEq, Repr

def maxDepth : Nat := 32

/-- `resetRec`. -/
def freshRec : StackRec := ⟨.eatWhitespace, .start⟩

def ch (c : Char) : Byte := Fin.ofNat 256 c.toNat

def isSpaceByte (c : Byte) : Bool := (9 ≤ c.val && c.val ≤ 13) || c.val = 32

def isDigitByte (c : Byte) : Bool := 48 ≤ c.val && c.val ≤ 57

def isHexDigitByte (c : Byte) : Bool :=
  isDigitByte c || (65 ≤ c.val && c.val ≤ 70) || (97 ≤ c.val && c.val ≤ 102)

def hexDigit (c : Byte) : Nat := if c.val ≤ 57 then c.val - 48 else (c.val &&& 7) + 9

def literal (text : String) : ByteString := text.toList.map ch

def nullString : ByteString := literal "null"

def trueString : ByteString := literal "true"

def falseString : ByteString := literal "false"

/-- The string up to its first NUL, as the library functions see it. -/
def cString : ByteString → MojString
  | [] => []
  | c :: rest => if nonzero : c ≠ 0 then ⟨c, nonzero⟩ :: cString rest else []

/-- Whether `strtoll` with base 0 reads the text to its end. -/
def intEnds (str : MojString) : Bool :=
  let str := str.dropWhile isSpace
  let signed := str.head?.any fun c => decide (c.val.val = 45 ∨ c.val.val = 43)
  let based := readBase (if signed then str.drop 1 else str)
  !based.2.isEmpty && based.2.all fun c => (digitBelow based.1 c).isSome

def utfOut (ucsChar : Nat) : ByteString :=
  if ucsChar < 0x80 then [Fin.ofNat 256 ucsChar]
  else if ucsChar < 0x800 then
    [Fin.ofNat 256 (0xc0 ||| (ucsChar >>> 6)), Fin.ofNat 256 (0x80 ||| (ucsChar &&& 0x3f))]
  else
    [Fin.ofNat 256 (0xe0 ||| (ucsChar >>> 12)), Fin.ofNat 256 (0x80 ||| ((ucsChar >>> 6) &&& 0x3f)),
      Fin.ofNat 256 (0x80 ||| (ucsChar &&& 0x3f))]

end MojJsonParser

/-- The records of the stack up to the depth reached, the current one apart. -/
structure MojJsonParser where
  line : Nat
  col : Nat
  strPos : Nat
  ucsChar : Nat
  matchStr : ByteString
  isDecimal : Bool
  str : ByteString
  top : MojJsonParser.StackRec
  below : List MojJsonParser.StackRec

namespace MojJsonParser

def create : MojJsonParser := ⟨0, 0, 0, 0, [], false, [], ⟨.eatWhitespace, .eatWhitespace⟩, []⟩

/-- `begin`, which leaves the depth as it is. -/
def restart (parser : MojJsonParser) : MojJsonParser :=
  { parser with line := 1, col := 1, top := freshRec }

def finished (parser : MojJsonParser) : Bool := parser.top.state = .finish && parser.below.isEmpty

def goto (parser : MojJsonParser) (state : State) : MojJsonParser :=
  { parser with top := { parser.top with state := state } }

def save (parser : MojJsonParser) (saved : State) : MojJsonParser :=
  { parser with top := { parser.top with savedState := saved } }

def eatThen (parser : MojJsonParser) (saved : State) : MojJsonParser :=
  { parser with top := ⟨.eatWhitespace, saved⟩ }

def back (parser : MojJsonParser) : MojJsonParser := parser.goto parser.top.savedState

def sappend (parser : MojJsonParser) (text : ByteString) : MojJsonParser :=
  { parser with str := parser.str ++ text }

def sclear (parser : MojJsonParser) : MojJsonParser := { parser with str := [] }

def fault (parser : MojJsonParser) (code : JsonErrCode) (msg : String) : MojErr :=
  .jsonParse code msg parser.line parser.col

/-- One pass through the switch: the character is used up, looked at again in another state, left
for whoever comes next, or refused. -/
inductive Pass (σ : Type) where
  | next (parser : MojJsonParser) (vis : σ)
  | redo (parser : MojJsonParser) (vis : σ)
  | done (parser : MojJsonParser) (vis : σ)
  | fail (err : MojErr) (parser : MojJsonParser) (vis : σ)

def push {σ : Type} (parser : MojJsonParser) (vis : σ) : Pass σ :=
  if maxDepth - 1 ≤ parser.below.length then
    .fail (parser.fault .maxDepth "json: max depth exceeded at") parser vis
  else .redo { parser with top := freshRec, below := parser.top :: parser.below } vis

section Visitor

variable {σ : Type} (visitor : JsonVisitor σ) (toDecimal : ByteString → Except MojErr MojInt64)

/-- A call of the visitor, and the pass to go on with unless it fails. -/
def calling (parser : MojJsonParser) (vis : σ) (call : JsonCall) (pass : σ → Pass σ) : Pass σ :=
  match visitor vis call with
  | (vis, none) => pass vis
  | (vis, some err) => .fail err parser vis

def closing (parser : MojJsonParser) (vis : σ) (call : JsonCall) : Pass σ :=
  calling visitor parser vis call fun vis => .next (parser.eatThen .finish) vis

def passStart (parser : MojJsonParser) (vis : σ) (c : Byte) : Pass σ :=
  if c = ch '\x7b' then
    let parser := parser.eatThen .objFieldStart
    calling visitor parser vis .beginObject fun vis => .next parser vis
  else if c = ch '[' then
    let parser := parser.eatThen .array
    calling visitor parser vis .beginArray fun vis => .next parser vis
  else if c = ch 'n' then .redo { parser.goto .null with strPos := 0 } vis
  else if c = ch '"' then .next (parser.goto .string).sclear vis
  else if c = ch 't' ∨ c = ch 'f' then
    .redo { parser.goto .bool with
      strPos := 0, matchStr := if c = ch 't' then trueString else falseString } vis
  else if isDigitByte c ∨ c = ch '-' then
    .redo { (parser.goto .number).sclear with isDecimal := false } vis
  else if c = 0 then .next parser vis
  else .fail (parser.fault .unexpected "json: unexpected char at") parser vis

def passLiteral (parser : MojJsonParser) (vis : σ) (c : Byte) (text : ByteString)
    (code : JsonErrCode) (msg : String) (call : JsonCall) : Pass σ :=
  if text[parser.strPos]?.getD 0 ≠ c then .fail (parser.fault code msg) parser vis
  else
    let parser := { parser with strPos := parser.strPos + 1 }
    if text.length ≤ parser.strPos then closing visitor parser vis call
    else .next parser vis

def passStringEscape (parser : MojJsonParser) (vis : σ) (c : Byte) : Pass σ :=
  let escape (text : Byte) : Pass σ := .next (parser.sappend [text]).back vis
  if c = ch 'u' then .next { parser.goto .escapeUnicode with ucsChar := 0, strPos := 0 } vis
  else if c = ch '"' ∨ c = ch '\\' ∨ c = ch '/' then escape c
  else if c = ch 'b' then escape 8
  else if c = ch 'n' then escape 10
  else if c = ch 'r' then escape 13
  else if c = ch 't' then escape 9
  else if c = ch 'f' then escape 12
  else .fail (parser.fault .escape "json: error parsing string at") parser vis

def passEscapeUnicode (parser : MojJsonParser) (vis : σ) (c : Byte) : Pass σ :=
  if isHexDigitByte c then
    let parser := { parser with
      ucsChar := parser.ucsChar + (hexDigit c <<< ((3 - parser.strPos) * 4)),
      strPos := parser.strPos + 1 }
    if parser.strPos = 4 then
      if parser.ucsChar = 0 then
        .fail (parser.fault .escape
          "json: error parsing escape sequence - null character not allowed at") parser vis
      else .next (parser.sappend (utfOut parser.ucsChar)).back vis
    else .next parser vis
  else .fail (parser.fault .escape "json: error parsing escape sequence at") parser vis

def passNumber (parser : MojJsonParser) (vis : σ) (c : Byte) : Pass σ :=
  if c = ch '.' ∨ c = ch 'e' ∨ c = ch 'E' then
    .next ({ parser with isDecimal := true }.sappend [c]) vis
  else if isDigitByte c ∨ c = ch '+' ∨ c = ch '-' then .next (parser.sappend [c]) vis
  else if parser.isDecimal then
    match toDecimal parser.str with
    | .error err => .fail err parser vis
    | .ok rep =>
      calling visitor parser vis (.decimalValue rep) fun vis => .redo (parser.eatThen .finish) vis
  else
    let str := cString parser.str
    calling visitor parser vis (.intValue (strToInt64 str)) fun vis =>
      if intEnds str then .redo (parser.eatThen .finish) vis
      else .fail (parser.fault .int "json: error parsing int at") parser vis

/-- A string or a name, with the state to come back to from an escape. -/
def passChars (parser : MojJsonParser) (vis : σ) (c : Byte) (state after : State)
    (call : JsonCall) : Pass σ :=
  if c = ch '"' then
    calling visitor parser vis call fun vis => .next (parser.eatThen after) vis
  else if c = ch '\\' then .next ((parser.save state).goto .stringEscape) vis
  else .next (parser.sappend [c]) vis

def pass (parser : MojJsonParser) (vis : σ) (c : Byte) : Pass σ :=
  match parser.top.state with
  | .eatWhitespace =>
    if isSpaceByte c then .next parser vis
    else if c = ch '/' then .next (parser.goto .commentStart) vis
    else .redo parser.back vis
  | .start => passStart visitor parser vis c
  | .finish =>
    match parser.below with
    | [] => .done parser vis
    | outer :: below => .redo { parser with top := outer, below := below } vis
  | .null => passLiteral visitor parser vis c nullString .null "json: error parsing null at" .nullValue
  | .commentStart =>
    if c = ch '*' then .next (parser.goto .comment) vis
    else if c = ch '/' then .next (parser.goto .commentEol) vis
    else .fail (.jsonParse .comment "" 0 0) parser vis
  | .comment => if c = ch '*' then .next (parser.goto .commentEnd) vis else .next parser vis
  | .commentEol => if c = 10 then .next (parser.goto .eatWhitespace) vis else .next parser vis
  | .commentEnd =>
    if c = ch '/' then .next (parser.goto .eatWhitespace) vis else .redo (parser.goto .comment) vis
  | .string => passChars visitor parser vis c .string .finish (.stringValue parser.str)
  | .stringEscape => passStringEscape parser vis c
  | .escapeUnicode => passEscapeUnicode parser vis c
  | .bool =>
    passLiteral visitor parser vis c parser.matchStr .bool "json: error parsing bool at"
      (.boolValue (parser.matchStr = trueString))
  | .number => passNumber visitor toDecimal parser vis c
  | .array =>
    if c = ch ']' then closing visitor parser vis .endArray
    else push (parser.goto .arraySep) vis
  | .arraySep =>
    if c = ch ']' then closing visitor parser vis .endArray
    else if c = ch ',' then .next (parser.eatThen .array) vis
    else .fail (parser.fault .array "json: error parsing array at") parser vis
  | .objFieldStart =>
    if c = ch '\x7d' then closing visitor parser vis .endObject
    else if c = ch '"' then .next (parser.sclear.goto .objField) vis
    else .fail (parser.fault .propName "json: error parsing prop name at") parser vis
  | .objField => passChars visitor parser vis c .objField .objFieldEnd (.propName parser.str)
  | .objFieldEnd =>
    if c = ch ':' then .next (parser.eatThen .objValue) vis
    else .fail (parser.fault .propName "json: error parsing prop name at") parser vis
  | .objValue => push (parser.eatThen .objSep) vis
  | .objSep =>
    if c = ch '\x7d' then closing visitor parser vis .endObject
    else if c = ch ',' then .next (parser.eatThen .objFieldStart) vis
    else .fail (parser.fault .valueSep "json: error parsing value separator at") parser vis

/-- The passes over one character; `none` when they do not come to an end. -/
def passes : Nat → MojJsonParser → σ → Byte → Option (Pass σ)
  | 0, _, _, _ => none
  | count + 1, parser, vis, c =>
    match pass visitor toDecimal parser vis c with
    | .redo parser vis => passes count parser vis c
    | ended => some ended

/-- A line end is counted before the character is looked at. -/
def countLine (parser : MojJsonParser) (c : Byte) : MojJsonParser :=
  if c = 10 then { parser with line := parser.line + 1, col := 1 } else parser

/-- How a call of the parser ends: with what is not read yet, with an error, or not at all. -/
inductive Ended where
  | ok (parseEnd : ByteString)
  | error (err : MojErr)
  | never

/-- `parseChunk`. No character needs more than five passes. -/
def parseChunk (parser : MojJsonParser) (vis : σ) : ByteString → MojJsonParser × σ × Ended
  | [] => (parser, vis, .ok [])
  | c :: chars =>
    match passes visitor toDecimal 5 (parser.countLine c) vis c with
    | none => (parser, vis, .never)
    | some (.fail err parser vis) => (parser, vis, .error err)
    | some (.done parser vis) => (parser, vis, .ok (c :: chars))
    | some (.next parser vis) | some (.redo parser vis) =>
      parseChunk { parser with col := parser.col + 1 } vis chars

/-- `end`. -/
def parseEnd (parser : MojJsonParser) (vis : σ) : MojJsonParser × σ × Ended :=
  parseChunk visitor toDecimal parser vis [0]

end Visitor

end MojJsonParser

end Db8.Core
