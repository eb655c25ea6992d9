import Db8.Core.Codec
import Db8.Core.JsonText

/-!
# JSON text is read back

The parser makes the calls of an object on the text of the object, whatever it is in the middle of,
as long as the stack has room for the objects and arrays that stand around its innermost value. A
number has ended only with the character behind it, so what is said of a value is that the next comma,
bracket or brace, or the end of the text, finds the parser where a value is over.
-/

set_option autoImplicit false

namespace Db8.Core

open Db8.Bytes

namespace MojJsonParser

def located (parser : MojJsonParser) (line col : Nat) : MojJsonParser :=
  { parser with line := line, col := col }

section Located

variable (parser : MojJsonParser) (line col : Nat)

@[simp] theorem located_top : (parser.located line col).top = parser.top := rfl

@[simp] theorem located_below : (parser.located line col).below = parser.below := rfl

@[simp] theorem located_str : (parser.located line col).str = parser.str := rfl

@[simp] theorem located_strPos : (parser.located line col).strPos = parser.strPos := rfl

@[simp] theorem located_ucsChar : (parser.located line col).ucsChar = parser.ucsChar := rfl

@[simp] theorem located_matchStr : (parser.located line col).matchStr = parser.matchStr := rfl

@[simp] theorem located_isDecimal : (parser.located line col).isDecimal = parser.isDecimal := rfl

end Located

section Visitor

variable {σ : Type} (visitor : JsonVisitor σ) (toDecimal : ByteString → Except MojErr MojInt64)

/-- A pass that looks at the character again in another state. -/
def Redoes (c : Byte) (parser : MojJsonParser) (vis : σ) (later : MojJsonParser) (vis' : σ) : Prop :=
  ∀ line col, pass visitor toDecimal (parser.located line col) vis c =
    .redo (later.located line col) vis'

def Takes (c : Byte) (parser : MojJsonParser) (vis : σ) (later : MojJsonParser) (vis' : σ) : Prop :=
  ∀ line col, pass visitor toDecimal (parser.located line col) vis c =
    .next (later.located line col) vis'

/-- Some passes over a character that is not used up. -/
def Turns (used : Nat) (c : Byte) (parser : MojJsonParser) (vis : σ) (later : MojJsonParser)
    (vis' : σ) : Prop :=
  ∀ count line col, passes visitor toDecimal (count + used) (parser.located line col) vis c =
    passes visitor toDecimal count (later.located line col) vis' c

def Reads (text : ByteString) (parser : MojJsonParser) (vis : σ) (later : MojJsonParser) (vis' : σ) :
    Prop :=
  ∀ line col, ∃ line' col', ∀ rest,
    parseChunk visitor toDecimal (parser.located line col) vis (text ++ rest) =
      parseChunk visitor toDecimal (later.located line' col') vis' rest

def told : σ → List JsonCall → Option σ
  | vis, [] => some vis
  | vis, call :: calls =>
    match visitor vis call with
    | (vis, none) => told vis calls
    | (_, some _) => none

variable {visitor toDecimal} {parser middle later : MojJsonParser} {vis vis' vis'' : σ} {c : Byte}

theorem Turns.refl (c : Byte) (parser : MojJsonParser) (vis : σ) :
    Turns visitor toDecimal 0 c parser vis parser vis := by
  intro count line col
  rfl

theorem Turns.trans {first second : Nat} (before : Turns visitor toDecimal first c parser vis middle vis')
    (after : Turns visitor toDecimal second c middle vis' later vis'') :
    Turns visitor toDecimal (second + first) c parser vis later vis'' := by
  intro count line col
  rw [← Nat.add_assoc, before, after]

theorem Turns.redo {used : Nat} (turns : Turns visitor toDecimal used c parser vis middle vis')
    (redoes : Redoes visitor toDecimal c middle vis' later vis'') :
    Turns visitor toDecimal (used + 1) c parser vis later vis'' := by
  intro count line col
  rw [show count + (used + 1) = count + 1 + used by omega, turns, passes, redoes]

theorem Turns.reads {used : Nat} (turns : Turns visitor toDecimal used c parser vis middle vis')
    (few : used < 5) (takes : Takes visitor toDecimal c middle vis' later vis'') :
    Reads visitor toDecimal [c] parser vis later vis'' := by
  intro line col
  have placed : ∃ line' col', (parser.located line col).countLine c = parser.located line' col' := by
    unfold countLine
    split
    · exact ⟨line + 1, 1, rfl⟩
    · exact ⟨line, col, rfl⟩
  rcases placed with ⟨line', col', same⟩
  refine ⟨line', col' + 1, ?_⟩
  intro rest
  have all : passes visitor toDecimal 5 (parser.located line' col') vis c =
      some (.next (later.located line' col') vis'') := by
    rw [show 5 = 4 - used + 1 + used by omega, turns, passes, takes]
  rw [List.singleton_append, parseChunk, same, all]
  rfl

theorem Takes.reads (takes : Takes visitor toDecimal c parser vis later vis') :
    Reads visitor toDecimal [c] parser vis later vis' :=
  (Turns.refl c parser vis).reads (by decide) takes

theorem Reads.refl (parser : MojJsonParser) (vis : σ) :
    Reads visitor toDecimal [] parser vis parser vis :=
  fun line col => ⟨line, col, fun _ => rfl⟩

theorem Reads.trans {front back : ByteString} (before : Reads visitor toDecimal front parser vis middle vis')
    (after : Reads visitor toDecimal back middle vis' later vis'') :
    Reads visitor toDecimal (front ++ back) parser vis later vis'' := by
  intro line col
  rcases before line col with ⟨line', col', first⟩
  rcases after line' col' with ⟨line'', col'', second⟩
  refine ⟨line'', col'', ?_⟩
  intro rest
  rw [List.append_assoc, first, second]

theorem told_append {front back : List JsonCall} (all : told visitor vis (front ++ back) = some vis'') :
    ∃ vis', told visitor vis front = some vis' ∧ told visitor vis' back = some vis'' := by
  induction front generalizing vis with
  | nil => exact ⟨vis, rfl, all⟩
  | cons call front ih =>
    rw [List.cons_append, told] at all
    rw [told]
    split at all
    · exact ih all
    · cases all

theorem told_cons {call : JsonCall} {calls : List JsonCall}
    (all : told visitor vis (call :: calls) = some vis'') :
    ∃ vis', visitor vis call = (vis', none) ∧ told visitor vis' calls = some vis'' := by
  rw [told] at all
  split at all
  · rename_i vis' taken
    exact ⟨vis', taken, all⟩
  · cases all

section Passes

/-- A character that is neither white space nor the beginning of a comment. -/
def Visible (c : Byte) : Prop := isSpaceByte c = false ∧ c ≠ ch '/'

instance (c : Byte) : Decidable (Visible c) := inferInstanceAs (Decidable (_ ∧ _))

theorem redoes_eat (eats : parser.top.state = .eatWhitespace) (visible : Visible c) (vis : σ) :
    Redoes visitor toDecimal c parser vis parser.back vis := by
  intro line col
  rw [pass, located_top, eats]
  simp only [visible.1, Bool.false_eq_true, if_false, if_neg visible.2]
  rfl

theorem redoes_pop {outer : StackRec} {below : List StackRec} (finish : parser.top.state = .finish)
    (inside : parser.below = outer :: below) (c : Byte) (vis : σ) :
    Redoes visitor toDecimal c parser vis { parser with top := outer, below := below } vis := by
  intro line col
  rw [pass, located_top, finish, located_below, inside]
  rfl

theorem takes_calling {call : JsonCall} (taken : visitor vis call = (vis', none))
    (later : MojJsonParser) :
    calling visitor parser vis call (fun vis => Pass.next later vis) = .next later vis' := by
  rw [calling, taken]

end Passes

section Strings

def Quoted (parser : MojJsonParser) : Prop :=
  parser.top.state = .string ∨ parser.top.state = .objField

theorem takes_plain (quoted : Quoted parser) (vis : σ) (noQuote : c ≠ ch '"')
    (noEscape : c ≠ ch '\\') : Takes visitor toDecimal c parser vis (parser.sappend [c]) vis := by
  intro line col
  rcases quoted with inside | inside <;>
    · rw [pass, located_top, inside]
      dsimp only
      rw [passChars, if_neg noQuote, if_neg noEscape]
      rfl

theorem takes_backslash (quoted : Quoted parser) (vis : σ) :
    Takes visitor toDecimal (ch '\\') parser vis
      ((parser.save parser.top.state).goto .stringEscape) vis := by
  have noQuote : ch '\\' ≠ ch '"' := by decide
  intro line col
  rcases quoted with inside | inside <;>
    · rw [pass, located_top, inside]
      dsimp only
      rw [passChars, if_neg noQuote, if_pos rfl]
      rfl

def shorts : List (Byte × Byte) :=
  [(ch 'b', 8), (ch 't', 9), (ch 'n', 10), (ch 'f', 12), (ch 'r', 13), (ch '"', ch '"'),
    (ch '\\', ch '\\')]

theorem takes_short (escape : parser.top.state = .stringEscape) (vis : σ) :
    ∀ short ∈ shorts, Takes visitor toDecimal short.1 parser vis
      (parser.sappend [short.2]).back vis := by
  intro short member line col
  rw [pass, located_top, escape]
  simp only [shorts, List.mem_cons, List.not_mem_nil, or_false] at member
  rcases member with rfl | rfl | rfl | rfl | rfl | rfl | rfl <;> rfl

theorem hexDigit_hexByte : ∀ digit < 16, isHexDigitByte (MojJsonWriter.hexByte digit) = true ∧
    hexDigit (MojJsonWriter.hexByte digit) = digit := by
  decide

theorem takes_hex {digit : Nat} (inside : parser.top.state = .escapeUnicode)
    (small : digit < 16) (few : parser.strPos < 3) (vis : σ) :
    Takes visitor toDecimal (MojJsonWriter.hexByte digit) parser vis
      { parser with
        ucsChar := parser.ucsChar + (digit <<< ((3 - parser.strPos) * 4)),
        strPos := parser.strPos + 1 } vis := by
  intro line col
  have hex := hexDigit_hexByte digit small
  have more : ¬ parser.strPos + 1 = 4 := by omega
  rw [pass, located_top, inside]
  dsimp only
  rw [passEscapeUnicode, if_pos hex.1]
  simp only [located_strPos, located_ucsChar, hex.2, more, if_false]
  rfl

theorem takes_lastHex {digit : Nat} (inside : parser.top.state = .escapeUnicode)
    (small : digit < 16) (three : parser.strPos = 3) (nonzero : parser.ucsChar + digit ≠ 0)
    (vis : σ) :
    Takes visitor toDecimal (MojJsonWriter.hexByte digit) parser vis
      (({ parser with ucsChar := parser.ucsChar + digit, strPos := 4 } : MojJsonParser).sappend
        (utfOut (parser.ucsChar + digit))).back vis := by
  intro line col
  have hex := hexDigit_hexByte digit small
  rw [pass, located_top, inside]
  dsimp only
  rw [passEscapeUnicode, if_pos hex.1]
  simp only [located_strPos, located_ucsChar, hex.2, three, Nat.reduceAdd, if_true, Nat.sub_self,
    Nat.zero_mul, Nat.shiftLeft_zero, nonzero, if_false]
  rfl

theorem ucsChar_hex : ∀ c : Byte,
    0 + (c.val / 16 ^ 3 % 16) <<< ((3 - 0) * 4) + (c.val / 16 ^ 2 % 16) <<< ((3 - 1) * 4) +
      (c.val / 16 ^ 1 % 16) <<< ((3 - 2) * 4) + c.val / 16 ^ 0 % 16 = c.val := by
  decide +kernel

theorem utfOut_ascii {c : Byte} (ascii : c.val < 128) : utfOut c.val = [c] := by
  rw [utfOut, if_pos ascii]
  exact congrArg (fun byte => [byte]) (Fin.ext (Nat.mod_eq_of_lt c.isLt))

theorem escaped_kinds : ∀ c : Byte, c ≠ 0 →
    (MojJsonWriter.escaped c = [c] ∧ c ≠ ch '"' ∧ c ≠ ch '\\') ∨
    (∃ short ∈ shorts, MojJsonWriter.escaped c = [ch '\\', short.1] ∧ short.2 = c) ∨
    (c.val < 128 ∧ MojJsonWriter.escaped c = ch '\\' :: ch 'u' ::
      [3, 2, 1, 0].map fun place => MojJsonWriter.hexByte (c.val / 16 ^ place % 16)) := by
  decide +kernel

theorem takes_unicode (escape : parser.top.state = .stringEscape) (vis : σ) :
    Takes visitor toDecimal (ch 'u') parser vis
      { parser.goto .escapeUnicode with ucsChar := 0, strPos := 0 } vis := by
  intro line col
  rw [pass, located_top, escape]
  rfl

theorem reads_escaped (quoted : Quoted parser) (vis : σ) (nonzero : c ≠ 0) :
    ∃ later, later.top.state = parser.top.state ∧ later.below = parser.below ∧
      later.str = parser.str ++ [c] ∧
      Reads visitor toDecimal (MojJsonWriter.escaped c) parser vis later vis := by
  have slash : Reads visitor toDecimal [ch '\\'] parser vis _ vis :=
    (takes_backslash quoted vis).reads
  rcases escaped_kinds c nonzero with ⟨same, noQuote, noEscape⟩ | ⟨short, member, same, stands⟩ |
    ⟨ascii, same⟩
  · have read : Reads visitor toDecimal [c] parser vis _ vis :=
      (takes_plain quoted vis noQuote noEscape).reads
    rw [same]
    exact ⟨parser.sappend [c], rfl, rfl, rfl, read⟩
  · have read := slash.trans (takes_short rfl vis short member).reads
    rw [same, ← stands]
    refine ⟨_, ?_, ?_, ?_, read⟩ <;> rfl
  · have digit : ∀ place, c.val / 16 ^ place % 16 < 16 := fun place => Nat.mod_lt _ (by decide)
    have code := ucsChar_hex c
    have whole : c.val ≠ 0 := fun zero => nonzero (Fin.ext zero)
    rw [← code] at whole
    have read := slash.trans ((takes_unicode rfl vis).reads.trans
      ((takes_hex rfl (digit 3) (by decide : 0 < 3) vis).reads.trans
        ((takes_hex rfl (digit 2) (by decide : 1 < 3) vis).reads.trans
          ((takes_hex rfl (digit 1) (by decide : 2 < 3) vis).reads.trans
            (takes_lastHex rfl (digit 0) rfl whole vis).reads))))
    rw [same]
    refine ⟨_, ?_, ?_, ?_, read⟩
    · rfl
    · rfl
    · have out := utfOut_ascii ascii
      rw [← code] at out
      exact congrArg (parser.str ++ ·) out

theorem reads_chars (str : MojString) (quoted : Quoted parser) (vis : σ) :
    ∃ later, later.top.state = parser.top.state ∧ later.below = parser.below ∧
      later.str = parser.str ++ str.map Subtype.val ∧
      Reads visitor toDecimal (str.flatMap fun c => MojJsonWriter.escaped c.val) parser vis later
        vis := by
  induction str generalizing parser with
  | nil => exact ⟨parser, rfl, rfl, (List.append_nil _).symm, Reads.refl parser vis⟩
  | cons c str ih =>
    rcases @reads_escaped σ visitor toDecimal parser c.val quoted vis c.property with
      ⟨middle, state, below, first, read⟩
    have still : Quoted middle := by
      unfold Quoted
      rwa [state]
    rcases ih still with ⟨later, stateLater, belowLater, all, goesOn⟩
    refine ⟨later, stateLater.trans state, belowLater.trans below, ?_, read.trans goesOn⟩
    rw [all, first, List.append_assoc]
    rfl

theorem takes_quote (inside : parser.top.state = .string)
    (taken : visitor vis (.stringValue parser.str) = (vis', none)) :
    Takes visitor toDecimal (ch '"') parser vis (parser.eatThen .finish) vis' := by
  intro line col
  rw [pass, located_top, inside]
  dsimp only
  rw [passChars, if_pos rfl, located_str, calling, taken]
  rfl

theorem takes_nameQuote (inside : parser.top.state = .objField)
    (taken : visitor vis (.propName parser.str) = (vis', none)) :
    Takes visitor toDecimal (ch '"') parser vis (parser.eatThen .objFieldEnd) vis' := by
  intro line col
  rw [pass, located_top, inside]
  dsimp only
  rw [passChars, if_pos rfl, located_str, calling, taken]
  rfl

end Strings

section Numbers

def IsPoint (c : Byte) : Prop := c = ch '.' ∨ c = ch 'e' ∨ c = ch 'E'

instance (c : Byte) : Decidable (IsPoint c) := inferInstanceAs (Decidable (_ ∨ _))

def InNumber (c : Byte) : Prop := IsPoint c ∨ isDigitByte c ∨ c = ch '+' ∨ c = ch '-'

instance (c : Byte) : Decidable (InNumber c) := inferInstanceAs (Decidable (_ ∨ _))

def withNumber (parser : MojJsonParser) (text : ByteString) : MojJsonParser :=
  { parser with
    str := parser.str ++ text
    isDecimal := parser.isDecimal || text.any fun c => decide (IsPoint c) }

theorem takes_number (inside : parser.top.state = .number) (vis : σ) (part : InNumber c) :
    Takes visitor toDecimal c parser vis (parser.withNumber [c]) vis := by
  intro line col
  rw [pass, located_top, inside]
  dsimp only
  rw [passNumber]
  split
  · rename_i pointed
    have is : IsPoint c := pointed
    simp [withNumber, sappend, located, is]
  · rename_i whole
    have is : ¬ IsPoint c := whole
    rw [if_pos (part.resolve_left is)]
    simp [withNumber, sappend, located, is]

theorem reads_number {text : ByteString} (inside : parser.top.state = .number) (vis : σ)
    (parts : ∀ c ∈ text, InNumber c) :
    Reads visitor toDecimal text parser vis (parser.withNumber text) vis := by
  induction text generalizing parser with
  | nil =>
    have same : parser.withNumber [] = parser := by simp [withNumber]
    rw [same]
    exact Reads.refl parser vis
  | cons c text ih =>
    have first : Reads visitor toDecimal [c] parser vis _ vis :=
      (takes_number inside vis (parts c List.mem_cons_self)).reads
    have goesOn := @ih (parser.withNumber [c]) inside fun c member =>
      parts c (List.mem_cons_of_mem _ member)
    have same : (parser.withNumber [c]).withNumber text = parser.withNumber (c :: text) := by
      simp [withNumber, Bool.or_assoc]
    rw [← same]
    exact first.trans goesOn

end Numbers

section Literals

def Spelling (parser : MojJsonParser) (text : ByteString) (call : JsonCall) : Prop :=
  (parser.top.state = .null ∧ text = nullString ∧ call = .nullValue) ∨
    (parser.top.state = .bool ∧ text = parser.matchStr ∧
      call = .boolValue (parser.matchStr = trueString))

variable {text : ByteString} {call : JsonCall}

theorem Spelling.pass_eq (spelling : Spelling parser text call) (visitor : JsonVisitor σ)
    (toDecimal : ByteString → Except MojErr MojInt64) (line col : Nat) (vis : σ) (c : Byte) :
    ∃ code msg, pass visitor toDecimal (parser.located line col) vis c =
      passLiteral visitor (parser.located line col) vis c text code msg call := by
  rcases spelling with ⟨inside, rfl, rfl⟩ | ⟨inside, rfl, rfl⟩
  · refine ⟨.null, "json: error parsing null at", ?_⟩
    rw [pass, located_top, inside]
  · refine ⟨.bool, "json: error parsing bool at", ?_⟩
    rw [pass, located_top, inside]
    rfl

theorem Spelling.takes (spelling : Spelling parser text call) (vis : σ)
    (same : text[parser.strPos]? = some c) (more : parser.strPos + 1 < text.length) :
    Takes visitor toDecimal c parser vis { parser with strPos := parser.strPos + 1 } vis := by
  intro line col
  rcases spelling.pass_eq visitor toDecimal line col vis c with ⟨code, msg, step⟩
  rw [step, passLiteral, located_strPos, same]
  simp only [Option.getD_some, ne_eq, not_true_eq_false, not_le.mpr more, if_false]
  rfl

theorem Spelling.takes_last (spelling : Spelling parser text call)
    (taken : visitor vis call = (vis', none)) (same : text[parser.strPos]? = some c)
    (last : parser.strPos + 1 = text.length) :
    Takes visitor toDecimal c parser vis
      (({ parser with strPos := parser.strPos + 1 } : MojJsonParser).eatThen .finish) vis' := by
  intro line col
  rcases spelling.pass_eq visitor toDecimal line col vis c with ⟨code, msg, step⟩
  rw [step, passLiteral, located_strPos, same]
  simp only [Option.getD_some, ne_eq, not_true_eq_false, if_false, last, le_refl, if_true, closing,
    calling, taken]
  rfl

theorem Spelling.reads {front tail : ByteString} (spelling : Spelling parser text call)
    (taken : visitor vis call = (vis', none)) (split : text = front ++ tail)
    (position : parser.strPos = front.length) (more : tail ≠ []) :
    ∃ later, later.top = ⟨.eatWhitespace, .finish⟩ ∧ later.below = parser.below ∧
      Reads visitor toDecimal tail parser vis later vis' := by
  induction tail generalizing parser front with
  | nil => exact absurd rfl more
  | cons c tail ih =>
    have same : text[parser.strPos]? = some c := by
      rw [split, position, List.getElem?_append_right (le_refl _), Nat.sub_self]
      rfl
    have length : text.length = parser.strPos + 1 + tail.length := by
      rw [split, List.length_append, List.length_cons, position]
      omega
    by_cases last : tail = []
    · rw [last] at length ⊢
      have read : Reads visitor toDecimal [c] parser vis _ vis' :=
        (spelling.takes_last taken same length.symm).reads
      refine ⟨_, ?_, ?_, read⟩ <;> rfl
    · have left := List.length_pos_of_ne_nil last
      have first : Takes visitor toDecimal c parser vis _ vis :=
        spelling.takes vis same (by omega)
      have rest : text = (front ++ [c]) ++ tail := by rw [split, List.append_assoc]; rfl
      have next : parser.strPos + 1 = (front ++ [c]).length := by
        rw [position, List.length_append]
        rfl
      rcases @ih { parser with strPos := parser.strPos + 1 } _ spelling rest next last with
        ⟨later, top, below, read⟩
      exact ⟨later, top, below, first.reads.trans read⟩

end Literals

section Values

def closers : List Byte := [ch ',', ch ']', ch '\x7d', 0]

variable (visitor toDecimal) in
def Settles (parser : MojJsonParser) (vis : σ) (below : List StackRec) (vis' : σ) : Prop :=
  ∃ used later, used ≤ 2 ∧ later.top.state = .finish ∧ later.below = below ∧
    ∀ c ∈ closers, Turns visitor toDecimal used c parser vis later vis'

variable (visitor toDecimal) in
def Enters (outer inner : MojJsonParser) : Prop :=
  inner.top = freshRec ∧ ∃ used ≤ 2, ∀ c vis, Visible c → c ≠ ch ']' →
    Turns visitor toDecimal used c outer vis inner vis

theorem closer_cases (closer : c ∈ closers) :
    c = ch ',' ∨ c = ch ']' ∨ c = ch '\x7d' ∨ c = 0 := by
  simpa [closers] using closer

theorem visible_closer (closer : c ∈ closers) : Visible c := by
  rcases closer_cases closer with rfl | rfl | rfl | rfl <;> decide

theorem settles_closed {below : List StackRec} (top : parser.top = ⟨.eatWhitespace, .finish⟩)
    (inside : parser.below = below) (vis : σ) :
    Settles visitor toDecimal parser vis below vis := by
  refine ⟨1, parser.back, by decide, ?_, inside, ?_⟩
  · rw [back, goto, top]
  · intro c closer
    apply (Turns.refl c parser vis).redo
    exact redoes_eat (by rw [top]) (visible_closer closer) vis

theorem Settles.pops {outer : StackRec} {below : List StackRec}
    (settles : Settles visitor toDecimal parser vis (outer :: below) vis') :
    ∃ used popped, used ≤ 3 ∧ popped.top = outer ∧ popped.below = below ∧
      ∀ c ∈ closers, Turns visitor toDecimal used c parser vis popped vis' := by
  rcases settles with ⟨used, later, few, finish, inside, turns⟩
  refine ⟨used + 1, { later with top := outer, below := below }, by omega, rfl, rfl, ?_⟩
  intro c closer
  exact (turns c closer).redo (redoes_pop finish inside c vis')

theorem not_inNumber_closer (closer : c ∈ closers) : ¬ InNumber c := by
  rcases closer_cases closer with rfl | rfl | rfl | rfl <;> decide

def NumberCall (toDecimal : ByteString → Except MojErr MojInt64) (isDecimal : Bool)
    (text : ByteString) (call : JsonCall) : Prop :=
  if isDecimal then ∃ rep, toDecimal text = .ok rep ∧ call = .decimalValue rep
  else intEnds (cString text) = true ∧ call = .intValue (strToInt64 (cString text))

theorem settles_number {call : JsonCall} (inside : parser.top.state = .number)
    (ends : NumberCall toDecimal parser.isDecimal parser.str call) (taken : visitor vis call = (vis', none)) :
    Settles visitor toDecimal parser vis parser.below vis' := by
  refine ⟨2, (parser.eatThen .finish).back, by decide, rfl, rfl, ?_⟩
  intro c closer
  have ended := not_inNumber_closer closer
  have redoes : Redoes visitor toDecimal c parser vis (parser.eatThen .finish) vis' := by
    intro line col
    have notPoint : ¬ (c = ch '.' ∨ c = ch 'e' ∨ c = ch 'E') := fun pointed => ended (Or.inl pointed)
    have notDigit : ¬ (isDigitByte c = true ∨ c = ch '+' ∨ c = ch '-') :=
      fun digit => ended (Or.inr digit)
    rw [pass, located_top, inside]
    dsimp only
    rw [passNumber, if_neg notPoint, if_neg notDigit]
    unfold NumberCall at ends
    split_ifs at ends with decimal
    · rcases ends with ⟨rep, read, rfl⟩
      rw [located_isDecimal, if_pos decimal, located_str, read]
      simp only [calling, taken]
      rfl
    · rcases ends with ⟨all, rfl⟩
      rw [located_isDecimal, if_neg decimal]
      simp only [located_str, calling, taken, all, if_true]
      rfl
  exact ((Turns.refl c parser vis).redo redoes).redo
    (redoes_eat rfl (visible_closer closer) vis')

theorem Enters.starts {outer inner : MojJsonParser} (enters : Enters visitor toDecimal outer inner)
    (vis : σ) (visible : Visible c) (opens : c ≠ ch ']') :
    inner.back.top.state = .start ∧ ∃ used ≤ 3, Turns visitor toDecimal used c outer vis inner.back vis := by
  rcases enters with ⟨top, used, few, turns⟩
  refine ⟨by rw [back, goto, top]; rfl, used + 1, by omega, ?_⟩
  exact (turns c vis visible opens).redo (redoes_eat (by rw [top]; rfl) visible vis)

/-- What is to be shown of a value: its text is read and its calls are made. -/
def ReadsValue (visitor : JsonVisitor σ) (toDecimal : ByteString → Except MojErr MojInt64)
    (obj : MojObject) : Prop :=
  ∀ outer inner vis vis', Enters visitor toDecimal outer inner →
    inner.below.length + obj.nesting < maxDepth →
    told visitor vis (obj.visits.map VisitorCall.jsonCall) = some vis' →
    ∃ later last, Reads visitor toDecimal (obj.json.flatMap JsonToken.text) outer vis later last ∧
      Settles visitor toDecimal later last inner.below vis'

theorem Enters.literal {outer inner entered : MojJsonParser} {tail : ByteString} {call : JsonCall}
    (enters : Enters visitor toDecimal outer inner) (visible : Visible c) (opens : c ≠ ch ']')
    (redoes : inner.back.top.state = .start → Redoes visitor toDecimal c inner.back vis entered vis)
    (spelling : Spelling entered (c :: tail) call) (position : entered.strPos = 0)
    (inside : entered.below = inner.below) (taken : visitor vis call = (vis', none))
    (more : tail ≠ []) :
    ∃ later last, Reads visitor toDecimal (c :: tail) outer vis later last ∧
      Settles visitor toDecimal later last inner.below vis' := by
  rcases enters.starts vis visible opens with ⟨start, used, few, turns⟩
  have left := List.length_pos_of_ne_nil more
  have same : (c :: tail)[entered.strPos]? = some c := by
    rw [position]
    rfl
  have first : Reads visitor toDecimal [c] outer vis _ vis :=
    (turns.redo (redoes start)).reads (by omega)
      (spelling.takes vis same (by rw [position, List.length_cons]; omega))
  have next : entered.strPos + 1 = [c].length := by rw [position]; rfl
  rcases @Spelling.reads _ visitor toDecimal { entered with strPos := entered.strPos + 1 } _ _ _ _ [c]
    _ spelling taken rfl next more with ⟨later, top, below, read⟩
  exact ⟨later, vis', first.trans read, settles_closed top (below.trans inside) vis'⟩

theorem readsValue_null : ReadsValue visitor toDecimal .null := by
  intro outer inner vis vis' enters _ all
  rcases told_cons all with ⟨last, taken, ends⟩
  cases ends
  have text : nullString = ch 'n' :: [ch 'u', ch 'l', ch 'l'] := by decide
  have read := @Enters.literal _ _ _ _ _ _ outer inner { inner.back.goto .null with strPos := 0 }
    [ch 'u', ch 'l', ch 'l'] .nullValue enters (by decide) (by decide)
    (fun start line col => by
      rw [pass, located_top, start]
      rfl)
    (Or.inl ⟨rfl, text.symm, rfl⟩) rfl rfl taken (by simp)
  rw [← text] at read
  simpa [MojObject.json, JsonToken.text] using read

theorem readsValue_bool (val : Bool) : ReadsValue visitor toDecimal (.bool val) := by
  intro outer inner vis vis' enters _ all
  rcases told_cons all with ⟨last, taken, ends⟩
  cases ends
  have read : ∀ (c : Byte) (tail : ByteString), (c = ch 't' ∨ c = ch 'f') →
      (if c = ch 't' then trueString else falseString) = c :: tail → tail ≠ [] →
      decide (c :: tail = trueString) = val → Visible c → c ≠ ch ']' → 
      ∃ later last, Reads visitor toDecimal (c :: tail) outer vis later last ∧
        Settles visitor toDecimal later last inner.below vis' := by
    intro c tail letter text more same visible opens
    apply @Enters.literal _ _ _ _ _ _ outer inner
      { inner.back.goto .bool with strPos := 0, matchStr := c :: tail } tail _ enters visible opens
      _ (Or.inr ⟨rfl, rfl, rfl⟩) rfl rfl _ more
    · intro start line col
      rw [pass, located_top, start]
      dsimp only
      rw [passStart, text]
      rcases letter with rfl | rfl <;> rfl
    · dsimp only
      rw [same]
      exact taken
  cases val with
  | true =>
    have text : trueString = ch 't' :: [ch 'r', ch 'u', ch 'e'] := by decide
    have done := read (ch 't') [ch 'r', ch 'u', ch 'e'] (Or.inl rfl) (by decide) (by simp)
      (by decide) (by decide) (by decide)
    rw [← text] at done
    simpa [MojObject.json, JsonToken.text] using done
  | false =>
    have text : falseString = ch 'f' :: [ch 'a', ch 'l', ch 's', ch 'e'] := by decide
    have done := read (ch 'f') [ch 'a', ch 'l', ch 's', ch 'e'] (Or.inr rfl) (by decide) (by simp)
      (by decide) (by decide) (by decide)
    rw [← text] at done
    simpa [MojObject.json, JsonToken.text] using done

theorem Enters.number {outer inner : MojJsonParser} {text : ByteString} {call : JsonCall}
    (enters : Enters visitor toDecimal outer inner)
    (begins : ∃ c tail, text = c :: tail ∧ (isDigitByte c = true ∨ c = ch '-'))
    (parts : ∀ c ∈ text, InNumber c)
    (ends : NumberCall toDecimal (text.any fun c => decide (IsPoint c)) text call)
    (taken : visitor vis call = (vis', none)) :
    ∃ later last, Reads visitor toDecimal text outer vis later last ∧
      Settles visitor toDecimal later last inner.below vis' := by
  rcases begins with ⟨c, tail, rfl, first⟩
  have plain : ∀ c : Byte, isDigitByte c = true ∨ c = ch '-' → Visible c ∧ c ≠ ch ']' ∧
      c ≠ ch '\x7b' ∧ c ≠ ch '[' ∧ c ≠ ch 'n' ∧ c ≠ ch '"' ∧ c ≠ ch 't' ∧ c ≠ ch 'f' := by
    decide +kernel
  rcases plain c first with ⟨visible, opens, noBrace, noBracket, noNull, noQuote, noTrue, noFalse⟩
  rcases enters.starts vis visible opens with ⟨start, used, few, turns⟩
  let entered : MojJsonParser := { (inner.back.goto .number).sclear with isDecimal := false }
  have redoes : Redoes visitor toDecimal c inner.back vis entered vis := by
    intro line col
    rw [pass, located_top, start]
    dsimp only
    rw [passStart, if_neg noBrace, if_neg noBracket, if_neg noNull, if_neg noQuote,
      if_neg (not_or.mpr ⟨noTrue, noFalse⟩), if_pos first]
    rfl
  have inFront : InNumber c := parts c List.mem_cons_self
  have head : Reads visitor toDecimal [c] outer vis (entered.withNumber [c]) vis :=
    (turns.redo redoes).reads (by omega) (takes_number rfl vis inFront)
  have rest : Reads visitor toDecimal tail (entered.withNumber [c]) vis
      ((entered.withNumber [c]).withNumber tail) vis :=
    reads_number rfl vis fun d member => parts d (List.mem_cons_of_mem c member)
  have number : NumberCall toDecimal ((entered.withNumber [c]).withNumber tail).isDecimal
      ((entered.withNumber [c]).withNumber tail).str call := by
    simpa [entered, withNumber, sclear, Bool.or_assoc] using ends
  exact ⟨_, vis, head.trans rest, settles_number rfl number taken⟩

theorem isDigitByte_digitByte (x : Fin 10) :
    isDigitByte (digitByte x) = true ∧ ¬ IsPoint (digitByte x) := by
  revert x
  decide

theorem signed_begins (negative : Prop) [Decidable negative] {digits : List (Fin 10)}
    (rest : ByteString) (nonempty : digits ≠ []) :
    ∃ c tail, (if negative then [MojNumber.minus] else []) ++ (digits.map digitByte ++ rest) =
      c :: tail ∧ (isDigitByte c = true ∨ c = ch '-') := by
  obtain ⟨x, digits, rfl⟩ := List.exists_cons_of_ne_nil nonempty
  split
  · exact ⟨MojNumber.minus, _, rfl, Or.inr (by decide)⟩
  · exact ⟨digitByte x, _, rfl, Or.inl (isDigitByte_digitByte x).1⟩

theorem inNumber_signed (negative : Prop) [Decidable negative] (digits : List (Fin 10)) :
    ∀ c ∈ (if negative then [MojNumber.minus] else []) ++ digits.map digitByte,
      InNumber c ∧ ¬ IsPoint c := by
  intro c member
  rcases List.mem_append.mp member with sign | digit
  · have same : c = MojNumber.minus := by
      split at sign
      · exact List.mem_singleton.mp sign
      · cases sign
    rw [same]
    decide
  · rcases List.mem_map.mp digit with ⟨x, _, rfl⟩
    have known := isDigitByte_digitByte x
    exact ⟨Or.inr (Or.inl known.1), known.2⟩

theorem readsValue_int (val : MojInt64) : ReadsValue visitor toDecimal (.int val) := by
  intro outer inner vis vis' enters _ all
  rcases told_cons all with ⟨last, taken, ends⟩
  cases ends
  have read := strToInt64_intText val
  let digits := if (digitsUp val.toInt.natAbs).reverse = [] then [0]
    else (digitsUp val.toInt.natAbs).reverse
  have nonempty : digits ≠ [] := by
    unfold digits
    split
    · exact List.cons_ne_nil _ _
    · assumption
  have spelt : intText val = (if val.toInt < 0 then [MojNumber.minus] else []) ++
      digits.map digitByte := rfl
  have begins := signed_begins (val.toInt < 0) [] nonempty
  have members := inNumber_signed (val.toInt < 0) digits
  rw [List.append_nil] at begins
  rw [← spelt] at begins members
  have whole : ((intText val).any fun c => decide (IsPoint c)) = false := by
    rw [List.any_eq_false]
    intro d member
    simpa using (members d member).2
  have ends : NumberCall toDecimal ((intText val).any fun c => decide (IsPoint c)) (intText val)
      (.intValue val) := by
    rw [whole]
    exact ⟨read.2, by rw [read.1]⟩
  have done := enters.number begins (fun d member => (members d member).1) ends taken
  simpa [MojObject.json, JsonToken.text] using done

theorem readsValue_decimal {rep : MojInt64} (reads : toDecimal (MojDecimal.stringValue rep) = .ok rep) :
    ReadsValue visitor toDecimal (.decimal rep) := by
  intro outer inner vis vis' enters _ all
  rcases told_cons all with ⟨last, taken, ends⟩
  cases ends
  let tmp := MojDecimal.tmpDigits rep.toInt.natAbs
  let front := (tmp.drop MojDecimal.precision).reverse
  let behind := ((tmp.take MojDecimal.precision).drop (MojDecimal.firstDigit tmp)).reverse
  have lengths := (MojDecimal.length_tmpDigits rep.toInt.natAbs).1
  have nonempty : front ≠ [] := by
    apply List.ne_nil_of_length_pos
    simp only [front, tmp, List.length_reverse, List.length_drop]
    omega
  have spelt : MojDecimal.stringValue rep = (if rep.toInt < 0 then [MojNumber.minus] else []) ++
      (front.map digitByte ++ MojNumber.point :: behind.map digitByte) := rfl
  have begins := signed_begins (rep.toInt < 0) (MojNumber.point :: behind.map digitByte) nonempty
  have members := inNumber_signed (rep.toInt < 0) front
  have fraction := inNumber_signed False behind
  have parts : ∀ c ∈ MojDecimal.stringValue rep, InNumber c := by
    intro c member
    rw [spelt, ← List.append_assoc] at member
    rcases List.mem_append.mp member with whole | rest
    · exact (members c whole).1
    · rcases List.mem_cons.mp rest with rfl | digit
      · decide
      · exact (fraction c (List.mem_append_right _ digit)).1
  have pointed : ((MojDecimal.stringValue rep).any fun c => decide (IsPoint c)) = true := by
    rw [List.any_eq_true]
    refine ⟨MojNumber.point, ?_, by decide⟩
    rw [spelt]
    simp
  have ends : NumberCall toDecimal ((MojDecimal.stringValue rep).any fun c => decide (IsPoint c))
      (MojDecimal.stringValue rep) (.decimalValue rep) := by
    rw [pointed]
    exact ⟨rep, reads, rfl⟩
  rw [← spelt] at begins
  have done := enters.number begins parts ends taken
  simpa [MojObject.json, JsonToken.text] using done

theorem readsValue_string (val : MojString) : ReadsValue visitor toDecimal (.string val) := by
  intro outer inner vis vis' enters _ all
  rcases told_cons all with ⟨last, taken, ends⟩
  cases ends
  rcases @Enters.starts _ _ _ (ch '"') _ _ enters vis (by decide) (by decide) with
    ⟨start, used, few, turns⟩
  have opens : Takes visitor toDecimal (ch '"') inner.back vis (inner.back.goto .string).sclear vis := by
    intro line col
    rw [pass, located_top, start]
    rfl
  rcases @reads_chars σ visitor toDecimal (inner.back.goto .string).sclear val (Or.inl rfl) vis with
    ⟨middle, state, below, str, read⟩
  have taken : visitor vis (.stringValue middle.str) = (vis', none) := by
    rw [str]
    exact taken
  have done := ((turns.reads (by omega) opens).trans read).trans (takes_quote state taken).reads
  have inside : (middle.eatThen .finish).below = inner.below := below
  have closed : Settles visitor toDecimal (middle.eatThen .finish) vis' inner.below vis' :=
    settles_closed rfl inside vis'
  refine ⟨middle.eatThen .finish, vis', ?_, closed⟩
  simpa [MojObject.json, JsonToken.text, MojJsonWriter.writeString] using done

end Values

section Containers

/-- An object or array to the parser: what begins it, where the first property or element is looked for,
where the parser comes back to from a value and looks for a separator, and what ends it. -/
structure Container where
  opener : Byte
  begins : JsonCall
  first : State
  outer : StackRec
  sep : State
  closer : Byte
  close : JsonCall

def arrayContainer : Container :=
  ⟨ch '[', .beginArray, .array, ⟨.arraySep, .array⟩, .arraySep, ch ']', .endArray⟩

def objectContainer : Container :=
  ⟨ch '\x7b', .beginObject, .objFieldStart, ⟨.eatWhitespace, .objSep⟩, .objSep, ch '\x7d', .endObject⟩

def Container.Known (box : Container) : Prop := box = arrayContainer ∨ box = objectContainer

variable {box : Container} {comma : Bool} {below : List StackRec}

theorem takes_open (known : box.Known) (start : parser.top.state = .start)
    (taken : visitor vis box.begins = (vis', none)) :
    Takes visitor toDecimal box.opener parser vis (parser.eatThen box.first) vis' := by
  intro line col
  rw [pass, located_top, start]
  dsimp only
  rw [passStart]
  rcases known with rfl | rfl
  · have other : ch '[' ≠ ch '\x7b' := by decide
    simp only [arrayContainer] at taken ⊢
    simp only [other, if_false, if_true, calling, taken]
    rfl
  · simp only [objectContainer] at taken ⊢
    simp only [if_true, calling, taken]
    rfl

theorem Settles.separator (settles : Settles visitor toDecimal parser vis (box.outer :: below) vis')
    (known : box.Known) (closer : c ∈ closers) :
    ∃ used popped, used ≤ 4 ∧ popped.top.state = box.sep ∧ popped.below = below ∧
      Turns visitor toDecimal used c parser vis popped vis' := by
  rcases settles.pops with ⟨used, popped, few, top, inside, turns⟩
  rcases known with rfl | rfl
  · exact ⟨used, popped, by omega, by rw [top]; rfl, inside, turns c closer⟩
  · have eats : Redoes visitor toDecimal c popped vis' popped.back vis' :=
      redoes_eat (by rw [top]; rfl) (visible_closer closer) vis'
    have state : popped.back.top.state = .objSep := by
      rw [back, goto, top]
      rfl
    exact ⟨used + 1, popped.back, by omega, state, inside, (turns c closer).redo eats⟩

theorem takes_comma (known : box.Known) (sep : parser.top.state = box.sep) (vis : σ) :
    Takes visitor toDecimal (ch ',') parser vis (parser.eatThen box.first) vis := by
  intro line col
  rcases known with rfl | rfl <;>
    · rw [pass, located_top, sep]
      rfl

theorem takes_close (known : box.Known)
    (state : parser.top.state = box.first ∨ parser.top.state = box.sep)
    (taken : visitor vis box.close = (vis', none)) :
    Takes visitor toDecimal box.closer parser vis (parser.eatThen .finish) vis' := by
  intro line col
  rcases known with rfl | rfl <;>
    · rcases state with state | state <;>
        · rw [pass, located_top, state]
          simp only [arrayContainer, objectContainer] at taken ⊢
          simp only [if_true, closing, calling, taken]
          rfl

variable (visitor toDecimal) in
/-- Between the values of an object or array, behind its bracket or behind a value. -/
def Between (box : Container) (comma : Bool) (parser : MojJsonParser) (vis : σ)
    (below : List StackRec) (vis' : σ) : Prop :=
  if comma then Settles visitor toDecimal parser vis (box.outer :: below) vis'
  else parser.top = ⟨.eatWhitespace, box.first⟩ ∧ parser.below = below ∧ vis' = vis

theorem Enters.container {outer inner : MojJsonParser}
    (enters : Enters visitor toDecimal outer inner) (known : box.Known)
    (taken : visitor vis box.begins = (vis', none)) :
    ∃ later, Reads visitor toDecimal [box.opener] outer vis later vis' ∧
      Between visitor toDecimal box false later vis' inner.below vis' := by
  have plain : Visible box.opener ∧ box.opener ≠ ch ']' := by
    rcases known with rfl | rfl <;> decide
  rcases enters.starts vis plain.1 plain.2 with ⟨start, used, few, turns⟩
  exact ⟨inner.back.eatThen box.first, turns.reads (by omega) (takes_open known start taken), rfl, rfl,
    rfl⟩

theorem Between.separates (between : Between visitor toDecimal box comma parser vis below vis')
    (known : box.Known) :
    ∃ later, later.top = ⟨.eatWhitespace, box.first⟩ ∧ later.below = below ∧
      Reads visitor toDecimal ((separator comma).flatMap JsonToken.text) parser vis later vis' := by
  unfold Between at between
  cases comma with
  | false =>
    rcases between with ⟨top, inside, rfl⟩
    exact ⟨parser, top, inside, Reads.refl parser vis'⟩
  | true =>
    rcases Settles.separator between known (by decide : ch ',' ∈ closers) with
      ⟨used, popped, few, sep, inside, turns⟩
    exact ⟨popped.eatThen box.first, rfl, inside, turns.reads (by omega) (takes_comma known sep vis')⟩

theorem Between.closes (between : Between visitor toDecimal box comma parser vis below vis')
    (known : box.Known) (taken : visitor vis' box.close = (vis'', none)) :
    ∃ later, Reads visitor toDecimal [box.closer] parser vis later vis'' ∧
      Settles visitor toDecimal later vis'' below vis'' := by
  have closer : box.closer ∈ closers := by
    rcases known with rfl | rfl <;> decide
  have ready : ∃ used asked, used ≤ 4 ∧ (asked.top.state = box.first ∨ asked.top.state = box.sep) ∧
      asked.below = below ∧ Turns visitor toDecimal used box.closer parser vis asked vis' := by
    unfold Between at between
    cases comma with
    | false =>
      rcases between with ⟨top, inside, rfl⟩
      have eats : Redoes visitor toDecimal box.closer parser vis' parser.back vis' :=
        redoes_eat (by rw [top]) (visible_closer closer) vis'
      have state : parser.back.top.state = box.first := by rw [back, goto, top]
      exact ⟨1, parser.back, by decide, Or.inl state, inside,
        (Turns.refl box.closer parser vis').redo eats⟩
    | true =>
      rcases Settles.separator between known closer with ⟨used, popped, few, sep, inside, turns⟩
      exact ⟨used, popped, few, Or.inr sep, inside, turns⟩
  rcases ready with ⟨used, asked, few, state, inside, turns⟩
  have closed : Settles visitor toDecimal (asked.eatThen .finish) vis'' below vis'' :=
    settles_closed rfl (show (asked.eatThen .finish).below = below from inside) vis''
  exact ⟨_, turns.reads (by omega) (takes_close known state taken), closed⟩

theorem redoes_push {position : MojJsonParser}
    (step : ∀ line col, pass visitor toDecimal (parser.located line col) vis c =
      push (position.located line col) vis)
    (room : position.below.length + 1 < maxDepth) :
    Redoes visitor toDecimal c parser vis
      { position with top := freshRec, below := position.top :: position.below } vis := by
  intro line col
  have space : ¬ maxDepth - 1 ≤ position.below.length := by omega
  rw [step, push, located_below, if_neg space]
  rfl

theorem enters_element (top : parser.top = ⟨.eatWhitespace, .array⟩) (inside : parser.below = below)
    (room : below.length + 1 < maxDepth) :
    ∃ inner, inner.below = arrayContainer.outer :: below ∧
      Enters visitor toDecimal parser inner := by
  have state : parser.back.top = ⟨.array, .array⟩ := by rw [back, goto, top]
  have position : (parser.back.goto .arraySep).top = ⟨.arraySep, .array⟩ := by rw [goto, state]
  refine ⟨{ parser.back.goto .arraySep with
    top := freshRec, below := (parser.back.goto .arraySep).top :: parser.below }, ?_, rfl, 2, le_refl 2, ?_⟩
  · dsimp only
    rw [position, inside]
    rfl
  · intro c vis visible opens
    have eats : Redoes visitor toDecimal c parser vis parser.back vis :=
      redoes_eat (by rw [top]) visible vis
    apply ((Turns.refl c parser vis).redo eats).redo
    apply redoes_push
    · intro line col
      rw [pass, located_top, state]
      simp only [opens, if_false]
      rfl
    · change parser.below.length + 1 < maxDepth
      rwa [inside]

theorem enters_value (top : parser.top = ⟨.eatWhitespace, .objValue⟩) (inside : parser.below = below)
    (room : below.length + 1 < maxDepth) :
    ∃ inner, inner.below = objectContainer.outer :: below ∧
      Enters visitor toDecimal parser inner := by
  have state : parser.back.top.state = .objValue := by rw [back, goto, top]
  refine ⟨{ parser.back.eatThen .objSep with
    top := freshRec, below := (parser.back.eatThen .objSep).top :: parser.below }, ?_, rfl, 2, le_refl 2, ?_⟩
  · dsimp only
    rw [inside]
    rfl
  · intro c vis visible opens
    have eats : Redoes visitor toDecimal c parser vis parser.back vis :=
      redoes_eat (by rw [top]) visible vis
    apply ((Turns.refl c parser vis).redo eats).redo
    apply redoes_push
    · intro line col
      rw [pass, located_top, state]
      rfl
    · change parser.below.length + 1 < maxDepth
      rwa [inside]

theorem reads_name (name : MojString) (top : parser.top = ⟨.eatWhitespace, .objFieldStart⟩)
    (taken : visitor vis (.propName (name.map Subtype.val)) = (vis', none)) :
    ∃ later, later.top = ⟨.eatWhitespace, .objValue⟩ ∧ later.below = parser.below ∧
      Reads visitor toDecimal (MojJsonWriter.writeString name ++ [ch ':']) parser vis later vis' := by
  have eats : Redoes visitor toDecimal (ch '"') parser vis parser.back vis :=
    redoes_eat (by rw [top]) (by decide) vis
  have opens : Takes visitor toDecimal (ch '"') parser.back vis (parser.back.sclear.goto .objField)
      vis := by
    intro line col
    rw [pass, located_top, back, goto, top]
    rfl
  rcases @reads_chars σ visitor toDecimal (parser.back.sclear.goto .objField) name (Or.inr rfl) vis
    with ⟨middle, state, below, str, read⟩
  have named : visitor vis (.propName middle.str) = (vis', none) := by
    rw [str]
    exact taken
  have colonEats : Redoes visitor toDecimal (ch ':') (middle.eatThen .objFieldEnd) vis'
      (middle.eatThen .objFieldEnd).back vis' := redoes_eat rfl (by decide) vis'
  have colon : Takes visitor toDecimal (ch ':') (middle.eatThen .objFieldEnd).back vis'
      (middle.eatThen .objValue) vis' := by
    intro line col
    rfl
  have done := ((((Turns.refl (ch '"') parser vis).redo eats).reads (by decide) opens).trans
    read).trans ((takes_nameQuote state named).reads.trans
      (((Turns.refl (ch ':') _ vis').redo colonEats).reads (by decide) colon))
  refine ⟨middle.eatThen .objValue, rfl, below, ?_⟩
  simpa [MojJsonWriter.writeString] using done

end Containers

section Objects

open MojObject

def ReadsInside (visitor : JsonVisitor σ) (toDecimal : ByteString → Except MojErr MojInt64)
    (box : Container) (depth : Nat) (json : Bool → List JsonToken) (calls : List VisitorCall) : Prop :=
  ∀ comma parser below vis vis' vis'', Between visitor toDecimal box comma parser vis below vis' →
    below.length + depth < maxDepth →
    told visitor vis' (calls.map VisitorCall.jsonCall) = some vis'' →
    ∃ later last, Reads visitor toDecimal ((json comma).flatMap JsonToken.text) parser vis later last ∧
      Settles visitor toDecimal later last below vis''

mutual

theorem readsValue (decimals : ∀ rep, rep ≠ BitVec.intMin 64 →
    toDecimal (MojDecimal.stringValue rep) = .ok rep) (obj : MojObject) (absolute : obj.Absolute) :
    ReadsValue visitor toDecimal obj := by
  match obj with
  | .null => exact readsValue_null
  | .bool val => exact readsValue_bool val
  | .int val => exact readsValue_int val
  | .decimal rep =>
    rw [Absolute] at absolute
    exact readsValue_decimal (decimals rep absolute)
  | .string val => exact readsValue_string val
  | .array vals =>
    intro outer inner vis vis' enters room all
    rw [Absolute] at absolute
    rw [nesting] at room
    rw [visits, List.map_cons] at all
    rcases told_cons all with ⟨begun, taken, inside⟩
    rcases enters.container (Or.inl rfl : arrayContainer.Known) taken with ⟨later, head, between⟩
    rcases readsElements decimals vals absolute false _ _ _ _ _ between room inside with
      ⟨last, done, read, settles⟩
    refine ⟨last, done, ?_, settles⟩
    rw [json, List.cons_append, List.flatMap_cons]
    exact head.trans read
  | .object props =>
    intro outer inner vis vis' enters room all
    rw [Absolute] at absolute
    rw [nesting] at room
    rw [visits, List.map_cons] at all
    rcases told_cons all with ⟨begun, taken, inside⟩
    rcases enters.container (Or.inr rfl : objectContainer.Known) taken with ⟨later, head, between⟩
    rcases readsProps decimals props absolute false _ _ _ _ _ between room inside with
      ⟨last, done, read, settles⟩
    refine ⟨last, done, ?_, settles⟩
    rw [json, List.cons_append, List.flatMap_cons]
    exact head.trans read

theorem readsElements (decimals : ∀ rep, rep ≠ BitVec.intMin 64 →
    toDecimal (MojDecimal.stringValue rep) = .ok rep) (vals : List MojObject)
    (absolute : AbsoluteVals vals) : ReadsInside visitor toDecimal arrayContainer (nestingVals vals)
      (fun comma => jsonVals comma vals ++ [.closeArray]) (visitsVals vals) := by
  intro comma parser below vis vis' vis'' between room all
  match vals with
  | [] =>
    rw [visitsVals, List.map_cons] at all
    rcases told_cons all with ⟨last, taken, ends⟩
    cases ends
    rcases between.closes (Or.inl rfl) taken with ⟨later, read, settles⟩
    refine ⟨later, _, ?_, settles⟩
    dsimp only
    rw [jsonVals]
    exact read
  | val :: rest =>
    rw [AbsoluteVals] at absolute
    rw [nestingVals] at room
    rw [visitsVals, List.map_append] at all
    rcases told_append all with ⟨middle, first, others⟩
    rcases between.separates (Or.inl rfl) with ⟨asking, top, inside, separated⟩
    rcases @enters_element _ visitor toDecimal asking below top inside (by omega) with
      ⟨inner, outer, enters⟩
    have deeper : inner.below.length = below.length + 1 := congrArg List.length outer
    rcases readsValue decimals val absolute.1 asking inner vis' middle enters (by omega) first with
      ⟨after, last, value, settles⟩
    rw [outer] at settles
    rcases readsElements decimals rest absolute.2 true _ _ _ _ _ settles (by omega) others with
      ⟨later, done, read, finish⟩
    refine ⟨later, done, ?_, finish⟩
    dsimp only
    rw [jsonVals, List.append_assoc, List.append_assoc, List.flatMap_append, List.flatMap_append]
    exact separated.trans (value.trans read)

theorem readsProps (decimals : ∀ rep, rep ≠ BitVec.intMin 64 →
    toDecimal (MojDecimal.stringValue rep) = .ok rep) (props : List (MojString × MojObject))
    (absolute : AbsoluteProps props) : ReadsInside visitor toDecimal objectContainer
      (nestingProps props) (fun comma => jsonProps comma props ++ [.closeObject])
      (visitsProps props) := by
  intro comma parser below vis vis' vis'' between room all
  match props with
  | [] =>
    rw [visitsProps, List.map_cons] at all
    rcases told_cons all with ⟨last, taken, ends⟩
    cases ends
    rcases between.closes (Or.inr rfl) taken with ⟨later, read, settles⟩
    refine ⟨later, _, ?_, settles⟩
    dsimp only
    rw [jsonProps]
    exact read
  | (name, val) :: rest =>
    rw [AbsoluteProps] at absolute
    rw [nestingProps] at room
    rw [visitsProps, List.map_cons, List.map_append] at all
    rcases told_cons all with ⟨named, taken, both⟩
    rcases told_append both with ⟨middle, first, others⟩
    rcases between.separates (Or.inr rfl) with ⟨asking, top, inside, separated⟩
    rcases @reads_name _ visitor toDecimal _ _ _ name top taken with
      ⟨valued, valueTop, valueBelow, key⟩
    rcases @enters_value _ visitor toDecimal valued below valueTop (valueBelow.trans inside)
      (by omega) with ⟨inner, outer, enters⟩
    have deeper : inner.below.length = below.length + 1 := congrArg List.length outer
    rcases readsValue decimals val absolute.1 valued inner named middle enters (by omega) first with
      ⟨after, last, value, settles⟩
    rw [outer] at settles
    rcases readsProps decimals rest absolute.2 true _ _ _ _ _ settles (by omega) others with
      ⟨later, done, read, finish⟩
    refine ⟨later, done, ?_, finish⟩
    have text : (jsonProps comma ((name, val) :: rest) ++ [JsonToken.closeObject]).flatMap JsonToken.text =
        (separator comma).flatMap JsonToken.text ++
          ((MojJsonWriter.writeString name ++ [ch ':']) ++ (val.json.flatMap JsonToken.text ++
            (jsonProps true rest ++ [JsonToken.closeObject]).flatMap JsonToken.text)) := by
      simp [jsonProps, JsonToken.text]
    dsimp only
    rw [text]
    exact separated.trans (key.trans (value.trans read))

end

theorem parse_json (decimals : ∀ rep, rep ≠ BitVec.intMin 64 →
    toDecimal (MojDecimal.stringValue rep) = .ok rep) {obj : MojObject} (absolute : obj.Absolute)
    (shallow : obj.nesting < maxDepth)
    (all : told visitor vis (obj.visits.map VisitorCall.jsonCall) = some vis') :
    parse visitor toDecimal vis obj.toJson = some (.ok vis') := by
  have enters : Enters visitor toDecimal create.restart create.restart :=
    ⟨rfl, 0, Nat.zero_le 2, fun c vis _ _ => Turns.refl c _ vis⟩
  have room : create.restart.below.length + obj.nesting < maxDepth := by
    change 0 + obj.nesting < maxDepth
    omega
  rcases readsValue decimals obj absolute _ _ vis vis' enters room all with
    ⟨later, last, read, used, ended, few, finish, inside, turns⟩
  rcases read 1 1 with ⟨line, col, chunk⟩
  have whole : parseChunk visitor toDecimal create.restart vis obj.toJson =
      (later.located line col, last, .ok []) := by
    have done := chunk []
    rw [List.append_nil, ← MojObject.toJson_eq] at done
    exact done
  have closes : passes visitor toDecimal 5 (later.located line col) last 0 =
      some (.done (ended.located line col) vis') := by
    rw [show 5 = 4 - used + 1 + used by omega, turns 0 (by decide), passes, pass, located_top, finish,
      located_below, inside]
    rfl
  have ends : parseEnd visitor toDecimal (later.located line col) last =
      (ended.located line col, vis', .ok [0]) := by
    have counted : (later.located line col).countLine 0 = later.located line col := rfl
    rw [parseEnd, parseChunk, counted, closes]
  have finished : (ended.located line col).finished = true := by
    rw [MojJsonParser.finished, located_top, finish, located_below, inside]
    rfl
  rw [parse, whole]
  dsimp only
  rw [ends]
  dsimp only
  rw [if_pos finished]

end Objects

end Visitor

end MojJsonParser

namespace MojObjectBuilder

theorem visitorCall_jsonCall (call : VisitorCall) : call.jsonCall.visitorCall = call := by
  cases call with
  | propName name => exact congrArg VisitorCall.propName (cString_map name)
  | stringValue val => exact congrArg VisitorCall.stringValue (cString_map val)
  | _ => rfl

theorem told_visitor {builder built : MojObjectBuilder} {calls : List VisitorCall}
    (folds : calls.foldlM visit builder = .ok built) :
    MojJsonParser.told visitor builder (calls.map VisitorCall.jsonCall) = some built := by
  induction calls generalizing builder with
  | nil =>
    cases folds
    rfl
  | cons call calls ih =>
    rw [List.foldlM_cons] at folds
    rcases except_bind_ok folds with ⟨next, step, rest⟩
    rw [List.map_cons, MojJsonParser.told, visitor, visitorCall_jsonCall, step]
    exact ih rest

end MojObjectBuilder

namespace MojObject

/-- An object is read back from its text, with every value of the type it had. -/
theorem fromJson_toJson (fault : MojNumber.NumberErr → MojErr) (obj : DefinedObject)
    (shallow : obj.val.nesting < MojJsonParser.maxDepth) (absolute : obj.val.Absolute) :
    fromJson fault obj.val.toJson = some (.ok (some obj.val)) := by
  have decimals : ∀ rep, rep ≠ BitVec.intMin 64 →
      MojDecimal.assign fault (MojDecimal.stringValue rep) = .ok rep :=
    fun rep notLeast => MojDecimal.assign_stringValue fault notLeast
  have all := MojObjectBuilder.told_visitor
    (MojObjectBuilder.foldlM_visits_empty obj.property)
  rw [fromJson, MojJsonParser.parse_json decimals absolute shallow all]
  rfl

def sampleObject : MojObject :=
  .object [([⟨10, by decide⟩, ⟨34, by decide⟩, ⟨0xc3, by decide⟩],
    .array [.int (-5), .decimal 3500000, .object [], .string [⟨31, by decide⟩]])]

theorem fromJson_toJson_sample : ∃ fault,
    fromJson fault sampleObject.toJson = some (.ok (some sampleObject)) :=
  ⟨fun _ => .typeMismatch, fromJson_toJson (fun _ => .typeMismatch)
    ⟨sampleObject, by simp [sampleObject, WellFormed, WellFormedProps, WellFormedVals]⟩
    (by decide) (by
      simp [sampleObject, Absolute, AbsoluteProps, AbsoluteVals]
      decide)⟩

end MojObject

end Db8.Core
