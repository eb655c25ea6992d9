import Db8.Core.JsonChunks

/-!
# Restarting the parser

`begin` sets the position and the record and leaves the rest of a used parser as it is. Nothing of
that rest is ever read: a state reads the text, the digits or the literal only after they were set
for it. So a parser that has finished and begins again is as good as a fresh one.
-/

set_option autoImplicit false

namespace Db8.Core

open Db8.Bytes

namespace MojJsonParser

def Shares (state : State) (one other : MojJsonParser) : Prop :=
  match state with
  | .null => one.strPos = other.strPos
  | .bool => one.strPos = other.strPos ∧ one.matchStr = other.matchStr
  | .string | .objField | .stringEscape => one.str = other.str
  | .escapeUnicode =>
    one.str = other.str ∧ one.strPos = other.strPos ∧ one.ucsChar = other.ucsChar
  | .number => one.str = other.str ∧ one.isDecimal = other.isDecimal
  | _ => True

structure Agree (one other : MojJsonParser) : Prop where
  line : one.line = other.line
  col : one.col = other.col
  top : one.top = other.top
  below : one.below = other.below
  shares : Shares one.top.state one other

def Pass.Agree {σ : Type} : Pass σ → Pass σ → Prop
  | .next one vis, .next other vis' => one.Agree other ∧ vis = vis'
  | .redo one vis, .redo other vis' => one.Agree other ∧ vis = vis'
  | .done one vis, .done other vis' => one.Agree other ∧ vis = vis'
  | .fail err _ vis, .fail err' _ vis' => err = err' ∧ vis = vis'
  | _, _ => False

variable {one other : MojJsonParser}

theorem Agree.fault (agree : one.Agree other) (code : JsonErrCode)
    (msg : String) : one.fault code msg = other.fault code msg := by
  simp only [MojJsonParser.fault, agree.line, agree.col]

theorem Agree.eatThen (agree : one.Agree other) (saved : State) :
    (one.eatThen saved).Agree (other.eatThen saved) :=
  ⟨agree.line, agree.col, rfl, agree.below, trivial⟩

theorem Agree.goto (agree : one.Agree other) (state : State)
    (shares : Shares state one other) : (one.goto state).Agree (other.goto state) := by
  refine ⟨agree.line, agree.col, ?_, agree.below, ?_⟩
  · simp only [MojJsonParser.goto, agree.top]
  · cases state <;> exact shares

theorem Agree.back (agree : one.Agree other)
    (shares : Shares one.top.savedState one other) : one.back.Agree other.back := by
  unfold MojJsonParser.back
  rw [← agree.top]
  exact agree.goto _ shares

theorem shares_escaped {state : State} (escaped : Escaped state) (one other : MojJsonParser)
    (same : one.str = other.str) : Shares state one other := by
  cases state <;> first | exact same | contradiction

theorem shares_waited {state : State} (waited : Waited state) (one other : MojJsonParser) :
    Shares state one other := by
  cases state <;> trivial

section Visitor

variable {σ : Type} (visitor : JsonVisitor σ) (toDecimal : ByteString → Except MojErr MojInt64)

theorem agree_calling (one other : MojJsonParser) (vis : σ) (call : JsonCall)
    (pass pass' : σ → Pass σ) (agree : ∀ vis, (pass vis).Agree (pass' vis)) :
    (calling visitor one vis call pass).Agree (calling visitor other vis call pass') := by
  unfold calling
  rcases visitor vis call with ⟨vis, _ | err⟩
  · exact agree vis
  · exact ⟨rfl, rfl⟩

theorem agree_closing (one other : MojJsonParser) (vis : σ) (call : JsonCall)
    (agree : one.Agree other) :
    (closing visitor one vis call).Agree (closing visitor other vis call) := by
  apply agree_calling
  intro vis
  exact ⟨agree.eatThen .finish, rfl⟩

theorem agree_push (one other : MojJsonParser) (vis : σ) (agree : one.Agree other) :
    (push one vis).Agree (push other vis) := by
  unfold push
  rw [congrArg List.length agree.below]
  split
  · exact ⟨agree.fault _ _, rfl⟩
  · have below : one.top :: one.below = other.top :: other.below := by rw [agree.top, agree.below]
    exact ⟨⟨agree.line, agree.col, rfl, below, trivial⟩, rfl⟩

theorem agree_passStart (one other : MojJsonParser) (vis : σ) (c : Byte) (agree : one.Agree other) :
    (passStart visitor one vis c).Agree (passStart visitor other vis c) := by
  have record (state : State) : (one.goto state).top = (other.goto state).top := by
    simp only [goto, agree.top]
  unfold passStart
  split
  · apply agree_calling
    intro vis
    exact ⟨agree.eatThen .objFieldStart, rfl⟩
  split
  · apply agree_calling
    intro vis
    exact ⟨agree.eatThen .array, rfl⟩
  split
  · exact ⟨⟨agree.line, agree.col, record .null, agree.below, rfl⟩, rfl⟩
  split
  · exact ⟨⟨agree.line, agree.col, record .string, agree.below, rfl⟩, rfl⟩
  split
  · exact ⟨⟨agree.line, agree.col, record .bool, agree.below, rfl, rfl⟩, rfl⟩
  split
  · exact ⟨⟨agree.line, agree.col, record .number, agree.below, rfl, rfl⟩, rfl⟩
  split
  · exact ⟨agree, rfl⟩
  · exact ⟨agree.fault _ _, rfl⟩

theorem agree_passLiteral (one other : MojJsonParser) (vis : σ) (c : Byte) (text : ByteString)
    (code : JsonErrCode) (msg : String) (call : JsonCall) (agree : one.Agree other)
    (position : one.strPos = other.strPos)
    (moves : ∀ pos, Agree { one with strPos := pos } { other with strPos := pos }) :
    (passLiteral visitor one vis c text code msg call).Agree
      (passLiteral visitor other vis c text code msg call) := by
  unfold passLiteral
  rw [position]
  split
  · exact ⟨agree.fault _ _, rfl⟩
  dsimp only
  split
  · exact agree_closing visitor _ _ vis call (moves _)
  · exact ⟨moves _, rfl⟩

theorem agree_passStringEscape (one other : MojJsonParser) (vis : σ) (c : Byte)
    (agree : one.Agree other) (sane : one.Sane) (here : one.top.state = .stringEscape) :
    (passStringEscape one vis c).Agree (passStringEscape other vis c) := by
  have same : one.str = other.str := by
    have shares := agree.shares
    rw [here] at shares
    exact shares
  have saved : Escaped one.top.savedState := by
    have top := sane.top
    rw [StackRec.Sane, here] at top
    exact top
  have back (text : Byte) : (Pass.next (one.sappend [text]).back vis).Agree
      (Pass.next (other.sappend [text]).back vis) := by
    refine ⟨⟨agree.line, agree.col, ?_, agree.below, ?_⟩, rfl⟩
    · simp only [MojJsonParser.back, goto, sappend, agree.top]
    · exact shares_escaped saved _ _ (by simp only [MojJsonParser.back, goto, sappend, same])
  unfold passStringEscape
  dsimp only
  split
  · refine ⟨⟨agree.line, agree.col, ?_, agree.below, same, rfl, rfl⟩, rfl⟩
    simp only [goto, agree.top]
  split
  · exact back c
  split
  · exact back 8
  split
  · exact back 10
  split
  · exact back 13
  split
  · exact back 9
  split
  · exact back 12
  · exact ⟨agree.fault _ _, rfl⟩

theorem agree_passEscapeUnicode (one other : MojJsonParser) (vis : σ) (c : Byte)
    (agree : one.Agree other) (sane : one.Sane) (here : one.top.state = .escapeUnicode) :
    (passEscapeUnicode one vis c).Agree (passEscapeUnicode other vis c) := by
  have shares := agree.shares
  rw [here] at shares
  rcases shares with ⟨str, strPos, ucsChar⟩
  have saved : Escaped one.top.savedState := by
    have top := sane.top
    rw [StackRec.Sane, here] at top
    exact top
  unfold passEscapeUnicode
  rw [strPos, ucsChar]
  dsimp only
  split
  · split
    · split
      · exact ⟨agree.fault _ _, rfl⟩
      · refine ⟨⟨agree.line, agree.col, ?_, agree.below, ?_⟩, rfl⟩
        · simp only [MojJsonParser.back, goto, sappend, agree.top]
        · exact shares_escaped saved _ _ (by simp only [MojJsonParser.back, goto, sappend, str])
    · refine ⟨⟨agree.line, agree.col, agree.top, agree.below, ?_⟩, rfl⟩
      dsimp only
      rw [here]
      exact ⟨str, rfl, rfl⟩
  · exact ⟨agree.fault _ _, rfl⟩

theorem agree_passNumber (one other : MojJsonParser) (vis : σ) (c : Byte) (agree : one.Agree other)
    (here : one.top.state = .number) :
    (passNumber visitor toDecimal one vis c).Agree (passNumber visitor toDecimal other vis c) := by
  have shares := agree.shares
  rw [here] at shares
  rcases shares with ⟨str, isDecimal⟩
  have ended (vis : σ) :
      (Pass.redo (one.eatThen .finish) vis).Agree (Pass.redo (other.eatThen .finish) vis) :=
    ⟨agree.eatThen .finish, rfl⟩
  unfold passNumber
  rw [str, isDecimal]
  split
  · refine ⟨⟨agree.line, agree.col, agree.top, agree.below, ?_⟩, rfl⟩
    simp only [sappend, here]
    exact ⟨rfl, rfl⟩
  split
  · refine ⟨⟨agree.line, agree.col, agree.top, agree.below, ?_⟩, rfl⟩
    simp only [sappend, here, str]
    exact ⟨rfl, isDecimal⟩
  split
  · split
    · exact ⟨rfl, rfl⟩
    · apply agree_calling
      exact ended
  · apply agree_calling
    intro vis
    split
    · exact ended vis
    · exact ⟨agree.fault _ _, rfl⟩

theorem agree_passChars (one other : MojJsonParser) (vis : σ) (c : Byte) (state after : State)
    (call : JsonCall) (agree : one.Agree other) (here : one.top.state = state)
    (escaped : Escaped state) (same : one.str = other.str) :
    (passChars visitor one vis c state after call).Agree
      (passChars visitor other vis c state after call) := by
  unfold passChars
  split
  · apply agree_calling
    intro vis
    exact ⟨agree.eatThen after, rfl⟩
  split
  · exact ⟨⟨agree.line, agree.col, rfl, agree.below, same⟩, rfl⟩
  · refine ⟨⟨agree.line, agree.col, agree.top, agree.below, ?_⟩, rfl⟩
    simp only [sappend, here]
    exact shares_escaped escaped _ _ (by rw [same])

theorem agree_pass (one other : MojJsonParser) (vis : σ) (c : Byte) (agree : one.Agree other)
    (sane : one.Sane) :
    (pass visitor toDecimal one vis c).Agree (pass visitor toDecimal other vis c) := by
  have top := sane.top
  have shares := agree.shares
  unfold pass
  rw [← agree.top]
  split <;> rename_i here
  · rw [StackRec.Sane, here] at top
    split
    · exact ⟨agree, rfl⟩
    split
    · exact ⟨agree.goto .commentStart trivial, rfl⟩
    · exact ⟨agree.back (shares_waited top one other), rfl⟩
  · exact agree_passStart visitor one other vis c agree
  · rw [← agree.below]
    split <;> rename_i stack
    · exact ⟨agree, rfl⟩
    · refine ⟨⟨agree.line, agree.col, rfl, rfl, ?_⟩, rfl⟩
      rcases sane.below _ (by rw [stack]; exact List.mem_cons_self) with sep | value
      · simp only [sep]
        trivial
      · simp only [value]
        trivial
  · rw [here] at shares
    refine agree_passLiteral visitor one other vis c _ _ _ _ agree shares ?_
    intro pos
    exact ⟨agree.line, agree.col, agree.top, agree.below, by simp only [here]; rfl⟩
  · split
    · exact ⟨agree.goto .comment trivial, rfl⟩
    split
    · exact ⟨agree.goto .commentEol trivial, rfl⟩
    · exact ⟨rfl, rfl⟩
  · split
    · exact ⟨agree.goto .commentEnd trivial, rfl⟩
    · exact ⟨agree, rfl⟩
  · split
    · exact ⟨agree.goto .eatWhitespace trivial, rfl⟩
    · exact ⟨agree, rfl⟩
  · split
    · exact ⟨agree.goto .eatWhitespace trivial, rfl⟩
    · exact ⟨agree.goto .comment trivial, rfl⟩
  · rw [here] at shares
    have same : one.str = other.str := shares
    rw [same]
    exact agree_passChars visitor one other vis c _ _ _ agree here trivial same
  · exact agree_passStringEscape one other vis c agree sane here
  · exact agree_passEscapeUnicode one other vis c agree sane here
  · rw [here] at shares
    rw [shares.2]
    refine agree_passLiteral visitor one other vis c _ _ _ _ agree shares.1 ?_
    intro pos
    exact ⟨agree.line, agree.col, agree.top, agree.below, by simp only [here]; exact ⟨rfl, shares.2⟩⟩
  · exact agree_passNumber visitor toDecimal one other vis c agree here
  · split
    · exact agree_closing visitor one other vis _ agree
    · exact agree_push _ _ vis (agree.goto .arraySep trivial)
  · split
    · exact agree_closing visitor one other vis _ agree
    split
    · exact ⟨agree.eatThen .array, rfl⟩
    · exact ⟨agree.fault _ _, rfl⟩
  · split
    · exact agree_closing visitor one other vis _ agree
    split
    · refine ⟨⟨agree.line, agree.col, ?_, agree.below, rfl⟩, rfl⟩
      simp only [sclear, goto, agree.top]
    · exact ⟨agree.fault _ _, rfl⟩
  · rw [here] at shares
    have same : one.str = other.str := shares
    rw [same]
    exact agree_passChars visitor one other vis c _ _ _ agree here trivial same
  · split
    · exact ⟨agree.eatThen .objValue, rfl⟩
    · exact ⟨agree.fault _ _, rfl⟩
  · exact agree_push _ _ vis (agree.eatThen .objSep)
  · split
    · exact agree_closing visitor one other vis _ agree
    split
    · exact ⟨agree.eatThen .objFieldStart, rfl⟩
    · exact ⟨agree.fault _ _, rfl⟩

theorem agree_passes (count : Nat) (one other : MojJsonParser) (vis : σ) (c : Byte)
    (agree : one.Agree other) (sane : one.Sane) :
    match passes visitor toDecimal count one vis c, passes visitor toDecimal count other vis c with
    | some passed, some passed' => passed.Agree passed'
    | none, none => True
    | _, _ => False := by
  induction count generalizing one other vis with
  | zero => trivial
  | succ count ih =>
    have step := agree_pass visitor toDecimal one other vis c agree sane
    have good := good_pass visitor toDecimal one vis c sane
    unfold passes
    cases left : pass visitor toDecimal one vis c <;>
      cases right : pass visitor toDecimal other vis c <;> rw [left, right] at step <;>
      rw [left] at good
    case redo.redo one vis other vis' =>
      rcases step with ⟨agree, rfl⟩
      exact ih one other vis agree good.1
    all_goals first | exact step | exact step.elim

theorem agree_countLine (one other : MojJsonParser) (c : Byte) (agree : one.Agree other) :
    (one.countLine c).Agree (other.countLine c) := by
  unfold countLine
  split
  · refine ⟨congrArg (· + 1) agree.line, rfl, agree.top, agree.below, ?_⟩
    have shares := agree.shares
    dsimp only
    cases here : one.top.state <;> rw [here] at shares <;> exact shares
  · exact agree

theorem agree_nextCol (one other : MojJsonParser) (agree : one.Agree other) :
    Agree { one with col := one.col + 1 } { other with col := other.col + 1 } := by
  refine ⟨agree.line, congrArg (· + 1) agree.col, agree.top, agree.below, ?_⟩
  have shares := agree.shares
  dsimp only
  cases here : one.top.state <;> rw [here] at shares <;> exact shares

theorem agree_parseChunk (one other : MojJsonParser) (vis : σ) (chars : ByteString)
    (agree : one.Agree other) (sane : one.Sane) :
    let left := parseChunk visitor toDecimal one vis chars
    let right := parseChunk visitor toDecimal other vis chars
    left.2 = right.2 ∧ ((∃ rest, left.2.2 = .ok rest) → left.1.Agree right.1) := by
  induction chars generalizing one other vis with
  | nil => exact ⟨rfl, fun _ => agree⟩
  | cons c chars ih =>
    have counted := sane_countLine one c sane
    have step := agree_passes visitor toDecimal 5 (one.countLine c) (other.countLine c) vis c
      (agree_countLine one other c agree) counted
    obtain ⟨passed, ends, good⟩ := passes_end visitor toDecimal 5 (one.countLine c) vis c counted
      (Nat.lt_succ_of_le (passesLeft_le _ _))
    unfold parseChunk
    rw [ends] at step ⊢
    cases ends' : passes visitor toDecimal 5 (other.countLine c) vis c with
    | none => rw [ends'] at step; exact step.elim
    | some passed' =>
      rw [ends'] at step
      cases passed <;> cases passed' <;> first | exact step.elim | skip
      case next.next one vis other vis' =>
        rcases step with ⟨agree, rfl⟩
        exact ih _ _ vis (agree_nextCol one other agree) ⟨good.1.top, good.1.below, good.1.literal⟩
      case redo.redo => exact absurd good.2 (Nat.not_lt_zero _)
      case done.done =>
        rcases step with ⟨agree, rfl⟩
        exact ⟨rfl, fun _ => agree⟩
      case fail.fail =>
        rcases step with ⟨rfl, rfl⟩
        exact ⟨rfl, by rintro ⟨rest, ok⟩; simp at ok⟩

end Visitor

theorem restart_agree (parser : MojJsonParser) (outside : parser.below = []) :
    parser.restart.Agree begun.val :=
  ⟨rfl, rfl, rfl, outside, trivial⟩

end MojJsonParser

end Db8.Core
