import Db8.Core.JsonParser

/-!
# Parsing in chunks

A text may reach the parser in any number of chunks. All that the parser knows of the text behind it
is in its own state, so the chunks are as good as the whole: what has to be seen is that a parser
which has stopped before the end of a chunk stops at once in every later one, and that the passes
over a character always come to an end.
-/

set_option autoImplicit false

namespace Db8.Core

open Db8.Bytes

namespace MojJsonParser

def Waited : State → Prop
  | .start | .finish | .array | .objFieldStart | .objFieldEnd | .objValue | .objSep => True
  | _ => False

def Escaped : State → Prop
  | .string | .objField => True
  | _ => False

def StackRec.Sane (record : StackRec) : Prop :=
  match record.state with
  | .eatWhitespace | .commentStart | .comment | .commentEol | .commentEnd =>
    Waited record.savedState
  | .stringEscape | .escapeUnicode => Escaped record.savedState
  | _ => True

/-- A record under the top waits for the value above it. -/
def StackRec.Outer (record : StackRec) : Prop :=
  record.state = .arraySep ∨ record = ⟨.eatWhitespace, .objSep⟩

def InLiteral (parser : MojJsonParser) : Prop :=
  match parser.top.state with
  | .null => parser.strPos < nullString.length
  | .bool => parser.strPos < parser.matchStr.length ∧ 0 ∉ parser.matchStr
  | _ => True

structure Sane (parser : MojJsonParser) : Prop where
  top : parser.top.Sane
  below : ∀ record ∈ parser.below, record.Outer
  literal : parser.InLiteral

/-- How many more passes a character may need, the last one apart. -/
def passesLeft (parser : MojJsonParser) (c : Byte) : Nat :=
  match parser.top.state with
  | .eatWhitespace =>
    match parser.top.savedState with
    | .array | .objValue => 4
    | .finish => 3
    | .start => 2
    | _ => 1
  | .array | .objValue => 3
  | .finish => 2
  | .start | .commentEnd => 1
  | .number =>
    if c = ch '.' ∨ c = ch 'e' ∨ c = ch 'E' ∨ isDigitByte c ∨ c = ch '+' ∨ c = ch '-' then 0 else 4
  | _ => 0

theorem passesLeft_le (parser : MojJsonParser) (c : Byte) : parser.passesLeft c ≤ 4 := by
  unfold passesLeft
  split
  · split <;> omega
  · omega
  · omega
  · omega
  · omega
  · omega
  · split <;> omega
  · omega

/-- What a pass may leave behind: sane parsers, and fewer passes to go when there is another. -/
def Pass.Good {σ : Type} (passed : Pass σ) (bound : Nat) (c : Byte) : Prop :=
  match passed with
  | .next parser _ => parser.Sane ∧ parser.top.state ≠ .finish
  | .redo parser _ => parser.Sane ∧ parser.passesLeft c < bound
  | .done parser _ => parser.Sane ∧ parser.finished
  | .fail _ _ _ => True

theorem sane_countLine (parser : MojJsonParser) (c : Byte) (sane : parser.Sane) :
    (parser.countLine c).Sane := by
  unfold countLine
  split
  · exact ⟨sane.top, sane.below, sane.literal⟩
  · exact sane

theorem literal_of_escaped (parser : MojJsonParser) (escaped : Escaped parser.top.state) :
    parser.InLiteral := by
  unfold InLiteral
  cases here : parser.top.state <;> rw [here] at escaped <;> trivial

theorem unfinished_of_escaped {state : State} (escaped : Escaped state) : state ≠ .finish := by
  rintro rfl
  exact escaped

theorem sane_of_escaped (record : StackRec) (saved : Escaped record.savedState) :
    StackRec.Sane { record with state := record.savedState } := by
  rcases record with ⟨state, savedState⟩
  cases savedState <;> trivial

section Visitor

variable {σ : Type} (visitor : JsonVisitor σ) (toDecimal : ByteString → Except MojErr MojInt64)

variable (parser : MojJsonParser)

theorem good_calling (vis : σ) (call : JsonCall) (pass : σ → Pass σ) (bound : Nat) (c : Byte)
    (good : ∀ vis, (pass vis).Good bound c) :
    (calling visitor parser vis call pass).Good bound c := by
  unfold calling
  split
  · apply good
  · trivial

theorem good_closing (vis : σ) (call : JsonCall) (bound : Nat) (c : Byte)
    (below : ∀ record ∈ parser.below, record.Outer) :
    (closing visitor parser vis call).Good bound c := by
  apply good_calling
  intro vis
  exact ⟨⟨trivial, below, trivial⟩, nofun⟩

theorem good_passStart (vis : σ) (c : Byte) (sane : parser.Sane)
    (here : parser.top.state = .start) : (passStart visitor parser vis c).Good 1 c := by
  have below := sane.below
  unfold passStart
  split
  · apply good_calling
    intro vis
    exact ⟨⟨trivial, below, trivial⟩, nofun⟩
  split
  · apply good_calling
    intro vis
    exact ⟨⟨trivial, below, trivial⟩, nofun⟩
  split
  · refine ⟨⟨trivial, below, ?_⟩, by simp [passesLeft, goto]⟩
    dsimp only [InLiteral, goto]
    decide
  split
  · exact ⟨⟨trivial, below, trivial⟩, nofun⟩
  split
  · refine ⟨⟨trivial, below, ?_⟩, by simp [passesLeft, goto]⟩
    dsimp only [InLiteral, goto]
    split <;> decide
  split
  case isTrue number =>
    refine ⟨⟨trivial, below, trivial⟩, ?_⟩
    rcases number with digit | minus <;> simp [passesLeft, goto, sclear, *]
  split
  · exact ⟨sane, by rw [here]; nofun⟩
  · trivial

theorem good_passLiteral (vis : σ) (c : Byte) (text : ByteString) (code : JsonErrCode)
    (msg : String) (call : JsonCall) (bound : Nat) (sane : parser.Sane)
    (unfinished : parser.top.state ≠ .finish)
    (literal : ∀ pos < text.length, InLiteral { parser with strPos := pos }) :
    (passLiteral visitor parser vis c text code msg call).Good bound c := by
  unfold passLiteral
  split
  · trivial
  dsimp only
  split
  · exact good_closing visitor _ vis call bound c sane.below
  · exact ⟨⟨sane.top, sane.below, literal _ (by omega)⟩, unfinished⟩

theorem good_passStringEscape (vis : σ) (c : Byte) (bound : Nat) (sane : parser.Sane)
    (escaping : parser.top.state = .stringEscape) :
    (passStringEscape parser vis c).Good bound c := by
  have saved : Escaped parser.top.savedState := by
    have top := sane.top
    rw [StackRec.Sane, escaping] at top
    exact top
  have back (text : Byte) : (Pass.next (parser.sappend [text]).back vis).Good bound c :=
    ⟨⟨sane_of_escaped _ saved, sane.below, literal_of_escaped _ saved⟩,
      unfinished_of_escaped saved⟩
  unfold passStringEscape
  dsimp only
  split
  · exact ⟨⟨saved, sane.below, trivial⟩, nofun⟩
  split
  · exact back c
  split
  · exact back 8
  split
  · exact back 10
  split
  · exact back 13
  split
  · exact back 9
  split
  · exact back 12
  · trivial

theorem good_passEscapeUnicode (vis : σ) (c : Byte) (bound : Nat) (sane : parser.Sane)
    (escaping : parser.top.state = .escapeUnicode) :
    (passEscapeUnicode parser vis c).Good bound c := by
  have saved : Escaped parser.top.savedState := by
    have top := sane.top
    rw [StackRec.Sane, escaping] at top
    exact top
  unfold passEscapeUnicode
  dsimp only
  split
  · split
    · split
      · trivial
      · exact ⟨⟨sane_of_escaped _ saved, sane.below, literal_of_escaped _ saved⟩,
          unfinished_of_escaped saved⟩
    · exact ⟨⟨sane.top, sane.below, by simp only [InLiteral, escaping]⟩, by rw [escaping]; nofun⟩
  · trivial

theorem good_passNumber (vis : σ) (c : Byte) (sane : parser.Sane)
    (counting : parser.top.state = .number) :
    (passNumber visitor toDecimal parser vis c).Good (parser.passesLeft c) c := by
  have ended (vis : σ) (more : parser.passesLeft c = 4) :
      (Pass.redo (parser.eatThen .finish) vis).Good (parser.passesLeft c) c :=
    ⟨⟨trivial, sane.below, trivial⟩, by rw [more]; simp [passesLeft, eatThen]⟩
  unfold passNumber
  dsimp only
  split
  · exact ⟨⟨sane.top, sane.below, sane.literal⟩, by simp only [sappend, counting]; nofun⟩
  split
  · exact ⟨⟨sane.top, sane.below, sane.literal⟩, by simp only [sappend, counting]; nofun⟩
  case isFalse notDecimal notDigit =>
    have more : parser.passesLeft c = 4 := by
      simp only [passesLeft, counting]
      rw [if_neg]
      tauto
    split
    · split
      · trivial
      · apply good_calling
        intro vis
        exact ended vis more
    · apply good_calling
      intro vis
      split
      · exact ended vis more
      · trivial

theorem good_passChars (vis : σ) (c : Byte) (state after : State) (call : JsonCall) (bound : Nat)
    (sane : parser.Sane) (here : parser.top.state = state) (escaped : Escaped state)
    (waited : Waited after) : (passChars visitor parser vis c state after call).Good bound c := by
  unfold passChars
  split
  · apply good_calling
    intro vis
    exact ⟨⟨waited, sane.below, trivial⟩, nofun⟩
  split
  · exact ⟨⟨escaped, sane.below, trivial⟩, nofun⟩
  · refine ⟨⟨sane.top, sane.below, sane.literal⟩, ?_⟩
    simp only [sappend, here]
    exact unfinished_of_escaped escaped

theorem good_push (vis : σ) (bound : Nat) (c : Byte) (below : ∀ record ∈ parser.below, record.Outer)
    (outer : parser.top.Outer) (enough : 2 < bound) : (push parser vis).Good bound c := by
  unfold push
  split
  · trivial
  · refine ⟨⟨trivial, ?_, trivial⟩, ?_⟩
    · intro record member
      rcases List.mem_cons.mp member with rfl | member
      · exact outer
      · exact below record member
    · exact enough

theorem good_back (vis : σ) (c : Byte) (below : ∀ record ∈ parser.below, record.Outer)
    (here : parser.top.state = .eatWhitespace) (waited : Waited parser.top.savedState) :
    (Pass.redo parser.back vis).Good (parser.passesLeft c) c := by
  rcases parser with ⟨line, col, strPos, ucsChar, matchStr, isDecimal, str, ⟨state, saved⟩, stack⟩
  dsimp only at here waited below
  subst here
  cases saved <;> first
    | contradiction
    | exact ⟨⟨trivial, below, trivial⟩, by simp [passesLeft, back, goto]⟩

theorem good_pop (vis : σ) (c : Byte) (outer : StackRec) (stack : List StackRec)
    (below : ∀ record ∈ parser.below, record.Outer) (here : parser.top.state = .finish)
    (split : parser.below = outer :: stack) :
    (Pass.redo { parser with top := outer, below := stack } vis).Good (parser.passesLeft c) c := by
  have two : parser.passesLeft c = 2 := by simp [passesLeft, here]
  rw [split] at below
  have rest : ∀ record ∈ stack, record.Outer := fun record member =>
    below record (List.mem_cons_of_mem _ member)
  rw [two]
  rcases below outer List.mem_cons_self with sep | value
  · exact ⟨⟨by simp [StackRec.Sane, sep], rest, by simp [InLiteral, sep]⟩, by simp [passesLeft, sep]⟩
  · subst value
    exact ⟨⟨trivial, rest, trivial⟩, by simp [passesLeft]⟩

theorem good_pass (vis : σ) (c : Byte) (sane : parser.Sane) :
    (pass visitor toDecimal parser vis c).Good (parser.passesLeft c) c := by
  have top := sane.top
  have below := sane.below
  unfold pass
  split <;> rename_i here
  · -- white space
    rw [StackRec.Sane, here] at top
    split
    · exact ⟨sane, by rw [here]; nofun⟩
    split
    · exact ⟨⟨top, below, trivial⟩, nofun⟩
    · exact good_back parser vis c below here top
  · have one : parser.passesLeft c = 1 := by simp [passesLeft, here]
    rw [one]
    exact good_passStart visitor parser vis c sane here
  · split <;> rename_i stack
    · exact ⟨sane, by simp [finished, here, stack]⟩
    · exact good_pop parser vis c _ _ below here stack
  · apply good_passLiteral visitor parser vis c _ _ _ _ _ sane (by rw [here]; nofun)
    intro pos bound
    simpa only [InLiteral, here] using bound
  · rw [StackRec.Sane, here] at top
    split
    · exact ⟨⟨top, below, trivial⟩, nofun⟩
    split
    · exact ⟨⟨top, below, trivial⟩, nofun⟩
    · trivial
  · rw [StackRec.Sane, here] at top
    split
    · exact ⟨⟨top, below, trivial⟩, nofun⟩
    · exact ⟨sane, by rw [here]; nofun⟩
  · rw [StackRec.Sane, here] at top
    split
    · exact ⟨⟨top, below, trivial⟩, nofun⟩
    · exact ⟨sane, by rw [here]; nofun⟩
  · rw [StackRec.Sane, here] at top
    split
    · exact ⟨⟨top, below, trivial⟩, nofun⟩
    · exact ⟨⟨top, below, trivial⟩, by simp [passesLeft, goto, here]⟩
  · exact good_passChars visitor parser vis c _ _ _ _ sane here trivial trivial
  · exact good_passStringEscape parser vis c _ sane here
  · exact good_passEscapeUnicode parser vis c _ sane here
  · have literal := sane.literal
    rw [InLiteral, here] at literal
    apply good_passLiteral visitor parser vis c _ _ _ _ _ sane (by rw [here]; nofun)
    intro pos bound
    simpa only [InLiteral, here] using ⟨bound, literal.2⟩
  · exact good_passNumber visitor toDecimal parser vis c sane here
  · split
    · exact good_closing visitor parser vis _ _ c below
    · exact good_push _ vis _ c below (.inl rfl) (by simp [passesLeft, here])
  · split
    · exact good_closing visitor parser vis _ _ c below
    split
    · exact ⟨⟨trivial, below, trivial⟩, nofun⟩
    · trivial
  · split
    · exact good_closing visitor parser vis _ _ c below
    split
    · exact ⟨⟨trivial, below, trivial⟩, nofun⟩
    · trivial
  · exact good_passChars visitor parser vis c _ _ _ _ sane here trivial trivial
  · split
    · exact ⟨⟨trivial, below, trivial⟩, nofun⟩
    · trivial
  · exact good_push _ vis _ c below (.inr rfl) (by simp [passesLeft, here])
  · split
    · exact good_closing visitor parser vis _ _ c below
    split
    · exact ⟨⟨trivial, below, trivial⟩, nofun⟩
    · trivial

theorem passes_end (count : Nat) (parser : MojJsonParser) (vis : σ) (c : Byte) (sane : parser.Sane)
    (enough : parser.passesLeft c < count) :
    ∃ passed, passes visitor toDecimal count parser vis c = some passed ∧ passed.Good 0 c := by
  induction count generalizing parser vis with
  | zero => omega
  | succ count ih =>
    have good := good_pass visitor toDecimal parser vis c sane
    unfold passes
    split <;> rename_i step
    · rw [step] at good
      exact ih _ _ good.1 (lt_of_lt_of_le good.2 (Nat.le_of_lt_succ enough))
    · refine ⟨_, rfl, ?_⟩
      cases passed : pass visitor toDecimal parser vis c with
      | next => rwa [passed] at good
      | redo parser vis => exact absurd passed (step parser vis)
      | done => rwa [passed] at good
      | fail => trivial

theorem parseChunk_sane (vis : σ) (chars : ByteString) (sane : parser.Sane) :
    (parseChunk visitor toDecimal parser vis chars).2.2 ≠ .never ∧
      ((∃ rest, (parseChunk visitor toDecimal parser vis chars).2.2 = .ok rest) →
        (parseChunk visitor toDecimal parser vis chars).1.Sane) := by
  induction chars generalizing parser vis with
  | nil => exact ⟨by simp [parseChunk], fun _ => sane⟩
  | cons c chars ih =>
    obtain ⟨passed, ends, good⟩ := passes_end visitor toDecimal 5 (parser.countLine c) vis c
      (sane_countLine parser c sane) (Nat.lt_succ_of_le (passesLeft_le _ _))
    unfold parseChunk
    rw [ends]
    cases passed with
    | next parser vis => exact ih _ _ ⟨good.1.top, good.1.below, good.1.literal⟩
    | redo => exact absurd good.2 (Nat.not_lt_zero _)
    | done => exact ⟨by simp, fun _ => good.1⟩
    | fail => simp

theorem parseChunk_append (vis : σ) (chars later : ByteString) :
    parseChunk visitor toDecimal parser vis (chars ++ later) =
      match parseChunk visitor toDecimal parser vis chars with
      | (parser, vis, .ok []) => parseChunk visitor toDecimal parser vis later
      | (parser, vis, .ok rest) => (parser, vis, .ok (rest ++ later))
      | ended => ended := by
  induction chars generalizing parser vis with
  | nil => rfl
  | cons c chars ih =>
    simp only [List.cons_append, parseChunk]
    cases passes visitor toDecimal 5 (parser.countLine c) vis c with
    | none => rfl
    | some passed =>
      cases passed with
      | next parser vis => exact ih _ _
      | redo parser vis => exact ih _ _
      | done => rfl
      | fail => rfl

theorem finished_of_rest (vis : σ) (chars : ByteString) (sane : parser.Sane) (c : Byte)
    (rest : ByteString)
    (left : (parseChunk visitor toDecimal parser vis chars).2.2 = .ok (c :: rest)) :
    (parseChunk visitor toDecimal parser vis chars).1.finished := by
  induction chars generalizing parser vis with
  | nil => simp [parseChunk] at left
  | cons d chars ih =>
    obtain ⟨passed, ends, good⟩ := passes_end visitor toDecimal 5 (parser.countLine d) vis d
      (sane_countLine parser d sane) (Nat.lt_succ_of_le (passesLeft_le _ _))
    unfold parseChunk at left ⊢
    rw [ends] at left ⊢
    cases passed with
    | next parser vis => exact ih _ _ ⟨good.1.top, good.1.below, good.1.literal⟩ left
    | redo => exact absurd good.2 (Nat.not_lt_zero _)
    | done => exact good.2
    | fail => simp at left

theorem unfinished_of_all (vis : σ) (chars : ByteString) (sane : parser.Sane)
    (unfinished : parser.finished = false)
    (all : (parseChunk visitor toDecimal parser vis chars).2.2 = .ok []) :
    (parseChunk visitor toDecimal parser vis chars).1.finished = false := by
  induction chars generalizing parser vis with
  | nil => exact unfinished
  | cons c chars ih =>
    obtain ⟨passed, ends, good⟩ := passes_end visitor toDecimal 5 (parser.countLine c) vis c
      (sane_countLine parser c sane) (Nat.lt_succ_of_le (passesLeft_le _ _))
    unfold parseChunk at all ⊢
    rw [ends] at all ⊢
    cases passed with
    | next parser vis =>
      have elsewhere : MojJsonParser.finished { parser with col := parser.col + 1 } = false := by
        simp [MojJsonParser.finished, good.2]
      exact ih _ _ ⟨good.1.top, good.1.below, good.1.literal⟩ elsewhere all
    | redo => exact absurd good.2 (Nat.not_lt_zero _)
    | done => simp at all
    | fail => simp at all

theorem parseChunk_finished (vis : σ) (chars : ByteString) (finished : parser.finished) :
    (parseChunk visitor toDecimal parser vis chars).2 = (vis, .ok chars) ∧
      (parseChunk visitor toDecimal parser vis chars).1.finished := by
  cases chars with
  | nil => exact ⟨rfl, finished⟩
  | cons c chars =>
    have counted : (parser.countLine c).top.state = .finish ∧ (parser.countLine c).below = [] := by
      simp only [MojJsonParser.finished, Bool.and_eq_true, decide_eq_true_eq,
        List.isEmpty_iff] at finished
      unfold countLine
      split <;> exact finished
    have stops : passes visitor toDecimal 5 (parser.countLine c) vis c =
        some (.done (parser.countLine c) vis) := by
      simp only [passes, pass, counted]
    simp only [parseChunk, stops, MojJsonParser.finished, counted]
    trivial

/-- A text that comes in chunks, up to the first error, and then the end. -/
def feed (parser : MojJsonParser) (vis : σ) : List ByteString → MojJsonParser × σ × Ended
  | [] => parseEnd visitor toDecimal parser vis
  | chunk :: chunks =>
    match parseChunk visitor toDecimal parser vis chunk with
    | (parser, vis, .ok _) => feed parser vis chunks
    | ended => ended

def recorded : JsonVisitor (List JsonCall × σ) := fun (calls, vis) call =>
  let (vis, err) := visitor vis call
  ((calls ++ [call], vis), err)

/-- Two parses that nobody can tell apart but for the position the parser has counted up to. -/
def Alike (one other : MojJsonParser × σ × Ended) : Prop :=
  one.2 = other.2 ∧ one.1.finished = other.1.finished

theorem feed_finished (vis : σ) (chunks : List ByteString) (finished : parser.finished) :
    Alike (feed visitor toDecimal parser vis chunks) (parser, vis, .ok [0]) := by
  induction chunks generalizing parser with
  | nil =>
    have stopped := parseChunk_finished visitor toDecimal parser vis [0] finished
    exact ⟨stopped.1, stopped.2.trans finished.symm⟩
  | cons chunk chunks ih =>
    have stopped := parseChunk_finished visitor toDecimal parser vis chunk finished
    unfold feed
    rcases parsed : parseChunk visitor toDecimal parser vis chunk with ⟨later, vis', ended⟩
    rw [parsed] at stopped
    rcases stopped with ⟨same, finished'⟩
    cases same
    have alike := ih later finished'
    exact ⟨alike.1, alike.2.trans (finished'.trans finished.symm)⟩

theorem feed_flatten (vis : σ) (chunks : List ByteString) (sane : parser.Sane) :
    Alike (feed visitor toDecimal parser vis chunks)
      (feed visitor toDecimal parser vis [chunks.flatten]) := by
  induction chunks generalizing parser vis with
  | nil => exact ⟨rfl, rfl⟩
  | cons chunk chunks ih =>
    have kept := (parseChunk_sane visitor toDecimal parser vis chunk sane).2
    have stopped := finished_of_rest visitor toDecimal parser vis chunk sane
    have whole := parseChunk_append visitor toDecimal parser vis chunk chunks.flatten
    rcases parsed : parseChunk visitor toDecimal parser vis chunk with ⟨later, vis', ended⟩
    rw [parsed] at kept stopped whole
    simp only [feed, List.flatten_cons, parsed, whole]
    cases ended with
    | never => exact ⟨rfl, rfl⟩
    | error => exact ⟨rfl, rfl⟩
    | ok rest =>
      cases rest with
      | nil => exact ih later vis' (kept ⟨_, rfl⟩)
      | cons c rest =>
        have finished := stopped c rest rfl
        have split := feed_finished visitor toDecimal later vis' chunks finished
        have joined := feed_finished visitor toDecimal later vis' [] finished
        exact ⟨split.1.trans joined.1.symm, split.2.trans joined.2.symm⟩

theorem feed_ends (vis : σ) (chunks : List ByteString)
    (sane : parser.Sane) : (feed visitor toDecimal parser vis chunks).2.2 ≠ .never := by
  induction chunks generalizing parser vis with
  | nil => exact (parseChunk_sane visitor toDecimal parser vis [0] sane).1
  | cons chunk chunks ih =>
    have kept := parseChunk_sane visitor toDecimal parser vis chunk sane
    unfold feed
    rcases parsed : parseChunk visitor toDecimal parser vis chunk with ⟨later, vis', ended⟩
    rw [parsed] at kept
    cases ended with
    | never => exact absurd rfl kept.1
    | error => simp
    | ok rest => exact ih later vis' (kept.2 ⟨_, rfl⟩)

end Visitor

abbrev RunningParser := {parser : MojJsonParser // parser.Sane}

/-- A parser after its first `begin`. -/
def begun : RunningParser := ⟨create.restart, trivial, by simp [create, restart], trivial⟩

/-- The calls, what they make of the visitor, the error or success and `finished` are those of the
text in one piece. -/
theorem feed_chunks {σ : Type} (visitor : JsonVisitor σ)
    (toDecimal : ByteString → Except MojErr MojInt64) (parser : RunningParser) (vis : σ)
    (chunks : List ByteString) :
    let split := feed (recorded visitor) toDecimal parser.val ([], vis) chunks
    let whole := feed (recorded visitor) toDecimal parser.val ([], vis) [chunks.flatten]
    split.2.1 = whole.2.1 ∧ split.2.2 = whole.2.2 ∧ split.1.finished = whole.1.finished ∧
      whole.2.2 ≠ .never := by
  have alike := feed_flatten (recorded visitor) toDecimal parser.val ([], vis) chunks parser.property
  refine ⟨congrArg Prod.fst alike.1, congrArg Prod.snd alike.1, alike.2, ?_⟩
  exact feed_ends (recorded visitor) toDecimal parser.val _ _ parser.property

/-- An escape, a number and a literal, cut in the middle. -/
example :
    (feed (recorded fun _ _ => ((), none)) (fun _ => .error .typeMismatch) begun.val ([], ())
      [literal "[\"\\u00", literal "e9\", -1", literal "2, nu", literal "ll]"]).2.1.1 =
      [.beginArray, .stringValue [0xc3, 0xa9], .intValue (-12), .nullValue, .endArray] := by
  decide

end MojJsonParser

end Db8.Core
