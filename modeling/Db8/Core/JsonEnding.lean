import Db8.Core.JsonRestart

/-!
# The end of a text

`end` gives the parser a NUL. Most states refuse it or finish with it, but not all: in a string, a
name or a comment it is one more character, and where a value is waited for it is passed over.
A text that ends there ends without a word.
-/

set_option autoImplicit false

namespace Db8.Core

open Db8.Bytes

namespace MojJsonParser

/-- Nothing of a value is begun: only white space came, or a comment to the end of the line. -/
def blank (parser : MojJsonParser) : Bool :=
  parser.below.isEmpty &&
    match parser.top.state with
    | .start => true
    | .eatWhitespace | .commentEol => parser.top.savedState = .start
    | _ => false

/-- A value is complete and a comment to the end of the line is open behind it. -/
def commented (parser : MojJsonParser) : Bool :=
  parser.below.isEmpty && parser.top = ⟨.commentEol, .finish⟩

/-- The places in a text at which its end goes unnoticed: in a string or a name, in a comment, and
where a value is waited for. -/
def silent (parser : MojJsonParser) : Bool :=
  match parser.top.state with
  | .string | .objField | .comment | .commentEnd => true
  | .commentEol => !parser.blank
  | .eatWhitespace => waiting parser.top.savedState
  | state => waiting state
where
  waiting : State → Bool
    | .start => !parser.below.isEmpty
    | .array | .objValue => parser.below.length < maxDepth - 1
    | _ => false

theorem not_commented_of_blank (parser : MojJsonParser) (empty : parser.blank = true) :
    parser.commented = false := by
  rcases parser with ⟨_, _, _, _, _, _, _, ⟨state, saved⟩, _⟩
  cases state <;> cases saved <;> simp [blank, commented] at empty ⊢

theorem not_blank_of_silent (parser : MojJsonParser) (ends : parser.silent = true) :
    parser.blank = false := by
  rcases parser with ⟨_, _, _, _, _, _, _, ⟨state, saved⟩, _⟩
  cases state <;> cases saved <;> simp_all [blank, silent, silent.waiting]

section Visitor

variable {σ : Type} (visitor : JsonVisitor σ) (toDecimal : ByteString → Except MojErr MojInt64)

theorem parseEnd_next (parser next : MojJsonParser) (vis vis' : σ)
    (passed : passes visitor toDecimal 5 parser vis 0 = some (.next next vis')) :
    parseEnd visitor toDecimal parser vis = ({ next with col := next.col + 1 }, vis', .ok []) := by
  have uncounted : parser.countLine 0 = parser := rfl
  rw [parseEnd, parseChunk, uncounted, passed]
  rfl

theorem quiet_of_next (parser next : MojJsonParser) (vis : σ)
    (passed : passes visitor toDecimal 5 parser vis 0 = some (.next next vis))
    (elsewhere : next.top.state ≠ .finish) :
    (parseEnd visitor toDecimal parser vis).2 = (vis, .ok []) ∧
      (parseEnd visitor toDecimal parser vis).1.finished = false := by
  rw [parseEnd_next visitor toDecimal parser next vis vis passed]
  exact ⟨rfl, by simp [finished, elsewhere]⟩

theorem quiet_of_push (parser outer : MojJsonParser) (vis : σ) (count : Nat)
    (reached : passes visitor toDecimal 5 parser vis 0 =
      match (push outer vis : Pass σ) with
      | .redo parser vis => passes visitor toDecimal (count + 2) parser vis 0
      | ended => some ended)
    (room : outer.below.length < maxDepth - 1) :
    (parseEnd visitor toDecimal parser vis).2 = (vis, .ok []) ∧
      (parseEnd visitor toDecimal parser vis).1.finished = false := by
  rw [push, if_neg (Nat.not_le_of_gt room)] at reached
  exact quiet_of_next visitor toDecimal _ _ vis reached nofun

variable (parser : MojJsonParser)

/-- The NUL is used up and the parser stands elsewhere than behind a value. -/
theorem end_silent (vis : σ) (quiet : parser.silent = true ∨ parser.blank = true) :
    (parseEnd visitor toDecimal parser vis).2 = (vis, .ok []) ∧
      (parseEnd visitor toDecimal parser vis).1.finished = false := by
  rcases parser with ⟨line, col, strPos, ucsChar, matchStr, isDecimal, str, ⟨state, saved⟩, below⟩
  cases state
  case eatWhitespace =>
    cases saved
    case start => exact quiet_of_next visitor toDecimal _ _ vis rfl nofun
    case array =>
      have room : below.length < maxDepth - 1 := by
        simpa [silent, silent.waiting, blank] using quiet
      exact quiet_of_push visitor toDecimal _ _ vis 1 rfl room
    case objValue =>
      have room : below.length < maxDepth - 1 := by
        simpa [silent, silent.waiting, blank] using quiet
      exact quiet_of_push visitor toDecimal _ _ vis 1 rfl room
    all_goals simp [silent, silent.waiting, blank] at quiet
  case array =>
    have room : below.length < maxDepth - 1 := by
      simpa [silent, silent.waiting, blank] using quiet
    exact quiet_of_push visitor toDecimal _ _ vis 2 rfl room
  case objValue =>
    have room : below.length < maxDepth - 1 := by
      simpa [silent, silent.waiting, blank] using quiet
    exact quiet_of_push visitor toDecimal _ _ vis 2 rfl room
  case start => exact quiet_of_next visitor toDecimal _ _ vis rfl nofun
  case comment => exact quiet_of_next visitor toDecimal _ _ vis rfl nofun
  case commentEol => exact quiet_of_next visitor toDecimal _ _ vis rfl nofun
  case commentEnd => exact quiet_of_next visitor toDecimal _ _ vis rfl nofun
  case string => exact quiet_of_next visitor toDecimal _ _ vis rfl nofun
  case objField => exact quiet_of_next visitor toDecimal _ _ vis rfl nofun
  all_goals simp [silent, silent.waiting, blank] at quiet

theorem spoken_of_fail (parser failed : MojJsonParser) (vis vis' : σ) (err : MojErr)
    (passed : passes visitor toDecimal 5 parser vis 0 = some (.fail err failed vis')) :
    (∃ err, (parseEnd visitor toDecimal parser vis).2.2 = .error err) ∨
      (parseEnd visitor toDecimal parser vis).1.finished = true := by
  have uncounted : parser.countLine 0 = parser := rfl
  rw [parseEnd, parseChunk, uncounted, passed]
  exact .inl ⟨err, rfl⟩

theorem spoken_of_done (parser done : MojJsonParser) (vis vis' : σ)
    (passed : passes visitor toDecimal 5 parser vis 0 = some (.done done vis'))
    (behind : done.finished = true) :
    (∃ err, (parseEnd visitor toDecimal parser vis).2.2 = .error err) ∨
      (parseEnd visitor toDecimal parser vis).1.finished = true := by
  have uncounted : parser.countLine 0 = parser := rfl
  rw [parseEnd, parseChunk, uncounted, passed]
  exact .inr behind

theorem behind_value (count : Nat) (parser : MojJsonParser) (vis : σ)
    (behind : parser.top.state = .finish) (below : ∀ record ∈ parser.below, record.Outer) :
    (∃ err failed vis',
        passes visitor toDecimal (count + 3) parser vis 0 = some (.fail err failed vis')) ∨
      (passes visitor toDecimal (count + 3) parser vis 0 = some (.done parser vis) ∧
        parser.finished = true) := by
  rcases parser with ⟨line, col, strPos, ucsChar, matchStr, isDecimal, str, ⟨state, saved⟩, stack⟩
  dsimp only at behind below
  subst behind
  cases stack with
  | nil => exact .inr ⟨rfl, rfl⟩
  | cons outer stack =>
    rcases outer with ⟨outer, outerSaved⟩
    rcases below _ List.mem_cons_self with sep | value
    · dsimp only at sep
      subst sep
      exact .inl ⟨_, _, _, rfl⟩
    · cases value
      exact .inl ⟨_, _, _, rfl⟩

theorem spoken_of_finish (parser behind : MojJsonParser) (vis vis' : σ) (count : Nat)
    (reached : passes visitor toDecimal 5 parser vis 0 =
      passes visitor toDecimal (count + 3) behind vis' 0)
    (finish : behind.top.state = .finish) (below : ∀ record ∈ behind.below, record.Outer) :
    (∃ err, (parseEnd visitor toDecimal parser vis).2.2 = .error err) ∨
      (parseEnd visitor toDecimal parser vis).1.finished = true := by
  rcases behind_value visitor toDecimal count behind vis' finish below with
    ⟨err, failed, vis', fails⟩ | done
  · exact spoken_of_fail visitor toDecimal parser failed vis vis' err (reached.trans fails)
  · exact spoken_of_done visitor toDecimal parser behind vis vis' (reached.trans done.1) done.2

theorem spoken_of_push (parser outer : MojJsonParser) (vis : σ) (count : Nat)
    (reached : passes visitor toDecimal 5 parser vis 0 =
      match (push outer vis : Pass σ) with
      | .redo parser vis => passes visitor toDecimal count parser vis 0
      | ended => some ended)
    (full : ¬outer.below.length < maxDepth - 1) :
    (∃ err, (parseEnd visitor toDecimal parser vis).2.2 = .error err) ∨
      (parseEnd visitor toDecimal parser vis).1.finished = true := by
  rw [push, if_pos (Nat.not_lt.mp full)] at reached
  exact spoken_of_fail visitor toDecimal parser outer vis vis _ reached

theorem spoken_of_literal (vis : σ) (text : ByteString) (code : JsonErrCode) (msg : String)
    (call : JsonCall) (bound : parser.strPos < text.length) (nonzero : 0 ∉ text)
    (step : pass visitor toDecimal parser vis 0 =
      passLiteral visitor parser vis 0 text code msg call) :
    (∃ err, (parseEnd visitor toDecimal parser vis).2.2 = .error err) ∨
      (parseEnd visitor toDecimal parser vis).1.finished = true := by
  have differs : text[parser.strPos]?.getD 0 ≠ 0 := by
    rw [List.getElem?_eq_getElem bound, Option.getD_some]
    intro zero
    exact nonzero (zero ▸ List.getElem_mem bound)
  apply spoken_of_fail visitor toDecimal parser parser vis vis (parser.fault code msg)
  rw [passes, step, passLiteral, if_pos differs]

theorem spoken_of_number (vis : σ) (here : parser.top.state = .number)
    (below : ∀ record ∈ parser.below, record.Outer) :
    (∃ err, (parseEnd visitor toDecimal parser vis).2.2 = .error err) ∨
      (parseEnd visitor toDecimal parser vis).1.finished = true := by
  have first : passes visitor toDecimal 5 parser vis 0 =
      match passNumber visitor toDecimal parser vis 0 with
      | .redo parser vis => passes visitor toDecimal 4 parser vis 0
      | ended => some ended := by
    have step : pass visitor toDecimal parser vis 0 = passNumber visitor toDecimal parser vis 0 := by
      simp only [pass, here]
    rw [← step]
    rfl
  have ended (vis' : σ) (step : passNumber visitor toDecimal parser vis 0 =
      .redo (parser.eatThen .finish) vis') :
      (∃ err, (parseEnd visitor toDecimal parser vis).2.2 = .error err) ∨
        (parseEnd visitor toDecimal parser vis).1.finished = true := by
    rw [step] at first
    exact spoken_of_finish visitor toDecimal parser _ vis vis' 0 first rfl below
  have failed (err : MojErr) (vis' : σ) (step : passNumber visitor toDecimal parser vis 0 =
      .fail err parser vis') :
      (∃ err, (parseEnd visitor toDecimal parser vis).2.2 = .error err) ∨
        (parseEnd visitor toDecimal parser vis).1.finished = true := by
    rw [step] at first
    exact spoken_of_fail visitor toDecimal parser _ vis vis' err first
  have letter : ¬((0 : Byte) = ch '.' ∨ (0 : Byte) = ch 'e' ∨ (0 : Byte) = ch 'E') := by decide
  have digit : ¬(isDigitByte 0 ∨ (0 : Byte) = ch '+' ∨ (0 : Byte) = ch '-') := by decide
  by_cases decimal : parser.isDecimal = true
  · cases val : toDecimal parser.str with
    | error err =>
      apply failed err vis
      simp only [passNumber, letter, digit, decimal, val, if_true, if_false]
    | ok rep =>
      rcases called : visitor vis (.decimalValue rep) with ⟨vis', _ | err⟩
      · apply ended vis'
        simp only [passNumber, letter, digit, decimal, val, calling, called, if_true, if_false]
      · apply failed err vis'
        simp only [passNumber, letter, digit, decimal, val, calling, called, if_true, if_false]
  · rcases called : visitor vis (.intValue (strToInt64 (cString parser.str))) with ⟨vis', _ | err⟩
    · by_cases ends : intEnds (cString parser.str) = true
      · apply ended vis'
        simp [passNumber, letter, digit, decimal, calling, called, ends]
      · apply failed _ vis'
        simp [passNumber, letter, digit, decimal, calling, called, ends]
        rfl
    · apply failed err vis'
      simp [passNumber, letter, digit, decimal, calling, called]

theorem end_spoken (vis : σ) (sane : parser.Sane) (loud : parser.silent = false)
    (begun : parser.blank = false) :
    (∃ err, (parseEnd visitor toDecimal parser vis).2.2 = .error err) ∨
      (parseEnd visitor toDecimal parser vis).1.finished = true := by
  have top := sane.top
  have below := sane.below
  have literal := sane.literal
  rcases parser with ⟨line, col, strPos, ucsChar, matchStr, isDecimal, str, ⟨state, saved⟩, stack⟩
  cases state
  case finish => exact spoken_of_finish visitor toDecimal _ _ vis vis 2 rfl rfl below
  case number => exact spoken_of_number visitor toDecimal _ vis rfl below
  case null => exact spoken_of_literal visitor toDecimal _ vis _ _ _ _ literal (by decide) rfl
  case bool => exact spoken_of_literal visitor toDecimal _ vis _ _ _ _ literal.1 literal.2 rfl
  case eatWhitespace =>
    cases saved
    case start => cases stack <;> simp [silent, silent.waiting, blank] at loud begun
    case finish =>
      exact spoken_of_finish visitor toDecimal _ (back _) vis vis 1 rfl rfl below
    case array =>
      have full : ¬stack.length < maxDepth - 1 := by
        simpa [silent, silent.waiting, blank] using loud
      exact spoken_of_push visitor toDecimal _ _ vis _ rfl full
    case objValue =>
      have full : ¬stack.length < maxDepth - 1 := by
        simpa [silent, silent.waiting, blank] using loud
      exact spoken_of_push visitor toDecimal _ _ vis _ rfl full
    all_goals first
      | exact top.elim
      | exact spoken_of_fail visitor toDecimal _ _ vis _ _ rfl
  case start => cases stack <;> simp [silent, silent.waiting, blank] at loud begun
  case array =>
    have full : ¬stack.length < maxDepth - 1 := by
      simpa [silent, silent.waiting, blank] using loud
    exact spoken_of_push visitor toDecimal _ _ vis _ rfl full
  case objValue =>
    have full : ¬stack.length < maxDepth - 1 := by
      simpa [silent, silent.waiting, blank] using loud
    exact spoken_of_push visitor toDecimal _ _ vis _ rfl full
  case commentEol => simp [silent, begun] at loud
  all_goals first
    | simp [silent] at loud; done
    | exact spoken_of_fail visitor toDecimal _ _ vis _ _ rfl

def Opening (parser : MojJsonParser) (c : Byte) : Prop :=
  match parser.top.state with
  | .eatWhitespace => parser.top.savedState = .start
  | .start | .null | .bool => True
  | .number => isDigitByte c = true ∨ c = ch '-'
  | _ => False

theorem opening_calling (vis : σ) (c : Byte) (call : JsonCall) :
    match closing visitor parser vis call with
    | .redo parser _ => parser.Opening c
    | .done _ _ => False
    | _ => True := by
  unfold closing calling
  rcases visitor vis call with ⟨vis, _ | err⟩ <;> trivial

theorem opening_pass (vis : σ) (c : Byte) (opening : parser.Opening c) :
    match pass visitor toDecimal parser vis c with
    | .redo parser _ => parser.Opening c
    | .done _ _ => False
    | _ => True := by
  rcases parser with ⟨line, col, strPos, ucsChar, matchStr, isDecimal, str, ⟨state, saved⟩, below⟩
  cases state <;> first | exact opening.elim | skip
  case eatWhitespace =>
    have start : saved = .start := opening
    subst start
    simp only [pass]
    split_ifs <;> trivial
  case start =>
    simp only [pass, passStart, calling]
    by_cases number : isDigitByte c = true ∨ c = ch '-'
    · split_ifs <;> first
        | trivial
        | exact number
        | (rcases visitor vis _ with ⟨vis, _ | err⟩ <;> trivial)
    · split_ifs <;> first
        | trivial
        | contradiction
        | (rcases visitor vis _ with ⟨vis, _ | err⟩ <;> trivial)
  case null =>
    simp only [pass, passLiteral]
    split_ifs
    · trivial
    · exact opening_calling visitor _ vis c _
    · trivial
  case bool =>
    simp only [pass, passLiteral]
    split_ifs
    · trivial
    · exact opening_calling visitor _ vis c _
    · trivial
  case number =>
    simp only [pass, passNumber]
    rcases opening with digit | minus
    · simp [digit]
      split_ifs <;> trivial
    · simp [minus]
      split_ifs <;> trivial

theorem opening_passes (count : Nat) (parser : MojJsonParser) (vis : σ) (c : Byte)
    (opening : parser.Opening c) (done : MojJsonParser) (vis' : σ) :
    passes visitor toDecimal count parser vis c ≠ some (.done done vis') := by
  induction count generalizing parser vis with
  | zero => nofun
  | succ count ih =>
    have step := opening_pass visitor toDecimal parser vis c opening
    unfold passes
    cases passed : pass visitor toDecimal parser vis c with
    | next => simp
    | redo parser vis =>
      rw [passed] at step
      exact ih parser vis step
    | done => rw [passed] at step; exact step.elim
    | fail => simp

theorem rest_length_le (vis : σ) (chars rest : ByteString)
    (parsed : (parseChunk visitor toDecimal parser vis chars).2.2 = .ok rest) :
    rest.length ≤ chars.length := by
  induction chars generalizing parser vis with
  | nil =>
    simp only [parseChunk, Ended.ok.injEq] at parsed
    simp [← parsed]
  | cons c chars ih =>
    unfold parseChunk at parsed
    split at parsed
    · simp at parsed
    · simp at parsed
    · simp only [Ended.ok.injEq] at parsed
      simp [← parsed]
    · exact Nat.le_succ_of_le (ih _ _ parsed)
    · exact Nat.le_succ_of_le (ih _ _ parsed)

theorem rest_length_lt (vis : σ) (chars rest : ByteString) (start : parser.top = freshRec)
    (some : chars ≠ []) (parsed : (parseChunk visitor toDecimal parser vis chars).2.2 = .ok rest) :
    rest.length < chars.length := by
  cases chars with
  | nil => exact absurd rfl some
  | cons c chars =>
    have opening : (parser.countLine c).Opening c := by
      unfold countLine
      split <;> simp [Opening, start, freshRec]
    have reads := opening_passes visitor toDecimal 5 (parser.countLine c) vis c opening
    unfold parseChunk at parsed
    split at parsed <;> rename_i passed
    · simp at parsed
    · simp at parsed
    · exact absurd passed (reads _ _)
    · exact Nat.lt_succ_of_le (rest_length_le visitor toDecimal _ _ chars rest parsed)
    · exact Nat.lt_succ_of_le (rest_length_le visitor toDecimal _ _ chars rest parsed)

end Visitor

end MojJsonParser

end Db8.Core
