import Db8.Core.JsonEnding

/-!
# Texts that end in a NUL

`parse` without a length gives `parseChunk` no end: the loop goes on to the next character of the
memory until the parser is done or refuses one. The NUL behind the text stops it where it is refused
or comes behind a value. Where it is taken for one more character, the parser reads on beyond it.
-/

set_option autoImplicit false

namespace Db8.Core.MojJsonParser

open Db8.Bytes

def Ended.before (memory : ByteString) : Ended → Ended
  | .ok rest => .ok (rest ++ memory)
  | .error err => .error err
  | .never => .never

section Visitor

variable {σ : Type} (visitor : JsonVisitor σ) (toDecimal : ByteString → Except MojErr MojInt64)

/-- `parseChunk` with `MojSizeMax` characters, over the memory they stand in: how many of them it looks
at and how it ends, or none if it comes to the end of the memory and looks beyond. -/
def parseMemory (parser : MojJsonParser) (vis : σ) :
    ByteString → Nat × Option (MojJsonParser × σ × Ended)
  | [] => (1, none)
  | c :: memory =>
    match passes visitor toDecimal 5 (parser.countLine c) vis c with
    | none => (1, some (parser, vis, .never))
    | some (.fail err parser vis) => (1, some (parser, vis, .error err))
    | some (.done parser vis) => (1, some (parser, vis, .ok (c :: memory)))
    | some (.next parser vis) | some (.redo parser vis) =>
      let read := parseMemory { parser with col := parser.col + 1 } vis memory
      (read.1 + 1, read.2)

/-- The rest of `parse` behind `parseChunk`: what the visitor has become, and the result. -/
def closeParse : MojJsonParser × σ × Ended → σ × Option (Option MojErr)
  | (_, vis, .never) => (vis, none)
  | (_, vis, .error err) => (vis, some (some err))
  | (parser, vis, .ok _) =>
    match parseEnd visitor toDecimal parser vis with
    | (_, vis, .never) => (vis, none)
    | (_, vis, .error err) => (vis, some (some err))
    | (parser, vis, .ok _) =>
      (vis, some (if parser.finished then none else some (.jsonParse .eof "" 0 0)))

/-- `parse` of as many characters as there are. -/
def parseSized (vis : σ) (chars : ByteString) : σ × Option (Option MojErr) :=
  closeParse visitor toDecimal (parseChunk visitor toDecimal create.restart vis chars)

/-- `parse` without a length: how many characters it looks at, and the outcome. -/
def parseUnsized (vis : σ) (memory : ByteString) : Nat × Option (σ × Option (Option MojErr)) :=
  let read := parseMemory visitor toDecimal create.restart vis memory
  (read.1, read.2.map (closeParse visitor toDecimal))

/-- Whatever lies behind the NUL, it is not looked at, and the outcome is that of the sized text. -/
def StaysInside (vis : σ) (text : MojString) : Prop :=
  ∀ beyond, (parseUnsized visitor toDecimal vis (MojObjectWriter.charBytes text ++ 0 :: beyond)).1 ≤
      text.length + 1 ∧
    (parseUnsized visitor toDecimal vis (MojObjectWriter.charBytes text ++ 0 :: beyond)).2 =
      some (parseSized visitor toDecimal vis (MojObjectWriter.charBytes text))

theorem parseMemory_pos (parser : MojJsonParser) (vis : σ) (memory : ByteString) :
    1 ≤ (parseMemory visitor toDecimal parser vis memory).1 := by
  cases memory with
  | nil => exact Nat.le_refl 1
  | cons c memory =>
    unfold parseMemory
    split
    · exact Nat.le_refl 1
    · exact Nat.le_refl 1
    · exact Nat.le_refl 1
    · exact Nat.le_add_left 1 _
    · exact Nat.le_add_left 1 _

variable {vis vis' : σ}

theorem parseMemory_through {parser later : MojJsonParser} {chars : ByteString}
    (parsed : parseChunk visitor toDecimal parser vis chars = (later, vis', .ok []))
    (memory : ByteString) :
    parseMemory visitor toDecimal parser vis (chars ++ memory) =
      (chars.length + (parseMemory visitor toDecimal later vis' memory).1,
        (parseMemory visitor toDecimal later vis' memory).2) := by
  induction chars generalizing parser vis with
  | nil =>
    cases parsed
    rw [List.nil_append, List.length_nil, Nat.zero_add]
  | cons c chars ih =>
    unfold parseChunk at parsed
    rw [List.cons_append, parseMemory]
    cases passed : passes visitor toDecimal 5 (parser.countLine c) vis c with
    | none =>
      rw [passed] at parsed
      cases parsed
    | some ended =>
      rw [passed] at parsed
      cases ended with
      | next next middle =>
        simp only [ih parsed, List.length_cons]
        rw [Nat.add_right_comm]
      | redo next middle =>
        simp only [ih parsed, List.length_cons]
        rw [Nat.add_right_comm]
      | done next middle => cases parsed
      | fail err next middle => cases parsed

theorem parseMemory_stops {parser later : MojJsonParser} {chars : ByteString} {ended : Ended}
    (parsed : parseChunk visitor toDecimal parser vis chars = (later, vis', ended))
    (stopped : ended ≠ .ok []) (memory : ByteString) :
    (parseMemory visitor toDecimal parser vis (chars ++ memory)).1 ≤ chars.length ∧
      (parseMemory visitor toDecimal parser vis (chars ++ memory)).2 =
        some (later, vis', ended.before memory) := by
  induction chars generalizing parser vis with
  | nil =>
    cases parsed
    exact absurd rfl stopped
  | cons c chars ih =>
    unfold parseChunk at parsed
    rw [List.cons_append, parseMemory]
    cases passed : passes visitor toDecimal 5 (parser.countLine c) vis c with
    | none =>
      rw [passed] at parsed
      cases parsed
      exact ⟨Nat.le_add_left 1 _, rfl⟩
    | some pass =>
      rw [passed] at parsed
      cases pass with
      | next next middle =>
        rcases ih parsed with ⟨count, result⟩
        exact ⟨Nat.succ_le_succ count, result⟩
      | redo next middle =>
        rcases ih parsed with ⟨count, result⟩
        exact ⟨Nat.succ_le_succ count, result⟩
      | done next middle =>
        cases parsed
        exact ⟨Nat.le_add_left 1 _, rfl⟩
      | fail err next middle =>
        cases parsed
        exact ⟨Nat.le_add_left 1 _, rfl⟩

theorem closeParse_before (parser : MojJsonParser) (vis : σ) (ended : Ended) (memory : ByteString) :
    closeParse visitor toDecimal (parser, vis, ended.before memory) =
      closeParse visitor toDecimal (parser, vis, ended) := by
  cases ended with
  | ok rest => rfl
  | error err => rfl
  | never => rfl

theorem inside_of_stopped {text : MojString} {later : MojJsonParser} {ended : Ended}
    (parsed : parseChunk visitor toDecimal create.restart vis (MojObjectWriter.charBytes text) =
      (later, vis', ended)) (stopped : ended ≠ .ok []) :
    StaysInside visitor toDecimal vis text := by
  intro beyond
  rcases parseMemory_stops visitor toDecimal parsed stopped (0 :: beyond) with ⟨count, result⟩
  have length : (MojObjectWriter.charBytes text).length = text.length := List.length_map _
  unfold parseUnsized parseSized
  refine ⟨?_, ?_⟩
  · show (parseMemory visitor toDecimal create.restart vis _).1 ≤ text.length + 1
    omega
  · simp only [result, Option.map_some, parsed, closeParse_before]

theorem outside_of_silent {text : MojString} {later : MojJsonParser}
    (parsed : parseChunk visitor toDecimal create.restart vis (MojObjectWriter.charBytes text) =
      (later, vis', .ok [])) (quiet : later.silent = true ∨ later.blank = true) :
    ¬ StaysInside visitor toDecimal vis text := by
  intro inside
  have within := (inside []).1
  have nul : ∃ next, parseChunk visitor toDecimal later vis' [0] = (next, vis', .ok []) := by
    have used := (end_silent visitor toDecimal later vis' quiet).1
    exact ⟨_, Prod.ext rfl used⟩
  rcases nul with ⟨next, read⟩
  have behind := parseMemory_through visitor toDecimal read []
  have whole := parseMemory_through visitor toDecimal parsed [0]
  have length : (MojObjectWriter.charBytes text).length = text.length := List.length_map _
  have more := parseMemory_pos visitor toDecimal next vis' []
  rw [List.append_nil] at behind
  have seen : (parseUnsized visitor toDecimal vis (MojObjectWriter.charBytes text ++ [0])).1 =
      text.length + (1 + (parseMemory visitor toDecimal next vis' []).1) := by
    unfold parseUnsized
    rw [whole, behind, length]
    rfl
  rw [seen] at within
  omega

theorem inside_of_spoken {text : MojString} {later : MojJsonParser}
    (parsed : parseChunk visitor toDecimal create.restart vis (MojObjectWriter.charBytes text) =
      (later, vis', .ok [])) (loud : later.silent = false) (begun : later.blank = false) :
    StaysInside visitor toDecimal vis text := by
  have sane : later.Sane := by
    have kept := (parseChunk_sane visitor toDecimal create.restart vis
      (MojObjectWriter.charBytes text) MojJsonParser.begun.property).2
    rw [parsed] at kept
    exact kept ⟨[], rfl⟩
  have ends := (parseChunk_sane visitor toDecimal later vis' [0] sane).1
  have spoken := end_spoken visitor toDecimal later vis' sane loud begun
  have sized : parseSized visitor toDecimal vis (MojObjectWriter.charBytes text) =
      closeParse visitor toDecimal (later, vis', .ok []) := by
    unfold parseSized
    rw [parsed]
  rcases nul : parseChunk visitor toDecimal later vis' [0] with ⟨next, vis'', ended⟩
  unfold parseEnd at spoken
  rw [nul] at ends spoken
  -- the NUL is not used up: behind a value the parser is finished
  have stopped : ended ≠ .ok [] := by
    intro usedUp
    rw [usedUp] at nul spoken
    have finished : next.finished = true := by
      rcases spoken with ⟨err, is⟩ | finished
      · cases is
      · exact finished
    by_cases already : later.finished = true
    · have rest := (parseChunk_finished visitor toDecimal later vis' [0] already).1
      rw [nul] at rest
      cases rest
    · have unfinished := unfinished_of_all visitor toDecimal later vis' [0] sane
        (Bool.eq_false_of_not_eq_true already) (by rw [nul])
      rw [nul, finished] at unfinished
      cases unfinished
  have closed : closeParse visitor toDecimal (next, vis'', ended) =
      closeParse visitor toDecimal (later, vis', .ok []) := by
    have here : closeParse visitor toDecimal (later, vis', .ok []) =
        match (next, vis'', ended) with
        | (_, vis, .never) => (vis, none)
        | (_, vis, .error err) => (vis, some (some err))
        | (parser, vis, .ok _) =>
          (vis, some (if parser.finished then none else some (.jsonParse .eof "" 0 0))) := by
      rw [← nul]
      rfl
    rw [here]
    cases ended with
    | never => exact absurd rfl ends
    | error err => rfl
    | ok rest =>
      have finished : next.finished = true := by
        rcases spoken with ⟨err, is⟩ | finished
        · cases is
        · exact finished
      rcases again : parseEnd visitor toDecimal next vis'' with ⟨last, visAfter, ended⟩
      have rests := parseChunk_finished visitor toDecimal next vis'' [0] finished
      unfold parseEnd at again
      rw [again] at rests
      rcases rests with ⟨same, lastFinished⟩
      cases same
      simp only [closeParse, parseEnd, again, lastFinished, finished, if_true]
  intro beyond
  rcases parseMemory_stops visitor toDecimal nul stopped beyond with ⟨count, result⟩
  have whole := parseMemory_through visitor toDecimal parsed (0 :: beyond)
  have length : (MojObjectWriter.charBytes text).length = text.length := List.length_map _
  have split : (0 :: beyond : ByteString) = [0] ++ beyond := rfl
  rw [sized, ← closed]
  unfold parseUnsized
  rw [whole, split]
  refine ⟨?_, ?_⟩
  · rw [length]
    exact Nat.add_le_add_left count _
  · simp only [result, Option.map_some, closeParse_before]

/-- The parser stays inside a text just if the text does not end in a string, a property name or a
comment, nor where a value is waited for. -/
theorem parse_terminated_iff (vis : σ) (text : MojString) :
    StaysInside visitor toDecimal vis text ↔
      ∀ later vis', parseChunk visitor toDecimal create.restart vis
          (MojObjectWriter.charBytes text) = (later, vis', .ok []) →
        later.silent = false ∧ later.blank = false := by
  constructor
  · intro inside later vis' parsed
    have loud : ¬ (later.silent = true ∨ later.blank = true) := by
      intro quiet
      exact outside_of_silent visitor toDecimal parsed quiet inside
    simpa [not_or] using loud
  · intro ends
    rcases parsed : parseChunk visitor toDecimal create.restart vis
      (MojObjectWriter.charBytes text) with ⟨later, vis', ended⟩
    by_cases usedUp : ended = .ok []
    · rw [usedUp] at parsed
      rcases ends later vis' parsed with ⟨loud, begun⟩
      exact inside_of_spoken visitor toDecimal parsed loud begun
    · exact inside_of_stopped visitor toDecimal parsed usedUp

end Visitor

def keepCalls : JsonVisitor (List JsonCall) := fun calls call => (calls ++ [call], none)

set_option maxRecDepth 20000 in
/-- A string that is not closed goes on beyond the NUL, here up to a quotation mark behind it: the parse
succeeds with a string that has the NUL in it, and the sized parse refuses the text. -/
theorem parse_unclosed_string :
    parseUnsized keepCalls (fun _ => .ok 0) [] (literal "\"a" ++ 0 :: literal "\"" ++ [0]) =
        (5, some ([.stringValue [97, 0]], some none)) ∧
      parseSized keepCalls (fun _ => .ok 0) [] (literal "\"a") =
        ([], some (some (.jsonParse .eof "" 0 0))) ∧
      ¬ ∀ text, StaysInside keepCalls (fun _ => .ok 0) [] text := by
  refine ⟨rfl, rfl, ?_⟩
  intro all
  have inside := (all (chars ['"', 'a']) (literal "\"" ++ [0])).1
  exact absurd inside (by decide)

end Db8.Core.MojJsonParser
