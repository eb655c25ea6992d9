import Db8.Core.JsonEnding

/-!
# Loading a file

`MojDb::load` reads a file in chunks, gives each document that the parser finishes to `loadImpl` and
begins the parser and the builder anew. What a file contains is read off its whole text with a fresh
parser for every document. The two agree, however the chunks fall, unless the text ends where the
parser passes over the NUL that `end` gives it: the check behind the loop asks for a last read that
was not empty, and the loop is left only after an empty one.
-/

set_option autoImplicit false

namespace Db8.Db

open Db8.Bytes Db8.Core Db8.Core.MojJsonParser

abbrev ReadChunk := {chunk : ByteString // chunk ≠ []}

def joined (chunks : List ReadChunk) : ByteString := (chunks.map Subtype.val).flatten

/-- What takes the documents, on a state of its own: `loadImpl`, the change of transaction after
each `m_loadStepSize` of them, and the end of the request. -/
structure LoadTarget (τ σ : Type) where
  loadImpl : τ → σ → τ × Option MojErr
  reopen : τ → τ × Option MojErr
  endReq : τ → τ × Option MojErr
  loadStepSize : Int

inductive LoadErr where
  | parse (err : MojErr)
  | store (err : MojErr)
  | jsonParseEof
  | never
deriving DecidableEq

structure LoadState (τ σ : Type) where
  parser : MojJsonParser
  vis : σ
  world : τ
  /-- The documents given to `loadImpl`. -/
  objs : List σ
  countOut : Nat
  total : Nat

section Load

variable {τ σ : Type} (visitor : JsonVisitor σ) (toDecimal : ByteString → Except MojErr MojInt64)
  (fresh : σ) (target : LoadTarget τ σ)

def LoadState.create (world : τ) : LoadState τ σ := ⟨MojJsonParser.create.restart, fresh, world, [], 0, 0⟩

namespace LoadState

/-- `loadImpl` on the object of the visitor. -/
def loadObject (state : LoadState τ σ) : LoadState τ σ × Option LoadErr :=
  match target.loadImpl state.world state.vis with
  | (world, some err) => ({ state with world := world, objs := state.objs ++ [state.vis] },
      some (.store err))
  | (world, none) => ({ state with
      world := world, objs := state.objs ++ [state.vis], countOut := state.countOut + 1 }, none)

def loadNext (state : LoadState τ σ) : LoadState τ σ × Option LoadErr :=
  match state.loadObject target with
  | (state, some err) => (state, some err)
  | (state, none) =>
    let state := { state with
      parser := state.parser.restart, vis := fresh, total := state.total + 1 }
    if 0 < target.loadStepSize ∧ (state.total : Int) % target.loadStepSize = 0 then
      let (world, err) := target.reopen state.world
      ({ state with world := world }, err.map .store)
    else (state, none)

/-- The loop over a chunk. A round uses up a character at least, the first one apart. -/
def loadChunk : Nat → LoadState τ σ → ByteString → LoadState τ σ × Option LoadErr
  | _, state, [] => (state, none)
  | 0, state, _ => (state, some .never)
  | rounds + 1, state, chars =>
    match parseChunk visitor toDecimal state.parser state.vis chars with
    | (parser, vis, .never) => ({ state with parser := parser, vis := vis }, some .never)
    | (parser, vis, .error err) => ({ state with parser := parser, vis := vis }, some (.parse err))
    | (parser, vis, .ok rest) =>
      let state := { state with parser := parser, vis := vis }
      if parser.finished then
        match state.loadNext fresh target with
        | (state, none) => loadChunk rounds state rest
        | failed => failed
      else loadChunk rounds state rest

def loadEnd (bytesRead : Nat) (state : LoadState τ σ) : LoadState τ σ × Option LoadErr :=
  let close (state : LoadState τ σ) : LoadState τ σ × Option LoadErr :=
    let (world, err) := target.endReq state.world
    ({ state with world := world }, err.map .store)
  match parseEnd visitor toDecimal state.parser state.vis with
  | (parser, vis, .never) => ({ state with parser := parser, vis := vis }, some .never)
  | (parser, vis, .error err) => ({ state with parser := parser, vis := vis }, some (.parse err))
  | (parser, vis, .ok _) =>
    let state := { state with parser := parser, vis := vis }
    if parser.finished then
      match state.loadObject target with
      | (state, none) => close state
      | failed => failed
    else if 0 < bytesRead then (state, some .jsonParseEof)
    else close state

/-- The chunks in turn, until a read finds nothing more. -/
def loadChunks : LoadState τ σ → List ReadChunk → LoadState τ σ × Option LoadErr
  | state, [] => state.loadEnd visitor toDecimal target 0
  | state, chunk :: chunks =>
    match state.loadChunk visitor toDecimal fresh target (chunk.val.length + 1) chunk.val with
    | (state, none) => loadChunks state chunks
    | failed => failed

end LoadState

def load (world : τ) (chunks : List ReadChunk) : LoadState τ σ × Option LoadErr :=
  (LoadState.create fresh world).loadChunks visitor toDecimal fresh target chunks

end Load

section Contents

variable {σ : Type} (visitor : JsonVisitor σ) (toDecimal : ByteString → Except MojErr MojInt64)
  (fresh : σ)

inductive Ending (σ : Type) where
  | left (parser : MojJsonParser) (vis : σ)
  | malformed (err : MojErr)
  | never

def readDocs : Nat → MojJsonParser → σ → ByteString → List σ × Ending σ
  | 0, _, _, _ => ([], .never)
  | count + 1, parser, vis, chars =>
    match parseChunk visitor toDecimal parser vis chars with
    | (_, _, .never) => ([], .never)
    | (_, _, .error err) => ([], .malformed err)
    | (parser, vis, .ok rest) =>
      if parser.finished then
        let later := readDocs count begun.val fresh rest
        (vis :: later.1, later.2)
      else ([], .left parser vis)

def documents (content : ByteString) : List σ × Ending σ :=
  readDocs visitor toDecimal fresh (content.length + 1) begun.val fresh content

/-- The documents of a file, and whether nothing is left behind the last one. A number may end with
the file, and so may a comment to the end of the line. -/
def contents (content : ByteString) : List σ × Bool :=
  match documents visitor toDecimal fresh content with
  | (docs, .left parser vis) =>
    match parseEnd visitor toDecimal parser vis with
    | (ended, last, .ok _) =>
      if ended.finished then (docs ++ [last], true)
      else if parser.commented then (docs ++ [vis], true)
      else (docs, parser.blank)
    | _ => (docs, false)
  | (docs, _) => (docs, false)

/-- The text ends in a string, a name or a comment, or where a value is waited for. -/
def endsSilently (content : ByteString) : Bool :=
  match documents visitor toDecimal fresh content with
  | (_, .left parser _) => parser.silent
  | _ => false

/-- How a load is judged by what the text contains: exactly the documents went to `loadImpl`, and
it succeeded if and only if the text is complete. Where `loadImpl` or a transaction refuses, the
load stops. -/
def Judged {τ : Type} (loaded : LoadState τ σ × Option LoadErr) (expected : List σ × Bool) : Prop :=
  match loaded.2 with
  | none => loaded.1.objs = expected.1 ∧ expected.2 = true
  | some (.store _) => loaded.1.objs <+: expected.1
  | some _ => loaded.1.objs = expected.1 ∧ expected.2 = false

end Contents

section Follow

variable {τ σ : Type} (visitor : JsonVisitor σ) (toDecimal : ByteString → Except MojErr MojInt64)
  (fresh : σ) (target : LoadTarget τ σ)

/-- A load in the middle of a document, beside a parser that reads the document alone. -/
structure Beside (state : LoadState τ σ) (parser : MojJsonParser) (vis : σ) : Prop where
  agree : state.parser.Agree parser
  sane : state.parser.Sane
  unfinished : state.parser.finished = false
  vis : state.vis = vis

/-- The rest of a load against the documents of the rest of the text: a refusal behind some of them,
an error of the parser behind all of them, or what follows the loop. -/
def Follows (objs : List σ) (loaded : LoadState τ σ × Option LoadErr)
    (read : List σ × Ending σ) : Prop :=
  (∃ err, loaded.2 = some (.store err) ∧ loaded.1.objs <+: objs ++ read.1) ∨
    match read.2 with
    | .left parser vis =>
      ∃ state : LoadState τ σ, Beside state parser vis ∧ state.objs = objs ++ read.1 ∧
        loaded = state.loadEnd visitor toDecimal target 0
    | .malformed err => loaded.2 = some (.parse err) ∧ loaded.1.objs = objs ++ read.1
    | .never => False

theorem Follows.cons (objs : List σ) (vis : σ) (loaded : LoadState τ σ × Option LoadErr)
    (read : List σ × Ending σ)
    (follows : Follows visitor toDecimal target (objs ++ [vis]) loaded read) :
    Follows visitor toDecimal target objs loaded (vis :: read.1, read.2) := by
  unfold Follows at follows ⊢
  simp only [List.append_assoc, List.cons_append, List.nil_append] at follows
  exact follows

/-- Rounds that are enough for a text: a parser in the middle of a document may finish it before it
uses up anything. -/
def Enough (rounds : Nat) (parser : MojJsonParser) (chars : ByteString) : Prop :=
  chars.length < rounds ∨ parser.top = freshRec ∧ chars.length ≤ rounds

variable (state : LoadState τ σ)

theorem loadNext_objs : (state.loadNext fresh target).1.objs = state.objs ++ [state.vis] := by
  unfold LoadState.loadNext LoadState.loadObject
  rcases target.loadImpl state.world state.vis with ⟨world, _ | err⟩
  · dsimp only
    split <;> rfl
  · rfl

theorem loadNext_cases :
    (∃ err, (state.loadNext fresh target).2 = some (.store err)) ∨
      (state.loadNext fresh target).2 = none ∧
        (state.loadNext fresh target).1.parser = state.parser.restart ∧
        (state.loadNext fresh target).1.vis = fresh := by
  unfold LoadState.loadNext LoadState.loadObject
  rcases target.loadImpl state.world state.vis with ⟨world, _ | err⟩
  · dsimp only
    split
    · cases reopened : (target.reopen world).2 with
      | none => exact .inr ⟨rfl, rfl, rfl⟩
      | some err => exact .inl ⟨err, rfl⟩
    · exact .inr ⟨rfl, rfl, rfl⟩
  · exact .inl ⟨err, rfl⟩

theorem finished_of_agree (one other : MojJsonParser) (agree : one.Agree other) :
    one.finished = other.finished := by
  simp only [MojJsonParser.finished, agree.top, agree.below]

theorem below_of_finished (parser : MojJsonParser) (finished : parser.finished = true) :
    parser.below = [] := by
  simp only [MojJsonParser.finished, Bool.and_eq_true, List.isEmpty_iff] at finished
  exact finished.2

theorem beside_next (state next : LoadState τ σ) (finished : state.parser.finished = true)
    (parser : next.parser = state.parser.restart) (vis : next.vis = fresh) :
    Beside next begun.val fresh := by
  have outside := below_of_finished state.parser finished
  refine ⟨?_, ?_, ?_, vis⟩ <;> rw [parser]
  · exact restart_agree state.parser outside
  · refine ⟨trivial, ?_, trivial⟩
    simp [restart, outside]
  · simp [MojJsonParser.finished, restart, freshRec]

theorem readDocs_all (count : Nat) (parser later : MojJsonParser) (vis vis' : σ)
    (chars more : ByteString)
    (parsed : parseChunk visitor toDecimal parser vis chars = (later, vis', .ok [])) :
    readDocs visitor toDecimal fresh (count + 1) parser vis (chars ++ more) =
      readDocs visitor toDecimal fresh (count + 1) later vis' more := by
  have whole := parseChunk_append visitor toDecimal parser vis chars more
  rw [parsed] at whole
  simp only [readDocs, whole]

theorem readDocs_document (count : Nat) (parser later : MojJsonParser) (vis vis' : σ)
    (chars more : ByteString) (c : Byte) (rest : ByteString)
    (parsed : parseChunk visitor toDecimal parser vis chars = (later, vis', .ok (c :: rest)))
    (finished : later.finished = true) :
    readDocs visitor toDecimal fresh (count + 1) parser vis (chars ++ more) =
      (vis' :: (readDocs visitor toDecimal fresh count begun.val fresh (c :: rest ++ more)).1,
        (readDocs visitor toDecimal fresh count begun.val fresh (c :: rest ++ more)).2) := by
  have whole := parseChunk_append visitor toDecimal parser vis chars more
  rw [parsed] at whole
  simp only [readDocs, whole, finished, if_true]

theorem enough_rest (rounds : Nat) (parser : MojJsonParser) (vis : σ) (chars rest : ByteString)
    (enough : Enough (rounds + 1) parser chars) (some : chars ≠ [])
    (parsed : (parseChunk visitor toDecimal parser vis chars).2.2 = .ok rest) :
    rest.length ≤ rounds := by
  rcases enough with more | ⟨start, just⟩
  · have shorter := rest_length_le visitor toDecimal parser vis chars rest parsed
    omega
  · have shorter := rest_length_lt visitor toDecimal parser vis chars rest start some parsed
    omega

theorem follow_chunk (chunks : List ReadChunk)
    (follows : ∀ (count : Nat) (state : LoadState τ σ) (parser : MojJsonParser) (vis : σ),
      Beside state parser vis → Enough count parser (joined chunks) →
      Follows visitor toDecimal target state.objs
        (state.loadChunks visitor toDecimal fresh target chunks)
        (readDocs visitor toDecimal fresh (count + 1) parser vis (joined chunks)))
    (rounds count : Nat) (chars : ByteString) (state : LoadState τ σ) (parser : MojJsonParser)
    (vis : σ) (beside : Beside state parser vis) (enough : Enough rounds state.parser chars)
    (enoughDocs : Enough count parser (chars ++ joined chunks)) :
    Follows visitor toDecimal target state.objs
      (match state.loadChunk visitor toDecimal fresh target rounds chars with
        | (state, none) => state.loadChunks visitor toDecimal fresh target chunks
        | failed => failed)
      (readDocs visitor toDecimal fresh (count + 1) parser vis (chars ++ joined chunks)) := by
  induction rounds generalizing count chars state parser vis with
  | zero =>
    cases chars with
    | nil => exact follows count state parser vis beside enoughDocs
    | cons c chars => rcases enough with more | ⟨_, just⟩ <;> simp at *
  | succ rounds ih =>
    cases chars with
    | nil => exact follows count state parser vis beside enoughDocs
    | cons c chars =>
      rcases beside with ⟨agree, sane, unfinished, rfl⟩
      have some : c :: chars ≠ [] := List.cons_ne_nil c chars
      have alike := agree_parseChunk visitor toDecimal state.parser parser state.vis (c :: chars)
        agree sane
      have kept := parseChunk_sane visitor toDecimal state.parser state.vis (c :: chars) sane
      have all := unfinished_of_all visitor toDecimal state.parser state.vis (c :: chars) sane
        unfinished
      have stopped := finished_of_rest visitor toDecimal state.parser state.vis (c :: chars) sane
      have fewer := enough_rest visitor toDecimal rounds state.parser state.vis (c :: chars)
      have shorter := rest_length_le visitor toDecimal parser state.vis (c :: chars)
      have whole := parseChunk_append visitor toDecimal parser state.vis (c :: chars)
        (joined chunks)
      rcases parsed : parseChunk visitor toDecimal state.parser state.vis (c :: chars) with
        ⟨later, vis, ended⟩
      rcases parsed' : parseChunk visitor toDecimal parser state.vis (c :: chars) with
        ⟨later', vis', ended'⟩
      rw [parsed, parsed'] at alike
      rw [parsed] at kept all stopped fewer
      rw [parsed'] at whole
      rcases alike with ⟨same, agrees⟩
      obtain ⟨rfl, rfl⟩ : vis = vis' ∧ ended = ended' := by simpa using same
      cases ended with
      | never => exact absurd rfl kept.1
      | error err =>
        refine .inr ?_
        simp only [LoadState.loadChunk, parsed, readDocs, whole]
        exact ⟨trivial, (List.append_nil _).symm⟩
      | ok rest =>
        have agrees := agrees ⟨rest, rfl⟩
        have sane := kept.2 ⟨rest, rfl⟩
        cases rest with
        | nil =>
          have unfinished := all rfl
          have beside : Beside { state with parser := later, vis := vis } later' vis :=
            ⟨agrees, sane, unfinished, rfl⟩
          have left : Enough count later' (joined chunks) := by
            left
            rcases enoughDocs with more | ⟨_, just⟩ <;>
              simp only [List.length_append, List.length_cons] at * <;> omega
          rw [readDocs_all visitor toDecimal fresh count parser later' state.vis vis
            (c :: chars) (joined chunks) parsed']
          simp only [LoadState.loadChunk, parsed, unfinished]
          cases rounds <;> exact follows count _ later' vis beside left
        | cons d rest =>
          have finished := stopped d rest rfl
          have finished' : later'.finished = true := by
            rw [← finished_of_agree later later' agrees]
            exact finished
          let state' : LoadState τ σ := { state with parser := later, vis := vis }
          have objs := loadNext_objs fresh target state'
          have left : (d :: rest).length ≤ rounds := fewer _ enough some rfl
          cases count with
          | zero =>
            rcases enoughDocs with more | ⟨_, just⟩ <;> simp at *
          | succ count =>
            have leftDocs : (d :: rest ++ joined chunks).length ≤ count :=
              enough_rest visitor toDecimal count parser state.vis _ _ enoughDocs
                (List.cons_ne_nil _ _) (by rw [whole])
            rw [readDocs_document visitor toDecimal fresh (count + 1) parser later' state.vis
              vis (c :: chars) (joined chunks) d rest parsed' finished']
            apply Follows.cons
            rcases next : state'.loadNext fresh target with ⟨following, refused⟩
            have cases := loadNext_cases fresh target state'
            rw [next] at cases objs
            simp only [LoadState.loadChunk, parsed, finished, if_true]
            rw [next]
            rcases cases with ⟨err, refuses⟩ | ⟨accepted, parser', vis'⟩
            · dsimp only at refuses
              subst refuses
              refine .inl ⟨err, rfl, ?_⟩
              rw [objs]
              exact List.prefix_append _ _
            · dsimp only at accepted
              subst accepted
              have beside := beside_next fresh state' following finished parser' vis'
              have enough : Enough rounds following.parser (d :: rest) := by
                refine .inr ⟨?_, left⟩
                rw [parser']
                rfl
              have followed := ih count (d :: rest) following begun.val fresh beside enough
                (.inr ⟨rfl, leftDocs⟩)
              rw [objs] at followed
              exact followed

theorem follow_chunks (chunks : List ReadChunk) (count : Nat) (state : LoadState τ σ)
    (parser : MojJsonParser) (vis : σ) (beside : Beside state parser vis)
    (enough : Enough count parser (joined chunks)) :
    Follows visitor toDecimal target state.objs
      (state.loadChunks visitor toDecimal fresh target chunks)
      (readDocs visitor toDecimal fresh (count + 1) parser vis (joined chunks)) := by
  induction chunks generalizing count state parser vis with
  | nil =>
    have unfinished : parser.finished = false := by
      rw [← finished_of_agree state.parser parser beside.agree]
      exact beside.unfinished
    have left : readDocs visitor toDecimal fresh (count + 1) parser vis (joined []) =
        ([], .left parser vis) := by
      simp [readDocs, joined, parseChunk, unfinished]
    rw [left]
    exact .inr ⟨state, beside, (List.append_nil _).symm, rfl⟩
  | cons chunk chunks ih =>
    have split : joined (chunk :: chunks) = chunk.val ++ joined chunks := by
      simp [joined]
    rw [split] at enough ⊢
    exact follow_chunk visitor toDecimal fresh target chunks ih (chunk.val.length + 1) count
      chunk.val state parser vis beside (.inl (Nat.lt_succ_self _)) enough

theorem follow_load (world : τ) (chunks : List ReadChunk) :
    Follows visitor toDecimal target [] (load visitor toDecimal fresh target world chunks)
      (documents visitor toDecimal fresh (joined chunks)) := by
  have beside : Beside (LoadState.create fresh world : LoadState τ σ) begun.val fresh := by
    refine ⟨restart_agree MojJsonParser.create rfl, begun.property, rfl, rfl⟩
  exact follow_chunks visitor toDecimal fresh target chunks _ _ begun.val fresh beside
    (.inr ⟨rfl, Nat.le_refl _⟩)

theorem ends_alike (parser : MojJsonParser) (vis : σ) (beside : Beside state parser vis) :
    (parseEnd visitor toDecimal state.parser state.vis).2 =
        (parseEnd visitor toDecimal parser vis).2 ∧
      ((∃ rest, (parseEnd visitor toDecimal parser vis).2.2 = .ok rest) →
        (parseEnd visitor toDecimal state.parser state.vis).1.finished =
          (parseEnd visitor toDecimal parser vis).1.finished) := by
  rcases beside with ⟨agree, sane, unfinished, rfl⟩
  have alike := agree_parseChunk visitor toDecimal state.parser parser state.vis [0] agree sane
  refine ⟨alike.1, ?_⟩
  rintro ⟨rest, ok⟩
  exact finished_of_agree _ _ (alike.2 ⟨rest, (congrArg Prod.snd alike.1).trans ok⟩)

theorem loadEnd_quiet (rest : ByteString)
    (ok : (parseEnd visitor toDecimal state.parser state.vis).2.2 = .ok rest)
    (unfinished : (parseEnd visitor toDecimal state.parser state.vis).1.finished = false) :
    (state.loadEnd visitor toDecimal target 0).1.objs = state.objs ∧
      (state.loadEnd visitor toDecimal target 0).2 =
        (target.endReq state.world).2.map LoadErr.store := by
  unfold LoadState.loadEnd
  rcases parsed : parseEnd visitor toDecimal state.parser state.vis with ⟨parser, vis, ended⟩
  rw [parsed] at ok unfinished
  dsimp only at ok unfinished
  subst ok
  simp only [unfinished, Bool.false_eq_true, if_false, lt_irrefl]
  exact ⟨trivial, trivial⟩

theorem loadEnd_error (err : MojErr)
    (failed : (parseEnd visitor toDecimal state.parser state.vis).2.2 = .error err) :
    (state.loadEnd visitor toDecimal target 0).1.objs = state.objs ∧
      (state.loadEnd visitor toDecimal target 0).2 = some (.parse err) := by
  unfold LoadState.loadEnd
  rcases parsed : parseEnd visitor toDecimal state.parser state.vis with ⟨parser, vis, ended⟩
  rw [parsed] at failed
  dsimp only at failed
  subst failed
  exact ⟨rfl, rfl⟩

theorem loadEnd_finished (vis : σ) (rest : ByteString)
    (ok : (parseEnd visitor toDecimal state.parser state.vis).2 = (vis, .ok rest))
    (finished : (parseEnd visitor toDecimal state.parser state.vis).1.finished = true) :
    (state.loadEnd visitor toDecimal target 0).1.objs = state.objs ++ [vis] ∧
      ((state.loadEnd visitor toDecimal target 0).2 = none ∨
        ∃ err, (state.loadEnd visitor toDecimal target 0).2 = some (.store err)) := by
  unfold LoadState.loadEnd
  rcases parsed : parseEnd visitor toDecimal state.parser state.vis with ⟨parser, vis', ended⟩
  rw [parsed] at ok finished
  cases ok
  dsimp only at finished
  simp only [finished, if_true, LoadState.loadObject]
  rcases target.loadImpl state.world vis with ⟨world, _ | err⟩
  · dsimp only
    cases (target.endReq world).2 with
    | none => exact ⟨rfl, .inl rfl⟩
    | some err => exact ⟨rfl, .inr ⟨err, rfl⟩⟩
  · exact ⟨rfl, .inr ⟨err, rfl⟩⟩

theorem Judged.complete (loaded : LoadState τ σ × Option LoadErr) (docs : List σ)
    (objs : loaded.1.objs = docs)
    (stored : loaded.2 = none ∨ ∃ err, loaded.2 = some (.store err)) :
    Judged loaded (docs, true) := by
  unfold Judged
  rcases stored with none | ⟨err, refused⟩
  · rw [none]
    exact ⟨objs, rfl⟩
  · rw [refused]
    exact objs ▸ List.prefix_refl docs

theorem silent_of_agree (one other : MojJsonParser) (agree : one.Agree other) :
    one.silent = other.silent ∧ one.blank = other.blank := by
  simp only [silent, silent.waiting, blank, agree.top, agree.below, and_self]

theorem judged_end (parser : MojJsonParser) (vis : σ) (docs : List σ)
    (beside : Beside state parser vis) (objs : state.objs = docs) (loud : parser.silent = false) :
    Judged (state.loadEnd visitor toDecimal target 0)
      (match parseEnd visitor toDecimal parser vis with
      | (ended, last, .ok _) =>
        if ended.finished then (docs ++ [last], true)
        else if parser.commented then (docs ++ [vis], true)
        else (docs, parser.blank)
      | _ => (docs, false)) := by
  have alike := ends_alike visitor toDecimal state parser vis beside
  have same := silent_of_agree state.parser parser beside.agree
  cases blank : parser.blank with
  | true =>
    have quiet := end_silent visitor toDecimal parser vis (.inr blank)
    have quiet' := end_silent visitor toDecimal state.parser state.vis (.inr (same.2.trans blank))
    have stored := loadEnd_quiet visitor toDecimal target state [] (by rw [quiet'.1]) quiet'.2
    have plain := not_commented_of_blank parser blank
    rcases parsed : parseEnd visitor toDecimal parser vis with ⟨ended, last, result⟩
    rw [parsed] at quiet
    rcases quiet with ⟨ok, unfinished⟩
    cases ok
    dsimp only at unfinished
    simp only [unfinished, plain, Bool.false_eq_true, if_false]
    apply Judged.complete _ docs (stored.1.trans objs)
    rw [stored.2]
    cases (target.endReq state.world).2 with
    | none => exact .inl rfl
    | some err => exact .inr ⟨err, rfl⟩
  | false =>
    have spoken := end_spoken visitor toDecimal state.parser state.vis beside.sane
      (same.1.trans loud) (same.2.trans blank)
    rcases parsed : parseEnd visitor toDecimal parser vis with ⟨ended, last, result⟩
    rw [parsed] at alike
    cases result with
    | never =>
      have ends := (parseChunk_sane visitor toDecimal state.parser state.vis [0] beside.sane).1
      exact absurd (congrArg Prod.snd alike.1) ends
    | error err =>
      have failed := loadEnd_error visitor toDecimal target state err
        (congrArg Prod.snd alike.1)
      unfold Judged
      rw [failed.2]
      exact ⟨failed.1.trans objs, rfl⟩
    | ok rest =>
      rcases spoken with ⟨err, failed⟩ | finished
      · rw [alike.1] at failed
        simp at failed
      · have stored := loadEnd_finished visitor toDecimal target state last rest alike.1 finished
        have finished' : ended.finished = true := by
          rw [← alike.2 ⟨rest, rfl⟩]
          exact finished
        simp only [finished', if_true]
        exact Judged.complete _ (docs ++ [last]) (by rw [stored.1, objs]) stored.2

/-- A text that ends silently is loaded as if it ended behind its last document. -/
theorem judged_silent (parser : MojJsonParser) (vis : σ) (docs : List σ)
    (beside : Beside state parser vis) (objs : state.objs = docs) (ends : parser.silent = true)
    (accepts : (target.endReq state.world).2 = none) :
    ¬Judged (state.loadEnd visitor toDecimal target 0)
      (match parseEnd visitor toDecimal parser vis with
      | (ended, last, .ok _) =>
        if ended.finished then (docs ++ [last], true)
        else if parser.commented then (docs ++ [vis], true)
        else (docs, parser.blank)
      | _ => (docs, false)) := by
  have same := silent_of_agree state.parser parser beside.agree
  have quiet := end_silent visitor toDecimal parser vis (.inl ends)
  have quiet' := end_silent visitor toDecimal state.parser state.vis (.inl (same.1.trans ends))
  have stored := loadEnd_quiet visitor toDecimal target state [] (by rw [quiet'.1]) quiet'.2
  have plain := not_blank_of_silent parser ends
  rcases parsed : parseEnd visitor toDecimal parser vis with ⟨ended, last, result⟩
  rw [parsed] at quiet
  rcases quiet with ⟨ok, unfinished⟩
  cases ok
  dsimp only at unfinished
  unfold Judged
  rw [stored.2, accepts]
  simp only [unfinished, Bool.false_eq_true, if_false, Option.map_none]
  rintro ⟨all, complete⟩
  rw [stored.1, objs] at all
  split at all
  · simp at all
  · rename_i behind
    simp [behind, plain] at complete

def acceptAll : LoadTarget Unit σ :=
  ⟨fun world _ => (world, none), fun world => (world, none), fun world => (world, none), 0⟩

theorem acceptAll_next (state : LoadState Unit σ) : (state.loadNext fresh acceptAll).2 = none := by
  simp [LoadState.loadNext, LoadState.loadObject, acceptAll]

theorem acceptAll_chunk (rounds : Nat) (state : LoadState Unit σ) (chars : ByteString)
    (err : MojErr) :
    (state.loadChunk visitor toDecimal fresh acceptAll rounds chars).2 ≠ some (.store err) := by
  induction rounds generalizing state chars with
  | zero => cases chars <;> simp [LoadState.loadChunk]
  | succ rounds ih =>
    cases chars with
    | nil => simp [LoadState.loadChunk]
    | cons c chars =>
      unfold LoadState.loadChunk
      rcases parseChunk visitor toDecimal state.parser state.vis (c :: chars) with
        ⟨parser, vis, rest | err' | _⟩
      · dsimp only
        split
        · have accepts := acceptAll_next fresh { state with parser := parser, vis := vis }
          rcases next : LoadState.loadNext fresh acceptAll
            { state with parser := parser, vis := vis } with ⟨state, refused⟩
          rw [next] at accepts
          dsimp only at accepts
          subst accepts
          exact ih state rest
        · exact ih _ rest
      · simp
      · simp

theorem acceptAll_chunks (state : LoadState Unit σ) (chunks : List ReadChunk) (err : MojErr) :
    (state.loadChunks visitor toDecimal fresh acceptAll chunks).2 ≠ some (.store err) := by
  induction chunks generalizing state with
  | nil =>
    unfold LoadState.loadChunks LoadState.loadEnd
    rcases parseEnd visitor toDecimal state.parser state.vis with ⟨parser, vis, rest | err' | _⟩
    · dsimp only [LoadState.loadObject, acceptAll]
      split <;> simp
    · simp
    · simp
  | cons chunk chunks ih =>
    have accepts := acceptAll_chunk visitor toDecimal fresh (chunk.val.length + 1) state chunk.val
      err
    unfold LoadState.loadChunks
    split
    · exact ih _
    · exact accepts

end Follow

section Claim

variable {σ : Type} (visitor : JsonVisitor σ) (toDecimal : ByteString → Except MojErr MojInt64)
  (fresh : σ)

theorem documents_prefix (content : ByteString) :
    (documents visitor toDecimal fresh content).1 <+:
      (contents visitor toDecimal fresh content).1 := by
  unfold contents
  rcases documents visitor toDecimal fresh content with ⟨docs, ⟨parser, vis⟩ | err | _⟩
  · dsimp only
    split
    · split_ifs
      · exact List.prefix_append _ _
      · exact List.prefix_append _ _
      · exact List.prefix_refl _
    · exact List.prefix_refl _
  · exact List.prefix_refl _
  · exact List.prefix_refl _

theorem judged_of_loud {τ : Type} (target : LoadTarget τ σ) (world : τ) (chunks : List ReadChunk)
    (loud : endsSilently visitor toDecimal fresh (joined chunks) = false) :
    Judged (load visitor toDecimal fresh target world chunks)
      (contents visitor toDecimal fresh (joined chunks)) := by
  have before := documents_prefix visitor toDecimal fresh (joined chunks)
  rcases follow_load visitor toDecimal fresh target world chunks with ⟨err, refused, part⟩ | follows
  · unfold Judged
    rw [refused]
    exact part.trans before
  · unfold endsSilently at loud
    unfold contents
    rcases read : documents visitor toDecimal fresh (joined chunks) with
      ⟨docs, ⟨parser, vis⟩ | err | _⟩ <;> rw [read] at follows loud
    · rcases follows with ⟨state, beside, objs, same⟩
      rw [same]
      exact judged_end visitor toDecimal target state parser vis docs beside objs loud
    · unfold Judged
      rw [follows.1]
      exact ⟨follows.2, rfl⟩
    · exact follows.elim

theorem not_judged_of_silent (chunks : List ReadChunk)
    (ends : endsSilently visitor toDecimal fresh (joined chunks) = true) :
    ¬Judged (load visitor toDecimal fresh acceptAll () chunks)
      (contents visitor toDecimal fresh (joined chunks)) := by
  rcases follow_load visitor toDecimal fresh acceptAll () chunks with ⟨err, refused, _⟩ | follows
  · exact absurd refused (acceptAll_chunks visitor toDecimal fresh _ chunks err)
  · unfold endsSilently at ends
    unfold contents
    rcases read : documents visitor toDecimal fresh (joined chunks) with
      ⟨docs, ⟨parser, vis⟩ | err | _⟩ <;> rw [read] at follows ends
    · rcases follows with ⟨state, beside, objs, same⟩
      rw [same]
      exact judged_silent visitor toDecimal acceptAll state parser vis docs beside objs ends rfl
    · simp at ends
    · simp at ends

/-- Whoever takes the documents and however the text is delivered, a load does what the text says
if and only if the text does not end in silence. -/
theorem load_judged_iff (content : ByteString) :
    (∀ (τ : Type) (target : LoadTarget τ σ) (world : τ) (chunks : List ReadChunk),
        joined chunks = content →
        Judged (load visitor toDecimal fresh target world chunks)
          (contents visitor toDecimal fresh content)) ↔
      endsSilently visitor toDecimal fresh content = false := by
  constructor
  · intro judged
    by_contra silent
    rw [Bool.not_eq_false] at silent
    cases content with
    | nil => exact absurd silent nofun
    | cons c content =>
      have whole : joined [⟨c :: content, List.cons_ne_nil c content⟩] = c :: content := by
        simp [joined]
      have wrong := not_judged_of_silent visitor toDecimal fresh
        [⟨c :: content, List.cons_ne_nil c content⟩] (by rw [whole]; exact silent)
      rw [whole] at wrong
      exact wrong (judged Unit acceptAll () _ whole)
  · intro loud τ target world chunks delivered
    subst delivered
    exact judged_of_loud visitor toDecimal fresh target world chunks loud

def cutFile : ReadChunk := ⟨literal "\x7b\x22_kind\x22:\x22A:1\x22\x7d [\x22ab", by decide⟩

/-- The load succeeds without a word about the array. -/
theorem cut_file_loads :
    let visitor : JsonVisitor (List JsonCall × Unit) := recorded fun vis _ => (vis, none)
    let toDecimal : ByteString → Except MojErr MojInt64 := fun _ => .error .typeMismatch
    ¬Judged (load visitor toDecimal ([], ()) acceptAll () [cutFile])
      (contents visitor toDecimal ([], ()) (joined [cutFile])) := by
  intro visitor toDecimal
  apply not_judged_of_silent
  decide +kernel

end Claim

end Db8.Db
