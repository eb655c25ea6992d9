import Db8.Core.PropMap

/-!
# Filtering the calls of an object

`MojObjectFilter`, a visitor between an object and another visitor: it lets through what lies on the
selected paths. Objects and arrays on the way to a selected property are opened when the first one in
them is met. What comes through of an object is said by a walk over its properties.
-/

set_option autoImplicit false

namespace Db8.Core

open Db8.Bytes

/-- `Node`: a component of selected paths with those that come next. -/
inductive Node where
  | mk (propName : MojString) (children : List Node)

namespace Node

def propName : Node → MojString
  | .mk propName _ => propName

def children : Node → List Node
  | .mk _ children => children

def chain : MojString → List MojString → Node
  | part, [] => .mk part []
  | part, next :: rest => .mk part [chain next rest]

/-- The first node of a name grows, unless it has no children; without one the node is added. -/
def addPart (part : MojString) (added : Node) (grow : List Node → List Node) :
    List Node → List Node
  | [] => [added]
  | .mk name [] :: nodes =>
    if part = name then .mk name [] :: nodes else .mk name [] :: addPart part added grow nodes
  | .mk name (child :: children) :: nodes =>
    if part = name then .mk name (grow (child :: children)) :: nodes
    else .mk name (child :: children) :: addPart part added grow nodes

/-- The loop of `init` over the components of a path. -/
def addPath : List MojString → List Node → List Node
  | [], nodes => nodes
  | part :: rest, nodes => addPart part (chain part rest) (addPath rest) nodes

/-- `init`, with the paths of the select set in its order. -/
def init (paths : List (List MojString)) : Node :=
  .mk [] (paths.foldl (fun nodes path => addPath path nodes) [])

def advance (name : MojString) (nodes : List Node) : List Node :=
  nodes.dropWhile fun node => decide (node.propName.map Subtype.val < name.map Subtype.val)

end Node

def mojSizeMax : Nat := 2 ^ 64 - 1

namespace MojObjectFilter

structure State where
  node : Option Node
  child : List Node
  includeCount : Nat
  included : Bool
  array : Bool

end MojObjectFilter

structure MojObjectFilter where
  state : MojObjectFilter.State
  stack : List MojObjectFilter.State
  nextNode : Option Node

namespace MojObjectFilter

def setVisitor (root : Node) : MojObjectFilter :=
  ⟨⟨some root, [], 0, true, false⟩, [], some root⟩

/-- The search of `propName` among the children that are left, with the next node. -/
def matchChild (name : MojString) (state : State) : State × Option Node :=
  match state.node with
  | none => (state, none)
  | some _ =>
    match Node.advance name state.child with
    | [] => ({ state with child := [], includeCount := 0 }, none)
    | child :: rest =>
      if child.propName ≠ name then
        ({ state with child := child :: rest, includeCount := 0 }, none)
      else if child.children.isEmpty then
        ({ state with child := child :: rest, includeCount := 1 }, none)
      else ({ state with child := child :: rest, includeCount := 0 }, some child)

/-- `include`, with whether the state before is that of an array. -/
def includeState (state : State) (inArray : Bool) : Except MojErr (State × List VisitorCall) :=
  match state.node with
  | none => .error (.assertFailed "state.m_node")
  | some node =>
    .ok ({ state with included := true },
      (if inArray then [] else [.propName node.propName]) ++
        [if state.array then .beginArray else .beginObject])

/-- `includeParents` for a state and those below it. -/
def includeAll : List State → Except MojErr (List State × List VisitorCall)
  | [] => .ok ([], [])
  | state :: below => do
    let (below, calls) ← includeAll below
    match state.included, below with
    | true, _ => .ok (state :: below, calls)
    | false, [] => .error (.assertFailed "prevState")
    | false, prev :: _ => do
      let (state, own) ← includeState state prev.array
      .ok (state :: below, calls ++ own)

def includeParents (filter : MojObjectFilter) : Except MojErr (MojObjectFilter × List VisitorCall) := do
  let (states, calls) ← includeAll (filter.state :: filter.stack)
  .ok ({ filter with state := states.headD filter.state, stack := states.tail }, calls)

def propName (filter : MojObjectFilter) (name : MojString) :
    Except MojErr (MojObjectFilter × List VisitorCall) :=
  let (state, nextNode) := matchChild name filter.state
  let filter := { filter with state := state, nextNode := nextNode }
  if state.includeCount = 0 then .ok (filter, [])
  else if state.included then .ok (filter, [.propName name])
  else do
    let (filter, calls) ← filter.includeParents
    .ok (filter, calls ++ [.propName name])

/-- `nullValue`, `boolValue`, `intValue`, `decimalValue` and `stringValue`. -/
def scalarValue (filter : MojObjectFilter) (call : VisitorCall) :
    MojObjectFilter × List VisitorCall :=
  if filter.state.includeCount = 0 then (filter, [])
  else
    ({ filter with
      state := { filter.state with includeCount := filter.state.includeCount - 1 } }, [call])

/-- `begin`, with the call it makes. -/
def beginMethod (filter : MojObjectFilter) (array : Bool) (method : VisitorCall) :
    MojObjectFilter × List VisitorCall :=
  let stack := filter.state :: filter.stack
  let included := decide (filter.state.includeCount ≠ 0 ∨ stack.length = 1)
  ({ filter with
    state :=
      { node := filter.nextNode
        child := (filter.nextNode.map Node.children).getD []
        includeCount := if filter.state.includeCount = 0 then 0 else mojSizeMax
        included := included
        array := array }
    stack := stack }, if included then [method] else [])

/-- `end`, with the call it makes. -/
def endMethod (filter : MojObjectFilter) (method : VisitorCall) :
    Except MojErr (MojObjectFilter × List VisitorCall) :=
  match filter.stack with
  | [] => .error (.assertFailed "!m_stack.empty()")
  | outer :: stack =>
    -- the node is kept for the next element of an array
    .ok (⟨{ outer with includeCount := outer.includeCount - 1 }, stack, filter.state.node⟩,
      if filter.state.included then [method] else [])

def visit (filter : MojObjectFilter) : VisitorCall →
    Except MojErr (MojObjectFilter × List VisitorCall)
  | .beginObject => .ok (filter.beginMethod false .beginObject)
  | .endObject => filter.endMethod .endObject
  | .beginArray => .ok (filter.beginMethod true .beginArray)
  | .endArray => filter.endMethod .endArray
  | .propName name => filter.propName name
  | call => .ok (filter.scalarValue call)

def visits : MojObjectFilter → List VisitorCall →
    Except MojErr (MojObjectFilter × List VisitorCall)
  | filter, [] => .ok (filter, [])
  | filter, call :: calls => do
    let (filter, out) ← filter.visit call
    let (filter, later) ← visits filter calls
    .ok (filter, out ++ later)

variable {filter middle last : MojObjectFilter}

theorem visits_append {front back out later : List VisitorCall}
    (first : filter.visits front = .ok (middle, out))
    (second : middle.visits back = .ok (last, later)) :
    filter.visits (front ++ back) = .ok (last, out ++ later) := by
  induction front generalizing filter out with
  | nil =>
    cases first
    exact second
  | cons call front ih =>
    rw [visits] at first
    rcases except_bind_ok first with ⟨⟨next, here⟩, turned, first⟩
    rcases except_bind_ok first with ⟨⟨ended, onward⟩, rest, first⟩
    cases first
    rw [List.cons_append, visits, turned]
    change (next.visits (front ++ back) >>= fun _ => _) = _
    rw [ih rest]
    exact congrArg (fun calls => Except.ok (last, calls)) (List.append_assoc here onward later).symm

variable {call : VisitorCall}

theorem visits_cons {calls out later : List VisitorCall}
    (first : filter.visit call = .ok (middle, out))
    (second : middle.visits calls = .ok (last, later)) :
    filter.visits (call :: calls) = .ok (last, out ++ later) := by
  rw [visits, first]
  change (middle.visits calls >>= fun _ => _) = _
  rw [second]
  rfl

theorem visits_one {filter : MojObjectFilter} {last : MojObjectFilter × List VisitorCall}
    (first : filter.visit call = .ok last) : filter.visits [call] = .ok last := by
  rcases last with ⟨last, out⟩
  have rest : last.visits [] = .ok (last, []) := rfl
  have whole := visits_cons first rest
  rwa [List.append_nil] at whole

theorem visits_silent_eq {filter middle : MojObjectFilter}
    (first : filter.visit call = .ok (middle, [])) (calls : List VisitorCall) :
    filter.visits (call :: calls) = middle.visits calls := by
  rw [visits, first]
  change (middle.visits calls >>= fun _ => _) = _
  cases middle.visits calls with
  | error err => rfl
  | ok last => rfl

theorem visits_append_silent {filter middle : MojObjectFilter} {front : List VisitorCall}
    (first : filter.visits front = .ok (middle, [])) (back : List VisitorCall) :
    filter.visits (front ++ back) = middle.visits back := by
  induction front generalizing filter with
  | nil =>
    cases first
    rfl
  | cons call front ih =>
    rw [visits] at first
    rcases except_bind_ok first with ⟨⟨next, here⟩, turned, first⟩
    rcases except_bind_ok first with ⟨⟨ended, onward⟩, rest, first⟩
    have nothing := congrArg Prod.snd (Except.ok.inj first)
    have same := congrArg Prod.fst (Except.ok.inj first)
    simp only [List.append_eq_nil_iff] at nothing same
    rcases nothing with ⟨rfl, rfl⟩
    rw [List.cons_append, visits_silent_eq turned]
    exact ih (same ▸ rest)

theorem visits_silent {calls later : List VisitorCall}
    (first : filter.visit call = .ok (middle, []))
    (second : middle.visits calls = .ok (last, later)) :
    filter.visits (call :: calls) = .ok (last, later) :=
  visits_cons first second

theorem visits_through {calls later : List VisitorCall}
    (first : filter.visit call = .ok (middle, [call]))
    (second : middle.visits calls = .ok (last, later)) :
    filter.visits (call :: calls) = .ok (last, call :: later) :=
  visits_cons first second

end MojObjectFilter

namespace Node

open MojObject

mutual

/-- What comes through of a value that is reached with some nodes. -/
def filterVal (nodes : List Node) : MojObject → Option MojObject
  | .object props =>
    match walk nodes props with
    | [] => none
    | kept :: rest => some (.object (kept :: rest))
  | .array vals =>
    match filterVals nodes vals with
    | [] => none
    | kept :: rest => some (.array (kept :: rest))
  | _ => none

/-- The properties that are met with the nodes that are left when they come. -/
def walk (nodes : List Node) : List (MojString × MojObject) → List (MojString × MojObject)
  | [] => []
  | (name, val) :: rest =>
    match advance name nodes with
    | [] => walk [] rest
    | node :: others =>
      if node.propName ≠ name then walk (node :: others) rest
      else if node.children.isEmpty then (name, val) :: walk (node :: others) rest
      else
        match filterVal node.children val with
        | none => walk (node :: others) rest
        | some kept => (name, kept) :: walk (node :: others) rest

def filterVals (nodes : List Node) : List MojObject → List MojObject
  | [] => []
  | val :: rest =>
    match filterVal nodes val with
    | none => filterVals nodes rest
    | some kept => kept :: filterVals nodes rest

end

end Node

end Db8.Core
