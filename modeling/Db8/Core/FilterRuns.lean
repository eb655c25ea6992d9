import Db8.Core.ObjectFilter

/-!
# What the filter makes of a value

The calls of a value end where they began. What comes through of it is what the walk keeps, behind the
calls that open the objects and arrays it lies in.
-/

set_option autoImplicit false

namespace Db8.Core

open Db8.Bytes
open MojObject (visitsProps visitsVals)

namespace MojObject

mutual

/-- Its arrays and property maps have no more values than a size counts. -/
def Counted : MojObject → Prop
  | .object props => props.length ≤ mojSizeMax ∧ CountedProps props
  | .array vals => vals.length ≤ mojSizeMax ∧ CountedVals vals
  | _ => True

def CountedProps : List (MojString × MojObject) → Prop
  | [] => True
  | (_, val) :: rest => Counted val ∧ CountedProps rest

def CountedVals : List MojObject → Prop
  | [] => True
  | val :: rest => Counted val ∧ CountedVals rest

end

theorem countedProps_iff (props : List (MojString × MojObject)) :
    CountedProps props ↔ ∀ prop ∈ props, prop.2.Counted := by
  induction props with
  | nil => simp [CountedProps]
  | cons head props ih =>
    rcases head with ⟨name, val⟩
    rw [CountedProps, ih, List.forall_mem_cons]

end MojObject

namespace MojObjectFilter

/-- The calls that open a value of a state, below another. -/
def opening (state : State) (below : List State) : List VisitorCall :=
  (if (below.head?.map State.array).getD false then []
    else [.propName ((state.node.map Node.propName).getD [])]) ++
    [if state.array then .beginArray else .beginObject]

def flush : List State → List VisitorCall
  | [] => []
  | state :: below => flush below ++ if state.included then [] else opening state below

def mark (state : State) : State := { state with included := true }

def Ready : List State → Prop
  | [] => True
  | state :: below => Ready below ∧
      (state.included = true ∨ (state.node.isSome = true ∧ below ≠ []))

theorem mark_of_included {states : List State} (all : ∀ state ∈ states, state.included = true) :
    states.map mark = states := by
  have same : ∀ state ∈ states, mark state = id state := by
    rintro ⟨node, child, includeCount, included, array⟩ there
    have isTrue := all _ there
    cases isTrue
    rfl
  exact (List.map_congr_left same).trans (List.map_id states)

theorem flush_of_included {states : List State} (all : ∀ state ∈ states, state.included = true) :
    flush states = [] := by
  induction states with
  | nil => rfl
  | cons state below ih =>
    rw [flush, ih fun other there => all other (List.mem_cons_of_mem _ there),
      if_pos (all state List.mem_cons_self)]
    rfl

theorem included_of_mark {states : List State} : ∀ state ∈ states.map mark, state.included = true := by
  intro state there
  rcases List.mem_map.mp there with ⟨old, _, rfl⟩
  rfl

theorem Ready.marked {states : List State} : Ready (states.map mark) := by
  induction states with
  | nil => trivial
  | cons state below ih => exact ⟨ih, Or.inl rfl⟩

theorem includeAll_ready {states : List State} (ready : Ready states) :
    includeAll states = .ok (states.map mark, flush states) := by
  induction states with
  | nil => rfl
  | cons state below ih =>
    rcases ready with ⟨readyBelow, own⟩
    rw [includeAll, ih readyBelow]
    rcases state with ⟨node, child, includeCount, included, array⟩
    cases included with
    | true =>
      rw [flush, if_pos rfl, List.append_nil]
      rfl
    | false =>
      rcases own with impossible | ⟨hasNode, inside⟩
      · cases impossible
      · rcases Option.isSome_iff_exists.mp hasNode with ⟨found, rfl⟩
        cases below with
        | nil => exact absurd rfl inside
        | cons prev below => rfl

theorem begin_nested {state : State} {stack : List State} (inside : stack ≠ []) (next : Option Node)
    (array : Bool) (method : VisitorCall) :
    beginMethod ⟨state, stack, next⟩ array method =
      (⟨⟨next, (next.map Node.children).getD [], if state.includeCount = 0 then 0 else mojSizeMax,
          decide (state.includeCount ≠ 0), array⟩, state :: stack, next⟩,
        if state.includeCount = 0 then [] else [method]) := by
  have nested : ¬ (state :: stack).length = 1 :=
    fun root => inside (List.eq_nil_of_length_eq_zero (Nat.succ.inj root))
  unfold beginMethod
  simp only [nested, or_false]
  by_cases skips : state.includeCount = 0
  · rw [if_pos skips, if_neg (by rw [skips]; decide), if_pos skips]
  · rw [if_neg skips, if_pos (decide_eq_true skips), if_neg skips]

theorem scalar_skip (filter : MojObjectFilter) (skips : filter.state.includeCount = 0)
    (call : VisitorCall) : filter.scalarValue call = (filter, []) :=
  if_pos skips

theorem scalar_include (filter : MojObjectFilter) (includes : filter.state.includeCount ≠ 0)
    (call : VisitorCall) : filter.scalarValue call =
      ({ filter with
        state := { filter.state with includeCount := filter.state.includeCount - 1 } }, [call]) :=
  if_neg includes

theorem end_skip {state : State} (skips : state.includeCount = 0) (inner : State)
    (stack : List State) (next : Option Node) (method : VisitorCall) :
    endMethod ⟨inner, state :: stack, next⟩ method =
      .ok (⟨state, stack, inner.node⟩, if inner.included then [method] else []) := by
  rcases state with ⟨node, child, includeCount, included, array⟩
  cases skips
  rfl

section Skipping

def skipped (array : Bool) : State := ⟨none, [], 0, false, array⟩

mutual

theorem visits_skip (val : MojObject) {state : State} {stack : List State} (inside : stack ≠ [])
    (skips : state.includeCount = 0) :
    visits ⟨state, stack, none⟩ val.visits = .ok (⟨state, stack, none⟩, []) := by
  match val with
  | .null | .bool _ | .decimal _ | .int _ | .string _ =>
    rw [MojObject.visits]
    exact visits_silent (congrArg Except.ok (scalar_skip ⟨state, stack, none⟩ skips _)) rfl
  | .object props =>
    have opened := @begin_nested state _ inside none false .beginObject
    rw [if_pos skips, if_pos skips, decide_eq_false (not_not.mpr skips)] at opened
    rw [MojObject.visits]
    exact visits_silent (congrArg Except.ok opened) (visits_skipProps props inside skips)
  | .array vals =>
    have opened := @begin_nested state _ inside none true .beginArray
    rw [if_pos skips, if_pos skips, decide_eq_false (not_not.mpr skips)] at opened
    rw [MojObject.visits]
    exact visits_silent (congrArg Except.ok opened) (visits_skipVals vals inside skips)

theorem visits_skipProps (props : List (MojString × MojObject)) {state : State} {stack : List State}
    (inside : stack ≠ []) (skips : state.includeCount = 0) :
    visits ⟨skipped false, state :: stack, none⟩ (visitsProps props) =
      .ok (⟨state, stack, none⟩, []) := by
  match props with
  | [] =>
    rw [MojObject.visitsProps]
    exact visits_silent (end_skip skips (skipped false) stack none _) rfl
  | (name, val) :: rest =>
    rw [MojObject.visitsProps]
    exact visits_silent rfl (visits_append (visits_skip val (List.cons_ne_nil state stack) rfl)
      (visits_skipProps rest inside skips))

theorem visits_skipVals (vals : List MojObject) {state : State} {stack : List State}
    (inside : stack ≠ []) (skips : state.includeCount = 0) :
    visits ⟨skipped true, state :: stack, none⟩ (visitsVals vals) =
      .ok (⟨state, stack, none⟩, []) := by
  match vals with
  | [] =>
    rw [MojObject.visitsVals]
    exact visits_silent (end_skip skips (skipped true) stack none _) rfl
  | val :: rest =>
    rw [MojObject.visitsVals]
    exact visits_append (visits_skip val (List.cons_ne_nil state stack) rfl)
      (visits_skipVals rest inside skips)

end

end Skipping

section Whole

def whole (array : Bool) (left : Nat) : State := ⟨none, [], left, true, array⟩

mutual

theorem visits_whole (val : MojObject) (counted : val.Counted) {state : State} {stack : List State}
    (inside : stack ≠ []) (includes : state.includeCount ≠ 0) :
    visits ⟨state, stack, none⟩ val.visits =
      .ok (⟨{ state with includeCount := state.includeCount - 1 }, stack, none⟩, val.visits) := by
  match val with
  | .null | .bool _ | .decimal _ | .int _ | .string _ =>
    rw [MojObject.visits]
    exact visits_through (congrArg Except.ok (scalar_include ⟨state, stack, none⟩ includes _)) rfl
  | .object props =>
    rw [MojObject.Counted] at counted
    have opened := @begin_nested state _ inside none false .beginObject
    rw [if_neg includes, if_neg includes, decide_eq_true includes] at opened
    rw [MojObject.visits]
    exact visits_through (congrArg Except.ok opened) (visits_wholeProps props counted.2 counted.1)
  | .array vals =>
    rw [MojObject.Counted] at counted
    have opened := @begin_nested state _ inside none true .beginArray
    rw [if_neg includes, if_neg includes, decide_eq_true includes] at opened
    rw [MojObject.visits]
    exact visits_through (congrArg Except.ok opened) (visits_wholeVals vals counted.2 counted.1)

theorem visits_wholeProps (props : List (MojString × MojObject))
    (counted : MojObject.CountedProps props) {left : Nat} (fits : props.length ≤ left)
    {state : State} {stack : List State} :
    visits ⟨whole false left, state :: stack, none⟩ (visitsProps props) =
      .ok (⟨{ state with includeCount := state.includeCount - 1 }, stack, none⟩,
        visitsProps props) := by
  match props with
  | [] =>
    rw [MojObject.visitsProps]
    exact visits_through rfl rfl
  | (name, val) :: rest =>
    rw [MojObject.CountedProps] at counted
    have some : left ≠ 0 := by
      rintro rfl
      exact Nat.not_succ_le_zero _ fits
    have named : visit ⟨whole false left, state :: stack, none⟩ (.propName name) =
        .ok (⟨whole false left, state :: stack, none⟩, [.propName name]) := by
      change (if left = 0 then _ else _) = _
      rw [if_neg some]
      rfl
    rw [MojObject.visitsProps]
    exact visits_through named (visits_append
      (visits_whole val counted.1 (List.cons_ne_nil state stack) some)
      (visits_wholeProps rest counted.2 (Nat.le_sub_one_of_lt fits)))

theorem visits_wholeVals (vals : List MojObject) (counted : MojObject.CountedVals vals) {left : Nat}
    (fits : vals.length ≤ left) {state : State} {stack : List State} :
    visits ⟨whole true left, state :: stack, none⟩ (visitsVals vals) =
      .ok (⟨{ state with includeCount := state.includeCount - 1 }, stack, none⟩,
        visitsVals vals) := by
  match vals with
  | [] =>
    rw [MojObject.visitsVals]
    exact visits_through rfl rfl
  | val :: rest =>
    rw [MojObject.CountedVals] at counted
    have some : left ≠ 0 := by
      rintro rfl
      exact Nat.not_succ_le_zero _ fits
    rw [MojObject.visitsVals]
    exact visits_append (visits_whole val counted.1 (List.cons_ne_nil state stack) some)
      (visits_wholeVals rest counted.2 (Nat.le_sub_one_of_lt fits))

end

end Whole

section Reached

/-- How a value ends that was reached with a node, for what the walk keeps of it. -/
def reached (state : State) (stack : List State) (node : Node) :
    Option MojObject → MojObjectFilter × List VisitorCall
  | none => (⟨state, stack, some node⟩, [])
  | some kept => (⟨mark state, stack.map mark, some node⟩,
      flush (state :: stack) ++
        ((if state.array then [] else [.propName node.propName]) ++ kept.visits))

/-- How the inner of an object or an array ends, for whether anything of it is kept, and its calls. -/
def ended (inner state : State) (stack : List State) (nothing : Bool) (calls : List VisitorCall) :
    MojObjectFilter × List VisitorCall :=
  if nothing = true ∧ inner.included = false then (⟨state, stack, inner.node⟩, [])
  else (⟨mark state, stack.map mark, inner.node⟩, flush (inner :: state :: stack) ++ calls)

theorem ended_kept (inner state : State) (stack : List State) (calls : List VisitorCall) :
    ended inner state stack false calls =
      (⟨mark state, stack.map mark, inner.node⟩, flush (inner :: state :: stack) ++ calls) :=
  if_neg fun nothing => Bool.false_ne_true nothing.1

variable {stack : List State}

theorem ended_included {inner state : State} (open_ : inner.included = true)
    (all : ∀ outer ∈ state :: stack, outer.included = true) (nothing : Bool)
    (calls : List VisitorCall) :
    ended inner state stack nothing calls = (⟨state, stack, inner.node⟩, calls) := by
  have marked := mark_of_included all
  rw [List.map_cons, List.cons.injEq] at marked
  have flushed : flush (inner :: state :: stack) = [] := by
    rw [flush, flush_of_included all, if_pos open_]
    rfl
  unfold ended
  rw [if_neg (by rw [open_]; simp), flushed, marked.1, marked.2]
  rfl

/-- A name that is selected is let through behind the calls that open what it lies in. -/
theorem propName_include {inner state : State} (ready : Ready (inner :: stack))
    (down : inner.included = true → ∀ outer ∈ stack, outer.included = true) {name : MojString}
    (next : Option Node) (found : matchChild name inner = (state, none))
    (same : state.included = inner.included ∧ state.node = inner.node ∧ state.array = inner.array)
    (includes : state.includeCount ≠ 0) :
    propName ⟨inner, stack, next⟩ name =
      .ok (⟨mark state, stack.map mark, none⟩, flush (inner :: stack) ++ [.propName name]) := by
  unfold propName
  simp only [found]
  rw [if_neg includes]
  rcases state with ⟨node, child, includeCount, included, array⟩
  rcases inner with ⟨innerNode, innerChild, innerCount, innerIncluded, innerArray⟩
  rcases same with ⟨rfl, rfl, rfl⟩
  cases included with
  | true =>
    rw [if_pos rfl, mark_of_included (down rfl), flush, flush_of_included (down rfl), if_pos rfl]
    rfl
  | false =>
    rw [if_neg Bool.false_ne_true, includeParents]
    have readyHere : Ready (⟨node, child, includeCount, false, array⟩ :: stack) := ready
    simp only
    rw [includeAll_ready readyHere]
    rfl

def entered (node : Node) (array : Bool) : State := ⟨some node, node.children, 0, false, array⟩

theorem begin_reached {state : State} (inside : stack ≠ []) (skips : state.includeCount = 0)
    (node : Node) (array : Bool) (method : VisitorCall) :
    beginMethod ⟨state, stack, some node⟩ array method =
      (⟨entered node array, state :: stack, some node⟩, []) := by
  rw [begin_nested inside, if_pos skips, if_pos skips, decide_eq_false (not_not.mpr skips)]
  rfl

theorem ended_entered (node : Node) (array : Bool) (state : State) (stack : List State)
    (calls : List VisitorCall) :
    ended (entered node array) state stack false calls =
      (⟨mark state, stack.map mark, some node⟩, flush (state :: stack) ++
        ((if state.array then [] else [.propName node.propName]) ++
          (if array then .beginArray else .beginObject) :: calls)) := by
  have opened : flush (entered node array :: state :: stack) =
      flush (state :: stack) ++ ((if state.array then [] else [.propName node.propName]) ++
        [if array then .beginArray else .beginObject]) := rfl
  rw [ended_kept, opened, List.append_assoc, List.append_assoc]
  rfl

theorem end_reached {inner state : State} (skips : state.includeCount = 0)
    (down : inner.included = true → ∀ outer ∈ state :: stack, outer.included = true)
    (next : Option Node) (method : VisitorCall) :
    endMethod ⟨inner, state :: stack, next⟩ method = .ok (ended inner state stack true [method]) := by
  rw [end_skip skips]
  cases open_ : inner.included with
  | false =>
    rw [if_neg Bool.false_ne_true, ended, if_pos ⟨rfl, open_⟩]
  | true =>
    rw [if_pos rfl, ended_included open_ (down open_)]

mutual

theorem visits_reached (val : MojObject) (counted : val.Counted) (node : Node) {state : State}
    {stack : List State} (inside : stack ≠ []) (skips : state.includeCount = 0)
    (ready : Ready (state :: stack)) :
    visits ⟨state, stack, some node⟩ val.visits =
      .ok (reached state stack node (Node.filterVal node.children val)) := by
  match val with
  | .null | .bool _ | .decimal _ | .int _ | .string _ =>
    rw [MojObject.visits]
    exact visits_silent (congrArg Except.ok (scalar_skip ⟨state, stack, some node⟩ skips _)) rfl
  | .object props =>
    rw [MojObject.Counted] at counted
    have readyHere : Ready (entered node false :: state :: stack) :=
      ⟨ready, Or.inr ⟨rfl, List.cons_ne_nil _ _⟩⟩
    have walked := visits_walk props counted.2 (entered node false) state stack rfl rfl skips
      readyHere nofun (some node)
    have opened : visit ⟨state, stack, some node⟩ .beginObject =
        .ok (⟨entered node false, state :: stack, some node⟩, []) :=
      congrArg Except.ok (begin_reached inside skips node false .beginObject)
    rw [MojObject.visits, visits_silent opened walked, Node.filterVal]
    change Except.ok (ended (entered node false) state stack
      (Node.walk node.children props).isEmpty _) = _
    change Except.ok (ended (entered node false) state stack (Node.walk node.children props).isEmpty
      (visitsProps (Node.walk node.children props))) = _
    cases Node.walk node.children props with
    | nil => rfl
    | cons kept others => exact congrArg Except.ok (ended_entered node false state stack _)
  | .array vals =>
    rw [MojObject.Counted] at counted
    have readyHere : Ready (entered node true :: state :: stack) :=
      ⟨ready, Or.inr ⟨rfl, List.cons_ne_nil _ _⟩⟩
    have walked := visits_walkVals vals counted.2 (entered node true) state stack rfl rfl rfl skips
      readyHere nofun
    have opened : visit ⟨state, stack, some node⟩ .beginArray =
        .ok (⟨entered node true, state :: stack, some node⟩, []) :=
      congrArg Except.ok (begin_reached inside skips node true .beginArray)
    rw [MojObject.visits, visits_silent opened walked, Node.filterVal]
    change Except.ok (ended (entered node true) state stack (Node.filterVals node.children vals).isEmpty
      (visitsVals (Node.filterVals node.children vals))) = _
    cases Node.filterVals node.children vals with
    | nil => rfl
    | cons kept others => exact congrArg Except.ok (ended_entered node true state stack _)

theorem visits_walk (props : List (MojString × MojObject)) (counted : MojObject.CountedProps props)
    (inner state : State) (stack : List State) (hasNode : inner.node.isSome = true)
    (notArray : inner.array = false)
    (skips : state.includeCount = 0) (ready : Ready (inner :: state :: stack))
    (down : inner.included = true → ∀ outer ∈ state :: stack, outer.included = true)
    (next : Option Node) :
    visits ⟨inner, state :: stack, next⟩ (visitsProps props) =
      .ok (ended inner state stack (Node.walk inner.child props).isEmpty
        (visitsProps (Node.walk inner.child props))) := by
  match props with
  | [] =>
    have closed : visit ⟨inner, state :: stack, next⟩ .endObject =
        .ok (ended inner state stack true [.endObject]) :=
      end_reached skips down next .endObject
    rw [Node.walk, MojObject.visitsProps]
    exact visits_one closed
  | (name, val) :: rest =>
    rw [MojObject.CountedProps] at counted
    rcases Option.isSome_iff_exists.mp hasNode with ⟨own, isOwn⟩
    -- a name that is not let through leaves a state that differs in its children alone
    have onward : ∀ child, matchChild name inner =
        ({ inner with child := child, includeCount := 0 }, none) →
        visits ⟨inner, state :: stack, next⟩ (visitsProps ((name, val) :: rest)) =
          .ok (ended inner state stack (Node.walk child rest).isEmpty
            (visitsProps (Node.walk child rest))) := by
      intro child found
      have named : visit ⟨inner, state :: stack, next⟩ (.propName name) =
          .ok (⟨{ inner with child := child, includeCount := 0 }, state :: stack, none⟩, []) := by
        change propName _ name = _
        unfold propName
        rw [found]
        rfl
      rw [MojObject.visitsProps]
      exact visits_silent named (visits_append
        (visits_skip val (List.cons_ne_nil state stack) rfl)
        (visits_walk rest counted.2 { inner with child := child, includeCount := 0 } state stack
          hasNode notArray skips ready down none))
    cases left : Node.advance name inner.child with
    | nil =>
      have found : matchChild name inner = ({ inner with child := [], includeCount := 0 }, none) := by
        rw [matchChild, isOwn, left]
      rw [onward [] found, Node.walk, left]
    | cons node others =>
      by_cases named : node.propName = name
      · have kept : Node.walk inner.child ((name, val) :: rest) =
            if node.children.isEmpty then (name, val) :: Node.walk (node :: others) rest
            else
              match Node.filterVal node.children val with
              | none => Node.walk (node :: others) rest
              | some kept => (name, kept) :: Node.walk (node :: others) rest := by
          rw [Node.walk, left]
          exact if_neg (not_not.mpr named)
        -- once something of the object is included, so is all it lies in
        have later : ∀ next, visits ⟨mark { inner with child := node :: others, includeCount := 0 },
            (state :: stack).map mark, next⟩ (visitsProps rest) =
              .ok (⟨mark state, stack.map mark, inner.node⟩,
                visitsProps (Node.walk (node :: others) rest)) := by
          intro next
          have all : ∀ outer ∈ mark state :: stack.map mark, outer.included = true :=
            @included_of_mark (state :: stack)
          have ends := visits_walk rest counted.2
            (mark { inner with child := node :: others, includeCount := 0 }) (mark state)
            (stack.map mark) hasNode notArray skips
            ⟨@Ready.marked (state :: stack), Or.inl rfl⟩ (fun _ => all) next
          rw [ended_included rfl all] at ends
          exact ends
        by_cases leaf : node.children.isEmpty = true
        · -- the property comes through as it is
          have found : matchChild name inner =
              ({ inner with child := node :: others, includeCount := 1 }, none) := by
            rw [matchChild, isOwn, left]
            exact (if_neg (not_not.mpr named)).trans (if_pos leaf)
          have opens : visit ⟨inner, state :: stack, next⟩ (.propName name) =
              .ok (⟨mark { inner with child := node :: others, includeCount := 1 },
                (state :: stack).map mark, none⟩,
                flush (inner :: state :: stack) ++ [.propName name]) :=
            propName_include ready down next found ⟨rfl, rfl, rfl⟩ Nat.one_ne_zero
          have through : visits ⟨mark { inner with child := node :: others, includeCount := 1 },
              (state :: stack).map mark, none⟩ val.visits =
                .ok (⟨mark { inner with child := node :: others, includeCount := 0 },
                  (state :: stack).map mark, none⟩, val.visits) :=
            visits_whole val counted.1 (List.cons_ne_nil _ _) Nat.one_ne_zero
          rw [kept, if_pos leaf, MojObject.visitsProps,
            visits_cons opens (visits_append through (later none)), List.isEmpty_cons, ended_kept,
            MojObject.visitsProps, List.append_assoc, List.singleton_append]
        · have found : matchChild name inner =
              ({ inner with child := node :: others, includeCount := 0 }, some node) := by
            rw [matchChild, isOwn, left]
            exact (if_neg (not_not.mpr named)).trans (if_neg leaf)
          have advanced : visit ⟨inner, state :: stack, next⟩ (.propName name) =
              .ok (⟨{ inner with child := node :: others, includeCount := 0 }, state :: stack,
                some node⟩, []) := by
            change propName _ name = _
            unfold propName
            rw [found]
            rfl
          have inside : visits ⟨{ inner with child := node :: others, includeCount := 0 },
              state :: stack, some node⟩ val.visits =
                .ok (reached { inner with child := node :: others, includeCount := 0 }
                  (state :: stack) node (Node.filterVal node.children val)) :=
            visits_reached val counted.1 node (List.cons_ne_nil _ _) rfl ready
          rw [kept, if_neg leaf, MojObject.visitsProps]
          cases reaches : Node.filterVal node.children val with
          | none =>
            rw [reaches] at inside
            rw [visits_silent_eq advanced, visits_append_silent inside]
            exact visits_walk rest counted.2 { inner with child := node :: others, includeCount := 0 }
              state stack hasNode notArray skips ready down (some node)
          | some val =>
            rw [reaches] at inside
            have naming : (if inner.array then [] else [VisitorCall.propName node.propName]) =
                [.propName name] := by
              rw [notArray, named]
              rfl
            rw [visits_silent advanced (visits_append inside (later (some node))),
              List.isEmpty_cons, ended_kept, MojObject.visitsProps]
            change Except.ok (_, flush (inner :: state :: stack) ++
              ((if inner.array then [] else [VisitorCall.propName node.propName]) ++ val.visits) ++
                visitsProps _) = _
            rw [naming, List.append_assoc, List.append_assoc, List.singleton_append]
      · have found : matchChild name inner =
            ({ inner with child := node :: others, includeCount := 0 }, none) := by
          rw [matchChild, isOwn, left]
          exact if_pos named
        rw [onward (node :: others) found, Node.walk, left]
        simp only [named, ne_eq, not_false_eq_true, if_true]

theorem visits_walkVals (vals : List MojObject) (counted : MojObject.CountedVals vals)
    (inner state : State) (stack : List State) {node : Node} (hasNode : inner.node = some node)
    (isArray : inner.array = true) (innerSkips : inner.includeCount = 0)
    (skips : state.includeCount = 0) (ready : Ready (inner :: state :: stack))
    (down : inner.included = true → ∀ outer ∈ state :: stack, outer.included = true) :
    visits ⟨inner, state :: stack, some node⟩ (visitsVals vals) =
      .ok (ended inner state stack (Node.filterVals node.children vals).isEmpty
        (visitsVals (Node.filterVals node.children vals))) := by
  match vals with
  | [] =>
    have closed : visit ⟨inner, state :: stack, some node⟩ .endArray =
        .ok (ended inner state stack true [.endArray]) :=
      end_reached skips down (some node) .endArray
    rw [Node.filterVals, MojObject.visitsVals]
    exact visits_one closed
  | val :: rest =>
    rw [MojObject.CountedVals] at counted
    have inside := visits_reached val counted.1 node (List.cons_ne_nil state stack) innerSkips ready
    rw [MojObject.visitsVals, Node.filterVals]
    cases reaches : Node.filterVal node.children val with
    | none =>
      rw [reaches] at inside
      rw [visits_append_silent inside]
      exact visits_walkVals rest counted.2 inner state stack hasNode isArray innerSkips skips ready
        down
    | some val =>
      rw [reaches] at inside
      have all : ∀ outer ∈ mark state :: stack.map mark, outer.included = true :=
        @included_of_mark (state :: stack)
      have ends := visits_walkVals rest counted.2 (mark inner) (mark state) (stack.map mark) hasNode
        isArray innerSkips skips ⟨@Ready.marked (state :: stack), Or.inl rfl⟩ (fun _ => all)
      rw [ended_included rfl all] at ends
      have naming : (if inner.array then [] else [VisitorCall.propName node.propName]) = [] := by
        rw [isArray]
        rfl
      rw [visits_append inside ends, List.isEmpty_cons, ended_kept, MojObject.visitsVals, naming,
        List.append_assoc]
      rfl

end

end Reached

/-- What comes through of an object on the whole is what the walk over its properties keeps. -/
theorem visits_setVisitor (root : Node) (props : List (MojString × MojObject))
    (counted : MojObject.CountedProps props) :
    (setVisitor root).visits (.beginObject :: visitsProps props) =
      .ok (setVisitor root, .beginObject :: visitsProps (Node.walk root.children props)) := by
  have opened : (setVisitor root).visit .beginObject =
      .ok (⟨⟨some root, root.children, 0, true, false⟩, [⟨some root, [], 0, true, false⟩], some root⟩,
        [.beginObject]) := rfl
  have all : ∀ outer ∈ [State.mk (some root) [] 0 true false], outer.included = true := by
    intro outer there
    rw [List.mem_singleton.mp there]
  have walked := visits_walk props counted ⟨some root, root.children, 0, true, false⟩
    ⟨some root, [], 0, true, false⟩ [] rfl rfl rfl ⟨⟨trivial, Or.inl rfl⟩, Or.inl rfl⟩
    (fun _ => all) (some root)
  rw [ended_included rfl all] at walked
  exact visits_through opened walked

end MojObjectFilter

end Db8.Core
