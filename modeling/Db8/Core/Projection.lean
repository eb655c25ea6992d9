import Db8.Core.ObjectFilter
import Mathlib.Data.List.TakeWhile

/-!
# Projections

What an object is on some paths, and what the walk of a filter keeps of it. The walk goes through the
selected names once, in the order in which they were first met, so it misses a property that comes after
one of a greater name there.
-/

set_option autoImplicit false

namespace Db8.Core

open Db8.Bytes

def below (name : MojString) (paths : List (List MojString)) : List (List MojString) :=
  paths.filterMap fun path => if path.head? = some name then some path.tail else none

def heads (paths : List (List MojString)) : List MojString :=
  paths.foldl (fun done path =>
    match path.head? with
    | none => done
    | some part => if part ∈ done then done else done ++ [part]) []

/-- The paths before the first through a property begin with lesser names. -/
def clear (paths : List (List MojString)) (name : MojString) : Bool :=
  (paths.takeWhile fun path => decide (path.head? ≠ some name)).all fun path =>
    path.head?.all fun part => decide (part.map Subtype.val < name.map Subtype.val)

namespace MojObject

mutual

/-- The projection of a value on some paths, through arrays element by element. -/
def project (paths : List (List MojString)) : MojObject → Option MojObject
  | .object props =>
    if [] ∈ paths then some (.object props)
    else
      match projectProps paths props with
      | [] => none
      | kept :: rest => some (.object (kept :: rest))
  | .array vals =>
    if [] ∈ paths then some (.array vals)
    else
      match projectVals paths vals with
      | [] => none
      | kept :: rest => some (.array (kept :: rest))
  | val => if [] ∈ paths then some val else none

def projectProps (paths : List (List MojString)) :
    List (MojString × MojObject) → List (MojString × MojObject)
  | [] => []
  | (name, val) :: rest =>
    match project (below name paths) val with
    | none => projectProps paths rest
    | some kept => (name, kept) :: projectProps paths rest

def projectVals (paths : List (List MojString)) : List MojObject → List MojObject
  | [] => []
  | val :: rest =>
    match project paths val with
    | none => projectVals paths rest
    | some kept => kept :: projectVals paths rest

end

mutual

/-- Nothing of the projection of a value is behind a greater name. -/
def unmissed (paths : List (List MojString)) : MojObject → Bool
  | .object props => decide ([] ∈ paths) || unmissedProps paths props
  | .array vals => decide ([] ∈ paths) || unmissedVals paths vals
  | _ => true

def unmissedProps (paths : List (List MojString)) : List (MojString × MojObject) → Bool
  | [] => true
  | (name, val) :: rest =>
    (!(project (below name paths) val).isSome || clear paths name) &&
      unmissed (below name paths) val && unmissedProps paths rest

def unmissedVals (paths : List (List MojString)) : List MojObject → Bool
  | [] => true
  | val :: rest => unmissed paths val && unmissedVals paths rest

end

end MojObject

def Diverging (paths : List (List MojString)) : Prop :=
  paths.Pairwise fun one other => ¬ one <+: other ∧ ¬ other <+: one

section Heads

theorem below_append (name : MojString) (front back : List (List MojString)) :
    below name (front ++ back) = below name front ++ below name back :=
  List.filterMap_append

variable {paths : List (List MojString)} {name : MojString}

theorem mem_below {rest : List MojString} : rest ∈ below name paths ↔ name :: rest ∈ paths := by
  unfold below
  rw [List.mem_filterMap]
  constructor
  · rintro ⟨path, there, through⟩
    cases path with
    | nil => cases through
    | cons part tail =>
      split_ifs at through with same
      cases through
      rw [← Option.some.inj same]
      exact there
  · intro there
    exact ⟨name :: rest, there, if_pos rfl⟩

theorem heads_snoc (paths : List (List MojString)) (path : List MojString) :
    heads (paths ++ [path]) =
      match path.head? with
      | none => heads paths
      | some part => if part ∈ heads paths then heads paths else heads paths ++ [part] := by
  unfold heads
  rw [List.foldl_append]
  rfl

theorem mem_heads : name ∈ heads paths ↔ ∃ path ∈ paths, path.head? = some name := by
  induction paths using List.reverseRecOn with
  | nil =>
    constructor
    · intro impossible
      cases impossible
    · rintro ⟨path, impossible, _⟩
      cases impossible
  | append_singleton paths path ih =>
    have members : (∃ other ∈ paths ++ [path], other.head? = some name) ↔
        (∃ other ∈ paths, other.head? = some name) ∨ path.head? = some name := by
      simp only [List.mem_append, List.mem_singleton, or_and_right, exists_or, exists_eq_left]
    rw [members, heads_snoc, ← ih]
    cases path.head? with
    | none => simp only [reduceCtorEq, or_false]
    | some part =>
      simp only [Option.some.injEq]
      split_ifs with known
      · constructor
        · exact Or.inl
        · rintro (there | rfl)
          · exact there
          · exact known
      · rw [List.mem_append, List.mem_singleton, eq_comm]

theorem heads_append (front back : List (List MojString)) :
    ∃ more, heads (front ++ back) = heads front ++ more := by
  induction back using List.reverseRecOn with
  | nil => exact ⟨[], by rw [List.append_nil, List.append_nil]⟩
  | append_singleton back path ih =>
    rcases ih with ⟨more, same⟩
    rw [← List.append_assoc, heads_snoc, same]
    cases path.head? with
    | none => exact ⟨more, rfl⟩
    | some part =>
      simp only
      split_ifs
      · exact ⟨more, rfl⟩
      · exact ⟨more ++ [part], List.append_assoc _ _ _⟩

theorem split_at_first {α : Type} {front : α → Bool} {list : List α}
    (met : ∃ found ∈ list, front found = false) :
    ∃ found rest, list = list.takeWhile front ++ found :: rest ∧ front found = false := by
  induction list with
  | nil =>
    rcases met with ⟨_, impossible, _⟩
    cases impossible
  | cons head list ih =>
    cases goes : front head with
    | false =>
      refine ⟨head, list, ?_, goes⟩
      rw [List.takeWhile_cons_of_neg (by rw [goes]; exact Bool.false_ne_true)]
      rfl
    | true =>
      rcases met with ⟨found, there, stops⟩
      have later : found ∈ list := by
        rcases List.mem_cons.mp there with rfl | later
        · rw [goes] at stops
          cases stops
        · exact later
      rcases ih ⟨found, later, stops⟩ with ⟨first, rest, split, ends⟩
      refine ⟨first, rest, ?_, ends⟩
      rw [List.takeWhile_cons_of_pos goes, List.cons_append, ← split]

theorem heads_split (there : name ∈ heads paths) :
    ∃ back, heads paths =
        heads (paths.takeWhile fun path => decide (path.head? ≠ some name)) ++ name :: back ∧
      name ∉ heads (paths.takeWhile fun path => decide (path.head? ≠ some name)) := by
  have met : ∃ path ∈ paths, decide (path.head? ≠ some name) = false := by
    rcases mem_heads.mp there with ⟨path, inside, head⟩
    exact ⟨path, inside, by rw [head]; simp⟩
  rcases split_at_first met with ⟨path, rest, split, through⟩
  have head : path.head? = some name := by simpa using through
  have unmet : name ∉ heads (paths.takeWhile fun path => decide (path.head? ≠ some name)) := by
    intro earlier
    rcases mem_heads.mp earlier with ⟨other, inside, otherHead⟩
    have differs := List.mem_takeWhile_imp inside
    rw [otherHead] at differs
    simp at differs
  rcases heads_append ((paths.takeWhile fun path => decide (path.head? ≠ some name)) ++ [path]) rest
    with ⟨more, whole⟩
  rw [List.append_assoc, List.singleton_append, ← split, heads_snoc, head] at whole
  simp only [unmet, if_false] at whole
  refine ⟨more, ?_, unmet⟩
  rw [whole, List.append_assoc, List.singleton_append]

theorem takeWhile_heads (there : name ∈ heads paths) :
    (heads paths).takeWhile (fun part => decide (part ≠ name)) =
      heads (paths.takeWhile fun path => decide (path.head? ≠ some name)) := by
  rcases heads_split there with ⟨back, split, unmet⟩
  rw [split, List.takeWhile_append_of_pos, List.takeWhile_cons_of_neg (by simp), List.append_nil]
  intro part before
  rw [decide_eq_true_iff]
  rintro rfl
  exact unmet before

theorem clear_iff (there : name ∈ heads paths) :
    clear paths name = true ↔
      ∀ part ∈ (heads paths).takeWhile (fun part => decide (part ≠ name)),
        part.map Subtype.val < name.map Subtype.val := by
  rw [takeWhile_heads there]
  unfold clear
  rw [List.all_eq_true]
  constructor
  · intro lesser part before
    rcases mem_heads.mp before with ⟨path, inside, head⟩
    have less := lesser path inside
    rw [head] at less
    exact of_decide_eq_true less
  · intro lesser path inside
    cases head : path.head? with
    | none => rfl
    | some part => exact decide_eq_true (lesser part (mem_heads.mpr ⟨path, inside, head⟩))

end Heads

/-! ### The tree of the paths -/

mutual

def Node.Stands (paths : List (List MojString)) : Node → Prop
  | .mk name [] => [] ∈ below name paths
  | .mk name (child :: children) =>
    [] ∉ below name paths ∧
      (child :: children).map Node.propName = heads (below name paths) ∧
      Node.AllStand (below name paths) (child :: children)

def Node.AllStand (paths : List (List MojString)) : List Node → Prop
  | [] => True
  | node :: nodes => Node.Stands paths node ∧ Node.AllStand paths nodes

end

def Represents (nodes : List Node) (paths : List (List MojString)) : Prop :=
  nodes.map Node.propName = heads paths ∧ Node.AllStand paths nodes

section Building

variable {paths : List (List MojString)}

theorem allStand_iff {nodes : List Node} :
    Node.AllStand paths nodes ↔ ∀ node ∈ nodes, Node.Stands paths node := by
  induction nodes with
  | nil => simp [Node.AllStand]
  | cons node nodes ih => rw [Node.AllStand, ih, List.forall_mem_cons]

theorem stands_iff {node : Node} :
    Node.Stands paths node ↔
      (node.children = [] ∧ [] ∈ below node.propName paths) ∨
        (node.children ≠ [] ∧ [] ∉ below node.propName paths ∧
          Represents node.children (below node.propName paths)) := by
  match node with
  | .mk name [] => simp [Node.Stands, Node.children, Node.propName]
  | .mk name (child :: children) =>
    simp [Node.Stands, Node.children, Node.propName, Represents]

theorem stands_congr {node : Node} {paths others : List (List MojString)}
    (same : below node.propName paths = below node.propName others) :
    Node.Stands paths node ↔ Node.Stands others node := by
  rw [stands_iff, stands_iff, same]

variable (part : MojString)

theorem chain_propName (rest : List MojString) : (Node.chain part rest).propName = part := by
  cases rest <;> rfl

theorem below_same (rest : List MojString) : below part [part :: rest] = [rest] := by
  unfold below
  simp

theorem below_other {name part : MojString} (apart : part ≠ name) (rest : List MojString) :
    below name [part :: rest] = [] := by
  unfold below
  simp [apart]

theorem represents_chain (rest : List MojString) :
    Represents [Node.chain part rest] [part :: rest] := by
  induction rest generalizing part with
  | nil => exact ⟨rfl, ⟨by rw [Node.chain, Node.Stands, below_same]; exact List.mem_singleton_self _,
      trivial⟩⟩
  | cons next rest ih =>
    refine ⟨rfl, ⟨?_, trivial⟩⟩
    rw [Node.chain, Node.Stands, below_same]
    exact ⟨fun impossible => (List.cons_ne_nil next rest) (List.mem_singleton.mp impossible).symm,
      (ih next).1, (ih next).2⟩

theorem heads_nodup (paths : List (List MojString)) : (heads paths).Nodup := by
  induction paths using List.reverseRecOn with
  | nil => exact List.nodup_nil
  | append_singleton paths path ih =>
    rw [heads_snoc]
    cases path.head? with
    | none => exact ih
    | some part =>
      simp only
      split_ifs with known
      · exact ih
      · exact List.nodup_append.mpr ⟨ih, List.pairwise_singleton _ part,
          fun one there other last same => known (List.mem_singleton.mp last ▸ same ▸ there)⟩

def Node.grownBy (grow : List Node → List Node) : Node → Node
  | .mk name [] => .mk name []
  | .mk name (child :: children) => .mk name (grow (child :: children))

theorem grownBy_propName (grow : List Node → List Node) (node : Node) :
    (node.grownBy grow).propName = node.propName := by
  rcases node with ⟨name, _ | ⟨child, children⟩⟩ <;> rfl

theorem addPart_cons (added : Node) (grow : List Node → List Node) (node : Node) (nodes : List Node) :
    Node.addPart part added grow (node :: nodes) =
      if part = node.propName then node.grownBy grow :: nodes
      else node :: Node.addPart part added grow nodes := by
  rcases node with ⟨name, _ | ⟨child, children⟩⟩ <;> rfl

theorem mem_addPart {part : MojString} {added : Node} {grow : List Node → List Node}
    {nodes : List Node} (nodup : (nodes.map Node.propName).Nodup) {node : Node}
    (there : node ∈ Node.addPart part added grow nodes) :
    (node ∈ nodes ∧ node.propName ≠ part) ∨
      (part ∉ nodes.map Node.propName ∧ node = added) ∨
      ∃ old ∈ nodes, old.propName = part ∧ node = old.grownBy grow := by
  induction nodes with
  | nil => exact Or.inr (Or.inl ⟨List.not_mem_nil, List.mem_singleton.mp there⟩)
  | cons first nodes ih =>
    rcases List.nodup_cons.mp nodup with ⟨once, rest⟩
    rw [addPart_cons] at there
    split_ifs at there with same
    · rcases List.mem_cons.mp there with here | inside
      · exact Or.inr (Or.inr ⟨first, List.mem_cons_self, same.symm, here⟩)
      · refine Or.inl ⟨List.mem_cons_of_mem _ inside, ?_⟩
        intro named
        exact once (named.trans same ▸ List.mem_map_of_mem inside)
    · rcases List.mem_cons.mp there with here | inside
      · exact Or.inl ⟨here ▸ List.mem_cons_self, fun named => same (here ▸ named).symm⟩
      · rcases ih rest inside with ⟨kept, apart⟩ | ⟨absent, isAdded⟩ | ⟨old, kept, named, grown⟩
        · exact Or.inl ⟨List.mem_cons_of_mem _ kept, apart⟩
        · refine Or.inr (Or.inl ⟨?_, isAdded⟩)
          rw [List.map_cons, List.mem_cons]
          exact fun either => either.elim same absent
        · exact Or.inr (Or.inr ⟨old, List.mem_cons_of_mem _ kept, named, grown⟩)

theorem names_addPart {added : Node} (named : added.propName = part) (grow : List Node → List Node)
    (nodes : List Node) :
    (Node.addPart part added grow nodes).map Node.propName =
      if part ∈ nodes.map Node.propName then nodes.map Node.propName
      else nodes.map Node.propName ++ [part] := by
  induction nodes with
  | nil => exact congrArg (fun name => [name]) named
  | cons first nodes ih =>
    rw [addPart_cons, List.map_cons]
    by_cases same : part = first.propName
    · rw [if_pos same, if_pos (same ▸ List.mem_cons_self), List.map_cons, grownBy_propName]
    · rw [if_neg same, List.map_cons, ih]
      by_cases known : part ∈ nodes.map Node.propName
      · rw [if_pos known, if_pos (List.mem_cons_of_mem _ known)]
      · rw [if_neg known, if_neg fun there => (List.mem_cons.mp there).elim same known,
          List.cons_append]

theorem below_nil_of_unmet {name : MojString}
    (unmet : name ∉ heads paths) : below name paths = [] := by
  apply List.eq_nil_iff_forall_not_mem.mpr
  intro rest there
  exact unmet (mem_heads.mpr ⟨name :: rest, mem_below.mp there, rfl⟩)

theorem represents_addPath {path : List MojString} {nodes : List Node} (nonempty : path ≠ [])
    (apart : ∀ other ∈ paths, ¬ other <+: path ∧ ¬ path <+: other)
    (represents : Represents nodes paths) :
    Represents (Node.addPath path nodes) (paths ++ [path]) := by
  induction path generalizing nodes paths with
  | nil => exact absurd rfl nonempty
  | cons part rest ih =>
    rcases represents with ⟨names, stand⟩
    rw [allStand_iff] at stand
    rw [Node.addPath]
    constructor
    · rw [names_addPart part (chain_propName part rest), heads_snoc, names]
      rfl
    · rw [allStand_iff]
      intro node there
      rcases mem_addPart (names ▸ heads_nodup paths) there with
        ⟨kept, other⟩ | ⟨absent, rfl⟩ | ⟨old, kept, named, rfl⟩
      · apply (stands_congr _).mp (stand node kept)
        rw [below_append, below_other other.symm, List.append_nil]
      · apply (stands_congr _).mp (represents_chain part rest).2.1
        rw [names] at absent
        rw [chain_propName, below_append, below_nil_of_unmet absent, List.nil_append]
      · have further : rest ≠ [] := by
          rintro rfl
          have met : part ∈ heads paths := by
            rw [← names, ← named]
            exact List.mem_map_of_mem kept
          rcases mem_heads.mp met with ⟨other, inside, head⟩
          rw [List.eq_cons_of_mem_head? head] at inside
          exact (apart _ inside).2 (List.cons_prefix_cons.mpr ⟨rfl, List.nil_prefix⟩)
        have inner : ∀ other ∈ below part paths, ¬ other <+: rest ∧ ¬ rest <+: other := by
          intro other inside
          rcases apart _ (mem_below.mp inside) with ⟨notBefore, notBehind⟩
          exact ⟨fun goes => notBefore (List.cons_prefix_cons.mpr ⟨rfl, goes⟩),
            fun goes => notBehind (List.cons_prefix_cons.mpr ⟨rfl, goes⟩)⟩
        have more : below part (paths ++ [part :: rest]) = below part paths ++ [rest] := by
          rw [below_append, below_same]
        rcases stands_iff.mp (stand old kept) with ⟨_, ends⟩ | ⟨parent, goes, children⟩
        · rw [named] at ends
          exact absurd List.nil_prefix (inner [] ends).1
        · rw [named] at goes children
          have grown := ih further inner children
          rw [← more] at grown
          have grownNames := grown.1
          rcases old with ⟨name, _ | ⟨child, others⟩⟩
          · exact absurd rfl parent
          · have same : name = part := named
            rw [stands_iff, ← same]
            rw [← same] at grown grownNames more
            refine Or.inr ⟨?_, ?_, grown⟩
            · intro none
              have met := mem_heads.mpr ⟨rest, more ▸ List.mem_append_right _
                (List.mem_singleton_self _), List.head?_eq_some_head further⟩
              rw [← grownNames] at met
              change _ ∈ (Node.addPath rest (child :: others)).map Node.propName at met
              change Node.addPath rest (child :: others) = [] at none
              rw [none] at met
              cases met
            · change [] ∉ below name (paths ++ [name :: rest])
              rw [more, same]
              intro ends
              rcases List.mem_append.mp ends with earlier | last
              · exact goes earlier
              · exact further (List.mem_singleton.mp last).symm

theorem represents_init (separate : Diverging paths)
    (nonempty : ∀ path ∈ paths, path ≠ []) : Represents (Node.init paths).children paths := by
  induction paths using List.reverseRecOn with
  | nil => exact ⟨rfl, trivial⟩
  | append_singleton paths path ih =>
    unfold Diverging at separate
    rw [List.pairwise_append] at separate
    have built : (Node.init (paths ++ [path])).children =
        Node.addPath path (Node.init paths).children := by
      unfold Node.init
      rw [List.foldl_append]
      rfl
    rw [built]
    apply represents_addPath (nonempty path (List.mem_append_right _ (List.mem_singleton_self _)))
    · exact fun other inside => separate.2.2 other inside path (List.mem_singleton_self _)
    · exact ih separate.1 fun other inside => nonempty other (List.mem_append_left _ inside)

end Building

/-! ### The walk and the projection -/

section Walking

open MojObject

def Node.walkOne (nodes : List Node) (name : MojString) (val : MojObject) : Option MojObject :=
  match Node.advance name nodes with
  | [] => none
  | node :: _ =>
    if node.propName ≠ name then none
    else if node.children.isEmpty then some val
    else Node.filterVal node.children val

theorem advance_cons (name : MojString) (node : Node) (nodes : List Node) :
    Node.advance name (node :: nodes) =
      if node.propName.map Subtype.val < name.map Subtype.val then Node.advance name nodes
      else node :: nodes := by
  unfold Node.advance
  rw [List.dropWhile_cons]
  simp only [decide_eq_true_eq]

theorem advance_advance {name later : MojString}
    (before : name.map Subtype.val < later.map Subtype.val) (nodes : List Node) :
    Node.advance later (Node.advance name nodes) = Node.advance later nodes := by
  induction nodes with
  | nil => rfl
  | cons node nodes ih =>
    rw [advance_cons name]
    split_ifs with passed
    · rw [ih, advance_cons later, if_pos (lt_trans passed before)]
    · rfl

theorem walkOne_advance {name later : MojString}
    (before : name.map Subtype.val < later.map Subtype.val) (nodes : List Node) (val : MojObject) :
    Node.walkOne (Node.advance name nodes) later val = Node.walkOne nodes later val := by
  unfold Node.walkOne
  rw [advance_advance before]

variable (nodes : List Node)

theorem walk_cons (name : MojString) (val : MojObject) (rest : List (MojString × MojObject)) :
    Node.walk nodes ((name, val) :: rest) =
      match Node.walkOne nodes name val with
      | none => Node.walk (Node.advance name nodes) rest
      | some kept => (name, kept) :: Node.walk (Node.advance name nodes) rest := by
  rw [Node.walk, Node.walkOne]
  cases Node.advance name nodes with
  | nil => rfl
  | cons node others =>
    simp only
    split_ifs
    · rfl
    · rfl
    · rfl

theorem walk_sorted {props : List (MojString × MojObject)} (sorted : Sorted props) :
    Node.walk nodes props =
      props.filterMap fun prop => (Node.walkOne nodes prop.1 prop.2).map (Prod.mk prop.1) := by
  induction props generalizing nodes with
  | nil => rfl
  | cons head rest ih =>
    rcases head with ⟨name, val⟩
    rcases sorted_cons.mp sorted with ⟨first, later⟩
    have onward : Node.walk (Node.advance name nodes) rest = rest.filterMap fun prop =>
        (Node.walkOne nodes prop.1 prop.2).map (Prod.mk prop.1) := by
      rw [ih (Node.advance name nodes) later]
      apply List.filterMap_congr
      intro prop there
      rw [walkOne_advance (first prop there)]
    rw [walk_cons, List.filterMap_cons, onward]
    cases Node.walkOne nodes name val with
    | none => rfl
    | some kept => rfl

theorem sorted_keep {props : List (MojString × MojObject)} (sorted : Sorted props)
    (keep : MojString → MojObject → Option MojObject) :
    Sorted (props.filterMap fun prop => (keep prop.1 prop.2).map (Prod.mk prop.1)) := by
  unfold MojObject.Sorted at sorted ⊢
  rw [List.pairwise_map] at sorted ⊢
  rw [List.pairwise_filterMap]
  apply sorted.imp
  intro one other before first isFirst second isSecond
  rcases Option.map_eq_some_iff.mp isFirst with ⟨_, _, rfl⟩
  rcases Option.map_eq_some_iff.mp isSecond with ⟨_, _, rfl⟩
  exact before

theorem filterVals_eq (vals : List MojObject) :
    Node.filterVals nodes vals = vals.filterMap (Node.filterVal nodes) := by
  induction vals with
  | nil => rfl
  | cons val rest ih =>
    rw [Node.filterVals, List.filterMap_cons, ih]
    cases Node.filterVal nodes val with
    | none => rfl
    | some kept => rfl

theorem projectProps_eq (paths : List (List MojString)) (props : List (MojString × MojObject)) :
    projectProps paths props =
      props.filterMap fun prop => (project (below prop.1 paths) prop.2).map (Prod.mk prop.1) := by
  induction props with
  | nil => rfl
  | cons head rest ih =>
    rcases head with ⟨name, val⟩
    rw [projectProps, List.filterMap_cons, ih]
    cases project (below name paths) val with
    | none => rfl
    | some kept => rfl

theorem projectVals_eq (paths : List (List MojString)) (vals : List MojObject) :
    projectVals paths vals = vals.filterMap (project paths) := by
  induction vals with
  | nil => rfl
  | cons val rest ih =>
    rw [projectVals, List.filterMap_cons, ih]
    cases project paths val with
    | none => rfl
    | some kept => rfl

theorem unmissedProps_iff (paths : List (List MojString)) (props : List (MojString × MojObject)) :
    unmissedProps paths props = true ↔ ∀ prop ∈ props,
      (project (below prop.1 paths) prop.2 ≠ none → clear paths prop.1 = true) ∧
        unmissed (below prop.1 paths) prop.2 = true := by
  induction props with
  | nil => simp [unmissedProps]
  | cons head rest ih =>
    rcases head with ⟨name, val⟩
    rw [unmissedProps, Bool.and_eq_true, ih, List.forall_mem_cons, Bool.and_eq_true, Bool.or_eq_true,
      Bool.not_eq_true', Option.isSome_eq_false_iff, Option.isNone_iff_eq_none, or_iff_not_imp_left]

theorem unmissedVals_iff (paths : List (List MojString)) (vals : List MojObject) :
    unmissedVals paths vals = true ↔ ∀ val ∈ vals, unmissed paths val = true := by
  induction vals with
  | nil => simp [unmissedVals]
  | cons val rest ih => rw [unmissedVals, Bool.and_eq_true, ih, List.forall_mem_cons]

variable {paths : List (List MojString)}

theorem project_of_nil (ends : [] ∈ paths) (val : MojObject) : project paths val = some val := by
  cases val <;> rw [project, if_pos ends]
  all_goals nofun

theorem unmissed_of_nil (ends : [] ∈ paths) (val : MojObject) : unmissed paths val = true := by
  cases val with
  | object props =>
    rw [unmissed, decide_eq_true ends]
    rfl
  | array vals =>
    rw [unmissed, decide_eq_true ends]
    rfl
  | _ => rw [unmissed] <;> nofun

/-- Of two ways to keep some of a list, one keeping no more than the other, the results are the same
just if both keep the same of every element. -/
theorem filterMap_eq_iff {α β : Type} {less more : α → Option β} {list : List α}
    (fewer : ∀ item ∈ list, more item = none → less item = none) :
    list.filterMap less = list.filterMap more ↔ ∀ item ∈ list, less item = more item := by
  have shorter : ∀ {rest : List α}, (∀ item ∈ rest, more item = none → less item = none) →
      (rest.filterMap less).length ≤ (rest.filterMap more).length := by
    intro rest fewer
    induction rest with
    | nil => exact le_refl 0
    | cons item rest ih =>
      have later := ih fun other there => fewer other (List.mem_cons_of_mem _ there)
      have here := fewer item List.mem_cons_self
      rw [List.filterMap_cons, List.filterMap_cons]
      cases kept : more item with
      | none =>
        rw [here kept]
        exact later
      | some val =>
        cases less item with
        | none => exact le_trans later (Nat.le_succ _)
        | some other => exact Nat.succ_le_succ later
  refine ⟨?_, List.filterMap_congr⟩
  induction list with
  | nil => exact fun _ item impossible => nomatch impossible
  | cons item rest ih =>
    have laterFewer := fun other there => fewer other (List.mem_cons_of_mem _ there)
    have here := fewer item List.mem_cons_self
    rw [List.filterMap_cons, List.filterMap_cons, List.forall_mem_cons]
    intro same
    cases kept : more item with
    | none =>
      rw [kept, here kept] at same
      exact ⟨here kept, ih laterFewer same⟩
    | some val =>
      rw [kept] at same
      cases held : less item with
      | none =>
        rw [held] at same
        have lengths := shorter laterFewer
        change rest.filterMap less = val :: rest.filterMap more at same
        rw [same] at lengths
        exact absurd lengths (Nat.not_succ_le_self _)
      | some other =>
        rw [held] at same
        rcases List.cons.inj same with ⟨rfl, rest⟩
        exact ⟨rfl, ih laterFewer rest⟩

mutual

theorem project_nothing (val : MojObject) : project [] val = none := by
  match val with
  | .object props => rw [project, if_neg List.not_mem_nil, projectProps_nothing props]
  | .array vals => rw [project, if_neg List.not_mem_nil, projectVals_nothing vals]
  | .null | .bool _ | .int _ | .decimal _ | .string _ =>
    rw [project, if_neg List.not_mem_nil] <;> nofun

theorem projectProps_nothing (props : List (MojString × MojObject)) : projectProps [] props = [] := by
  match props with
  | [] => rfl
  | (name, val) :: rest =>
    have none : below name [] = [] := rfl
    rw [projectProps, none, project_nothing val]
    exact projectProps_nothing rest

theorem projectVals_nothing (vals : List MojObject) : projectVals [] vals = [] := by
  match vals with
  | [] => rfl
  | val :: rest =>
    rw [projectVals, project_nothing val]
    exact projectVals_nothing rest

end

mutual

theorem unmissed_of_none (paths : List (List MojString)) (val : MojObject)
    (nothing : project paths val = none) : unmissed paths val = true := by
  match val with
  | .object props =>
    rw [project] at nothing
    split_ifs at nothing with ends
    rw [unmissed, decide_eq_false ends, Bool.false_or]
    apply unmissedProps_of_none paths props
    cases kept : projectProps paths props with
    | nil => rfl
    | cons head rest =>
      rw [kept] at nothing
      cases nothing
  | .array vals =>
    rw [project] at nothing
    split_ifs at nothing with ends
    rw [unmissed, decide_eq_false ends, Bool.false_or]
    apply unmissedVals_of_none paths vals
    cases kept : projectVals paths vals with
    | nil => rfl
    | cons head rest =>
      rw [kept] at nothing
      cases nothing
  | .null | .bool _ | .int _ | .decimal _ | .string _ =>
    rw [unmissed] <;> nofun

theorem unmissedProps_of_none (paths : List (List MojString)) (props : List (MojString × MojObject))
    (nothing : projectProps paths props = []) : unmissedProps paths props = true := by
  match props with
  | [] => rfl
  | (name, val) :: rest =>
    rw [projectProps] at nothing
    cases kept : project (below name paths) val with
    | some kept =>
      rw [kept] at nothing
      cases nothing
    | none =>
      rw [kept] at nothing
      rw [unmissedProps, kept, unmissed_of_none _ val kept,
        unmissedProps_of_none paths rest nothing]
      rfl

theorem unmissedVals_of_none (paths : List (List MojString)) (vals : List MojObject)
    (nothing : projectVals paths vals = []) : unmissedVals paths vals = true := by
  match vals with
  | [] => rfl
  | val :: rest =>
    rw [projectVals] at nothing
    cases kept : project paths val with
    | some kept =>
      rw [kept] at nothing
      cases nothing
    | none =>
      rw [kept] at nothing
      rw [unmissedVals, unmissed_of_none paths val kept, unmissedVals_of_none paths rest nothing]
      rfl

end

/-- What the walk keeps of a value is no more than its projection, and all of it just if nothing is
missed. -/
def Keeps (kept projected : Option MojObject) (unmissed : Prop) : Prop :=
  (projected = none → kept = none) ∧ (kept = projected ↔ unmissed)

theorem advance_met (name : MojString) (nodes : List Node) :
    (∃ node others, Node.advance name nodes = node :: others ∧ node.propName = name ∧ node ∈ nodes) ↔
      name ∈ nodes.map Node.propName ∧
        ∀ part ∈ (nodes.map Node.propName).takeWhile (fun part => decide (part ≠ name)),
          part.map Subtype.val < name.map Subtype.val := by
  induction nodes with
  | nil =>
    constructor
    · rintro ⟨_, _, impossible, _⟩
      cases impossible
    · rintro ⟨impossible, _⟩
      cases impossible
  | cons first nodes ih =>
    rw [advance_cons, List.map_cons]
    by_cases passed : first.propName.map Subtype.val < name.map Subtype.val
    · have other : first.propName ≠ name := by
        rintro rfl
        exact lt_irrefl _ passed
      rw [if_pos passed, List.takeWhile_cons_of_pos (by simpa using other), List.forall_mem_cons,
        List.mem_cons, or_iff_right other.symm]
      constructor
      · rintro ⟨node, others, met, named, there⟩
        have inside : node ∈ nodes :=
          List.dropWhile_sublist _ |>.subset (met ▸ List.mem_cons_self)
        rcases ih.mp ⟨node, others, met, named, inside⟩ with ⟨known, lesser⟩
        exact ⟨known, passed, lesser⟩
      · rintro ⟨known, _, lesser⟩
        rcases ih.mpr ⟨known, lesser⟩ with ⟨node, others, met, named, there⟩
        exact ⟨node, others, met, named, List.mem_cons_of_mem _ there⟩
    · rw [if_neg passed]
      by_cases same : first.propName = name
      · rw [List.takeWhile_cons_of_neg (by simp [same])]
        refine ⟨fun _ => ⟨same ▸ List.mem_cons_self, fun part impossible => nomatch impossible⟩, ?_⟩
        exact fun _ => ⟨first, nodes, rfl, same, List.mem_cons_self⟩
      · rw [List.takeWhile_cons_of_pos (by simpa using same), List.forall_mem_cons]
        constructor
        · rintro ⟨node, others, met, named, _⟩
          cases met
          exact absurd named same
        · rintro ⟨_, impossible, _⟩
          exact absurd impossible passed

theorem advance_represents {nodes : List Node} (represents : Represents nodes paths)
    (name : MojString) :
    (∃ node others, Node.advance name nodes = node :: others ∧ node.propName = name ∧ node ∈ nodes) ↔
      name ∈ heads paths ∧ clear paths name = true := by
  rw [advance_met, represents.1]
  apply and_congr_right
  intro there
  exact (clear_iff there).symm

def someObject : List (MojString × MojObject) → Option MojObject
  | [] => none
  | head :: rest => some (.object (head :: rest))

def someArray : List MojObject → Option MojObject
  | [] => none
  | head :: rest => some (.array (head :: rest))

theorem someObject_injective : Function.Injective someObject := by
  intro one other same
  cases one with
  | nil =>
    cases other with
    | nil => rfl
    | cons head rest => cases same
  | cons first more =>
    cases other with
    | nil => cases same
    | cons head rest =>
      cases same
      rfl

theorem someArray_injective : Function.Injective someArray := by
  intro one other same
  cases one with
  | nil =>
    cases other with
    | nil => rfl
    | cons head rest => cases same
  | cons first more =>
    cases other with
    | nil => cases same
    | cons head rest =>
      cases same
      rfl

theorem filterVal_object (props : List (MojString × MojObject)) :
    Node.filterVal nodes (.object props) = someObject (Node.walk nodes props) := by
  rw [Node.filterVal]
  cases Node.walk nodes props <;> rfl

theorem filterVal_array (vals : List MojObject) :
    Node.filterVal nodes (.array vals) = someArray (Node.filterVals nodes vals) := by
  rw [Node.filterVal]
  cases Node.filterVals nodes vals <;> rfl

theorem project_object (goes : [] ∉ paths) (props : List (MojString × MojObject)) :
    project paths (.object props) = someObject (projectProps paths props) := by
  rw [project, if_neg goes]
  cases projectProps paths props <;> rfl

theorem project_array (goes : [] ∉ paths) (vals : List MojObject) :
    project paths (.array vals) = someArray (projectVals paths vals) := by
  rw [project, if_neg goes]
  cases projectVals paths vals <;> rfl

theorem Keeps.wrap {α β : Type} {wrap : List α → Option MojObject} (injective : wrap.Injective)
    (empty : wrap [] = none) {list : List β} {less more : β → Option α} {unmissed : β → Prop}
    (each : ∀ item ∈ list, (more item = none → less item = none) ∧ (less item = more item ↔ unmissed item)) :
    Keeps (wrap (list.filterMap less)) (wrap (list.filterMap more)) (∀ item ∈ list, unmissed item) := by
  have fewer := fun item there => (each item there).1
  constructor
  · intro nothing
    have none := List.filterMap_eq_nil_iff.mp (injective (nothing.trans empty.symm))
    rw [List.filterMap_eq_nil_iff.mpr fun item there => fewer item there (none item there), empty]
  · rw [injective.eq_iff, filterMap_eq_iff fewer]
    exact forall₂_congr fun item there => (each item there).2

mutual

theorem filterVal_keeps (val : MojObject) (wellFormed : val.WellFormed) {nodes : List Node}
    {paths : List (List MojString)} (represents : Represents nodes paths) (goes : [] ∉ paths) :
    Keeps (Node.filterVal nodes val) (project paths val) (unmissed paths val = true) := by
  match val with
  | .object props =>
    rw [WellFormed] at wellFormed
    rw [filterVal_object, project_object goes, walk_sorted nodes wellFormed.1, projectProps_eq,
      unmissed, decide_eq_false goes, Bool.false_or, unmissedProps_iff]
    apply Keeps.wrap someObject_injective rfl
    intro prop there
    rw [Option.map_eq_none_iff, Option.map_eq_none_iff,
      (Option.map_injective (Prod.mk_right_injective prop.1)).eq_iff]
    exact walkOne_keeps props wellFormed.2 represents prop there
  | .array vals =>
    rw [WellFormed] at wellFormed
    rw [filterVal_array, project_array goes, filterVals_eq, projectVals_eq, unmissed,
      decide_eq_false goes, Bool.false_or, unmissedVals_iff]
    exact Keeps.wrap someArray_injective rfl
      (filterVals_keep vals wellFormed represents goes)
  | .null | .bool _ | .int _ | .decimal _ | .string _ =>
    rw [project, if_neg goes, unmissed]
    · exact ⟨fun _ => rfl, fun _ => rfl, fun _ => rfl⟩
    all_goals nofun

theorem walkOne_keeps (props : List (MojString × MojObject)) (wellFormed : WellFormedProps props)
    {nodes : List Node} {paths : List (List MojString)} (represents : Represents nodes paths) :
    ∀ prop ∈ props, Keeps (Node.walkOne nodes prop.1 prop.2) (project (below prop.1 paths) prop.2)
      ((project (below prop.1 paths) prop.2 ≠ none → clear paths prop.1 = true) ∧
        unmissed (below prop.1 paths) prop.2 = true) := by
  match props with
  | [] => exact fun prop impossible => nomatch impossible
  | (name, val) :: rest =>
    rw [WellFormedProps] at wellFormed
    rw [List.forall_mem_cons]
    refine ⟨?_, walkOne_keeps rest wellFormed.2 represents⟩
    simp only
    by_cases met : name ∈ heads paths ∧ clear paths name = true
    · rcases (advance_represents represents name).mpr met with ⟨node, others, found, named, there⟩
      have stands := stands_iff.mp (allStand_iff.mp represents.2 node there)
      rw [named] at stands
      have kept : Node.walkOne nodes name val =
          if node.children.isEmpty then some val else Node.filterVal node.children val := by
        rw [Node.walkOne, found]
        exact if_neg (not_not.mpr named)
      have condition : ((project (below name paths) val ≠ none → clear paths name = true) ∧
          unmissed (below name paths) val = true) ↔ unmissed (below name paths) val = true :=
        and_iff_right fun _ => met.2
      rw [kept, condition]
      rcases stands with ⟨leaf, ends⟩ | ⟨parent, onward, children⟩
      · rw [leaf, project_of_nil ends, unmissed_of_nil ends]
        exact ⟨nofun, fun _ => rfl, fun _ => rfl⟩
      · rw [if_neg (by rw [List.isEmpty_iff]; exact parent)]
        exact filterVal_keeps val wellFormed.1 children onward
    · have blocked : Node.walkOne nodes name val = none := by
        rw [Node.walkOne]
        cases found : Node.advance name nodes with
        | nil => rfl
        | cons node others =>
          apply if_pos
          intro named
          apply met
          apply (advance_represents represents name).mp
          exact ⟨node, others, found, named,
            (List.dropWhile_sublist _).subset (found ▸ List.mem_cons_self)⟩
      rw [blocked]
      refine ⟨fun _ => rfl, ?_, ?_⟩
      · intro nothing
        exact ⟨fun present => absurd nothing.symm present, unmissed_of_none _ _ nothing.symm⟩
      · rintro ⟨isClear, _⟩
        by_contra present
        have unmet : name ∉ heads paths := fun known => met ⟨known, isClear (Ne.symm present)⟩
        rw [below_nil_of_unmet unmet, project_nothing] at present
        exact present rfl

theorem filterVals_keep (vals : List MojObject) (wellFormed : WellFormedVals vals) {nodes : List Node}
    {paths : List (List MojString)} (represents : Represents nodes paths) (goes : [] ∉ paths) :
    ∀ val ∈ vals, Keeps (Node.filterVal nodes val) (project paths val)
      (unmissed paths val = true) := by
  match vals with
  | [] => exact fun val impossible => nomatch impossible
  | val :: rest =>
    rw [WellFormedVals] at wellFormed
    rw [List.forall_mem_cons]
    exact ⟨filterVal_keeps val wellFormed.1 represents goes,
      filterVals_keep rest wellFormed.2 represents goes⟩

end

mutual

theorem filterVal_wellFormed (nodes : List Node) (val : MojObject) (wellFormed : val.WellFormed)
    {kept : MojObject} (keeps : Node.filterVal nodes val = some kept) : kept.WellFormed := by
  match val with
  | .object props =>
    rw [WellFormed] at wellFormed
    have inner := walk_wellFormed nodes props wellFormed.2
    have ordered : Sorted (Node.walk nodes props) := by
      rw [walk_sorted nodes wellFormed.1]
      exact sorted_keep wellFormed.1 (Node.walkOne nodes)
    rw [Node.filterVal] at keeps
    cases walked : Node.walk nodes props with
    | nil =>
      rw [walked] at keeps
      cases keeps
    | cons head rest =>
      rw [walked] at keeps inner ordered
      cases keeps
      rw [WellFormed, wellFormedProps_iff]
      exact ⟨ordered, inner⟩
  | .array vals =>
    rw [WellFormed] at wellFormed
    have inner := filterVals_wellFormed nodes vals wellFormed
    rw [Node.filterVal] at keeps
    cases walked : Node.filterVals nodes vals with
    | nil =>
      rw [walked] at keeps
      cases keeps
    | cons head rest =>
      rw [walked] at keeps inner
      cases keeps
      rw [WellFormed, wellFormedVals_iff]
      exact inner
  | .null | .bool _ | .int _ | .decimal _ | .string _ => cases keeps

theorem walk_wellFormed (nodes : List Node) (props : List (MojString × MojObject))
    (wellFormed : WellFormedProps props) : ∀ prop ∈ Node.walk nodes props, prop.2.WellFormed := by
  match props with
  | [] => exact fun prop impossible => nomatch impossible
  | (name, val) :: rest =>
    rw [WellFormedProps] at wellFormed
    have later := fun nodes => walk_wellFormed nodes rest wellFormed.2
    rw [Node.walk]
    cases Node.advance name nodes with
    | nil => exact later []
    | cons node others =>
      simp only
      split_ifs
      · exact later _
      · rw [List.forall_mem_cons]
        exact ⟨wellFormed.1, later _⟩
      · cases keeps : Node.filterVal node.children val with
        | none => exact later _
        | some kept =>
          simp only
          rw [List.forall_mem_cons]
          exact ⟨filterVal_wellFormed node.children val wellFormed.1 keeps, later _⟩

theorem filterVals_wellFormed (nodes : List Node) (vals : List MojObject)
    (wellFormed : WellFormedVals vals) : ∀ val ∈ Node.filterVals nodes vals, val.WellFormed := by
  match vals with
  | [] => exact fun val impossible => nomatch impossible
  | val :: rest =>
    rw [WellFormedVals] at wellFormed
    rw [Node.filterVals]
    cases keeps : Node.filterVal nodes val with
    | none => exact filterVals_wellFormed nodes rest wellFormed.2
    | some kept =>
      simp only
      rw [List.forall_mem_cons]
      exact ⟨filterVal_wellFormed nodes val wellFormed.1 keeps,
        filterVals_wellFormed nodes rest wellFormed.2⟩

end

end Walking

end Db8.Core
