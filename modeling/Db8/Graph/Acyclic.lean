import Mathlib.Data.Finset.Card
import Mathlib.Data.List.Nodup
import Mathlib.Logic.Relation
import Mathlib.Order.WellFounded

/-!
# Graphs without cycles

A graph is given by the list of successors of each node. Without cycles a search along the edges
ends within as many steps as there are nodes with an edge, an edge that closes no cycle can be
added, and the tree of first successors can be listed from its root through the reverse edges.
-/

set_option autoImplicit false

namespace Db8.Graph

variable {ν : Type*}

def Edge (succs : ν → List ν) (node next : ν) : Prop := next ∈ succs node

abbrev Reaches (succs : ν → List ν) : ν → ν → Prop := Relation.ReflTransGen (Edge succs)

def Ranks (succs : ν → List ν) (rank : ν → Nat) : Prop :=
  ∀ node, ∀ next ∈ succs node, rank next < rank node

def Acyclic (succs : ν → List ν) : Prop := ∃ rank, Ranks succs rank

namespace Acyclic

variable {succs : ν → List ν}

theorem wellFounded (acyclic : Acyclic succs) :
    WellFounded fun next node => next ∈ succs node := by
  rcases acyclic with ⟨rank, ranks⟩
  apply Subrelation.wf _ (measure rank).wf
  intro next node edge
  exact ranks node next edge

theorem rank_le {rank : ν → Nat} (ranks : Ranks succs rank) {node target : ν}
    (reaches : Reaches succs node target) : rank target ≤ rank node := by
  induction reaches with
  | refl => exact Nat.le_refl _
  | tail _ edge ih => exact (ranks _ _ edge).le.trans ih

theorem no_return (acyclic : Acyclic succs) {node next : ν} (edge : next ∈ succs node) :
    ¬ Reaches succs next node := by
  rcases acyclic with ⟨rank, ranks⟩
  intro back
  exact absurd (rank_le ranks back) (not_le.mpr (ranks node next edge))

theorem mono {fewer : ν → List ν} (acyclic : Acyclic succs)
    (edges : ∀ node, ∀ next ∈ fewer node, next ∈ succs node) : Acyclic fewer := by
  rcases acyclic with ⟨rank, ranks⟩
  exact ⟨rank, fun node next edge => ranks node next (edges node next edge)⟩

theorem addEdge {more : ν → List ν} {source target : ν} (acyclic : Acyclic succs)
    (away : ¬ Reaches succs target source)
    (edges : ∀ node, ∀ next ∈ more node, next ∈ succs node ∨ node = source ∧ next = target) :
    Acyclic more := by
  classical
  rcases acyclic with ⟨rank, ranks⟩
  refine ⟨fun node => rank node + if Reaches succs node source then rank target + 1 else 0, ?_⟩
  intro node next edge
  simp only
  rcases edges node next edge with old | ⟨isSource, isTarget⟩
  · have down := ranks node next old
    by_cases leads : Reaches succs next source
    · have before : Reaches succs node source := Relation.ReflTransGen.head old leads
      rw [if_pos leads, if_pos before]
      omega
    · rw [if_neg leads]
      split_ifs <;> omega
  · rw [isSource, isTarget, if_neg away, if_pos Relation.ReflTransGen.refl]
    omega

end Acyclic

section Search

variable [DecidableEq ν]

def reachesFrom (succs : ν → List ν) (target : ν) : Nat → ν → Bool
  | 0, _ => false
  | fuel + 1, node => decide (node = target) || (succs node).any (reachesFrom succs target fuel)

variable {succs : ν → List ν}

theorem reaches_of_reachesFrom {target : ν} (fuel : Nat) {node : ν}
    (found : reachesFrom succs target fuel node = true) : Reaches succs node target := by
  induction fuel generalizing node with
  | zero => cases found
  | succ fuel ih =>
    rw [reachesFrom, Bool.or_eq_true, decide_eq_true_eq, List.any_eq_true] at found
    rcases found with same | ⟨next, edge, later⟩
    · rw [same]
    · exact Relation.ReflTransGen.head edge (ih later)

/-- The nodes that a search from here can still open. -/
def below (nodes : List ν) (rank : ν → Nat) (node : ν) : Nat :=
  (nodes.toFinset.filter fun other => rank other ≤ rank node).card

theorem below_lt {nodes : List ν} {rank : ν → Nat} (ranks : Ranks succs rank) {node next : ν}
    (member : node ∈ nodes) (edge : next ∈ succs node) :
    below nodes rank next < below nodes rank node := by
  have down := ranks node next edge
  apply Finset.card_lt_card
  rw [Finset.ssubset_iff_of_subset]
  · refine ⟨node, ?_, ?_⟩
    · simp [member]
    · simp [down]
  · intro other inside
    rw [Finset.mem_filter] at inside ⊢
    exact ⟨inside.1, inside.2.trans down.le⟩

theorem below_le (nodes : List ν) (rank : ν → Nat) (node : ν) :
    below nodes rank node ≤ nodes.length :=
  (Finset.card_filter_le _ _).trans (List.toFinset_card_le nodes)

theorem reachesFrom_complete {nodes : List ν} {rank : ν → Nat} (ranks : Ranks succs rank)
    (known : ∀ node, succs node ≠ [] → node ∈ nodes) {target : ν} {node : ν}
    (reaches : Reaches succs node target) {fuel : Nat} (enough : below nodes rank node < fuel) :
    reachesFrom succs target fuel node = true := by
  induction fuel generalizing node with
  | zero => cases enough
  | succ fuel ih =>
    rw [reachesFrom, Bool.or_eq_true, decide_eq_true_eq, List.any_eq_true]
    rcases Relation.ReflTransGen.cases_head reaches with same | ⟨next, edge, later⟩
    · exact Or.inl same
    · apply Or.inr
      refine ⟨next, edge, ih later ?_⟩
      have member := known node (List.ne_nil_of_mem edge)
      have fewer := below_lt ranks member edge
      omega

/-- Without cycles the search is exact within as many steps as there are nodes with an edge. -/
theorem reachesFrom_iff {nodes : List ν} (acyclic : Acyclic succs)
    (known : ∀ node, succs node ≠ [] → node ∈ nodes) {fuel : Nat} (enough : nodes.length < fuel)
    (target node : ν) : reachesFrom succs target fuel node = true ↔ Reaches succs node target := by
  constructor
  · exact reaches_of_reachesFrom fuel
  · intro reaches
    rcases acyclic with ⟨rank, ranks⟩
    exact reachesFrom_complete ranks known reaches (lt_of_le_of_lt (below_le nodes rank node) enough)

end Search

section Tree

def First (succs : ν → List ν) (node next : ν) : Prop := (succs node).head? = some next

abbrev Climbs (succs : ν → List ν) : ν → ν → Prop := Relation.ReflTransGen (First succs)

variable {succs preds : ν → List ν}

theorem First.edge {node next : ν} (first : First succs node next) : next ∈ succs node :=
  List.mem_of_mem_head? first

theorem reaches_of_climbs {node target : ν} (climbs : Climbs succs node target) :
    Reaches succs node target := by
  induction climbs with
  | refl => exact Relation.ReflTransGen.refl
  | tail _ first ih => exact ih.tail (First.edge first)

theorem first_unique : Relator.RightUnique (First succs) :=
  fun _ _ _ left right => Option.some.inj (left.symm.trans right)

theorem climbs_unique (acyclic : Acyclic succs) {node left right parent : ν}
    (toLeft : Climbs succs node left) (toRight : Climbs succs node right)
    (firstLeft : First succs left parent) (firstRight : First succs right parent) :
    left = right := by
  have apart : ∀ {lower upper : ν}, First succs lower parent → First succs upper parent →
      Climbs succs lower upper → lower = upper := by
    intro lower upper firstLower firstUpper climbs
    rcases Relation.ReflTransGen.cases_head climbs with same | ⟨next, first, later⟩
    · exact same
    · rw [first_unique first firstLower] at later
      exact absurd (reaches_of_climbs later) (acyclic.no_return firstUpper.edge)
  rcases Relation.ReflTransGen.total_of_right_unique first_unique toLeft toRight with up | up
  · exact apart firstLeft firstRight up
  · exact (apart firstRight firstLeft up).symm

variable [DecidableEq ν]

/-- List the nodes below one, each where it is found under its first successor. -/
def listTree (succs preds : ν → List ν) (shown : ν → Bool) : Nat → Option ν → ν → List ν
  | 0, _, _ => []
  | fuel + 1, parent, node =>
    if succs node ≠ [] ∧ parent ≠ (succs node).head? then []
    else (if shown node then [node] else []) ++
      (preds node).flatMap (listTree succs preds shown fuel (some node))

variable {shown : ν → Bool}

structure Inverse (succs preds : ν → List ν) : Prop where
  edges : ∀ node other, other ∈ preds node ↔ node ∈ succs other
  once : ∀ node, (preds node).Nodup

theorem mem_listTree_succ (fuel : Nat) (parent : Option ν) (node item : ν) :
    item ∈ listTree succs preds shown (fuel + 1) parent node ↔
      (succs node = [] ∨ parent = (succs node).head?) ∧
        (shown node = true ∧ item = node ∨
          ∃ sub ∈ preds node, item ∈ listTree succs preds shown fuel (some node) sub) := by
  rw [listTree]
  split_ifs with skipped isShown
  · simp only [List.not_mem_nil, false_iff, not_and_or, not_or]
    exact Or.inl skipped
  · rw [List.mem_append, List.mem_singleton, List.mem_flatMap]
    have here : succs node = [] ∨ parent = (succs node).head? := by
      rw [not_and_or, not_not, not_not] at skipped
      exact skipped
    simp [here, isShown]
  · rw [List.nil_append, List.mem_flatMap]
    have here : succs node = [] ∨ parent = (succs node).head? := by
      rw [not_and_or, not_not, not_not] at skipped
      exact skipped
    simp [here, isShown]

theorem first_of_mem (inverse : Inverse succs preds) {fuel : Nat} {node sub item : ν}
    (edge : sub ∈ preds node)
    (member : item ∈ listTree succs preds shown fuel (some node) sub) : First succs sub node := by
  cases fuel with
  | zero => cases member
  | succ fuel =>
    rw [mem_listTree_succ] at member
    rcases member.1 with none | first
    · have linked := (inverse.edges node sub).mp edge
      rw [none] at linked
      cases linked
    · exact first.symm

theorem climbs_of_mem (inverse : Inverse succs preds) (fuel : Nat) {parent : Option ν}
    {node item : ν} (member : item ∈ listTree succs preds shown fuel parent node) :
    Climbs succs item node ∧ shown item = true := by
  induction fuel generalizing parent node with
  | zero => cases member
  | succ fuel ih =>
    rw [mem_listTree_succ] at member
    rcases member.2 with own | ⟨sub, edge, inside⟩
    · rw [own.2]
      exact ⟨Relation.ReflTransGen.refl, own.1⟩
    · have below := ih inside
      exact ⟨below.1.tail (first_of_mem inverse edge inside), below.2⟩

theorem listTree_nodup (acyclic : Acyclic succs) (inverse : Inverse succs preds) (fuel : Nat)
    (parent : Option ν) (node : ν) : (listTree succs preds shown fuel parent node).Nodup := by
  induction fuel generalizing parent node with
  | zero => exact List.nodup_nil
  | succ fuel ih =>
    rw [listTree]
    split_ifs
    · exact List.nodup_nil
    all_goals
      have subs : ((preds node).flatMap (listTree succs preds shown fuel (some node))).Nodup := by
        rw [List.nodup_flatMap]
        apply And.intro (fun sub _ => ih (some node) sub)
        apply (inverse.once node).imp_of_mem
        intro left right leftSub rightSub different item inLeft inRight
        apply different
        exact climbs_unique acyclic (climbs_of_mem inverse fuel inLeft).1
          (climbs_of_mem inverse fuel inRight).1 (first_of_mem inverse leftSub inLeft)
          (first_of_mem inverse rightSub inRight)
    · rw [List.singleton_append, List.nodup_cons]
      apply And.intro _ subs
      intro inside
      rcases List.mem_flatMap.mp inside with ⟨sub, edge, member⟩
      have back := reaches_of_climbs (climbs_of_mem inverse fuel member).1
      exact acyclic.no_return ((inverse.edges node sub).mp edge) back
    · exact subs

/-- The nodes that a listing from here can still open. -/
def above (nodes : List ν) (rank : ν → Nat) (node : ν) : Nat :=
  (nodes.toFinset.filter fun other => rank node ≤ rank other).card

theorem above_lt {nodes : List ν} {rank : ν → Nat} (ranks : Ranks succs rank) {node next : ν}
    (member : next ∈ nodes) (edge : next ∈ succs node) :
    above nodes rank node < above nodes rank next := by
  have down := ranks node next edge
  apply Finset.card_lt_card
  rw [Finset.ssubset_iff_of_subset]
  · refine ⟨next, ?_, ?_⟩
    · simp [member]
    · simp [down]
  · intro other inside
    rw [Finset.mem_filter] at inside ⊢
    exact ⟨inside.1, down.le.trans inside.2⟩

theorem mem_of_climbs {nodes : List ν} {rank : ν → Nat} (ranks : Ranks succs rank)
    (inverse : Inverse succs preds) (known : ∀ node, succs node ≠ [] → node ∈ nodes) {fuel : Nat}
    {parent : Option ν} {node item : ν} (member : node ∈ nodes)
    (here : succs node = [] ∨ parent = (succs node).head?) (climbs : Climbs succs item node)
    (isShown : shown item = true) (enough : above nodes rank node < fuel) :
    item ∈ listTree succs preds shown fuel parent node := by
  induction fuel generalizing parent node with
  | zero => cases enough
  | succ fuel ih =>
    rw [mem_listTree_succ]
    apply And.intro here
    rcases Relation.ReflTransGen.cases_tail climbs with same | ⟨sub, climbs, first⟩
    · exact Or.inl ⟨same ▸ isShown, same.symm⟩
    · apply Or.inr
      have edge : node ∈ succs sub := First.edge first
      refine ⟨sub, (inverse.edges node sub).mpr edge, ?_⟩
      apply ih (known sub (List.ne_nil_of_mem edge)) (Or.inr first.symm) climbs
      have fewer := above_lt ranks member edge
      omega

theorem mem_listTree_iff {nodes : List ν} (acyclic : Acyclic succs) (inverse : Inverse succs preds)
    (known : ∀ node, succs node ≠ [] → node ∈ nodes) {fuel : Nat} (enough : nodes.length < fuel)
    {node : ν} (member : node ∈ nodes) (top : succs node = []) (item : ν) :
    item ∈ listTree succs preds shown fuel none node ↔
      Climbs succs item node ∧ shown item = true := by
  constructor
  · exact climbs_of_mem inverse fuel
  · intro climbs
    rcases acyclic with ⟨rank, ranks⟩
    apply mem_of_climbs ranks inverse known member (Or.inl top) climbs.1 climbs.2
    exact lt_of_le_of_lt ((Finset.card_filter_le _ _).trans (List.toFinset_card_le nodes)) enough

end Tree

end Db8.Graph
