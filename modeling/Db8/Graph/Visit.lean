import Db8.Graph.Acyclic

/-!
# Visiting a graph

A walk that acts on a node after all it leads to, and on no node twice. What was seen is handed on
from one successor to the next, so that the walk ends whatever the graph is.
-/

set_option autoImplicit false

namespace Db8.Graph

variable {ν α : Type*}

def visit [DecidableEq ν] (succs : ν → List ν) (act : ν → α → α) : Nat → ν → List ν × α → List ν × α
  | 0, _, state => state
  | fuel + 1, node, state =>
    let state := (succs node).foldl
      (fun state next => if next ∈ state.1 then state else visit succs act fuel next state)
      (state.1 ++ [node], state.2)
    (state.1, act node state.2)

theorem visit_keeps [DecidableEq ν] {succs : ν → List ν} {act : ν → α → α} {holds : α → Prop}
    (keeps : ∀ node val, holds val → holds (act node val)) (fuel : Nat) (node : ν)
    (state : List ν × α) (before : holds state.2) : holds (visit succs act fuel node state).2 := by
  induction fuel generalizing node state with
  | zero => exact before
  | succ fuel ih =>
    rw [visit]
    apply keeps
    have walk : ∀ (nexts : List ν) (state : List ν × α), holds state.2 →
        holds (nexts.foldl (fun state next =>
          if next ∈ state.1 then state else visit succs act fuel next state) state).2 := by
      intro nexts
      induction nexts with
      | nil => exact fun _ held => held
      | cons next rest further =>
        intro state held
        apply further
        by_cases known : next ∈ state.1
        · simpa only [if_pos known] using held
        · simpa only [if_neg known] using ih next state held
    exact walk (succs node) _ before

def unseen [DecidableEq ν] (nodes seen : List ν) : Nat := (nodes.filter fun node => decide (node ∉ seen)).length

theorem unseen_mono [DecidableEq ν] {nodes seen more : List ν} (grown : ∀ node ∈ seen, node ∈ more) :
    unseen nodes more ≤ unseen nodes seen := by
  unfold unseen
  apply List.Sublist.length_le
  apply List.monotone_filter_right
  intro node left
  rw [decide_eq_true_eq] at left ⊢
  exact fun member => left (grown node member)

theorem unseen_lt [DecidableEq ν] {nodes seen : List ν} {node : ν} (member : node ∈ nodes) (new : node ∉ seen) :
    unseen nodes (seen ++ [node]) < unseen nodes seen := by
  have fewer : (nodes.filter fun other => decide (other ∉ seen ++ [node])) =
      (nodes.filter fun other => decide (other ∉ seen)).filter fun other =>
        decide (other ≠ node) := by
    rw [List.filter_filter]
    apply List.filter_congr
    intro other _
    rw [← Bool.decide_and, decide_eq_decide, List.mem_append, List.mem_singleton]
    tauto
  unfold unseen
  rw [fewer, List.length_filter_lt_length_iff_exists]
  exact ⟨node, List.mem_filter.mpr ⟨member, by simpa using new⟩, by simp⟩

/-- What a walk from some nodes has done: it acted on `order`. -/
structure Visited (succs : ν → List ν) (act : ν → α → α) (starts : List ν)
    (before after : List ν × α) (order : List ν) : Prop where
  seen : ∀ node, node ∈ after.1 ↔ node ∈ before.1 ∨ node ∈ order
  once : order.Nodup
  fresh : ∀ node ∈ order, node ∉ before.1
  closed : ∀ node ∈ order, ∀ next ∈ succs node, next ∈ after.1
  reached : ∀ node ∈ order, ∃ start ∈ starts, Reaches succs start node
  acted : after.2 = order.foldl (fun val node => act node val) before.2

namespace Visited

variable {succs : ν → List ν} {act : ν → α → α}

theorem none (starts : List ν) (state : List ν × α) : Visited succs act starts state state [] where
  seen node := by simp
  once := List.nodup_nil
  fresh _ member := by cases member
  closed _ member := by cases member
  reached _ member := by cases member
  acted := rfl

theorem append {starts : List ν} {first second third : List ν × α} {front back : List ν}
    (early : Visited succs act starts first second front)
    (late : Visited succs act starts second third back) :
    Visited succs act starts first third (front ++ back) where
  seen node := by
    rw [late.seen, early.seen, List.mem_append, or_assoc]
  once := by
    apply List.nodup_append.mpr
    apply And.intro early.once
    apply And.intro late.once
    intro node inFront other inBack same
    exact late.fresh other inBack ((early.seen other).mpr (Or.inr (same ▸ inFront)))
  fresh node member := by
    rcases List.mem_append.mp member with inFront | inBack
    · exact early.fresh node inFront
    · exact fun known => late.fresh node inBack ((early.seen node).mpr (Or.inl known))
  closed node member next edge := by
    rcases List.mem_append.mp member with inFront | inBack
    · exact (late.seen next).mpr (Or.inl (early.closed node inFront next edge))
    · exact late.closed node inBack next edge
  reached node member := by
    rcases List.mem_append.mp member with inFront | inBack
    · exact early.reached node inFront
    · exact late.reached node inBack
  acted := by
    rw [late.acted, early.acted, List.foldl_append]

theorem widen {fewer starts : List ν} {before after : List ν × α} {order : List ν}
    (visited : Visited succs act fewer before after order) (within : ∀ node ∈ fewer, node ∈ starts) :
    Visited succs act starts before after order where
  seen := visited.seen
  once := visited.once
  fresh := visited.fresh
  closed := visited.closed
  reached node member := by
    rcases visited.reached node member with ⟨start, inside, reaches⟩
    exact ⟨start, within start inside, reaches⟩
  acted := visited.acted

theorem close {node : ν} {seen : List ν} {val : α} {after : List ν × α} {order : List ν}
    (new : node ∉ seen)
    (below : Visited succs act (succs node) (seen ++ [node], val) after order)
    (all : ∀ next ∈ succs node, next ∈ after.1) :
    Visited succs act [node] (seen, val) (after.1, act node after.2) (order ++ [node]) where
  seen other := by
    rw [below.seen, List.mem_append, List.mem_append, List.mem_singleton]
    tauto
  once := by
    apply List.nodup_append.mpr
    apply And.intro below.once
    apply And.intro (List.nodup_singleton node)
    intro other inside last isNode same
    rw [same, List.mem_singleton.mp isNode] at inside
    exact below.fresh node inside (by simp)
  fresh other member := by
    rcases List.mem_append.mp member with inside | last
    · exact fun known => below.fresh other inside (List.mem_append_left _ known)
    · rw [List.mem_singleton.mp last]
      exact new
  closed other member next edge := by
    rcases List.mem_append.mp member with inside | last
    · exact below.closed other inside next edge
    · rw [List.mem_singleton.mp last] at edge
      exact all next edge
  reached other member := by
    apply Exists.intro node
    apply And.intro (List.mem_singleton_self node)
    rcases List.mem_append.mp member with inside | last
    · rcases below.reached other inside with ⟨start, edge, reaches⟩
      exact Relation.ReflTransGen.head edge reaches
    · rw [List.mem_singleton.mp last]
  acted := by
    simp only
    rw [below.acted, List.foldl_append]
    rfl

end Visited

section Walk

variable [DecidableEq ν] {succs : ν → List ν} {nodes : List ν}

theorem visited_foldl {act : ν → α → α} {fuel : Nat}
    (ih : ∀ node (state : List ν × α), node ∉ state.1 → unseen nodes state.1 < fuel →
      ∃ order, Visited succs act [node] state (visit succs act fuel node state) order ∧
        node ∈ order)
    (nexts : List ν) (state : List ν × α) (enough : unseen nodes state.1 < fuel) :
    ∃ order, Visited succs act nexts state (nexts.foldl (fun state next =>
        if next ∈ state.1 then state else visit succs act fuel next state) state) order ∧
      ∀ next ∈ nexts, next ∈ (nexts.foldl (fun state next =>
        if next ∈ state.1 then state else visit succs act fuel next state) state).1 := by
  induction nexts generalizing state with
  | nil => exact ⟨[], Visited.none [] state, by simp⟩
  | cons next rest walk =>
    rw [List.foldl_cons]
    have first : ∃ order, Visited succs act [next] state
        (if next ∈ state.1 then state else visit succs act fuel next state) order ∧
        next ∈ (if next ∈ state.1 then state else visit succs act fuel next state).1 := by
      by_cases known : next ∈ state.1
      · rw [if_pos known]
        exact ⟨[], Visited.none [next] state, known⟩
      · rw [if_neg known]
        rcases ih next state known enough with ⟨order, visited, member⟩
        exact ⟨order, visited, (visited.seen next).mpr (Or.inr member)⟩
    rcases first with ⟨front, early, here⟩
    generalize (if next ∈ state.1 then state else visit succs act fuel next state) = middle
      at early here ⊢
    have fewer : unseen nodes middle.1 ≤ unseen nodes state.1 :=
      unseen_mono fun node known => (early.seen node).mpr (Or.inl known)
    rcases walk middle (lt_of_le_of_lt fewer enough) with ⟨back, late, others⟩
    apply Exists.intro (front ++ back)
    constructor
    · apply Visited.append
      · exact early.widen fun node isNext => by simp [List.mem_singleton.mp isNext]
      · exact late.widen fun node member => List.mem_cons_of_mem next member
    · intro other member
      rcases List.mem_cons.mp member with same | member
      · rw [same]
        exact (late.seen next).mpr (Or.inl here)
      · exact others other member

theorem visited_visit (act : ν → α → α) (known : ∀ node, succs node ≠ [] → node ∈ nodes)
    (fuel : Nat) (node : ν) (state : List ν × α) (new : node ∉ state.1)
    (enough : unseen nodes state.1 < fuel) :
    ∃ order, Visited succs act [node] state (visit succs act fuel node state) order ∧
      node ∈ order := by
  induction fuel generalizing node state with
  | zero => cases enough
  | succ fuel ih =>
    rw [visit]
    have below : ∃ order, Visited succs act (succs node) (state.1 ++ [node], state.2)
        ((succs node).foldl (fun state next =>
          if next ∈ state.1 then state else visit succs act fuel next state)
            (state.1 ++ [node], state.2)) order ∧
        ∀ next ∈ succs node, next ∈ ((succs node).foldl (fun state next =>
          if next ∈ state.1 then state else visit succs act fuel next state)
            (state.1 ++ [node], state.2)).1 := by
      by_cases leaf : succs node = []
      · rw [leaf]
        exact ⟨[], Visited.none [] _, by simp⟩
      · apply visited_foldl ih
        have less := unseen_lt (known node leaf) new
        simp only
        omega
    rcases below with ⟨order, visited, all⟩
    exact ⟨order ++ [node], visited.close new all, by simp⟩

theorem visit_reaches (act : ν → α → α) (known : ∀ node, succs node ≠ [] → node ∈ nodes)
    {fuel : Nat} (enough : nodes.length < fuel) (node : ν) (val : α) :
    ∃ order : List ν, (visit succs act fuel node ([], val)).2 =
        order.foldl (fun val node => act node val) val ∧
      order.Nodup ∧ ∀ other, other ∈ order ↔ Reaches succs node other := by
  have all : unseen nodes [] < fuel := lt_of_le_of_lt (List.length_filter_le _ _) enough
  rcases visited_visit act known fuel node ([], val) (by simp) all with ⟨order, visited, own⟩
  apply Exists.intro order
  apply And.intro visited.acted
  apply And.intro visited.once
  intro other
  constructor
  · intro member
    rcases visited.reached other member with ⟨start, isNode, reaches⟩
    rwa [List.mem_singleton.mp isNode] at reaches
  · intro reaches
    induction reaches with
    | refl => exact own
    | @tail middle last _ edge inside =>
      rcases (visited.seen last).mp (visited.closed middle inside last edge) with none | member
      · cases none
      · exact member

end Walk

end Db8.Graph
