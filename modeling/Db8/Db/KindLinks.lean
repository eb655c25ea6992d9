import Db8.Db.KindGraph
import Db8.Graph.Acyclic
import Mathlib.Data.List.Count
import Mathlib.Logic.Function.Basic

/-!
# The links between kinds in both directions

The kind map together with the vectors of sub kinds, as the code keeps them. As long as the two
vectors are inverse to each other the supers go as in the kind map alone, and they have no cycle.
-/

set_option autoImplicit false

namespace Db8.Db.MojDbKindEngine

open Db8.Bytes
open Db8.Core
open Db8.Graph

/-- `m_supers` of a kind; none for a kind that is not registered. -/
def supersOf (kinds : KindMap) (id : MojString) : List MojString :=
  ((kinds.find id).map MojDbKind.supers).getD []

structure Links where
  kinds : KindMap
  /-- `m_subs` of a kind. -/
  subs : MojString → List MojString
  /-- `m_builtin` of a kind. -/
  builtin : MojString → Bool

namespace Links

def changeSubs (links : Links) (id : MojString) (change : List MojString → List MojString) :
    Links :=
  { links with subs := Function.update links.subs id (change (links.subs id)) }

/-- `addSuper`; `removeKind` takes the first place only. -/
def addSuper (links : Links) (kind super : MojString) : Links :=
  if kindExtends links.kinds super kind then links
  else
    let links :=
      if (supersOf links.kinds kind).head? = some rootKindId then
        links.changeSubs rootKindId fun subs => subs.erase kind
      else links
    { links.changeSubs super fun subs => subs ++ [kind] with
      kinds := MojDbKindEngine.addSuper links.kinds kind super }

/-- The first loop of `clearSupers`: the kind is taken out of the vectors of its supers. -/
def leaveSupers (links : Links) (id : MojString) (supers : List MojString) : Links :=
  supers.foldl (fun links super => links.changeSubs super fun subs => subs.erase id) links

/-- The second loop: it is taken out of the vectors of its sub kinds. -/
def leaveSubs (links : Links) (id : MojString) (subs : List MojString) : Links :=
  subs.foldl (fun links sub =>
    { links with kinds := links.kinds.withSupers sub fun supers => supers.erase id }) links

def clearSupers (links : Links) (id : MojString) : Links :=
  let links := links.leaveSupers id (supersOf links.kinds id)
  let links := { links with kinds := links.kinds.withSupers id fun _ => [] }
  let links := links.leaveSubs id (links.subs id)
  links.changeSubs id fun _ => []

def addSupers (links : Links) (id : MojString) (superIds : List MojString) : Links :=
  superIds.foldl (fun links super =>
    if (links.kinds.find super).isSome then links.addSuper id super else links) links

def addSubs (links : Links) (id : MojString) (others : List MojDbKind) : Links :=
  others.foldl (fun links other =>
    if id ∈ other.superIds then links.addSuper other.id id else links) links

def addRoot (links : Links) (id : MojString) : Links :=
  if supersOf links.kinds id = [] ∧ (links.kinds.find id).isSome ∧
      (links.kinds.find rootKindId).isSome then links.addSuper id rootKindId
  else links

/-- `updateSupers` after the objects are moved. -/
def updateSupers (links : Links) (id : MojString) (superIds : List MojString) : Links :=
  let links := links.clearSupers id
  let links := links.addSupers id superIds
  let links := links.addSubs id links.kinds.kinds
  links.addRoot id

/-- `putKind` of the kind engine: a new kind is created, and built in or not from then on. -/
def configure (links : Links) (id : MojString) (obj : KindObject) (builtin : Bool) : Links :=
  let created :=
    if (links.kinds.find id).isSome then links.builtin
    else Function.update links.builtin id builtin
  { links with
    kinds := links.kinds.put
      ⟨id, obj.owner, obj.superIds, supersOf links.kinds id, obj.indexes⟩
    builtin := created }.updateSupers id obj.superIds

/-- `delKind` of the kind engine, and the end of a kind object. -/
def delKind (links : Links) (id : MojString) : Links :=
  let links := links.clearSupers id
  { links with kinds := links.kinds.erase id }

def reloadKind (links : Links) (id : MojString) (stored : Option KindObject) : Links :=
  match stored with
  | some obj => (links.delKind id).configure id obj false
  | none => links.delKind id

end Links

section Supers

theorem supersOf_eq {kinds : KindMap} {id : MojString} {kind : MojDbKind}
    (found : kinds.find id = some kind) : supersOf kinds id = kind.supers := by
  unfold supersOf
  rw [found]
  rfl

theorem supersOf_none {kinds : KindMap} {id : MojString} (missing : kinds.find id = none) :
    supersOf kinds id = [] := by
  unfold supersOf
  rw [missing]
  rfl

theorem KindMap.ext_find {left right : KindMap} (same : ∀ id, left.find id = right.find id) :
    left = right := by
  have maps : left.map = right.map := SortedMap.ext_find same
  cases left
  cases right
  simpa using maps

theorem KindMap.find_withSupers_eq (kinds : KindMap) (id other : MojString)
    (change : List MojString → List MojString) :
    (kinds.withSupers id change).find other =
      (kinds.find other).map fun kind =>
        if id = other then { kind with supers := change kind.supers } else kind := by
  by_cases same : id = other
  · rw [← same]
    unfold withSupers
    cases found : kinds.find id with
    | none => simp [found]
    | some kind =>
      simp only
      rw [find_put, if_pos (find_id found)]
      simp
  · rw [find_withSupers kinds id other change same]
    simp [same]

theorem supersOf_withSupers (kinds : KindMap) (id other : MojString)
    {change : List MojString → List MojString} (still : kinds.find id = none → change [] = []) :
    supersOf (kinds.withSupers id change) other =
      if id = other then change (supersOf kinds id) else supersOf kinds other := by
  unfold supersOf
  rw [KindMap.find_withSupers_eq]
  by_cases same : id = other
  · rw [← same, if_pos rfl]
    cases found : kinds.find id with
    | none => simp [still found]
    | some kind => simp
  · rw [if_neg same]
    cases kinds.find other <;> simp [same]

theorem supersOf_clearSupers (kinds : KindMap) (id other : MojString) :
    supersOf (clearSupers kinds id) other =
      if id = other then [] else (supersOf kinds other).filter fun super => decide (super ≠ id) := by
  unfold clearSupers
  rw [supersOf_withSupers _ _ _ fun _ => rfl]
  split_ifs
  · rfl
  · unfold supersOf
    rw [KindMap.find_mapSupers]
    cases kinds.find other <;> rfl

theorem supersOf_addSuper (kinds : KindMap) (kind super other : MojString)
    (registered : (kinds.find kind).isSome) (accepted : ¬ kindExtends kinds super kind = true) :
    supersOf (addSuper kinds kind super) other =
      if kind = other then
        (if (supersOf kinds kind).head? = some rootKindId then [] else supersOf kinds kind) ++ [super]
      else supersOf kinds other := by
  unfold addSuper
  rw [if_neg accepted, supersOf_withSupers]
  intro missing
  rw [missing] at registered
  cases registered

theorem addSuper_refused {kinds : KindMap} {kind super : MojString}
    (refused : kindExtends kinds super kind = true) : addSuper kinds kind super = kinds :=
  if_pos refused

end Supers

section Cycles

theorem extendsFrom_eq (kinds : KindMap) (id : MojString) (fuel : Nat) (kind : MojString) :
    extendsFrom kinds id fuel kind = reachesFrom (supersOf kinds) id fuel kind := by
  induction fuel generalizing kind with
  | zero => rfl
  | succ fuel ih =>
    have rest : extendsFrom kinds id fuel = reachesFrom (supersOf kinds) id fuel := funext ih
    rw [extendsFrom, reachesFrom, rest]
    cases found : kinds.find kind with
    | none =>
      rw [supersOf_none found]
      rfl
    | some other => rw [supersOf_eq found]

theorem registered_of_supersOf {kinds : KindMap} {id : MojString}
    (linked : supersOf kinds id ≠ []) : id ∈ kinds.ids := by
  cases found : kinds.find id with
  | none => exact absurd (supersOf_none found) linked
  | some kind =>
    have named := KindMap.find_id found
    rw [← named] at found
    rw [← named]
    exact List.mem_map_of_mem ((KindMap.mem_kinds_iff kinds kind).mpr found)

theorem kindExtends_iff {kinds : KindMap} (acyclic : Acyclic (supersOf kinds))
    (kind id : MojString) :
    kindExtends kinds kind id = true ↔ Reaches (supersOf kinds) kind id := by
  unfold kindExtends
  rw [extendsFrom_eq]
  apply reachesFrom_iff acyclic (fun node linked => registered_of_supersOf linked)
  unfold KindMap.ids
  rw [List.length_map]
  exact Nat.lt_succ_self _

theorem acyclic_addSuper {kinds : KindMap} (acyclic : Acyclic (supersOf kinds))
    {kind : MojString} (registered : (kinds.find kind).isSome) (super : MojString) :
    Acyclic (supersOf (addSuper kinds kind super)) := by
  by_cases refused : kindExtends kinds super kind = true
  · rw [addSuper_refused refused]
    exact acyclic
  · have away : ¬ Reaches (supersOf kinds) super kind :=
      fun reaches => refused ((kindExtends_iff acyclic super kind).mpr reaches)
    apply acyclic.addEdge away
    intro node next edge
    rw [supersOf_addSuper kinds kind super node registered refused] at edge
    split_ifs at edge with same rooted
    · exact Or.inr ⟨same.symm, List.mem_singleton.mp edge⟩
    · rcases List.mem_append.mp edge with old | new
      · exact Or.inl (same ▸ old)
      · exact Or.inr ⟨same.symm, List.mem_singleton.mp new⟩
    · exact Or.inl edge

end Cycles

namespace Links

/-- The vectors of supers and of sub kinds are inverse to each other, with every repetition. -/
def Linked (links : Links) : Prop :=
  ∀ id other, (supersOf links.kinds other).count id = (links.subs id).count other

section Clear

theorem filter_erase (items : List MojString) (item : MojString) :
    (items.erase item).filter (fun other => decide (other ≠ item)) =
      items.filter fun other => decide (other ≠ item) := by
  induction items with
  | nil => rfl
  | cons head rest ih =>
    by_cases same : head = item
    · rw [same, List.erase_cons_head]
      simp
    · rw [List.erase_cons_tail (by simpa using same), List.filter_cons, List.filter_cons, ih]

theorem filter_none {items : List MojString} {item : MojString} (absent : items.count item = 0) :
    items.filter (fun other => decide (other ≠ item)) = items := by
  rw [List.filter_eq_self]
  intro other member
  exact decide_eq_true fun same => List.count_eq_zero.mp absent (same ▸ member)

theorem count_filter_self (items : List MojString) (item : MojString) :
    (items.filter fun other => decide (other ≠ item)).count item = 0 := by
  rw [List.count_eq_zero]
  intro member
  exact absurd rfl (of_decide_eq_true (List.mem_filter.mp member).2)

theorem subs_leaveSupers (id other : MojString) (supers : List MojString) (links : Links)
    (covered : (links.subs other).count id ≤ supers.count other) :
    (links.leaveSupers id supers).subs other =
      (links.subs other).filter fun sub => decide (sub ≠ id) := by
  unfold leaveSupers
  induction supers generalizing links with
  | nil => exact (filter_none (Nat.le_zero.mp covered)).symm
  | cons super rest ih =>
    rw [List.foldl_cons]
    by_cases same : super = other
    · rw [ih]
      · simp only [changeSubs, same, Function.update_self]
        exact filter_erase _ id
      · simp only [changeSubs, same, Function.update_self, List.count_erase_self]
        rw [same, List.count_cons_self] at covered
        omega
    · have kept : (links.changeSubs super fun subs => subs.erase id).subs other =
          links.subs other := Function.update_of_ne (Ne.symm same) _ _
      rw [ih, kept]
      rw [kept]
      rwa [List.count_cons_of_ne same] at covered

theorem kinds_leaveSupers (links : Links) (id : MojString) (supers : List MojString) :
    (links.leaveSupers id supers).kinds = links.kinds := by
  unfold leaveSupers
  induction supers generalizing links with
  | nil => rfl
  | cons super rest ih => exact ih _

theorem subs_leaveSubs (links : Links) (id : MojString) (subs : List MojString) :
    (links.leaveSubs id subs).subs = links.subs := by
  unfold leaveSubs
  induction subs generalizing links with
  | nil => rfl
  | cons sub rest ih => exact ih _

theorem find_leaveSubs (links : Links) (id other : MojString) (subs : List MojString)
    (covered : (supersOf links.kinds other).count id ≤ subs.count other) :
    (links.leaveSubs id subs).kinds.find other =
      (links.kinds.find other).map fun kind =>
        { kind with supers := kind.supers.filter fun super => decide (super ≠ id) } := by
  unfold leaveSubs
  induction subs generalizing links with
  | nil =>
    rw [List.foldl_nil]
    cases found : links.kinds.find other with
    | none => rfl
    | some kind =>
      rw [supersOf_eq found] at covered
      rw [Option.map_some, filter_none (Nat.le_zero.mp covered)]
  | cons sub rest ih =>
    have supers := @supersOf_withSupers links.kinds sub other (fun supers => supers.erase id)
      fun _ => rfl
    rw [List.foldl_cons, ih]
    · rw [KindMap.find_withSupers_eq, Option.map_map]
      congr 1
      funext kind
      simp only [Function.comp_apply]
      split_ifs
      · rw [filter_erase]
      · rfl
    · rw [supers]
      split_ifs with same
      · rw [List.count_erase_self, same]
        rw [same, List.count_cons_self] at covered
        omega
      · rwa [List.count_cons_of_ne same] at covered

theorem subs_clearSupers {links : Links} (linked : links.Linked) (id other : MojString) :
    (links.clearSupers id).subs other =
      if id = other then [] else (links.subs other).filter fun sub => decide (sub ≠ id) := by
  unfold clearSupers changeSubs
  simp only [subs_leaveSubs]
  split_ifs with same
  · rw [same, Function.update_self]
  · rw [Function.update_of_ne (Ne.symm same), subs_leaveSupers]
    exact (linked other id).symm.le

theorem kinds_clearSupers {links : Links} (linked : links.Linked) (id : MojString) :
    (links.clearSupers id).kinds = MojDbKindEngine.clearSupers links.kinds id := by
  apply KindMap.ext_find
  intro other
  unfold clearSupers changeSubs MojDbKindEngine.clearSupers
  simp only
  rw [find_leaveSubs]
  · rw [KindMap.find_withSupers_eq, KindMap.find_withSupers_eq, KindMap.find_mapSupers,
      kinds_leaveSupers, Option.map_map, Option.map_map]
    congr 1
    funext kind
    simp only [Function.comp_apply]
    split_ifs <;> rfl
  · simp only [kinds_leaveSupers]
    rw [supersOf_withSupers _ _ _ fun _ => rfl]
    split_ifs with same
    · exact Nat.zero_le _
    · rw [subs_leaveSupers, List.count_filter (by simpa using Ne.symm same)]
      · exact (linked id other).le
      · exact (linked id id).symm.le

theorem linked_clearSupers {links : Links} (linked : links.Linked) (id : MojString) :
    (links.clearSupers id).Linked := by
  intro super sub
  rw [kinds_clearSupers linked, supersOf_clearSupers, subs_clearSupers linked]
  by_cases isSub : id = sub
  · rw [if_pos isSub]
    split_ifs
    · rfl
    · rw [List.count_nil, ← isSub, count_filter_self]
  · rw [if_neg isSub]
    split_ifs with isSuper
    · rw [← isSuper, count_filter_self, List.count_nil]
    · rw [List.count_filter (by simpa using Ne.symm isSuper),
        List.count_filter (by simpa using Ne.symm isSub)]
      exact linked super sub

end Clear

section Add

@[simp] theorem kinds_addSuper (links : Links) (kind super : MojString) :
    (links.addSuper kind super).kinds = MojDbKindEngine.addSuper links.kinds kind super := by
  unfold addSuper
  by_cases refused : kindExtends links.kinds super kind = true
  · rw [if_pos refused, addSuper_refused refused]
  · rw [if_neg refused]
    simp only [changeSubs]
    split_ifs <;> rfl

theorem subs_addSuper {links : Links} {kind super : MojString}
    (accepted : ¬ kindExtends links.kinds super kind = true) (other : MojString) :
    (links.addSuper kind super).subs other =
      (if (supersOf links.kinds kind).head? = some rootKindId ∧ rootKindId = other then
          (links.subs other).erase kind
        else links.subs other) ++
      if super = other then [kind] else [] := by
  unfold addSuper
  rw [if_neg accepted]
  by_cases rooted : (supersOf links.kinds kind).head? = some rootKindId
  · simp only [rooted, if_true, true_and, changeSubs]
    by_cases isSuper : super = other
    · rw [isSuper, Function.update_self, if_pos rfl]
      by_cases isRoot : rootKindId = other
      · rw [← isRoot, Function.update_self, if_pos rfl]
      · rw [Function.update_of_ne (Ne.symm isRoot), if_neg isRoot]
    · rw [Function.update_of_ne (Ne.symm isSuper), if_neg isSuper, List.append_nil]
      by_cases isRoot : rootKindId = other
      · rw [← isRoot, Function.update_self, if_pos rfl]
      · rw [Function.update_of_ne (Ne.symm isRoot), if_neg isRoot]
  · simp only [rooted, if_false, false_and, changeSubs]
    by_cases isSuper : super = other
    · rw [isSuper, Function.update_self, if_pos rfl]
    · rw [Function.update_of_ne (Ne.symm isSuper), if_neg isSuper, List.append_nil]

/-- A new link keeps the vectors inverse, if the root that gives way to it was alone. -/
theorem linked_addSuper {links : Links} (linked : links.Linked) {kind : MojString}
    (registered : (links.kinds.find kind).isSome) (super : MojString)
    (alone : (supersOf links.kinds kind).head? = some rootKindId →
      supersOf links.kinds kind = [rootKindId]) : (links.addSuper kind super).Linked := by
  by_cases refused : kindExtends links.kinds super kind = true
  · have same : links.addSuper kind super = links := if_pos refused
    rw [same]
    exact linked
  · intro id other
    rw [kinds_addSuper, supersOf_addSuper _ _ _ _ registered refused, subs_addSuper refused,
      List.count_append]
    have old := linked id other
    have last : (if super = id then [kind] else []).count other =
        if kind = other then [super].count id else 0 := by
      by_cases isSuper : super = id
      · by_cases isKind : kind = other
        · simp [isSuper, isKind]
        · simp [isSuper, isKind]
      · by_cases isKind : kind = other
        · simp [isSuper, isKind]
        · simp [isSuper, isKind]
    rw [last]
    by_cases isKind : kind = other
    · rw [if_pos isKind, if_pos isKind, List.count_append]
      rw [← isKind] at old ⊢
      by_cases rooted : (supersOf links.kinds kind).head? = some rootKindId
      · rw [if_pos rooted, List.count_nil]
        rw [alone rooted] at old
        by_cases isRoot : rootKindId = id
        · rw [if_pos ⟨rooted, isRoot⟩, List.count_erase_self, ← old, isRoot]
          simp
        · rw [if_neg fun both => isRoot both.2, ← old]
          simp [isRoot]
      · rw [if_neg rooted, if_neg fun both => rooted both.1, old]
    · rw [if_neg isKind, if_neg isKind, Nat.add_zero]
      split_ifs
      · rw [List.count_erase_of_ne (Ne.symm isKind)]
        exact old
      · exact old

end Add

section Kinds

theorem kinds_addSupers (links : Links) (id : MojString) (superIds : List MojString) :
    (links.addSupers id superIds).kinds = MojDbKindEngine.addSupers links.kinds id superIds := by
  unfold addSupers MojDbKindEngine.addSupers
  induction superIds generalizing links with
  | nil => rfl
  | cons super rest ih =>
    rw [List.foldl_cons, List.foldl_cons, ih]
    split_ifs
    · rw [kinds_addSuper]
    · rfl

theorem kinds_addSubs (links : Links) (id : MojString) (others : List MojDbKind) :
    (links.addSubs id others).kinds = MojDbKindEngine.addSubs links.kinds id others := by
  unfold addSubs MojDbKindEngine.addSubs
  induction others generalizing links with
  | nil => rfl
  | cons other rest ih =>
    rw [List.foldl_cons, List.foldl_cons, ih]
    split_ifs
    · rw [kinds_addSuper]
    · rfl

theorem kinds_addRoot (links : Links) (id : MojString) :
    (links.addRoot id).kinds = MojDbKindEngine.addRoot links.kinds id := by
  unfold addRoot MojDbKindEngine.addRoot
  cases found : links.kinds.find id with
  | none => simp
  | some kind =>
    rw [supersOf_eq found]
    simp only [Option.isSome_some, true_and]
    split_ifs
    · rw [kinds_addSuper]
    · rfl

theorem kinds_updateSupers {links : Links} (linked : links.Linked) (id : MojString)
    (superIds : List MojString) :
    (links.updateSupers id superIds).kinds =
      MojDbKindEngine.updateSupers links.kinds id superIds := by
  unfold updateSupers MojDbKindEngine.updateSupers
  simp only [kinds_addRoot, kinds_addSubs, kinds_addSupers, kinds_clearSupers linked]

end Kinds

end Links

end Db8.Db.MojDbKindEngine
