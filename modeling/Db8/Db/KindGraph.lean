import Db8.Db.Kind

/-!
# The graph of kinds

How the kind map changes: a kind is created, configured anew, dropped or reloaded, and its pointers
to supers follow the ids under `extends`. The vector of sub kinds is the inverse of the supers and
is not kept. Whatever is done to a kind, other kinds stay as they are unless they extend it.
-/

set_option autoImplicit false

namespace Db8.Db.MojDbKindEngine

open Db8.Bytes
open Db8.Core

structure KindObject where
  owner : MojString
  superIds : List MojString
  indexes : List MojDbIndex

namespace KindMap

def erase (kinds : KindMap) (id : MojString) : KindMap where
  map := kinds.map.del id
  registered entry member := kinds.registered entry (List.mem_of_mem_filter member)

def mapSupers (kinds : KindMap) (change : List MojString → List MojString) : KindMap where
  map := kinds.map.mapVals fun kind => { kind with supers := change kind.supers }
  registered entry member := by
    rcases List.mem_map.mp member with ⟨old, inside, same⟩
    rw [← same]
    exact kinds.registered old inside

def withSupers (kinds : KindMap) (id : MojString) (change : List MojString → List MojString) :
    KindMap :=
  match kinds.find id with
  | none => kinds
  | some kind => kinds.put { kind with supers := change kind.supers }

theorem find_erase (kinds : KindMap) (id other : MojString) :
    (kinds.erase id).find other = if id = other then none else kinds.find other := by
  unfold erase find
  rw [SortedMap.find_del]

theorem find_mapSupers (kinds : KindMap) (change : List MojString → List MojString)
    (id : MojString) :
    (kinds.mapSupers change).find id =
      (kinds.find id).map fun kind => { kind with supers := change kind.supers } :=
  SortedMap.find_mapVals kinds.map id _

theorem find_withSupers (kinds : KindMap) (id other : MojString)
    (change : List MojString → List MojString) (different : id ≠ other) :
    (kinds.withSupers id change).find other = kinds.find other := by
  unfold withSupers
  cases found : kinds.find id with
  | none => rfl
  | some kind =>
    simp only
    rw [find_put, if_neg]
    exact fun same => different ((find_id found).symm.trans same)

theorem find_withSupers_none {kinds : KindMap} {other : MojString} (id : MojString)
    (change : List MojString → List MojString) (absent : kinds.find other = none) :
    (kinds.withSupers id change).find other = none := by
  unfold withSupers
  cases found : kinds.find id with
  | none => exact absent
  | some kind =>
    simp only
    rw [find_put, if_neg, absent]
    intro same
    rw [← same, find_id found, found] at absent
    cases absent

end KindMap

/-- `MojDbKind::extends`. -/
def extendsFrom (kinds : KindMap) (id : MojString) : Nat → MojString → Bool
  | 0, _ => false
  | fuel + 1, kind =>
    decide (kind = id) ||
      match kinds.find kind with
      | none => false
      | some kind => kind.supers.any (extendsFrom kinds id fuel)

def kindExtends (kinds : KindMap) (kind id : MojString) : Bool :=
  extendsFrom kinds id (kinds.kinds.length + 1) kind

/-- `addSuper`; a root that is the only super gives way. -/
def addSuper (kinds : KindMap) (kind super : MojString) : KindMap :=
  if kindExtends kinds super kind then kinds
  else
    kinds.withSupers kind fun supers =>
      (if supers.head? = some rootKindId then [] else supers) ++ [super]

/-- `clearSupers`: neither the kind nor its sub kinds keep a pointer. -/
def clearSupers (kinds : KindMap) (id : MojString) : KindMap :=
  (kinds.mapSupers fun supers => supers.filter fun super => decide (super ≠ id)).withSupers id
    fun _ => []

def addSupers (kinds : KindMap) (id : MojString) (superIds : List MojString) : KindMap :=
  superIds.foldl (fun kinds super =>
    if (kinds.find super).isSome then addSuper kinds id super else kinds) kinds

def addSubs (kinds : KindMap) (id : MojString) (others : List MojDbKind) : KindMap :=
  others.foldl (fun kinds other =>
    if id ∈ other.superIds then addSuper kinds other.id id else kinds) kinds

def addRoot (kinds : KindMap) (id : MojString) : KindMap :=
  match kinds.find id with
  | some kind =>
    if kind.supers = [] ∧ (kinds.find rootKindId).isSome then addSuper kinds id rootKindId
    else kinds
  | none => kinds

/-- `updateSupers`, for a kind that has its new ids of supers already. -/
def updateSupers (kinds : KindMap) (id : MojString) (superIds : List MojString) : KindMap :=
  let kinds := clearSupers kinds id
  let kinds := addSupers kinds id superIds
  let kinds := addSubs kinds id kinds.kinds
  addRoot kinds id

/-- `configure` for a kind the permission to do so was checked for. -/
def configure (kinds : KindMap) (id : MojString) (obj : KindObject) : KindMap :=
  let supers := ((kinds.find id).map MojDbKind.supers).getD []
  updateSupers (kinds.put ⟨id, obj.owner, obj.superIds, supers, obj.indexes⟩) id obj.superIds

def delKind (kinds : KindMap) (id : MojString) : KindMap :=
  (clearSupers kinds id).erase id

/-- `MojDb::reloadKind`, with the kind object that is stored. -/
def reloadKind (kinds : KindMap) (id : MojString) (stored : Option KindObject) : KindMap :=
  match stored with
  | some obj => configure (delKind kinds id) id obj
  | none => delKind kinds id

structure Apart (id : MojString) (kind : MojDbKind) : Prop where
  other : id ≠ kind.id
  unnamed : id ∉ kind.superIds
  unlinked : id ∉ kind.supers

/-- A change of the kind map that leaves kinds apart from this one alone and registers no other. -/
structure Leaves (id : MojString) (before after : KindMap) : Prop where
  kept : ∀ kind, Apart id kind → before.find kind.id = some kind →
    after.find kind.id = some kind
  absent : ∀ other, id ≠ other → before.find other = none → after.find other = none

namespace Leaves

variable {id : MojString}

variable (kinds : KindMap)

theorem refl : Leaves id kinds kinds where
  kept _ _ found := found
  absent _ _ found := found

theorem trans {first second third : KindMap} (front : Leaves id first second)
    (back : Leaves id second third) : Leaves id first third where
  kept kind apart found := back.kept kind apart (front.kept kind apart found)
  absent other different found := back.absent other different (front.absent other different found)

theorem put {kind : MojDbKind} (named : kind.id = id) :
    Leaves id kinds (kinds.put kind) where
  kept other apart found := by
    rw [KindMap.find_put, if_neg, found]
    exact fun same => apart.other (named.symm.trans same)
  absent other different found := by
    rw [KindMap.find_put, if_neg, found]
    exact fun same => different (named.symm.trans same)

theorem withSupers (change : List MojString → List MojString) :
    Leaves id kinds (kinds.withSupers id change) where
  kept kind apart found := by
    rw [KindMap.find_withSupers kinds id kind.id change apart.other, found]
  absent _ _ found := KindMap.find_withSupers_none id change found

theorem erase : Leaves id kinds (kinds.erase id) where
  kept kind apart found := by
    rw [KindMap.find_erase, if_neg apart.other, found]
  absent other different found := by
    rw [KindMap.find_erase, if_neg different, found]

theorem addSuper (super : MojString) : Leaves id kinds (addSuper kinds id super) := by
  unfold MojDbKindEngine.addSuper
  split_ifs
  · exact refl kinds
  · exact withSupers kinds _

theorem clearSupers : Leaves id kinds (clearSupers kinds id) := by
  unfold MojDbKindEngine.clearSupers
  apply Leaves.trans _ (withSupers _ _)
  constructor
  · intro kind apart found
    rw [KindMap.find_mapSupers, found]
    have kept : kind.supers.filter (fun super => decide (super ≠ id)) = kind.supers := by
      rw [List.filter_eq_self]
      intro super member
      exact decide_eq_true fun same => apart.unlinked (same ▸ member)
    simp only [Option.map_some, kept]
  · intro other _ found
    rw [KindMap.find_mapSupers, found]
    rfl

theorem addSupers (superIds : List MojString) : Leaves id kinds (addSupers kinds id superIds) := by
  unfold MojDbKindEngine.addSupers
  induction superIds generalizing kinds with
  | nil => exact refl kinds
  | cons super rest ih =>
    rw [List.foldl_cons]
    apply Leaves.trans _ (ih _)
    split_ifs
    · exact addSuper kinds super
    · exact refl kinds

theorem addSubs (kinds current : KindMap) {others : List MojDbKind}
    (registered : ∀ other ∈ others, kinds.find other.id = some other)
    (so : Leaves id kinds current) : Leaves id kinds (addSubs current id others) := by
  unfold MojDbKindEngine.addSubs
  induction others generalizing current with
  | nil => exact so
  | cons other rest ih =>
    rw [List.foldl_cons]
    apply ih _ (fun next member => registered next (List.mem_cons_of_mem other member))
    split_ifs with named
    · unfold MojDbKindEngine.addSuper
      split_ifs
      · exact so
      · constructor
        · intro kind apart found
          have distinct : other.id ≠ kind.id := by
            intro same
            have isOther := registered other List.mem_cons_self
            rw [same, found] at isOther
            exact apart.unnamed (Option.some.inj isOther ▸ named)
          rw [KindMap.find_withSupers _ _ _ _ distinct]
          exact so.kept kind apart found
        · intro absent different found
          exact KindMap.find_withSupers_none _ _ (so.absent absent different found)
    · exact so

theorem addRoot : Leaves id kinds (addRoot kinds id) := by
  unfold MojDbKindEngine.addRoot
  cases kinds.find id with
  | none => exact refl kinds
  | some kind =>
    simp only
    split_ifs
    · exact addSuper kinds rootKindId
    · exact refl kinds

theorem updateSupers (superIds : List MojString) :
    Leaves id kinds (updateSupers kinds id superIds) := by
  unfold MojDbKindEngine.updateSupers
  apply (clearSupers kinds).trans
  apply (addSupers _ superIds).trans
  apply Leaves.trans _ (addRoot _)
  apply addSubs _ _ _ (refl _)
  intro other member
  exact (KindMap.mem_kinds_iff _ other).mp member

theorem configure (obj : KindObject) : Leaves id kinds (configure kinds id obj) :=
  Leaves.trans (put kinds (by rfl)) (updateSupers _ _)

theorem delKind : Leaves id kinds (delKind kinds id) :=
  (clearSupers kinds).trans (erase _)

theorem reloadKind (stored : Option KindObject) : Leaves id kinds (reloadKind kinds id stored) := by
  cases stored with
  | none => exact delKind kinds
  | some obj => exact (delKind kinds).trans (configure _ obj)

end Leaves

/-- After a change each kind has the owner it had before, or this one. -/
def Owners (owner : MojString) (before after : KindMap) : Prop :=
  ∀ id kind, after.find id = some kind →
    kind.owner = owner ∨ ∃ old, before.find id = some old ∧ old.owner = kind.owner

namespace Owners

variable {owner : MojString}

variable (kinds : KindMap)

theorem refl : Owners owner kinds kinds :=
  fun _ kind found => Or.inr ⟨kind, found, rfl⟩

theorem trans {first second third : KindMap} (front : Owners owner first second)
    (back : Owners owner second third) : Owners owner first third := by
  intro id kind found
  rcases back id kind found with new | ⟨middle, there, same⟩
  · exact Or.inl new
  · rcases front id middle there with new | ⟨old, before, same'⟩
    · exact Or.inl (same.symm.trans new)
    · exact Or.inr ⟨old, before, same'.trans same⟩

theorem put {kind : MojDbKind} (owned : kind.owner = owner) :
    Owners owner kinds (kinds.put kind) := by
  intro id other found
  rw [KindMap.find_put] at found
  split_ifs at found
  · exact Or.inl (Option.some.inj found ▸ owned)
  · exact Or.inr ⟨other, found, rfl⟩

theorem withSupers (id : MojString) (change : List MojString → List MojString) :
    Owners owner kinds (kinds.withSupers id change) := by
  unfold KindMap.withSupers
  cases there : kinds.find id with
  | none => exact refl kinds
  | some kind =>
    intro other found inside
    rw [KindMap.find_put] at inside
    split_ifs at inside with same
    · have named : id = other := (KindMap.find_id there).symm.trans same
      rw [← Option.some.inj inside]
      exact Or.inr ⟨kind, named ▸ there, rfl⟩
    · exact Or.inr ⟨found, inside, rfl⟩

theorem mapSupers (change : List MojString → List MojString) :
    Owners owner kinds (kinds.mapSupers change) := by
  intro id kind found
  rw [KindMap.find_mapSupers] at found
  rcases Option.map_eq_some_iff.mp found with ⟨old, there, same⟩
  exact Or.inr ⟨old, there, by rw [← same]⟩

theorem erase (id : MojString) : Owners owner kinds (kinds.erase id) := by
  intro other kind found
  rw [KindMap.find_erase] at found
  split_ifs at found
  exact Or.inr ⟨kind, found, rfl⟩

theorem addSuper (id super : MojString) : Owners owner kinds (addSuper kinds id super) := by
  unfold MojDbKindEngine.addSuper
  split_ifs
  · exact refl kinds
  · exact withSupers kinds id _

theorem clearSupers (id : MojString) : Owners owner kinds (clearSupers kinds id) :=
  (mapSupers kinds _).trans (withSupers _ id _)

theorem foldl {α : Type} {change : KindMap → α → KindMap}
    (each : ∀ kinds item, Owners owner kinds (change kinds item)) (items : List α)
    (kinds : KindMap) : Owners owner kinds (items.foldl change kinds) := by
  induction items generalizing kinds with
  | nil => exact refl kinds
  | cons item rest ih => exact (each kinds item).trans (ih _)

theorem addSupers (id : MojString) (superIds : List MojString) :
    Owners owner kinds (addSupers kinds id superIds) := by
  apply foldl
  intro kinds super
  split_ifs
  · exact addSuper kinds id super
  · exact refl kinds

theorem addSubs (id : MojString) (others : List MojDbKind) :
    Owners owner kinds (addSubs kinds id others) := by
  apply foldl
  intro kinds other
  split_ifs
  · exact addSuper kinds other.id id
  · exact refl kinds

theorem addRoot (id : MojString) : Owners owner kinds (addRoot kinds id) := by
  unfold MojDbKindEngine.addRoot
  cases kinds.find id with
  | none => exact refl kinds
  | some kind =>
    simp only
    split_ifs
    · exact addSuper kinds id rootKindId
    · exact refl kinds

theorem updateSupers (id : MojString) (superIds : List MojString) :
    Owners owner kinds (updateSupers kinds id superIds) := by
  unfold MojDbKindEngine.updateSupers
  apply (clearSupers kinds id).trans
  apply (addSupers _ id superIds).trans
  exact (addSubs _ id _).trans (addRoot _ id)

theorem configure (id : MojString) {obj : KindObject}
    (owned : obj.owner = owner) : Owners owner kinds (configure kinds id obj) :=
  Owners.trans (put kinds (by exact owned)) (updateSupers _ id _)

theorem delKind (id : MojString) : Owners owner kinds (delKind kinds id) :=
  (clearSupers kinds id).trans (erase _ id)

theorem reloadKind (id : MojString) {stored : Option KindObject}
    (owned : ∀ obj, stored = some obj → obj.owner = owner) :
    Owners owner kinds (reloadKind kinds id stored) := by
  cases stored with
  | none => exact delKind kinds id
  | some obj => exact (delKind kinds id).trans (configure _ id (owned obj rfl))

end Owners

end Db8.Db.MojDbKindEngine
