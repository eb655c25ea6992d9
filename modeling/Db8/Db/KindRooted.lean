import Db8.Db.KindLinks

/-!
# Every kind reaches the root

Runs of registrations, deletions and reloads. A kind that loses its only super gets no other one,
except the kind the step is about. As long as no step takes the only super away, and the root gives
way only where it is alone, the graph stays a tree of first supers below the root.
-/

set_option autoImplicit false

namespace Db8.Db.MojDbKindEngine

open Db8.Bytes
open Db8.Core
open Db8.Graph

def bare (kind : MojDbKind) : MojDbKind := { kind with supers := [] }

theorem superIds_of_bare {left right : MojDbKind} (same : bare left = bare right) :
    left.superIds = right.superIds := by
  have ids := congrArg MojDbKind.superIds same
  exact ids

def Rewires (before after : KindMap) : Prop :=
  ∀ id, (after.find id).map bare = (before.find id).map bare

namespace Rewires

variable (kinds : KindMap)

theorem refl : Rewires kinds kinds := fun _ => rfl

theorem trans {first second third : KindMap} (front : Rewires first second)
    (back : Rewires second third) : Rewires first third :=
  fun id => (back id).trans (front id)

theorem withSupers (id : MojString)
    (change : List MojString → List MojString) : Rewires kinds (kinds.withSupers id change) := by
  intro other
  rw [KindMap.find_withSupers_eq, Option.map_map]
  congr 1
  funext kind
  simp only [Function.comp_apply]
  split_ifs <;> rfl

theorem addSuper (kind super : MojString) : Rewires kinds (addSuper kinds kind super) := by
  unfold MojDbKindEngine.addSuper
  split_ifs
  · exact refl kinds
  · exact withSupers kinds kind _

theorem clearSupers (id : MojString) : Rewires kinds (clearSupers kinds id) := by
  unfold MojDbKindEngine.clearSupers
  apply Rewires.trans _ (withSupers _ id _)
  intro other
  rw [KindMap.find_mapSupers, Option.map_map]
  rfl

theorem isSome {before after : KindMap} (rewires : Rewires before after) (id : MojString) :
    (after.find id).isSome = (before.find id).isSome := by
  have same := congrArg Option.isSome (rewires id)
  rwa [Option.isSome_map, Option.isSome_map] at same

theorem find {before after : KindMap} (rewires : Rewires before after) {id : MojString}
    {kind : MojDbKind} (found : after.find id = some kind) :
    ∃ old, before.find id = some old ∧ old.superIds = kind.superIds := by
  have same := rewires id
  rw [found, Option.map_some] at same
  rcases Option.map_eq_some_iff.mp same.symm with ⟨old, there, equal⟩
  exact ⟨old, there, superIds_of_bare equal⟩

end Rewires

/-- The part of a kind's supers that a step on another kind does not touch. -/
def without (id : MojString) (supers : List MojString) : List MojString :=
  supers.filter fun super => decide (super ≠ id)

theorem mem_without {id super : MojString} {supers : List MojString} :
    super ∈ without id supers ↔ super ∈ supers ∧ super ≠ id := by
  unfold without
  rw [List.mem_filter, decide_eq_true_eq]

namespace Links

/-- What the vectors are meant to be: inverse to each other, without cycles and repetitions, and
with a super for every kind but the root. -/
structure Sound (links : Links) : Prop where
  linked : links.Linked
  acyclic : Acyclic (supersOf links.kinds)
  nodup : ∀ id, (supersOf links.kinds id).Nodup
  there : ∀ id, ∀ super ∈ supersOf links.kinds id, (links.kinds.find super).isSome
  root : (links.kinds.find rootKindId).isSome
  upward : ∀ id, (links.kinds.find id).isSome → id ≠ rootKindId → supersOf links.kinds id ≠ []

namespace Sound

variable {links : Links}

theorem climbs (sound : links.Sound) {id : MojString} (registered : (links.kinds.find id).isSome) :
    Climbs (supersOf links.kinds) id rootKindId := by
  induction id using sound.acyclic.wellFounded.induction with
  | _ id ih =>
    by_cases isRoot : id = rootKindId
    · rw [isRoot]
    · cases first : supersOf links.kinds id with
      | nil => exact absurd first (sound.upward id registered isRoot)
      | cons super rest =>
        have edge : super ∈ supersOf links.kinds id := first ▸ List.mem_cons_self
        apply Relation.ReflTransGen.head _ (ih super edge (sound.there id super edge))
        unfold First
        rw [first]
        rfl

theorem root_top (sound : links.Sound) : supersOf links.kinds rootKindId = [] := by
  cases first : supersOf links.kinds rootKindId with
  | nil => rfl
  | cons super rest =>
    have edge : super ∈ supersOf links.kinds rootKindId := first ▸ List.mem_cons_self
    have back := reaches_of_climbs (sound.climbs (sound.there _ super edge))
    exact absurd back (sound.acyclic.no_return edge)

theorem inverse (sound : links.Sound) : Inverse (supersOf links.kinds) links.subs where
  edges node other := by
    rw [← List.count_pos_iff, ← List.count_pos_iff, sound.linked node other]
  once node := by
    rw [List.nodup_iff_count_le_one]
    intro other
    rw [← sound.linked node other]
    exact List.nodup_iff_count_le_one.mp (sound.nodup other) node

end Sound

/-- After `clearSupers` on a kind, whether it was there or was loaded again. -/
structure Cleared (before : Links) (id : MojString) (links : Links) : Prop where
  linked : links.Linked
  own : supersOf links.kinds id = []
  others : ∀ other, id ≠ other →
    supersOf links.kinds other = without id (supersOf before.kinds other)
  registered : ∀ other, (links.kinds.find other).isSome ↔
    other = id ∨ (before.kinds.find other).isSome
  named : ∀ other kind, links.kinds.find other = some kind → id ≠ other →
    ∃ old, before.kinds.find other = some old ∧ old.superIds = kind.superIds

theorem supersOf_put (kinds : KindMap) (kind : MojDbKind) (other : MojString) :
    supersOf (kinds.put kind) other =
      if kind.id = other then kind.supers else supersOf kinds other := by
  unfold supersOf
  rw [KindMap.find_put]
  split_ifs <;> rfl

theorem supersOf_erase (kinds : KindMap) (id other : MojString) :
    supersOf (kinds.erase id) other = if id = other then [] else supersOf kinds other := by
  unfold supersOf
  rw [KindMap.find_erase]
  split_ifs <;> rfl

variable {links : Links}

theorem Linked.put (linked : links.Linked) (kind : MojDbKind)
    (same : kind.supers = supersOf links.kinds kind.id) (builtin : MojString → Bool) :
    Linked { links with kinds := links.kinds.put kind, builtin := builtin } := by
  intro super sub
  have kept : supersOf (links.kinds.put kind) sub = supersOf links.kinds sub := by
    rw [supersOf_put]
    split_ifs with isKind
    · rw [same, isKind]
    · rfl
  simp only [kept]
  exact linked super sub

theorem Linked.delKind (linked : links.Linked) (id : MojString) : (links.delKind id).Linked := by
  have cleared := linked_clearSupers linked id
  intro super sub
  have kept : supersOf ((links.clearSupers id).kinds.erase id) sub =
      supersOf (links.clearSupers id).kinds sub := by
    rw [supersOf_erase, kinds_clearSupers linked, supersOf_clearSupers]
    split_ifs <;> rfl
  unfold Links.delKind
  simp only [kept]
  exact cleared super sub

theorem supersOf_delKind (linked : links.Linked) (id other : MojString) :
    supersOf (links.delKind id).kinds other =
      if id = other then [] else without id (supersOf links.kinds other) := by
  unfold Links.delKind
  simp only
  rw [supersOf_erase, kinds_clearSupers linked, supersOf_clearSupers]
  split_ifs <;> rfl

theorem find_delKind (linked : links.Linked) {id other : MojString} (different : id ≠ other) :
    ((links.delKind id).kinds.find other).map bare = (links.kinds.find other).map bare := by
  unfold Links.delKind
  simp only
  rw [KindMap.find_erase, if_neg different, kinds_clearSupers linked]
  exact Rewires.clearSupers links.kinds id other

/-- The state of `configure` after the old links are gone. -/
def unlinked (links : Links) (id : MojString) (obj : KindObject) (builtin : MojString → Bool) :
    Links :=
  { links with
    kinds := links.kinds.put ⟨id, obj.owner, obj.superIds, supersOf links.kinds id, obj.indexes⟩
    builtin := builtin }.clearSupers id

theorem kinds_unlinked (linked : links.Linked) (id : MojString) (obj : KindObject)
    (builtin : MojString → Bool) :
    (links.unlinked id obj builtin).kinds =
      MojDbKindEngine.clearSupers (links.kinds.put
        ⟨id, obj.owner, obj.superIds, supersOf links.kinds id, obj.indexes⟩) id :=
  kinds_clearSupers (linked.put _ rfl builtin) id

theorem supersOf_unlinked (linked : links.Linked) (id other : MojString) (obj : KindObject)
    (builtin : MojString → Bool) :
    supersOf (links.unlinked id obj builtin).kinds other =
      if id = other then [] else without id (supersOf links.kinds other) := by
  rw [kinds_unlinked linked, supersOf_clearSupers]
  split_ifs with same
  · rfl
  · rw [supersOf_put]
    simp only [same, if_false]
    rfl

theorem find_unlinked (linked : links.Linked) (id other : MojString) (obj : KindObject)
    (builtin : MojString → Bool) :
    ((links.unlinked id obj builtin).kinds.find other).map bare =
      if id = other then some ⟨id, obj.owner, obj.superIds, [], obj.indexes⟩
      else (links.kinds.find other).map bare := by
  rw [kinds_unlinked linked, Rewires.clearSupers _ id other, KindMap.find_put]
  split_ifs <;> rfl

theorem cleared_configure (linked : links.Linked) (id : MojString) (obj : KindObject)
    (builtin : MojString → Bool) :
    Cleared links id (links.unlinked id obj builtin) where
  linked := linked_clearSupers (linked.put _ rfl builtin) id
  own := by
    rw [supersOf_unlinked linked, if_pos rfl]
  others other different := by
    rw [supersOf_unlinked linked, if_neg different]
  registered other := by
    have same := congrArg Option.isSome (find_unlinked linked id other obj builtin)
    rw [Option.isSome_map] at same
    rw [same]
    split_ifs with isId
    · simp [isId]
    · simp [Ne.symm isId]
  named other kind found different := by
    have same := find_unlinked linked id other obj builtin
    rw [found, if_neg different, Option.map_some] at same
    rcases Option.map_eq_some_iff.mp same.symm with ⟨old, there, equal⟩
    exact ⟨old, there, superIds_of_bare equal⟩

theorem without_without (id : MojString) (supers : List MojString) :
    without id (without id supers) = without id supers := by
  unfold without
  rw [List.filter_filter]
  simp

theorem cleared_reload (linked : links.Linked) (id : MojString) (obj : KindObject)
    (builtin : MojString → Bool) :
    Cleared links id ((links.delKind id).unlinked id obj builtin) := by
  have cleared := cleared_configure (linked.delKind id) id obj builtin
  refine ⟨cleared.linked, cleared.own, ?_, ?_, ?_⟩
  · intro other different
    rw [cleared.others other different, supersOf_delKind linked, if_neg different,
      without_without]
  · intro other
    rw [cleared.registered]
    by_cases isId : other = id
    · simp [isId]
    · have same := congrArg Option.isSome (find_delKind linked (Ne.symm isId))
      rw [Option.isSome_map, Option.isSome_map] at same
      rw [same]
  · intro other kind found different
    rcases cleared.named other kind found different with ⟨middle, there, equal⟩
    have same := find_delKind linked different
    rw [there, Option.map_some] at same
    rcases Option.map_eq_some_iff.mp same.symm with ⟨old, first, alike⟩
    exact ⟨old, first, (superIds_of_bare alike).trans equal⟩

/-- Links that a step may still be adding to: some kinds may lack a super. -/
structure Healthy (links : Links) : Prop where
  linked : links.Linked
  acyclic : Acyclic (supersOf links.kinds)
  nodup : ∀ id, (supersOf links.kinds id).Nodup
  there : ∀ id, ∀ super ∈ supersOf links.kinds id, (links.kinds.find super).isSome

def RootAlone (supers : List MojString) : Prop :=
  supers.head? = some rootKindId → supers = [rootKindId]

theorem Healthy.addSuper (healthy : links.Healthy) {kind super : MojString}
    (kindThere : (links.kinds.find kind).isSome) (superThere : (links.kinds.find super).isSome)
    (alone : RootAlone (supersOf links.kinds kind)) (fresh : super ∉ supersOf links.kinds kind) :
    (links.addSuper kind super).Healthy := by
  by_cases refused : kindExtends links.kinds super kind = true
  · have same : links.addSuper kind super = links := if_pos refused
    rw [same]
    exact healthy
  · refine ⟨linked_addSuper healthy.linked kindThere super alone, ?_, ?_, ?_⟩
    · rw [kinds_addSuper]
      exact acyclic_addSuper healthy.acyclic kindThere super
    · intro id
      rw [kinds_addSuper, supersOf_addSuper _ _ _ _ kindThere refused]
      split_ifs
      · exact List.nodup_singleton super
      · rw [List.nodup_append]
        refine ⟨healthy.nodup kind, List.nodup_singleton super, ?_⟩
        intro old member new isNew same
        rw [List.mem_singleton.mp isNew] at same
        exact fresh (same ▸ member)
      · exact healthy.nodup id
    · intro id other member
      rw [kinds_addSuper] at member ⊢
      rw [(Rewires.addSuper links.kinds kind super).isSome]
      rw [supersOf_addSuper _ _ _ _ kindThere refused] at member
      split_ifs at member
      · rw [List.mem_singleton.mp member]
        exact superThere
      · rcases List.mem_append.mp member with old | new
        · exact healthy.there kind other old
        · rw [List.mem_singleton.mp new]
          exact superThere
      · exact healthy.there id other member

theorem supersOf_addSuper_other (links : Links) {kind other : MojString} (super : MojString)
    (different : kind ≠ other) :
    supersOf (links.addSuper kind super).kinds other = supersOf links.kinds other := by
  rw [kinds_addSuper]
  unfold MojDbKindEngine.addSuper supersOf
  split_ifs
  · rfl
  · rw [KindMap.find_withSupers _ _ _ _ different]

theorem supersOf_addSuper_own (links : Links) {kind : MojString} (super : MojString)
    (kindThere : (links.kinds.find kind).isSome) :
    supersOf (links.addSuper kind super).kinds kind = supersOf links.kinds kind ∨
      supersOf (links.addSuper kind super).kinds kind =
        (if (supersOf links.kinds kind).head? = some rootKindId then []
          else supersOf links.kinds kind) ++ [super] := by
  rw [kinds_addSuper]
  by_cases refused : kindExtends links.kinds super kind = true
  · rw [addSuper_refused refused]
    exact Or.inl rfl
  · rw [supersOf_addSuper _ _ _ _ kindThere refused, if_pos rfl]
    exact Or.inr rfl

theorem rootAlone_append {supers : List MojString} (super : MojString) :
    RootAlone ((if supers.head? = some rootKindId then [] else supers) ++ [super]) := by
  intro first
  split_ifs at first ⊢ with rooted
  · rw [List.nil_append, List.head?_cons] at first
    rw [List.nil_append, Option.some.inj first]
  · cases supers with
    | nil =>
      rw [List.nil_append, List.head?_cons] at first
      rw [List.nil_append, Option.some.inj first]
    | cons head rest => exact absurd first rooted

/-- What `addSupers` does: only the kind itself gets supers, from the list. -/
structure Gained (id : MojString) (superIds : List MojString) (before after : Links) : Prop where
  healthy : after.Healthy
  rewires : Rewires before.kinds after.kinds
  others : ∀ other, id ≠ other → supersOf after.kinds other = supersOf before.kinds other
  own : ∀ super ∈ supersOf after.kinds id,
    super ∈ supersOf before.kinds id ∨ super ∈ superIds ∧ (before.kinds.find super).isSome
  alone : RootAlone (supersOf after.kinds id)

variable {id : MojString}

theorem gained_addSupers (healthy : links.Healthy) (registered : (links.kinds.find id).isSome)
    (alone : RootAlone (supersOf links.kinds id)) {superIds : List MojString}
    (nodup : superIds.Nodup) (fresh : ∀ super ∈ superIds, super ∉ supersOf links.kinds id) :
    Gained id superIds links (links.addSupers id superIds) := by
  unfold addSupers
  induction superIds generalizing links with
  | nil => exact ⟨healthy, Rewires.refl _, fun _ _ => rfl, fun _ member => Or.inl member, alone⟩
  | cons super rest ih =>
    rw [List.foldl_cons]
    rw [List.nodup_cons] at nodup
    split_ifs with there
    · have next := healthy.addSuper registered there alone (fresh super List.mem_cons_self)
      have rewires := Rewires.addSuper links.kinds id super
      rw [← kinds_addSuper] at rewires
      have own := supersOf_addSuper_own links super registered
      have nextAlone : RootAlone (supersOf (links.addSuper id super).kinds id) := by
        rcases own with same | new
        · rw [same]
          exact alone
        · rw [new]
          exact rootAlone_append super
      have inside : ∀ other ∈ supersOf (links.addSuper id super).kinds id,
          other ∈ supersOf links.kinds id ∨ other = super := by
        intro other member
        rcases own with same | new
        · exact Or.inl (same ▸ member)
        · rw [new] at member
          rcases List.mem_append.mp member with old | isSuper
          · split_ifs at old
            · cases old
            · exact Or.inl old
          · exact Or.inr (List.mem_singleton.mp isSuper)
      have gained := ih next ((rewires.isSome id).trans registered) nextAlone nodup.2 (by
        intro other member again
        rcases inside other again with old | same
        · exact fresh other (List.mem_cons_of_mem super member) old
        · exact nodup.1 (same ▸ member))
      refine ⟨gained.healthy, rewires.trans gained.rewires, ?_, ?_, gained.alone⟩
      · intro other different
        rw [gained.others other different, supersOf_addSuper_other links super different]
      · intro other member
        rcases gained.own other member with old | ⟨listed, registered⟩
        · rcases inside other old with first | isSuper
          · exact Or.inl first
          · rw [isSuper]
            exact Or.inr ⟨List.mem_cons_self, there⟩
        · rw [rewires.isSome] at registered
          exact Or.inr ⟨List.mem_cons_of_mem super listed, registered⟩
    · have gained := ih healthy registered alone nodup.2 fun other member =>
        fresh other (List.mem_cons_of_mem super member)
      refine ⟨gained.healthy, gained.rewires, gained.others, ?_, gained.alone⟩
      intro other member
      exact (gained.own other member).imp (fun old => old) fun new =>
        ⟨List.mem_cons_of_mem super new.1, new.2⟩

/-- What `addSubs` does: other kinds get this one as a super, and keep one they have. -/
structure Joined (id : MojString) (before after : Links) : Prop where
  healthy : after.Healthy
  rewires : Rewires before.kinds after.kinds
  own : supersOf after.kinds id = supersOf before.kinds id
  edges : ∀ other, ∀ super ∈ supersOf after.kinds other,
    super ∈ supersOf before.kinds other ∨ super = id
  kept : ∀ other, supersOf before.kinds other ≠ [] → supersOf after.kinds other ≠ []
  unnamed : ∀ other, (∀ kind, before.kinds.find other = some kind → id ∉ kind.superIds) →
    supersOf after.kinds other = supersOf before.kinds other

theorem Joined.refl (healthy : links.Healthy) (id : MojString) : Joined id links links :=
  ⟨healthy, Rewires.refl _, rfl, fun _ _ member => Or.inl member, fun _ some => some,
    fun _ _ => rfl⟩

theorem Joined.addSuper {before links : Links} (joined : Joined id before links)
    (idThere : (before.kinds.find id).isSome) {kind : MojDbKind}
    (registered : before.kinds.find kind.id = some kind) (named : id ∈ kind.superIds)
    (alone : id ≠ kind.id → RootAlone (supersOf links.kinds kind.id))
    (fresh : id ≠ kind.id → id ∉ supersOf links.kinds kind.id) :
    Joined id before (links.addSuper kind.id id) := by
  have idNow : (links.kinds.find id).isSome := (joined.rewires.isSome id).trans idThere
  have kindNow : (links.kinds.find kind.id).isSome := by
    rw [joined.rewires.isSome, registered]
    rfl
  by_cases self : id = kind.id
  · have refused : links.addSuper kind.id id = links := by
      apply if_pos
      rw [← self]
      exact (kindExtends_iff joined.healthy.acyclic id id).mpr Relation.ReflTransGen.refl
    rw [refused]
    exact joined
  · have rewires := Rewires.addSuper links.kinds kind.id id
    rw [← kinds_addSuper] at rewires
    have own := supersOf_addSuper_own links id kindNow
    refine ⟨joined.healthy.addSuper kindNow idNow (alone self) (fresh self),
      joined.rewires.trans rewires, ?_, ?_, ?_, ?_⟩
    · rw [supersOf_addSuper_other links id (Ne.symm self), joined.own]
    · intro other super member
      by_cases isKind : kind.id = other
      · rw [← isKind] at member ⊢
        rcases own with same | new
        · rw [same] at member
          exact joined.edges kind.id super member
        · rw [new] at member
          rcases List.mem_append.mp member with old | last
          · split_ifs at old
            · cases old
            · exact joined.edges kind.id super old
          · exact Or.inr (List.mem_singleton.mp last)
      · rw [supersOf_addSuper_other links id isKind] at member
        exact joined.edges other super member
    · intro other some
      by_cases isKind : kind.id = other
      · rw [← isKind] at some ⊢
        rcases own with same | new
        · rw [same]
          exact joined.kept kind.id some
        · rw [new]
          simp
      · rw [supersOf_addSuper_other links id isKind]
        exact joined.kept other some
    · intro other unnamed
      have different : kind.id ≠ other := by
        intro same
        exact unnamed kind (same ▸ registered) named
      rw [supersOf_addSuper_other links id different]
      exact joined.unnamed other unnamed

theorem joined_addSubs {before links : Links} (joined : Joined id before links)
    (idThere : (before.kinds.find id).isSome) {others : List MojDbKind}
    (registered : ∀ kind ∈ others, before.kinds.find kind.id = some kind)
    (distinct : (others.map MojDbKind.id).Nodup)
    (untouched : ∀ kind ∈ others, supersOf links.kinds kind.id = supersOf before.kinds kind.id)
    (alone : ∀ kind ∈ others, id ∈ kind.superIds → id ≠ kind.id →
      RootAlone (supersOf before.kinds kind.id))
    (fresh : ∀ kind ∈ others, id ≠ kind.id → id ∉ supersOf before.kinds kind.id) :
    Joined id before (links.addSubs id others) ∧
      (∀ other, supersOf links.kinds other ≠ [] →
        supersOf (links.addSubs id others).kinds other ≠ []) ∧
      ∀ kind ∈ others, id ∈ kind.superIds →
        (∀ now, Joined id before now → ¬ Reaches (supersOf now.kinds) id kind.id) →
        supersOf (links.addSubs id others).kinds kind.id ≠ [] := by
  unfold addSubs
  induction others generalizing links with
  | nil =>
    refine ⟨joined, fun _ some => some, ?_⟩
    intro kind impossible
    cases impossible
  | cons head rest ih =>
    rw [List.map_cons, List.nodup_cons] at distinct
    rw [List.foldl_cons]
    have headThere := registered head List.mem_cons_self
    have headSame := untouched head List.mem_cons_self
    have next : ∀ now, Joined id before now →
        (∀ other, head.id ≠ other → supersOf now.kinds other = supersOf links.kinds other) →
        (∀ other, supersOf links.kinds other ≠ [] → supersOf now.kinds other ≠ []) →
        (id ∈ head.superIds →
          (∀ now, Joined id before now → ¬ Reaches (supersOf now.kinds) id head.id) →
          supersOf now.kinds head.id ≠ []) →
        Joined id before (now.addSubs id rest) ∧
          (∀ other, supersOf links.kinds other ≠ [] →
            supersOf (now.addSubs id rest).kinds other ≠ []) ∧
          ∀ kind ∈ head :: rest, id ∈ kind.superIds →
            (∀ now, Joined id before now → ¬ Reaches (supersOf now.kinds) id kind.id) →
            supersOf (now.addSubs id rest).kinds kind.id ≠ [] := by
      intro now joined others grown headDone
      have later := ih joined (fun kind member => registered kind (List.mem_cons_of_mem head member))
        distinct.2 (by
          intro kind member
          rw [others kind.id fun same => distinct.1 (same ▸ List.mem_map_of_mem member)]
          exact untouched kind (List.mem_cons_of_mem head member))
        (fun kind member => alone kind (List.mem_cons_of_mem head member))
        (fun kind member => fresh kind (List.mem_cons_of_mem head member))
      refine ⟨later.1, fun other some => later.2.1 other (grown other some), ?_⟩
      intro kind member named away
      rcases List.mem_cons.mp member with isHead | member
      · rw [isHead] at named away ⊢
        exact later.2.1 head.id (headDone named away)
      · exact later.2.2 kind member named away
    split_ifs with named
    · have aloneNow : id ≠ head.id → RootAlone (supersOf links.kinds head.id) := by
        rw [headSame]
        exact alone head List.mem_cons_self named
      have freshNow : id ≠ head.id → id ∉ supersOf links.kinds head.id := by
        rw [headSame]
        exact fresh head List.mem_cons_self
      have headNow : (links.kinds.find head.id).isSome := by
        rw [joined.rewires.isSome, headThere]
        rfl
      apply next _ (joined.addSuper idThere headThere named aloneNow freshNow)
      · exact fun other different => supersOf_addSuper_other links id different
      · intro other some
        by_cases isHead : head.id = other
        · rw [← isHead] at some ⊢
          rcases supersOf_addSuper_own links id headNow with same | new
          · rw [same]
            exact some
          · rw [new]
            simp
        · rw [supersOf_addSuper_other links id isHead]
          exact some
      · intro _ away
        have accepted : ¬ kindExtends links.kinds id head.id = true := by
          rw [kindExtends_iff joined.healthy.acyclic]
          exact away links joined
        rw [kinds_addSuper, supersOf_addSuper _ _ _ _ headNow accepted, if_pos rfl]
        simp
    · apply next links joined (fun _ _ => rfl) (fun _ some => some)
      exact fun isNamed => absurd isNamed named

/-- A registration takes no only super away, and lets the root give way only where it is alone. -/
structure Fits (links : Links) (id : MojString) (obj : KindObject) : Prop where
  distinct : obj.superIds.Nodup
  alone : ∀ other kind, links.kinds.find other = some kind → id ≠ other → id ∈ kind.superIds →
    RootAlone (without id kind.supers)
  relinked : ∀ other kind, links.kinds.find other = some kind → id ≠ other →
    other ≠ rootKindId → without id kind.supers = [] →
    id ∈ kind.superIds ∧ ∀ super ∈ obj.superIds, kindExtends links.kinds super other = false
  rootUnnamed : ∀ kind, links.kinds.find rootKindId = some kind → id ≠ rootKindId →
    id ∉ kind.superIds
  rootTop : id = rootKindId → ∀ super ∈ obj.superIds, (links.kinds.find super).isSome →
    super = rootKindId

structure Removable (links : Links) (id : MojString) : Prop where
  notRoot : id ≠ rootKindId
  linked : ∀ other kind, links.kinds.find other = some kind → id ≠ other →
    other ≠ rootKindId → without id kind.supers ≠ []

section Steps

variable {before links : Links} {id : MojString} {obj : KindObject}

theorem Cleared.edges (cleared : Cleared before id links) {other super : MojString}
    (edge : super ∈ supersOf links.kinds other) :
    super ∈ supersOf before.kinds other ∧ super ≠ id ∧ id ≠ other := by
  by_cases isId : id = other
  · rw [← isId, cleared.own] at edge
    cases edge
  · rw [cleared.others other isId] at edge
    have inside := mem_without.mp edge
    exact ⟨inside.1, inside.2, isId⟩

theorem Cleared.healthy (cleared : Cleared before id links) (sound : before.Sound) :
    links.Healthy where
  linked := cleared.linked
  acyclic := sound.acyclic.mono fun _ _ edge => (cleared.edges edge).1
  nodup other := by
    by_cases isId : id = other
    · rw [← isId, cleared.own]
      exact List.nodup_nil
    · rw [cleared.others other isId]
      exact (sound.nodup other).filter _
  there other super edge :=
    (cleared.registered super).mpr (Or.inr (sound.there other super (cleared.edges edge).1))

/-- A path from the kind to another one leads through a super its object names. -/
theorem reaches_before {gained now : Links} (sound : before.Sound)
    (cleared : Cleared before id links) (gains : Gained id obj.superIds links gained)
    (joined : Joined id gained now) {other : MojString}
    (only : id ∈ supersOf before.kinds other) {node : MojString}
    (reaches : Reaches (supersOf now.kinds) node other) :
    Reaches (supersOf before.kinds) node other ∨
      ∃ super ∈ obj.superIds, Reaches (supersOf before.kinds) super other := by
  have noCycle : ¬ Reaches (supersOf before.kinds) id other := sound.acyclic.no_return only
  induction reaches using Relation.ReflTransGen.head_induction_on with
  | refl => exact Or.inl Relation.ReflTransGen.refl
  | head edge later ih =>
    rename_i node next
    rcases ih with ahead | found
    · by_cases isId : id = node
      · have own : next ∈ supersOf gained.kinds id := by
          rw [← joined.own, isId]
          exact edge
        rcases gains.own next own with old | ⟨listed, -⟩
        · rw [cleared.own] at old
          cases old
        · exact Or.inr ⟨next, listed, ahead⟩
      · rcases joined.edges node next edge with old | isNext
        · rw [gains.others node isId] at old
          exact Or.inl (Relation.ReflTransGen.head (cleared.edges old).1 ahead)
        · exact absurd (isNext ▸ ahead) noCycle
    · exact Or.inr found

theorem sound_of_cleared (sound : before.Sound) (fits : Fits before id obj)
    (cleared : Cleared before id links) :
    (((links.addSupers id obj.superIds).addSubs id
        (links.addSupers id obj.superIds).kinds.kinds).addRoot id).Sound := by
  have registered : (links.kinds.find id).isSome := (cleared.registered id).mpr (Or.inl rfl)
  have gains : Gained id obj.superIds links (links.addSupers id obj.superIds) := by
    apply gained_addSupers (cleared.healthy sound) registered _ fits.distinct
    · intro super _ member
      rw [cleared.own] at member
      cases member
    · intro first
      rw [cleared.own] at first
      cases first
  generalize links.addSupers id obj.superIds = gained at gains ⊢
  have idThere : (gained.kinds.find id).isSome := (gains.rewires.isSome id).trans registered
  -- what another kind has for supers, and what its object says
  have shape : ∀ other kind, gained.kinds.find other = some kind → id ≠ other →
      supersOf gained.kinds other = without id (supersOf before.kinds other) ∧
        ∃ old, before.kinds.find other = some old ∧ old.superIds = kind.superIds := by
    intro other kind found different
    apply And.intro ((gains.others other different).trans (cleared.others other different))
    rcases gains.rewires.find found with ⟨middle, there, same⟩
    rcases cleared.named other middle there different with ⟨old, first, alike⟩
    exact ⟨old, first, alike.trans same⟩
  have registeredKinds : ∀ kind ∈ gained.kinds.kinds, gained.kinds.find kind.id = some kind :=
    fun kind member => (KindMap.mem_kinds_iff gained.kinds kind).mp member
  rcases joined_addSubs (Joined.refl gains.healthy id) idThere registeredKinds
    gained.kinds.ids_nodup (fun _ _ => rfl) (by
      intro kind member named different
      rcases shape kind.id kind (registeredKinds kind member) different with ⟨same, old, there, alike⟩
      rw [same, supersOf_eq there]
      exact fits.alone kind.id old there different (alike ▸ named)) (by
      intro kind member different inside
      rw [(shape kind.id kind (registeredKinds kind member) different).1] at inside
      exact (mem_without.mp inside).2 rfl) with ⟨joined, -, relinked⟩
  generalize gained.addSubs id gained.kinds.kinds = now at joined relinked ⊢
  have thereNow : ∀ other, (now.kinds.find other).isSome ↔
      other = id ∨ (before.kinds.find other).isSome := by
    intro other
    rw [joined.rewires.isSome, gains.rewires.isSome]
    exact cleared.registered other
  have rootNow : (now.kinds.find rootKindId).isSome := (thereNow _).mpr (Or.inr sound.root)
  -- other kinds keep or get a super
  have upward : ∀ other, (now.kinds.find other).isSome → id ≠ other → other ≠ rootKindId →
      supersOf now.kinds other ≠ [] := by
    intro other there different notRoot
    have gainedThere : (gained.kinds.find other).isSome := by
      rw [← joined.rewires.isSome]
      exact there
    rcases Option.isSome_iff_exists.mp gainedThere with ⟨kind, found⟩
    have named := KindMap.find_id found
    rcases shape other kind found different with ⟨same, old, first, alike⟩
    by_cases none : without id (supersOf before.kinds other) = []
    · rw [supersOf_eq first] at none
      rcases fits.relinked other old first different notRoot none with ⟨names, away⟩
      have only : id ∈ supersOf before.kinds other := by
        have some := sound.upward other (by rw [first]; rfl) notRoot
        rw [supersOf_eq first] at some ⊢
        cases supers : old.supers with
        | nil => exact absurd supers some
        | cons super rest =>
          by_cases isId : super = id
          · rw [isId]
            exact List.mem_cons_self
          · have inside : super ∈ without id old.supers :=
              mem_without.mpr ⟨supers ▸ List.mem_cons_self, isId⟩
            rw [none] at inside
            cases inside
      rw [← named] at found ⊢
      apply relinked kind ((KindMap.mem_kinds_iff gained.kinds kind).mpr found) (alike ▸ names)
      intro later joinedLater reaches
      rw [named] at reaches
      rcases reaches_before sound cleared gains joinedLater only reaches with cycle | found
      · exact sound.acyclic.no_return only cycle
      · rcases found with ⟨super, listed, leads⟩
        have yes := (kindExtends_iff sound.acyclic super other).mpr leads
        rw [away super listed] at yes
        cases yes
    · apply joined.kept other
      rw [same]
      exact none
  -- the root stays on top
  have top : supersOf now.kinds rootKindId = [] := by
    by_cases isRoot : id = rootKindId
    · rw [← isRoot, joined.own]
      cases own : supersOf gained.kinds id with
      | nil => rfl
      | cons super rest =>
        have edge : super ∈ supersOf gained.kinds id := own ▸ List.mem_cons_self
        rcases gains.own super edge with old | ⟨listed, there⟩
        · rw [cleared.own] at old
          cases old
        · have self : super = id := by
            rcases (cleared.registered super).mp there with isId | old
            · exact isId
            · exact (fits.rootTop isRoot super listed old).trans isRoot.symm
          exact absurd Relation.ReflTransGen.refl
            (gains.healthy.acyclic.no_return (self ▸ edge))
    · rw [joined.unnamed rootKindId, gains.others rootKindId isRoot,
        cleared.others rootKindId isRoot, sound.root_top]
      · rfl
      · intro kind found names
        rcases shape rootKindId kind found isRoot with ⟨-, old, first, alike⟩
        exact fits.rootUnnamed old first isRoot (alike ▸ names)
  have idNow : (now.kinds.find id).isSome := (thereNow id).mpr (Or.inl rfl)
  unfold addRoot
  split_ifs with alone
  · have rootAlone : RootAlone (supersOf now.kinds id) := by
      intro first
      rw [alone.1] at first
      cases first
    have fresh : rootKindId ∉ supersOf now.kinds id := by
      rw [alone.1]
      exact List.not_mem_nil
    have healthy := joined.healthy.addSuper idNow rootNow rootAlone fresh
    have rewires := Rewires.addSuper now.kinds id rootKindId
    rw [← kinds_addSuper] at rewires
    refine ⟨healthy.linked, healthy.acyclic, healthy.nodup, healthy.there, ?_, ?_⟩
    · rw [rewires.isSome]
      exact rootNow
    · intro other there notRoot
      rw [rewires.isSome] at there
      by_cases isId : id = other
      · have accepted : ¬ kindExtends now.kinds rootKindId id = true := by
          rw [kindExtends_iff joined.healthy.acyclic]
          intro reaches
          rcases Relation.ReflTransGen.cases_head reaches with same | ⟨next, edge, -⟩
          · exact notRoot (isId.symm.trans same.symm)
          · rw [Edge, top] at edge
            cases edge
        rw [← isId, kinds_addSuper, supersOf_addSuper _ _ _ _ idNow accepted, if_pos rfl]
        simp
      · rw [supersOf_addSuper_other now rootKindId isId]
        exact upward other there isId notRoot
  · refine ⟨joined.healthy.linked, joined.healthy.acyclic, joined.healthy.nodup,
      joined.healthy.there, rootNow, ?_⟩
    intro other there notRoot
    by_cases isId : id = other
    · rw [← isId]
      exact fun none => alone ⟨none, idNow, rootNow⟩
    · exact upward other there isId notRoot

end Steps

theorem sound_configure (sound : links.Sound) {obj : KindObject} (fits : Fits links id obj)
    (builtin : Bool) : (links.configure id obj builtin).Sound :=
  sound_of_cleared sound fits (cleared_configure sound.linked id obj _)

theorem sound_reload (sound : links.Sound) {obj : KindObject}
    (fits : Fits links id obj) : (links.reloadKind id (some obj)).Sound :=
  sound_of_cleared sound fits (cleared_reload sound.linked id obj _)

theorem sound_delKind (sound : links.Sound)
    (removable : Removable links id) : (links.delKind id).Sound := by
  have edges : ∀ other super, super ∈ supersOf (links.delKind id).kinds other →
      super ∈ supersOf links.kinds other ∧ super ≠ id := by
    intro other super edge
    rw [supersOf_delKind sound.linked] at edge
    split_ifs at edge
    · cases edge
    · exact mem_without.mp edge
  have still : ∀ other, id ≠ other →
      ((links.delKind id).kinds.find other).isSome = (links.kinds.find other).isSome := by
    intro other different
    have same := congrArg Option.isSome (find_delKind sound.linked different)
    rwa [Option.isSome_map, Option.isSome_map] at same
  refine ⟨sound.linked.delKind id, sound.acyclic.mono fun _ _ edge => (edges _ _ edge).1, ?_, ?_,
    ?_, ?_⟩
  · intro other
    rw [supersOf_delKind sound.linked]
    split_ifs
    · exact List.nodup_nil
    · exact (sound.nodup other).filter _
  · intro other super edge
    have before := edges other super edge
    rw [still super (Ne.symm before.2)]
    exact sound.there other super before.1
  · rw [still rootKindId removable.notRoot]
    exact sound.root
  · intro other there notRoot
    by_cases isId : id = other
    · rw [← isId] at there
      unfold Links.delKind at there
      simp only at there
      rw [KindMap.find_erase, if_pos rfl] at there
      cases there
    · rw [still other isId] at there
      rcases Option.isSome_iff_exists.mp there with ⟨kind, found⟩
      rw [supersOf_delKind sound.linked, if_neg isId, supersOf_eq found]
      exact removable.linked other kind found isId notRoot

theorem kinds_configure (linked : links.Linked) (id : MojString) (obj : KindObject) (builtin : Bool) :
    (links.configure id obj builtin).kinds = MojDbKindEngine.configure links.kinds id obj :=
  kinds_updateSupers (linked.put _ rfl _) id obj.superIds

theorem kinds_delKind (linked : links.Linked) (id : MojString) :
    (links.delKind id).kinds = MojDbKindEngine.delKind links.kinds id := by
  unfold delKind MojDbKindEngine.delKind
  simp only [kinds_clearSupers linked]

theorem kinds_reloadKind (linked : links.Linked) (id : MojString) (stored : Option KindObject) :
    (links.reloadKind id stored).kinds = MojDbKindEngine.reloadKind links.kinds id stored := by
  cases stored with
  | none => exact kinds_delKind linked id
  | some obj =>
    have configured := kinds_configure (linked.delKind id) id obj false
    rw [kinds_delKind linked] at configured
    exact configured

/-- `getKinds`: `subKinds` from the root. -/
def getKinds (links : Links) : List MojString :=
  listTree (supersOf links.kinds) links.subs (fun id => !links.builtin id)
    (links.kinds.ids.length + 1) none rootKindId

theorem Sound.getKinds_nodup (sound : links.Sound) : links.getKinds.Nodup :=
  listTree_nodup sound.acyclic sound.inverse _ none rootKindId

theorem Sound.mem_getKinds (sound : links.Sound) (id : MojString) :
    id ∈ links.getKinds ↔ (links.kinds.find id).isSome ∧ links.builtin id = false := by
  have rootListed : rootKindId ∈ links.kinds.ids := by
    rcases Option.isSome_iff_exists.mp sound.root with ⟨kind, found⟩
    have named := KindMap.find_id found
    rw [← named] at found
    rw [← named]
    exact List.mem_map_of_mem ((KindMap.mem_kinds_iff links.kinds kind).mpr found)
  unfold getKinds
  rw [mem_listTree_iff sound.acyclic sound.inverse (fun _ linked => registered_of_supersOf linked)
    (Nat.lt_succ_self _) rootListed sound.root_top, Bool.not_eq_true']
  constructor
  · intro listed
    apply And.intro _ listed.2
    rcases Relation.ReflTransGen.cases_head listed.1 with same | ⟨next, first, -⟩
    · rw [same]
      exact sound.root
    · have known := registered_of_supersOf (List.ne_nil_of_mem (First.edge first))
      rcases List.mem_map.mp known with ⟨kind, member, named⟩
      rw [← named, (KindMap.mem_kinds_iff links.kinds kind).mp member]
      rfl
  · exact fun both => ⟨sound.climbs both.1, both.2⟩

inductive KindEvent where
  | configure (id : MojString) (obj : KindObject) (builtin : Bool)
  | delKind (id : MojString)
  | reloadKind (id : MojString) (stored : Option KindObject)

def step (links : Links) : KindEvent → Links
  | .configure id obj builtin => links.configure id obj builtin
  | .delKind id => links.delKind id
  | .reloadKind id stored => links.reloadKind id stored

/-- A kind that could not be put is configured and removed again, or loaded again. -/
def run (links : Links) (events : List KindEvent) : Links := events.foldl step links

def KindEvent.Fits (links : Links) : KindEvent → Prop
  | .configure id obj _ => Links.Fits links id obj
  | .delKind id => Removable links id
  | .reloadKind id (some obj) => Links.Fits links id obj
  | .reloadKind id none => Removable links id

def AllFit : Links → List KindEvent → Prop
  | _, [] => True
  | links, event :: rest => event.Fits links ∧ AllFit (links.step event) rest

section Decide

theorem forall_find_iff (kinds : KindMap) (holds : MojString → MojDbKind → Prop) :
    (∀ id kind, kinds.find id = some kind → holds id kind) ↔
      ∀ kind ∈ kinds.kinds, holds kind.id kind := by
  constructor
  · intro all kind member
    exact all kind.id kind ((KindMap.mem_kinds_iff kinds kind).mp member)
  · intro all id kind found
    have named := KindMap.find_id found
    rw [← named] at found ⊢
    exact all kind ((KindMap.mem_kinds_iff kinds kind).mpr found)

theorem fits_iff (links : Links) (id : MojString) (obj : KindObject) :
    Fits links id obj ↔
      obj.superIds.Nodup ∧
        (∀ kind ∈ links.kinds.kinds, id ≠ kind.id → id ∈ kind.superIds →
          (without id kind.supers).head? = some rootKindId →
            without id kind.supers = [rootKindId]) ∧
        (∀ kind ∈ links.kinds.kinds, id ≠ kind.id → kind.id ≠ rootKindId →
          without id kind.supers = [] → id ∈ kind.superIds ∧
            ∀ super ∈ obj.superIds, kindExtends links.kinds super kind.id = false) ∧
        (∀ kind ∈ links.kinds.kinds, rootKindId = kind.id → id ≠ rootKindId →
          id ∉ kind.superIds) ∧
        (id = rootKindId → ∀ super ∈ obj.superIds, (links.kinds.find super).isSome →
          super = rootKindId) := by
  rw [← forall_find_iff links.kinds fun other kind => id ≠ other → id ∈ kind.superIds →
      (without id kind.supers).head? = some rootKindId → without id kind.supers = [rootKindId],
    ← forall_find_iff links.kinds fun other kind => id ≠ other → other ≠ rootKindId →
      without id kind.supers = [] → id ∈ kind.superIds ∧
        ∀ super ∈ obj.superIds, kindExtends links.kinds super other = false,
    ← forall_find_iff links.kinds fun other kind => rootKindId = other → id ≠ rootKindId →
      id ∉ kind.superIds]
  constructor
  · intro fits
    refine ⟨fits.distinct, fits.alone, fits.relinked, ?_, fits.rootTop⟩
    intro other kind found isRoot
    exact fits.rootUnnamed kind (isRoot ▸ found)
  · rintro ⟨distinct, alone, relinked, rootUnnamed, rootTop⟩
    exact ⟨distinct, alone, relinked, fun kind found => rootUnnamed rootKindId kind found rfl,
      rootTop⟩

theorem removable_iff (links : Links) (id : MojString) :
    Removable links id ↔ id ≠ rootKindId ∧
      ∀ kind ∈ links.kinds.kinds, id ≠ kind.id → kind.id ≠ rootKindId →
        without id kind.supers ≠ [] := by
  rw [← forall_find_iff links.kinds fun other kind => id ≠ other → other ≠ rootKindId →
    without id kind.supers ≠ []]
  exact ⟨fun fits => ⟨fits.notRoot, fits.linked⟩, fun fits => ⟨fits.1, fits.2⟩⟩

instance decidableFits (links : Links) (id : MojString) (obj : KindObject) :
    Decidable (Fits links id obj) :=
  @decidable_of_iff _ _ (fits_iff links id obj).symm
    (@instDecidableAnd _ _ inferInstance (@instDecidableAnd _ _ inferInstance
      (@instDecidableAnd _ _ inferInstance inferInstance)))

instance decidableRemovable (links : Links) (id : MojString) : Decidable (Removable links id) :=
  decidable_of_iff _ (removable_iff links id).symm

instance decidableEventFits (links : Links) (event : KindEvent) : Decidable (event.Fits links) :=
  match event with
  | .configure id obj _ => decidableFits links id obj
  | .delKind id => decidableRemovable links id
  | .reloadKind id (some obj) => decidableFits links id obj
  | .reloadKind id none => decidableRemovable links id

instance decidableAllFit : (links : Links) → (events : List KindEvent) →
    Decidable (AllFit links events)
  | _, [] => isTrue trivial
  | links, event :: rest =>
    @instDecidableAnd _ _ (decidableEventFits links event)
      (decidableAllFit (links.step event) rest)

end Decide

/-- The root kind alone, as it is first when the kind engine opens. -/
def rooted (indexes : List MojDbIndex) : Links where
  kinds := KindMap.empty.put ⟨rootKindId, adminOwner, [], [], indexes⟩
  subs _ := []
  builtin id := decide (id = rootKindId)

theorem sound_rooted (indexes : List MojDbIndex) : (rooted indexes).Sound := by
  have none : ∀ id, supersOf (rooted indexes).kinds id = [] := by
    intro id
    unfold rooted
    rw [supersOf_put]
    split_ifs <;> rfl
  have there : ((rooted indexes).kinds.find rootKindId).isSome := by
    unfold rooted
    rw [KindMap.find_put, if_pos rfl]
    rfl
  refine ⟨?_, ⟨fun _ => 0, ?_⟩, ?_, ?_, there, ?_⟩
  · intro id other
    rw [none]
    rfl
  · intro node next edge
    rw [none] at edge
    cases edge
  · intro id
    rw [none]
    exact List.nodup_nil
  · intro id super edge
    rw [none] at edge
    cases edge
  · intro id known notRoot
    unfold rooted at known
    rw [KindMap.find_put, if_neg (Ne.symm notRoot)] at known
    cases known

theorem sound_step (sound : links.Sound) {event : KindEvent}
    (fits : event.Fits links) : (links.step event).Sound := by
  cases event with
  | configure id obj builtin => exact sound_configure sound fits builtin
  | delKind id => exact sound_delKind sound fits
  | reloadKind id stored =>
    cases stored with
    | none => exact sound_delKind sound fits
    | some obj => exact sound_reload sound fits

theorem sound_run (sound : links.Sound) {events : List KindEvent}
    (fits : AllFit links events) : (links.run events).Sound := by
  induction events generalizing links with
  | nil => exact sound
  | cons event rest ih => exact ih (sound_step sound fits.1) fits.2

/-- After steps that fit, the vectors of supers and sub kinds are inverse, walks up the supers end,
every kind climbs to the root, `extends` is exact, and `getKinds` lists what is not built in. -/
theorem kinds_climb_to_root (indexes : List MojDbIndex) (events : List KindEvent)
    (fits : AllFit (rooted indexes) events) :
    ((rooted indexes).run events).Linked ∧
      (WellFounded fun super kind =>
        super ∈ supersOf ((rooted indexes).run events).kinds kind) ∧
      (∀ id, (((rooted indexes).run events).kinds.find id).isSome →
        Climbs (supersOf ((rooted indexes).run events).kinds) id rootKindId) ∧
      (∀ kind id, kindExtends ((rooted indexes).run events).kinds kind id = true ↔
        Reaches (supersOf ((rooted indexes).run events).kinds) kind id) ∧
      ((rooted indexes).run events).getKinds.Nodup ∧
      ∀ id, id ∈ ((rooted indexes).run events).getKinds ↔
        (((rooted indexes).run events).kinds.find id).isSome ∧
          ((rooted indexes).run events).builtin id = false := by
  have sound := sound_run (sound_rooted indexes) fits
  exact ⟨sound.linked, sound.acyclic.wellFounded, fun _ => sound.climbs,
    kindExtends_iff sound.acyclic, sound.getKinds_nodup, sound.mem_getKinds⟩

section Example

def lowKind : MojString := chars "Low:1".toList

def highKind : MojString := chars "High:1".toList

def sideKind : MojString := chars "Side:1".toList

def anyOwner : MojString := chars "com.example".toList

def putKindEvent (id : MojString) (superIds : List MojString) : KindEvent :=
  .configure id ⟨anyOwner, superIds, []⟩ false

/-- `Low:1` extends two kinds; the first is put again and the second removed. -/
def lowEvents : List KindEvent :=
  [putKindEvent highKind [], putKindEvent sideKind [], putKindEvent lowKind [highKind, sideKind],
    putKindEvent highKind [], .delKind sideKind]

theorem low_climbs :
    AllFit (rooted []) lowEvents ∧
      supersOf ((rooted []).run lowEvents).kinds lowKind = [highKind] ∧
      Climbs (supersOf ((rooted []).run lowEvents).kinds) lowKind rootKindId ∧
      lowKind ∈ ((rooted []).run lowEvents).getKinds := by
  have fits : AllFit (rooted []) lowEvents := by decide +kernel
  have sound := kinds_climb_to_root [] lowEvents fits
  have there : (((rooted []).run lowEvents).kinds.find lowKind).isSome := by decide +kernel
  refine ⟨fits, by decide +kernel, sound.2.2.1 lowKind there, ?_⟩
  exact (sound.2.2.2.2.2 lowKind).mpr ⟨there, by decide +kernel⟩

def cyclic : Links :=
  (rooted []).run [putKindEvent lowKind [highKind], putKindEvent highKind [],
    putKindEvent highKind [lowKind]]

/-- A kind names the root between others, and the first of them is put again. -/
def rootBetween : Links :=
  (rooted []).run [putKindEvent highKind [], putKindEvent sideKind [],
    putKindEvent lowKind [highKind, rootKindId, sideKind], putKindEvent highKind []]

/-- Naming each other cuts both kinds off the root, and `getKinds` lists none of them. Where the
root gives way with other supers behind it, a vector of sub kinds keeps a kind that has left. -/
theorem kinds_cut_off :
    (cyclic.kinds.find lowKind).isSome ∧
      ¬ Climbs (supersOf cyclic.kinds) lowKind rootKindId ∧
      cyclic.getKinds = [] ∧
      ¬ rootBetween.Linked := by
  refine ⟨by decide +kernel, ?_, by decide +kernel, ?_⟩
  · intro climbs
    rcases Relation.ReflTransGen.cases_head climbs with same | ⟨next, first, -⟩
    · exact absurd same (by decide)
    · have none : supersOf cyclic.kinds lowKind = [] := by decide +kernel
      rw [First, none] at first
      cases first
  · intro linked
    have counts := linked sideKind lowKind
    exact absurd counts (by decide +kernel)

end Example

end Links

end Db8.Db.MojDbKindEngine
