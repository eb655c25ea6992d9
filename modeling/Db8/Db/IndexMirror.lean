import Db8.Db.IndexUpdate
import Db8.Db.MergeOnce
import Db8.Db.SearchIds
import Db8.Steps

/-!
# The indexes mirror the objects

Objects are put, merged and deleted in transactions that commit or abort, under kinds that stay as they
are. After any run the stored keys are those the indexes have of the stored objects: an index holds the
keys of the objects of its kind and of all kinds that extend it, and it holds no others.
-/

set_option autoImplicit false

namespace Db8.Db.IndexMirror

open Db8.Bytes
open Db8.Core
open Db8.Graph
open MojDb
open MojDbKindEngine

structure Store where
  objDb : SortedMap MojString MojObject
  keys : KeySet

/-- What kinds and storage do with an object besides the indexes. No revision set is named like the
id. -/
structure Rest where
  kind : MojObject → KindUpdate
  storage : MojObject → Option MojErr
  named : ∀ obj, ∀ revSet ∈ (kind obj).revSets, revSet.name ≠ idKey

/-- A write to one object. An object that is put without an id gets the one that is generated for it;
a merge or a deletion by query writes the objects it meets one by one. -/
inductive Write where
  | put (flags : PutFlags) (id : MojString) (obj : MojObject)
  | merge (id : MojString) (props : MojObject)
  | del (id : MojString) (purge : Bool)

/-- What is read back under an id: the id is in the header. -/
def readBack (id : MojString) (obj : MojObject) : MojObject :=
  if obj.get idKey = some (.string id) then obj else obj.put idKey (.string id)

namespace Rest

def putObj (rest : Rest) (id : MojString) (obj : MojObject) (prev : Option MojObject) :
    Taking (Option Change) :=
  putKeyed (rest.kind obj) (rest.storage obj) (.string id) obj prev

/-- `putImpl`, with the object the indexes get. -/
def putImpl (rest : Rest) (flags : PutFlags) (id : MojString) (obj : MojObject)
    (prev : Option MojObject) : Taking (Option Change) :=
  match prev with
  | none =>
    if flags.ignoreMissing ∧ flags.merge then return none
    else rest.putObj id (if (obj.get idKey).isSome then obj else obj.put idKey (.string id)) none
  | some prev => do
    let obj := if flags.merge then mergeInto obj prev else obj
    match checkRev flags obj prev with
    | .error err => throw err
    | .ok () => rest.putObj id obj (some prev)

end Rest

/-- The end of a write: the indexes are updated and the object is stored. -/
def update (kinds : KindMap) (store : Store) (id : MojString) (newObj oldObj : Option MojObject) :
    Except MojErr Store := do
  let keys ← MojDbKindEngine.update kinds newObj oldObj store.keys
  .ok ⟨match newObj with
    | some obj => store.objDb.put id (readBack id obj)
    | none => store.objDb.del id, keys⟩

def raise {α : Type} : Except MojErr α → Taking α
  | .ok result => pure result
  | .error err => throw err

def change (kinds : KindMap) (store : Store) (id : MojString) (prev : Option MojObject) :
    Option Change → Taking Store
  | none => pure store
  | some change => raise (update kinds store id (some change.keyed) prev)

def write (kinds : KindMap) (rest : Rest) (store : Store) : Write → Taking Store
  | .put flags id obj => do
    let prev := if (obj.get idKey).isSome then store.objDb.find id else none
    let made ← rest.putImpl flags id obj prev
    change kinds store id prev made
  | .merge id props =>
    match store.objDb.find id with
    | none => pure store
    | some prev => do
      let made ← rest.putObj id (mergeInto props prev) (some prev)
      change kinds store id (some prev) made
  | .del id purge =>
    match store.objDb.find id with
    | none => pure store
    | some prev =>
      if purge then raise (update kinds store id none (some prev))
      else do
        let made ← rest.putObj id (prev.put delKey (.bool true)) (some prev)
        change kinds store id (some prev) made

structure System where
  committed : Store
  view : Store
  ids : Ids

inductive Event where
  | write (write : Write)
  | commit
  | abort

/-- A request whose write fails gives up its transaction. -/
def step (kinds : KindMap) (rest : Rest) : Event → System → Option System
  | .write made, sys =>
    match write kinds rest sys.view made sys.ids with
    | .ok view ids => some ⟨sys.committed, view, ids⟩
    | .error _ ids => some ⟨sys.committed, sys.committed, ids⟩
  | .commit, sys => some { sys with committed := sys.view }
  | .abort, sys => some { sys with view := sys.committed }

def empty : Store := ⟨SortedMap.empty, SortedSet.empty⟩

/-- An object is put under its own id or under one that is new, and a merge leaves the id alone. -/
def Fits : Event → System → Prop
  | .write (.put _ id obj), sys =>
    obj.get idKey = some (.string id) ∨ obj.get idKey = none ∧ sys.view.objDb.find id = none
  | .write (.merge _ props), _ => props.get idKey = none
  | _, _ => True

instance (event : Event) (sys : System) : Decidable (Fits event sys) :=
  match event with
  | .write (.put _ id obj) => inferInstanceAs
      (Decidable (obj.get idKey = some (.string id) ∨ obj.get idKey = none ∧ _ = none))
  | .write (.merge _ props) => inferInstanceAs (Decidable (props.get idKey = none))
  | .write (.del _ _) => isTrue trivial
  | .commit => isTrue trivial
  | .abort => isTrue trivial

/-- Every index has an id of its own and the entry for the objects' ids that is built in. -/
structure WellIndexed (kinds : KindMap) : Prop where
  apart : ∀ id other, ∀ index ∈ indexesOf kinds id, ∀ second ∈ indexesOf kinds other,
    index.id = second.id → id = other
  nodup : ∀ id, ((indexesOf kinds id).map MojDbIndex.id).Nodup
  plain : ∀ id, ∀ index ∈ indexesOf kinds id, idProp ∈ index.props

/-- A key that a kind's indexes and those above it have for an object. -/
def Below (kinds : KindMap) (kind : MojString) (obj : Option MojObject) (key : MojDbKey) : Prop :=
  ∃ id, Reaches (supersOf kinds) kind id ∧ ∃ index ∈ indexesOf kinds id, key ∈ index.contribution obj

def KeyOf (kinds : KindMap) (obj : MojObject) (key : MojDbKey) : Prop :=
  ∃ kind, kindOf kinds obj = .ok kind ∧ Below kinds kind.id (some obj) key

structure Mirrors (kinds : KindMap) (store : Store) : Prop where
  named : ∀ id obj, store.objDb.find id = some obj → obj.get idKey = some (.string id)
  keys : ∀ key, key ∈ store.keys ↔ ∃ id obj, store.objDb.find id = some obj ∧ KeyOf kinds obj key

/-! ### Keys of different indexes and objects -/

theorem starts_of_contribution {index : MojDbIndex} {obj : MojObject} {key : MojDbKey}
    (member : key ∈ index.contribution (some obj)) : MojDbKey.assign index.id none <+: key := by
  rcases MojDbSearchCursor.contribution_spelled member with ⟨parts, -, spells⟩
  rw [spells.key]
  exact List.prefix_append _ _

theorem id_of_contributions {index other : MojDbIndex} {obj second : MojObject} {key : MojDbKey}
    (one : key ∈ index.contribution (some obj)) (two : key ∈ other.contribution (some second)) :
    index.id = other.id := by
  rcases starts_of_contribution one with ⟨rest, same⟩
  rcases starts_of_contribution two with ⟨more, again⟩
  exact (MojObjectWriter.value_append_inj _ _ _ _ (same.trans again.symm)).1

section Keys

variable {kinds : KindMap}

theorem WellIndexed.same_index (well : WellIndexed kinds) {id other : MojString} {index second : MojDbIndex}
    (one : index ∈ indexesOf kinds id) (two : second ∈ indexesOf kinds other)
    (same : index.id = second.id) : index = second := by
  have here := well.apart id other index one second two same
  rw [← here] at two
  exact List.inj_on_of_nodup_map (well.nodup id) one two same

theorem WellIndexed.same_object (well : WellIndexed kinds) {kind other : MojString} {obj second : MojObject}
    {id secondId : MojString} {key : MojDbKey} (named : obj.get idKey = some (.string id))
    (secondNamed : second.get idKey = some (.string secondId))
    (one : Below kinds kind (some obj) key) (two : Below kinds other (some second) key) :
    id = secondId := by
  rcases one with ⟨place, -, index, own, keyed⟩
  rcases two with ⟨secondPlace, -, secondIndex, secondOwn, secondKeyed⟩
  have same := well.same_index own secondOwn (id_of_contributions keyed secondKeyed)
  rw [← same] at secondKeyed
  have plain := well.plain place index own
  have read := MojDbSearchCursor.parseId_plain plain named trivial (by simp [MojObject.type]) keyed
  rw [MojDbSearchCursor.parseId_plain plain secondNamed trivial (by simp [MojObject.type])
    secondKeyed] at read
  simpa using read.symm

end Keys

/-! ### What one update does to the keys -/

/-- Indexes apart from each other exchange the keys of the old object for those of the new one, each its
own. -/
theorem mem_foldl_update (newObj oldObj : Option MojObject) (key : MojDbKey)
    (indexes : List MojDbIndex) (nodup : (indexes.map MojDbIndex.id).Nodup) (keys : KeySet)
    (shared : ∀ index ∈ indexes, key ∈ index.contribution newObj →
      key ∈ index.contribution oldObj → key ∈ keys) :
    key ∈ indexes.foldl (fun keys index => (index.update newObj oldObj keys).stored) keys ↔
      (∃ index ∈ indexes, key ∈ index.contribution newObj) ∨
        key ∈ keys ∧ ¬ ∃ index ∈ indexes, key ∈ index.contribution oldObj := by
  induction indexes generalizing keys with
  | nil => simp
  | cons index rest ih =>
    rw [List.map_cons, List.nodup_cons] at nodup
    have here := index.mem_update newObj oldObj keys key (shared index List.mem_cons_self)
    have others : ∀ obj, key ∈ index.contribution oldObj → ∀ other ∈ rest,
        key ∉ other.contribution obj := by
      intro obj own other member again
      cases oldObj with
      | none => exact absurd own (SortedSet.not_mem_empty key)
      | some old =>
        cases obj with
        | none => exact absurd again (SortedSet.not_mem_empty key)
        | some obj =>
          rw [id_of_contributions own again] at nodup
          exact nodup.1 (List.mem_map_of_mem member)
    rw [List.foldl_cons, ih nodup.2]
    · rw [here]
      simp only [List.exists_mem_cons_iff]
      constructor
      · rintro (⟨other, member, new⟩ | ⟨new | ⟨old, gone⟩, none⟩)
        · exact Or.inl (Or.inr ⟨other, member, new⟩)
        · exact Or.inl (Or.inl new)
        · exact Or.inr ⟨old, fun either => either.elim gone none⟩
      · rintro ((new | some) | ⟨old, none⟩)
        · by_cases again : ∃ other ∈ rest, key ∈ other.contribution newObj
          · exact Or.inl again
          · apply Or.inr
            apply And.intro (Or.inl new)
            rintro ⟨other, member, keyed⟩
            cases oldObj with
            | none => exact absurd keyed (SortedSet.not_mem_empty key)
            | some old =>
              cases newObj with
              | none => exact absurd new (SortedSet.not_mem_empty key)
              | some obj =>
                apply nodup.1
                rw [id_of_contributions new keyed]
                exact List.mem_map_of_mem member
        · exact Or.inl some
        · exact Or.inr ⟨Or.inr ⟨old, fun gone => none (Or.inl gone)⟩, fun gone => none (Or.inr gone)⟩
    · intro other member new old
      rw [here]
      apply Or.inr
      apply And.intro (shared other (List.mem_cons_of_mem index member) new old)
      intro own
      exact others oldObj own other member old

theorem foldl_updateOwnIndexes (kinds : KindMap) (newObj oldObj : Option MojObject)
    (walk : List MojString) (keys : KeySet) :
    walk.foldl (fun keys kind => updateOwnIndexes (indexesOf kinds kind) newObj oldObj keys) keys =
      (walk.flatMap (indexesOf kinds)).foldl
        (fun keys index => (index.update newObj oldObj keys).stored) keys := by
  induction walk generalizing keys with
  | nil => rfl
  | cons kind walk ih =>
    rw [List.foldl_cons, ih, List.flatMap_cons, List.foldl_append]
    rfl

section Update

variable {kinds : KindMap}

theorem WellIndexed.walk_nodup (well : WellIndexed kinds) {walk : List MojString}
    (once : walk.Nodup) : ((walk.flatMap (indexesOf kinds)).map MojDbIndex.id).Nodup := by
  rw [List.map_flatMap, List.nodup_flatMap]
  apply And.intro fun kind _ => well.nodup kind
  apply once.imp
  intro kind other different id one two
  rcases List.mem_map.mp one with ⟨index, own, named⟩
  rcases List.mem_map.mp two with ⟨second, secondOwn, again⟩
  exact different (well.apart kind other index own second secondOwn (named.trans again.symm))

theorem WellIndexed.mem_updateIndexes (well : WellIndexed kinds) (newObj oldObj : Option MojObject)
    (kind : MojString) (keys : KeySet) (key : MojDbKey)
    (shared : Below kinds kind newObj key → Below kinds kind oldObj key → key ∈ keys) :
    key ∈ updateIndexes kinds newObj oldObj kind keys ↔
      Below kinds kind newObj key ∨ key ∈ keys ∧ ¬ Below kinds kind oldObj key := by
  rcases updateIndexes_walk kinds newObj oldObj kind keys with ⟨walk, same, once, reached⟩
  have among : ∀ obj, (∃ index ∈ walk.flatMap (indexesOf kinds), key ∈ index.contribution obj) ↔
      Below kinds kind obj key := by
    intro obj
    unfold Below
    constructor
    · rintro ⟨index, member, keyed⟩
      rcases List.mem_flatMap.mp member with ⟨id, inWalk, own⟩
      exact ⟨id, (reached id).mp inWalk, index, own, keyed⟩
    · rintro ⟨id, reaches, index, own, keyed⟩
      exact ⟨index, List.mem_flatMap.mpr ⟨id, (reached id).mpr reaches, own⟩, keyed⟩
  rw [same, foldl_updateOwnIndexes, mem_foldl_update newObj oldObj key _ (well.walk_nodup once),
    among, among]
  intro index member new old
  exact shared ((among newObj).mp ⟨index, member, new⟩) ((among oldObj).mp ⟨index, member, old⟩)

theorem not_below_none (kind : MojString) (key : MojDbKey) : ¬ Below kinds kind none key := by
  rintro ⟨_, _, _, _, keyed⟩
  exact SortedSet.not_mem_empty key keyed

def KeyOfSome (kinds : KindMap) (obj : Option MojObject) (key : MojDbKey) : Prop :=
  ∃ found ∈ obj, KeyOf kinds found key

theorem keyOf_iff {obj : MojObject} {kind : MojDbKind} (found : kindOf kinds obj = .ok kind)
    (key : MojDbKey) : KeyOf kinds obj key ↔ Below kinds kind.id (some obj) key := by
  constructor
  · rintro ⟨other, again, below⟩
    rw [found] at again
    cases again
    exact below
  · exact fun below => ⟨kind, found, below⟩

theorem WellIndexed.mem_update (well : WellIndexed kinds) {newObj oldObj : Option MojObject}
    {before after : KeySet} (updated : MojDbKindEngine.update kinds newObj oldObj before = .ok after)
    (stored : ∀ key, KeyOfSome kinds oldObj key → key ∈ before) (key : MojDbKey) :
    key ∈ after ↔ KeyOfSome kinds newObj key ∨ key ∈ before ∧ ¬ KeyOfSome kinds oldObj key := by
  have given : ∀ {obj : MojObject} {kind : MojDbKind}, kindOf kinds obj = .ok kind →
      (KeyOfSome kinds (some obj) key ↔ Below kinds kind.id (some obj) key) := by
    intro obj kind found
    simp [KeyOfSome, keyOf_iff found]
  have missing : ¬ KeyOfSome kinds none key := by simp [KeyOfSome]
  cases newObj with
  | none =>
    cases oldObj with
    | none =>
      cases updated
      simp [missing]
    | some old =>
      rw [MojDbKindEngine.update] at updated
      rcases except_bind_ok updated with ⟨kind, found, same⟩
      cases same
      rw [well.mem_updateIndexes none (some old) kind.id before key, given found]
      · simp [missing, not_below_none]
      · exact fun none _ => absurd none (not_below_none kind.id key)
  | some obj =>
    cases oldObj with
    | none =>
      rw [MojDbKindEngine.update] at updated
      rcases except_bind_ok updated with ⟨kind, found, same⟩
      cases same
      rw [well.mem_updateIndexes (some obj) none kind.id before key, given found]
      · simp [missing, not_below_none]
      · exact fun _ none => absurd none (not_below_none kind.id key)
    | some old =>
      rw [MojDbKindEngine.update] at updated
      rcases except_bind_ok updated with ⟨oldKind, oldFound, rest⟩
      rcases except_bind_ok rest with ⟨newKind, newFound, same⟩
      rw [given oldFound, given newFound]
      by_cases moved : oldKind.id ≠ newKind.id
      · rw [if_pos moved, Except.ok.injEq] at same
        rw [← same, well.mem_updateIndexes (some obj) none, well.mem_updateIndexes none (some old)]
        · simp [not_below_none]
        · exact fun none _ => absurd none (not_below_none _ key)
        · exact fun _ none => absurd none (not_below_none _ key)
      · rw [if_neg moved, Except.ok.injEq] at same
        rw [not_not] at moved
        rw [← same, well.mem_updateIndexes (some obj) (some old), moved]
        rw [← moved]
        exact fun _ below => stored key ((given oldFound).mpr below)

end Update

/-! ### The id of an object that is put -/

theorem find_mergeProps_string {key val : MojString} {obj prev : List (MojString × MojObject)}
    (left : ∀ found ∈ MojObject.find obj key, found = .string val)
    (right : ∀ found ∈ MojObject.find prev key, found = .string val) :
    MojObject.find (mergeProps obj prev) key =
      (MojObject.find obj key).or (MojObject.find prev key) := by
  have head : ∀ (name : MojString) (val : MojObject) (rest : List (MojString × MojObject)),
      MojObject.find ((name, val) :: rest) key =
        if name = key then some val else MojObject.find rest key := by
    intro name val rest
    unfold MojObject.find
    by_cases same : name = key <;> simp [same]
  induction obj generalizing prev with
  | nil =>
    rw [mergeProps]
    rfl
  | cons first obj ih =>
    rcases first with ⟨name, own⟩
    rw [head] at left ⊢
    induction prev with
    | nil =>
      rw [mergeProps, head]
      · split_ifs <;> simp [MojObject.find]
      · exact List.cons_ne_nil _ _
    | cons other prev onward =>
      rcases other with ⟨otherName, old⟩
      rw [head] at right ⊢
      rw [mergeProps]
      by_cases equal : name = otherName
      · rw [if_pos equal, head]
        rw [← equal] at right ⊢
        by_cases here : name = key
        · rw [if_pos here] at left right
          rw [left own rfl, right old rfl, mergeVal]
          · simp [here]
          · simp
        · simp only [if_neg here] at left right ⊢
          exact ih left right
      · rw [if_neg equal]
        by_cases before : name.map Subtype.val < otherName.map Subtype.val
        · rw [if_pos before, head]
          by_cases here : name = key
          · simp only [if_pos here, Option.some_or]
          · simp only [if_neg here] at left ⊢
            rw [← head] at right ⊢
            exact ih left right
        · rw [if_neg before, head]
          by_cases here : otherName = key
          · simp only [if_pos here] at right ⊢
            rw [right old rfl]
            cases found : (if name = key then some own else MojObject.find obj key) with
            | none => rfl
            | some val =>
              rw [left val found]
              rfl
          · simp only [if_neg here] at right ⊢
            exact onward right

theorem get_mergeInto_string {key val : MojString} {obj prev : MojObject}
    (left : obj.get key = some (.string val)) (right : prev.get key = some (.string val)) :
    (mergeInto obj prev).get key = some (.string val) := by
  have merged : MojObject.find (mergeProps obj.map prev.map) key =
      (obj.get key).or (prev.get key) := by
    apply @find_mergeProps_string key val
    · intro found member
      exact Option.some.inj (member.symm.trans left)
    · intro found member
      exact Option.some.inj (member.symm.trans right)
  rw [left] at merged
  exact merged

theorem get_apply_id {kind : KindUpdate} (named : ∀ revSet ∈ kind.revSets, revSet.name ≠ idKey)
    {prev : Option MojObject} {obj new : MojObject} (applied : kind.apply prev obj = .ok new) :
    new.get idKey = obj.get idKey := by
  have updated : ∀ revSets : List MojDbRevisionSet, (∀ revSet ∈ revSets, revSet.name ≠ idKey) →
      ∀ obj : MojObject, (revSets.foldl (fun obj revSet => revSet.update prev obj) obj).get idKey =
        obj.get idKey := by
    intro revSets
    induction revSets with
    | nil => exact fun _ _ => rfl
    | cons revSet others ih =>
      intro names obj
      rw [List.foldl_cons, ih fun other member => names other (List.mem_cons_of_mem revSet member)]
      have apart := names revSet List.mem_cons_self
      unfold MojDbRevisionSet.update
      cases obj.get revKey with
      | none => rfl
      | some rev =>
        cases prev with
        | none => rw [MojObject.get_put, if_neg apart]
        | some prev =>
          simp only
          split_ifs
          · rw [MojObject.get_put, if_neg apart]
          · rfl
  unfold KindUpdate.apply at applied
  cases refused : kind.refuses obj prev with
  | some err =>
    rw [refused] at applied
    cases applied
  | none =>
    rw [refused] at applied
    cases applied
    rw [updated kind.revSets named]
    split_ifs
    · rw [MojObject.get_put, if_neg (by decide)]
    · rfl

theorem get_putKeyed_id {kind : KindUpdate} (named : ∀ revSet ∈ kind.revSets, revSet.name ≠ idKey)
    {storage : Option MojErr} {under obj : MojObject} {prev : Option MojObject} {change : Change}
    {ids after : Ids} {id : MojString}
    (ran : putKeyed kind storage under obj prev ids = .ok (some change) after)
    (own : obj.get idKey = some (.string id)) : change.keyed.get idKey = some (.string id) := by
  unfold putKeyed at ran
  split_ifs at ran
  · cases ran
  · rcases taking_bind_ok ran with ⟨rev, middle, -, ran⟩
    simp only at ran
    have kept : (obj.put revKey (.int (BitVec.ofNat 64 rev))).get idKey = some (.string id) := by
      rw [MojObject.get_put, if_neg (by decide)]
      exact own
    cases hasKind : (obj.put revKey (.int (BitVec.ofNat 64 rev))).get kindKey with
    | none =>
      rw [hasKind] at ran
      cases ran
    | some kindName =>
      rw [hasKind] at ran
      rcases taking_bind_ok ran with ⟨stored, late, put, made⟩
      cases made
      rcases taking_bind_ok put with ⟨assigned, later, assigns, stores⟩
      have still : assigned.get idKey = some (.string id) := by
        split_ifs at assigns
        · cases assigns
          exact kept
        · exact get_assignIds_plain (by rw [assignVal]) assigns kept
      unfold storeKeyed at stores
      cases applied : kind.apply prev assigned with
      | error err =>
        rw [applied] at stores
        cases stores
      | ok keyed =>
        rw [applied] at stores
        cases storage with
        | some err => cases stores
        | none =>
          cases stores
          exact (get_apply_id named applied).trans still

/-! ### Runs -/

section Run

variable {kinds : KindMap} {rest : Rest}

theorem mirrors_empty : Mirrors kinds empty where
  named id obj found := by simp [empty] at found
  keys key := by simp [empty]

theorem Mirrors.update (well : WellIndexed kinds) {store after : Store} (mirrors : Mirrors kinds store)
    {id : MojString} {newObj : Option MojObject}
    (own : ∀ obj ∈ newObj, obj.get idKey = some (.string id))
    (updated : IndexMirror.update kinds store id newObj (store.objDb.find id) = .ok after) :
    Mirrors kinds after := by
  unfold IndexMirror.update at updated
  rcases except_bind_ok updated with ⟨keys, exchanged, same⟩
  have found : ∀ other, after.objDb.find other =
      if id = other then newObj else store.objDb.find other := by
    intro other
    cases same
    cases newObj with
    | none => exact SortedMap.find_del store.objDb id other
    | some obj =>
      change (store.objDb.put id (readBack id obj)).find other = _
      rw [readBack, if_pos (own obj rfl)]
      exact SortedMap.find_put store.objDb id other obj
  have members := well.mem_update exchanged (fun key keyed => by
    rcases keyed with ⟨obj, stored, keyed⟩
    exact (mirrors.keys key).mpr ⟨id, obj, stored, keyed⟩)
  have keysEq : after.keys = keys := by
    cases same
    rfl
  constructor
  · intro other obj there
    rw [found] at there
    split_ifs at there with here
    · rw [← here]
      exact own obj there
    · exact mirrors.named other obj there
  · intro key
    rw [keysEq, members key]
    constructor
    · rintro (⟨obj, isNew, keyed⟩ | ⟨old, gone⟩)
      · exact ⟨id, obj, by rw [found, if_pos rfl, isNew], keyed⟩
      · rcases (mirrors.keys key).mp old with ⟨other, obj, stored, keyed⟩
        refine ⟨other, obj, ?_, keyed⟩
        rw [found, if_neg, stored]
        intro here
        rw [← here] at stored
        exact gone ⟨obj, stored, keyed⟩
    · rintro ⟨other, obj, there, keyed⟩
      rw [found] at there
      split_ifs at there with here
      · exact Or.inl ⟨obj, there, keyed⟩
      · apply Or.inr
        apply And.intro ((mirrors.keys key).mpr ⟨other, obj, there, keyed⟩)
        rintro ⟨old, stored, ⟨kind, -, below⟩⟩
        rcases keyed with ⟨second, -, again⟩
        exact here (well.same_object (mirrors.named id old stored) (mirrors.named other obj there)
          below again)

theorem Mirrors.change (well : WellIndexed kinds) {store after : Store}
    (mirrors : Mirrors kinds store) {id : MojString} {obj : MojObject}
    (own : obj.get idKey = some (.string id)) {made : Option Change} {ids middle last : Ids}
    (put : rest.putObj id obj (store.objDb.find id) ids = .ok made middle)
    (ran : IndexMirror.change kinds store id (store.objDb.find id) made middle = .ok after last) :
    Mirrors kinds after := by
  cases made with
  | none =>
    cases ran
    exact mirrors
  | some change =>
    unfold IndexMirror.change raise at ran
    cases updated : IndexMirror.update kinds store id (some change.keyed) (store.objDb.find id) with
    | error err =>
      simp only [updated] at ran
      cases ran
    | ok next =>
      simp only [updated] at ran
      cases ran
      apply mirrors.update well _ updated
      intro keyed isNew
      cases isNew
      exact get_putKeyed_id (rest.named obj) put own

theorem Mirrors.write (well : WellIndexed kinds) {sys : System} (mirrors : Mirrors kinds sys.view)
    {made : Write} (fits : Fits (.write made) sys) {after : Store} {last : Ids}
    (ran : write kinds rest sys.view made sys.ids = .ok after last) : Mirrors kinds after := by
  cases made with
  | put flags id obj =>
    have prevEq : (if (obj.get idKey).isSome then sys.view.objDb.find id else none) =
        sys.view.objDb.find id := by
      rcases fits with own | ⟨-, missing⟩
      · rw [own]
        rfl
      · rw [missing, ite_self]
    have own : (if (obj.get idKey).isSome then obj
        else obj.put idKey (.string id)).get idKey = some (.string id) := by
      rcases fits with own | ⟨absent, -⟩
      · rw [if_pos (by rw [own]; rfl)]
        exact own
      · rw [if_neg (by rw [absent]; simp), MojObject.get_put, if_pos rfl]
    rw [IndexMirror.write] at ran
    simp only [prevEq] at ran
    rcases taking_bind_ok ran with ⟨change, middle, put, ran⟩
    cases found : sys.view.objDb.find id with
    | none =>
      rw [found, Rest.putImpl] at put
      by_cases ignored : flags.ignoreMissing ∧ flags.merge
      · rw [if_pos ignored] at put
        cases put
        cases ran
        exact mirrors
      · rw [if_neg ignored, ← found] at put
        exact mirrors.change well own put ran
    | some prev =>
      have present : obj.get idKey = some (.string id) := by
        rcases fits with own | ⟨-, missing⟩
        · exact own
        · rw [missing] at found
          cases found
      rw [found, Rest.putImpl] at put
      cases checked : checkRev flags (if flags.merge then mergeInto obj prev else obj) prev with
      | error err =>
        rw [checked] at put
        cases put
      | ok done =>
        rw [checked, ← found] at put
        apply mirrors.change well _ put ran
        split_ifs
        · exact get_mergeInto_string present (mirrors.named id prev found)
        · exact present
  | merge id props =>
    rw [IndexMirror.write] at ran
    cases found : sys.view.objDb.find id with
    | none =>
      rw [found] at ran
      cases ran
      exact mirrors
    | some prev =>
      rw [found] at ran
      rcases taking_bind_ok ran with ⟨change, middle, put, ran⟩
      rw [← found] at put ran
      apply mirrors.change well _ put ran
      rw [Merging.get_mergeInto fits]
      exact mirrors.named id prev found
  | del id purge =>
    rw [IndexMirror.write] at ran
    cases found : sys.view.objDb.find id with
    | none =>
      rw [found] at ran
      cases ran
      exact mirrors
    | some prev =>
      rw [found] at ran
      simp only at ran
      split_ifs at ran
      · unfold raise at ran
        rw [← found] at ran
        cases updated : IndexMirror.update kinds sys.view id none (sys.view.objDb.find id) with
        | error err =>
          simp only [updated] at ran
          cases ran
        | ok next =>
          simp only [updated] at ran
          cases ran
          exact mirrors.update well (by simp) updated
      · rcases taking_bind_ok ran with ⟨change, middle, put, ran⟩
        rw [← found] at put ran
        apply mirrors.change well _ put ran
        rw [MojObject.get_put, if_neg (by decide)]
        exact mirrors.named id prev found

structure Sound (kinds : KindMap) (sys : System) : Prop where
  committed : Mirrors kinds sys.committed
  view : Mirrors kinds sys.view

theorem Sound.step (well : WellIndexed kinds) (event : Event) (sys next : System)
    (sound : Sound kinds sys) (fits : Fits event sys)
    (stepped : IndexMirror.step kinds rest event sys = some next) : Sound kinds next := by
  cases event with
  | write made =>
    unfold IndexMirror.step at stepped
    cases ran : IndexMirror.write kinds rest sys.view made sys.ids with
    | ok view ids =>
      simp only [ran, Option.some.injEq] at stepped
      rw [← stepped]
      exact ⟨sound.committed, sound.view.write well fits ran⟩
    | error err ids =>
      simp only [ran, Option.some.injEq] at stepped
      rw [← stepped]
      exact ⟨sound.committed, sound.committed⟩
  | commit =>
    cases stepped
    exact ⟨sound.view, sound.view⟩
  | abort =>
    cases stepped
    exact ⟨sound.committed, sound.committed⟩

theorem Sound.run (well : WellIndexed kinds) {events : List Event} {first last : System}
    (sound : Sound kinds first)
    (fits : Steps.Throughout (IndexMirror.step kinds rest) Fits events first)
    (ran : Steps.run (IndexMirror.step kinds rest) events first = some last) : Sound kinds last :=
  Steps.run_keeps_where (fun event sys next => Sound.step well event sys next) sound fits ran

theorem Mirrors.mem_index (well : WellIndexed kinds) {store : Store} (mirrors : Mirrors kinds store)
    {id : MojString} {index : MojDbIndex} (own : index ∈ indexesOf kinds id) {key : MojDbKey}
    (starts : MojDbKey.assign index.id none <+: key) :
    key ∈ store.keys ↔ ∃ oid obj kind, store.objDb.find oid = some obj ∧
      kindOf kinds obj = .ok kind ∧ Reaches (supersOf kinds) kind.id id ∧
      key ∈ index.contribution (some obj) := by
  rw [mirrors.keys key]
  constructor
  · rintro ⟨oid, obj, stored, kind, found, other, reaches, second, secondOwn, keyed⟩
    have same : index.id = second.id := by
      rcases starts with ⟨rest, one⟩
      rcases starts_of_contribution keyed with ⟨more, two⟩
      exact (MojObjectWriter.value_append_inj _ _ _ _ (one.trans two.symm)).1
    have here := well.apart id other index own second secondOwn same
    rw [← well.same_index own secondOwn same] at keyed
    rw [← here] at reaches
    exact ⟨oid, obj, kind, stored, found, reaches, keyed⟩
  · rintro ⟨oid, obj, kind, stored, found, reaches, keyed⟩
    exact ⟨oid, obj, stored, kind, found, id, reaches, index, own, keyed⟩

end Run

/-- After any run of transactions an index holds exactly the keys it has of the stored objects of its
kind and of the kinds that extend it. -/
theorem indexes_mirror_objects (kinds : KindMap) (rest : Rest) (well : WellIndexed kinds)
    (first last : System) (events : List Event) (sound : Sound kinds first)
    (fits : Steps.Throughout (step kinds rest) Fits events first)
    (ran : Steps.run (step kinds rest) events first = some last) (id : MojString)
    (index : MojDbIndex) (own : index ∈ indexesOf kinds id) (key : MojDbKey)
    (starts : MojDbKey.assign index.id none <+: key) :
    key ∈ last.committed.keys ↔ ∃ oid obj kind, last.committed.objDb.find oid = some obj ∧
      kindOf kinds obj = .ok kind ∧ Reaches (supersOf kinds) kind.id id ∧
      key ∈ index.contribution (some obj) :=
  (sound.run well fits ran).committed.mem_index well own starts

section Instances

def noteId : MojString := chars "Note:1".toList

def noteKinds : KindMap :=
  KindMap.empty.put ⟨noteId, adminOwner, [], [], [MojDbQueryPlan.twoPropIndex]⟩

theorem indexesOf_noteKinds (id : MojString) :
    indexesOf noteKinds id = if noteId = id then [MojDbQueryPlan.twoPropIndex] else [] := by
  unfold indexesOf noteKinds
  rw [KindMap.find_put]
  split_ifs <;> rfl

theorem wellIndexed_noteKinds : WellIndexed noteKinds where
  apart id other index own second again _ := by
    rw [indexesOf_noteKinds] at own again
    split_ifs at own again with here there
    · exact here.symm.trans there
    · cases again
    · cases own
    · cases own
  nodup id := by
    rw [indexesOf_noteKinds]
    split_ifs
    · exact List.nodup_singleton _
    · exact List.nodup_nil
  plain id index own := by
    rw [indexesOf_noteKinds] at own
    split_ifs at own
    · rw [List.mem_singleton.mp own]
      simp [MojDbQueryPlan.twoPropIndex]
    · cases own

def plainRest : Rest := ⟨fun _ => ⟨false, [], fun _ _ => none⟩, fun _ => none, by simp⟩

def sampleNote (id : Char) (val : MojInt64) : MojObject :=
  .object [(idKey, .string (chars [id])), (kindKey, .string noteId), (chars ['a'], .int val),
    (chars ['b'], .int 5)]

def plainFlags : PutFlags := ⟨false, false, false⟩

/-- Two notes are put and one of them changed, another put is given up, and the second is purged. -/
def noteEvents : List Event :=
  [.write (.put plainFlags (chars ['x']) (sampleNote 'x' 1)),
    .write (.put plainFlags (chars ['y']) (sampleNote 'y' 2)), .commit,
    .write (.put ⟨false, true, false⟩ (chars ['x']) (sampleNote 'x' 3)), .commit,
    .write (.put plainFlags (chars ['z']) (sampleNote 'z' 4)), .abort,
    .write (.del (chars ['y']) true), .commit]

def emptySystem : System := ⟨empty, empty, ⟨(DbEngine.MojDbStorageSeq.run ⟨none, none⟩ [.reopen]).1, [], []⟩⟩

theorem sound_emptySystem (kinds : KindMap) : Sound kinds emptySystem :=
  ⟨mirrors_empty, mirrors_empty⟩

theorem indexes_mirror_notes : ∃ last,
    Steps.run (step noteKinds plainRest) noteEvents emptySystem = some last ∧
    last.committed.keys.elems.length = 1 ∧
    ∀ key, MojDbKey.assign (.int 7) none <+: key →
      (key ∈ last.committed.keys ↔ ∃ oid obj kind, last.committed.objDb.find oid = some obj ∧
        kindOf noteKinds obj = .ok kind ∧ Reaches (supersOf noteKinds) kind.id noteId ∧
        key ∈ MojDbQueryPlan.twoPropIndex.contribution (some obj)) := by
  have ends : ((Steps.run (step noteKinds plainRest) noteEvents emptySystem).map fun last =>
      last.committed.keys.elems.length) = some 1 := by decide +kernel
  rcases Option.map_eq_some_iff.mp ends with ⟨last, ran, count⟩
  refine ⟨last, ran, count, ?_⟩
  intro key starts
  apply indexes_mirror_objects noteKinds plainRest wellIndexed_noteKinds emptySystem last noteEvents
    (sound_emptySystem noteKinds) _ ran noteId MojDbQueryPlan.twoPropIndex _ key starts
  · decide +kernel
  · rw [indexesOf_noteKinds, if_pos rfl]
    exact List.mem_singleton_self _

end Instances

end Db8.Db.IndexMirror
