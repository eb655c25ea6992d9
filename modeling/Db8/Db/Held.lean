import Db8.Db.KindRooted
import Db8.Db.PutObj
import Db8.Graph.Visit

/-!
# What the indexes of the kinds hold

An object that is written goes into the indexes of its kind and of all supers, and a kind that gets
other supers takes its objects along. Nothing else touches the keys: a link between kinds that goes
some other way, or that is refused, leaves them as they are.
-/

set_option autoImplicit false

namespace Db8.Db.Held

open Db8.Bytes
open Db8.Core
open Db8.Graph
open MojDbKindEngine

abbrev Store := SortedMap MojString MojObject

/-- The keys that the indexes of a kind have for an object. The index of ids has every object that
is not deleted. -/
structure Indexing where
  keys : MojString → MojObject → List MojDbKey
  live : ∀ kind obj, obj.get delKey = none → keys kind obj ≠ []

/-- The keys of each kind's indexes, with the ids they lead to. -/
abbrev Content := MojString → List (MojDbKey × MojString)

structure Data where
  objects : Store
  content : Content

def kindName (obj : MojObject) : Option MojString :=
  match obj.get MojDb.kindKey with
  | some (.string id) => some id
  | _ => none

section Update

variable (indexing : Indexing)

def entries (kind id : MojString) : Option MojObject → List (MojDbKey × MojString)
  | none => []
  | some obj => (indexing.keys kind obj).map fun key => (key, id)

/-- All indexes of a kind lose the keys that only the old object has and get those that only the new
one has. -/
def updateOwnIndexes (id : MojString) (newObj oldObj : Option MojObject) (kind : MojString)
    (content : Content) : Content :=
  let new := entries indexing kind id newObj
  let old := entries indexing kind id oldObj
  Function.update content kind
    ((content kind).filter (fun entry => entry ∉ old ∨ entry ∈ new) ++
      new.filter fun entry => entry ∉ old ∧ entry ∉ content kind)

/-- `updateIndexes` of a kind, with `kindVec`. -/
def updateIndexes (kinds : KindMap) (id : MojString) (newObj oldObj : Option MojObject)
    (state : List MojString × Content) (kind : MojString) : List MojString × Content :=
  visit (supersOf kinds) (updateOwnIndexes indexing id newObj oldObj) (kinds.kinds.length + 1) kind
    state

/-- `updateIndexes` for the kind of an object; the headers of stored objects name one. -/
def updateAbove (kinds : KindMap) (id : MojString) (newObj oldObj : Option MojObject)
    (kind : Option MojString) (content : Content) : Content :=
  match kind with
  | none => content
  | some kind => (updateIndexes indexing kinds id newObj oldObj ([], content) kind).2

/-- `update` of the kind engine, for the indexes. -/
def updateKinds (kinds : KindMap) (id : MojString) (newObj oldObj : Option MojObject)
    (content : Content) : Content :=
  match oldObj, newObj with
  | none, none => content
  | none, some obj => updateAbove indexing kinds id (some obj) none (kindName obj) content
  | some old, none => updateAbove indexing kinds id none (some old) (kindName old) content
  | some old, some obj =>
    if kindName old ≠ kindName obj then
      updateAbove indexing kinds id (some obj) none (kindName obj)
        (updateAbove indexing kinds id none (some old) (kindName old) content)
    else updateAbove indexing kinds id (some obj) (some old) (kindName obj) content

def update (kinds : KindMap) (data : Data) (id : MojString) (newObj : Option MojObject) : Data where
  objects :=
    match newObj with
    | some obj => data.objects.put id obj
    | none => data.objects.del id
  content := updateKinds indexing kinds id newObj (data.objects.find id) data.content

def diffSupers (kinds : KindMap) (left right : List MojString) : List MojString :=
  left.filter fun id => id ∉ right ∧ (kinds.find id).isSome

/-- One object of a kind goes to the new supers and leaves those that are gone, with one `kindVec`
for all of them. -/
def moveObject (kinds : KindMap) (added removed : List MojString) (content : Content)
    (item : MojString × MojObject) : Content :=
  (removed.foldl (updateIndexes indexing kinds item.1 none (some item.2))
    (added.foldl (updateIndexes indexing kinds item.1 (some item.2) none) ([], content))).2

/-- The first half of `updateSupers`, for a kind that is registered: its indexes are asked for its
objects. -/
def moveObjects (kinds : KindMap) (data : Data) (id : MojString) (superIds : List MojString) :
    Content :=
  match kinds.find id with
  | none => data.content
  | some kind =>
    (data.objects.entries.filter fun item => item.1 ∈ (data.content id).map Prod.snd).foldl
      (moveObject indexing kinds (diffSupers kinds superIds kind.superIds)
        (diffSupers kinds kind.superIds superIds)) data.content

/-- What the indexes hold after the kinds have changed. A kind that is dropped drops its indexes; one
that is loaded again finds them as they were. -/
def contentAfter (links : Links) (data : Data) : Links.KindEvent → Content
  | .configure id obj _ => moveObjects indexing links.kinds data id obj.superIds
  | .delKind id => Function.update data.content id []
  | .reloadKind _ _ => data.content

end Update

def Leads (indexing : Indexing) (objects : Store) (content : Content) : Prop :=
  ∀ kind, ∀ entry ∈ content kind, ∃ obj, objects.find entry.2 = some obj ∧
    entry.1 ∈ indexing.keys kind obj

/-- Every key leads to an object of a kind that extends the one whose index has the key. -/
def Below (kinds : KindMap) (data : Data) : Prop :=
  ∀ kind, ∀ entry ∈ data.content kind, ∀ obj, data.objects.find entry.2 = some obj →
    ∃ name, kindName obj = some name ∧ (kinds.find name).isSome ∧
      Reaches (supersOf kinds) name kind

section Walk

variable {indexing : Indexing} {kinds : KindMap} {id : MojString}
  {newObj oldObj : Option MojObject}

theorem mem_entries {kind : MojString} {entry : MojDbKey × MojString} :
    entry ∈ entries indexing kind id newObj ↔
      entry.2 = id ∧ ∃ obj, newObj = some obj ∧ entry.1 ∈ indexing.keys kind obj := by
  rcases entry with ⟨key, target⟩
  cases newObj with
  | none => simp [entries]
  | some obj =>
    simp only [entries, List.mem_map, Prod.mk.injEq, Option.some.injEq]
    constructor
    · rintro ⟨other, member, rfl, rfl⟩
      exact ⟨rfl, obj, rfl, member⟩
    · rintro ⟨rfl, other, rfl, member⟩
      exact ⟨key, member, rfl, rfl⟩

theorem mem_updateOwnIndexes {kind other : MojString} {content : Content}
    {entry : MojDbKey × MojString} :
    entry ∈ updateOwnIndexes indexing id newObj oldObj kind content other ↔
      if other = kind then
        entry ∈ content kind ∧
            (entry ∉ entries indexing kind id oldObj ∨ entry ∈ entries indexing kind id newObj) ∨
          entry ∈ entries indexing kind id newObj ∧ entry ∉ entries indexing kind id oldObj
      else entry ∈ content other := by
  unfold updateOwnIndexes
  by_cases same : other = kind
  · rw [if_pos same, same, Function.update_self, List.mem_append, List.mem_filter,
      List.mem_filter, decide_eq_true_eq, decide_eq_true_eq]
    tauto
  · rw [if_neg same, Function.update_of_ne same]

theorem updateOwnIndexes_self {kind : MojString} {first second : Content}
    (same : first kind = second kind) :
    updateOwnIndexes indexing id newObj oldObj kind first kind =
      updateOwnIndexes indexing id newObj oldObj kind second kind := by
  unfold updateOwnIndexes
  rw [Function.update_self, Function.update_self, same]

theorem updateOwnIndexes_of_ne {kind other : MojString} (content : Content)
    (different : other ≠ kind) :
    updateOwnIndexes indexing id newObj oldObj kind content other = content other :=
  Function.update_of_ne different _ _

theorem foldl_updateOwnIndexes {order : List MojString} (once : order.Nodup) (content : Content)
    (other : MojString) :
    (order.foldl (fun content kind => updateOwnIndexes indexing id newObj oldObj kind content)
        content) other =
      if other ∈ order then updateOwnIndexes indexing id newObj oldObj other content other
      else content other := by
  induction order generalizing content with
  | nil => rfl
  | cons kind rest ih =>
    rw [List.nodup_cons] at once
    rw [List.foldl_cons, ih once.2]
    by_cases same : other = kind
    · rw [if_neg (same ▸ once.1), if_pos (same ▸ List.mem_cons_self), same]
    · have kept : updateOwnIndexes indexing id newObj oldObj kind content other = content other :=
        updateOwnIndexes_of_ne content same
      by_cases later : other ∈ rest
      · rw [if_pos later, if_pos (List.mem_cons_of_mem kind later), updateOwnIndexes_self kept]
      · rw [if_neg later, if_neg (by simp [same, later]), kept]

theorem updateIndexes_apply (kinds : KindMap) (id : MojString) (newObj oldObj : Option MojObject)
    (kind : MojString) (content : Content) (other : MojString) :
    (Reaches (supersOf kinds) kind other →
        (updateIndexes indexing kinds id newObj oldObj ([], content) kind).2 other =
          updateOwnIndexes indexing id newObj oldObj other content other) ∧
      (¬ Reaches (supersOf kinds) kind other →
        (updateIndexes indexing kinds id newObj oldObj ([], content) kind).2 other =
          content other) := by
  have enough : kinds.ids.length < kinds.kinds.length + 1 := by
    unfold KindMap.ids
    rw [List.length_map]
    exact Nat.lt_succ_self _
  unfold updateIndexes
  rcases visit_reaches (updateOwnIndexes indexing id newObj oldObj)
    (fun _ linked => registered_of_supersOf linked) enough kind content with
    ⟨order, walked, once, reached⟩
  rw [walked, foldl_updateOwnIndexes once]
  constructor
  · intro reaches
    rw [if_pos ((reached other).mpr reaches)]
  · intro away
    rw [if_neg fun member => away ((reached other).mp member)]

end Walk

section Writes

variable {indexing : Indexing} {kinds : KindMap} {data : Data} {id : MojString}
  {kind : MojString} {entry : MojDbKey × MojString}

def KeyOf (indexing : Indexing) (kinds : KindMap) (id : MojString) (newObj : Option MojObject)
    (kind : MojString) (entry : MojDbKey × MojString) : Prop :=
  entry ∈ entries indexing kind id newObj ∧
    ∃ obj name, newObj = some obj ∧ kindName obj = some name ∧ Reaches (supersOf kinds) name kind

/-- The new object's keys go to the indexes above its kind. -/
theorem mem_updateAbove {newObj oldObj : Option MojObject} {name : MojString} {content : Content}
    (member : entry ∈ updateAbove indexing kinds id newObj oldObj (some name) content kind) :
    entry ∈ content kind ∧
        (Reaches (supersOf kinds) name kind → entry ∉ entries indexing kind id oldObj) ∨
      entry ∈ entries indexing kind id newObj ∧ Reaches (supersOf kinds) name kind := by
  simp only [updateAbove] at member
  rcases @updateIndexes_apply indexing kinds id newObj oldObj name content kind with
    ⟨inside, outside⟩
  by_cases reaches : Reaches (supersOf kinds) name kind
  · rw [inside reaches, mem_updateOwnIndexes, if_pos rfl] at member
    tauto
  · rw [outside reaches] at member
    exact Or.inl ⟨member, fun reached => absurd reached reaches⟩

/-- The keys of an object are those its kind's walk takes away. -/
theorem not_old (leads : Leads indexing data.objects data.content) (below : Below kinds data)
    {old : MojObject} (stored : data.objects.find id = some old) {name : MojString}
    (named : kindName old = some name) (member : entry ∈ data.content kind)
    (kept : Reaches (supersOf kinds) name kind → entry ∉ entries indexing kind id (some old)) :
    entry.2 ≠ id := by
  intro own
  rcases leads kind entry member with ⟨obj, found, keyed⟩
  rcases below kind entry member obj found with ⟨other, itsName, -, reaches⟩
  rw [own, stored] at found
  have same := Option.some.inj found
  rw [← same, named] at itsName
  rw [← Option.some.inj itsName] at reaches
  exact kept reaches (mem_entries.mpr ⟨own, obj, found, keyed⟩)

/-- A write leaves the keys of other objects and puts those of the new object. -/
theorem mem_updateKinds (leads : Leads indexing data.objects data.content)
    (below : Below kinds data) {newObj : Option MojObject}
    (member : entry ∈ updateKinds indexing kinds id newObj (data.objects.find id) data.content
      kind) :
    entry ∈ data.content kind ∧ entry.2 ≠ id ∨ KeyOf indexing kinds id newObj kind entry := by
  have unnamed : ∀ old, data.objects.find id = some old → kindName old = none →
      ∀ entry ∈ data.content kind, entry.2 ≠ id := by
    intro old stored missing entry member own
    rw [← own] at stored
    rcases below kind entry member old stored with ⟨name, named, -⟩
    rw [missing] at named
    cases named
  have cleared : ∀ old, data.objects.find id = some old →
      ∀ entry ∈ updateAbove indexing kinds id none (some old) (kindName old) data.content kind,
        entry ∈ data.content kind ∧ entry.2 ≠ id := by
    intro old stored entry member
    cases named : kindName old with
    | none =>
      rw [named] at member
      exact ⟨member, unnamed old stored named entry member⟩
    | some name =>
      rw [named] at member
      rcases mem_updateAbove member with kept | ⟨new, -⟩
      · exact ⟨kept.1, not_old leads below stored named kept.1 kept.2⟩
      · cases new
  have added : ∀ obj content, ∀ entry ∈ updateAbove indexing kinds id (some obj) none
      (kindName obj) content kind,
        entry ∈ content kind ∨ KeyOf indexing kinds id (some obj) kind entry := by
    intro obj content entry member
    cases named : kindName obj with
    | none =>
      rw [named] at member
      exact Or.inl member
    | some name =>
      rw [named] at member
      rcases mem_updateAbove member with kept | ⟨new, reaches⟩
      · exact Or.inl kept.1
      · exact Or.inr ⟨new, obj, name, rfl, named, reaches⟩
  unfold updateKinds at member
  cases stored : data.objects.find id with
  | none =>
    have other : ∀ entry ∈ data.content kind, entry.2 ≠ id := by
      intro entry member own
      rcases leads kind entry member with ⟨obj, found, -⟩
      rw [own, stored] at found
      cases found
    rw [stored] at member
    cases newObj with
    | none => exact Or.inl ⟨member, other entry member⟩
    | some obj =>
      rcases added obj data.content entry member with kept | new
      · exact Or.inl ⟨kept, other entry kept⟩
      · exact Or.inr new
  | some old =>
    rw [stored] at member
    cases newObj with
    | none => exact Or.inl (cleared old stored entry member)
    | some obj =>
      simp only at member
      by_cases same : kindName old = kindName obj
      · rw [if_neg (not_not.mpr same)] at member
        cases named : kindName obj with
        | none =>
          rw [named] at member
          exact Or.inl ⟨member, unnamed old stored (same.trans named) entry member⟩
        | some name =>
          rw [named] at member
          rcases mem_updateAbove member with kept | ⟨new, reaches⟩
          · exact Or.inl ⟨kept.1,
              not_old leads below stored (same.trans named) kept.1 kept.2⟩
          · exact Or.inr ⟨new, obj, name, rfl, named, reaches⟩
      · rw [if_pos same] at member
        rcases added obj _ entry member with kept | new
        · exact Or.inl (cleared old stored entry kept)
        · exact Or.inr new

theorem find_update (kinds : KindMap) (newObj : Option MojObject) (other : MojString) :
    (update indexing kinds data id newObj).objects.find other =
      if id = other then newObj else data.objects.find other := by
  unfold update
  cases newObj with
  | none => exact SortedMap.find_del data.objects id other
  | some obj => exact SortedMap.find_put data.objects id other obj

theorem leads_update (leads : Leads indexing data.objects data.content) (below : Below kinds data)
    (newObj : Option MojObject) :
    Leads indexing (update indexing kinds data id newObj).objects
      (update indexing kinds data id newObj).content := by
  intro kind entry member
  rw [find_update]
  rcases mem_updateKinds leads below member with ⟨kept, other⟩ | ⟨new, -⟩
  · rw [if_neg (Ne.symm other)]
    exact leads kind entry kept
  · rcases mem_entries.mp new with ⟨own, obj, isNew, keyed⟩
    rw [if_pos own.symm]
    exact ⟨obj, isNew, keyed⟩

theorem below_update (leads : Leads indexing data.objects data.content) (below : Below kinds data)
    {newObj : Option MojObject}
    (known : ∀ obj name, newObj = some obj → kindName obj = some name →
      (kinds.find name).isSome) :
    Below kinds (update indexing kinds data id newObj) := by
  intro kind entry member obj found
  rw [find_update] at found
  rcases mem_updateKinds leads below member with ⟨kept, other⟩ | new
  · rw [if_neg (Ne.symm other)] at found
    exact below kind entry kept obj found
  · rcases mem_entries.mp new.1 with ⟨own, -⟩
    rcases new.2 with ⟨obj', name, isNew, named, reaches⟩
    rw [if_pos own.symm, isNew] at found
    rw [← Option.some.inj found]
    exact ⟨name, named, known obj' name isNew named, reaches⟩

/-- An object under a new id comes into the indexes of all its kind extends. -/
theorem mem_update_new {obj : MojObject} {name : MojString} (absent : data.objects.find id = none)
    (named : kindName obj = some name) (reaches : Reaches (supersOf kinds) name kind)
    {key : MojDbKey} (keyed : key ∈ indexing.keys kind obj) :
    (key, id) ∈ (update indexing kinds data id (some obj)).content kind := by
  simp only [update, updateKinds, absent, named, updateAbove]
  rw [(updateIndexes_apply kinds id (some obj) none name data.content kind).1 reaches,
    mem_updateOwnIndexes, if_pos rfl]
  right
  apply And.intro (mem_entries.mpr ⟨rfl, obj, rfl, keyed⟩)
  intro old
  cases old

end Writes

section Kinds

variable {indexing : Indexing} {kinds : KindMap} {objects : Store} {id : MojString}

theorem leads_updateOwnIndexes {newObj oldObj : Option MojObject}
    (stored : ∀ obj, newObj = some obj → objects.find id = some obj) (kind : MojString)
    {content : Content} (leads : Leads indexing objects content) :
    Leads indexing objects (updateOwnIndexes indexing id newObj oldObj kind content) := by
  intro other entry member
  rw [mem_updateOwnIndexes] at member
  split_ifs at member with same
  · rw [same]
    rcases member with ⟨kept, -⟩ | ⟨new, -⟩
    · exact leads kind entry kept
    · rcases mem_entries.mp new with ⟨own, obj, isNew, keyed⟩
      exact ⟨obj, own ▸ stored obj isNew, keyed⟩
  · exact leads other entry member

theorem leads_updateIndexes {newObj oldObj : Option MojObject}
    (stored : ∀ obj, newObj = some obj → objects.find id = some obj)
    (supers : List MojString) (state : List MojString × Content)
    (leads : Leads indexing objects state.2) :
    Leads indexing objects
      (supers.foldl (updateIndexes indexing kinds id newObj oldObj) state).2 := by
  induction supers generalizing state with
  | nil => exact leads
  | cons super rest ih =>
    apply ih
    exact visit_keeps (fun kind _ => leads_updateOwnIndexes stored kind) _ super state leads

theorem leads_moveObjects {data : Data} (leads : Leads indexing data.objects data.content)
    (superIds : List MojString) :
    Leads indexing data.objects (moveObjects indexing kinds data id superIds) := by
  unfold moveObjects
  cases kinds.find id with
  | none => exact leads
  | some kind =>
    simp only
    have all : ∀ item ∈ data.objects.entries.filter fun item =>
        decide (item.1 ∈ (data.content id).map Prod.snd),
          data.objects.find item.1 = some item.2 := by
      intro item member
      exact (SortedMap.find_eq_some_iff _ _ _).mpr (List.mem_of_mem_filter member)
    apply List.foldlRecOn _ _ leads
    intro content before item member
    have stored := all item member
    apply leads_updateIndexes
    · intro obj isNone
      cases isNone
    · apply leads_updateIndexes _ _ _ before
      intro obj isItem
      rw [← Option.some.inj isItem]
      exact stored

end Kinds

end Db8.Db.Held
