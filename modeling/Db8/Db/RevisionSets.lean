import Db8.Db.ExtractorDefaults
import Db8.Db.MergeOnce
import Db8.Steps

/-!
# Revision sets

A revision set is a property that holds the revision of the last put that changed one of the
properties the set watches. It is written when the object that is put differs there from the stored
one, and is otherwise left as the object brings it: an object that is put without it, or with another
value in it, loses it. An object that gets another kind comes to the sets there as a new one, and they
are written whatever it changes.
-/

set_option autoImplicit false

namespace Db8.Db.MojDb

open Db8.Bytes
open Db8.Core

section Sets

/-- `MojDbRevisionSet`, with the extractors of the properties it watches. -/
structure RevisionSet where
  name : MojString
  props : List MojDbPropExtractor
  props_ne_nil : props ≠ []

inductive RevKind where
  | mk (supers : List RevKind) (revSets : List RevisionSet)

variable (locale : MojDbLocale)

/-- `diff`, as far as it says whether the values differ. -/
def RevisionSet.differs (revSet : RevisionSet) (newObj oldObj : MojObject) : Bool :=
  revSet.props.any fun prop =>
    decide (prop.vals locale newObj SortedSet.empty ≠ prop.vals locale oldObj SortedSet.empty)

/-- The object is new, or it differs from its last version in what the set watches. -/
def RevisionSet.changed (revSet : RevisionSet) (prev : Option MojObject) (obj : MojObject) : Bool :=
  match prev with
  | none => true
  | some prev => revSet.differs locale obj prev

/-- The set as it is updated; an object that gets another kind comes to it without the stored
version. -/
def RevisionSet.asSet (moves : Bool) (revSet : RevisionSet) : MojDbRevisionSet :=
  ⟨revSet.name, fun newObj oldObj => moves || revSet.differs locale newObj oldObj⟩

mutual

/-- `preUpdate` on an object that is put: the supers first. -/
def preUpdate (prev : Option MojObject) : RevKind → MojObject → MojObject
  | .mk supers revSets, obj =>
    revSets.foldl (fun obj revSet => (revSet.asSet locale false).update prev obj)
      (preUpdateSupers prev supers obj)

def preUpdateSupers (prev : Option MojObject) : List RevKind → MojObject → MojObject
  | [], obj => obj
  | super :: supers, obj => preUpdateSupers prev supers (preUpdate prev super obj)

end

mutual

/-- The sets of a kind and its supers, in the order in which `preUpdate` meets them. -/
def revSets : RevKind → List RevisionSet
  | .mk supers own => superSets supers ++ own

def superSets : List RevKind → List RevisionSet
  | [] => []
  | super :: supers => revSets super ++ superSets supers

end

mutual

theorem preUpdate_eq (prev : Option MojObject) (kind : RevKind) (obj : MojObject) :
    preUpdate locale prev kind obj =
      (revSets kind).foldl (fun obj revSet => (revSet.asSet locale false).update prev obj) obj :=
  match kind with
  | .mk supers own => by
    rw [preUpdate, revSets, List.foldl_append, preUpdateSupers_eq prev supers obj]

theorem preUpdateSupers_eq (prev : Option MojObject) (supers : List RevKind) (obj : MojObject) :
    preUpdateSupers locale prev supers obj =
      (superSets supers).foldl (fun obj revSet => (revSet.asSet locale false).update prev obj) obj :=
  match supers with
  | [] => by
    rw [preUpdateSupers, superSets, List.foldl_nil]
  | super :: supers => by
    rw [preUpdateSupers, superSets, List.foldl_append, preUpdate_eq prev super obj,
      preUpdateSupers_eq prev supers]

end

end Sets

section Puts

structure RevPut where
  obj : MojObject
  flags : PutFlags
  refuses : MojObject → Option MojObject → Option MojErr
  failures : List (Option MojErr)
  storage : Option MojErr
  commit : Option MojErr

structure Registered where
  kind : RevKind
  backup : Bool

/-- The kinds with the locale of their extractors, and the id the object is put under. -/
structure Setting where
  locale : MojDbLocale
  kinds : MojString → Option Registered
  id : MojObject

/-- The object a put of the kind gets its sets in, which may be marked for the backup. -/
def Registered.synced (kind : Registered) (obj : MojObject) : MojObject :=
  if kind.backup ∧ obj.get syncKey = none then obj.put syncKey (.bool true) else obj

/-- `putObj` up to the update of the kind: the object with its revision and the ids within it. -/
def prepare (obj : MojObject) : Taking MojObject := do
  let rev ← nextId
  let obj := obj.put revKey (.int (BitVec.ofNat 64 rev))
  match obj.get kindKey with
  | none => throw .dbKindNotSpecified
  | some kindName => if isKindObject kindName then pure obj else assignIds obj

/-- The stored version, the sequence, and for each set the revision of the last put that created the
object or changed what the set watches. -/
structure Tracked where
  entry : Option MojObject
  ids : Ids
  lastChange : RevisionSet → Option MojObject

namespace Setting

variable (setting : Setting)

/-- `getKind` for an object; no kind has the text of another value for its name. -/
def kindOf (obj : MojObject) : Option Registered :=
  match obj.get kindKey with
  | some (.string name) => setting.kinds name
  | _ => none

def sets (obj : MojObject) : List RevisionSet :=
  ((setting.kindOf obj).map fun kind => revSets kind.kind).getD []

variable (req : RevPut) (state : Tracked)

def incoming : MojObject :=
  match state.entry with
  | none => req.obj
  | some prev => if req.flags.merge then mergeInto req.obj prev else req.obj

def moves : Bool :=
  match state.entry with
  | none => false
  | some prev => decide (prev.get kindKey ≠ (incoming req state).get kindKey)

/-- `update` of the kind engine: the new kind is given the stored version if it was its own. -/
def kindUpdate : KindUpdate :=
  match setting.kindOf (incoming req state) with
  | none => ⟨false, [], fun _ _ => some .dbKindNotRegistered⟩
  | some kind =>
    ⟨kind.backup, (revSets kind.kind).map (RevisionSet.asSet setting.locale (moves req state)),
      req.refuses⟩

def put : Tracked :=
  match putImpl req.flags (setting.kindUpdate req state) req.storage setting.id req.obj state.entry
      { state.ids with failures := req.failures } with
  | .error _ ids => { state with ids := ids }
  | .ok put ids =>
    match req.commit, put with
    | none, .stored new =>
      { entry := some new
        ids := ids
        lastChange := fun revSet =>
          if revSet.changed setting.locale state.entry new then new.get revKey
          else state.lastChange revSet }
    | _, _ => { state with ids := ids }

def step : Option Tracked := some (setting.put req state)

/-- The field of every set holds the revision of the last put that changed what the set watches. -/
def Kept (state : Tracked) : Prop :=
  ∀ stored ∈ state.entry, ∀ revSet ∈ setting.sets stored,
    stored.get revSet.name = state.lastChange revSet

instance : Decidable (setting.Kept state) :=
  inferInstanceAs (Decidable (∀ stored ∈ state.entry, ∀ revSet ∈ setting.sets stored,
    stored.get revSet.name = state.lastChange revSet))

/-- The stored version and the object as it comes to the update of its sets, in a put that is neither
refused nor fails. -/
def reaching : Option (MojObject × MojObject) :=
  match state.entry, setting.kindOf (incoming req state),
      prepare (incoming req state) { state.ids with failures := req.failures } with
  | some prev, some kind, .ok base _ =>
    if (checkRev req.flags (incoming req state) prev).isOk ∧ req.refuses base (some prev) = none ∧
        req.storage = none ∧ req.commit = none then
      some (prev, kind.synced base)
    else none
  | _, _, _ => none

/-- The object stays of its kind and comes with what is stored in the fields of the sets that watch
nothing it changes. -/
def Brings : Prop :=
  ∀ found ∈ setting.reaching req state, ∀ revSet ∈ setting.sets (incoming req state),
    revSet.differs setting.locale found.2 found.1 = false →
      moves req state = false ∧ (incoming req state).get revSet.name = found.1.get revSet.name

instance : Decidable (setting.Brings req state) :=
  inferInstanceAs (Decidable (∀ found ∈ setting.reaching req state,
    ∀ revSet ∈ setting.sets (incoming req state),
      revSet.differs setting.locale found.2 found.1 = false →
        moves req state = false ∧ (incoming req state).get revSet.name = found.1.get revSet.name))

end Setting

/-- The set looks at a property of an object, under that name or under any. -/
def RevisionSet.Watches (revSet : RevisionSet) (name : MojString) : Prop :=
  ∃ prop ∈ revSet.props, prop.prop.head? = some name ∨ prop.prop.head? = some wildcardKey

instance (revSet : RevisionSet) (name : MojString) : Decidable (revSet.Watches name) :=
  inferInstanceAs (Decidable (∃ prop ∈ revSet.props,
    prop.prop.head? = some name ∨ prop.prop.head? = some wildcardKey))

/-- The names of the sets are those of no property of the header, sets of one name watch the same, and
none watches the field of a set, the id or the deletion mark. -/
structure Proper (sets : List RevisionSet) : Prop where
  names : ∀ revSet ∈ sets, revSet.name ≠ revKey ∧ revSet.name ≠ idKey ∧ revSet.name ≠ delKey ∧
    revSet.name ≠ kindKey
  alike : ∀ revSet ∈ sets, ∀ other ∈ sets, revSet.name = other.name → revSet.props = other.props
  unwatched : ∀ revSet ∈ sets, ¬ revSet.Watches idKey ∧ ¬ revSet.Watches delKey ∧
    ∀ other ∈ sets, ¬ revSet.Watches other.name

def Setting.Proper (setting : Setting) : Prop :=
  ∀ name, ∀ kind ∈ setting.kinds name, MojDb.Proper (revSets kind.kind)

end Puts

section Update

variable {locale : MojDbLocale}

theorem vals_congr {prop : MojDbPropExtractor} {obj other : MojObject}
    (plain : prop.prop.head? ≠ some wildcardKey)
    (same : ∀ name, prop.prop.head? = some name → obj.get name = other.get name) :
    prop.vals locale obj SortedSet.empty = prop.vals locale other SortedSet.empty := by
  unfold MojDbPropExtractor.vals
  cases path : prop.prop with
  | nil => rfl
  | cons propKey rest =>
    rw [path, List.head?_cons] at plain same
    have wild : ¬ propKey = wildcardKey := fun is => plain (congrArg some is)
    rw [MojDbPropExtractor.valsImpl_cons, MojDbPropExtractor.valsImpl_cons, if_neg wild, if_neg wild,
      same propKey rfl]

theorem changed_congr {revSet : RevisionSet} {obj other : MojObject} {free : MojString}
    (notAll : ¬ revSet.Watches free)
    (same : ∀ name, revSet.Watches name → obj.get name = other.get name) (prev : Option MojObject) :
    revSet.changed locale prev obj = revSet.changed locale prev other := by
  cases prev with
  | none => rfl
  | some prev =>
    unfold RevisionSet.changed RevisionSet.differs
    rw [Bool.eq_iff_iff, List.any_eq_true, List.any_eq_true]
    apply exists_congr
    intro prop
    apply and_congr_right
    intro there
    rw [vals_congr (fun wild => notAll ⟨prop, there, Or.inr wild⟩)
      (fun name named => same name ⟨prop, there, Or.inl named⟩)]

theorem update_asSet (revSet : RevisionSet) (prev : Option MojObject) {base rev : MojObject}
    (carries : base.get revKey = some rev) :
    (revSet.asSet locale false).update prev base =
      if revSet.changed locale prev base then base.put revSet.name rev else base := by
  unfold MojDbRevisionSet.update RevisionSet.asSet
  rw [carries]
  cases prev with
  | none => rfl
  | some prev => rfl

def given (moves : Bool) (prev : Option MojObject) : Option MojObject := if moves then none else prev

theorem asSet_update (moves : Bool) (revSet : RevisionSet) (prev : Option MojObject) (obj : MojObject) :
    (revSet.asSet locale moves).update prev obj =
      (revSet.asSet locale false).update (given moves prev) obj := by
  unfold MojDbRevisionSet.update RevisionSet.asSet given
  cases moves with
  | false => rfl
  | true => cases prev <;> simp

def Written (locale : MojDbLocale) (sets : List RevisionSet) (prev : Option MojObject)
    (base : MojObject) (name : MojString) : Prop :=
  ∃ revSet ∈ sets, revSet.name = name ∧ revSet.changed locale prev base = true

variable {sets : List RevisionSet}

theorem written_cons {revSet : RevisionSet} {prev : Option MojObject} {base : MojObject}
    {name : MojString} :
    Written locale (revSet :: sets) prev base name ↔
      (revSet.name = name ∧ revSet.changed locale prev base = true) ∨
        Written locale sets prev base name := by
  unfold Written
  simp only [List.mem_cons, exists_eq_or_imp]

/-- The update of all sets writes the revision to the fields of those that find a change in the object
as it came, and to no others. -/
theorem get_updated (names : ∀ revSet ∈ sets, revSet.name ≠ revKey)
    (unwatched : ∀ revSet ∈ sets, ∀ other ∈ sets, ¬ revSet.Watches other.name)
    (prev : Option MojObject) {base rev : MojObject} (carries : base.get revKey = some rev)
    (name : MojString) :
    (Written locale sets prev base name →
      (sets.foldl (fun obj revSet => (revSet.asSet locale false).update prev obj) base).get name =
        some rev) ∧
    (¬ Written locale sets prev base name →
      (sets.foldl (fun obj revSet => (revSet.asSet locale false).update prev obj) base).get name =
        base.get name) := by
  induction sets generalizing base with
  | nil =>
    refine ⟨?_, fun _ => rfl⟩
    rintro ⟨revSet, there, _⟩
    cases there
  | cons revSet sets ih =>
    have laterNames := fun other there => names other (List.mem_cons_of_mem _ there)
    have laterUnwatched := fun other there another present =>
      unwatched other (List.mem_cons_of_mem _ there) another (List.mem_cons_of_mem _ present)
    rw [List.foldl_cons, written_cons, update_asSet revSet prev carries]
    split_ifs with finds
    · have kept : (base.put revSet.name rev).get revKey = some rev := by
        rw [MojObject.get_put, if_neg (names revSet List.mem_cons_self)]
        exact carries
      -- the sets behind it do not see that this one was written
      have blind : ∀ other ∈ sets, other.changed locale prev (base.put revSet.name rev) =
          other.changed locale prev base := by
        intro other there
        have unseen := unwatched other (List.mem_cons_of_mem _ there) revSet List.mem_cons_self
        apply changed_congr unseen
        intro name watched
        rw [MojObject.get_put, if_neg fun same : revSet.name = name => unseen (same ▸ watched)]
      have same : Written locale sets prev (base.put revSet.name rev) name ↔
          Written locale sets prev base name := by
        apply exists_congr
        intro other
        apply and_congr_right
        intro there
        rw [blind other there]
      rcases ih laterNames laterUnwatched kept with ⟨writes, leaves⟩
      rw [same, MojObject.get_put] at leaves
      rw [same] at writes
      by_cases again : Written locale sets prev base name
      · exact ⟨fun _ => writes again, fun not => absurd (Or.inr again) not⟩
      · rw [leaves again]
        by_cases named : revSet.name = name
        · rw [if_pos named]
          exact ⟨fun _ => rfl, fun not => absurd (Or.inl ⟨named, finds⟩) not⟩
        · rw [if_neg named]
          exact ⟨fun written => absurd (written.resolve_right again).1 named, fun _ => rfl⟩
    · rcases ih laterNames laterUnwatched carries with ⟨writes, leaves⟩
      constructor
      · intro written
        exact writes (written.resolve_left fun first => finds first.2)
      · intro not
        exact leaves fun written => not (Or.inr written)

/-- In a proper kind the field of a set is written if the set finds a change. -/
theorem written_iff (proper : Proper sets) {prev : Option MojObject} {base : MojObject}
    {revSet : RevisionSet} (there : revSet ∈ sets) :
    Written locale sets prev base revSet.name ↔ revSet.changed locale prev base = true := by
  constructor
  · rintro ⟨other, otherThere, named, finds⟩
    have same := proper.alike other otherThere revSet there named
    unfold RevisionSet.changed RevisionSet.differs at finds ⊢
    rw [← same]
    exact finds
  · intro finds
    exact ⟨revSet, there, rfl, finds⟩

end Update

section Stored

variable {setting : Setting} {req : RevPut} {state : Tracked}

theorem putObj_prepare (kind : KindUpdate) (storage : Option MojErr) (id obj : MojObject)
    (prev : Option MojObject) :
    putObj kind storage id obj prev =
      if prev = some obj then pure .unchanged else prepare obj >>= storeObj kind storage id prev := by
  unfold putObj
  split_ifs
  · rfl
  · unfold prepare
    rw [bind_assoc]
    apply bind_congr
    intro rev
    unfold putRev
    cases named : (obj.put revKey (.int (BitVec.ofNat 64 rev))).get kindKey with
    | none =>
      simp only [named]
      rfl
    | some kindName => simp only [named]

variable {prev : Option MojObject}

theorem storeObj_stored_iff {kind : KindUpdate} {storage : Option MojErr} {id base new : MojObject}
    {ids after : Ids} :
    storeObj kind storage id prev base ids = .ok (.stored new) after ↔
      ids = after ∧ storage = none ∧ ∃ kept, kind.apply prev base = .ok kept ∧
        new = withHeader id kept := by
  unfold storeObj
  cases kind.apply prev base with
  | error err =>
    constructor
    · nofun
    · rintro ⟨_, _, kept, impossible, _⟩
      cases impossible
  | ok kept =>
    cases storage with
    | some err =>
      constructor
      · nofun
      · rintro ⟨_, impossible, _⟩
        cases impossible
    | none =>
      constructor
      · intro ran
        cases ran
        exact ⟨rfl, rfl, kept, rfl, rfl⟩
      · rintro ⟨rfl, _, other, same, rfl⟩
        cases same
        rfl

theorem putObj_stored_iff {kind : KindUpdate} {storage : Option MojErr} {id obj new : MojObject}
    {ids after : Ids} :
    putObj kind storage id obj prev ids = .ok (.stored new) after ↔
      prev ≠ some obj ∧ storage = none ∧ ∃ base kept, prepare obj ids = .ok base after ∧
        kind.apply prev base = .ok kept ∧ new = withHeader id kept := by
  rw [putObj_prepare]
  split_ifs with same
  · constructor
    · intro ran
      cases ran
    · intro differs
      exact absurd same differs.1
  · constructor
    · intro ran
      rcases taking_bind_ok ran with ⟨base, middle, prepared, ran⟩
      rcases storeObj_stored_iff.mp ran with ⟨rfl, stores, kept, applied, header⟩
      exact ⟨same, stores, base, kept, prepared, applied, header⟩
    · rintro ⟨_, stores, base, kept, prepared, applied, header⟩
      rw [taking_bind, prepared]
      exact storeObj_stored_iff.mpr ⟨rfl, stores, kept, applied, header⟩

theorem reaching_prev {found : MojObject × MojObject} (there : found ∈ setting.reaching req state) :
    state.entry = some found.1 := by
  unfold Setting.reaching at there
  cases entry : state.entry with
  | none =>
    rw [entry] at there
    cases there
  | some prev =>
    rw [entry] at there
    cases known : setting.kindOf (Setting.incoming req state) with
    | none =>
      rw [known] at there
      cases there
    | some kind =>
      rw [known] at there
      cases prepared : prepare (Setting.incoming req state)
          { state.ids with failures := req.failures } with
      | error err after =>
        rw [prepared] at there
        cases there
      | ok base after =>
        rw [prepared] at there
        simp only at there
        split_ifs at there
        · cases there
          rfl
        · cases there

def Setting.storing (setting : Setting) (kind : Registered) (prev : Option MojObject)
    (base : MojObject) : MojObject :=
  withHeader setting.id (preUpdate setting.locale prev kind.kind base)

/-- An object of no registered kind is refused, and one of a kind unless the put is refused. -/
theorem apply_ok_iff {base kept : MojObject} :
    (setting.kindUpdate req state).apply prev base = .ok kept ↔
      ∃ kind, setting.kindOf (Setting.incoming req state) = some kind ∧
        req.refuses base prev = none ∧
        kept = preUpdate setting.locale (given (Setting.moves req state) prev) kind.kind
          (kind.synced base) := by
  unfold Setting.kindUpdate
  cases setting.kindOf (Setting.incoming req state) with
  | none =>
    constructor
    · intro applied
      cases applied
    · rintro ⟨kind, impossible, _⟩
      cases impossible
  | some kind =>
    unfold KindUpdate.apply
    cases refused : req.refuses base prev with
    | some err =>
      simp only [refused]
      constructor
      · intro applied
        cases applied
      · rintro ⟨_, _, impossible, _⟩
        cases impossible
    | none =>
      simp only [refused, List.foldl_map, Except.ok.injEq, Option.some.injEq, exists_eq_left',
        true_and, preUpdate_eq, asSet_update (Setting.moves req state)]
      exact eq_comm

/-- A put over a stored version stores an object if it is neither refused nor fails. -/
theorem putImpl_stored_iff {prev new : MojObject} {after : Ids} (entry : state.entry = some prev)
    {ids : Ids} :
    putImpl req.flags (setting.kindUpdate req state) req.storage setting.id req.obj (some prev) ids =
        .ok (.stored new) after ↔
      (checkRev req.flags (Setting.incoming req state) prev).isOk = true ∧
      prev ≠ Setting.incoming req state ∧ req.storage = none ∧
      ∃ kind, setting.kindOf (Setting.incoming req state) = some kind ∧
        ∃ base, prepare (Setting.incoming req state) ids = .ok base after ∧
          req.refuses base (some prev) = none ∧
          new = setting.storing kind (given (Setting.moves req state) (some prev))
            (kind.synced base) := by
  have merged : Setting.incoming req state =
      if req.flags.merge then mergeInto req.obj prev else req.obj := by
    unfold Setting.incoming
    rw [entry]
  rw [putImpl, ← merged]
  cases checkRev req.flags (Setting.incoming req state) prev with
  | error err =>
    constructor
    · intro impossible
      cases impossible
    · rintro ⟨impossible, _⟩
      cases impossible
  | ok done =>
    rw [putObj_stored_iff]
    constructor
    · rintro ⟨differs, stores, base, kept, prepared, applied, header⟩
      rcases apply_ok_iff.mp applied with ⟨kind, found, allowed, updated⟩
      rw [updated] at header
      exact ⟨rfl, fun same => differs (congrArg some same), stores, kind, found, base, prepared,
        allowed, header⟩
    · rintro ⟨_, differs, stores, kind, found, base, prepared, allowed, header⟩
      exact ⟨fun same => differs (Option.some.inj same), stores, base, _, prepared,
        apply_ok_iff.mpr ⟨kind, found, allowed, rfl⟩, header⟩

theorem putImpl_created {ids after : Ids} {new : MojObject} (entry : state.entry = none)
    (ran : putImpl req.flags (setting.kindUpdate req state) req.storage setting.id req.obj none ids =
      .ok (.stored new) after) :
    ∃ kind, setting.kindOf (Setting.incoming req state) = some kind ∧
      ∃ base, prepare (Setting.incoming req state) ids = .ok base after ∧
        new = setting.storing kind (given (Setting.moves req state) none) (kind.synced base) := by
  have whole : Setting.incoming req state = req.obj := by
    unfold Setting.incoming
    rw [entry]
  rw [putImpl] at ran
  split_ifs at ran
  · cases ran
  · rcases putObj_stored_iff.mp ran with ⟨_, _, base, kept, prepared, applied, header⟩
    rcases apply_ok_iff.mp applied with ⟨kind, found, _, updated⟩
    rw [updated] at header
    rw [← whole] at prepared
    exact ⟨kind, found, base, prepared, header⟩

theorem put_cases (setting : Setting) (req : RevPut) (state : Tracked) :
    (∃ ids, setting.put req state = { state with ids := ids } ∧
      ∀ found ∈ setting.reaching req state, Setting.incoming req state = found.1) ∨
    (∃ kind base ids, setting.kindOf (Setting.incoming req state) = some kind ∧
      prepare (Setting.incoming req state) { state.ids with failures := req.failures } =
        .ok base ids ∧
      (∀ prev ∈ state.entry, setting.reaching req state = some (prev, kind.synced base)) ∧
      setting.put req state =
        { entry := some (setting.storing kind (given (Setting.moves req state) state.entry)
            (kind.synced base))
          ids := ids
          lastChange := fun revSet =>
            if revSet.changed setting.locale state.entry
                (setting.storing kind (given (Setting.moves req state) state.entry)
                  (kind.synced base)) then
              (setting.storing kind (given (Setting.moves req state) state.entry)
                (kind.synced base)).get revKey
            else state.lastChange revSet }) := by
  -- a put that comes to the update of its sets stores its object, if that is another one
  have reaches : ∀ found ∈ setting.reaching req state, Setting.incoming req state ≠ found.1 →
      req.commit = none ∧ ∃ new after, putImpl req.flags (setting.kindUpdate req state) req.storage
        setting.id req.obj state.entry { state.ids with failures := req.failures } =
          .ok (.stored new) after := by
    intro found there differs
    unfold Setting.reaching at there
    cases entry : state.entry with
    | none =>
      rw [entry] at there
      cases there
    | some prev =>
      rw [entry] at there
      cases known : setting.kindOf (Setting.incoming req state) with
      | none =>
        rw [known] at there
        cases there
      | some kind =>
        rw [known] at there
        cases prepared : prepare (Setting.incoming req state)
            { state.ids with failures := req.failures } with
        | error err after =>
          rw [prepared] at there
          cases there
        | ok base after =>
          rw [prepared] at there
          simp only at there
          split_ifs at there with passes
          · cases there
            rcases passes with ⟨checked, allowed, stores, commits⟩
            exact ⟨commits, _, after, (putImpl_stored_iff entry).mpr
              ⟨checked, differs.symm, stores, kind, known, base, prepared, allowed, rfl⟩⟩
          · cases there
  have same : (req.commit ≠ none ∨ ∀ new after, putImpl req.flags (setting.kindUpdate req state)
      req.storage setting.id req.obj state.entry { state.ids with failures := req.failures } ≠
        .ok (.stored new) after) →
      ∀ found ∈ setting.reaching req state, Setting.incoming req state = found.1 := by
    intro stays found there
    by_contra differs
    rcases reaches found there differs with ⟨commits, new, after, ran⟩
    rcases stays with fails | never
    · exact fails commits
    · exact never new after ran
  unfold Setting.put
  cases ran : putImpl req.flags (setting.kindUpdate req state) req.storage setting.id req.obj
      state.entry { state.ids with failures := req.failures } with
  | error err ids =>
    refine Or.inl ⟨ids, rfl, same (Or.inr ?_)⟩
    intro new after impossible
    rw [ran] at impossible
    cases impossible
  | ok put ids =>
    cases commits : req.commit with
    | some err =>
      refine Or.inl ⟨ids, rfl, same (Or.inl ?_)⟩
      rw [commits]
      exact Option.some_ne_none err
    | none =>
      cases put with
      | stored new =>
        right
        cases entry : state.entry with
        | none =>
          rw [entry] at ran
          rcases putImpl_created entry ran with ⟨kind, known, base, prepared, rfl⟩
          refine ⟨kind, base, ids, known, prepared, ?_, rfl⟩
          intro prev impossible
          cases impossible
        | some prev =>
          rw [entry] at ran
          rcases (putImpl_stored_iff entry).mp ran with
            ⟨checked, _, stores, kind, known, base, prepared, allowed, rfl⟩
          refine ⟨kind, base, ids, known, prepared, ?_, rfl⟩
          rintro _ ⟨⟩
          unfold Setting.reaching
          rw [entry, known, prepared]
          exact if_pos ⟨checked, allowed, stores, commits⟩
      | _ =>
        refine Or.inl ⟨ids, rfl, same (Or.inr ?_)⟩
        intro new after impossible
        rw [ran] at impossible
        cases impossible

end Stored

section Fields

theorem synced_other (kind : Registered) (base : MojObject) {name : MojString}
    {val : MojObject} (noMark : val ≠ .bool true) :
    (kind.synced base).get name = some val ↔ base.get name = some val := by
  unfold Registered.synced
  by_cases unsynced : kind.backup ∧ base.get syncKey = none
  · rw [if_pos unsynced, MojObject.get_put]
    by_cases same : syncKey = name
    · rw [if_pos same, ← same, unsynced.2]
      constructor
      · intro marked
        exact absurd (Option.some.inj marked).symm noMark
      · intro impossible
        cases impossible
    · rw [if_neg same]
  · rw [if_neg unsynced]

theorem assignIds_flat_iff {val obj out : MojObject} (plain : assignVal val = pure val)
    (noArray : ∀ vals, val ≠ .array vals) (noObject : ∀ props, val ≠ .object props)
    {ids after : Ids} (ran : assignIds obj ids = .ok out after) (name : MojString) :
    out.get name = some val ↔ obj.get name = some val :=
  ⟨Merging.get_assignIds_flat noArray noObject ran, get_assignIds_plain plain ran⟩

/-- What is no array and no object an object has as it is put, but for its revision, which comes from
the sequence. -/
theorem prepare_flat {obj base : MojObject} {ids after : Ids}
    (prepared : prepare obj ids = .ok base after) :
    ∃ rev middle, nextId ids = .ok rev middle ∧ (Fresh middle → Fresh after ∧
      middle.handed <+: after.handed) ∧
      ∀ name val, assignVal val = pure val → (∀ vals, val ≠ .array vals) →
        (∀ props, val ≠ .object props) →
        (base.get name = some val ↔
          (obj.put revKey (.int (BitVec.ofNat 64 rev))).get name = some val) := by
  unfold prepare at prepared
  rcases taking_bind_ok prepared with ⟨rev, middle, drawn, ran⟩
  refine ⟨rev, middle, drawn, ?_⟩
  cases named : (obj.put revKey (.int (BitVec.ofNat 64 rev))).get kindKey with
  | none =>
    simp only [named] at ran
    cases ran
  | some kindName =>
    simp only [named] at ran
    by_cases kindObject : isKindObject kindName = true
    · rw [if_pos kindObject] at ran
      cases ran
      exact ⟨fun fresh => ⟨fresh, List.prefix_refl _⟩, fun _ _ _ _ _ => Iff.rfl⟩
    · rw [if_neg kindObject] at ran
      constructor
      · intro fresh
        have taken := takes_assignIds (obj.put revKey (.int (BitVec.ofNat 64 rev))) middle fresh
        rw [ran] at taken
        exact taken
      · intro name val plain noArray noObject
        exact assignIds_flat_iff plain noArray noObject ran name

theorem get_withHeader_other {id obj : MojObject} {name : MojString} (notRev : name ≠ revKey)
    (notId : name ≠ idKey) (notDel : name ≠ delKey) : (withHeader id obj).get name = obj.get name := by
  unfold withHeader
  simp only []
  split_ifs
  · rw [MojObject.get_put, if_neg notDel.symm, MojObject.get_put, if_neg notRev.symm,
      MojObject.get_put, if_neg notId.symm]
  · rw [MojObject.get_put, if_neg notRev.symm, MojObject.get_put, if_neg notId.symm]

section Storing

variable {setting : Setting} {kind : Registered} (proper : Proper (revSets kind.kind))
  (prev : Option MojObject) {base : MojObject} {rev : MojInt64}
  (carries : base.get revKey = some (.int rev))

include proper carries

theorem storing_rev : (setting.storing kind prev base).get revKey = some (.int rev) := by
  apply get_withHeader
  have unnamed : ¬ Written setting.locale (revSets kind.kind) prev base revKey := by
    rintro ⟨revSet, there, named, _⟩
    exact (proper.names revSet there).1 named
  rw [preUpdate_eq, (get_updated (fun revSet there => (proper.names revSet there).1)
    (fun revSet there => (proper.unwatched revSet there).2.2) prev carries revKey).2 unnamed]
  exact carries

theorem storing_kind : (setting.storing kind prev base).get kindKey = base.get kindKey := by
  have unnamed : ¬ Written setting.locale (revSets kind.kind) prev base kindKey := by
    rintro ⟨revSet, there, named, _⟩
    exact (proper.names revSet there).2.2.2 named
  unfold Setting.storing
  rw [get_withHeader_other (by decide) (by decide) (by decide), preUpdate_eq]
  exact (get_updated (fun revSet there => (proper.names revSet there).1)
    (fun revSet there => (proper.unwatched revSet there).2.2) prev carries kindKey).2 unnamed

theorem storing_changed {revSet : RevisionSet} (there : revSet ∈ revSets kind.kind)
    (old : Option MojObject) :
    revSet.changed setting.locale old (setting.storing kind prev base) =
      revSet.changed setting.locale old base := by
  rcases proper.unwatched revSet there with ⟨noId, noDel, noField⟩
  apply changed_congr noId
  intro name watched
  by_cases isRev : name = revKey
  · rw [isRev, storing_rev proper prev carries, carries]
  · have unwritten : ¬ Written setting.locale (revSets kind.kind) prev base name := by
      rintro ⟨other, otherThere, named, _⟩
      exact noField other otherThere (named ▸ watched)
    unfold Setting.storing
    rw [get_withHeader_other isRev (fun same => noId (same ▸ watched))
      (fun same => noDel (same ▸ watched)), preUpdate_eq]
    exact (get_updated (fun revSet there => (proper.names revSet there).1)
      (fun revSet there => (proper.unwatched revSet there).2.2) prev carries name).2 unwritten

theorem storing_field {revSet : RevisionSet} (there : revSet ∈ revSets kind.kind) :
    (setting.storing kind prev base).get revSet.name =
      if revSet.changed setting.locale prev base then some (.int rev) else base.get revSet.name := by
  rcases proper.names revSet there with ⟨notRev, notId, notDel, _⟩
  unfold Setting.storing
  rw [get_withHeader_other notRev notId notDel, preUpdate_eq]
  rcases get_updated (fun revSet there => (proper.names revSet there).1)
    (fun revSet there => (proper.unwatched revSet there).2.2) prev carries revSet.name with
    ⟨writes, leaves⟩
  rw [written_iff proper there] at writes leaves
  split_ifs with finds
  · exact writes finds
  · exact leaves finds

end Storing

end Fields

section Runs

variable {setting : Setting}

def Numbered (state : Tracked) : Prop :=
  state.entry ≠ none → ∀ revSet, ∃ rev, state.lastChange revSet = some (.int rev)

/-- The last changes are values of the sequence, which does not hand them out again, and all it has
handed out are numbers of 64 bits. -/
structure Dated (state : Tracked) : Prop where
  fresh : Fresh state.ids
  last : state.entry ≠ none → ∀ revSet, ∃ val ∈ state.ids.handed,
    state.lastChange revSet = some (.int (BitVec.ofNat 64 val))

variable {kind : Registered}

theorem kindOf_congr {obj other : MojObject} (found : setting.kindOf obj = some kind)
    (same : ∀ name, obj.get kindKey = some (.string name) → other.get kindKey = some (.string name)) :
    setting.kindOf other = some kind := by
  unfold Setting.kindOf at found ⊢
  cases named : obj.get kindKey with
  | none =>
    rw [named] at found
    cases found
  | some val =>
    cases val with
    | string name =>
      rw [same name named]
      rw [named] at found
      exact found
    | _ =>
      rw [named] at found
      cases found

theorem kindOf_proper (proper : setting.Proper) {obj : MojObject}
    (found : setting.kindOf obj = some kind) : Proper (revSets kind.kind) := by
  unfold Setting.kindOf at found
  cases named : obj.get kindKey with
  | none =>
    rw [named] at found
    cases found
  | some val =>
    cases val with
    | string name =>
      rw [named] at found
      exact proper name kind found
    | _ =>
      rw [named] at found
      cases found

/-- What a put brings to the update of the sets of a kind, with the revision it drew. -/
structure Brought (setting : Setting) (req : RevPut) (state : Tracked) (kind : Registered)
    (base : MojObject) (rev : MojInt64) : Prop where
  known : setting.kindOf (Setting.incoming req state) = some kind
  carries : base.get revKey = some (.int rev)
  sameKind : setting.kindOf base = some kind
  field : ∀ revSet ∈ revSets kind.kind, ∀ val : MojInt64,
    base.get revSet.name = some (.int val) ↔
      (Setting.incoming req state).get revSet.name = some (.int val)

variable {state : Tracked} {req : RevPut}

theorem brought_of_prepare (proper : setting.Proper)
    (known : setting.kindOf (Setting.incoming req state) = some kind) {base : MojObject}
    {ids after : Ids} (prepared : prepare (Setting.incoming req state) ids = .ok base after) :
    ∃ rev, Brought setting req state kind (kind.synced base) (BitVec.ofNat 64 rev) ∧
      (Fresh ids → (∀ earlier ∈ ids.handed, earlier < rev) ∧ rev ∈ after.handed ∧ Fresh after ∧
        ids.handed <+: after.handed) := by
  rcases prepare_flat prepared with ⟨rev, middle, drawn, later, flat⟩
  have whole : ∀ name val, assignVal val = pure val → (∀ vals, val ≠ .array vals) →
      (∀ props, val ≠ .object props) → val ≠ .bool true → name ≠ revKey →
        ((kind.synced base).get name = some val ↔
          (Setting.incoming req state).get name = some val) := by
    intro name val plain noArray noObject noMark notRev
    rw [synced_other kind base noMark, flat name val plain noArray noObject, MojObject.get_put,
      if_neg notRev.symm]
  refine ⟨rev, ⟨known, ?_, ?_, ?_⟩, ?_⟩
  · rw [synced_other kind base MojObject.noConfusion,
      flat revKey _ (by rw [assignVal]) (fun _ => MojObject.noConfusion)
        (fun _ => MojObject.noConfusion), MojObject.get_put, if_pos rfl]
  · apply kindOf_congr known
    intro name named
    exact (whole kindKey (.string name) (by rw [assignVal]) (fun _ => MojObject.noConfusion)
      (fun _ => MojObject.noConfusion) MojObject.noConfusion (by decide)).mpr named
  · intro revSet there val
    exact whole revSet.name (.int val) (by rw [assignVal]) (fun _ => MojObject.noConfusion)
      (fun _ => MojObject.noConfusion) MojObject.noConfusion
      ((kindOf_proper proper known).names revSet there).1
  · intro fresh
    rcases nextId_ok fresh drawn with ⟨above, handed, freshMiddle, grows⟩
    rcases later freshMiddle with ⟨freshAfter, growsOn⟩
    exact ⟨above, growsOn.subset handed, freshAfter, grows.trans growsOn⟩

theorem numbered_put (proper : setting.Proper) (req : RevPut)
    (numbered : Numbered state) : Numbered (setting.put req state) := by
  rcases put_cases setting req state with
    ⟨ids, stays, _⟩ | ⟨kind, base, ids, known, prepared, _, stores⟩
  · rw [stays]
    exact numbered
  · rcases brought_of_prepare proper known prepared with ⟨rev, brought, _⟩
    have stamped := @storing_rev setting _ (kindOf_proper proper known)
      (given (Setting.moves req state) state.entry) _ _ brought.carries
    rw [stores]
    intro _ revSet
    simp only [stamped]
    split_ifs with finds
    · exact ⟨_, rfl⟩
    · apply numbered _ revSet
      intro absent
      rw [absent] at finds
      exact finds rfl

theorem put_takes (setting : Setting) (req : RevPut) (fresh : Fresh state.ids) :
    Fresh (setting.put req state).ids ∧ state.ids.handed <+: (setting.put req state).ids.handed := by
  have taken := takes_putImpl req.flags (setting.kindUpdate req state) req.storage setting.id req.obj
    state.entry { state.ids with failures := req.failures } fresh
  unfold Setting.put
  cases ran : putImpl req.flags (setting.kindUpdate req state) req.storage setting.id req.obj
      state.entry { state.ids with failures := req.failures } with
  | error err ids =>
    rw [ran] at taken
    exact taken
  | ok put ids =>
    rw [ran] at taken
    cases req.commit with
    | some err => exact taken
    | none => cases put <;> exact taken

theorem dated_put (proper : setting.Proper) (req : RevPut)
    (dated : Dated state) : Dated (setting.put req state) := by
  rcases put_takes setting req dated.fresh with ⟨fresh, grows⟩
  refine ⟨fresh, ?_⟩
  rcases put_cases setting req state with
    ⟨ids, stays, _⟩ | ⟨kind, base, ids, known, prepared, _, stores⟩
  · rw [stays] at grows ⊢
    intro present revSet
    rcases dated.last present revSet with ⟨val, handed, same⟩
    exact ⟨val, grows.subset handed, same⟩
  · rcases brought_of_prepare proper known prepared with ⟨rev, brought, drawn⟩
    have stamped := @storing_rev setting _ (kindOf_proper proper known)
      (given (Setting.moves req state) state.entry) _ _ brought.carries
    rw [stores] at grows ⊢
    intro _ revSet
    simp only [stamped]
    split_ifs with finds
    · exact ⟨rev, (drawn dated.fresh).2.1, rfl⟩
    · have present : state.entry ≠ none := by
        intro absent
        rw [absent] at finds
        exact finds rfl
      rcases dated.last present revSet with ⟨val, handed, same⟩
      exact ⟨val, grows.subset handed, same⟩

/-- What a put that stores an object leaves in the field of a set, and what the set found. -/
theorem put_field (proper : setting.Proper) {base : MojObject} {rev : MojInt64}
    (brought : Brought setting req state kind base rev) {revSet : RevisionSet}
    (there : revSet ∈ revSets kind.kind) :
    ((setting.storing kind (given (Setting.moves req state) state.entry) base).get revSet.name =
      if revSet.changed setting.locale state.entry
          (setting.storing kind (given (Setting.moves req state) state.entry) base) then
        (setting.storing kind (given (Setting.moves req state) state.entry) base).get revKey
      else state.lastChange revSet) ↔
    (revSet.changed setting.locale state.entry base = true ∨
      (if Setting.moves req state then some (MojObject.int rev) else base.get revSet.name) =
        state.lastChange revSet) := by
  have properKind := kindOf_proper proper brought.known
  rw [storing_field properKind _ brought.carries there,
    storing_changed properKind _ brought.carries there, storing_rev properKind _ brought.carries]
  cases moved : Setting.moves req state with
  | false =>
    unfold given
    by_cases finds : revSet.changed setting.locale state.entry base = true
    · simp [finds]
    · simp [finds]
  | true =>
    have anew : revSet.changed setting.locale none base = true := rfl
    unfold given
    by_cases finds : revSet.changed setting.locale state.entry base = true
    · simp [finds, anew]
    · simp [finds, anew]

theorem sets_storing (proper : setting.Proper) {base : MojObject} {rev : MojInt64}
    (brought : Brought setting req state kind base rev) (prev : Option MojObject) :
    setting.sets (setting.storing kind prev base) = revSets kind.kind := by
  have properKind := kindOf_proper proper brought.known
  have same := @storing_kind setting _ properKind prev _ _ brought.carries
  unfold Setting.sets
  rw [kindOf_congr brought.sameKind fun name named => same.trans named]
  rfl

theorem sets_incoming (known : setting.kindOf (Setting.incoming req state) = some kind) :
    setting.sets (Setting.incoming req state) = revSets kind.kind := by
  unfold Setting.sets
  rw [known]
  rfl

theorem sets_stays {prev : MojObject} (entry : state.entry = some prev)
    (stays : Setting.moves req state = false) :
    setting.sets prev = setting.sets (Setting.incoming req state) := by
  unfold Setting.moves at stays
  rw [entry] at stays
  simp only [decide_eq_false_iff_not, not_not] at stays
  unfold Setting.sets Setting.kindOf
  rw [stays]

/-- A put leaves the fields right if it brings what is stored in those it does not write. -/
theorem kept_put (proper : setting.Proper) (req : RevPut) (numbered : Numbered state)
    (kept : setting.Kept state) (brings : setting.Brings req state) :
    setting.Kept (setting.put req state) := by
  rcases put_cases setting req state with
    ⟨ids, stays, _⟩ | ⟨kind, base, ids, known, prepared, reached, stores⟩
  · rw [stays]
    exact kept
  · rcases brought_of_prepare proper known prepared with ⟨rev, brought, _⟩
    rw [stores]
    rintro stored ⟨⟩ revSet member
    rw [sets_storing proper brought] at member
    rw [put_field proper brought member]
    by_cases finds : revSet.changed setting.locale state.entry (kind.synced base) = true
    · exact Or.inl finds
    · right
      cases entry : state.entry with
      | none =>
        rw [entry] at finds
        exact absurd rfl finds
      | some prev =>
        rw [entry] at finds
        have inside : revSet ∈ setting.sets (Setting.incoming req state) := by
          rw [sets_incoming known]
          exact member
        rcases brings _ (reached prev entry) revSet inside (eq_false_of_ne_true finds) with
          ⟨same, field⟩
        rcases numbered (entry ▸ Option.some_ne_none prev) revSet with ⟨val, last⟩
        rw [kept prev entry revSet (by rw [sets_stays entry same]; exact inside), last] at field
        rw [same, last]
        exact (brought.field revSet member val).mpr field

/-- A put that leaves the fields right brings what is stored in those it does not write. -/
theorem brings_of_kept (proper : setting.Proper) (req : RevPut) (dated : Dated state)
    (kept : setting.Kept state) (small : ∀ val ∈ (setting.put req state).ids.handed, val < 2 ^ 64)
    (after : setting.Kept (setting.put req state)) : setting.Brings req state := by
  have grows := (put_takes setting req dated.fresh).2
  rcases put_cases setting req state with
    ⟨ids, stays, same⟩ | ⟨kind, base, ids, known, prepared, reached, stores⟩
  · intro found there revSet _ _
    have unchanged := same found there
    refine ⟨?_, by rw [unchanged]⟩
    unfold Setting.moves
    rw [reaching_prev there, unchanged]
    exact decide_eq_false (not_not_intro rfl)
  · rcases brought_of_prepare proper known prepared with ⟨rev, brought, drawn⟩
    rcases drawn dated.fresh with ⟨above, handed, _, _⟩
    intro found there revSet inside unchanged
    cases entry : state.entry with
    | none =>
      unfold Setting.reaching at there
      rw [entry] at there
      cases there
    | some prev =>
      rw [reached prev entry] at there
      cases there
      rw [sets_incoming known] at inside
      rw [stores] at after small grows
      have field := after _ rfl revSet (by rw [sets_storing proper brought]; exact inside)
      rcases ((put_field proper brought inside).mp field) with finds | last
      · rw [entry] at finds
        exact absurd unchanged (ne_false_of_eq_true finds)
      · rcases dated.last (entry ▸ Option.some_ne_none prev) revSet with ⟨val, old, same⟩
        cases moved : Setting.moves req state with
        | true =>
          -- the revision a moved object gets is none that was handed out before
          rw [moved, if_pos rfl, same] at last
          have numbers := congrArg BitVec.toNat (MojObject.int.inj (Option.some.inj last))
          rw [BitVec.toNat_ofNat, BitVec.toNat_ofNat, Nat.mod_eq_of_lt (small rev handed),
            Nat.mod_eq_of_lt (small val (grows.subset old))] at numbers
          exact absurd (above val old) (by omega)
        | false =>
          refine ⟨rfl, ?_⟩
          rw [moved, if_neg Bool.false_ne_true, same] at last
          rw [(brought.field revSet inside _).mp last,
            kept prev entry revSet (by rw [sets_stays entry moved, sets_incoming known]; exact inside),
            same]

end Runs

def watching (name prop : MojString) (plain : split propComponentSeparator [] prop ≠ []) :
    RevisionSet :=
  ⟨name, [⟨prop, .invalid, none, false, plain⟩], List.cons_ne_nil _ _⟩

/-- A kind that gets a set, which holds the last change of a property, from two supers. -/
def watchingKind : Registered where
  kind := .mk [.mk [] [watching (chars ['r']) (chars ['a']) path_a],
    .mk [] [watching (chars ['r']) (chars ['a']) path_a]] []
  backup := false

def watchingKinds : Setting where
  locale := MojDbPropExtractor.markedLocale
  kinds name :=
    if name = chars ['K', ':', '1'] ∨ name = chars ['L', ':', '1'] then some watchingKind else none
  id := .int 1

/-- A put that is not to fail, of an object with a watched and another property. -/
def putSample (merge : Bool) (kind : Char) (watched other : MojInt64) : RevPut where
  obj := .object [(idKey, .int 1), (kindKey, .string (chars [kind, ':', '1'])), (revKey, .int 5),
    (chars ['a'], .int watched), (chars ['b'], .int other)]
  flags := ⟨merge, merge, false⟩
  refuses := fun _ _ => none
  failures := []
  storage := none
  commit := none

theorem mem_watchingKind {revSet : RevisionSet} :
    revSet ∈ revSets watchingKind.kind ↔
      revSet = watching (chars ['r']) (chars ['a']) path_a := by
  simp only [watchingKind, revSets, superSets, List.append_nil, List.nil_append, List.cons_append,
    List.mem_cons, List.not_mem_nil, or_false, or_self]

theorem watchingKind_proper : Proper (revSets watchingKind.kind) where
  names revSet there := by
    rw [mem_watchingKind.mp there]
    decide
  alike revSet there other otherThere _ := by
    rw [mem_watchingKind.mp there, mem_watchingKind.mp otherThere]
  unwatched revSet there := by
    rw [mem_watchingKind.mp there]
    refine ⟨by decide +kernel, by decide +kernel, ?_⟩
    intro other otherThere
    rw [mem_watchingKind.mp otherThere]
    decide +kernel

theorem watchingKinds_proper : watchingKinds.Proper := by
  intro name kind found
  unfold watchingKinds at found
  dsimp only at found
  split_ifs at found
  · cases found
    exact watchingKind_proper
  · cases found

end Db8.Db.MojDb
