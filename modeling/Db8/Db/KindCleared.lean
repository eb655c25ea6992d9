import Db8.Db.KindDeletion
import Db8.Db.SearchIds

/-!
# What the deletion of a kind leaves

As long as no query fills a batch, the request keeps the schema lock from its beginning to its
commit. Nobody else comes in, each query is led to all it is meant for, and the commit stores what
the request made of the data.
-/

set_option autoImplicit false

namespace Db8.Db.DelKind

open Db8.Bytes
open Db8.Core
open MojDb
open MojDbKindEngine
open Deletion (live live_markDeleted)

section Targets

variable {rest : Rest} {kinds : KindMap} {query : KeyQuery} {target : MojObject → Prop}

theorem Without.covered {db : Database} (without : Without target db) : Covered target query db :=
  fun id obj stored meant => absurd meant (without id obj stored)

theorem ends_purge (target : MojObject → Prop) : Ends rest true target := fun marks => by cases marks

theorem hides_purge : (true = false) → Hides rest kinds query := fun marks => by cases marks

theorem ends_permissions (id : MojString) : Ends rest false (PermissionOn id) := by
  intro _ rev obj meant
  have alive := meant.2.2
  rw [live_markDeleted] at alive
  cases alive

theorem kindName_markDeleted (backup : Bool) (rev : MojInt64) (obj : MojObject) :
    Held.kindName (markDeleted backup rev obj) = Held.kindName obj := by
  have apart : delKey ≠ kindKey ∧ revKey ≠ kindKey ∧ syncKey ≠ kindKey := by decide
  have same : (markDeleted backup rev obj).get kindKey = obj.get kindKey := by
    unfold markDeleted
    dsimp only
    split_ifs <;> simp [apart]
  unfold Held.kindName
  rw [same]

variable {purge : Bool} {id : MojString} {obj : MojObject} {before after : Database}

theorem DelDone.without (done : DelDone rest kinds purge id obj before after)
    (ends : Ends rest purge target) (without : Without target before) : Without target after := by
  intro other held stored meant
  exact without other held (done.target_before ends stored meant).2 meant

theorem DelDone.without_kind {kind : MojString} (done : DelDone rest kinds purge id obj before after)
    (stored : before.objDb.find id = some obj) (without : Without (OfKind kind) before) :
    Without (OfKind kind) after := by
  intro other held heldStored meant
  by_cases same : other = id
  · have gone := done.gone
    rw [← same, heldStored] at gone
    unfold Gone at gone
    cases purge with
    | true =>
      rw [if_pos rfl] at gone
      cases gone
    | false =>
      rw [if_neg Bool.false_ne_true] at gone
      rcases gone with ⟨rev, marked⟩
      unfold OfKind at meant
      rw [Option.some.inj marked, kindName_markDeleted] at meant
      exact without id obj stored meant
  · rw [done.others other same] at heldStored
    exact without other held heldStored meant

theorem rangeKeys_length_le (sub : ∀ key ∈ query.rangeKeys after, key ∈ query.rangeKeys before) :
    (query.rangeKeys after).elems.length ≤ (query.rangeKeys before).elems.length :=
  (List.subperm_of_subset (query.rangeKeys after).nodup sub).length_le

theorem PermissionsReady.after_purge {task : Task} (ready : PermissionsReady task kinds before)
    (stored : before.objDb.find id = some obj)
    (done : DelDone task.rest kinds true id obj before after) :
    PermissionsReady task kinds after where
  owned := done.owned hides_purge ready.owned
  covered := done.covered (ends_purge _) ready.owned stored ready.covered
  few := lt_of_le_of_lt (rangeKeys_length_le fun _ member => done.range_sub hides_purge member)
    ready.few
  hides := ready.hides

end Targets

inductive OnTheWay (task : Task) (kinds : KindMap) (indexes : List MojDbIndex) (view : Database) :
    Stage → Prop where
  | objects {limit queryLimit : Nat} (own : indexes = indexesOf kinds task.id)
      (owned : Owned kinds task.objects view)
      (few : (task.objects.rangeKeys view).elems.length < 1000)
      (permissions : PermissionsReady task kinds view)
      (left : limit = autoBatchSize ∧ queryLimit ≠ 0 ∧
          Covered (OfKind task.id) task.objects view ∨ Without (OfKind task.id) view) :
      OnTheWay task kinds indexes view (.objects limit queryLimit)
  | permissions {limit queryLimit : Nat} (own : indexes = indexesOf kinds task.id)
      (objects : Without (OfKind task.id) view)
      (owned : Owned kinds task.permissions view)
      (few : (task.permissions.rangeKeys view).elems.length < 1000)
      (hides : Hides task.rest kinds task.permissions)
      (left : limit = autoBatchSize ∧ queryLimit ≠ 0 ∧
          Covered (PermissionOn task.id) task.permissions view ∨
        Without (PermissionOn task.id) view) :
      OnTheWay task kinds indexes view (.permissions limit queryLimit)
  | drop (own : indexes = indexesOf kinds task.id) (objects : Without (OfKind task.id) view)
      (permissions : Without (PermissionOn task.id) view) :
      OnTheWay task kinds indexes view .drop
  | finish {found : Bool} (clean : found = true → Clean task.id indexes view) :
      OnTheWay task kinds indexes view (.finish found)

structure Exclusive (task : Task) (sys : System) (locked : Bool) (base : Database) : Prop where
  locked : locked = true
  base : base = sys.committed
  idle : sys.clients.any Client.isRunning = false
  batch : sys.batch = task.service
  alone : sys.admitted = []

def Sound (task : Task) (sys : System) : Prop :=
  match sys.phase with
  | .waiting => sys.batch = task.service ∧ sys.admitted = []
  | .holding locked base view stage =>
    Exclusive task sys locked base ∧ OnTheWay task sys.kinds sys.indexes view stage
  | .between _ => False
  | .returned result left =>
    sys.admitted = [] ∧ (result = .ok true → Clean task.id sys.indexes left)

theorem onTheWay_first {task : Task} {kinds : KindMap} {view : Database}
    (ready : Ready task kinds view) :
    OnTheWay task kinds (indexesOf kinds task.id) view firstObjects :=
  .objects rfl ready.owned ready.few ready.permissions (Or.inl ⟨rfl, by decide, ready.covered⟩)

theorem onTheWay_permissions {task : Task} {kinds : KindMap} {indexes : List MojDbIndex}
    {view : Database} (own : indexes = indexesOf kinds task.id)
    (objects : Without (OfKind task.id) view) (ready : PermissionsReady task kinds view) :
    OnTheWay task kinds indexes view firstPermissions :=
  .permissions own objects ready.owned ready.few ready.hides
    (Or.inl ⟨rfl, by decide, ready.covered⟩)

section Rounds

variable {task : Task} {kinds : KindMap} {indexes : List MojDbIndex} {view after : Database}
  {limit queryLimit : Nat} {swept : MojDb.Swept}

theorem round_objects (way : OnTheWay task kinds indexes view (.objects limit queryLimit))
    (success : task.objects.sweep task.rest kinds true limit view = (after, .ok swept)) :
    ¬ autoBatchSize ≤ swept.numberInBatch ∧
      OnTheWay task kinds indexes after (Task.nextObjects limit queryLimit swept) := by
  cases way with
  | objects own owned few permissions left =>
    have covered : Covered (OfKind task.id) task.objects view :=
      left.elim (fun first => first.2.2) Without.covered
    rcases sweep_swept hides_purge (ends_purge _) owned covered success with ⟨batch, done⟩
    have counted := done.counted
    have cleared : Without (OfKind task.id) after := by
      rcases left with ⟨full, _⟩ | without
      · apply done.drained
        rw [full]
        unfold autoBatchSize
        exact Or.inl (lt_of_le_of_lt counted few)
      · apply sweep_keeps _ without success
        intro _ _ _ _ held _ step
        exact step.without (ends_purge _) held
    have ready : PermissionsReady task kinds after := by
      apply sweep_keeps _ permissions success
      intro _ _ _ _ held stored step
      exact held.after_purge stored step
    constructor
    · unfold autoBatchSize
      omega
    · unfold Task.nextObjects
      split_ifs
      · exact onTheWay_permissions own cleared ready
      · exact .objects own done.owned
          (lt_of_le_of_lt (rangeKeys_length_le done.shrunk) few) ready (Or.inr cleared)

theorem round_permissions (way : OnTheWay task kinds indexes view (.permissions limit queryLimit))
    (success : task.permissions.sweep task.rest kinds false limit view = (after, .ok swept)) :
    ¬ autoBatchSize ≤ swept.numberInBatch ∧
      OnTheWay task kinds indexes after (Task.nextPermissions limit queryLimit swept) := by
  cases way with
  | permissions own objects owned few hides left =>
    have covered : Covered (PermissionOn task.id) task.permissions view :=
      left.elim (fun first => first.2.2) Without.covered
    rcases sweep_swept (fun _ => hides) (ends_permissions task.id) owned covered success with
      ⟨batch, done⟩
    have counted := done.counted
    have cleared : Without (PermissionOn task.id) after := by
      rcases left with ⟨full, _⟩ | without
      · apply done.drained
        rw [full]
        unfold autoBatchSize
        exact Or.inl (lt_of_le_of_lt counted few)
      · apply sweep_keeps _ without success
        intro _ _ _ _ held _ step
        exact step.without (ends_permissions task.id) held
    have still : Without (OfKind task.id) after := by
      apply sweep_keeps _ objects success
      intro _ _ _ _ held stored step
      exact step.without_kind stored held
    constructor
    · unfold autoBatchSize
      omega
    · unfold Task.nextPermissions
      split_ifs
      · exact .drop own still cleared
      · exact .permissions own still done.owned
          (lt_of_le_of_lt (rangeKeys_length_le done.shrunk) few) hides (Or.inr cleared)

theorem clean_dropIndexes (way : OnTheWay task kinds indexes view .drop) :
    Clean task.id indexes (Task.dropIndexes (indexesOf kinds task.id) view) := by
  cases way with
  | drop own objects permissions =>
    constructor
    · exact objects
    · intro index member key inside
      unfold Task.dropIndexes at inside
      rw [SortedSet.mem_keep] at inside
      rw [own] at member
      exact of_decide_eq_true (List.all_eq_true.mp inside.2 index member)
    · exact permissions

end Rounds

section Steps

variable {task : Task} {sys next : System}

theorem Exclusive.commits {locked : Bool} {base : Database}
    (exclusive : Exclusive task sys locked base) : task.service = true ∨ sys.batch = false := by
  rw [exclusive.batch]
  cases task.service with
  | true => exact Or.inl rfl
  | false => exact Or.inr rfl

theorem sound_returns {err : MojErr} (alone : sys.admitted = []) :
    Sound task (sys.returns (.error err)) :=
  ⟨alone, fun succeeded => by cases succeeded⟩

theorem sound_begin (sound : Sound task sys) (waiting : sys.phase = .waiting)
    (ready : ReadyToBegin task sys) (begins : task.begin sys = some next) : Sound task next := by
  unfold Sound at sound
  rw [waiting] at sound
  unfold Task.begin at begins
  split_ifs at begins with busy
  dsimp only at begins
  cases checked : task.delKindObject sys.kinds sys.committed with
  | error err =>
    rw [checked] at begins
    rw [← Option.some.inj begins]
    exact sound_returns sound.2
  | ok done =>
    rcases done with ⟨view, found⟩
    rw [checked] at begins
    rw [← Option.some.inj begins]
    have exclusive : ∀ phase, Exclusive task
        { sys with phase := phase, indexes := indexesOf sys.kinds task.id } true
        sys.committed :=
      fun _ => ⟨rfl, rfl, Bool.eq_false_iff.mpr busy, sound.1, sound.2⟩
    apply And.intro (exclusive _)
    cases found with
    | true => exact onTheWay_first (ready view checked)
    | false => exact .finish fun found => by cases found

variable {base view : Database}

theorem sound_round {query : KeyQuery} {purge locked : Bool} {limit : Nat}
    {stage : MojDb.Swept → Stage} (err : Option MojErr) (exclusive : Exclusive task sys locked base)
    (rounds : ∀ after swept, query.sweep task.rest sys.kinds purge limit view = (after, .ok swept) →
      ¬ autoBatchSize ≤ swept.numberInBatch ∧
        OnTheWay task sys.kinds sys.indexes after (stage swept)) :
    Sound task (task.round query purge err locked base view limit stage sys) := by
  unfold Task.round
  rcases ran : query.sweep task.rest sys.kinds purge limit view with ⟨after, result⟩
  cases result with
  | error err => exact sound_returns exclusive.alone
  | ok swept =>
    rcases rounds after swept ran with ⟨part, way⟩
    simp only
    rw [if_neg part]
    exact ⟨⟨exclusive.locked, exclusive.base, exclusive.idle, exclusive.batch, exclusive.alone⟩,
      way⟩

theorem sound_drop {locked : Bool} (err : Option MojErr)
    (exclusive : Exclusive task sys locked base)
    (way : OnTheWay task sys.kinds sys.indexes view .drop) :
    Sound task (task.drop err locked base view sys) := by
  unfold Task.drop
  cases err with
  | some err => exact sound_returns exclusive.alone
  | none =>
    exact ⟨⟨exclusive.locked, exclusive.base, exclusive.idle, exclusive.batch, exclusive.alone⟩,
      .finish fun _ => clean_dropIndexes way⟩

theorem sound_finish {locked found : Bool} (err : Option MojErr)
    (exclusive : Exclusive task sys locked base)
    (way : OnTheWay task sys.kinds sys.indexes view (.finish found)) :
    Sound task (task.finish err base view found sys) := by
  unfold Task.finish
  rw [if_pos exclusive.commits]
  cases err with
  | some err =>
    simp only
    split_ifs <;> exact sound_returns exclusive.alone
  | none =>
    apply And.intro exclusive.alone
    intro succeeded
    simp only
    rw [exclusive.base, task.storage.alone]
    cases way with
    | finish clean => exact clean (Except.ok.inj succeeded)

theorem sound_delKind {err : Option MojErr} (sound : Sound task sys)
    (ready : sys.phase = .waiting → ReadyToBegin task sys)
    (moves : task.delKind err sys = some next) : Sound task next := by
  have state := sound
  unfold Sound at state
  unfold Task.delKind at moves
  cases phase : sys.phase with
  | waiting =>
    rw [phase] at moves
    exact sound_begin sound phase (ready phase) moves
  | between stage =>
    rw [phase] at state
    exact absurd state id
  | returned result left => simp [phase] at moves
  | holding locked base view stage =>
    rw [phase] at state moves
    rcases state with ⟨exclusive, way⟩
    have kept : ∀ later, OnTheWay task sys.kinds sys.indexes view later →
        Sound task { sys with phase := .holding locked base view later } := by
      intro later onward
      exact ⟨⟨exclusive.locked, exclusive.base, exclusive.idle, exclusive.batch,
        exclusive.alone⟩, onward⟩
    cases stage with
    | objects limit queryLimit =>
      simp only at moves
      by_cases ended : queryLimit = 0
      · rw [if_pos ended, Option.some.injEq] at moves
        rw [← moves]
        cases way with
        | objects own _ _ permissions left =>
          rcases left with first | without
          · exact absurd ended first.2.1
          · exact kept _ (onTheWay_permissions own without permissions)
      · rw [if_neg ended, Option.some.injEq] at moves
        rw [← moves]
        exact sound_round err exclusive fun _ _ ran => round_objects way ran
    | permissions limit queryLimit =>
      simp only at moves
      by_cases ended : queryLimit = 0
      · rw [if_pos ended, Option.some.injEq] at moves
        rw [← moves]
        cases way with
        | permissions own objects _ _ _ left =>
          rcases left with first | without
          · exact absurd ended first.2.1
          · exact kept _ (.drop own objects without)
      · rw [if_neg ended, Option.some.injEq] at moves
        rw [← moves]
        exact sound_round err exclusive fun _ _ ran => round_permissions way ran
    | drop =>
      rw [← Option.some.inj moves]
      exact sound_drop err exclusive way
    | finish found =>
      rw [← Option.some.inj moves]
      exact sound_finish err exclusive way

theorem sound_outside {client : Nat} {state : Client} {committed : Database} {admitted : List Nat}
    (sound : Sound task sys) (outside : ∀ locked base view stage,
      sys.phase ≠ .holding locked base view stage) (same : admitted = sys.admitted) :
    Sound task { sys.setClient client state with committed := committed, admitted := admitted } := by
  unfold Sound at sound ⊢
  cases phase : sys.phase with
  | holding locked base view stage => exact absurd phase (outside locked base view stage)
  | between stage =>
    rw [phase] at sound
    exact absurd sound id
  | waiting =>
    rw [phase] at sound
    simp only [System.setClient, phase]
    exact ⟨sound.1, same.trans sound.2⟩
  | returned result left =>
    rw [phase] at sound
    simp only [System.setClient, phase]
    exact ⟨same.trans sound.1, sound.2⟩

theorem outside_of_running (sound : Sound task sys) {client : Nat}
    (running : sys.clients[client]? = some (.running base view)) (locked : Bool)
    (held seen : Database) (stage : Stage) : sys.phase ≠ .holding locked held seen stage := by
  intro phase
  unfold Sound at sound
  rw [phase] at sound
  have idle := sound.1.idle
  rw [List.any_eq_false] at idle
  exact idle _ (List.mem_of_getElem? running) rfl

theorem sound_enter {client : Nat} (sound : Sound task sys)
    (moves : sys.enter client = some next) : Sound task next := by
  unfold System.enter at moves
  cases state : sys.clients[client]? with
  | none => simp [state] at moves
  | some found =>
    cases found with
    | running base view => simp [state] at moves
    | done => simp [state] at moves
    | waiting operation =>
      rw [state] at moves
      simp only at moves
      by_cases locked : sys.schemaLocked = true
      · rw [if_pos locked] at moves
        cases moves
      · rw [if_neg locked] at moves
        have outside : ∀ held base view stage, sys.phase ≠ .holding held base view stage := by
          intro held base view stage phase
          unfold Sound at sound
          rw [phase] at sound
          apply locked
          unfold System.schemaLocked
          rw [phase]
          exact sound.1.locked
        have still : (if sys.removing then sys.admitted ++ [client] else sys.admitted) =
            sys.admitted := by
          apply if_neg
          unfold System.removing
          unfold Sound at sound
          cases phase : sys.phase with
          | holding held base view stage => exact absurd phase (outside held base view stage)
          | between stage =>
            rw [phase] at sound
            exact absurd sound id
          | waiting => simp
          | returned result left => simp
        cases ran : operation sys.kinds sys.committed with
        | error err =>
          rw [ran] at moves
          rw [← Option.some.inj moves]
          exact sound_outside sound outside still
        | ok view =>
          rw [ran] at moves
          rw [← Option.some.inj moves]
          exact sound_outside sound outside still

theorem sound_step {event : Event} (sound : Sound task sys)
    (ready : ∀ err, event = .delKind err → sys.phase = .waiting → ReadyToBegin task sys)
    (moves : task.step sys event = some next) : Sound task next := by
  cases event with
  | enter client => exact sound_enter sound moves
  | delKind err => exact sound_delKind sound (ready err rfl) moves
  | commit client =>
    rw [Task.step, System.commitClient] at moves
    cases state : sys.clients[client]? with
    | none => simp [state] at moves
    | some found =>
      cases found with
      | waiting operation => simp [state] at moves
      | done => simp [state] at moves
      | running base view =>
        rw [state] at moves
        rw [← Option.some.inj moves]
        exact sound_outside sound (outside_of_running sound state) rfl
  | abort client =>
    rw [Task.step, System.abortClient] at moves
    cases state : sys.clients[client]? with
    | none => simp [state] at moves
    | some found =>
      cases found with
      | waiting operation => simp [state] at moves
      | done => simp [state] at moves
      | running base view =>
        rw [state] at moves
        rw [← Option.some.inj moves]
        exact sound_outside sound (outside_of_running sound state) rfl

/-- In a run, the request finds everything ready when it gets its lock. -/
def BeginsReady (task : Task) (start : System) (events : List Event) : Prop :=
  ∀ front err back sys, events = front ++ .delKind err :: back →
    task.run start front = some sys → sys.phase = .waiting → ReadyToBegin task sys

theorem sound_run {start final : System} {events : List Event} (sound : Sound task start)
    (ready : BeginsReady task start events) (ran : task.run start events = some final) :
    Sound task final := by
  induction events generalizing start with
  | nil =>
    rw [← Option.some.inj ran]
    exact sound
  | cons event rest ih =>
    unfold Task.run at ran
    rw [List.foldlM_cons] at ran
    rcases Option.bind_eq_some_iff.mp ran with ⟨next, moves, later⟩
    apply ih (sound_step sound _ moves) _ later
    · intro err isDelKind waiting
      exact ready [] err rest start (by rw [isDelKind]; rfl) rfl waiting
    · intro front err back sys split reached waiting
      apply ready (event :: front) err back sys (by rw [split]; rfl) _ waiting
      unfold Task.run
      rw [List.foldlM_cons]
      exact Option.bind_eq_some_iff.mpr ⟨next, moves, reached⟩

end Steps

/-- A kind deletion whose queries find all they are for, in less than a batch, leaves nothing of the
kind, and nobody comes in between. -/
theorem delKind_leaves_nothing {task : Task} {start final : System} {events : List Event}
    (fresh : Fresh task start) (ready : BeginsReady task start events)
    (ran : task.run start events = some final) (left : Database)
    (succeeded : final.phase = .returned (.ok true) left) :
    Clean task.id final.indexes left ∧ final.admitted = [] := by
  have sound : Sound task start := by
    unfold Sound
    rw [fresh.waiting]
    exact ⟨fresh.batch, fresh.alone⟩
  have done := sound_run sound ready ran
  unfold Sound at done
  rw [succeeded] at done
  exact ⟨done.2 rfl, done.1⟩

section Instances

open MojDbSearchCursor
open MojDbIsamQuery (parseId)

def noteKind : MojString := chars "Note:1".toList

/-- The `_id` index of a kind. -/
def idIndexOf (id : MojObject) : MojDbIndex where
  id := id
  locale := ⟨fun _ => ⟨fun text => text⟩, fun text => [text], fun _ => []⟩
  sortKey := [idKey]
  props := [delProp, idProp]
  includeDeleted := true
  ready := true
  distinctNames := by decide
  hasId := by decide
  delFront := fun _ => rfl

def noteIndex : MojDbIndex := idIndexOf (.int 7)

def keyId (index : MojDbIndex) (key : MojDbKey) : MojString :=
  match parseId index.idIndex key with
  | .ok (some (.string id)) => id
  | _ => []

def wholeIndex (index : MojDbIndex) : KeyQuery where
  inRange key := decide (MojDbKey.assign index.id none <+: key)
  idOf := keyId index
  find _ := .ok ()

def plainRest : Rest where
  cursor := StorageCursor.current
  backup _ := false
  refuses _ _ _ := none

def noteOf (id : MojString) : MojObject :=
  .object [(idKey, .string id), (kindKey, .string noteKind)]

def noteObject : MojObject :=
  .object [(idKey, .string (formatKindId noteKind)), (kindKey, .string MojDbKindEngine.kindKindId)]

def noteKinds : KindMap :=
  (KindMap.empty.put ⟨noteKind, adminOwner, [], [], [noteIndex]⟩).put
    ⟨MojDbKindEngine.kindKindId, adminOwner, [], [], []⟩

/-- A service request to delete the kind of the notes, from an admin. -/
def delNotes : Task where
  id := noteKind
  service := true
  engine := ⟨SortedMap.empty, true⟩
  req := ⟨adminOwner, true⟩
  rest := plainRest
  objects := wholeIndex noteIndex
  permissions := wholeIndex (idIndexOf (.int 8))
  storage := Storage.rebase
  kindObject _ := ⟨adminOwner, [], [noteIndex]⟩

/-- The kind object and the notes under some ids. -/
def noteDb (ids : List MojString) : Database where
  objDb := ids.foldl (fun map id => map.put id (noteOf id))
    (SortedMap.empty.put (formatKindId noteKind) noteObject)
  rev := 1
  keys := SortedSet.ofList (ids.flatMap fun id => (noteIndex.getKeys (noteOf id)).elems)

def noteSystem (ids : List MojString) (clients : List Client) : System where
  committed := noteDb ids
  kinds := noteKinds
  clients := clients
  batch := true
  phase := .waiting
  indexes := []
  admitted := []

theorem find_noteDb (ids : List MojString) (id : MojString) :
    (noteDb ids).objDb.find id =
      if id ∈ ids then some (noteOf id)
      else if id = formatKindId noteKind then some noteObject else none := by
  have walk : ∀ map : SortedMap MojString MojObject,
      (ids.foldl (fun map id => map.put id (noteOf id)) map).find id =
        if id ∈ ids then some (noteOf id) else map.find id := by
    induction ids with
    | nil => intro map; rfl
    | cons head rest ih =>
      intro map
      rw [List.foldl_cons, ih, SortedMap.find_put]
      by_cases later : id ∈ rest
      · simp [later]
      · by_cases here : head = id
        · simp [here]
        · simp [later, here, Ne.symm here]
  unfold noteDb
  simp only
  rw [walk, SortedMap.find_put, SortedMap.find_empty]
  by_cases named : id = formatKindId noteKind
  · simp [named]
  · simp [named, Ne.symm named]

theorem mem_keys_noteDb (ids : List MojString) (key : MojDbKey) :
    key ∈ (noteDb ids).keys ↔ ∃ id ∈ ids, key ∈ noteIndex.getKeys (noteOf id) := by
  unfold noteDb
  rw [SortedSet.mem_ofList, List.mem_flatMap]
  rfl

theorem noteIndex_plain (id : MojObject) : idProp ∈ (idIndexOf id).props := by
  simp [idIndexOf]

theorem contribution_idIndexOf (id obj : MojObject) :
    (idIndexOf id).contribution (some obj) = (idIndexOf id).getKeys obj := rfl

variable {key : MojDbKey}

/-- A key an object gets in an `_id` index leads to the object's id. -/
theorem keyId_of_named {id obj : MojObject} {name : MojString}
    (named : obj.get idKey = some (.string name)) (member : key ∈ (idIndexOf id).getKeys obj) :
    keyId (idIndexOf id) key = name := by
  unfold keyId
  rw [parseId_plain (noteIndex_plain id) named trivial nofun
    ((contribution_idIndexOf id obj).symm ▸ member)]

theorem prefix_getKeys {index : MojDbIndex} {obj : MojObject} {key : MojDbKey}
    (member : key ∈ index.getKeys obj) : MojDbKey.assign index.id none <+: key := by
  rcases (index.mem_getKeys obj key).mp member with ⟨parts, _, same⟩
  rw [same]
  exact List.prefix_append _ _

theorem getKeys_noteOf (id : MojString) :
    (noteIndex.getKeys (noteOf id)).elems = [MojDbKey.assign (.int 7) none ++
      (MojDbKey.assign (.bool false) none ++ MojDbKey.assign (.string id) none)] := by
  have unmarked : delProp.vals noteIndex.locale (noteOf id) =
      SortedSet.empty.put (MojDbKey.assign (.bool false) none) := rfl
  have own : idProp.vals noteIndex.locale (noteOf id) =
      SortedSet.empty.put (MojDbKey.assign (.string id) none) := idProp_vals _ rfl nofun
  have single : noteIndex.getKeys (noteOf id) = SortedSet.single (MojDbKey.assign (.int 7) none ++
      (MojDbKey.assign (.bool false) none ++ MojDbKey.assign (.string id) none)) := by
    ext key
    have vals : noteIndex.vals (noteOf id) = [delProp.vals noteIndex.locale (noteOf id),
      idProp.vals noteIndex.locale (noteOf id)] := rfl
    unfold MojDbIndex.getKeys
    rw [MojDbKeyBuilder.mem_keys_iff, vals, unmarked, own, MojDbKeyBuilder.mem_product_cons]
    simp only [MojDbKeyBuilder.mem_product_cons, MojDbKeyBuilder.mem_product_nil,
      MojDbIndex.idSet, SortedSet.mem_single, SortedSet.mem_put, SortedSet.not_mem_empty, or_false]
    constructor
    · intro parts
      rcases parts with ⟨_, first, _, ⟨_, second, _, ⟨_, third, _, none, same⟩, rest⟩, whole⟩
      rw [whole, rest, same, none, first, second, third, List.append_nil]
      rfl
    · intro same
      exact ⟨_, rfl, _, ⟨_, rfl, _, ⟨_, rfl, [], rfl, (List.append_nil _).symm⟩, rfl⟩, same⟩
  rw [single, SortedSet.elems_single]

/-- The notes once the kind object is marked deleted. -/
def noteView (ids : List MojString) : Database where
  objDb := (noteDb ids).objDb.put (formatKindId noteKind) (markDeleted false 2 noteObject)
  rev := 2
  keys := (noteDb ids).keys

variable {ids : List MojString}

theorem delKindObject_notes (apart : formatKindId noteKind ∉ ids) :
    delNotes.delKindObject noteKinds (noteDb ids) = .ok (noteView ids, true) := by
  have allowed : Escalation.mayDelKind delNotes.engine noteKinds delNotes.req delNotes.id = .ok () :=
    rfl
  have stored : (noteDb ids).objDb.find (formatKindId delNotes.id) = some noteObject := by
    change (noteDb ids).objDb.find (formatKindId noteKind) = some noteObject
    rw [find_noteDb, if_neg apart, if_pos rfl]
  have marked : markDeleted false 2 noteObject ≠ noteObject := by decide +kernel
  have updated : update noteKinds (some (markDeleted false 2 noteObject)) (some noteObject)
      (noteDb ids).keys = .ok (noteDb ids).keys := rfl
  unfold Task.delKindObject
  simp only [allowed, stored, bind, Except.bind]
  unfold Rest.delObj
  have next : (noteDb ids).rev + 1 = 2 := rfl
  have plain : delNotes.rest.backup noteObject = false := rfl
  rw [if_neg Bool.false_ne_true, next, plain]
  simp only
  rw [if_neg marked]
  unfold Rest.kindUpdate
  have accepts : delNotes.rest.refuses noteKinds (some (markDeleted false 2 noteObject)) noteObject =
    none := rfl
  simp only [accepts, updated, bind, Except.bind]
  rfl

theorem find_noteView (ids : List MojString) (id : MojString) :
    (noteView ids).objDb.find id =
      if id = formatKindId noteKind then some (markDeleted false 2 noteObject)
      else if id ∈ ids then some (noteOf id) else none := by
  unfold noteView
  simp only
  rw [SortedMap.find_put, find_noteDb]
  by_cases named : id = formatKindId noteKind
  · simp [named]
  · simp [named, Ne.symm named]

variable {obj : MojObject}

theorem noteView_stored {id : MojString} (stored : (noteView ids).objDb.find id = some obj) :
    obj.get idKey = some (.string id) ∧ ∃ kind, kindOf noteKinds obj = .ok kind := by
  rw [find_noteView] at stored
  split_ifs at stored with named note
  · rw [← Option.some.inj stored, named]
    exact ⟨by decide +kernel, _, rfl⟩
  · rw [← Option.some.inj stored]
    exact ⟨rfl, _, rfl⟩

theorem keyed_noteKinds (keyed : Keyed noteKinds (some obj) key) : key ∈ noteIndex.getKeys obj := by
  rcases keyed with ⟨id, index, member, inside⟩
  unfold indexesOf at member
  cases found : noteKinds.find id with
  | none => simp [found] at member
  | some kind =>
    rw [found] at member
    have named := KindMap.find_id found
    rw [← named] at found
    have registered := (KindMap.mem_kinds_iff noteKinds kind).mpr found
    have kinds : noteKinds.kinds =
        [⟨MojDbKindEngine.kindKindId, adminOwner, [], [], []⟩, ⟨noteKind, adminOwner, [], [], [noteIndex]⟩] := rfl
    rw [kinds] at registered
    rcases List.mem_cons.mp registered with same | registered
    · rw [same] at member
      cases member
    · rw [List.mem_singleton.mp registered] at member
      rw [List.mem_singleton.mp member] at inside
      exact inside

theorem owned_notes (ids : List MojString) : Owned noteKinds delNotes.objects (noteView ids) := by
  intro id obj stored key keyed _
  exact keyId_of_named (noteView_stored stored).1 (keyed_noteKinds keyed)

theorem covered_notes (ids : List MojString) :
    Covered (OfKind noteKind) delNotes.objects (noteView ids) := by
  intro id obj stored meant
  rw [find_noteView] at stored
  split_ifs at stored with named note
  · rw [← Option.some.inj stored] at meant
    unfold OfKind at meant
    rw [kindName_markDeleted] at meant
    exact absurd meant (by decide)
  · have only := getKeys_noteOf id
    have member : MojDbKey.assign (.int 7) none ++ (MojDbKey.assign (.bool false) none ++
        MojDbKey.assign (.string id) none) ∈ noteIndex.getKeys (noteOf id) := by
      rw [SortedSet.mem_def, only]
      exact List.mem_singleton_self _
    refine ⟨_, ?_, keyId_of_named rfl member⟩
    rw [KeyQuery.mem_rangeKeys]
    exact ⟨(mem_keys_noteDb ids _).mpr ⟨id, note, member⟩, decide_eq_true (prefix_getKeys member)⟩

theorem rangeKeys_notes (ids : List MojString) :
    (delNotes.objects.rangeKeys (noteView ids)).elems.length ≤ ids.length := by
  have sub : (delNotes.objects.rangeKeys (noteView ids)).elems ⊆ ids.map fun id =>
      MojDbKey.assign (.int 7) none ++
        (MojDbKey.assign (.bool false) none ++ MojDbKey.assign (.string id) none) := by
    intro key member
    have inside := (KeyQuery.mem_rangeKeys _ _ key).mp member
    rcases (mem_keys_noteDb ids key).mp inside.1 with ⟨id, idIn, keyIn⟩
    rw [SortedSet.mem_def, getKeys_noteOf, List.mem_singleton] at keyIn
    exact List.mem_map.mpr ⟨id, idIn, keyIn.symm⟩
  have most := (List.subperm_of_subset (SortedSet.nodup _) sub).length_le
  rwa [List.length_map] at most

theorem inRange_permissions (member : key ∈ noteIndex.getKeys obj) :
    delNotes.permissions.inRange key = false := by
  apply decide_eq_false
  intro same
  have other : MojDbKey.assign (.int 7) none <+: key := prefix_getKeys member
  have equal := (List.prefix_of_prefix_length_le same other (by decide)).eq_of_length (by decide)
  exact absurd equal (by decide)

variable {db : Database}

theorem rangeKeys_permissions (keys : ∀ key ∈ db.keys, key ∈ (noteView ids).keys) (key : MojDbKey) :
    key ∉ delNotes.permissions.rangeKeys db := by
  intro member
  rw [KeyQuery.mem_rangeKeys] at member
  rcases (mem_keys_noteDb ids key).mp (keys key member.1) with ⟨id, _, keyIn⟩
  rw [inRange_permissions keyIn] at member
  exact absurd member.2 Bool.false_ne_true

theorem delObj_notes {id : MojString}
    (held : ∀ id obj, db.objDb.find id = some obj → (noteView ids).objDb.find id = some obj)
    (stored : db.objDb.find id = some obj) :
    ∃ after, plainRest.delObj noteKinds true id obj db = .ok after ∧
      ∀ id obj, after.objDb.find id = some obj → (noteView ids).objDb.find id = some obj := by
  rcases (noteView_stored (held id obj stored)).2 with ⟨kind, known⟩
  have updated : plainRest.kindUpdate noteKinds none obj db.keys =
      .ok (updateIndexes noteKinds none (some obj) kind.id db.keys) := by
    unfold Rest.kindUpdate
    simp only [plainRest, update, known, bind, Except.bind]
  refine ⟨⟨db.objDb.del id, db.rev, updateIndexes noteKinds none (some obj) kind.id db.keys⟩, ?_, ?_⟩
  · unfold Rest.delObj
    rw [if_pos rfl]
    simp only [updated, bind, Except.bind]
  · intro other left found
    simp only [SortedMap.find_del] at found
    split_ifs at found
    exact held other left found

structure RoundOfNotes (ids : List MojString) (after : Database) : Prop where
  without : Without (OfKind noteKind) after
  objects : ∀ id obj, after.objDb.find id = some obj → (noteView ids).objDb.find id = some obj
  keys : ∀ key ∈ after.keys, key ∈ (noteView ids).keys

theorem round_notes (distinct : ids.Nodup) (apart : formatKindId noteKind ∉ ids)
    (thousand : ids.length = 1000) :
    ∃ after, delNotes.objects.sweep plainRest noteKinds true 1000 (noteView ids) =
      (after, .ok ⟨1000, 1000⟩) ∧ RoundOfNotes ids after := by
  have ran := @sweepFrom_ok plainRest noteKinds delNotes.objects true
    (fun db => ∀ id obj, db.objDb.find id = some obj → (noteView ids).objDb.find id = some obj)
    (fun _ _ _ held stored => delObj_notes held stored)
    (delNotes.objects.rangeKeys (noteView ids)) 1000 none (noteView ids) (fun _ _ found => found)
  rcases ran with ⟨after, count, loop⟩
  have success : delNotes.objects.sweep plainRest noteKinds true 1000 (noteView ids) =
      (after, .ok ⟨count, count⟩) := by
    have finds : delNotes.objects.find noteKinds = .ok () := rfl
    unfold KeyQuery.sweep
    simp only [finds, loop, Except.map]
  have swept := (sweep_swept hides_purge (ends_purge (OfKind noteKind)) (owned_notes ids)
    (covered_notes ids) success).2
  have bounded : count ≤ 1000 := swept.bounded
  have counted : count ≤ (delNotes.objects.rangeKeys (noteView ids)).elems.length := swept.counted
  have range := rangeKeys_notes ids
  have changed := sweepFrom_changed _ 1000 none loop
  have least : 1000 ≤ count := by
    by_contra less
    have without := swept.drained (Or.inl (not_le.mp less))
    rcases changed with ⟨touched, fewer, others⟩
    have all : ids ⊆ touched := by
      intro id member
      by_contra untouched
      have stored : after.objDb.find id = some (noteOf id) := by
        have other : id ≠ formatKindId noteKind := fun named => apart (named ▸ member)
        rw [others id untouched, find_noteView, if_neg other, if_pos member]
      exact without id _ stored rfl
    have most := (List.subperm_of_subset distinct all).length_le
    omega
  have full : count = 1000 := Nat.le_antisymm bounded least
  have every : count = (delNotes.objects.rangeKeys (noteView ids)).elems.length := by omega
  have without := swept.drained (Or.inr every)
  rw [full] at success
  refine ⟨after, success, without, ?_, ?_⟩
  · apply @sweep_keeps plainRest noteKinds delNotes.objects true (fun db => ∀ id obj,
      db.objDb.find id = some obj → (noteView ids).objDb.find id = some obj) _ 1000 (noteView ids)
      after _ (fun _ _ found => found) success
    intro id obj before after held stored done other left found
    have old := (done.target_before (ends_purge fun _ => True) found trivial).2
    exact held other left old
  · apply @sweep_keeps plainRest noteKinds delNotes.objects true
      (fun db => ∀ key ∈ db.keys, key ∈ (noteView ids).keys) _ 1000 (noteView ids) after _
      (fun _ member => member) success
    intro id obj before after held stored done key member
    rcases done.exchanged with ⟨newObj, exchanged, none | ⟨marks, _⟩⟩
    · rw [none] at exchanged
      rcases exchanged.gained key member with old | new
      · exact held key old
      · exact absurd new (not_keyed_none noteKinds key)
    · cases marks

variable {query : KeyQuery}

theorem sweep_none {kinds : KindMap} {purge : Bool} (finds : query.find kinds = .ok ())
    (missing : ∀ key ∈ query.rangeKeys db, db.objDb.find (query.idOf key) = none) (limit : Nat) :
    query.sweep plainRest kinds purge limit db = (db, .ok ⟨0, 0⟩) := by
  have got : query.get plainRest (query.rangeKeys db) none db = none := by
    unfold KeyQuery.get
    rw [List.findSome?_eq_none_iff]
    intro key inside
    have member : key ∈ query.rangeKeys db := (plainRest.cursor.shown _ _ _ key inside).elim id id
    rw [missing key member]
    rfl
  unfold KeyQuery.sweep
  rw [finds]
  cases limit with
  | zero => rfl
  | succ room =>
    simp only [KeyQuery.sweepFrom, got]
    rfl

theorem round_again (apart : formatKindId noteKind ∉ ids) {after : Database}
    (left : RoundOfNotes ids after) (limit : Nat) :
    delNotes.objects.sweep plainRest noteKinds true limit after = (after, .ok ⟨0, 0⟩) := by
  apply sweep_none rfl
  intro key member
  rw [KeyQuery.mem_rangeKeys] at member
  rcases (mem_keys_noteDb ids key).mp (left.keys key member.1) with ⟨id, idIn, keyIn⟩
  have named : delNotes.objects.idOf key = id := keyId_of_named rfl keyIn
  rw [named]
  cases stored : after.objDb.find id with
  | none => rfl
  | some obj =>
    have old := left.objects id obj stored
    have other : id ≠ formatKindId noteKind := fun same => apart (same ▸ idIn)
    rw [find_noteView, if_neg other, if_pos idIn, Option.some.injEq] at old
    exact absurd (old ▸ rfl) (left.without id obj stored)

variable {task : Task}

theorem Task.run_cons {sys next : System} {event : Event} (rest : List Event)
    (moves : task.step sys event = some next) :
    task.run sys (event :: rest) = task.run next rest := by
  unfold Task.run
  rw [List.foldlM_cons, moves]
  rfl

def putNote (id : MojString) : Operation := fun kinds db => do
  let obj := (noteOf id).put revKey (.int (db.rev + 1))
  let keys ← update kinds (some obj) none db.keys
  .ok ⟨db.objDb.put id obj, db.rev + 1, keys⟩

def crowd : List MojString := (List.range 1000).map fun n => List.replicate (n + 1) ⟨97, lowered_ne_zero⟩

def lateId : MojString := chars "b".toList

def crowded : System := noteSystem crowd [.waiting (putNote lateId)]

/-- The request commits its first batch and finds no more notes; the client comes in and is done
before the request ends. -/
def crowdedEvents : List Event :=
  [.delKind none, .delKind none, .delKind none, .delKind none, .enter 0, .commit 0, .delKind none,
    .delKind none, .delKind none]

theorem crowd_nodup : crowd.Nodup := by
  unfold crowd
  rw [List.nodup_map_iff_inj_on List.nodup_range]
  intro left _ right _ same
  have lengths := congrArg List.length same
  rw [List.length_replicate, List.length_replicate] at lengths
  exact Nat.succ_injective lengths

theorem crowd_apart : formatKindId noteKind ∉ crowd := by
  intro member
  rcases List.mem_map.mp member with ⟨n, _, same⟩
  have first := congrArg List.head? same
  rw [List.replicate_succ, List.head?_cons] at first
  exact absurd first (by decide)

theorem round_full {task : Task} {query : KeyQuery} {purge locked : Bool} {base view after : Database}
    {limit : Nat} {next : MojDb.Swept → Stage} {sys : System} {swept : MojDb.Swept}
    (ran : query.sweep task.rest sys.kinds purge limit view = (after, .ok swept))
    (full : autoBatchSize ≤ swept.numberInBatch) :
    task.round query purge none locked base view limit next sys =
      { sys with
        committed := task.storage.merge base after sys.committed
        batch := true
        phase := .between (next swept) } := by
  unfold Task.round
  simp only [ran]
  rw [if_pos full]

theorem round_part {purge locked : Bool} {base view after : Database} {limit : Nat}
    {next : MojDb.Swept → Stage} {sys : System} {swept : MojDb.Swept} {err : Option MojErr}
    (ran : query.sweep task.rest sys.kinds purge limit view = (after, .ok swept))
    (part : ¬ autoBatchSize ≤ swept.numberInBatch) :
    task.round query purge err locked base view limit next sys =
      { sys with phase := .holding locked base after (next swept) } := by
  unfold Task.round
  simp only [ran]
  rw [if_neg part]

def midway (committed : Database) (clients : List Client) (phase : Phase) (admitted : List Nat) :
    System :=
  ⟨committed, noteKinds, clients, true, phase, [noteIndex], admitted⟩

section Crowd

variable {after : Database}

theorem crowd_begins : delNotes.step crowded (.delKind none) =
    some (midway (noteDb crowd) [.waiting (putNote lateId)]
      (.holding true (noteDb crowd) (noteView crowd) firstObjects) []) := by
  unfold Task.step Task.delKind Task.begin
  simp only [crowded, noteSystem, List.any_cons, List.any_nil, Client.isRunning, Bool.or_self,
    Bool.false_eq_true, if_false, delKindObject_notes crowd_apart]
  rfl

theorem crowd_commits (swept : delNotes.objects.sweep plainRest noteKinds true 1000
    (noteView crowd) = (after, .ok ⟨1000, 1000⟩)) (clients : List Client) :
    delNotes.step (midway (noteDb crowd) clients
      (.holding true (noteDb crowd) (noteView crowd) firstObjects) []) (.delKind none) =
    some (midway after clients (.between (.objects 1000 4294966295)) []) := by
  have full : firstLimit MojDbQuery.limitDefault = 1000 := by decide
  have going : MojDbQuery.limitDefault.toNat = 4294967295 := by decide
  have next : Task.nextObjects 1000 4294967295 ⟨1000, 1000⟩ = .objects 1000 4294966295 := by
    simp [Task.nextObjects, nextLimit, autoBatchSize]
  have kept : delNotes.storage.merge (noteDb crowd) after (noteDb crowd) = after :=
    Storage.rebase.alone (noteDb crowd) after
  have committed := @round_full delNotes delNotes.objects true true (noteDb crowd) (noteView crowd)
    after 1000 (Task.nextObjects 1000 4294967295) (midway (noteDb crowd) clients
      (.holding true (noteDb crowd) (noteView crowd) (.objects 1000 4294967295)) []) ⟨1000, 1000⟩
    swept (by decide)
  have state : Stage.objects (firstLimit MojDbQuery.limitDefault) MojDbQuery.limitDefault.toNat =
      .objects 1000 4294967295 := by
    rw [full, going]
  unfold firstObjects
  rw [state]
  refine (congrArg some committed).trans ?_
  simp only [midway, next, kept]

/-- The note of the other client, in the store its put leaves. -/
def lateNote (db : Database) : MojObject := (noteOf lateId).put revKey (.int (db.rev + 1))

def lateDb (db : Database) : Database :=
  ⟨db.objDb.put lateId (lateNote db), db.rev + 1,
    updateIndexes noteKinds (some (lateNote db)) none noteKind db.keys⟩

theorem putNote_late (db : Database) : putNote lateId noteKinds db = .ok (lateDb db) := by
  have known : kindOf noteKinds (lateNote db) = .ok ⟨noteKind, adminOwner, [], [], [noteIndex]⟩ := rfl
  unfold putNote
  change (update noteKinds (some (lateNote db)) none db.keys >>= _) = _
  rw [update, known]
  rfl

theorem ofKind_lateNote (db : Database) : OfKind noteKind (lateNote db) := rfl

end Crowd

/-- With a thousand objects of the kind another client comes in, and its object stays. -/
theorem crowd_lets_in : Fresh delNotes crowded ∧ ∃ final left,
    delNotes.run crowded crowdedEvents = some final ∧ final.phase = .returned (.ok true) left ∧
      ¬ Clean delNotes.id final.indexes left ∧ final.admitted ≠ [] := by
  apply And.intro ⟨rfl, rfl, rfl⟩
  rcases round_notes crowd_nodup crowd_apart (by simp [crowd]) with ⟨after, swept, settled⟩
  have again := round_again crowd_apart settled
  have idle : ∀ limit, delNotes.permissions.sweep plainRest noteKinds false limit after =
      (after, .ok ⟨0, 0⟩) := fun limit =>
    sweep_none rfl (fun key member => absurd member (rangeKeys_permissions settled.keys key)) limit
  have part : ¬ autoBatchSize ≤ (⟨0, 0⟩ : MojDb.Swept).numberInBatch := by decide
  have reopens : delNotes.step (midway after [.waiting (putNote lateId)]
      (.between (.objects 1000 4294966295)) []) (.delKind none) =
      some (midway after [.waiting (putNote lateId)]
        (.holding false after after (.objects 1000 4294966295)) []) := rfl
  have drains : delNotes.step (midway after [.waiting (putNote lateId)]
      (.holding false after after (.objects 1000 4294966295)) []) (.delKind none) =
      some (midway after [.waiting (putNote lateId)]
        (.holding false after after firstPermissions) []) :=
    congrArg some (round_part (again 1000) part)
  have enters : delNotes.step (midway after [.waiting (putNote lateId)]
      (.holding false after after firstPermissions) []) (.enter 0) =
      some (midway after [.running after (lateDb after)]
        (.holding false after after firstPermissions) [0]) := by
    unfold Task.step System.enter
    simp only [midway, List.getElem?_cons_zero, putNote_late]
    rfl
  have stores : delNotes.step (midway after [.running after (lateDb after)]
      (.holding false after after firstPermissions) [0]) (.commit 0) =
      some (midway (lateDb after) [.done] (.holding false after after firstPermissions) [0]) := by
    have kept : delNotes.storage.merge after (lateDb after) after = lateDb after :=
      Storage.rebase.alone after (lateDb after)
    unfold Task.step System.commitClient
    simp only [midway, List.getElem?_cons_zero, System.setClient, kept]
    rfl
  have permits : delNotes.step (midway (lateDb after) [.done]
      (.holding false after after firstPermissions) [0]) (.delKind none) =
      some (midway (lateDb after) [.done] (.holding false after after .drop) [0]) :=
    congrArg some (round_part (idle 1000) part)
  unfold crowdedEvents
  rw [Task.run_cons _ crowd_begins, Task.run_cons _ (crowd_commits swept _),
    Task.run_cons _ reopens, Task.run_cons _ drains, Task.run_cons _ enters,
    Task.run_cons _ stores, Task.run_cons _ permits]
  refine ⟨_, _, rfl, rfl, ?_, ?_⟩
  · intro clean
    apply clean.objects lateId (lateNote after) _ (ofKind_lateNote after)
    change (SortedMap.rebase after.objDb after.objDb (lateDb after).objDb).find lateId = _
    rw [SortedMap.find_rebase, if_pos rfl]
    unfold lateDb
    rw [SortedMap.find_put, if_pos rfl]
  · intro none
    cases none

theorem begun_round {purge locked : Bool} {base view : Database} {limit : Nat}
    {next : MojDb.Swept → Stage} (err : Option MojErr) (sys : System) :
    (task.round query purge err locked base view limit next sys).phase ≠ .waiting := by
  unfold Task.round
  rcases query.sweep task.rest sys.kinds purge limit view with ⟨after, result⟩
  cases result with
  | error failed => exact Phase.noConfusion
  | ok swept =>
    simp only
    split_ifs
    · cases err <;> exact Phase.noConfusion
    · exact Phase.noConfusion

theorem begun_delKind {err : Option MojErr} {sys next : System}
    (moves : task.delKind err sys = some next) : next.phase ≠ .waiting := by
  unfold Task.delKind at moves
  cases phase : sys.phase with
  | waiting =>
    rw [phase] at moves
    simp only [Task.begin] at moves
    split_ifs at moves
    cases checked : task.delKindObject sys.kinds sys.committed with
    | error failed =>
      rw [checked] at moves
      rw [← Option.some.inj moves]
      exact Phase.noConfusion
    | ok done =>
      rw [checked] at moves
      rw [← Option.some.inj moves]
      exact Phase.noConfusion
  | between stage =>
    rw [phase] at moves
    rw [← Option.some.inj moves]
    exact Phase.noConfusion
  | returned result left => simp [phase] at moves
  | holding locked base view stage =>
    rw [phase] at moves
    cases stage with
    | objects limit queryLimit =>
      simp only at moves
      split_ifs at moves
      · rw [← Option.some.inj moves]
        exact Phase.noConfusion
      · rw [← Option.some.inj moves]
        exact begun_round err sys
    | permissions limit queryLimit =>
      simp only at moves
      split_ifs at moves
      · rw [← Option.some.inj moves]
        exact Phase.noConfusion
      · rw [← Option.some.inj moves]
        exact begun_round err sys
    | drop =>
      rw [← Option.some.inj moves]
      unfold Task.drop
      cases err <;> exact Phase.noConfusion
    | finish found =>
      rw [← Option.some.inj moves]
      unfold Task.finish
      cases err with
      | none => split_ifs <;> exact Phase.noConfusion
      | some failed =>
        simp only
        split_ifs <;> exact Phase.noConfusion

theorem begun_step {event : Event} {sys next : System} (moves : task.step sys event = some next)
    (started : sys.phase ≠ .waiting) : next.phase ≠ .waiting := by
  cases event with
  | delKind err => exact begun_delKind moves
  | enter client =>
    rw [Task.step, System.enter] at moves
    split at moves
    · rename_i operation found
      by_cases locked : sys.schemaLocked = true
      · rw [if_pos locked] at moves
        cases moves
      · rw [if_neg locked] at moves
        cases ran : operation sys.kinds sys.committed with
        | error err =>
          simp only [ran] at moves
          rw [← Option.some.inj moves]
          exact started
        | ok view =>
          simp only [ran] at moves
          rw [← Option.some.inj moves]
          exact started
    · cases moves
  | commit client =>
    rw [Task.step, System.commitClient] at moves
    split at moves
    · rw [← Option.some.inj moves]
      exact started
    · cases moves
  | abort client =>
    rw [Task.step, System.abortClient] at moves
    split at moves
    · rw [← Option.some.inj moves]
      exact started
    · cases moves

theorem beginsReady_first {start : System} (err : Option MojErr) (rest : List Event)
    (ready : ReadyToBegin task start) : BeginsReady task start (.delKind err :: rest) := by
  have begun : ∀ events sys final, sys.phase ≠ .waiting → task.run sys events = some final →
      final.phase ≠ .waiting := by
    intro events
    induction events with
    | nil =>
      intro sys final started ran
      rw [← Option.some.inj ran]
      exact started
    | cons event rest ih =>
      intro sys final started ran
      unfold Task.run at ran
      rw [List.foldlM_cons] at ran
      rcases Option.bind_eq_some_iff.mp ran with ⟨next, moves, later⟩
      exact ih next final (begun_step moves started) later
  intro front other back sys splits ran waiting
  cases front with
  | nil =>
    rw [← Option.some.inj ran]
    exact ready
  | cons event events =>
    rw [List.cons_append, List.cons.injEq] at splits
    unfold Task.run at ran
    rw [List.foldlM_cons] at ran
    rcases Option.bind_eq_some_iff.mp ran with ⟨next, moves, later⟩
    rw [← splits.1] at moves
    exact absurd waiting (begun events next sys (begun_delKind moves) later)

/-! ### A kind with a permission -/

def permissionIndex : MojDbIndex := idIndexOf (.int 8)

def permissionOf (id : MojString) : MojObject :=
  .object [(idKey, .string id), (kindKey, .string permissionId), (objectKey, .string noteKind)]

def homeKinds : KindMap := noteKinds.put ⟨permissionId, adminOwner, [], [], [permissionIndex]⟩

def livePermissions : KeyQuery where
  inRange key := decide
    (MojDbKey.assign (.int 8) none ++ MojDbKey.assign (.bool false) none <+: key)
  idOf := keyId permissionIndex
  find _ := .ok ()

def delHome : Task := { delNotes with permissions := livePermissions }

/-- Three notes, a permission on their kind and the kind object. -/
def homeObjects : List (MojString × MojObject) :=
  [(chars "a".toList, noteOf (chars "a".toList)), (chars "b".toList, noteOf (chars "b".toList)),
    (chars "c".toList, noteOf (chars "c".toList)),
    (chars "p".toList, permissionOf (chars "p".toList)), (formatKindId noteKind, noteObject)]

def homeDb : Database where
  objDb := homeObjects.foldl (fun map entry => map.put entry.1 entry.2) SortedMap.empty
  rev := 1
  keys := SortedSet.ofList (homeObjects.flatMap fun entry =>
    (homeKinds.kinds.filter (fun kind => Held.kindName entry.2 = some kind.id)).flatMap fun kind =>
      kind.indexes.flatMap fun index => (index.getKeys entry.2).elems)

/-- Another client waits to put one more note. -/
def homeSystem : System :=
  ⟨homeDb, homeKinds, [.waiting (putNote (chars "d".toList))], true, .waiting, [], []⟩

def homeEvents : List Event := List.replicate 7 (.delKind none) ++ [.enter 0]

/-- The database once the kind object is marked deleted. -/
def homeView : Database :=
  ((delHome.delKindObject homeKinds homeDb).toOption.map Prod.fst).getD homeDb

theorem keyed_elems {kinds : KindMap} (keyed : Keyed kinds (some obj) key) :
    ∃ kind ∈ kinds.kinds, ∃ index ∈ kind.indexes, key ∈ (index.contribution (some obj)).elems := by
  rcases keyed with ⟨id, index, member, inside⟩
  unfold indexesOf at member
  cases found : kinds.find id with
  | none => simp [found] at member
  | some kind =>
    rw [found] at member
    have named := KindMap.find_id found
    rw [← named] at found
    exact ⟨kind, (KindMap.mem_kinds_iff kinds kind).mpr found, index, member, inside⟩

theorem owned_of_entries {kinds : KindMap}
    (all : ∀ entry ∈ db.objDb.entries, ∀ kind ∈ kinds.kinds, ∀ index ∈ kind.indexes,
      ∀ key ∈ (index.contribution (some entry.2)).elems,
        query.inRange key = true → query.idOf key = entry.1) : Owned kinds query db := by
  intro id obj stored key keyed inside
  rcases keyed_elems keyed with ⟨kind, registered, index, own, member⟩
  exact all (id, obj) ((SortedMap.find_eq_some_iff _ _ _).mp stored) kind registered index own key
    member inside

theorem covered_of_entries {target : MojObject → Prop}
    (all : ∀ entry ∈ db.objDb.entries, target entry.2 →
      ∃ key ∈ (query.rangeKeys db).elems, query.idOf key = entry.1) : Covered target query db :=
  fun id obj stored meant => all (id, obj) ((SortedMap.find_eq_some_iff _ _ _).mp stored) meant

instance decidableOfKind (id : MojString) (obj : MojObject) : Decidable (OfKind id obj) :=
  inferInstanceAs (Decidable (_ = _))

instance decidablePermissionOn (id : MojString) (obj : MojObject) : Decidable (PermissionOn id obj) :=
  inferInstanceAs (Decidable (_ ∧ _ = _ ∧ _ = _))

theorem marked_getKeys {id obj : MojObject} (marked : obj.get delKey = some (.bool true))
    (member : key ∈ (idIndexOf id).getKeys obj) :
    MojDbKey.assign id none ++ MojDbKey.assign (.bool true) none <+: key := by
  have path : split propComponentSeparator [] delKey = [delKey] := by decide
  have plain : delKey ≠ wildcardKey := by decide
  have alone : MojDbPropExtractor.elements (.bool true) = [.bool true] := rfl
  have front : delProp.vals (idIndexOf id).locale obj =
      SortedSet.empty.put (MojDbKey.assign (.bool true) none) := by
    simp only [delProp, MojDbExtractor.vals, MojDbPropExtractor.vals, MojDbPropExtractor.prop, path,
      MojDbPropExtractor.valsImpl, if_neg plain, marked, alone, List.foldl_cons, List.foldl_nil,
      MojDbPropExtractor.leafVals, MojDbLocale.collatorOf, if_true]
  have vals : (idIndexOf id).vals obj = [delProp.vals (idIndexOf id).locale obj,
      idProp.vals (idIndexOf id).locale obj] := rfl
  rcases ((idIndexOf id).mem_getKeys obj key).mp member with ⟨parts, members, whole⟩
  rw [vals, front] at members
  cases members with
  | cons first others =>
    have isTrue := (SortedSet.mem_put _ _ _).mp first
    simp only [SortedSet.not_mem_empty, or_false] at isTrue
    rw [whole, List.flatten_cons, isTrue, ← List.append_assoc]
    exact List.prefix_append _ _

theorem homeKinds_kinds : homeKinds.kinds =
    [⟨MojDbKindEngine.kindKindId, adminOwner, [], [], []⟩,
      ⟨noteKind, adminOwner, [], [], [noteIndex]⟩,
      ⟨permissionId, adminOwner, [], [], [permissionIndex]⟩] := rfl

theorem hides_home : Hides delHome.rest homeKinds delHome.permissions := by
  intro rev obj key keyed
  apply decide_eq_false
  intro live
  have apart : ∀ front : MojDbKey, front <+: key →
      front.length = (MojDbKey.assign (.int 8) none ++ MojDbKey.assign (.bool false) none).length →
        front = MojDbKey.assign (.int 8) none ++ MojDbKey.assign (.bool false) none :=
    fun front starts same => (List.prefix_of_prefix_length_le starts live same.le).eq_of_length same
  have marked : (markDeleted (delHome.rest.backup obj) rev obj).get delKey = some (.bool true) := by
    rw [← markDeleted_put, MojObject.get_put, if_pos rfl]
  rcases keyed_elems keyed with ⟨kind, registered, index, own, member⟩
  rw [homeKinds_kinds] at registered
  have which : index = noteIndex ∨ index = permissionIndex := by
    simp only [List.mem_cons, List.not_mem_nil, or_false] at registered
    rcases registered with same | same | same
    · rw [same] at own
      cases own
    · rw [same] at own
      exact Or.inl (List.mem_singleton.mp own)
    · rw [same] at own
      exact Or.inr (List.mem_singleton.mp own)
  rcases which with same | same
  · rw [same] at member
    exact absurd (apart _ (marked_getKeys marked member) (by decide)) (by decide)
  · rw [same] at member
    exact absurd (apart _ (marked_getKeys marked member) (by decide)) (by decide)

theorem ready_home : ReadyToBegin delHome homeSystem := by
  intro view begins
  have isView : view = homeView := by
    unfold homeView
    change delHome.delKindObject homeKinds homeDb = _ at begins
    rw [begins]
    rfl
  rw [isView]
  constructor
  · exact owned_of_entries (by decide +kernel)
  · exact covered_of_entries (by decide +kernel)
  · decide +kernel
  · constructor
    · exact owned_of_entries (by decide +kernel)
    · exact covered_of_entries (by decide +kernel)
    · decide +kernel
    · exact hides_home

def Phase.done : Phase → Bool
  | .returned (.ok true) _ => true
  | _ => false

theorem returned_of_done {phase : Phase} (done : phase.done = true) :
    ∃ left, phase = .returned (.ok true) left := by
  unfold Phase.done at done
  split at done
  · exact ⟨_, rfl⟩
  · cases done

/-- A kind with notes and a permission is deleted while another client waits. -/
theorem delKind_leaves_nothing_note : ∃ final left,
    delHome.run homeSystem homeEvents = some final ∧ final.phase = .returned (.ok true) left ∧
      Clean delHome.id final.indexes left ∧ final.admitted = [] := by
  have fresh : Fresh delHome homeSystem := ⟨rfl, rfl, rfl⟩
  have ready : BeginsReady delHome homeSystem homeEvents := beginsReady_first none _ ready_home
  have ends : (delHome.run homeSystem homeEvents).any (fun final => final.phase.done) = true := by
    decide +kernel
  cases ran : delHome.run homeSystem homeEvents with
  | none =>
    rw [ran] at ends
    cases ends
  | some final =>
    rw [ran, Option.any_some] at ends
    rcases returned_of_done ends with ⟨left, succeeded⟩
    exact ⟨final, left, rfl, succeeded, delKind_leaves_nothing fresh ready ran left succeeded⟩

end Instances

end Db8.Db.DelKind
