import Db8.Db.Held
import Db8.Db.PermissionEngine
import Db8.Db.Revisions

/-!
# Where access is checked

A read by id checks the kind of the object, a write the kinds of the object before and after, and a
query the kind it names, although the indexes of that kind lead to objects of every kind that
extends it, and of kinds that did so when the objects were written.
-/

set_option autoImplicit false

namespace Db8.Db.Access

open Db8.Bytes
open Db8.Core
open Db8.Graph
open Held
open MojDbKindEngine
open MojDbPermissionEngine

structure View where
  kinds : KindMap
  engine : MojDbPermissionEngine
  req : Requester

/-- `checkPermission` of a kind. The supers have no cycle, so that the walk ends. -/
def checkKind (view : View) (kind : MojDbKind) (op : MojDbOp) : Except MojErr Unit :=
  if hasOwnerPermission kind view.req then .ok ()
  else if op = .kindUpdate then view.engine.deny
  else if view.engine.objectPermission view.kinds view.req.domain (stringFromOperation op)
      (view.kinds.kinds.length + 1) kind.id = some .allow then .ok ()
  else view.engine.deny

/-- `checkPermission` of the kind engine. -/
def checkPermission (view : View) (id : MojString) (op : MojDbOp) : Except MojErr Unit := do
  let kind ← getKind view.kinds id
  checkKind view kind op

/-- `getKind` for an object; no kind has the text of another value for its name. -/
def getObjKind (view : View) (obj : MojObject) : Except MojErr MojDbKind :=
  match obj.get MojDb.kindKey with
  | none => .error .dbKindNotSpecified
  | some (.string id) => getKind view.kinds id
  | some _ => .error .dbKindNotRegistered

def getImpl (view : View) (store : Store) (op : MojDbOp) (id : MojString) :
    Except MojErr (List MojObject) :=
  match store.find id with
  | none => .ok []
  | some obj => do
    let kind ← getObjKind view obj
    checkKind view kind op
    .ok [obj]

def get (view : View) (store : Store) : List MojString → Except MojErr (List MojObject)
  | [] => .ok []
  | id :: rest => do
    let found ← getImpl view store .read id
    let others ← get view store rest
    .ok (found ++ others)

/-- `find` and `search`: the objects the keys of the kind lead to, as far as the query lets them
through; `excludeKinds` stays empty. -/
def find (view : View) (data : Data) (op : MojDbOp) (from_ : MojString)
    (passes : MojObject → Bool) : Except MojErr (List MojObject) := do
  checkPermission view from_ op
  .ok (((data.content from_).filterMap fun entry => data.objects.find entry.2).filter passes)

/-- The permission part of `update` of the kind engine. -/
def checkUpdate (view : View) (new old : Option MojObject) (op : MojDbOp) : Except MojErr Unit :=
  match old, new with
  | none, none => .ok ()
  | none, some new => do
    let newKind ← getObjKind view new
    checkKind view newKind op
  | some old, none => do
    let oldKind ← getObjKind view old
    checkKind view oldKind op
  | some old, some new => do
    let oldKind ← getObjKind view old
    let newKind ← getObjKind view new
    if oldKind.id ≠ newKind.id then do
      checkKind view oldKind .delete
      checkKind view newKind .create
    else checkKind view newKind op

structure Change where
  op : MojDbOp
  old : Option MojObject
  new : Option MojObject

/-- A write to one object, as `put`, `merge` and `del` lead to it. -/
inductive Write where
  | put (id : MojString) (obj : MojObject)
  | merge (id : MojString) (props : MojObject)
  | del (id : MojString) (purge : Bool)

/-- What kinds and storage do besides the checks: the update of each kind, and errors. -/
structure Rest where
  update : MojDbOp → MojDb.KindUpdate
  storage : Option MojErr

def refusesOf (view : View) (op : MojDbOp) (others : MojObject → Option MojObject → Option MojErr)
    (obj : MojObject) (prev : Option MojObject) : Option MojErr :=
  match checkUpdate view (some obj) prev op with
  | .error err => some err
  | .ok () => others obj prev

def kindUpdate (view : View) (rest : Rest) (op : MojDbOp) : MojDb.KindUpdate :=
  { rest.update op with refuses := refusesOf view op (rest.update op).refuses }

def changed (view : View) (op : MojDbOp) (old : Option MojObject) (put : MojDb.Put) :
    MojDb.Taking (Option Change) :=
  match put with
  | .stored new =>
    match getObjKind view new with
    | .error err => throw err
    | .ok _ => return some ⟨op, old, some new⟩
  | .ignored => return none
  | .unchanged => return none

def putOp (old : Option MojObject) : MojDbOp := if old.isSome then .update else .create

/-- One write, given the object that is stored under its id. -/
def writeImpl (view : View) (rest : Rest) (flags : MojDb.PutFlags) (old : Option MojObject) :
    Write → MojDb.Taking (Option Change)
  | .put id obj =>
    MojDb.putImpl flags (kindUpdate view rest (putOp old)) rest.storage (.string id) obj old >>=
      changed view (putOp old) old
  | .merge id props =>
    match old with
    | none => return none
    | some prev =>
      MojDb.putObj (kindUpdate view rest .update) rest.storage (.string id)
        (MojDb.mergeInto props prev) old >>= changed view .update old
  | .del id purge =>
    match old with
    | none => return none
    | some prev =>
      if purge then
        match checkUpdate view none old .delete with
        | .error err => throw err
        | .ok () => return some ⟨.delete, old, none⟩
      else
        MojDb.putObj (kindUpdate view rest .delete) rest.storage (.string id)
          (prev.put delKey (.bool true)) old >>= changed view .delete old

def Write.id : Write → MojString
  | .put id _ => id
  | .merge id _ => id
  | .del id _ => id

def applyChange (indexing : Indexing) (view : View) (data : Data) (id : MojString) :
    Option Change → Data
  | none => data
  | some change => update indexing view.kinds data id change.new

def writeAll (indexing : Indexing) (view : View) (rest : Rest) (flags : MojDb.PutFlags) :
    Data → List Write → MojDb.Taking (Data × List Change)
  | data, [] => return (data, [])
  | data, write :: later => do
    let change ← writeImpl view rest flags (data.objects.find write.id) write
    let done ← writeAll indexing view rest flags
      (applyChange indexing view data write.id change) later
    return (done.1, change.toList ++ done.2)

/-- A request that writes: the kind its query names, if it has one, and what it writes. -/
def request (indexing : Indexing) (view : View) (rest : Rest) (flags : MojDb.PutFlags)
    (query : Option (MojString × MojDbOp)) (data : Data) (writes : List Write) :
    MojDb.Taking (Data × List Change) :=
  match query with
  | none => writeAll indexing view rest flags data writes
  | some (from_, op) =>
    match checkPermission view from_ op with
    | .error err => throw err
    | .ok () => writeAll indexing view rest flags data writes

/-- The caller passes the check of an operation on the object's own kind. -/
def Passes (view : View) (obj : MojObject) (op : MojDbOp) : Prop :=
  ∃ id, kindName obj = some id ∧ checkPermission view id op = .ok ()

def Passed (view : View) (change : Change) : Prop :=
  match change.old, change.new with
  | none, none => True
  | none, some new => Passes view new change.op
  | some old, none => Passes view old change.op
  | some old, some new =>
    if kindName old = kindName new then Passes view new change.op
    else Passes view old .delete ∧ Passes view new .create

section Checks

variable {view : View}

theorem getObjKind_ok {obj : MojObject} {kind : MojDbKind}
    (got : getObjKind view obj = .ok kind) :
    kindName obj = some kind.id ∧ view.kinds.find kind.id = some kind := by
  unfold getObjKind at got
  unfold kindName
  split at got
  · cases got
  · rename_i id named
    have found := (getKind_ok_iff view.kinds id kind).mp got
    have same := KindMap.find_id found
    rw [named]
    exact ⟨congrArg some same.symm, same ▸ found⟩
  · cases got

theorem checkPermission_eq {id : MojString} {kind : MojDbKind}
    (found : view.kinds.find id = some kind) (op : MojDbOp) :
    checkPermission view id op = checkKind view kind op := by
  unfold checkPermission
  rw [(getKind_ok_iff view.kinds id kind).mpr found]
  rfl

theorem passes_of_check {obj : MojObject} {kind : MojDbKind} {op : MojDbOp}
    (got : getObjKind view obj = .ok kind) (checked : checkKind view kind op = .ok ()) :
    Passes view obj op := by
  rcases getObjKind_ok got with ⟨named, found⟩
  refine ⟨kind.id, named, ?_⟩
  rw [checkPermission_eq found]
  exact checked

theorem getImpl_passes {store : Store} {id : MojString} {found : List MojObject} {op : MojDbOp}
    (got : getImpl view store op id = .ok found) : ∀ obj ∈ found, Passes view obj op := by
  unfold getImpl at got
  cases stored : store.find id with
  | none =>
    rw [stored] at got
    cases got
    intro obj impossible
    cases impossible
  | some item =>
    rw [stored] at got
    rcases except_bind_ok got with ⟨kind, hasKind, got⟩
    rcases except_bind_ok got with ⟨done, checked, got⟩
    cases got
    intro obj member
    rw [List.mem_singleton.mp member]
    exact passes_of_check hasKind checked

theorem get_passes {store : Store} {ids : List MojString} {found : List MojObject}
    (got : get view store ids = .ok found) : ∀ obj ∈ found, Passes view obj .read := by
  induction ids generalizing found with
  | nil =>
    cases got
    intro obj impossible
    cases impossible
  | cons id rest ih =>
    rw [get] at got
    rcases except_bind_ok got with ⟨head, first, got⟩
    rcases except_bind_ok got with ⟨others, later, got⟩
    cases got
    intro obj member
    rcases List.mem_append.mp member with own | other
    · exact getImpl_passes first obj own
    · exact ih later obj other

theorem passes_checkUpdate {old : Option MojObject} {new : MojObject} {op : MojDbOp}
    (checked : checkUpdate view (some new) old op = .ok ()) :
    Passed view ⟨op, old, some new⟩ := by
  cases old with
  | none =>
    simp only [checkUpdate] at checked
    rcases except_bind_ok checked with ⟨newKind, after, checked⟩
    exact passes_of_check after checked
  | some old =>
    simp only [checkUpdate] at checked
    rcases except_bind_ok checked with ⟨oldKind, before, checked⟩
    rcases except_bind_ok checked with ⟨newKind, after, checked⟩
    have oldName := (getObjKind_ok before).1
    have newName := (getObjKind_ok after).1
    unfold Passed
    simp only [oldName, newName, Option.some.injEq]
    by_cases same : oldKind.id = newKind.id
    · rw [if_pos same]
      rw [if_neg (not_not.mpr same)] at checked
      exact passes_of_check after checked
    · rw [if_neg same]
      rw [if_pos same] at checked
      rcases except_bind_ok checked with ⟨done, removed, created⟩
      exact ⟨passes_of_check before removed, passes_of_check after created⟩

theorem passes_purge {old : MojObject} {op : MojDbOp}
    (checked : checkUpdate view none (some old) op = .ok ()) :
    Passed view ⟨op, some old, none⟩ := by
  simp only [checkUpdate] at checked
  rcases except_bind_ok checked with ⟨oldKind, before, checked⟩
  exact passes_of_check before checked

end Checks

section Kinds

theorem get_kind_withHeader (id obj : MojObject) :
    (MojDb.withHeader id obj).get MojDb.kindKey = obj.get MojDb.kindKey := by
  unfold MojDb.withHeader
  simp only
  split_ifs
  · rw [MojObject.get_put, if_neg (by decide), MojObject.get_put, if_neg (by decide),
      MojObject.get_put, if_neg (by decide)]
  · rw [MojObject.get_put, if_neg (by decide), MojObject.get_put, if_neg (by decide)]

/-- A revision set leaves the kind alone, or puts the revision in its place. -/
theorem get_kind_update (revSet : MojDb.MojDbRevisionSet) (prev : Option MojObject)
    {obj rev : MojObject} (has : obj.get revKey = some rev) :
    (revSet.update prev obj).get MojDb.kindKey = obj.get MojDb.kindKey ∨
      (revSet.update prev obj).get MojDb.kindKey = some rev := by
  have put : (obj.put revSet.name rev).get MojDb.kindKey = obj.get MojDb.kindKey ∨
      (obj.put revSet.name rev).get MojDb.kindKey = some rev := by
    rw [MojObject.get_put]
    split_ifs
    · exact Or.inr rfl
    · exact Or.inl rfl
  unfold MojDb.MojDbRevisionSet.update
  simp only [has]
  cases prev with
  | none => exact put
  | some prev =>
    simp only
    split_ifs
    · exact put
    · exact Or.inl rfl

/-- An object that ends with a kind name had that name when its kind was updated. -/
theorem kindName_apply {kind : MojDb.KindUpdate} {prev : Option MojObject} {obj new : MojObject}
    {rev : MojInt64} (applied : kind.apply prev obj = .ok new)
    (has : obj.get revKey = some (.int rev)) {id : MojString} (named : kindName new = some id) :
    kindName obj = some id := by
  unfold MojDb.KindUpdate.apply at applied
  cases refused : kind.refuses obj prev with
  | some err =>
    rw [refused] at applied
    cases applied
  | none =>
    rw [refused] at applied
    have folded : ∀ (revSets : List MojDb.MojDbRevisionSet) (start : MojObject),
        start.get revKey = some (.int rev) →
          kindName (revSets.foldl (fun obj revSet => revSet.update prev obj) start) = some id →
            kindName start = some id := by
      intro revSets
      induction revSets with
      | nil => exact fun _ _ named => named
      | cons revSet rest ih =>
        intro start has named
        have next := ih _ (MojDb.get_revSet_update revSet prev has) named
        unfold kindName at next ⊢
        rcases get_kind_update revSet prev has with same | isRev
        · rw [same] at next
          exact next
        · rw [isRev] at next
          cases next
    cases applied
    by_cases backs : kind.backup ∧ obj.get syncKey = none
    · rw [if_pos backs] at named
      have synced : (obj.put syncKey (.bool true)).get revKey = some (.int rev) := by
        rw [MojObject.get_put, if_neg (by decide)]
        exact has
      have before := folded kind.revSets _ synced named
      unfold kindName at before ⊢
      rw [MojObject.get_put, if_neg (by decide)] at before
      exact before
    · rw [if_neg backs] at named
      exact folded kind.revSets obj has named

end Kinds

section Writes

variable {view : View} {rest : Rest}

variable {op : MojDbOp}

theorem passed_of_name {old : Option MojObject} {obj new : MojObject}
    (passed : Passed view ⟨op, old, some obj⟩) (same : kindName obj = kindName new) :
    Passed view ⟨op, old, some new⟩ := by
  unfold Passed Passes at passed ⊢
  cases old with
  | none =>
    simp only [same] at passed
    exact passed
  | some old =>
    simp only [same] at passed
    exact passed

variable {ids after : MojDb.Ids} {storage : Option MojErr} {prev : Option MojObject}

theorem passed_storeObj {id : MojObject} {obj new : MojObject} {rev : MojInt64}
    (ran : MojDb.storeObj (kindUpdate view rest op) storage id prev obj ids =
      .ok (.stored new) after) (has : obj.get revKey = some (.int rev)) {name : MojString}
    (named : kindName new = some name) : Passed view ⟨op, prev, some new⟩ := by
  unfold MojDb.storeObj at ran
  cases applied : (kindUpdate view rest op).apply prev obj with
  | error err =>
    rw [applied] at ran
    cases ran
  | ok kept =>
    rw [applied] at ran
    cases storage with
    | some err => cases ran
    | none =>
      cases ran
      have keptName : kindName kept = some name := by
        unfold kindName at named ⊢
        rw [get_kind_withHeader] at named
        exact named
      have objName := kindName_apply applied has keptName
      apply passed_of_name _ (objName.trans named.symm)
      apply passes_checkUpdate
      unfold MojDb.KindUpdate.apply at applied
      cases checked : checkUpdate view (some obj) prev op with
      | ok done => rfl
      | error err => simp [kindUpdate, refusesOf, checked] at applied

theorem passed_putObj {id obj new : MojObject}
    (ran : MojDb.putObj (kindUpdate view rest op) storage id obj prev ids = .ok (.stored new) after)
    {name : MojString} (named : kindName new = some name) : Passed view ⟨op, prev, some new⟩ := by
  unfold MojDb.putObj at ran
  split_ifs at ran
  · cases ran
  · rcases MojDb.taking_bind_ok ran with ⟨rev, middle, -, ran⟩
    unfold MojDb.putRev at ran
    cases hasKind : (obj.put revKey (.int (BitVec.ofNat 64 rev))).get MojDb.kindKey with
    | none =>
      rw [hasKind] at ran
      cases ran
    | some kind =>
      rw [hasKind] at ran
      rcases MojDb.taking_bind_ok ran with ⟨assigned, last, took, ran⟩
      have has : (obj.put revKey (.int (BitVec.ofNat 64 rev))).get revKey =
          some (.int (BitVec.ofNat 64 rev)) := by
        rw [MojObject.get_put, if_pos rfl]
      apply passed_storeObj ran _ named
      · exact BitVec.ofNat 64 rev
      · split_ifs at took
        · cases took
          exact has
        · exact MojDb.get_assignIds took has

theorem changed_ok {old : Option MojObject} {put : MojDb.Put} {change : Change}
    (ran : changed view op old put ids = .ok (some change) after) :
    ∃ new kind, put = .stored new ∧ change = ⟨op, old, some new⟩ ∧
      getObjKind view new = .ok kind := by
  cases put with
  | ignored => cases ran
  | unchanged => cases ran
  | stored new =>
    simp only [changed] at ran
    cases got : getObjKind view new with
    | error err =>
      rw [got] at ran
      cases ran
    | ok kind =>
      rw [got] at ran
      cases ran
      exact ⟨new, kind, rfl, rfl, got⟩

/-- A change has passed its checks, and the kind of a new object is registered. -/
structure Sound (view : View) (change : Change) : Prop where
  passed : Passed view change
  known : ∀ new, change.new = some new → ∃ kind, getObjKind view new = .ok kind

theorem sound_changed {id obj : MojObject} {put : MojDb.Put} {change : Change}
    {ids middle after : MojDb.Ids}
    (stores : MojDb.putObj (kindUpdate view rest op) storage id obj prev ids = .ok put middle)
    (done : changed view op prev put middle = .ok (some change) after) : Sound view change := by
  rcases changed_ok done with ⟨new, kind, rfl, rfl, got⟩
  apply Sound.mk (passed_putObj stores (getObjKind_ok got).1)
  intro other same
  exact ⟨kind, Option.some.inj same ▸ got⟩

theorem sound_writeImpl {flags : MojDb.PutFlags} {old : Option MojObject} {write : Write}
    {change : Change} (ran : writeImpl view rest flags old write ids = .ok (some change) after) :
    Sound view change := by
  cases write with
  | put id obj =>
    rcases MojDb.taking_bind_ok ran with ⟨put, middle, stores, done⟩
    unfold MojDb.putImpl at stores
    cases old with
    | none =>
      simp only at stores
      split_ifs at stores
      · cases stores
        cases done
      · exact sound_changed stores done
    | some prev =>
      simp only at stores
      cases checked : MojDb.checkRev flags
          (if flags.merge then MojDb.mergeInto obj prev else obj) prev with
      | error err =>
        rw [checked] at stores
        cases stores
      | ok passed =>
        rw [checked] at stores
        exact sound_changed stores done
  | merge id props =>
    cases old with
    | none => cases ran
    | some prev =>
      rcases MojDb.taking_bind_ok ran with ⟨put, middle, stores, done⟩
      exact sound_changed stores done
  | del id purge =>
    cases old with
    | none => cases ran
    | some prev =>
      cases purge with
      | true =>
        simp only [writeImpl, if_true] at ran
        cases checked : checkUpdate view none (some prev) .delete with
        | error err =>
          rw [checked] at ran
          cases ran
        | ok done =>
          rw [checked] at ran
          cases ran
          apply Sound.mk (passes_purge checked)
          intro new impossible
          cases impossible
      | false =>
        rcases MojDb.taking_bind_ok ran with ⟨put, middle, stores, done⟩
        exact sound_changed stores done

theorem passed_writeAll {indexing : Indexing} {flags : MojDb.PutFlags} {writes : List Write}
    {data : Data} {done : Data × List Change}
    (ran : writeAll indexing view rest flags data writes ids = .ok done after) :
    ∀ change ∈ done.2, Passed view change := by
  induction writes generalizing data done ids with
  | nil =>
    cases ran
    intro change impossible
    cases impossible
  | cons write later ih =>
    rw [writeAll] at ran
    rcases MojDb.taking_bind_ok ran with ⟨change, middle, first, ran⟩
    rcases MojDb.taking_bind_ok ran with ⟨others, last, rest, ran⟩
    cases ran
    intro other member
    rcases List.mem_append.mp member with own | more
    · rw [Option.mem_toList] at own
      rw [Option.mem_def.mp own] at first
      exact (sound_writeImpl first).passed
    · exact ih rest other more

theorem writeAll_of_request {indexing : Indexing} {flags : MojDb.PutFlags}
    {query : Option (MojString × MojDbOp)} {writes : List Write} {data : Data}
    {done : Data × List Change}
    (ran : request indexing view rest flags query data writes ids = .ok done after) :
    writeAll indexing view rest flags data writes ids = .ok done after := by
  unfold request at ran
  rcases query with - | ⟨from_, op⟩
  · exact ran
  · simp only at ran
    cases checked : checkPermission view from_ op with
    | error err =>
      rw [checked] at ran
      cases ran
    | ok passed =>
      rw [checked] at ran
      exact ran

end Writes

section Runs

variable {indexing : Indexing}

/-- The states of a database that begins without objects. Requests are any caller's. A change of
kinds is allowed for if no key is left, or put, that leads to an object of a kind that does not
extend the one whose index has the key; its request may be given up after the kinds have
changed. -/
inductive Reached (indexing : Indexing) : Links → Data → Prop where
  | start (links : Links) : Reached indexing links ⟨SortedMap.empty, fun _ => []⟩
  | request {links : Links} {data : Data} {view : View} {rest : Rest} {flags : MojDb.PutFlags}
      {query : Option (MojString × MojDbOp)} {writes : List Write} {ids after : MojDb.Ids}
      {done : Data × List Change} (before : Reached indexing links data)
      (same : view.kinds = links.kinds)
      (ran : request indexing view rest flags query data writes ids = .ok done after) :
      Reached indexing links done.1
  | kinds {links : Links} {data : Data} (event : Links.KindEvent)
      (before : Reached indexing links data)
      (clean : Below (links.step event).kinds
        ⟨data.objects, contentAfter indexing links data event⟩) :
      Reached indexing (links.step event) ⟨data.objects, contentAfter indexing links data event⟩
  | givenUp {links : Links} {data : Data} (event : Links.KindEvent)
      (before : Reached indexing links data) (clean : Below (links.step event).kinds data) :
      Reached indexing (links.step event) data

theorem writeAll_keeps {view : View} {rest : Rest} {flags : MojDb.PutFlags} {writes : List Write}
    {data : Data} {done : Data × List Change} {ids after : MojDb.Ids}
    (ran : writeAll indexing view rest flags data writes ids = .ok done after)
    (leads : Leads indexing data.objects data.content) (below : Below view.kinds data) :
    Leads indexing done.1.objects done.1.content ∧ Below view.kinds done.1 := by
  induction writes generalizing data done ids with
  | nil =>
    cases ran
    exact ⟨leads, below⟩
  | cons write later ih =>
    rw [writeAll] at ran
    rcases MojDb.taking_bind_ok ran with ⟨change, middle, first, ran⟩
    rcases MojDb.taking_bind_ok ran with ⟨others, last, rest, ran⟩
    cases ran
    cases change with
    | none => exact ih rest leads below
    | some change =>
      apply ih rest (leads_update leads below change.new)
      apply below_update leads below
      intro new name isNew named
      rcases (sound_writeImpl first).known new isNew with ⟨kind, got⟩
      rcases getObjKind_ok got with ⟨itsName, found⟩
      rw [named] at itsName
      rw [Option.some.inj itsName, found]
      rfl

theorem leads_contentAfter {links : Links} {data : Data}
    (leads : Leads indexing data.objects data.content) (event : Links.KindEvent) :
    Leads indexing data.objects (contentAfter indexing links data event) := by
  cases event with
  | configure id obj builtin => exact leads_moveObjects leads obj.superIds
  | delKind id =>
    intro kind entry member
    by_cases same : kind = id
    · rw [contentAfter, same, Function.update_self] at member
      cases member
    · rw [contentAfter, Function.update_of_ne same] at member
      exact leads kind entry member
  | reloadKind id stored => exact leads

/-- In all these states the keys of a kind lead to objects whose kinds extend it. -/
theorem Reached.sound {links : Links} {data : Data} (reached : Reached indexing links data) :
    Leads indexing data.objects data.content ∧ Below links.kinds data := by
  induction reached with
  | start links =>
    constructor
    · intro kind entry impossible
      cases impossible
    · intro kind entry impossible
      cases impossible
  | request before same ran ih =>
    have kept := writeAll_keeps (writeAll_of_request ran) ih.1 (same.symm ▸ ih.2)
    exact ⟨kept.1, same ▸ kept.2⟩
  | kinds event before clean ih => exact ⟨leads_contentAfter ih.1 event, clean⟩
  | givenUp event before clean ih => exact ⟨ih.1, clean⟩

end Runs

section Queries

/-- Who may read the kind a query names may read each object the indexes of the kind lead to. -/
def ReadsLed (view : View) (data : Data) (from_ : MojString) : Prop :=
  checkPermission view from_ .read = .ok () →
    ∀ entry ∈ data.content from_, ∀ obj, data.objects.find entry.2 = some obj →
      Passes view obj .read

/-- Who may read the kind a query names may read every kind that extends it. -/
def ReadsBelow (view : View) (from_ : MojString) : Prop :=
  checkPermission view from_ .read = .ok () →
    ∀ id, (view.kinds.find id).isSome → Reaches (supersOf view.kinds) id from_ →
      checkPermission view id .read = .ok ()

theorem find_passes_iff (view : View) (data : Data) (from_ : MojString) :
    (∀ (passes : MojObject → Bool) (found : List MojObject),
        find view data .read from_ passes = .ok found → ∀ obj ∈ found, Passes view obj .read) ↔
      ReadsLed view data from_ := by
  constructor
  · intro delivers allowed entry member obj stored
    have ran : find view data .read from_ (fun _ => true) =
        .ok (((data.content from_).filterMap fun entry => data.objects.find entry.2).filter
          fun _ => true) := by
      unfold find
      rw [allowed]
      rfl
    apply delivers _ _ ran
    rw [List.mem_filter, List.mem_filterMap]
    exact ⟨⟨entry, member, stored⟩, rfl⟩
  · intro reads passes found ran obj member
    rcases except_bind_ok ran with ⟨done, allowed, rest⟩
    cases rest
    rcases List.mem_filterMap.mp (List.mem_of_mem_filter member) with ⟨entry, inside, stored⟩
    exact reads allowed entry inside obj stored

def firstIds : MojDb.Ids := ⟨(DbEngine.MojDbStorageSeq.run ⟨none, none⟩ [.reopen]).1, [], []⟩

def plainRest : Rest := ⟨fun _ => ⟨false, [], fun _ _ => none⟩, none⟩

def bare (kind : MojString) : MojObject := .object [(MojDb.kindKey, .string kind)]

def stamped (kind : MojString) (rev : MojInt64) : MojObject :=
  .object [(MojDb.kindKey, .string kind), (revKey, .int rev)]

theorem storeObj_stamped {view : View} {kind : MojDbKind}
    (found : view.kinds.find kind.id = some kind) (admin : view.req.admin = true)
    (rev : MojInt64) (id : MojString) :
    MojDb.storeObj (kindUpdate view plainRest .create) none (.string id) none
        (stamped kind.id rev) =
      pure (.stored (MojDb.withHeader (.string id) (stamped kind.id rev))) := by
  have got : getObjKind view (stamped kind.id rev) = .ok kind :=
    (getKind_ok_iff view.kinds kind.id kind).mpr found
  have allowed : checkKind view kind .create = .ok () := by
    unfold checkKind hasOwnerPermission
    rw [admin]
    rfl
  have checked : checkUpdate view (some (stamped kind.id rev)) none .create = .ok () := by
    simp only [checkUpdate, got]
    exact allowed
  have applied : (kindUpdate view plainRest .create).apply none (stamped kind.id rev) =
      .ok (stamped kind.id rev) := by
    unfold MojDb.KindUpdate.apply kindUpdate refusesOf
    simp only [checked]
    rfl
  unfold MojDb.storeObj
  rw [applied]

theorem writeImpl_bare {view : View} {kind : MojDbKind}
    (found : view.kinds.find kind.id = some kind) (admin : view.req.admin = true)
    (id : MojString) :
    ∃ rev after, writeImpl view plainRest ⟨false, false, false⟩ none (.put id (bare kind.id))
        firstIds =
      .ok (some ⟨.create, none, some (MojDb.withHeader (.string id) (stamped kind.id rev))⟩)
        after := by
  have first : ∃ val after, MojDb.nextId firstIds = .ok val after := ⟨_, _, rfl⟩
  rcases first with ⟨val, after, first⟩
  apply Exists.intro (BitVec.ofNat 64 val)
  apply Exists.intro after
  generalize isRev : BitVec.ofNat 64 val = rev
  have assigned : (if MojDb.isKindObject (.string kind.id) then pure (stamped kind.id rev)
      else MojDb.assignIds (stamped kind.id rev)) =
        (pure (stamped kind.id rev) : MojDb.Taking MojObject) := by
    split_ifs <;> rfl
  have put : MojDb.putRev (kindUpdate view plainRest .create) none (.string id) none
      (stamped kind.id rev) after =
        .ok (.stored (MojDb.withHeader (.string id) (stamped kind.id rev))) after := by
    change ((if MojDb.isKindObject (.string kind.id) then pure (stamped kind.id rev)
      else MojDb.assignIds (stamped kind.id rev)) >>= _) after = _
    rw [assigned, pure_bind, storeObj_stamped found admin]
    rfl
  have stored : MojDb.putImpl ⟨false, false, false⟩ (kindUpdate view plainRest .create) none
      (.string id) (bare kind.id) none firstIds =
        .ok (.stored (MojDb.withHeader (.string id) (stamped kind.id rev))) after := by
    change (MojDb.nextId >>= _) firstIds = _
    rw [MojDb.taking_bind, first, ← put, ← isRev]
    rfl
  have got : getObjKind view (MojDb.withHeader (.string id) (stamped kind.id rev)) = .ok kind :=
    (getKind_ok_iff view.kinds kind.id kind).mpr found
  change (MojDb.putImpl _ (kindUpdate view plainRest .create) none (.string id) (bare kind.id)
    none >>= changed view .create none) firstIds = _
  rw [MojDb.taking_bind, stored]
  simp only [changed, got]
  rfl

def asAdmin (view : View) : View := ⟨view.kinds, view.engine, view.req.domain, true⟩

theorem reached_one (indexing : Indexing) (view : View) {id : MojString}
    (known : (view.kinds.find id).isSome) :
    ∃ data obj, Reached indexing ⟨view.kinds, fun _ => [], fun _ => false⟩ data ∧
      kindName obj = some id ∧
        ∀ kind, Reaches (supersOf view.kinds) id kind →
          ∃ entry ∈ data.content kind, data.objects.find entry.2 = some obj := by
  rcases Option.isSome_iff_exists.mp known with ⟨kind, found⟩
  have same := KindMap.find_id found
  have there : (asAdmin view).kinds.find kind.id = some kind := same ▸ found
  rcases writeImpl_bare there rfl id with ⟨rev, after, wrote⟩
  have named : kindName (MojDb.withHeader (.string id) (stamped kind.id rev)) = some id :=
    congrArg some same
  have ran : request indexing (asAdmin view) plainRest ⟨false, false, false⟩ none
      ⟨SortedMap.empty, fun _ => []⟩ [.put id (bare kind.id)] firstIds =
      .ok (update indexing view.kinds ⟨SortedMap.empty, fun _ => []⟩ id
          (some (MojDb.withHeader (.string id) (stamped kind.id rev))),
        [⟨.create, none, some (MojDb.withHeader (.string id) (stamped kind.id rev))⟩])
          after := by
    change (writeImpl _ plainRest _ none _ >>= _) firstIds = _
    rw [MojDb.taking_bind, wrote]
    rfl
  have unchanged : (asAdmin view).kinds =
      (⟨view.kinds, fun _ => [], fun _ => false⟩ : Links).kinds := rfl
  refine ⟨_, _, Reached.request (Reached.start _) unchanged ran, named, ?_⟩
  intro super reaches
  rcases List.exists_mem_of_ne_nil _ (indexing.live super
    (MojDb.withHeader (.string id) (stamped kind.id rev)) rfl) with ⟨key, keyed⟩
  refine ⟨(key, id), mem_update_new rfl named reaches keyed, ?_⟩
  rw [find_update, if_pos rfl]

theorem reads_reached_iff (indexing : Indexing) (view : View) (from_ : MojString) :
    (∀ links data, links.kinds = view.kinds → Reached indexing links data →
        ReadsLed view data from_) ↔ ReadsBelow view from_ := by
  constructor
  · intro reads allowed id known reaches
    rcases reached_one indexing view known with ⟨data, obj, reached, named, led⟩
    rcases led from_ reaches with ⟨entry, member, stored⟩
    rcases reads _ data rfl reached allowed entry member obj stored with ⟨name, same, passed⟩
    rw [named] at same
    rwa [Option.some.inj same]
  · intro reads links data same reached allowed entry member obj stored
    rcases reached.sound.2 from_ entry member obj stored with ⟨name, named, known, reaches⟩
    rw [same] at known reaches
    exact ⟨name, named, reads allowed name known reaches⟩

end Queries

/-- Reads by id and writes are checked on the kind of the object. Queries are so just if the caller
may read all that the indexes of the kind lead to, or may not read that kind; in the states that
are reached these are objects of all kinds that extend it. -/
theorem access_by_kind (indexing : Indexing) (view : View) :
    (∀ (store : Store) (ids : List MojString) (found : List MojObject),
        get view store ids = .ok found → ∀ obj ∈ found, Passes view obj .read) ∧
      (∀ (rest : Rest) (flags : MojDb.PutFlags) (query : Option (MojString × MojDbOp))
          (data : Data) (writes : List Write) (ids after : MojDb.Ids)
          (done : Data × List Change),
        request indexing view rest flags query data writes ids = .ok done after →
          ∀ change ∈ done.2, Passed view change) ∧
      (∀ (data : Data) (from_ : MojString),
        (∀ (passes : MojObject → Bool) (found : List MojObject),
            find view data .read from_ passes = .ok found →
              ∀ obj ∈ found, Passes view obj .read) ↔
          ReadsLed view data from_) ∧
      ∀ from_ : MojString,
        (∀ (links : Links) (data : Data), links.kinds = view.kinds → Reached indexing links data →
            ∀ (passes : MojObject → Bool) (found : List MojObject),
              find view data .read from_ passes = .ok found →
                ∀ obj ∈ found, Passes view obj .read) ↔
          ReadsBelow view from_ := by
  refine ⟨?_, ?_, find_passes_iff view, ?_⟩
  · intro store ids found got
    exact get_passes got
  · intro rest flags query data writes ids after done ran
    exact passed_writeAll (writeAll_of_request ran)
  · intro from_
    rw [← reads_reached_iff indexing view from_]
    constructor
    · intro delivers links data same reached
      exact (find_passes_iff view data from_).mp (delivers links data same reached)
    · intro reads links data same reached
      exact (find_passes_iff view data from_).mpr (reads links data same reached)

section Example

def reader : MojString := chars "reader".toList

def baseKind : MojString := chars "Base:1".toList

def secretKind : MojString := chars "Secret:1".toList

def vendor : MojString := chars "vendor".toList

def readRight (kind value : MojString) : Permission :=
  ⟨permissionType, kind, reader, [(stringFromOperation .read, value)]⟩

def readMap (val : PermissionValue) : OperationMap :=
  SortedMap.empty.put (stringFromOperation .read) val

/-- The reader may read the first kind and not the second. -/
def readsFirst (first second : MojString) : MojDbPermissionEngine :=
  (record ⟨SortedMap.empty, true⟩ (readRight first allowKey) (readMap .allow)).record
    (readRight second denyKey) (readMap .deny)

/-- A kind the reader may read, and one that extends it and is closed to the reader. -/
def layered : View where
  kinds := (KindMap.empty.put ⟨baseKind, vendor, [], [], []⟩).put
    ⟨secretKind, vendor, [baseKind], [baseKind], []⟩
  engine := readsFirst baseKind secretKind
  req := ⟨reader, false⟩

def idsOnly : Indexing := ⟨fun _ _ => [[]], fun _ _ _ => List.cons_ne_nil _ _⟩

def oneOf (kinds : KindMap) (kind : MojString) : Data :=
  update idsOnly kinds ⟨SortedMap.empty, fun _ => []⟩ kind (some (bare kind))

/-- `Low:1` extends `Side:1`. -/
def linked : Links :=
  (Links.rooted []).run [Links.putKindEvent Links.sideKind [],
    Links.putKindEvent Links.lowKind [Links.sideKind]]

/-- `Side:1` is put again and extends `Low:1`, which loses its super by that. -/
def turned : Links.KindEvent := Links.putKindEvent Links.sideKind [Links.lowKind]

def afterTurn : Data :=
  ⟨(oneOf linked.kinds Links.lowKind).objects,
    contentAfter idsOnly linked (oneOf linked.kinds Links.lowKind) turned⟩

def turnedView : View where
  kinds := (linked.step turned).kinds
  engine := readsFirst Links.sideKind Links.lowKind
  req := ⟨reader, false⟩

theorem readsBelow_turnedView : ReadsBelow turnedView Links.sideKind := by
  intro allowed id known reaches
  rcases Relation.ReflTransGen.cases_tail reaches with same | ⟨last, -, edge⟩
  · rw [← same]
    exact allowed
  · have nowhere : ∀ last ∈ turnedView.kinds.ids, Links.sideKind ∉ supersOf turnedView.kinds last := by
      decide +kernel
    exact absurd edge (nowhere last (registered_of_supersOf (List.ne_nil_of_mem edge)))

/-- The reader gets an object from the query on the base kind that it may not read, and that the
read by its id refuses. After a kind has lost its super the query on that super does so, although
no kind that extends it is closed. -/
theorem query_reads_sub_kind :
    layered.engine.enabled = true ∧ layered.req.admin = false ∧
      find layered (oneOf layered.kinds secretKind) .read baseKind (fun _ => true) =
        .ok [bare secretKind] ∧
      get layered (oneOf layered.kinds secretKind).objects [secretKind] =
        .error .dbPermissionDenied ∧
      ReadsBelow turnedView Links.sideKind ∧
      find turnedView afterTurn .read Links.sideKind (fun _ => true) =
        .ok [bare Links.lowKind] ∧
      get turnedView afterTurn.objects [Links.lowKind] = .error .dbPermissionDenied := by
  apply And.intro rfl
  apply And.intro rfl
  apply And.intro (by decide +kernel)
  apply And.intro (by decide +kernel)
  apply And.intro readsBelow_turnedView
  apply And.intro (by decide +kernel)
  decide +kernel

end Example

end Db8.Db.Access
