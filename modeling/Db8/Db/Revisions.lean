import Db8.Db.PutObj

/-!
# No update is lost

Puts on one object, with other users of the sequence and with crashes and reopens of it in between.
A put carries the revision of the version it replaces, and gives the new one a revision the sequence
has not handed out before.
-/

set_option autoImplicit false

namespace Db8.Db.MojDb

open Db8.Bytes
open Db8.Core
open Db8.DbEngine
open Db8.DbEngine.MojDbStorageSeq

def Fresh (ids : Ids) : Prop := ∃ top, Ahead top ids.world ∧ ∀ val ∈ ids.handed, val < top

def idsOf {α : Type} : EStateM.Result MojErr Ids α → Ids
  | .ok _ ids => ids
  | .error _ ids => ids

def Takes {α : Type} (prog : Taking α) : Prop :=
  ∀ ids, Fresh ids → Fresh (idsOf (prog ids)) ∧ ids.handed <+: (idsOf (prog ids)).handed

section Rules

variable {α β : Type}

theorem taking_bind (first : Taking α) (next : α → Taking β) (ids : Ids) :
    (first >>= next) ids = match first ids with
      | .ok result after => next result after
      | .error err after => .error err after := by
  change EStateM.bind first next ids = _
  unfold EStateM.bind
  cases first ids <;> rfl

theorem taking_bind_ok {first : Taking α} {next : α → Taking β} {ids after : Ids} {out : β}
    (ran : (first >>= next) ids = .ok out after) :
    ∃ result middle, first ids = .ok result middle ∧ next result middle = .ok out after := by
  rw [taking_bind] at ran
  cases began : first ids with
  | error err middle =>
    rw [began] at ran
    cases ran
  | ok result middle =>
    rw [began] at ran
    exact ⟨result, middle, rfl, ran⟩

theorem takes_pure (result : α) : Takes (pure result : Taking α) :=
  fun _ fresh => ⟨fresh, List.prefix_refl _⟩

theorem takes_throw (err : MojErr) : Takes (throw err : Taking α) :=
  fun _ fresh => ⟨fresh, List.prefix_refl _⟩

theorem Takes.bind {first : Taking α} {next : α → Taking β} (takes : Takes first)
    (onward : ∀ result, Takes (next result)) : Takes (first >>= next) := by
  intro ids fresh
  have middle := takes ids fresh
  rw [taking_bind]
  cases ran : first ids with
  | error err after =>
    rw [ran] at middle
    exact middle
  | ok result after =>
    rw [ran] at middle
    have last := onward result after middle.1
    exact ⟨last.1, middle.2.trans last.2⟩

end Rules

variable {ids after : Ids}

theorem nextId_ok {val : Nat} (fresh : Fresh ids) (taken : nextId ids = .ok val after) :
    (∀ earlier ∈ ids.handed, earlier < val) ∧ val ∈ after.handed ∧ Fresh after ∧
      ids.handed <+: after.handed := by
  rcases fresh with ⟨top, ahead, below⟩
  rcases ids with ⟨⟨memory, stored⟩, failures, handed⟩
  cases memory with
  | none => cases taken
  | some seq =>
    rcases get_spec ahead (failures.head?.getD none) with ⟨other, got, above, next⟩ | ⟨err, -, got, -⟩
    · simp only [nextId, got] at taken
      cases taken
      apply And.intro (fun earlier member => lt_of_lt_of_le (below earlier member) above)
      apply And.intro (List.mem_append_right handed List.mem_cons_self)
      apply And.intro _ (List.prefix_append handed [val])
      refine ⟨val + 1, next, ?_⟩
      intro earlier member
      rcases List.mem_append.mp member with old | new
      · exact Nat.lt_succ_of_lt (lt_of_lt_of_le (below earlier old) above)
      · rw [List.mem_singleton.mp new]
        exact Nat.lt_succ_self val
    · simp only [nextId, got] at taken
      cases taken

theorem takes_nextId : Takes nextId := by
  intro ids fresh
  cases taken : nextId ids with
  | ok val after => exact (nextId_ok fresh taken).2.2
  | error err after =>
    rcases fresh with ⟨top, ahead, below⟩
    rcases ids with ⟨⟨memory, stored⟩, failures, handed⟩
    cases memory with
    | none =>
      cases taken
      exact ⟨⟨top, ahead, below⟩, List.prefix_refl _⟩
    | some seq =>
      rcases get_spec ahead (failures.head?.getD none) with ⟨val, got, -, -⟩ | ⟨other, -, got, next⟩
      · simp only [nextId, got] at taken
        cases taken
      · simp only [nextId, got] at taken
        cases taken
        exact ⟨⟨top, next, below⟩, List.prefix_refl _⟩

mutual

theorem takes_assignVal (val : MojObject) : Takes (assignVal val) := by
  cases val with
  | array vals =>
    rw [assignVal]
    exact (takes_assignVals vals).bind fun _ => takes_pure _
  | object props =>
    rw [assignVal]
    exact (takes_assignProps props).bind fun _ => takes_pure _
  | null =>
    rw [assignVal]
    exact takes_pure _
  | string val =>
    rw [assignVal]
    exact takes_pure _
  | bool val =>
    rw [assignVal]
    exact takes_pure _
  | decimal rep =>
    rw [assignVal]
    exact takes_pure _
  | int val =>
    rw [assignVal]
    exact takes_pure _

theorem takes_assignProps (props : List (MojString × MojObject)) : Takes (assignProps props) := by
  cases props with
  | nil =>
    rw [assignProps]
    exact takes_pure _
  | cons head rest =>
    rcases head with ⟨name, val⟩
    rw [assignProps]
    apply (takes_assignVal val).bind
    intro val
    exact (takes_assignProps rest).bind fun _ => takes_pure _

theorem takes_assignVals (vals : List MojObject) : Takes (assignVals vals) := by
  cases vals with
  | nil =>
    rw [assignVals]
    exact takes_pure _
  | cons val rest =>
    cases val with
    | object props =>
      rw [assignVals]
      apply (takes_assignElement props).bind
      intro props
      exact (takes_assignVals rest).bind fun _ => takes_pure _
    | _ =>
      rw [assignVals]
      · exact (takes_assignVals rest).bind fun _ => takes_pure _
      · intro props impossible
        cases impossible

theorem takes_assignElement (props : List (MojString × MojObject)) :
    Takes (assignElement props) := by
  cases props with
  | nil =>
    rw [assignElement]
    exact takes_nextId.bind fun _ => takes_pure _
  | cons head rest =>
    rcases head with ⟨name, val⟩
    rw [assignElement]
    split_ifs
    · apply (takes_assignVal val).bind
      intro val
      exact (takes_assignProps rest).bind fun _ => takes_pure _
    · apply takes_nextId.bind
      intro id
      apply (takes_assignVal val).bind
      intro val
      exact (takes_assignProps rest).bind fun _ => takes_pure _

end

theorem takes_assignIds (obj : MojObject) : Takes (assignIds obj) := by
  cases obj with
  | object props => exact (takes_assignProps props).bind fun _ => takes_pure _
  | _ => exact takes_pure _

theorem takes_storeObj (kind : KindUpdate) (storage : Option MojErr) (id : MojObject)
    (prev : Option MojObject) (obj : MojObject) : Takes (storeObj kind storage id prev obj) := by
  unfold storeObj
  cases kind.apply prev obj with
  | error err => exact takes_throw err
  | ok new =>
    cases storage with
    | some err => exact takes_throw err
    | none => exact takes_pure _

theorem takes_putRev (kind : KindUpdate) (storage : Option MojErr) (id : MojObject)
    (prev : Option MojObject) (obj : MojObject) : Takes (putRev kind storage id prev obj) := by
  unfold putRev
  cases obj.get kindKey with
  | none => exact takes_throw _
  | some kindName =>
    apply Takes.bind _ (takes_storeObj kind storage id prev)
    split_ifs
    · exact takes_pure _
    · exact takes_assignIds _

theorem takes_putObj (kind : KindUpdate) (storage : Option MojErr) (id obj : MojObject)
    (prev : Option MojObject) : Takes (putObj kind storage id obj prev) := by
  unfold putObj
  split_ifs
  · exact takes_pure _
  · exact takes_nextId.bind fun _ => takes_putRev _ _ _ _ _

theorem takes_putImpl (flags : PutFlags) (kind : KindUpdate) (storage : Option MojErr)
    (id obj : MojObject) (prev : Option MojObject) :
    Takes (putImpl flags kind storage id obj prev) := by
  cases prev with
  | none =>
    rw [putImpl]
    split_ifs
    · exact takes_pure _
    · exact takes_putObj kind storage id obj none
  | some prev =>
    rw [putImpl]
    cases checkRev flags (if flags.merge then mergeInto obj prev else obj) prev with
    | error err => exact takes_throw err
    | ok done => exact takes_putObj kind storage id _ (some prev)

/-- Whatever else a program changes, a value without objects within stays under its key. -/
theorem find_assignProps_plain {key : MojString} {val : MojObject}
    (plain : assignVal val = pure val) {props out : List (MojString × MojObject)}
    (ran : assignProps props ids = .ok out after) (found : MojObject.find props key = some val) :
    MojObject.find out key = some val := by
  induction props generalizing out ids after with
  | nil => cases found
  | cons head rest ih =>
    rcases head with ⟨name, old⟩
    rw [assignProps] at ran
    rcases taking_bind_ok ran with ⟨new, middle, first, ran⟩
    rcases taking_bind_ok ran with ⟨others, late, last, ran⟩
    cases ran
    unfold MojObject.find at found ⊢
    rw [List.find?_cons] at found ⊢
    by_cases same : name = key
    · simp only [same, decide_true, Option.map_some, Option.some.injEq] at found ⊢
      rw [found, plain] at first
      cases first
      rfl
    · simp only [same, decide_false] at found ⊢
      exact ih last found

theorem get_assignIds_plain {key : MojString} {val obj out : MojObject}
    (plain : assignVal val = pure val) (ran : assignIds obj ids = .ok out after)
    (found : obj.get key = some val) : out.get key = some val := by
  cases obj with
  | object props =>
    rcases taking_bind_ok ran with ⟨new, middle, first, ran⟩
    cases ran
    exact find_assignProps_plain plain first found
  | _ => cases found

theorem get_assignIds {key : MojString} {val : MojInt64} {obj out : MojObject}
    (ran : assignIds obj ids = .ok out after) (found : obj.get key = some (.int val)) :
    out.get key = some (.int val) :=
  get_assignIds_plain (by rw [assignVal]) ran found

theorem get_revSet_update (revSet : MojDbRevisionSet) (prev : Option MojObject) {obj : MojObject}
    {rev : MojObject} (found : obj.get revKey = some rev) :
    (revSet.update prev obj).get revKey = some rev := by
  have put : (obj.put revSet.name rev).get revKey = some rev := by
    rw [MojObject.get_put]
    split_ifs
    · rfl
    · exact found
  unfold MojDbRevisionSet.update
  simp only [found]
  cases prev with
  | none => exact put
  | some prev =>
    simp only
    split_ifs
    · exact put
    · exact found

variable {prev : Option MojObject} {kind : KindUpdate}

theorem get_apply {obj new rev : MojObject} (applied : kind.apply prev obj = .ok new)
    (found : obj.get revKey = some rev) : new.get revKey = some rev := by
  unfold KindUpdate.apply at applied
  cases refused : kind.refuses obj prev with
  | some err =>
    rw [refused] at applied
    cases applied
  | none =>
    rw [refused] at applied
    have synced : (if kind.backup ∧ obj.get syncKey = none then obj.put syncKey (.bool true)
        else obj).get revKey = some rev := by
      split_ifs
      · rw [MojObject.get_put, if_neg (by decide)]
        exact found
      · exact found
    have folded : ∀ (revSets : List MojDbRevisionSet) (obj : MojObject),
        obj.get revKey = some rev →
          (revSets.foldl (fun obj revSet => revSet.update prev obj) obj).get revKey = some rev := by
      intro revSets
      induction revSets with
      | nil => exact fun _ found => found
      | cons revSet rest ih => exact fun _ found => ih _ (get_revSet_update revSet prev found)
    cases applied
    exact folded kind.revSets _ synced

theorem get_withHeader (id : MojObject) {obj : MojObject} {rev : MojInt64}
    (found : obj.get revKey = some (.int rev)) :
    (withHeader id obj).get revKey = some (.int rev) := by
  unfold withHeader
  simp only [found, Option.map_some, Option.getD_some, MojObject.intValue]
  split_ifs
  · rw [MojObject.get_put, if_neg (by decide), MojObject.get_put, if_pos rfl]
  · rw [MojObject.get_put, if_pos rfl]

variable {storage : Option MojErr}

theorem get_storeObj {id : MojObject} {obj new : MojObject} {rev : MojInt64}
    (ran : storeObj kind storage id prev obj ids = .ok (.stored new) after)
    (found : obj.get revKey = some (.int rev)) : new.get revKey = some (.int rev) := by
  unfold storeObj at ran
  cases applied : kind.apply prev obj with
  | error err =>
    rw [applied] at ran
    cases ran
  | ok kept =>
    rw [applied] at ran
    cases storage with
    | some err => cases ran
    | none =>
      cases ran
      exact get_withHeader id (get_apply applied found)

theorem get_putRev {id : MojObject} {obj new : MojObject} {rev : MojInt64}
    (ran : putRev kind storage id prev obj ids = .ok (.stored new) after)
    (found : obj.get revKey = some (.int rev)) : new.get revKey = some (.int rev) := by
  unfold putRev at ran
  cases named : obj.get kindKey with
  | none =>
    rw [named] at ran
    cases ran
  | some kindName =>
    rw [named] at ran
    rcases taking_bind_ok ran with ⟨out, middle, assigned, ran⟩
    apply get_storeObj ran
    split_ifs at assigned
    · cases assigned
      exact found
    · exact get_assignIds assigned found

/-- A put that changes the object gives it a revision above all the sequence handed out. -/
theorem putObj_stored {id obj new : MojObject} (fresh : Fresh ids)
    (ran : putObj kind storage id obj prev ids = .ok (.stored new) after) :
    ∃ rev, new.get revKey = some (.int (BitVec.ofNat 64 rev)) ∧
      (∀ earlier ∈ ids.handed, earlier < rev) ∧ rev ∈ after.handed := by
  unfold putObj at ran
  split_ifs at ran
  · cases ran
  · rcases taking_bind_ok ran with ⟨rev, middle, taken, ran⟩
    rcases nextId_ok fresh taken with ⟨above, mine, next, -⟩
    refine ⟨rev, ?_, above, ?_⟩
    · apply get_putRev ran
      rw [MojObject.get_put, if_pos rfl]
    · have kept := (takes_putRev kind storage id prev
        (obj.put revKey (.int (BitVec.ofNat 64 rev))) middle next).2
      rw [ran] at kept
      exact kept.subset mine

def noFlags : PutFlags := ⟨false, false, false⟩

/-- A put without flags, with what its kind, the sequence and the storage make of it. -/
structure PutRequest where
  obj : MojObject
  kind : KindUpdate
  failures : List (Option MojErr)
  storage : Option MojErr
  commit : Option MojErr

structure Versions where
  entry : Option MojObject
  history : List MojObject
  ids : Ids

def Put.objects : Put → List MojObject
  | .stored obj => [obj]
  | .ignored => []
  | .unchanged => []

def Versions.put (versions : Versions) (id : MojObject) (request : PutRequest) :
    Versions × Except MojErr Put :=
  match putImpl noFlags request.kind request.storage id request.obj versions.entry
      { versions.ids with failures := request.failures } with
  | .error err ids => ({ versions with ids := ids }, .error err)
  | .ok put ids =>
    match request.commit with
    | some err => ({ versions with ids := ids }, .error err)
    | none =>
      ({ entry := put.objects.head?.or versions.entry, history := versions.history ++ put.objects,
         ids := ids }, .ok put)

inductive PutEvent where
  | put (request : PutRequest)
  /-- The sequence is used for another object, closed, lost or opened again. -/
  | sequence (event : Event)

def Versions.step (versions : Versions) (id : MojObject) : PutEvent → Versions
  | .put request => (versions.put id request).1
  | .sequence event =>
    let stepped := MojDbStorageSeq.step versions.ids.world event
    { versions with
      ids := ⟨stepped.1, versions.ids.failures, versions.ids.handed ++ stepped.2.toList⟩ }

def Versions.run (versions : Versions) (id : MojObject) (events : List PutEvent) : Versions :=
  events.foldl (fun versions event => versions.step id event) versions

def Versions.start (entry : Option MojObject) (stored : Option Nat) : Versions :=
  ⟨entry, [], ⟨⟨none, stored⟩, [], []⟩⟩

/-- The versions committed got increasing revisions from the sequence, and the last one is there. -/
structure Versions.Ordered (first : Option MojObject) (versions : Versions) : Prop where
  fresh : Fresh versions.ids
  last : versions.entry = versions.history.getLast?.or first
  revs : ∃ revs : List Nat, revs.Pairwise (· < ·) ∧ (∀ rev ∈ revs, rev ∈ versions.ids.handed) ∧
    versions.history.map (fun version => version.get revKey) =
      revs.map fun rev => some (.int (BitVec.ofNat 64 rev))

theorem putImpl_noFlags (kind : KindUpdate) (storage : Option MojErr) (id obj : MojObject)
    (prev : Option MojObject) {put : Put}
    (ran : putImpl noFlags kind storage id obj prev ids = .ok put after) :
    (∀ old, prev = some old → checkRev noFlags obj old = .ok ()) ∧
      putObj kind storage id obj prev ids = .ok put after := by
  cases prev with
  | none =>
    apply And.intro _ ran
    intro old impossible
    cases impossible
  | some prev =>
    rw [putImpl] at ran
    simp only [noFlags, Bool.false_eq_true, if_false] at ran
    cases checked : checkRev noFlags obj prev with
    | error err =>
      rw [noFlags] at checked
      rw [checked] at ran
      cases ran
    | ok done =>
      apply And.intro
      · intro old same
        rw [← Option.some.inj same]
        exact checked
      · rw [noFlags] at checked
        rw [checked] at ran
        exact ran

/-- A put over a live object passes the checks only with the revision of that object. -/
theorem checkRev_live {obj prev : MojObject} (live : deleted prev = false)
    (checked : checkRev noFlags obj prev = .ok ()) :
    ∃ carried rev, obj.get revKey = some carried ∧ prev.get revKey = some rev ∧
      carried.intValue = rev.intValue := by
  unfold checkRev at checked
  cases carries : obj.get revKey with
  | none => simp [carries, live, noFlags, bind, Except.bind] at checked
  | some carried =>
    cases has : prev.get revKey with
    | none => simp [carries, has, noFlags] at checked
    | some rev =>
      refine ⟨carried, rev, rfl, rfl, ?_⟩
      simpa [carries, has, noFlags, bind, Except.bind] using checked

theorem fresh_failures {ids : Ids} (fresh : Fresh ids) (failures : List (Option MojErr)) :
    Fresh { ids with failures := failures } := fresh

theorem put_spec {first : Option MojObject} {versions : Versions}
    (ordered : versions.Ordered first) (id : MojObject) (request : PutRequest) :
    (versions.put id request).1.Ordered first ∧
      (∀ prev put, versions.entry = some prev → deleted prev = false →
        (versions.put id request).2 = .ok put →
          ∃ carried rev, request.obj.get revKey = some carried ∧ prev.get revKey = some rev ∧
            carried.intValue = rev.intValue) ∧
      ((versions.put id request).1.entry ≠ versions.entry →
        ∃ obj rev, (versions.put id request).1.entry = some obj ∧
          obj.get revKey = some (.int (BitVec.ofNat 64 rev)) ∧
          ∀ earlier ∈ versions.ids.handed, earlier < rev) := by
  have taken := takes_putImpl noFlags request.kind request.storage id request.obj versions.entry
    _ (fresh_failures ordered.fresh request.failures)
  rcases ordered.revs with ⟨revs, increasing, known, named⟩
  have kept : ∀ ids, Fresh ids → versions.ids.handed <+: ids.handed →
      Versions.Ordered first { versions with ids := ids } := by
    intro ids fresh grown
    exact ⟨fresh, ordered.last, revs, increasing, fun rev member => grown.subset (known rev member),
      named⟩
  unfold Versions.put
  cases ran : putImpl noFlags request.kind request.storage id request.obj versions.entry
      { versions.ids with failures := request.failures } with
  | error err after =>
    rw [ran] at taken
    refine ⟨kept after taken.1 taken.2, ?_, fun changed => absurd rfl changed⟩
    intro prev put _ _ impossible
    cases impossible
  | ok put after =>
    rw [ran] at taken
    cases commits : request.commit with
    | some err =>
      refine ⟨kept after taken.1 taken.2, ?_, fun changed => absurd rfl changed⟩
      intro prev put _ _ impossible
      cases impossible
    | none =>
      rcases putImpl_noFlags _ _ _ _ _ ran with ⟨checked, stores⟩
      refine ⟨?_, ?_, ?_⟩
      · cases put with
        | ignored => simpa [Put.objects] using kept after taken.1 taken.2
        | unchanged => simpa [Put.objects] using kept after taken.1 taken.2
        | stored obj =>
          rcases putObj_stored (fresh_failures ordered.fresh request.failures) stores with
            ⟨rev, has, above, mine⟩
          refine ⟨taken.1, by simp [Put.objects], revs ++ [rev], ?_, ?_, ?_⟩
          · rw [List.pairwise_append]
            refine ⟨increasing, List.pairwise_singleton _ _, ?_⟩
            intro earlier member later last
            rw [List.mem_singleton.mp last]
            exact above earlier (known earlier member)
          · intro other member
            rcases List.mem_append.mp member with old | new
            · exact taken.2.subset (known other old)
            · rw [List.mem_singleton.mp new]
              exact mine
          · rw [List.map_append, List.map_append, named]
            simp [Put.objects, has]
      · intro prev result there live _
        exact checkRev_live live (checked prev there)
      · intro changed
        cases put with
        | ignored => exact absurd rfl changed
        | unchanged => exact absurd rfl changed
        | stored obj =>
          rcases putObj_stored (fresh_failures ordered.fresh request.failures) stores with
            ⟨rev, has, above, -⟩
          exact ⟨obj, rev, rfl, has, above⟩

theorem ordered_sequence {first : Option MojObject} {versions : Versions}
    (ordered : versions.Ordered first) (id : MojObject) (event : Event) :
    (versions.step id (.sequence event)).Ordered first := by
  rcases ordered.fresh with ⟨top, ahead, below⟩
  rcases ordered.revs with ⟨revs, increasing, known, named⟩
  refine ⟨?_, ordered.last, revs, increasing, ?_, named⟩
  · rcases step_spec ahead event with ⟨got, after⟩ | ⟨val, got, above, after⟩
    · refine ⟨top, after, ?_⟩
      simp only [Versions.step, got]
      simpa using below
    · refine ⟨val + 1, after, ?_⟩
      intro other member
      simp only [Versions.step, got] at member
      rcases List.mem_append.mp member with old | new
      · exact Nat.lt_succ_of_lt (lt_of_lt_of_le (below other old) above)
      · rw [List.mem_singleton.mp new]
        exact Nat.lt_succ_self val
  · intro rev member
    exact List.mem_append_left _ (known rev member)

theorem ordered_run (entry : Option MojObject) (stored : Option Nat) (id : MojObject)
    (events : List PutEvent) : ((Versions.start entry stored).run id events).Ordered entry := by
  have first : (Versions.start entry stored).Ordered entry := by
    refine ⟨⟨0, ahead_closed (Nat.zero_le _), ?_⟩, rfl, [], List.Pairwise.nil, ?_, rfl⟩
    · intro val impossible
      cases impossible
    · intro rev impossible
      cases impossible
  unfold Versions.run
  induction events using List.reverseRecOn with
  | nil => exact first
  | append_singleton front event ih =>
    rw [List.foldl_append]
    cases event with
    | put request => exact (put_spec ih id request).1
    | sequence event => exact ordered_sequence ih id event

/-- In any run a put over a live object succeeds only with a revision that reads as the stored one,
and a put that changes the object gives it one above all handed out before. So the change is based
on the version committed last, and no other version has its revision. Revisions are compared as the
sequence counts them, which up to 2^63 is the order of the 64-bit values that are stored. -/
theorem no_lost_update (entry : Option MojObject) (stored : Option Nat) (id : MojObject)
    (events : List PutEvent) (request : PutRequest) :
    (∀ prev put, ((Versions.start entry stored).run id events).entry = some prev →
        deleted prev = false →
        (((Versions.start entry stored).run id events).put id request).2 = .ok put →
          ∃ carried rev, request.obj.get revKey = some carried ∧ prev.get revKey = some rev ∧
            carried.intValue = rev.intValue) ∧
      ((((Versions.start entry stored).run id events).put id request).1.entry ≠
          ((Versions.start entry stored).run id events).entry →
        ∃ obj rev, (((Versions.start entry stored).run id events).put id request).1.entry =
            some obj ∧
          obj.get revKey = some (.int (BitVec.ofNat 64 rev)) ∧
          ∀ earlier ∈ ((Versions.start entry stored).run id events).ids.handed, earlier < rev) ∧
      ((Versions.start entry stored).run id events).entry =
        ((Versions.start entry stored).run id events).history.getLast?.or entry ∧
      ∃ revs : List Nat, revs.Pairwise (· < ·) ∧
        ((Versions.start entry stored).run id events).history.map
            (fun version => version.get revKey) =
          revs.map fun rev => some (.int (BitVec.ofNat 64 rev)) := by
  have ordered := ordered_run entry stored id events
  have spec := put_spec ordered id request
  rcases ordered.revs with ⟨revs, increasing, -, named⟩
  exact ⟨spec.2.1, spec.2.2, ordered.last, revs, increasing, named⟩

section Example

def itemId : MojObject := .string (chars "x".toList)

def storedItem : MojObject :=
  .object [(idKey, itemId), (kindKey, .string (chars "Item:1".toList)), (revKey, .int 1)]

/-- The stored object with another property, and a truth value for its revision. -/
def trueRev : PutRequest where
  obj := .object [(idKey, itemId), (kindKey, .string (chars "Item:1".toList)),
    (revKey, .bool true), (chars "v".toList, .int 7)]
  kind := ⟨false, [], fun _ _ => none⟩
  failures := []
  storage := none
  commit := none

/-- A put over a live object succeeds with a revision that is not the stored one. -/
theorem trueRev_passes :
    ((Versions.start (some storedItem) (some 100)).run itemId [.sequence .reopen]).entry =
        some storedItem ∧
      deleted storedItem = false ∧
      storedItem.get revKey = some (.int 1) ∧
      trueRev.obj.get revKey ≠ some (.int 1) ∧
      (((Versions.start (some storedItem) (some 100)).run itemId [.sequence .reopen]).put itemId
          trueRev).2.toOption.map Put.objects =
        some [trueRev.obj.put revKey (.int 100)] := by
  decide +kernel

end Example

end Db8.Db.MojDb
