import Db8.Core.JsonWriter
import Db8.Db.PutObj

/-!
# Backups

`MojDb::dump` as a backup calls it. Kinds that are backed up come first, then the live objects, then
the deleted ones; the objects come from queries on the root kind, through its index on `_sync` and
`_rev`. A backup stops when its file is full, and its response says from which revisions the next
one goes on.
-/

set_option autoImplicit false

namespace Db8.Db

open Db8.Bytes
open Db8.Core
open MojDb MojObjectWriter

/-- `MojDbKind::SyncKey`. -/
def kindSyncKey : MojString := chars "sync".toList

def kindKindId : MojString := chars "Kind:1".toList

/-- `_rev`, a number in every stored object. -/
def revOf (obj : MojObject) : Int :=
  match obj.get revKey with
  | some (.int rev) => rev.toInt
  | _ => -1

/-- `_del` and `_sync` as the index of the root kind sees them, with its default for both. -/
def indexedFlag (key : MojString) (obj : MojObject) : MojObject := (obj.get key).getD (.bool false)

/-- What a backup reads: the objects of the kinds as the kind engine lists them, where a kind stands
once for every time it is a sub kind of its first super, and all stored objects in the order of
their revisions. -/
structure BackupStore where
  kinds : List MojObject
  objs : List MojObject
  ordered : objs.Pairwise fun left right => revOf left < revOf right
  complete : ∀ obj ∈ objs, (obj.get revKey).isSome ∧ (obj.get kindKey).isSome
  kindsStored : ∀ kind ∈ kinds, kind ∈ objs ∧ kind.get kindKey = some (.string kindKindId) ∧
    deleted kind = false

structure IncrementalKey where
  rev : Option Int
  deletedRev : Option Int
deriving DecidableEq

inductive RevName where
  | rev
  | deletedRev
deriving DecidableEq

def IncrementalKey.put (key : IncrementalKey) (name : RevName) (rev : Int) : IncrementalKey :=
  match name with
  | .rev => { key with rev := some rev }
  | .deletedRev => { key with deletedRev := some rev }

structure BackupResponse where
  incrementalKey : IncrementalKey
  hasMore : Bool
deriving DecidableEq

/-- A backup under way: the objects in its file, their bytes and its response. -/
structure Dumping where
  written : List MojObject
  bytesWritten : Nat
  countOut : Nat
  response : BackupResponse

namespace MojDb

def insertIncrementalKey (response : BackupResponse) (name : RevName) (curRev : Int) :
    BackupResponse :=
  { response with incrementalKey := response.incrementalKey.put name curRev }

def handleBackupFull (revParam delRevParam : Int) (response : BackupResponse) (name : RevName) :
    BackupResponse :=
  match name with
  | .rev => ⟨response.incrementalKey.put .deletedRev delRevParam, true⟩
  | .deletedRev => ⟨response.incrementalKey.put .rev revParam, true⟩

section Dump

variable (spell : JsonToken → ByteString) (maxBytes : Nat)

/-- The line of an object: its JSON text without `_rev`. -/
def dumpText (obj : MojObject) : ByteString :=
  (obj.del revKey).json.flatMap spell ++ [10]

def Fits (bytes : Nat) : Prop := maxBytes = 0 ∨ bytes ≤ maxBytes

instance (bytes : Nat) : Decidable (Fits maxBytes bytes) := inferInstanceAs (Decidable (_ ∨ _))

def dumpObj (obj : MojObject) (state : Dumping) : Except MojErr Dumping :=
  let len := (dumpText spell obj).length
  if maxBytes ≠ 0 ∧ maxBytes < state.bytesWritten + len then .error .dbBackupFull
  else .ok { state with
    written := state.written ++ [obj], bytesWritten := state.bytesWritten + len }

def dumpKinds (revParam delRevParam : Int) : List MojObject → Dumping → Except MojErr Dumping
  | [], state => .ok state
  | kind :: kinds, state =>
    if ((kind.get kindSyncKey).map MojObject.boolValue).getD false then
      if (kind.get revKey).isNone then .error (.requiredPropNotFound (charBytes revKey))
      else if (deleted kind && delRevParam < revOf kind) || (!deleted kind && revParam < revOf kind) then
        match dumpObj spell maxBytes kind state with
        | .error err => .error err
        | .ok state =>
          dumpKinds revParam delRevParam kinds { state with countOut := state.countOut + 1 }
      else dumpKinds revParam delRevParam kinds state
    else dumpKinds revParam delRevParam kinds state

/-- The objects that the query of `dumpImpl` finds. -/
def backupQuery (store : BackupStore) (incDel : Bool) (rev : Int) : List MojObject :=
  store.objs.filter fun obj =>
    decide (indexedFlag delKey obj = .bool incDel) && decide (indexedFlag syncKey obj = .bool true) &&
      decide (rev < revOf obj)

/-- The loop of `dumpImpl` with what follows it. -/
def dumpLoop (incDel skipKinds : Bool) (revParam delRevParam : Int) (name : RevName) :
    List MojObject → Option Int → Dumping → Except MojErr Dumping
  | [], curRev, state =>
    match curRev with
    | some curRev =>
      .ok { state with response := insertIncrementalKey state.response name curRev }
    | none => .ok state
  | obj :: objs, curRev, state =>
    if skipKinds && (obj.get kindKey).isNone then
      .error (.requiredPropNotFound (charBytes kindKey))
    else if skipKinds && obj.get kindKey = some (.string kindKindId) then
      dumpLoop incDel skipKinds revParam delRevParam name objs curRev state
    else
      match dumpObj spell maxBytes obj state with
      | .error .dbBackupFull =>
        let curRev := curRev.getD (if incDel then delRevParam else revParam)
        let response := insertIncrementalKey state.response name curRev
        .ok { state with response := handleBackupFull revParam delRevParam response name }
      | .error err => .error err
      | .ok state =>
        if (obj.get revKey).isNone then .error (.requiredPropNotFound (charBytes revKey))
        else dumpLoop incDel skipKinds revParam delRevParam name objs (some (revOf obj))
          { state with countOut := state.countOut + 1 }

def dumpImpl (store : BackupStore) (incDel : Bool) (revParam delRevParam : Int) (skipKinds : Bool)
    (name : RevName) (state : Dumping) : Except MojErr Dumping :=
  let rev := if incDel then delRevParam else revParam
  dumpLoop spell maxBytes incDel skipKinds revParam delRevParam name (backupQuery store incDel rev)
    none state

def opened : Dumping := ⟨[], 0, 0, ⟨⟨none, none⟩, false⟩⟩

def dump (store : BackupStore) (incrementalKey : Option IncrementalKey) : Except MojErr Dumping :=
  let key := incrementalKey.getD ⟨none, none⟩
  let revParam := key.rev.getD (-1)
  let delRevParam := key.deletedRev.getD (-1)
  match dumpKinds spell maxBytes revParam delRevParam store.kinds opened with
  | .error err => .error err
  | .ok state =>
    match dumpImpl spell maxBytes store false revParam delRevParam true .rev state with
    | .error err => .error err
    | .ok state =>
      if state.response.hasMore then .ok state
      else dumpImpl spell maxBytes store true revParam delRevParam false .deletedRev state

def size (objs : List MojObject) : Nat := (objs.map fun obj => (dumpText spell obj).length).sum

@[simp] theorem size_nil : size spell [] = 0 := rfl

@[simp] theorem size_cons (obj : MojObject) (objs : List MojObject) :
    size spell (obj :: objs) = (dumpText spell obj).length + size spell objs := rfl

@[simp] theorem size_append (front back : List MojObject) :
    size spell (front ++ back) = size spell front + size spell back := by
  simp [size]

theorem Fits.part {maxBytes bytes more : Nat} (fits : Fits maxBytes (bytes + more)) :
    Fits maxBytes bytes := by
  rcases fits with unlimited | below
  · exact .inl unlimited
  · exact .inr (by omega)

theorem fits_zero : Fits maxBytes 0 := .inr (Nat.zero_le _)

theorem dumpObj_fits (obj : MojObject) (state : Dumping)
    (fits : Fits maxBytes (state.bytesWritten + (dumpText spell obj).length)) :
    dumpObj spell maxBytes obj state = .ok { state with
      written := state.written ++ [obj],
      bytesWritten := state.bytesWritten + (dumpText spell obj).length } := by
  unfold dumpObj
  rw [if_neg]
  rintro ⟨limited, above⟩
  rcases fits with unlimited | below
  · exact limited unlimited
  · omega

theorem dumpObj_full (obj : MojObject) (state : Dumping)
    (full : ¬Fits maxBytes (state.bytesWritten + (dumpText spell obj).length)) :
    dumpObj spell maxBytes obj state = .error .dbBackupFull := by
  unfold dumpObj
  unfold Fits at full
  rw [if_pos]
  omega

def due (rev : Int) (kind : MojObject) : Bool :=
  ((kind.get kindSyncKey).map MojObject.boolValue).getD false && decide (rev < revOf kind)

def shown (skipKinds : Bool) (obj : MojObject) : Bool :=
  !(skipKinds && decide (obj.get kindKey = some (.string kindKindId)))

def dueKinds (store : BackupStore) (rev : Int) : List MojObject :=
  store.kinds.filter (due rev)

def dueLive (store : BackupStore) (rev : Int) : List MojObject :=
  (backupQuery store false rev).filter (shown true)

def dueDeleted (store : BackupStore) (rev : Int) : List MojObject := backupQuery store true rev

def append (state : Dumping) (objs : List MojObject) : Dumping :=
  ⟨state.written ++ objs, state.bytesWritten + size spell objs, state.countOut + objs.length,
    state.response⟩

theorem append_append (state : Dumping) (front back : List MojObject) :
    append spell (append spell state front) back = append spell state (front ++ back) := by
  simp [append, Nat.add_assoc]

theorem dumpObj_append (obj : MojObject) (state : Dumping) :
    ({ state with
        written := state.written ++ [obj],
        bytesWritten := state.bytesWritten + (dumpText spell obj).length,
        countOut := state.countOut + 1 } : Dumping) = append spell state [obj] := by
  simp [append]

theorem dumpKinds_cons (rev delRev : Int) (kind : MojObject) (kinds : List MojObject)
    (state : Dumping) (stored : (kind.get revKey).isSome ∧ deleted kind = false) :
    dumpKinds spell maxBytes rev delRev (kind :: kinds) state =
      if due rev kind then
        match dumpObj spell maxBytes kind state with
        | .error err => .error err
        | .ok state =>
          dumpKinds spell maxBytes rev delRev kinds { state with countOut := state.countOut + 1 }
      else dumpKinds spell maxBytes rev delRev kinds state := by
  have some : (kind.get revKey).isNone = false := by
    rw [← Option.not_isSome, stored.1]
    rfl
  simp only [dumpKinds, due, some, stored.2]
  by_cases sync : ((kind.get kindSyncKey).map MojObject.boolValue).getD false = true
  · simp [sync]
  · simp [sync]

theorem dumpKinds_fits (rev delRev : Int) (kinds : List MojObject) (state : Dumping)
    (stored : ∀ kind ∈ kinds, (kind.get revKey).isSome ∧ deleted kind = false)
    (fits : Fits maxBytes (state.bytesWritten + size spell (kinds.filter (due rev)))) :
    dumpKinds spell maxBytes rev delRev kinds state =
      .ok (append spell state (kinds.filter (due rev))) := by
  induction kinds generalizing state with
  | nil => simp [dumpKinds, append]
  | cons kind kinds ih =>
    have rest := fun other member => stored other (List.mem_cons_of_mem _ member)
    rw [dumpKinds_cons spell maxBytes rev delRev kind kinds state (stored kind List.mem_cons_self)]
    split <;> rename_i isDue
    · rw [List.filter_cons_of_pos isDue, size_cons, ← Nat.add_assoc] at fits
      rw [dumpObj_fits spell maxBytes kind state fits.part]
      dsimp only
      rw [dumpObj_append, ih _ rest, append_append, List.filter_cons_of_pos isDue]
      · rfl
      · simpa [append] using fits
    · rw [List.filter_cons_of_neg isDue] at fits ⊢
      exact ih state rest fits

theorem dumpKinds_full (rev delRev : Int) (kinds : List MojObject) (state : Dumping)
    (stored : ∀ kind ∈ kinds, (kind.get revKey).isSome ∧ deleted kind = false)
    (start : Fits maxBytes state.bytesWritten)
    (full : ¬Fits maxBytes (state.bytesWritten + size spell (kinds.filter (due rev)))) :
    dumpKinds spell maxBytes rev delRev kinds state = .error .dbBackupFull := by
  induction kinds generalizing state with
  | nil => exact absurd start full
  | cons kind kinds ih =>
    have rest := fun other member => stored other (List.mem_cons_of_mem _ member)
    rw [dumpKinds_cons spell maxBytes rev delRev kind kinds state (stored kind List.mem_cons_self)]
    split <;> rename_i isDue
    · rw [List.filter_cons_of_pos isDue, size_cons, ← Nat.add_assoc] at full
      by_cases here : Fits maxBytes (state.bytesWritten + (dumpText spell kind).length)
      · rw [dumpObj_fits spell maxBytes kind state here]
        dsimp only
        rw [dumpObj_append]
        apply ih _ rest
        · simpa [append] using here
        · simpa [append] using full
      · rw [dumpObj_full spell maxBytes kind state here]
    · rw [List.filter_cons_of_neg isDue] at full
      exact ih state rest start full

def lastRev (curRev : Option Int) (objs : List MojObject) : Option Int :=
  objs.foldl (fun _ obj => some (revOf obj)) curRev

section Pass

variable (incDel skipKinds : Bool) (revParam delRevParam : Int) (name : RevName)

theorem dumpLoop_cons (obj : MojObject) (objs : List MojObject) (curRev : Option Int)
    (state : Dumping) (stored : (obj.get revKey).isSome ∧ (obj.get kindKey).isSome) :
    dumpLoop spell maxBytes incDel skipKinds revParam delRevParam name (obj :: objs) curRev state =
      if shown skipKinds obj then
        match dumpObj spell maxBytes obj state with
        | .error .dbBackupFull =>
          let curRev := curRev.getD (if incDel then delRevParam else revParam)
          let response := insertIncrementalKey state.response name curRev
          .ok { state with response := handleBackupFull revParam delRevParam response name }
        | .error err => .error err
        | .ok state =>
          dumpLoop spell maxBytes incDel skipKinds revParam delRevParam name objs
            (some (revOf obj)) { state with countOut := state.countOut + 1 }
      else
        dumpLoop spell maxBytes incDel skipKinds revParam delRevParam name objs curRev state := by
  have rev : (obj.get revKey).isNone = false := by
    rw [← Option.not_isSome, stored.1]
    rfl
  have kind : (obj.get kindKey).isNone = false := by
    rw [← Option.not_isSome, stored.2]
    rfl
  simp only [dumpLoop, shown, rev, kind]
  cases skipKinds with
  | false => simp
  | true =>
    by_cases kindObj : obj.get kindKey = some (.string kindKindId)
    · simp [kindObj]
    · simp [kindObj]

theorem dumpLoop_fits (objs : List MojObject) (curRev : Option Int) (state : Dumping)
    (stored : ∀ obj ∈ objs, (obj.get revKey).isSome ∧ (obj.get kindKey).isSome)
    (fits : Fits maxBytes (state.bytesWritten + size spell (objs.filter (shown skipKinds)))) :
    ∃ response, dumpLoop spell maxBytes incDel skipKinds revParam delRevParam name objs curRev
        state = .ok { append spell state (objs.filter (shown skipKinds)) with response := response } ∧
      response.hasMore = state.response.hasMore := by
  induction objs generalizing curRev state with
  | nil =>
    cases curRev with
    | none => exact ⟨state.response, by simp [dumpLoop, append], rfl⟩
    | some curRev =>
      exact ⟨insertIncrementalKey state.response name curRev, by simp [dumpLoop, append], rfl⟩
  | cons obj objs ih =>
    have rest := fun other member => stored other (List.mem_cons_of_mem _ member)
    rw [dumpLoop_cons spell maxBytes incDel skipKinds revParam delRevParam name obj objs curRev
      state (stored obj List.mem_cons_self)]
    split <;> rename_i isShown
    · rw [List.filter_cons_of_pos isShown, size_cons, ← Nat.add_assoc] at fits
      rw [dumpObj_fits spell maxBytes obj state fits.part]
      dsimp only
      rw [dumpObj_append]
      rcases ih (some (revOf obj)) (append spell state [obj]) rest
        (by simpa [append] using fits) with ⟨response, result, more⟩
      refine ⟨response, ?_, more⟩
      rw [result, append_append, List.filter_cons_of_pos isShown]
      rfl
    · rw [List.filter_cons_of_neg isShown] at fits ⊢
      exact ih curRev state rest fits

theorem dumpLoop_full (objs : List MojObject) (curRev : Option Int) (state : Dumping)
    (stored : ∀ obj ∈ objs, (obj.get revKey).isSome ∧ (obj.get kindKey).isSome)
    (front back : List MojObject) (obj : MojObject)
    (split : objs.filter (shown skipKinds) = front ++ obj :: back)
    (fits : Fits maxBytes (state.bytesWritten + size spell front))
    (full : ¬Fits maxBytes (state.bytesWritten + size spell front + (dumpText spell obj).length)) :
    dumpLoop spell maxBytes incDel skipKinds revParam delRevParam name objs curRev state =
      .ok { append spell state front with
        response := handleBackupFull revParam delRevParam
          (insertIncrementalKey state.response name
            ((lastRev curRev front).getD (if incDel then delRevParam else revParam))) name } := by
  induction objs generalizing curRev state front with
  | nil => simp at split
  | cons first objs ih =>
    have rest := fun other member => stored other (List.mem_cons_of_mem _ member)
    rw [dumpLoop_cons spell maxBytes incDel skipKinds revParam delRevParam name first objs curRev
      state (stored first List.mem_cons_self)]
    by_cases isShown : shown skipKinds first = true
    · rw [List.filter_cons_of_pos isShown] at split
      rw [if_pos isShown]
      cases front with
      | nil =>
        rw [List.nil_append, List.cons.injEq] at split
        rcases split with ⟨rfl, _⟩
        rw [dumpObj_full spell maxBytes first state (by simpa using full)]
        simp [append, lastRev]
      | cons written front =>
        rw [List.cons_append, List.cons.injEq] at split
        rcases split with ⟨rfl, split⟩
        rw [size_cons, ← Nat.add_assoc] at fits full
        rw [dumpObj_fits spell maxBytes first state fits.part]
        dsimp only
        rw [dumpObj_append, ih (some (revOf first)) (append spell state [first]) rest front split,
          append_append]
        · rfl
        · simpa [append] using fits
        · simpa [append] using full
    · rw [List.filter_cons_of_neg isShown] at split
      rw [if_neg isShown]
      exact ih curRev state rest front split fits full

end Pass

def startRev (key : Option IncrementalKey) : Int := (key.getD ⟨none, none⟩).rev.getD (-1)

def startDeletedRev (key : Option IncrementalKey) : Int :=
  (key.getD ⟨none, none⟩).deletedRev.getD (-1)

theorem kinds_complete (store : BackupStore) :
    ∀ kind ∈ store.kinds, (kind.get revKey).isSome ∧ deleted kind = false := by
  intro kind member
  have stored := store.kindsStored kind member
  exact ⟨(store.complete kind stored.1).1, stored.2.2⟩

theorem query_complete (store : BackupStore) (incDel : Bool) (rev : Int) :
    ∀ obj ∈ backupQuery store incDel rev, (obj.get revKey).isSome ∧ (obj.get kindKey).isSome :=
  fun obj member => store.complete obj (List.mem_filter.mp member).1

variable (store : BackupStore) (key : Option IncrementalKey)

theorem dump_eq :
    dump spell maxBytes store key =
      match dumpKinds spell maxBytes (startRev key) (startDeletedRev key) store.kinds opened with
      | .error err => .error err
      | .ok state =>
        match dumpImpl spell maxBytes store false (startRev key) (startDeletedRev key) true .rev
          state with
        | .error err => .error err
        | .ok state =>
          if state.response.hasMore then .ok state
          else dumpImpl spell maxBytes store true (startRev key) (startDeletedRev key) false
            .deletedRev state := rfl

theorem shown_all (objs : List MojObject) : objs.filter (shown false) = objs := by
  simp [shown]

theorem dump_kinds_fit (fits : Fits maxBytes (size spell (dueKinds store (startRev key)))) :
    dumpKinds spell maxBytes (startRev key) (startDeletedRev key) store.kinds opened =
      .ok (append spell opened (dueKinds store (startRev key))) :=
  dumpKinds_fits spell maxBytes _ _ store.kinds opened (kinds_complete store)
    (by simpa [opened, dueKinds] using fits)

theorem dump_kinds_full (full : ¬Fits maxBytes (size spell (dueKinds store (startRev key)))) :
    dump spell maxBytes store key = .error .dbBackupFull := by
  have kinds := dumpKinds_full spell maxBytes (startRev key) (startDeletedRev key) store.kinds opened
    (kinds_complete store) (fits_zero maxBytes) (by simpa [opened, dueKinds] using full)
  rw [dump_eq, kinds]

/-- The pass over the live objects comes to its end, and the one over the deleted ones is next. -/
theorem dump_live_fit
    (fits : Fits maxBytes (size spell (dueKinds store (startRev key)) +
      size spell (dueLive store (startRev key)))) :
    ∃ response, response.hasMore = false ∧ dump spell maxBytes store key =
      dumpImpl spell maxBytes store true (startRev key) (startDeletedRev key) false .deletedRev
        { append spell opened
            (dueKinds store (startRev key) ++ dueLive store (startRev key)) with
          response := response } := by
  have kinds := dump_kinds_fit spell maxBytes store key fits.part
  rcases dumpLoop_fits spell maxBytes false true (startRev key) (startDeletedRev key) .rev
    (backupQuery store false (startRev key)) none
    (append spell opened (dueKinds store (startRev key)))
    (query_complete store false (startRev key))
    (by simpa [append, opened, dueLive] using fits) with ⟨response, live, more⟩
  refine ⟨response, more, ?_⟩
  rw [append_append] at live
  have more : response.hasMore = false := more
  rw [dump_eq, kinds]
  simp only [dumpImpl, Bool.false_eq_true, if_false, live, more]
  rfl

theorem dump_all
    (fits : Fits maxBytes (size spell (dueKinds store (startRev key)) +
      size spell (dueLive store (startRev key)) +
      size spell (dueDeleted store (startDeletedRev key)))) :
    ∃ state, dump spell maxBytes store key = .ok state ∧ state.response.hasMore = false ∧
      state.written = dueKinds store (startRev key) ++ dueLive store (startRev key) ++
        dueDeleted store (startDeletedRev key) := by
  rcases dump_live_fit spell maxBytes store key fits.part with ⟨response, more, dumped⟩
  rcases dumpLoop_fits spell maxBytes true false (startRev key) (startDeletedRev key) .deletedRev
    (backupQuery store true (startDeletedRev key)) none
    { append spell opened (dueKinds store (startRev key) ++ dueLive store (startRev key)) with
      response := response }
    (query_complete store true (startDeletedRev key))
    (by simpa [append, opened, dueDeleted, shown_all] using fits) with ⟨last, deleted, none⟩
  rw [dumped, dumpImpl]
  simp only [if_true, deleted, shown_all]
  exact ⟨_, rfl, none.trans more, by simp [append, opened, dueDeleted]⟩

theorem dump_live_cut (front back : List MojObject) (obj : MojObject)
    (split : dueLive store (startRev key) = front ++ obj :: back)
    (fits : Fits maxBytes (size spell (dueKinds store (startRev key)) + size spell front))
    (full : ¬Fits maxBytes (size spell (dueKinds store (startRev key)) + size spell front +
      (dumpText spell obj).length)) :
    ∃ state, dump spell maxBytes store key = .ok state ∧
      state.written = dueKinds store (startRev key) ++ front ∧
      state.response = ⟨⟨some ((lastRev none front).getD (startRev key)),
        some (startDeletedRev key)⟩, true⟩ := by
  have kinds := dump_kinds_fit spell maxBytes store key fits.part
  have live := dumpLoop_full spell maxBytes false true (startRev key) (startDeletedRev key) .rev
    (backupQuery store false (startRev key)) none
    (append spell opened (dueKinds store (startRev key)))
    (query_complete store false (startRev key)) front back obj split
    (by simpa [append, opened] using fits) (by simpa [append, opened] using full)
  rw [append_append] at live
  rw [dump_eq, kinds]
  simp only [dumpImpl, Bool.false_eq_true, if_false, live]
  exact ⟨_, rfl, by simp [append, opened], rfl⟩

theorem dump_deleted_cut (front back : List MojObject) (obj : MojObject)
    (split : dueDeleted store (startDeletedRev key) = front ++ obj :: back)
    (fits : Fits maxBytes (size spell (dueKinds store (startRev key)) +
      size spell (dueLive store (startRev key)) + size spell front))
    (full : ¬Fits maxBytes (size spell (dueKinds store (startRev key)) +
      size spell (dueLive store (startRev key)) + size spell front +
      (dumpText spell obj).length)) :
    ∃ state, dump spell maxBytes store key = .ok state ∧
      state.written = dueKinds store (startRev key) ++ dueLive store (startRev key) ++ front ∧
      state.response = ⟨⟨some (startRev key),
        some ((lastRev none front).getD (startDeletedRev key))⟩, true⟩ := by
  rcases dump_live_fit spell maxBytes store key fits.part with ⟨response, more, dumped⟩
  have deleted := dumpLoop_full spell maxBytes true false (startRev key) (startDeletedRev key)
    .deletedRev (backupQuery store true (startDeletedRev key)) none
    { append spell opened (dueKinds store (startRev key) ++ dueLive store (startRev key)) with
      response := response }
    (query_complete store true (startDeletedRev key)) front back obj
    (by rw [shown_all]; exact split)
    (by simpa [append, opened] using fits) (by simpa [append, opened] using full)
  rw [dumped, dumpImpl]
  simp only [if_true, deleted]
  exact ⟨_, rfl, by simp [append, opened], rfl⟩

end Dump

end MojDb

end Db8.Db
