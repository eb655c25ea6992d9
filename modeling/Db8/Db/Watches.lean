import Db8.Core.Err
import Db8.Db.Key

/-!
# Watches

Watched queries: the watchers of an index, the keys a transaction collects for them until it has
committed, and the cursor whose closing activates them. Threads interleave between any two calls
that hold a lock. Beside the state stands the history of each watch, which only the calls determine.
-/

set_option autoImplicit false

namespace Db8.Db.Watches

open Db8.Bytes
open Db8.Core

abbrev StoredKey := {key : MojDbKey // key ≠ []}

inductive WatcherState where
  | invalid
  | pending
  | active
deriving DecidableEq

structure MojDbWatcher where
  ranges : List MojDbKeyRange
  limitKey : MojDbKey
  fireKey : MojDbKey
  domain : MojString
  desc : Bool
  state : WatcherState
  /-- The index the watcher is registered with. -/
  index : Option Nat

def MojDbWatcher.new : MojDbWatcher := ⟨[], [], [], [], false, .invalid, none⟩

structure Registry where
  watcherVec : List Nat
  watcherMap : MojString → Option Nat

/-- A key and the watcher that will be told about it: `WatcherInfo`. -/
abbrev WatcherInfo := Nat × StoredKey

/-- The watchers are numbered in the order they were made. `firing` is what a commit has still to
deliver, and `signals` the watchers whose handler has been called. -/
structure System where
  next : Nat
  watchers : Nat → MojDbWatcher
  indexes : Nat → Registry
  txns : Nat → List WatcherInfo
  firing : Nat → List WatcherInfo
  cursors : List Nat
  signals : List Nat

def System.start : System :=
  ⟨0, fun _ => MojDbWatcher.new, fun _ => ⟨[], fun _ => none⟩, fun _ => [], fun _ => [], [], []⟩

/-- What a call leaves: nothing when an assertion fails or it is not its turn, and otherwise the state
with the error it returns. -/
abbrev Outcome := Option (System × Option MojErr)

/-- A key against the limit of a query; the empty limit is none. -/
def within (desc : Bool) (limit key : MojDbKey) : Bool :=
  limit = [] || if desc then decide (limit ≤ key) else decide (key ≤ limit)

/-- Whether a pending watcher keeps a key instead of the one before: the least, or the greatest going
down. -/
def saves (desc : Bool) (fireKey : MojDbKey) (key : StoredKey) : Bool :=
  (desc && decide (fireKey < key.val)) ||
    (!desc && (fireKey = [] || decide (key.val < fireKey)))

def inRanges (ranges : List MojDbKeyRange) (key : StoredKey) : Bool :=
  ranges.any fun range => decide (range.contains key)

section Calls

variable (sys : System)

def setWatcher (handle : Nat) (watcher : MojDbWatcher) : System :=
  { sys with watchers := Function.update sys.watchers handle watcher }

def setIndex (index : Nat) (registry : Registry) : System :=
  { sys with indexes := Function.update sys.indexes index registry }

def acquire (counts : MojString → Option Nat) (domain : MojString) : MojString → Option Nat :=
  Function.update counts domain (match counts domain with
    | none => some 1
    | some count => some (count + 1))

def release (counts : MojString → Option Nat) (domain : MojString) : MojString → Option Nat :=
  match counts domain with
  | none => counts
  | some count => Function.update counts domain (if count - 1 = 0 then none else some (count - 1))

def cancelWatch (index handle : Nat) : System × Option MojErr :=
  let registry := sys.indexes index
  if handle ∈ registry.watcherVec then
    (setIndex sys index ⟨registry.watcherVec.erase handle,
      release registry.watcherMap (sys.watchers handle).domain⟩, none)
  else (sys, some .dbWatcherNotRegistered)

def invalidate (handle : Nat) : Outcome :=
  let watcher := sys.watchers handle
  match watcher.index with
  | none => none
  | some index =>
    if watcher.state = .active then
      some (cancelWatch (setWatcher sys handle { watcher with index := none, state := .invalid })
        index handle)
    else none

/-- `MojDbWatcher::fireImpl`; an error of the handler is caught. -/
def fireImpl (handle : Nat) : Outcome :=
  match invalidate sys handle with
  | some (sys, none) => some ({ sys with signals := sys.signals ++ [handle] }, none)
  | outcome => outcome

def fire (handle : Nat) (key : StoredKey) : Outcome :=
  let watcher := sys.watchers handle
  if within watcher.desc watcher.limitKey key then
    match watcher.state with
    | .active => fireImpl sys handle
    | .pending =>
      let save := saves watcher.desc watcher.fireKey key
      some (if save then setWatcher sys handle { watcher with fireKey := key } else sys, none)
    | .invalid => some (sys, none)
  else some (sys, none)

def activate (handle : Nat) (limitKey : MojDbKey) : Outcome :=
  let watcher := sys.watchers handle
  if watcher.index = none then none
  else
    let active := { watcher with state := WatcherState.active }
    if watcher.fireKey ≠ [] ∧ within watcher.desc limitKey watcher.fireKey = true then
      fireImpl (setWatcher sys handle active) handle
    else some (setWatcher sys handle { active with limitKey := limitKey }, none)

def handleCancel (handle : Nat) : Outcome :=
  let watcher := sys.watchers handle
  if watcher.index = none then some (sys, some .dbWatcherNotRegistered)
  else if watcher.state ≠ .invalid then invalidate sys handle
  else some (sys, none)

/-- `MojDbIndex::addWatch` for a new watcher, which the cursor of the query then holds. -/
def addWatch (index : Nat) (domain : MojString) (ranges : List MojDbKeyRange) (desc : Bool) :
    System :=
  let registry := sys.indexes index
  { setIndex (setWatcher sys sys.next ⟨ranges, [], [], domain, desc, .pending, some index⟩) index
      ⟨registry.watcherVec ++ [sys.next], acquire registry.watcherMap domain⟩ with
    next := sys.next + 1
    cursors := sys.next :: sys.cursors }

/-- `MojDbStorageTxn::addWatcher`: one key for each watcher, the least. -/
def addWatcher (handle : Nat) (key : StoredKey) : List WatcherInfo → List WatcherInfo
  | [] => [(handle, key)]
  | info :: infos =>
    if info.1 = handle then (handle, if key < info.2 then key else info.2) :: infos
    else info :: addWatcher handle key infos

/-- `MojDbIndex::notifyWatches` for one key. -/
def notifyKey (index : Nat) (infos : List WatcherInfo) (key : StoredKey) : List WatcherInfo :=
  (sys.indexes index).watcherVec.foldl (fun infos handle =>
    if inRanges (sys.watchers handle).ranges key then addWatcher handle key infos else infos) infos

def notifyWatches (index : Nat) (keys : List StoredKey) (txn : Nat) : System :=
  { sys with
    txns := Function.update sys.txns txn (keys.foldl (notifyKey sys index) (sys.txns txn)) }

/-- The end of `MojDbStorageTxn::commit`: the watchers leave the transaction before they are told. -/
def commitTxn (txn : Nat) : System :=
  { sys with
    txns := Function.update sys.txns txn []
    firing := Function.update sys.firing txn (sys.firing txn ++ sys.txns txn) }

def deliver (txn handle : Nat) : Outcome :=
  match sys.firing txn with
  | [] => none
  | info :: infos =>
    if info.1 = handle then
      match fire { sys with firing := Function.update sys.firing txn infos } handle info.2 with
      | some (sys, some err) =>
        some ({ sys with firing := Function.update sys.firing txn [] }, some err)
      | outcome => outcome
    else none

def abortTxn (txn : Nat) : System := { sys with txns := Function.update sys.txns txn [] }

/-- `MojDbCursor::close` for the watcher a cursor holds. -/
def closeCursor (handle : Nat) (endKey : MojDbKey) : Outcome :=
  if handle ∈ sys.cursors then
    activate { sys with cursors := sys.cursors.erase handle } handle endKey
  else some (sys, none)

end Calls

inductive Event where
  | find (index : Nat) (domain : MojString) (ranges : List MojDbKeyRange) (desc : Bool)
  | notify (txn index : Nat) (keys : List StoredKey)
  | commit (txn : Nat)
  | abort (txn : Nat)
  | deliver (txn handle : Nat)
  /-- `MojDb::watch` fires by itself when the query has results. -/
  | fire (handle : Nat) (key : StoredKey)
  | close (handle : Nat) (endKey : MojDbKey)
  | cancel (handle : Nat)

def System.step (sys : System) : Event → Outcome
  | .find index domain ranges desc => some (addWatch sys index domain ranges desc, none)
  | .notify txn index keys => some (notifyWatches sys index keys txn, none)
  | .commit txn => some (commitTxn sys txn, none)
  | .abort txn => some (abortTxn sys txn, none)
  | .deliver txn handle => Watches.deliver sys txn handle
  | .fire handle key => if handle < sys.next then Watches.fire sys handle key else none
  | .close handle endKey => closeCursor sys handle endKey
  | .cancel handle => if handle < sys.next then handleCancel sys handle else none

def System.run (sys : System) : List Event → Option System
  | [] => some sys
  | event :: events => (sys.step event).bind fun outcome => outcome.1.run events

/-! ### The history of a watch -/

/-- What the calls were about, as far as one watched query is concerned: the keys of each open
transaction in its ranges, those of committed ones that are on their way, and those that arrived. -/
structure Watch where
  index : Nat
  domain : MojString
  ranges : List MojDbKeyRange
  desc : Bool
  touched : Nat → List StoredKey
  sent : Nat → List (List StoredKey)
  arrived : List (List StoredKey)
  limit : Option MojDbKey
  cancelled : Bool

namespace Watch

/-- Some keys that arrived are within a limit: one of them going up, all of them going down. -/
def dueAt (watch : Watch) (limit : MojDbKey) : Bool :=
  watch.arrived.any fun keys =>
    if watch.desc then keys.all fun key => within true limit key
    else keys.any fun key => within false limit key

def due (watch : Watch) : Bool := watch.limit.any watch.dueAt

end Watch

structure History where
  next : Nat
  watches : Nat → Watch

def History.start : History :=
  ⟨0, fun _ => ⟨0, [], [], false, fun _ => [], fun _ => [], [], none, false⟩⟩

section Record

variable (watch : Watch)

def Watch.notify (txn index : Nat) (keys : List StoredKey) : Watch :=
  if watch.index = index then
    { watch with
      touched := Function.update watch.touched txn
        (watch.touched txn ++ keys.filter (inRanges watch.ranges)) }
  else watch

def Watch.commit (txn : Nat) : Watch :=
  { watch with
    touched := Function.update watch.touched txn []
    sent := Function.update watch.sent txn
      (if watch.touched txn = [] then watch.sent txn else watch.sent txn ++ [watch.touched txn]) }

def Watch.abort (txn : Nat) : Watch :=
  { watch with touched := Function.update watch.touched txn [] }

def Watch.arrive (keys : List StoredKey) : Watch := { watch with arrived := watch.arrived ++ [keys] }

def Watch.deliver (txn : Nat) : Watch :=
  match watch.sent txn with
  | [] => watch
  | keys :: rest => { watch with sent := Function.update watch.sent txn rest }.arrive keys

def Watch.close (endKey : MojDbKey) : Watch :=
  match watch.limit with
  | none => { watch with limit := some endKey }
  | some _ => watch

/-- A watch that is due already cannot be cancelled any more. -/
def Watch.cancel : Watch := if watch.due then watch else { watch with cancelled := true }

end Record

def History.change (history : History) (handle : Nat) (change : Watch → Watch) : History :=
  if handle < history.next then
    { history with
      watches := Function.update history.watches handle (change (history.watches handle)) }
  else history

def History.changeAll (history : History) (change : Watch → Watch) : History :=
  { history with watches := fun handle => change (history.watches handle) }

def History.step (history : History) : Event → History
  | .find index domain ranges desc =>
    ⟨history.next + 1, Function.update history.watches history.next
      ⟨index, domain, ranges, desc, fun _ => [], fun _ => [], [], none, false⟩⟩
  | .notify txn index keys => history.changeAll fun watch => watch.notify txn index keys
  | .commit txn => history.changeAll fun watch => watch.commit txn
  | .abort txn => history.changeAll fun watch => watch.abort txn
  | .deliver txn handle => history.change handle fun watch => watch.deliver txn
  | .fire handle key => history.change handle fun watch => watch.arrive [key]
  | .close handle endKey => history.change handle fun watch => watch.close endKey
  | .cancel handle => history.change handle Watch.cancel

end Db8.Db.Watches
