import Db8.Bytes.Places
import Db8.DbEngine.LevelTxn

/-!
# The iterator of a table transaction

`MojDbLevelTxnIterator`: an iterator of the table that steps across deleted keys and an iterator of
the pending puts, merged. `next` and `prev` mirror each other and are one function of the direction;
`none` is a failed `MojAssert`, or a key taken from an iterator that has none.
-/

set_option autoImplicit false

namespace Db8.DbEngine.MojDbLevelTxn

open Db8.Bytes Db8.Bytes.Place

/-- `m_it` stands in the table and `m_insertsItertor` in the pending puts. -/
structure MojDbLevelTxnIterator where
  fwd : Bool
  invalid : Bool
  it : Place ByteString
  insertsIterator : Place ByteString

namespace MojDbLevelTxnIterator

variable (db : Table) (txn : MojDbLevelTableTxn)

/-- The loop of `skipDeleted`, with fuel for one round a key. -/
def skipDeleted (fwd : Bool) : Nat → Place ByteString → Place ByteString
  | 0, it => it
  | fuel + 1, it =>
    match it with
    | .on key =>
      if key ∈ txn.pendingDeletes then
        match advance fwd db.keys it with
        | some next => skipDeleted fwd fuel next
        | none => it
      else it
    | _ => it

/-- `++m_it; skipDeleted()`, or `--m_it; skipDeleted()`. -/
def advanceIt (fwd : Bool) (it : Place ByteString) : Option (Place ByteString) :=
  (advance fwd db.keys it).map (skipDeleted db txn fwd db.keys.length)

/-- `first` and `last`. -/
def toFront (fwd : Bool) : MojDbLevelTxnIterator where
  fwd := fwd
  invalid := false
  it := skipDeleted db txn fwd db.keys.length (nearest fwd db.keys fun _ => true)
  insertsIterator := nearest fwd txn.pendingValues.keys fun _ => true

def seek (key : ByteString) : MojDbLevelTxnIterator where
  fwd := true
  invalid := false
  it := skipDeleted db txn true db.keys.length
    (nearest true db.keys fun other => decide (key ≤ other))
  insertsIterator := nearest true txn.pendingValues.keys fun other => decide (key ≤ other)

variable (iterator : MojDbLevelTxnIterator)

def inTransaction : Bool :=
  match cmp iterator.it iterator.insertsIterator with
  | .lt => !iterator.fwd
  | .gt => iterator.fwd
  | .eq => true

def current : Place ByteString :=
  if iterator.inTransaction then iterator.insertsIterator else iterator.it

def getKey : Option ByteString := iterator.current.key?

def getValue : Option ByteString :=
  if iterator.inTransaction then iterator.insertsIterator.key?.bind txn.pendingValues.find
  else iterator.it.key?.bind db.find

def isValid : Bool :=
  !iterator.invalid && (iterator.it.key?.isSome || iterator.insertsIterator.key?.isSome)

/-- `isEnd` for the ascending direction and `isBegin` for the other. -/
def AtTail (fwd : Bool) : Prop :=
  iterator.it = tail fwd ∧ iterator.insertsIterator = tail fwd

instance (fwd : Bool) : Decidable (iterator.AtTail fwd) :=
  inferInstanceAs (Decidable (_ ∧ _))

def entry : Option (ByteString × ByteString) :=
  if iterator.isValid then
    iterator.getKey.bind fun key => (iterator.getValue db txn).map fun val => (key, val)
  else none

/-- The end of `next` and `prev`: whichever iterator is behind goes on, or both do. -/
def moveOn (fwd : Bool) : Option MojDbLevelTxnIterator :=
  if iterator.insertsIterator = tail fwd then
    (advanceIt db txn fwd iterator.it).map fun it => { iterator with it := it }
  else if iterator.it = tail fwd then
    (advance fwd txn.pendingValues.keys iterator.insertsIterator).map fun inserts =>
      { iterator with insertsIterator := inserts }
  else if iterator.it = head fwd ∨ iterator.insertsIterator = head fwd then none
  else if Past fwd iterator.it iterator.insertsIterator then
    (advanceIt db txn fwd iterator.it).map fun it => { iterator with it := it }
  else if iterator.it = iterator.insertsIterator then
    (advance fwd txn.pendingValues.keys iterator.insertsIterator).bind fun inserts =>
      (advanceIt db txn fwd iterator.it).map fun it =>
        { iterator with it := it, insertsIterator := inserts }
  else
    (advance fwd txn.pendingValues.keys iterator.insertsIterator).map fun inserts =>
      { iterator with insertsIterator := inserts }

def moveSame (fwd : Bool) : Option MojDbLevelTxnIterator :=
  if iterator.AtTail fwd then none
  else if iterator.AtTail !fwd then some (toFront db txn fwd)
  else if iterator.invalid then some { iterator with invalid := false }
  else iterator.moveOn db txn fwd

/-- The change of direction, up to the assertion that the current key is the same again. -/
def turn (fwd : Bool) (currentKey : ByteString) : Option MojDbLevelTxnIterator :=
  let turned := { iterator with fwd := fwd, invalid := false }
  if turned.it = head fwd then
    (advanceIt db txn fwd turned.it).map fun it => { turned with it := it }
  else if turned.insertsIterator = head fwd then
    (advance fwd txn.pendingValues.keys turned.insertsIterator).map fun inserts =>
      { turned with insertsIterator := inserts }
  else
    turned.getKey.bind fun key =>
      if Past fwd (.on key) (.on currentKey) then turned.moveSame db txn fwd else some turned

def move (fwd : Bool) : Option MojDbLevelTxnIterator :=
  if iterator.fwd = fwd then iterator.moveSame db txn fwd
  else if iterator.AtTail fwd then none
  else if iterator.AtTail !fwd then some (toFront db txn fwd)
  else
    iterator.getKey.bind fun currentKey =>
      (iterator.turn db txn fwd currentKey).bind fun turned =>
        if turned.getKey = some currentKey then turned.moveOn db txn fwd else none

def next : Option MojDbLevelTxnIterator := iterator.move db txn true

def prev : Option MojDbLevelTxnIterator := iterator.move db txn false

/-- After a put: a new key between the two iterators is the next one of the transaction. -/
def notifyPut (key : ByteString) : Option MojDbLevelTxnIterator :=
  if Past iterator.fwd (.on key) iterator.it ∨
      ¬ Past iterator.fwd (.on key) iterator.insertsIterator then some iterator
  else
    (advance (!iterator.fwd) txn.pendingValues.keys iterator.insertsIterator).map fun inserts =>
      { iterator with insertsIterator := inserts }

/-- Before a deletion. Its assertion cannot fail where the iterator of the puts is at a key. -/
def notifyDelete (key : ByteString) : Option MojDbLevelTxnIterator :=
  if iterator.insertsIterator ≠ .on key then some iterator
  else
    (if iterator.it = iterator.insertsIterator then advanceIt db txn iterator.fwd iterator.it
      else some iterator.it).bind fun it =>
      (advance iterator.fwd txn.pendingValues.keys iterator.insertsIterator).map fun inserts =>
        { iterator with it := it, insertsIterator := inserts, invalid := true }

end MojDbLevelTxnIterator

inductive IteratorOp
  | seekToFirst
  | seekToLast
  | seek (key : ByteString)
  | next
  | prev
  | put (key val : ByteString)
  | delete (key : ByteString)
deriving DecidableEq

structure Opened where
  txn : MojDbLevelTableTxn
  iterator : MojDbLevelTxnIterator

namespace Opened

/-- `createIterator`. -/
def create (db : Table) (txn : MojDbLevelTableTxn) : Opened := ⟨txn, .toFront db txn true⟩

def step (db : Table) (op : IteratorOp) (opened : Opened) : Option Opened :=
  match op with
  | .seekToFirst => some { opened with iterator := .toFront db opened.txn true }
  | .seekToLast => some { opened with iterator := .toFront db opened.txn false }
  | .seek key => some { opened with iterator := .seek db opened.txn key }
  | .next => (opened.iterator.next db opened.txn).map fun iterator =>
    { opened with iterator := iterator }
  | .prev => (opened.iterator.prev db opened.txn).map fun iterator =>
    { opened with iterator := iterator }
  | .put key val =>
    let txn := opened.txn.put key val
    (opened.iterator.notifyPut txn key).map fun iterator => ⟨txn, iterator⟩
  | .delete key => (opened.iterator.notifyDelete db opened.txn key).map fun iterator =>
    ⟨opened.txn.delete key, iterator⟩

end Opened

end Db8.DbEngine.MojDbLevelTxn
