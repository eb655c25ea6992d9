import Db8.Bytes.SortedMap
import Db8.Core.Err

/-!
# Transactions of the LevelDB engine

`MojDbLevelTxn.cpp`. A table transaction holds its puts and its deletes apart and reads through both
to the table; a commit hands them to the table in one batch. LevelDB itself stays outside: a table is
a sorted map, and a write of a batch does all of it in order or, when it answers with an error, none.
-/

set_option autoImplicit false

namespace Db8.DbEngine.MojDbLevelTxn

open Db8.Bytes Db8.Core

abbrev Table := SortedMap ByteString ByteString

structure MojDbLevelTableTxn where
  pendingValues : SortedMap ByteString ByteString
  pendingDeletes : SortedSet ByteString
  disjoint : ∀ key, key ∈ pendingDeletes → key ∉ pendingValues.keys

inductive TxnOp
  | put (key val : ByteString)
  | delete (key : ByteString)
deriving DecidableEq

namespace MojDbLevelTableTxn

def init : MojDbLevelTableTxn := ⟨.empty, .empty, fun _ absent => absurd absent (SortedSet.not_mem_empty _)⟩

def put (key val : ByteString) (txn : MojDbLevelTableTxn) : MojDbLevelTableTxn where
  pendingValues := txn.pendingValues.put key val
  pendingDeletes := txn.pendingDeletes.del key
  disjoint := by
    intro other deleted pending
    rcases (SortedSet.mem_del _ _ _).mp deleted with ⟨deleted, different⟩
    rcases (SortedMap.mem_keys_put _ _ _ _).mp pending with same | pending
    · exact different same
    · exact txn.disjoint other deleted pending

def delete (key : ByteString) (txn : MojDbLevelTableTxn) : MojDbLevelTableTxn where
  pendingValues := txn.pendingValues.del key
  pendingDeletes := txn.pendingDeletes.put key
  disjoint := by
    intro other deleted pending
    rcases (SortedMap.mem_keys_del _ _ _).mp pending with ⟨pending, different⟩
    rcases (SortedSet.mem_put _ _ _).mp deleted with same | deleted
    · exact different same
    · exact txn.disjoint other deleted pending

def apply (txn : MojDbLevelTableTxn) : TxnOp → MojDbLevelTableTxn
  | .put key val => txn.put key val
  | .delete key => txn.delete key

def get (db : Table) (txn : MojDbLevelTableTxn) (key : ByteString) : Option ByteString :=
  if key ∈ txn.pendingDeletes then none
  else
    match txn.pendingValues.find key with
    | some val => some val
    | none => db.find key

/-- The batch that `commitImpl` fills: all deletes, then all puts. -/
def writeBatch (txn : MojDbLevelTableTxn) : List TxnOp :=
  txn.pendingDeletes.elems.map TxnOp.delete ++
    txn.pendingValues.entries.map fun entry => TxnOp.put entry.1 entry.2

end MojDbLevelTableTxn

def write (db : Table) : TxnOp → Table
  | .put key val => db.put key val
  | .delete key => db.del key

/-- The contents of a table overridden by operations, the last one on a key having the say. -/
def overridden (db : Table) (ops : List TxnOp) : Table := ops.foldl write db

structure TableState where
  db : Table
  txn : MojDbLevelTableTxn

namespace TableState

/-- `MojDbLevelTableTxn::commitImpl`; `status` is the answer of `db->Write`. -/
def commitImpl (table : TableState) (status : Option MojErr) : TableState × Option MojErr :=
  match status with
  | some err => (table, some err)
  | none => (⟨overridden table.db table.txn.writeBatch, .init⟩, none)

def abort (table : TableState) : TableState := { table with txn := .init }

end TableState

/-- `MojDbLevelEnvTxn::commitImpl`: every table is committed, and of the errors the last is kept. -/
def commitImpl : List (TableState × Option MojErr) → Option MojErr → List TableState × Option MojErr
  | [], accErr => ([], accErr)
  | (table, status) :: rest, accErr =>
    let (table, err) := table.commitImpl status
    let (tables, accErr) := commitImpl rest (err.orElse fun _ => accErr)
    (table :: tables, accErr)

namespace MojDbLevelTableTxn

variable (db : Table) (txn : MojDbLevelTableTxn)

theorem get_put (key val other : ByteString) :
    (txn.put key val).get db other = if key = other then some val else txn.get db other := by
  unfold get put
  dsimp only
  rw [SortedMap.find_put]
  by_cases same : key = other
  · subst same
    simp
  · simp [same, Ne.symm same]

theorem get_delete (key other : ByteString) :
    (txn.delete key).get db other = if key = other then none else txn.get db other := by
  unfold get delete
  dsimp only
  rw [SortedMap.find_del]
  by_cases same : key = other
  · subst same
    simp
  · simp [same, Ne.symm same]

theorem get_apply (op : TxnOp) (view : Table) (shown : ∀ key, txn.get db key = view.find key)
    (key : ByteString) : (txn.apply op).get db key = (write view op).find key := by
  cases op with
  | put name val => rw [apply, get_put, write, SortedMap.find_put, shown]
  | delete name => rw [apply, get_delete, write, SortedMap.find_del, shown]

theorem get_foldl (ops : List TxnOp) (view : Table) (shown : ∀ key, txn.get db key = view.find key)
    (key : ByteString) : (ops.foldl apply txn).get db key = (overridden view ops).find key := by
  induction ops generalizing txn view with
  | nil => exact shown key
  | cons op ops ih => exact ih (txn.apply op) (write view op) (txn.get_apply db op view shown)

end MojDbLevelTableTxn

theorem find_deleted (keys : List ByteString) (db : Table) (key : ByteString) :
    (overridden db (keys.map TxnOp.delete)).find key = if key ∈ keys then none else db.find key := by
  induction keys generalizing db with
  | nil => rfl
  | cons name keys ih =>
    refine (ih (db.del name)).trans ?_
    rw [SortedMap.find_del]
    by_cases same : name = key
    · simp [same]
    · simp [same, Ne.symm same]

theorem find_written (entries : List (ByteString × ByteString)) (db : Table) (key : ByteString)
    (nodup : (entries.map Prod.fst).Nodup) :
    (overridden db (entries.map fun entry => TxnOp.put entry.1 entry.2)).find key =
      match SortedMap.findEntry key entries with
      | some val => some val
      | none => db.find key := by
  induction entries generalizing db with
  | nil => rfl
  | cons entry entries ih =>
    rw [List.map_cons, List.nodup_cons] at nodup
    refine (ih (db.put entry.1 entry.2) nodup.2).trans ?_
    rw [SortedMap.find_put, SortedMap.findEntry]
    by_cases same : entry.1 = key
    · rw [SortedMap.findEntry_none (same ▸ nodup.1), if_pos same, if_pos same]
    · rw [if_neg same, if_neg same]

theorem find_writeBatch (db : Table) (txn : MojDbLevelTableTxn) (key : ByteString) :
    (overridden db txn.writeBatch).find key = txn.get db key := by
  unfold MojDbLevelTableTxn.writeBatch overridden
  rw [List.foldl_append]
  refine (find_written _ _ key txn.pendingValues.keys_nodup).trans ?_
  have deletes := find_deleted txn.pendingDeletes.elems db key
  unfold overridden at deletes
  rw [deletes]
  unfold MojDbLevelTableTxn.get
  by_cases deleted : key ∈ txn.pendingDeletes
  · have absent := (SortedMap.find_eq_none_iff _ _).mpr (txn.disjoint key deleted)
    unfold SortedMap.find at absent
    rw [absent, if_pos deleted, if_pos ((SortedSet.mem_def _ _).mp deleted)]
  · rw [if_neg deleted, if_neg fun member => deleted ((SortedSet.mem_def _ _).mpr member)]
    rfl

theorem overridden_writeBatch (db : Table) (ops : List TxnOp) :
    overridden db (ops.foldl MojDbLevelTableTxn.apply .init).writeBatch = overridden db ops := by
  apply SortedMap.ext_find
  intro key
  rw [find_writeBatch]
  exact MojDbLevelTableTxn.get_foldl db .init ops db (fun _ => rfl) key

end Db8.DbEngine.MojDbLevelTxn
