import Db8.DbEngine.LevelRefines

/-!
# What a LevelDB transaction reads and what its commit leaves

The reads of a table transaction, by key and by iteration, are those of the table with the operations
done to it one after another, and a commit leaves that table. An environment transaction commits one
table after the other and takes none of them back.
-/

set_option autoImplicit false

namespace Db8.DbEngine.MojDbLevelTxn

open Db8.Bytes Db8.Bytes.Place Db8.Core

/-- What is read from an iterator that goes in one direction while it is valid. -/
def iterate (db : Table) (txn : MojDbLevelTableTxn) (fwd : Bool) :
    Nat → MojDbLevelTxnIterator → List (ByteString × ByteString)
  | 0, _ => []
  | fuel + 1, iterator =>
    match iterator.entry db txn with
    | none => []
    | some entry =>
      entry ::
        match iterator.move db txn fwd with
        | none => []
        | some next => iterate db txn fwd fuel next

theorem iterate_follows {db : Table} {txn : MojDbLevelTableTxn} {fwd : Bool} (fuel : Nat)
    {iterator : MojDbLevelTxnIterator} {cursor : Cursor} (follows : Follows db txn iterator cursor)
    (same : iterator.fwd = fwd) :
    iterate db txn fwd fuel iterator = cursor.walk fwd fuel := by
  induction fuel generalizing iterator cursor with
  | zero => rfl
  | succ fuel ih =>
    unfold iterate MapCursor.walk
    rw [follows.entry]
    cases read : cursor.entry with
    | none => rfl
    | some entry =>
      have placed : cursor.pos ≠ tail fwd := by
        intro ended
        rw [MapCursor.entry, ended, key?_tail] at read
        cases read
      have valid : iterator.invalid = false := by
        by_contra marked
        rcases follows.invalid.mp (Bool.eq_true_of_not_eq_false marked) with ⟨key, here, hidden⟩
        rw [MapCursor.entry, here, key?, Option.bind_some,
          (SortedMap.find_eq_none_iff _ _).mpr (mt (follows.mem_view key).mpr hidden)] at read
        cases read
      have unended : ¬ iterator.AtTail iterator.fwd := by
        rw [iterator.atTail_iff, follows.current_of_valid valid, same]
        exact placed
      rcases follows.moveSame unended with ⟨next, moved, went, goes, keeps, followsNext⟩
      have onward : iterator.move db txn fwd = some next := by
        rw [MojDbLevelTxnIterator.move, if_pos same, ← same, went]
      rw [onward, ← same, goes]
      exact congrArg (entry :: ·) (same ▸ ih followsNext (keeps.trans same))

theorem iterate_toFront (db : Table) (txn : MojDbLevelTableTxn) (fwd : Bool) {view : Table}
    (shown : ∀ key, txn.get db key = view.find key) {fuel : Nat}
    (enough : view.entries.length ≤ fuel) :
    iterate db txn fwd fuel (.toFront db txn fwd) = line fwd view.entries := by
  have follows : Follows db txn (.toFront db txn fwd)
      (MapCursor.front fwd ⟨view, .start⟩) := follows_toFront shown fwd
  have sameWay : (MojDbLevelTxnIterator.toFront db txn fwd).fwd = fwd := rfl
  rw [iterate_follows fuel follows sameWay]
  exact MapCursor.walk_front ⟨view, .start⟩ enough

theorem commitImpl_dbs (tables : List (TableState × Option MojErr)) (accErr : Option MojErr) :
    (commitImpl tables accErr).1.map TableState.db =
      tables.map fun table =>
        if table.2 = none then overridden table.1.db table.1.txn.writeBatch else table.1.db := by
  induction tables generalizing accErr with
  | nil => rfl
  | cons table tables ih =>
    rcases table with ⟨table, status⟩
    simp only [commitImpl, List.map_cons, ih]
    cases status <;> rfl

theorem commitImpl_err (tables : List (TableState × Option MojErr)) (accErr : Option MojErr) :
    (commitImpl tables accErr).2 = (tables.filterMap Prod.snd).getLast?.orElse fun _ => accErr := by
  induction tables generalizing accErr with
  | nil => rfl
  | cons table tables ih =>
    rcases table with ⟨table, status⟩
    simp only [commitImpl, ih]
    cases status with
    | none => rfl
    | some err =>
      simp only [List.filterMap_cons, TableState.commitImpl, List.getLast?_cons]
      cases (tables.filterMap Prod.snd).getLast? <;> rfl

/-- A table transaction after its operations, on the table it was begun on. -/
def begun (db : Table) (ops : List TxnOp) : TableState :=
  ⟨db, ops.foldl MojDbLevelTableTxn.apply .init⟩

/-- A transaction reads the overridden table, and each table is left overridden by a commit if its own
write succeeded; the commit of several tables returns the last of their errors. -/
theorem txn_overrides :
    (∀ (db : Table) (ops : List TxnOp),
      (∀ key, (begun db ops).txn.get db key = (overridden db ops).find key) ∧
      (∀ (fwd : Bool) (spare : Nat),
        iterate db (begun db ops).txn fwd ((overridden db ops).entries.length + spare)
          (.toFront db (begun db ops).txn fwd) = line fwd (overridden db ops).entries) ∧
      (begun db ops).commitImpl none = (⟨overridden db ops, .init⟩, none) ∧
      (∀ err, (begun db ops).commitImpl (some err) = (begun db ops, some err)) ∧
      (begun db ops).abort = ⟨db, .init⟩) ∧
    ∀ tables : List (Table × List TxnOp × Option MojErr),
      let committed :=
        commitImpl (tables.map fun table => (begun table.1 table.2.1, table.2.2)) none
      committed.1.map TableState.db = tables.map (fun table =>
        if table.2.2 = none then overridden table.1 table.2.1 else table.1) ∧
      committed.2 = (tables.filterMap fun table => table.2.2).getLast? := by
  have gets : ∀ db ops key, (begun db ops).txn.get db key = (overridden db ops).find key :=
    fun db ops => MojDbLevelTableTxn.get_foldl db .init ops db fun _ => rfl
  constructor
  · intro db ops
    refine ⟨gets db ops, ?_, ?_, fun _ => rfl, rfl⟩
    · intro fwd spare
      exact iterate_toFront db _ fwd (gets db ops) (Nat.le_add_right _ spare)
    · exact congrArg (fun table => (TableState.mk table .init, none))
        (overridden_writeBatch db ops)
  · intro tables
    constructor
    · rw [commitImpl_dbs, List.map_map]
      apply List.map_congr_left
      intro table _
      simp only [Function.comp_apply, begun, overridden_writeBatch]
    · rw [commitImpl_err, List.filterMap_map]
      exact Option.orElse_eq_or.trans Option.or_none

/-- The second of two tables cannot be written and the first is changed. -/
theorem commit_not_atomic :
    ¬ ∀ tables : List (Table × List TxnOp × Option MojErr),
      let committed :=
        commitImpl (tables.map fun table => (begun table.1 table.2.1, table.2.2)) none
      committed.2 ≠ none → committed.1.map TableState.db = tables.map Prod.fst := by
  intro atomic
  have unchanged := atomic
    [(.empty, [.put [1] [1]], none), (.empty, [.put [2] [2]], some .dbDeadlock)] (by decide)
  have sizes := congrArg (List.map fun table : Table => table.entries.length) unchanged
  revert sizes
  decide

end Db8.DbEngine.MojDbLevelTxn
