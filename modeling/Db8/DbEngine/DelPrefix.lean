import Db8.Db.Key
import Db8.Db.QuotaFreeing
import Db8.DbEngine.LevelRefines

/-!
# Dropping an index

`MojDbLevelIndex::drop`: the keys of an index begin with the id of the index, and `delPrefix`
deletes what begins with it, one record after the other, through the iterator it scans with. A
deletion leaves the iterator at a key that is gone, or ahead of it where the key was pending as a
put.
-/

set_option autoImplicit false

namespace Db8.DbEngine.DelPrefix

open Db8.Bytes Db8.Bytes.Place Db8.Core Db8.Db
open MojDbLevelTxn MojDbLevelTxnIterator

structure MojDbLevelCursor where
  opened : Opened
  quotaTxn : MojDbStorageTxn

def size (record : ByteString × ByteString) : Nat := record.1.length + record.2.length

namespace MojDbLevelCursor

/-- `open`. -/
def create (db : Table) (txn : MojDbLevelTableTxn) (quotaTxn : MojDbStorageTxn) :
    MojDbLevelCursor :=
  ⟨.create db txn, quotaTxn⟩

variable (db : Table) (engine : MojDbQuotaEngine) (cursor : MojDbLevelCursor)

def recSize : Nat := (cursor.opened.iterator.entry db cursor.opened.txn).elim 0 size

def keyStartsWith (key : ByteString) : Bool :=
  cursor.opened.iterator.getKey.any fun current => decide (key <+: current)

def del : Option (Except MojErr MojDbLevelCursor) :=
  cursor.opened.iterator.getKey.bind fun key =>
    (cursor.opened.step db (.delete key)).map fun opened =>
      (engine.offsetQuota (-(cursor.recSize db : Int)) cursor.quotaTxn).map fun quotaTxn =>
        ⟨opened, quotaTxn⟩

def next : Option MojDbLevelCursor :=
  (cursor.opened.step db .next).map fun opened => { cursor with opened := opened }

def seek (key : ByteString) : MojDbLevelCursor :=
  { cursor with
    opened := { cursor.opened with iterator := .seek db cursor.opened.txn key } }

/-- The loop of `delPrefix`, with fuel for one round a record. -/
def delRecords (searchKey : ByteString) :
    Nat → MojDbLevelCursor → Option (Except MojErr MojDbLevelCursor)
  | 0, _ => none
  | fuel + 1, cursor =>
    if cursor.opened.iterator.isValid && cursor.keyStartsWith searchKey then
      (cursor.del db engine).bind fun deleted =>
        match deleted with
        | .error err => some (.error err)
        | .ok after => (after.next db).bind fun next => delRecords searchKey fuel next
    else some (.ok cursor)

def delPrefix (searchKey : ByteString) : Option (Except MojErr MojDbLevelCursor) :=
  delRecords db engine searchKey ((view db cursor.opened.txn).entries.length + 1)
    (cursor.seek db searchKey)

end MojDbLevelCursor

def MojDbLevelIndex.drop (db : Table) (engine : MojDbQuotaEngine) (id : MojObject)
    (txn : MojDbLevelTableTxn) (quotaTxn : MojDbStorageTxn) :
    Option (Except MojErr MojDbLevelCursor) :=
  (MojDbLevelCursor.create db txn quotaTxn).delPrefix db engine (MojDbKey.assign id none)

section Records

variable {db : Table} {opened : Opened} {cursor : MojDbLevelTxn.Cursor}
  {front rest : List (ByteString × ByteString)} {record : ByteString × ByteString}

variable {txn : MojDbLevelTableTxn} {iterator : MojDbLevelTxnIterator} {key : ByteString}

theorem inserts_here_iff (follows : Follows db txn iterator cursor)
    (valid : iterator.invalid = false) (here : cursor.pos = .on key) :
    iterator.insertsIterator = .on key ↔ key ∈ txn.pendingValues.keys := by
  have current := (follows.current_of_valid valid).trans here
  rw [current_eq] at current
  constructor
  · exact fun at_ => (follows.inserting.stands key at_).1
  · intro pending
    apply Upto.antisymm (follows.inserting.least key ⟨pending, here ▸ upto_refl _ _⟩)
    rw [← current]
    exact nearer_upto_inserts

theorem advanceIt_delete {fwd : Bool} (key : ByteString) :
    advanceIt db (txn.delete key) fwd (.on key) = advanceIt db txn fwd (.on key) := by
  obtain ⟨one, oneAdvanced, oneNearest⟩ : ∃ next, advanceIt db (txn.delete key) fwd (.on key) =
      some next ∧ Nearest fwd (fun other => Undeleted db (txn.delete key) other ∧
        Beyond fwd (.on key) other) next := advanceIt_spec (on_ne_tail fwd key)
  obtain ⟨two, twoAdvanced, twoNearest⟩ : ∃ next, advanceIt db txn fwd (.on key) = some next ∧
      Nearest fwd (fun other => Undeleted db txn other ∧ Beyond fwd (.on key) other) next :=
    advanceIt_spec (on_ne_tail fwd key)
  rw [oneAdvanced, twoAdvanced]
  refine congrArg some (oneNearest.unique (twoNearest.of_iff ?_))
  intro other
  apply and_congr_left
  intro beyond
  have different : other ≠ key := by
    rintro rfl
    exact not_past_self fwd _ beyond
  constructor
  · intro undeleted
    refine ⟨undeleted.1, fun gone => undeleted.2 ?_⟩
    exact (SortedSet.mem_put _ _ _).mpr (Or.inr gone)
  · intro undeleted
    exact undeleted_delete undeleted different

theorem moveSame_delete (follows : Follows db txn iterator cursor)
    (valid : iterator.invalid = false) (here : cursor.pos = .on key)
    (elsewhere : iterator.insertsIterator ≠ .on key) :
    iterator.moveSame db (txn.delete key) iterator.fwd = iterator.moveSame db txn iterator.fwd := by
  have current := (follows.current_of_valid valid).trans here
  rw [current_eq, nearer] at current
  have ahead : Past iterator.fwd iterator.it iterator.insertsIterator := by
    by_contra level
    rw [if_neg level] at current
    exact elsewhere current
  rw [if_pos ahead] at current
  have going : ¬ iterator.AtTail iterator.fwd := fun ended =>
    on_ne_tail iterator.fwd key (current.symm.trans ended.1)
  have unended : iterator.it ≠ tail iterator.fwd := current ▸ on_ne_tail iterator.fwd key
  have begun : ¬ (iterator.it = head iterator.fwd ∨ iterator.insertsIterator = head iterator.fwd) :=
    not_or.mpr ⟨follows.steady.begun, follows.inserting.reached⟩
  have advances : advanceIt db (txn.delete key) iterator.fwd iterator.it =
      advanceIt db txn iterator.fwd iterator.it := by
    rw [current]
    exact advanceIt_delete key
  unfold moveSame moveOn
  simp only [if_neg going, if_neg follows.not_atHead, valid, if_neg unended, if_neg begun,
    if_pos ahead, advances]

theorem place_rest {map : SortedMap ByteString ByteString}
    (split : map.entries = front ++ record :: rest) {pos : Place ByteString}
    (nearest : Nearest true (fun key => key ∈ map.keys ∧ Past true (.on record.1) (.on key)) pos) :
    pos = MapCursor.placeOf true rest := by
  have order := MapCursor.line_entries_sorted true map
  have whole : line true map.entries = (front ++ [record]) ++ rest := by
    rw [List.append_assoc]
    exact split
  rw [line, if_pos rfl, split, List.pairwise_append] at order
  apply nearest.unique (MapCursor.nearest_placeOf whole _ _)
  · intro entry before
    rw [not_past]
    rcases List.mem_append.mp before with before | same
    · exact (order.2.2 entry before record List.mem_cons_self).upto
    · rw [List.mem_singleton.mp same]
      exact upto_refl true _
  · exact fun entry behind => (List.pairwise_cons.mp order.2.1).1 entry behind

theorem beyond_del {map : SortedMap ByteString ByteString} (key other : ByteString) :
    other ∈ (map.del key).keys ∧ Past true (.on key) (.on other) ↔
      other ∈ map.keys ∧ Past true (.on key) (.on other) := by
  rw [SortedMap.mem_keys_del, and_assoc]
  apply and_congr_right
  intro _
  constructor
  · exact fun both => both.2
  · intro beyond
    refine ⟨?_, beyond⟩
    rintro rfl
    exact not_past_self true _ beyond

theorem current_rest (follows : Follows db (txn.delete record.1) iterator (cursor.del record.1))
    (forward : iterator.fwd = true) (split : cursor.view.entries = front ++ record :: rest)
    (here : cursor.pos = .on record.1) : iterator.current = MapCursor.placeOf true rest := by
  have nearest := follows.nearest_current
  rw [forward] at nearest
  apply place_rest split
  apply nearest.of_iff
  intro other
  rw [← beyond_del, follows.mem_view]
  apply and_congr_right
  intro member
  have different := ((SortedMap.mem_keys_del _ _ _).mp member).2
  change _ ↔ Upto true cursor.pos (.on other)
  rw [here]
  constructor
  · exact Past.upto
  · intro upto
    apply upto.past_of_ne
    intro same
    cases same
    exact different rfl

theorem entry_at (split : cursor.view.entries = front ++ record :: rest)
    (here : cursor.pos = .on record.1) : cursor.entry = some record := by
  have stored : record ∈ cursor.view.entries := by
    rw [split]
    simp
  rw [MapCursor.entry, here, key?, Option.bind_some,
    (cursor.view.find_eq_some_iff record.1 record.2).mpr stored]
  rfl

theorem move_cases {moved : MojDbLevelTxn.Cursor} (goes : cursor.move true = some moved)
    (here : cursor.pos = .on record.1) : moved.view = cursor.view ∧
      Nearest true (fun key => key ∈ cursor.view.keys ∧ Past true (.on record.1) (.on key))
        moved.pos := by
  have going : cursor.pos ≠ tail true := here ▸ on_ne_tail true _
  rcases cursor.move_spec true going with ⟨pos, moves, nearest⟩
  rw [goes, Option.some.injEq] at moves
  rw [moves, ← here]
  exact ⟨rfl, nearest⟩

theorem goes_rest {moved : MojDbLevelTxn.Cursor}
    (goes : (cursor.del record.1).move true = some moved)
    (split : cursor.view.entries = front ++ record :: rest) (here : cursor.pos = .on record.1) :
    moved.view.entries = front ++ rest ∧ moved.pos = MapCursor.placeOf true rest := by
  rcases @move_cases (cursor.del record.1) record moved goes here with ⟨view, nearest⟩
  rw [view]
  refine ⟨SortedMap.entries_del split, place_rest split (nearest.of_iff ?_)⟩
  exact fun other => (beyond_del _ _).symm

theorem move_past {pos : Place ByteString} {among : ByteString → Prop}
    (nearest : Nearest true (fun other => among other ∧ Past true (.on key) (.on other)) pos) :
    Past true (.on key) pos := by
  by_cases ended : pos = tail true
  · rw [ended]
    exact (upto_tail true _).past_of_ne (on_ne_tail true key)
  · rcases exists_key nearest.reached ended with ⟨other, rfl⟩
    exact (nearest.stands other rfl).2

theorem notifyDelete_fwd {iterator next : MojDbLevelTxnIterator}
    (deleted : iterator.notifyDelete db txn key = some next) : next.fwd = iterator.fwd := by
  unfold notifyDelete at deleted
  by_cases elsewhere : iterator.insertsIterator ≠ .on key
  · rw [if_pos elsewhere] at deleted
    cases deleted
    rfl
  · rw [if_neg elsewhere] at deleted
    rcases Option.bind_eq_some_iff.mp deleted with ⟨it, -, advanced⟩
    rcases Option.map_eq_some_iff.mp advanced with ⟨inserts, -, rfl⟩
    rfl

theorem valid_of_rest (follows : Follows db txn iterator cursor)
    (split : cursor.view.entries = front ++ rest)
    (placed : cursor.pos = MapCursor.placeOf true rest) : iterator.invalid = false := by
  by_contra marked
  rcases follows.invalid.mp (Bool.eq_true_of_not_eq_false marked) with ⟨key, there, hidden⟩
  cases rest with
  | nil =>
    rw [placed] at there
    cases there
  | cons entry rest =>
    rw [placed] at there
    cases there
    apply hidden
    rw [follows.mem_view, SortedMap.keys, split]
    simp

/-- What a record is deleted with and the step behind it. The step runs into its assertion where the
last key of all was pending as a put; elsewhere it goes to the next record. -/
theorem delete_next (follows : Follows db opened.txn opened.iterator cursor)
    (forward : opened.iterator.fwd = true) (valid : opened.iterator.invalid = false)
    (split : cursor.view.entries = front ++ record :: rest) (here : cursor.pos = .on record.1) :
    ∃ deleted, opened.step db (.delete record.1) = some deleted ∧
      (rest = [] ∧ record.1 ∈ opened.txn.pendingValues.keys ∧ deleted.step db .next = none ∨
        ¬ (rest = [] ∧ record.1 ∈ opened.txn.pendingValues.keys) ∧
          ∃ next moved, deleted.step db .next = some next ∧
            next.txn = opened.txn.delete record.1 ∧ next.iterator.fwd = true ∧
            next.iterator.invalid = false ∧ Follows db next.txn next.iterator moved ∧
            moved.view.entries = front ++ rest ∧
            moved.pos = MapCursor.placeOf true rest) := by
  have inserts := inserts_here_iff follows valid here
  by_cases pending : record.1 ∈ opened.txn.pendingValues.keys
  · have insertsHere := inserts.mpr pending
    have current := (follows.current_of_valid valid).trans here
    have careful : CarefulDelete record.1 opened.iterator := by
      refine ⟨fun _ => insertsHere, fun _ _ => ?_⟩
      rw [← current, current_eq]
      exact nearer_upto_it
    rcases follows.delete careful with ⟨iterator, deleted, followsDel⟩
    have sameFwd := (notifyDelete_fwd deleted).trans forward
    have place := current_rest followsDel sameFwd split here
    have atTail := iterator.atTail_iff
    rw [sameFwd, place] at atTail
    have steps : iterator.next db (opened.txn.delete record.1) =
        iterator.moveSame db (opened.txn.delete record.1) true := by
      rw [MojDbLevelTxnIterator.next, move, if_pos sameFwd]
    refine ⟨⟨opened.txn.delete record.1, iterator⟩, congrArg (Option.map _) deleted, ?_⟩
    cases rest with
    | nil =>
      refine Or.inl ⟨rfl, pending, ?_⟩
      rw [Opened.step, steps, moveSame, if_pos (atTail.mpr rfl)]
      rfl
    | cons entry rest =>
      have going : ¬ iterator.AtTail iterator.fwd := by
        rw [sameFwd, atTail]
        exact on_ne_tail true entry.1
      rcases followsDel.moveSame going with ⟨next, moved, went, goes, keeps, followsNext⟩
      rw [sameFwd] at went goes keeps
      have moves := goes_rest goes split here
      refine Or.inr ⟨fun both => List.cons_ne_nil entry rest both.1, ⟨_, next⟩, moved, ?_, rfl,
        keeps, ?_, followsNext, moves.1, moves.2⟩
      · rw [Opened.step, steps, went]
        rfl
      · exact valid_of_rest followsNext moves.1 moves.2
  · have elsewhere : opened.iterator.insertsIterator ≠ .on record.1 := mt inserts.mp pending
    refine ⟨⟨opened.txn.delete record.1, opened.iterator⟩, ?_,
      Or.inr ⟨fun both => pending both.2, ?_⟩⟩
    · simp only [Opened.step, notifyDelete, if_pos elsewhere, Option.map_some]
    have going : ¬ opened.iterator.AtTail opened.iterator.fwd := by
      rw [opened.iterator.atTail_iff, follows.current_of_valid valid, here]
      exact on_ne_tail _ _
    rcases follows.moveSame going with ⟨next, moved, went, goes, keeps, followsNext⟩
    rw [← moveSame_delete follows valid here elsewhere] at went
    rw [forward] at went goes keeps
    rcases move_cases goes here with ⟨view, nearest⟩
    have apart := move_past nearest
    have itElsewhere : next.it ≠ .on record.1 := by
      intro at_
      have within := (followsNext.steady.stands record.1 at_).2
      rw [keeps] at within
      exact not_past.mpr within apart
    have insertsElsewhere : next.insertsIterator ≠ .on record.1 := by
      intro at_
      have within := (followsNext.inserting.stands record.1 at_).2
      rw [keeps] at within
      exact not_past.mpr within apart
    have careful : CarefulDelete record.1 next :=
      ⟨fun at_ => absurd at_ itElsewhere, fun at_ => absurd at_ insertsElsewhere⟩
    rcases followsNext.delete careful with ⟨same, unmoved, followsDel⟩
    rw [notifyDelete, if_pos insertsElsewhere, Option.some.injEq] at unmoved
    rw [← unmoved] at followsDel
    have entries : (moved.del record.1).view.entries = front ++ rest := by
      apply SortedMap.entries_del
      rw [view]
      exact split
    have placed : (moved.del record.1).pos = MapCursor.placeOf true rest :=
      place_rest split nearest
    refine ⟨⟨opened.txn.delete record.1, next⟩, moved.del record.1, ?_, rfl, keeps,
      valid_of_rest followsDel entries placed, followsDel, entries, placed⟩
    rw [Opened.step, MojDbLevelTxnIterator.next, move, if_pos forward, went]
    rfl

end Records

section Loop

variable {db : Table} {engine : MojDbQuotaEngine} {searchKey : ByteString}

def charges (records : List (ByteString × ByteString)) : List Int :=
  records.map fun record => -(size record : Int)

/-- The last of some records was pending as a put, and nothing comes behind them. -/
def LastPending (txn : MojDbLevelTableTxn) (block behind : List (ByteString × ByteString)) : Prop :=
  behind = [] ∧ ∃ record, block.getLast? = some record ∧ record.1 ∈ txn.pendingValues.keys

/-- The three ends of the loop: an error of the quota, an assertion, or the block is gone. -/
def Ends (db : Table) (engine : MojDbQuotaEngine) (cursor : MojDbLevelCursor)
    (front block behind : List (ByteString × ByteString))
    (result : Option (Except MojErr MojDbLevelCursor)) : Prop :=
  (∃ err, engine.offsetAll (charges block) cursor.quotaTxn = .error err ∧
    result = some (.error err)) ∨
  (∃ after, engine.offsetAll (charges block) cursor.quotaTxn = .ok after ∧
    LastPending cursor.opened.txn block behind ∧ result = none) ∨
  ∃ after last reached, engine.offsetAll (charges block) cursor.quotaTxn = .ok after ∧
    ¬ LastPending cursor.opened.txn block behind ∧ result = some (.ok ⟨last, after⟩) ∧
    Follows db last.txn last.iterator reached ∧ reached.view.entries = front ++ behind

theorem reads {opened : Opened} {cursor : MojDbLevelTxn.Cursor} {quotaTxn : MojDbStorageTxn}
    {front rest : List (ByteString × ByteString)} {record : ByteString × ByteString}
    (follows : Follows db opened.txn opened.iterator cursor)
    (valid : opened.iterator.invalid = false)
    (split : cursor.view.entries = front ++ record :: rest) (here : cursor.pos = .on record.1) :
    opened.iterator.getKey = some record.1 ∧ opened.iterator.isValid = true ∧
      (MojDbLevelCursor.mk opened quotaTxn).recSize db = size record := by
  have current := (follows.current_of_valid valid).trans here
  have entry := follows.entry.trans (entry_at split here)
  refine ⟨?_, ?_, ?_⟩
  · rw [getKey, current]
    rfl
  · by_contra invalid
    rw [MojDbLevelTxnIterator.entry, if_neg invalid] at entry
    cases entry
  · rw [MojDbLevelCursor.recSize, entry]
    rfl

theorem lastPending_cons {txn : MojDbLevelTableTxn} {map : Table}
    {front block behind : List (ByteString × ByteString)} {record : ByteString × ByteString}
    (split : map.entries = front ++ (record :: block ++ behind))
    (goes : ¬ (block ++ behind = [] ∧ record.1 ∈ txn.pendingValues.keys)) :
    LastPending (txn.delete record.1) block behind ↔ LastPending txn (record :: block) behind := by
  apply and_congr_right
  rintro rfl
  cases block with
  | nil =>
    apply iff_of_false
    · rintro ⟨last, isLast, -⟩
      cases isLast
    · rintro ⟨last, isLast, pending⟩
      cases isLast
      exact goes ⟨rfl, pending⟩
  | cons first block =>
    have nodup := map.keys_nodup
    rw [SortedMap.keys, split, List.append_nil, List.map_append, List.map_cons,
      List.nodup_append, List.nodup_cons] at nodup
    rw [List.getLast?_cons_cons]
    apply exists_congr
    intro last
    apply and_congr_right
    intro isLast
    have different : last.1 ≠ record.1 := by
      intro same
      apply nodup.2.1.1
      rw [← same]
      exact List.mem_map_of_mem (List.mem_of_getLast? isLast)
    change last.1 ∈ (txn.pendingValues.del record.1).keys ↔ _
    rw [SortedMap.mem_keys_del]
    exact and_iff_left different

theorem delRecords_ends (block : List (ByteString × ByteString))
    {behind front : List (ByteString × ByteString)} {fuel : Nat} {opened : Opened}
    {quotaTxn : MojDbStorageTxn} {cursor : MojDbLevelTxn.Cursor}
    (follows : Follows db opened.txn opened.iterator cursor)
    (forward : opened.iterator.fwd = true) (valid : opened.iterator.invalid = false)
    (split : cursor.view.entries = front ++ (block ++ behind))
    (here : cursor.pos = MapCursor.placeOf true (block ++ behind))
    (inside : ∀ record ∈ block, searchKey <+: record.1)
    (outside : ∀ record ∈ behind, ¬ searchKey <+: record.1) (enough : block.length < fuel) :
    Ends db engine ⟨opened, quotaTxn⟩ front block behind
      (MojDbLevelCursor.delRecords db engine searchKey fuel ⟨opened, quotaTxn⟩) := by
  induction block generalizing fuel opened quotaTxn cursor with
  | nil =>
    cases fuel with
    | zero => cases enough
    | succ fuel =>
      have current := (follows.current_of_valid valid).trans here
      have stops : (MojDbLevelCursor.mk opened quotaTxn).keyStartsWith searchKey = false := by
        rw [MojDbLevelCursor.keyStartsWith, getKey, current]
        cases behind with
        | nil => rfl
        | cons record behind => exact decide_eq_false (outside record List.mem_cons_self)
      refine Or.inr (Or.inr ⟨quotaTxn, opened, cursor, rfl, ?_, ?_, follows, split⟩)
      · rintro ⟨-, record, last, -⟩
        cases last
      · rw [MojDbLevelCursor.delRecords, stops, Bool.and_false, if_neg Bool.false_ne_true]
  | cons record block ih =>
    cases fuel with
    | zero => cases enough
    | succ fuel =>
      rcases @reads db opened cursor quotaTxn _ _ record follows valid split here with
        ⟨key, shows, counts⟩
      have goesOn : (MojDbLevelCursor.mk opened quotaTxn).keyStartsWith searchKey = true := by
        rw [MojDbLevelCursor.keyStartsWith, key]
        exact decide_eq_true (inside record List.mem_cons_self)
      rcases delete_next follows forward valid split here with ⟨deleted, deletes, next⟩
      have charging : engine.offsetAll (charges (record :: block)) quotaTxn =
          (engine.offsetQuota (-(size record : Int)) quotaTxn).bind
            (engine.offsetAll (charges block)) := rfl
      have del : (MojDbLevelCursor.mk opened quotaTxn).del db engine =
          some ((engine.offsetQuota (-(size record : Int)) quotaTxn).map
            fun quotaTxn => ⟨deleted, quotaTxn⟩) := by
        rw [MojDbLevelCursor.del, key, counts, Option.bind_some, deletes]
        rfl
      unfold Ends
      rw [MojDbLevelCursor.delRecords, shows, goesOn, Bool.and_true, if_pos rfl, del, charging]
      cases charged : engine.offsetQuota (-(size record : Int)) quotaTxn with
      | error err => exact Or.inl ⟨err, rfl, rfl⟩
      | ok after =>
        rcases next with ⟨nothing, pending, stuck⟩ | ⟨goes, next, moved, steps, sameTxn,
          forwardNext, validNext, followsNext, splitNext, placed⟩
        · rcases List.append_eq_nil_iff.mp nothing with ⟨rfl, rfl⟩
          refine Or.inr (Or.inl ⟨after, rfl, ⟨rfl, record, rfl, pending⟩, ?_⟩)
          change ((deleted.step db .next).map _).bind _ = none
          rw [stuck]
          rfl
        · have runs := @ih fuel next after moved followsNext forwardNext validNext splitNext
            placed (fun other member => inside other (List.mem_cons_of_mem record member))
            (Nat.lt_of_succ_lt_succ enough)
          have step : (MojDbLevelCursor.mk deleted after).next db = some ⟨next, after⟩ := by
            rw [MojDbLevelCursor.next, steps]
            rfl
          rw [Ends, sameTxn, lastPending_cons split goes] at runs
          dsimp only [Option.bind_some, Except.map]
          rw [step]
          exact runs

end Loop

section Sandwich

/-- The part of a database that a transaction has, with the iterator `delPrefix` opens on it.
Neither is in the repository; what is known of them is that the iterator moves like a cursor over
what the transaction reads, and that a deletion leaves it where it is. -/
structure Part (σ : Type) where
  seek : ByteString → σ → σ
  /-- `Valid`, `key` and `value`. -/
  entry : σ → Option (ByteString × ByteString)
  delete : ByteString → σ → Except MojErr σ
  next : σ → σ
  cursor : σ → MojDbLevelTxn.Cursor
  cursor_seek : ∀ key state, cursor (seek key state) = (cursor state).seek key
  entry_eq : ∀ state, entry state = (cursor state).entry
  cursor_delete : ∀ key state, ∃ after, delete key state = .ok after ∧
    cursor after = (cursor state).del key
  cursor_next : ∀ state moved, (cursor state).move true = some moved → cursor (next state) = moved

/-- A part that keeps what the transaction reads as a map, with a cursor on it. -/
def cursorPart : Part MojDbLevelTxn.Cursor where
  seek key state := state.seek key
  entry state := state.entry
  delete key state := .ok (state.del key)
  next state := (state.move true).getD state
  cursor state := state
  cursor_seek _ _ := rfl
  entry_eq _ := rfl
  cursor_delete _ _ := ⟨_, rfl, rfl⟩
  cursor_next state moved goes := by rw [goes, Option.getD_some]

namespace MojDbSandwichDatabase

variable {σ : Type} (part : Part σ) (engine : MojDbQuotaEngine) (searchKey : ByteString)

/-- The loop of `delPrefix`, with fuel for one round a record. -/
def delRecords : Nat → σ → MojDbStorageTxn → Option (Except MojErr (σ × MojDbStorageTxn))
  | 0, _, _ => none
  | fuel + 1, state, quotaTxn =>
    match part.entry state with
    | none => some (.ok (state, quotaTxn))
    | some record =>
      if searchKey <+: record.1 then
        match engine.offsetQuota (-(size record : Int)) quotaTxn with
        | .error err => some (.error err)
        | .ok quotaTxn =>
          match part.delete record.1 state with
          | .error err => some (.error err)
          | .ok deleted => delRecords fuel (part.next deleted) quotaTxn
      else some (.ok (state, quotaTxn))

def delPrefix (state : σ) (quotaTxn : MojDbStorageTxn) :
    Option (Except MojErr (σ × MojDbStorageTxn)) :=
  delRecords part engine searchKey ((part.cursor state).view.entries.length + 1)
    (part.seek searchKey state) quotaTxn

end MojDbSandwichDatabase

def MojDbSandwichIndex.drop {σ : Type} (part : Part σ) (engine : MojDbQuotaEngine) (id : MojObject)
    (state : σ) (quotaTxn : MojDbStorageTxn) : Option (Except MojErr (σ × MojDbStorageTxn)) :=
  MojDbSandwichDatabase.delPrefix part engine (MojDbKey.assign id none) state quotaTxn

theorem delRecords_part {σ : Type} {part : Part σ} {engine : MojDbQuotaEngine}
    {searchKey : ByteString} (block : List (ByteString × ByteString))
    {behind front : List (ByteString × ByteString)} {fuel : Nat} {state : σ}
    {quotaTxn : MojDbStorageTxn}
    (split : (part.cursor state).view.entries = front ++ (block ++ behind))
    (here : (part.cursor state).pos = MapCursor.placeOf true (block ++ behind))
    (inside : ∀ record ∈ block, searchKey <+: record.1)
    (outside : ∀ record ∈ behind, ¬ searchKey <+: record.1) (enough : block.length < fuel) :
    (∃ err, engine.offsetAll (charges block) quotaTxn = .error err ∧
      MojDbSandwichDatabase.delRecords part engine searchKey fuel state quotaTxn =
        some (.error err)) ∨
    ∃ after last, engine.offsetAll (charges block) quotaTxn = .ok after ∧
      MojDbSandwichDatabase.delRecords part engine searchKey fuel state quotaTxn =
        some (.ok (last, after)) ∧
      (part.cursor last).view.entries = front ++ behind := by
  induction block generalizing fuel state quotaTxn with
  | nil =>
    cases fuel with
    | zero => cases enough
    | succ fuel =>
      refine Or.inr ⟨quotaTxn, state, rfl, ?_, split⟩
      rw [MojDbSandwichDatabase.delRecords, part.entry_eq]
      cases behind with
      | nil =>
        rw [MapCursor.entry, here]
        rfl
      | cons record behind =>
        rw [entry_at split here]
        exact if_neg (outside record List.mem_cons_self)
  | cons record block ih =>
    cases fuel with
    | zero => cases enough
    | succ fuel =>
      have charging : engine.offsetAll (charges (record :: block)) quotaTxn =
          (engine.offsetQuota (-(size record : Int)) quotaTxn).bind
            (engine.offsetAll (charges block)) := rfl
      rw [MojDbSandwichDatabase.delRecords, part.entry_eq, entry_at split here, charging]
      dsimp only
      rw [if_pos (inside record List.mem_cons_self)]
      cases engine.offsetQuota (-(size record : Int)) quotaTxn with
      | error err => exact Or.inl ⟨err, rfl, rfl⟩
      | ok after =>
        rcases part.cursor_delete record.1 state with ⟨deleted, deletes, del⟩
        have going : (part.cursor deleted).pos ≠ tail true := by
          rw [del]
          exact (congrArg (· ≠ tail true) here).mpr (on_ne_tail true record.1)
        rcases (part.cursor deleted).move_spec true going with ⟨pos, moves, -⟩
        have next := part.cursor_next deleted _ moves
        rw [del] at moves
        have placed := goes_rest moves split here
        rw [del] at next
        rw [← next] at placed
        have runs := @ih fuel (part.next deleted) after placed.1 placed.2
          (fun other member => inside other (List.mem_cons_of_mem record member))
          (Nat.lt_of_succ_lt_succ enough)
        dsimp only
        rw [deletes]
        exact runs

end Sandwich

section Block

def records (view : Table) (searchKey : ByteString) : List (ByteString × ByteString) :=
  view.entries.filter fun record => decide (searchKey <+: record.1)

theorem split_records (searchKey : ByteString) (entries : List (ByteString × ByteString))
    (sorted : (entries.map Prod.fst).Pairwise (· < ·)) :
    ∃ front behind, entries =
        front ++ (entries.filter (fun record => decide (searchKey <+: record.1)) ++ behind) ∧
      (∀ record ∈ front, ¬ searchKey ≤ record.1) ∧
      ∀ record ∈ behind, searchKey ≤ record.1 ∧ ¬ searchKey <+: record.1 := by
  induction entries with
  | nil => exact ⟨[], [], rfl, by simp, by simp⟩
  | cons record rest ih =>
    rw [List.map_cons, List.pairwise_cons] at sorted
    have later : ∀ other ∈ rest, record.1 < other.1 := fun other member =>
      sorted.1 other.1 (List.mem_map_of_mem member)
    by_cases reached : searchKey ≤ record.1
    · by_cases starts : searchKey <+: record.1
      · rcases ih sorted.2 with ⟨front, behind, split, before, after⟩
        have first : front = [] := by
          apply List.eq_nil_iff_forall_not_mem.mpr
          intro other member
          have inside : other ∈ rest := by
            rw [split]
            exact List.mem_append_left _ member
          exact before other member (le_trans reached (later other inside).le)
        refine ⟨[], behind, ?_, by simp, after⟩
        rw [List.filter_cons, if_pos (decide_eq_true starts), List.nil_append, List.cons_append]
        exact congrArg (record :: ·) (by rw [first] at split; exact split)
      · have none_ : (record :: rest).filter (fun record => decide (searchKey <+: record.1)) =
            [] := by
          apply List.filter_eq_nil_iff.mpr
          intro other member
          rw [decide_eq_true_eq]
          intro inside
          rcases List.mem_cons.mp member with rfl | member
          · exact starts inside
          · exact starts (prefix_of_between reached (later other member).le inside)
        refine ⟨[], record :: rest, by rw [none_]; rfl, by simp, ?_⟩
        intro other member
        rcases List.mem_cons.mp member with rfl | member
        · exact ⟨reached, starts⟩
        · exact ⟨le_trans reached (later other member).le, fun inside =>
            starts (prefix_of_between reached (later other member).le inside)⟩
    · rcases ih sorted.2 with ⟨front, behind, split, before, after⟩
      have apart : ¬ searchKey <+: record.1 := fun starts => reached (le_of_starts starts)
      refine ⟨record :: front, behind, ?_, ?_, after⟩
      · rw [List.filter_cons, if_neg (by rw [decide_eq_true_eq]; exact apart), List.cons_append]
        exact congrArg (record :: ·) split
      · intro other member
        rcases List.mem_cons.mp member with rfl | member
        · exact reached
        · exact before other member

theorem records_split (view : Table) (searchKey : ByteString) :
    ∃ front behind, view.entries = front ++ (records view searchKey ++ behind) ∧
      (∀ record ∈ front, ¬ searchKey ≤ record.1) ∧
      ∀ record ∈ behind, searchKey ≤ record.1 ∧ ¬ searchKey <+: record.1 :=
  split_records searchKey view.entries view.sorted

theorem seek_place {view : Table} {searchKey : ByteString}
    {front behind : List (ByteString × ByteString)}
    (split : view.entries = front ++ (records view searchKey ++ behind))
    (before : ∀ record ∈ front, ¬ searchKey ≤ record.1)
    (after : ∀ record ∈ behind, searchKey ≤ record.1 ∧ ¬ searchKey <+: record.1) :
    nearest true view.keys (fun key => decide (searchKey ≤ key)) =
      MapCursor.placeOf true (records view searchKey ++ behind) := by
  have spec := nearest_spec true view.keys_sorted fun key => decide (searchKey ≤ key)
  apply spec.unique
  have whole : line true view.entries = front ++ (records view searchKey ++ behind) := split
  have placed : Nearest true (fun key => key ∈ view.keys ∧ searchKey ≤ key)
      (MapCursor.placeOf true (records view searchKey ++ behind)) := by
    apply MapCursor.nearest_placeOf whole before
    intro record member
    rcases List.mem_append.mp member with inside | member
    · exact le_of_starts (of_decide_eq_true (List.mem_filter.mp inside).2)
    · exact (after record member).1
  apply placed.of_iff
  intro key
  rw [decide_eq_true_eq]

theorem find_rest {view reached : Table} {searchKey : ByteString}
    {front behind : List (ByteString × ByteString)}
    (split : view.entries = front ++ (records view searchKey ++ behind))
    (before : ∀ record ∈ front, ¬ searchKey ≤ record.1)
    (after : ∀ record ∈ behind, searchKey ≤ record.1 ∧ ¬ searchKey <+: record.1)
    (rest : reached.entries = front ++ behind) (key : ByteString) :
    reached.find key = if searchKey <+: key then none else view.find key := by
  apply Option.ext
  intro val
  rw [reached.find_eq_some_iff, rest, List.mem_append]
  by_cases starts : searchKey <+: key
  · rw [if_pos starts]
    apply iff_of_false
    · rintro (member | member)
      · exact before _ member (le_of_starts starts)
      · exact (after _ member).2 starts
    · exact nofun
  · rw [if_neg starts, view.find_eq_some_iff, split, List.mem_append, List.mem_append]
    have absent : (key, val) ∉ records view searchKey := fun member =>
      starts (of_decide_eq_true (List.mem_filter.mp member).2)
    simp only [absent, false_or]

end Block

section Quota

def charged (total : Int) (quotaTxn : MojDbStorageTxn) : MojDbStorageTxn :=
  match quotaTxn.curQuotaOffset with
  | none => quotaTxn
  | some id =>
    match quotaTxn.offsetMap.find id with
    | none => quotaTxn
    | some entry =>
      if quotaTxn.quotaEnabled then
        { quotaTxn with
          offsetMap := quotaTxn.offsetMap.put id { entry with offset := entry.offset + total } }
      else quotaTxn

/-- The quota that is charged, if there is one, has room for the offset behind the first record. -/
def Admits (engine : MojDbQuotaEngine) (quotaTxn : MojDbStorageTxn)
    (records : List (ByteString × ByteString)) : Prop :=
  quotaTxn.quotaEnabled = true → ∀ id entry, quotaTxn.curQuotaOffset = some id →
    quotaTxn.offsetMap.find id = some entry → ∀ first ∈ records.head?,
      engine.Fits entry.quota (entry.offset - size first)

theorem sum_charges (records : List (ByteString × ByteString)) :
    (charges records).sum = -((records.map size).sum : Int) := by
  induction records with
  | nil => rfl
  | cons record rest ih =>
    rw [charges, List.map_cons, List.sum_cons, List.map_cons, List.sum_cons]
    have later : (rest.map fun record => -(size record : Int)).sum =
        -((rest.map size).sum : Int) := ih
    omega

theorem offsetAll_still {engine : MojDbQuotaEngine} {quotaTxn : MojDbStorageTxn}
    (still : ∀ offset, engine.offsetQuota offset quotaTxn = .ok quotaTxn) (offsets : List Int) :
    engine.offsetAll offsets quotaTxn = .ok quotaTxn := by
  induction offsets with
  | nil => rfl
  | cons offset rest ih =>
    rw [MojDbQuotaEngine.offsetAll, still]
    exact ih

theorem offsetAll_charges (engine : MojDbQuotaEngine) (quotaTxn after : MojDbStorageTxn)
    (records : List (ByteString × ByteString)) :
    engine.offsetAll (charges records) quotaTxn = .ok after ↔
      after = charged (-((records.map size).sum : Int)) quotaTxn ∧
        Admits engine quotaTxn records := by
  by_cases charges_ : quotaTxn.quotaEnabled = true ∧ ∃ id entry,
      quotaTxn.curQuotaOffset = some id ∧ quotaTxn.offsetMap.find id = some entry
  · rcases charges_ with ⟨enabled, id, entry, current, found⟩
    have sizes : charges records = StorageOp.offsets (.delPrefix (records.map size)) := by
      rw [StorageOp.offsets, charges, List.map_map]
      rfl
    rw [MojDbQuotaEngine.offsetAll_ok_iff enabled (charges records) current found,
      sum_charges]
    unfold charged Admits
    simp only [current, found, enabled, if_true]
    apply and_congr_right
    intro _
    rw [sizes, StorageOp.totals_fit_iff (fun low high => MojDbQuotaEngine.fits_mono)]
    constructor
    · intro peak _ other its same there first isFirst
      cases same
      rw [found, Option.some.injEq] at there
      rw [← there]
      cases records with
      | nil => cases isFirst
      | cons record rest =>
        cases isFirst
        exact peak _ rfl
    · intro admits height peak
      cases records with
      | nil => cases peak
      | cons record rest =>
        cases peak
        exact admits trivial id entry rfl found record rfl
  · have still : ∀ offset, engine.offsetQuota offset quotaTxn = .ok quotaTxn := by
      intro offset
      unfold MojDbQuotaEngine.offsetQuota
      cases current : quotaTxn.curQuotaOffset with
      | none => rfl
      | some id =>
        cases found : quotaTxn.offsetMap.find id with
        | none => simp only [found]
        | some entry =>
          simp only [found]
          rw [if_neg fun enabled => charges_ ⟨enabled, id, entry, current, found⟩]
          rfl
    have unchanged : charged (-((records.map size).sum : Int)) quotaTxn = quotaTxn := by
      unfold charged
      cases current : quotaTxn.curQuotaOffset with
      | none => rfl
      | some id =>
        cases found : quotaTxn.offsetMap.find id with
        | none => simp only [found]
        | some entry =>
          simp only [found]
          exact if_neg fun enabled => charges_ ⟨enabled, id, entry, current, found⟩
    have admits : Admits engine quotaTxn records := by
      intro enabled id entry current found
      exact absurd ⟨enabled, id, entry, current, found⟩ charges_
    rw [offsetAll_still still, unchanged, Except.ok.injEq, eq_comm]
    exact (and_iff_left admits).symm

end Quota

section Claim

variable (db : Table) (engine : MojDbQuotaEngine) (id : MojInt64)

def idPrefix (id : MojInt64) : ByteString := MojDbKey.assign (.int id) none

/-- The keys of the index are gone from what is read, those of other indexes are there as before,
and the quota is offset by the sizes of the records. -/
structure Dropped (before after : ByteString → Option ByteString) (view : Table)
    (quotaTxn quotaAfter : MojDbStorageTxn) : Prop where
  gone : ∀ key, after key = if idPrefix id <+: key then none else before key
  others : ∀ other, other ≠ id → ∀ key, idPrefix other <+: key → after key = before key
  offset : quotaAfter =
    charged (-(((records view (idPrefix id)).map size).sum : Int)) quotaTxn

/-- `drop` of the LevelDB engine does what it is for. -/
def LevelDrops (txn : MojDbLevelTableTxn) (quotaTxn : MojDbStorageTxn) : Prop :=
  ∃ cursor, MojDbLevelIndex.drop db engine (.int id) txn quotaTxn = some (.ok cursor) ∧
    Dropped id (txn.get db) (cursor.opened.txn.get db) (view db txn) quotaTxn cursor.quotaTxn

/-- `drop` of the sandwich engine does. -/
def SandwichDrops {σ : Type} (part : Part σ) (state : σ) (quotaTxn : MojDbStorageTxn) : Prop :=
  ∃ last quotaAfter,
    MojDbSandwichIndex.drop part engine (.int id) state quotaTxn = some (.ok (last, quotaAfter)) ∧
      Dropped id (part.cursor state).view.find (part.cursor last).view.find
        (part.cursor state).view quotaTxn quotaAfter

def EndsPending (txn : MojDbLevelTableTxn) : Prop :=
  ∃ key ∈ txn.pendingValues.keys, idPrefix id <+: key ∧
    ∀ other, txn.get db other ≠ none → other ≤ key

variable {id}

theorem idPrefix_separate {other : MojInt64} (different : other ≠ id) {key : ByteString}
    (starts : idPrefix other <+: key) : ¬ idPrefix id <+: key := by
  intro same
  have free := MojObjectWriter.codes_prefixFree
  have equal : idPrefix id = idPrefix other := by
    rcases List.prefix_or_prefix_of_prefix same starts with shorter | longer
    · exact free _ (MojDbKey.assign_mem_codes _ _) _ (MojDbKey.assign_mem_codes _ _) shorter
    · exact (free _ (MojDbKey.assign_mem_codes _ _) _ (MojDbKey.assign_mem_codes _ _) longer).symm
  cases MojObjectWriter.value_injective equal
  exact different rfl

theorem dropped_of_gone {before after : ByteString → Option ByteString} {view : Table}
    {quotaTxn : MojDbStorageTxn}
    (gone : ∀ key, after key = if idPrefix id <+: key then none else before key) :
    Dropped id before after view quotaTxn
      (charged (-(((records view (idPrefix id)).map size).sum : Int)) quotaTxn) := by
  refine ⟨gone, ?_, rfl⟩
  intro other different key starts
  rw [gone, if_neg (idPrefix_separate different starts)]

variable (txn : MojDbLevelTableTxn) (quotaTxn : MojDbStorageTxn)

theorem find_view (key : ByteString) : (view db txn).find key = txn.get db key :=
  find_writeBatch db txn key

theorem shown_iff (key : ByteString) :
    txn.get db key ≠ none ↔ ∃ record ∈ (view db txn).entries, record.1 = key := by
  rw [← find_view, ne_eq, SortedMap.find_eq_none_iff, not_not, SortedMap.keys, List.mem_map]

theorem lastPending_iff {front behind : List (ByteString × ByteString)}
    (split : (view db txn).entries = front ++ (records (view db txn) (idPrefix id) ++ behind)) :
    LastPending txn (records (view db txn) (idPrefix id)) behind ↔ EndsPending db id txn := by
  have sorted := List.pairwise_map.mp (view db txn).sorted
  have inRecords : ∀ record, record ∈ records (view db txn) (idPrefix id) ↔
      record ∈ (view db txn).entries ∧ idPrefix id <+: record.1 := by
    intro record
    rw [records, List.mem_filter, decide_eq_true_eq]
  constructor
  · rintro ⟨rfl, last, isLast, pending⟩
    refine ⟨last.1, pending, ((inRecords last).mp (List.mem_of_getLast? isLast)).2, ?_⟩
    intro other shown
    rcases (shown_iff db txn other).mp shown with ⟨record, listed, rfl⟩
    rcases List.getLast?_eq_some_iff.mp isLast with ⟨init, whole⟩
    rw [split, List.append_nil, whole, ← List.append_assoc] at sorted listed
    rcases List.mem_append.mp listed with before | same
    · exact ((List.pairwise_append.mp sorted).2.2 record before last List.mem_cons_self).le
    · rw [List.mem_singleton.mp same]
  · rintro ⟨key, pending, starts, greatest⟩
    have shown : txn.get db key ≠ none := (visible_iff_get key).mp (Or.inr pending)
    rcases (shown_iff db txn key).mp shown with ⟨record, listed, rfl⟩
    have inside := (inRecords record).mpr ⟨listed, starts⟩
    rw [split, ← List.append_assoc] at sorted
    have nothing : behind = [] := by
      apply List.eq_nil_iff_forall_not_mem.mpr
      intro other member
      have later := (List.pairwise_append.mp sorted).2.2 record
        (List.mem_append_right front inside) other member
      have listedOther : other ∈ (view db txn).entries := by
        rw [split]
        exact List.mem_append_right _ (List.mem_append_right _ member)
      exact absurd (greatest other.1 ((shown_iff db txn _).mpr ⟨other, listedOther, rfl⟩))
        (not_le_of_gt later)
    refine ⟨nothing, ?_⟩
    rcases List.eq_nil_or_concat (records (view db txn) (idPrefix id)) with
      none_ | ⟨init, last, whole⟩
    · rw [none_] at inside
      cases inside
    rw [List.concat_eq_append] at whole
    have isLast : (records (view db txn) (idPrefix id)).getLast? = some last := by
      rw [whole]
      exact List.getLast?_concat
    have shownLast := (shown_iff db txn last.1).mpr
      ⟨last, ((inRecords last).mp (List.mem_of_getLast? isLast)).1, rfl⟩
    refine ⟨last, isLast, ?_⟩
    rw [whole] at inside sorted
    rcases List.mem_append.mp inside with earlier | same
    · have order := (List.pairwise_append.mp (List.pairwise_append.mp
        (List.pairwise_append.mp sorted).1).2.1).2.2
      exact absurd (greatest last.1 shownLast)
        (not_le_of_gt (order record earlier last List.mem_cons_self))
    · rw [← List.mem_singleton.mp same]
      exact pending

theorem level_drop_iff :
    LevelDrops db engine id txn quotaTxn ↔
      Admits engine quotaTxn (records (view db txn) (idPrefix id)) ∧ ¬ EndsPending db id txn := by
  rcases records_split (view db txn) (idPrefix id) with ⟨front, behind, split, before, after⟩
  have follows : Follows db txn (.seek db txn (idPrefix id))
      (MapCursor.seek (idPrefix id) ⟨view db txn, .start⟩) :=
    @follows_seek db txn ⟨view db txn, .start⟩ (fun key => (find_view db txn key).symm)
      (idPrefix id)
  have placed := seek_place split before after
  have shorter : (records (view db txn) (idPrefix id)).length <
      (view db txn).entries.length + 1 := Nat.lt_succ_of_le (List.length_filter_le _ _)
  have inside : ∀ record ∈ records (view db txn) (idPrefix id), idPrefix id <+: record.1 :=
    fun record member => of_decide_eq_true (List.mem_filter.mp member).2
  have ends : Ends db engine ⟨⟨txn, .seek db txn (idPrefix id)⟩, quotaTxn⟩ front
      (records (view db txn) (idPrefix id)) behind
      (MojDbLevelIndex.drop db engine (.int id) txn quotaTxn) :=
    @delRecords_ends db engine (idPrefix id) (records (view db txn) (idPrefix id)) behind front _
      ⟨txn, .seek db txn (idPrefix id)⟩ quotaTxn _ follows rfl rfl split placed inside
      (fun record member => (after record member).2) shorter
  have pending := lastPending_iff db txn split
  rcases ends with ⟨err, charges, result⟩ | ⟨quotaAfter, charges, stuck, result⟩ |
    ⟨quotaAfter, last, reached, charges, goes, result, followsLast, rest⟩
  · apply iff_of_false
    · rintro ⟨cursor, same, -⟩
      rw [result] at same
      cases same
    · rintro ⟨admits, -⟩
      have fits := (offsetAll_charges engine quotaTxn _ _).mpr ⟨rfl, admits⟩
      rw [charges] at fits
      cases fits
  · apply iff_of_false
    · rintro ⟨cursor, same, -⟩
      rw [result] at same
      cases same
    · exact fun both => both.2 (pending.mp stuck)
  · have spec := (offsetAll_charges engine quotaTxn quotaAfter _).mp charges
    refine iff_of_true ⟨_, result, ?_⟩ ⟨spec.2, mt pending.mpr goes⟩
    rw [spec.1]
    apply dropped_of_gone
    intro key
    rw [followsLast.shown, find_rest split before after rest, find_view]

theorem sandwich_drop_iff {σ : Type} (part : Part σ) (state : σ) :
    SandwichDrops engine id part state quotaTxn ↔
      Admits engine quotaTxn (records (part.cursor state).view (idPrefix id)) := by
  rcases records_split (part.cursor state).view (idPrefix id) with
    ⟨front, behind, split, before, after⟩
  have sought := part.cursor_seek (idPrefix id) state
  have placed : (part.cursor (part.seek (idPrefix id) state)).pos =
      MapCursor.placeOf true (records (part.cursor state).view (idPrefix id) ++ behind) := by
    rw [sought]
    exact seek_place split before after
  have splitSought : (part.cursor (part.seek (idPrefix id) state)).view.entries =
      front ++ (records (part.cursor state).view (idPrefix id) ++ behind) := by
    rw [sought]
    exact split
  have runs := @delRecords_part σ part engine (idPrefix id)
    (records (part.cursor state).view (idPrefix id)) behind front
    ((part.cursor state).view.entries.length + 1) (part.seek (idPrefix id) state) quotaTxn
    splitSought placed (fun record member => of_decide_eq_true (List.mem_filter.mp member).2)
    (fun record member => (after record member).2)
    (Nat.lt_succ_of_le (List.length_filter_le _ _))
  rcases runs with ⟨err, charges, result⟩ | ⟨quotaAfter, last, charges, result, rest⟩
  · apply iff_of_false
    · rintro ⟨last, quotaAfter, same, -⟩
      rw [MojDbSandwichIndex.drop, MojDbSandwichDatabase.delPrefix, ← idPrefix, result] at same
      cases same
    · intro admits
      have fits := (offsetAll_charges engine quotaTxn _ _).mpr ⟨rfl, admits⟩
      rw [charges] at fits
      cases fits
  · have spec := (offsetAll_charges engine quotaTxn quotaAfter _).mp charges
    refine iff_of_true ⟨last, quotaAfter, result, ?_⟩ spec.2
    rw [spec.1]
    exact dropped_of_gone fun key => find_rest split before after rest key

/-- An index is dropped just where its first record goes below what the quota has available and,
with LevelDB, where the last key there is does not make the scan end behind it. -/
theorem drop_exact_iff {σ : Type} (part : Part σ) (state : σ) :
    (LevelDrops db engine id txn quotaTxn ↔
      Admits engine quotaTxn (records (view db txn) (idPrefix id)) ∧ ¬ EndsPending db id txn) ∧
    (SandwichDrops engine id part state quotaTxn ↔
      Admits engine quotaTxn (records (part.cursor state).view (idPrefix id))) :=
  ⟨level_drop_iff db engine txn quotaTxn, sandwich_drop_iff engine quotaTxn part state⟩

end Claim

section Example

def onePut : MojDbLevelTableTxn := MojDbLevelTableTxn.init.put (idPrefix 1) []

def overdrawn : MojDbQuotaEngine where
  isOpen := true
  quotas := SortedMap.empty.put ⟨chars ['o']⟩ ⟨10, 100⟩
  usageDb := SortedMap.empty
  kinds := MojDbKindEngine.KindMap.empty

def charging : MojDbStorageTxn :=
  { MojDbStorageTxn.begin with
    quotaEngine := true
    offsetMap := SortedMap.empty.put (chars ['k']) ⟨0, some ⟨chars ['o']⟩⟩
    curQuotaOffset := some (chars ['k']) }

/-- The key put last makes the scan run into its assertion, and a quota that is used up refuses to
have anything freed. -/
theorem drop_fails :
    ¬ LevelDrops SortedMap.empty overdrawn 1 onePut MojDbStorageTxn.begin ∧
    ¬ LevelDrops (SortedMap.empty.put (idPrefix 1) []) overdrawn 1 MojDbLevelTableTxn.init
      charging := by
  constructor
  · rintro ⟨cursor, ran, -⟩
    have asserts : (MojDbLevelIndex.drop SortedMap.empty overdrawn (.int 1) onePut
        MojDbStorageTxn.begin).isSome = false := by decide +kernel
    rw [ran] at asserts
    cases asserts
  · rintro ⟨cursor, ran, -⟩
    have refused : (MojDbLevelIndex.drop (SortedMap.empty.put (idPrefix 1) []) overdrawn (.int 1)
        MojDbLevelTableTxn.init charging).all (fun result => !result.isOk) = true := by
      decide +kernel
    rw [ran] at refused
    cases refused

def twoIndexes : Table := (SortedMap.empty.put (idPrefix 1) []).put (idPrefix 2) [7]

def moreOfFirst : MojDbLevelTableTxn := MojDbLevelTableTxn.init.put (idPrefix 1 ++ [3]) [8]

def roomy : MojDbQuotaEngine :=
  { overdrawn with quotas := SortedMap.empty.put ⟨chars ['o']⟩ ⟨1000, 100⟩ }

theorem admits_roomy (records : List (ByteString × ByteString)) : Admits roomy charging records := by
  intro _ id entry current stored first _
  cases current
  cases stored
  intro owner quota governed found
  cases governed
  cases found
  change (0 : Int) - size first ≤ 1000 - 100
  omega

/-- Both engines drop the first index, whose keys are partly pending. -/
theorem drop_exact_sample :
    LevelDrops twoIndexes roomy 1 moreOfFirst charging ∧
      SandwichDrops roomy 1 cursorPart ⟨view twoIndexes moreOfFirst, .start⟩ charging := by
  have drops := @drop_exact_iff twoIndexes roomy 1 moreOfFirst charging _ cursorPart
    ⟨view twoIndexes moreOfFirst, .start⟩
  refine ⟨drops.1.mpr ⟨admits_roomy _, ?_⟩, drops.2.mpr (admits_roomy _)⟩
  rintro ⟨key, pending, -, greatest⟩
  have behind : idPrefix 2 ≤ key := greatest (idPrefix 2) (by decide)
  have only : key = idPrefix 1 ++ [3] := List.mem_singleton.mp pending
  rw [only] at behind
  exact absurd behind (by decide)

end Example

end Db8.DbEngine.DelPrefix
