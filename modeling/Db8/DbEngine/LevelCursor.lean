import Db8.DbEngine.LevelIterator
import Db8.Steps

/-!
# The merged iterator as a cursor over the overridden table

What a transaction shows is one sorted map, and the merged iterator is compared with a cursor over
that map. Both iterators stand in the range of keys that the cursor has not passed, and what the one of
the table has left behind there is deleted or pending as a put.
-/

set_option autoImplicit false

namespace Db8.DbEngine.MojDbLevelTxn

open Db8.Bytes Db8.Bytes.Place Db8.Steps

abbrev Cursor := MapCursor ByteString ByteString

def cursorStep (op : IteratorOp) (cursor : Cursor) : Option Cursor :=
  match op with
  | .seekToFirst => some (cursor.front true)
  | .seekToLast => some (cursor.front false)
  | .seek key => some (cursor.seek key)
  | .next => cursor.move true
  | .prev => cursor.move false
  | .put key val => some (cursor.put key val)
  | .delete key => some (cursor.del key)

def view (db : Table) (txn : MojDbLevelTableTxn) : Table := overridden db txn.writeBatch

def Cursor.create (db : Table) (txn : MojDbLevelTableTxn) : Cursor :=
  MapCursor.front true ⟨view db txn, .start⟩

section Visible

variable (db : Table) (txn : MojDbLevelTableTxn)

def Undeleted (key : ByteString) : Prop := key ∈ db.keys ∧ key ∉ txn.pendingDeletes

def Visible (key : ByteString) : Prop := Undeleted db txn key ∨ key ∈ txn.pendingValues.keys

variable {db txn}

theorem visible_iff_get (key : ByteString) : Visible db txn key ↔ txn.get db key ≠ none := by
  unfold Visible Undeleted MojDbLevelTableTxn.get
  by_cases deleted : key ∈ txn.pendingDeletes
  · simp [deleted, txn.disjoint key deleted]
  · rw [if_neg deleted]
    cases pending : txn.pendingValues.find key with
    | some val =>
      have member : key ∈ txn.pendingValues.keys := by
        by_contra absent
        rw [(SortedMap.find_eq_none_iff _ _).mpr absent] at pending
        cases pending
      simp [member]
    | none =>
      have absent := (SortedMap.find_eq_none_iff _ _).mp pending
      simp [absent, deleted, SortedMap.find_eq_none_iff]

theorem visible_iff_mem {cursor : Cursor} (shown : ∀ key, txn.get db key = cursor.view.find key)
    (key : ByteString) : Visible db txn key ↔ key ∈ cursor.view.keys := by
  rw [visible_iff_get, shown, ne_eq, SortedMap.find_eq_none_iff, not_not]

end Visible

def From (fwd : Bool) (pos : Place ByteString) (key : ByteString) : Prop := Upto fwd pos (.on key)

def Beyond (fwd : Bool) (pos : Place ByteString) (key : ByteString) : Prop := Past fwd pos (.on key)

def Onward (fwd : Bool) (range : ByteString → Prop) : Prop :=
  ∀ near far, range near → Upto fwd (.on near) (.on far) → range far

theorem onward_from (fwd : Bool) (pos : Place ByteString) : Onward fwd (From fwd pos) :=
  fun _ _ near further => near.trans further

theorem onward_beyond (fwd : Bool) (pos : Place ByteString) : Onward fwd (Beyond fwd pos) :=
  fun _ _ near further => near.of_upto further

theorem onward_all (fwd : Bool) : Onward fwd fun _ => True := fun _ _ _ _ => trivial

def nearer (fwd : Bool) (it inserts : Place ByteString) : Place ByteString :=
  if Past fwd it inserts then it else inserts

section Nearer

variable {fwd : Bool} {it inserts : Place ByteString}

theorem nearer_upto_it : Upto fwd (nearer fwd it inserts) it := by
  unfold nearer
  split
  · exact upto_refl fwd it
  · rename_i behind
    exact not_past.mp behind

theorem nearer_upto_inserts : Upto fwd (nearer fwd it inserts) inserts := by
  unfold nearer
  split
  · rename_i ahead
    exact ahead.upto
  · exact upto_refl fwd inserts

end Nearer

namespace MojDbLevelTxnIterator

variable (iterator : MojDbLevelTxnIterator)

theorem inTransaction_iff :
    iterator.inTransaction = true ↔
      ¬ Past iterator.fwd iterator.it iterator.insertsIterator := by
  unfold inTransaction
  rcases lt_trichotomy iterator.it iterator.insertsIterator with below | same | above
  · rw [cmp_eq_lt_iff _ _ |>.mpr below]
    cases iterator.fwd <;> simp [Past, below, not_lt.mpr below.le]
  · rw [cmp_eq_eq_iff _ _ |>.mpr same]
    simp [same, not_past_self]
  · rw [cmp_eq_gt_iff _ _ |>.mpr above]
    cases iterator.fwd <;> simp [Past, above, not_lt.mpr above.le]

theorem current_eq :
    iterator.current = nearer iterator.fwd iterator.it iterator.insertsIterator := by
  unfold current nearer
  by_cases ahead : Past iterator.fwd iterator.it iterator.insertsIterator
  · rw [if_pos ahead, if_neg (fun chosen => iterator.inTransaction_iff.mp chosen ahead)]
  · rw [if_neg ahead, if_pos (iterator.inTransaction_iff.mpr ahead)]

theorem atTail_iff : iterator.AtTail iterator.fwd ↔ iterator.current = tail iterator.fwd := by
  rw [current_eq]
  constructor
  · rintro ⟨it, inserts⟩
    unfold nearer
    rw [it, inserts, ite_self]
  · intro ended
    constructor
    · exact eq_tail_of_upto (ended ▸ nearer_upto_it)
    · exact eq_tail_of_upto (ended ▸ nearer_upto_inserts)

end MojDbLevelTxnIterator

/-- The iterator of the table stands in a range and has passed nothing there that it has to show. -/
structure Steady (db : Table) (txn : MojDbLevelTableTxn) (fwd : Bool) (range : ByteString → Prop)
    (it : Place ByteString) : Prop where
  begun : it ≠ head fwd
  stands : ∀ key, it = .on key → Undeleted db txn key ∧ range key
  passed : ∀ key ∈ db.keys, range key → Past fwd (.on key) it →
    key ∈ txn.pendingDeletes ∨ key ∈ txn.pendingValues.keys

def Inserting (txn : MojDbLevelTableTxn) (fwd : Bool) (range : ByteString → Prop)
    (inserts : Place ByteString) : Prop :=
  Nearest fwd (fun key => key ∈ txn.pendingValues.keys ∧ range key) inserts

section Ranges

variable {db : Table} {txn : MojDbLevelTableTxn} {fwd : Bool} {range : ByteString → Prop}
  {it inserts pos : Place ByteString}

theorem steady_of_nearest (nearest : Nearest fwd (fun key => Undeleted db txn key ∧ range key) it) :
    Steady db txn fwd range it := by
  refine ⟨nearest.reached, nearest.stands, ?_⟩
  intro key stored within ahead
  by_contra neither
  rw [not_or] at neither
  exact not_past.mpr (nearest.least key ⟨⟨stored, neither.1⟩, within⟩) ahead

theorem nearest_nearer (steady : Steady db txn fwd range it)
    (inserting : Inserting txn fwd range inserts) :
    Nearest fwd (fun key => Visible db txn key ∧ range key) (nearer fwd it inserts) := by
  constructor
  · intro key same
    unfold nearer at same
    split at same
    · rcases steady.stands key same with ⟨undeleted, within⟩
      exact ⟨Or.inl undeleted, within⟩
    · rcases inserting.stands key same with ⟨pending, within⟩
      exact ⟨Or.inr pending, within⟩
  · unfold nearer
    split
    · exact steady.begun
    · exact inserting.reached
  · rintro key ⟨visible, within⟩
    by_cases pending : key ∈ txn.pendingValues.keys
    · exact nearer_upto_inserts.trans (inserting.least key ⟨pending, within⟩)
    · rcases visible with ⟨stored, undeleted⟩ | put
      · apply nearer_upto_it.trans
        by_contra ahead
        rcases steady.passed key stored within (not_upto.mp ahead) with deleted | put
        · exact undeleted deleted
        · exact pending put
      · exact absurd put pending

theorem Steady.narrow (steady : Steady db txn fwd range it) (onward : Onward fwd range)
    (shown : Nearest fwd (fun key => Visible db txn key ∧ range key) pos)
    (reached : Upto fwd pos it) : Steady db txn fwd (From fwd pos) it := by
  refine ⟨steady.begun, ?_, ?_⟩
  · rintro key rfl
    exact ⟨(steady.stands key rfl).1, reached⟩
  · intro key stored within ahead
    apply steady.passed key stored _ ahead
    by_cases ended : pos = tail fwd
    · exact absurd (within.past ahead) (ended ▸ not_tail_past fwd it)
    · rcases exists_key shown.reached ended with ⟨first, rfl⟩
      exact onward first key (shown.stands first rfl).2 within

theorem Inserting.narrow (inserting : Inserting txn fwd range inserts) (onward : Onward fwd range)
    (shown : Nearest fwd (fun key => Visible db txn key ∧ range key) pos)
    (reached : Upto fwd pos inserts) : Inserting txn fwd (From fwd pos) inserts := by
  refine Nearest.narrow inserting ?_ ?_
  · rintro key ⟨pending, within⟩
    refine ⟨pending, ?_⟩
    by_cases ended : pos = tail fwd
    · rw [ended] at within
      exact absurd ((upto_tail fwd _).antisymm within) (on_ne_tail fwd key)
    · rcases exists_key shown.reached ended with ⟨first, rfl⟩
      exact onward first key (shown.stands first rfl).2 within
  · rintro key rfl
    exact ⟨(inserting.stands key rfl).1, reached⟩

end Ranges

section Skipping

variable {db : Table} {txn : MojDbLevelTableTxn} {fwd : Bool} {range : ByteString → Prop}
  {it inserts pos : Place ByteString}

open MojDbLevelTxnIterator

theorem length_ahead_lt {keys : List ByteString} (nodup : keys.Nodup) {key : ByteString}
    (stored : key ∈ keys) (further : Past fwd (.on key) pos) :
    (keys.filter fun other => decide (Upto fwd pos (.on other))).length <
      (keys.filter fun other => decide (Upto fwd (.on key) (.on other))).length := by
  have left : key ∉ keys.filter fun other => decide (Upto fwd pos (.on other)) := by
    simp [not_upto, further]
  have within : (key :: keys.filter fun other => decide (Upto fwd pos (.on other))) ⊆
      keys.filter fun other => decide (Upto fwd (.on key) (.on other)) := by
    intro other member
    rcases List.mem_cons.mp member with rfl | member
    · simpa using stored
    · simp only [List.mem_filter, decide_eq_true_eq] at member ⊢
      exact ⟨member.1, further.upto.trans member.2⟩
  exact ((List.nodup_cons.mpr ⟨left, nodup.filter _⟩).subperm within).length_le

/-- With fuel for every key that is left, the loop ends at the first key that is not deleted. -/
theorem skipDeleted_nearest (fuel : Nat) (it : Place ByteString) (onward : Onward fwd range)
    (nearest : Nearest fwd (fun key => key ∈ db.keys ∧ range key) it)
    (enough : (db.keys.filter fun key => decide (Upto fwd it (.on key))).length ≤ fuel) :
    Nearest fwd (fun key => Undeleted db txn key ∧ range key) (skipDeleted db txn fwd fuel it) := by
  induction fuel generalizing it range with
  | zero =>
    refine Nearest.narrow nearest (fun key member => ⟨member.1.1, member.2⟩) ?_
    rintro key rfl
    have left : key ∈ db.keys.filter fun other => decide (Upto fwd (.on key) (.on other)) := by
      simpa using (nearest.stands key rfl).1
    rw [List.length_eq_zero_iff.mp (Nat.le_zero.mp enough)] at left
    cases left
  | succ fuel ih =>
    by_cases deleted : ∃ key, it = .on key ∧ key ∈ txn.pendingDeletes
    · rcases deleted with ⟨key, rfl, deleted⟩
      rcases nearest.stands key rfl with ⟨stored, within⟩
      rcases advance_spec db.keys_sorted (on_ne_tail fwd key) with ⟨next, advanced, follows⟩
      have further : Past fwd (.on key) next := by
        by_cases ended : next = tail fwd
        · exact ended ▸ (upto_tail fwd _).past_of_ne (on_ne_tail fwd key)
        · rcases exists_key follows.reached ended with ⟨other, rfl⟩
          exact (follows.stands other rfl).2
      have fewer := (length_ahead_lt db.keys_nodup stored further).trans_le enough
      have rest := ih next (onward_beyond fwd (.on key)) follows (Nat.lt_succ_iff.mp fewer)
      have goesOn : skipDeleted db txn fwd (fuel + 1) (.on key) =
          skipDeleted db txn fwd fuel next := by
        rw [skipDeleted, if_pos deleted, advanced]
      rw [goesOn]
      refine Nearest.of_iff rest fun other => and_congr_right fun undeleted => ⟨?_, ?_⟩
      · intro within
        apply (nearest.least other ⟨undeleted.1, within⟩).past_of_ne
        rintro ⟨⟩
        exact undeleted.2 deleted
      · intro beyond
        exact onward key other within beyond.upto
    · have stops : skipDeleted db txn fwd (fuel + 1) it = it := by
        unfold skipDeleted
        split
        · rename_i key
          rw [if_neg fun gone => deleted ⟨key, rfl, gone⟩]
        · rfl
      rw [stops]
      refine Nearest.narrow nearest (fun key member => ⟨member.1.1, member.2⟩) ?_
      rintro key rfl
      rcases nearest.stands key rfl with ⟨stored, within⟩
      exact ⟨⟨stored, fun gone => deleted ⟨key, rfl, gone⟩⟩, within⟩

theorem skipDeleted_keys (onward : Onward fwd range)
    (nearest : Nearest fwd (fun key => key ∈ db.keys ∧ range key) it) :
    Nearest fwd (fun key => Undeleted db txn key ∧ range key)
      (skipDeleted db txn fwd db.keys.length it) :=
  skipDeleted_nearest db.keys.length it onward nearest (List.length_filter_le _ _)

theorem advanceIt_spec (going : it ≠ tail fwd) :
    ∃ next, advanceIt db txn fwd it = some next ∧
      Nearest fwd (fun key => Undeleted db txn key ∧ Beyond fwd it key) next := by
  rcases advance_spec db.keys_sorted going with ⟨next, advanced, follows⟩
  refine ⟨_, ?_, skipDeleted_keys (onward_beyond fwd it) follows⟩
  rw [advanceIt, advanced]
  rfl

theorem inserts_spec (going : inserts ≠ tail fwd) :
    ∃ next, advance fwd txn.pendingValues.keys inserts = some next ∧
      Inserting txn fwd (Beyond fwd inserts) next :=
  advance_spec txn.pendingValues.keys_sorted going

/-- Both iterators keep their range when the nearer of them, or both, go on behind it. -/
theorem moveOn_spec (iterator : MojDbLevelTxnIterator)
    (steady : Steady db txn fwd (From fwd pos) iterator.it)
    (inserting : Inserting txn fwd (From fwd pos) iterator.insertsIterator)
    (current : nearer fwd iterator.it iterator.insertsIterator = pos) (going : pos ≠ tail fwd) :
    ∃ next, iterator.moveOn db txn fwd = some next ∧ next.fwd = iterator.fwd ∧
      next.invalid = iterator.invalid ∧ Steady db txn fwd (Beyond fwd pos) next.it ∧
      Inserting txn fwd (Beyond fwd pos) next.insertsIterator := by
  have steadyAhead : Past fwd pos iterator.it → Steady db txn fwd (Beyond fwd pos) iterator.it := by
    intro ahead
    refine ⟨steady.begun, ?_, fun key stored within => steady.passed key stored within.upto⟩
    rintro key same
    exact ⟨(steady.stands key same).1, show Past fwd pos (.on key) from same ▸ ahead⟩
  have insertingAhead : Past fwd pos iterator.insertsIterator →
      Inserting txn fwd (Beyond fwd pos) iterator.insertsIterator := by
    intro ahead
    refine Nearest.narrow inserting (fun key member => ⟨member.1, member.2.upto⟩) ?_
    intro key same
    exact ⟨(inserting.stands key same).1, show Past fwd pos (.on key) from same ▸ ahead⟩
  have itGoes : iterator.it = pos → ∃ it, advanceIt db txn fwd iterator.it = some it ∧
      Steady db txn fwd (Beyond fwd pos) it := by
    rintro rfl
    obtain ⟨it, advanced, follows⟩ : ∃ it, advanceIt db txn fwd iterator.it = some it ∧
        Nearest fwd (fun key => Undeleted db txn key ∧ Beyond fwd iterator.it key) it :=
      advanceIt_spec going
    exact ⟨it, advanced, steady_of_nearest follows⟩
  have insertsGo : iterator.insertsIterator = pos → ∃ inserts,
      advance fwd txn.pendingValues.keys iterator.insertsIterator = some inserts ∧
        Inserting txn fwd (Beyond fwd pos) inserts := by
    rintro rfl
    exact inserts_spec going
  unfold moveOn
  unfold nearer at current
  by_cases ahead : Past fwd iterator.it iterator.insertsIterator
  · rw [if_pos ahead] at current
    rcases itGoes current with ⟨it, advanced, steadyNext⟩
    have insertingNext := insertingAhead (current ▸ ahead)
    by_cases ended : iterator.insertsIterator = tail fwd
    · rw [if_pos ended, advanced]
      exact ⟨_, rfl, rfl, rfl, steadyNext, insertingNext⟩
    · rw [if_neg ended, if_neg (current ▸ going),
        if_neg (not_or.mpr ⟨steady.begun, inserting.reached⟩), if_pos ahead, advanced]
      exact ⟨_, rfl, rfl, rfl, steadyNext, insertingNext⟩
  · rw [if_neg ahead] at current
    rcases insertsGo current with ⟨inserts, advanced, insertingNext⟩
    rw [if_neg (current ▸ going)]
    by_cases ended : iterator.it = tail fwd
    · rw [if_pos ended, advanced]
      have apart := (upto_tail fwd pos).past_of_ne going
      exact ⟨_, rfl, rfl, rfl, steadyAhead (ended ▸ apart), insertingNext⟩
    · rw [if_neg ended, if_neg (not_or.mpr ⟨steady.begun, inserting.reached⟩), if_neg ahead]
      by_cases same : iterator.it = iterator.insertsIterator
      · rcases itGoes (same.trans current) with ⟨it, itAdvanced, steadyNext⟩
        rw [if_pos same, advanced, itAdvanced]
        exact ⟨_, rfl, rfl, rfl, steadyNext, insertingNext⟩
      · rw [if_neg same, advanced]
        have apart := (not_past.mp ahead).past_of_ne (Ne.symm same)
        exact ⟨_, rfl, rfl, rfl, steadyAhead (current ▸ apart), insertingNext⟩

end Skipping

end Db8.DbEngine.MojDbLevelTxn
