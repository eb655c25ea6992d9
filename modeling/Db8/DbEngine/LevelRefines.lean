import Db8.DbEngine.LevelCursor

/-!
# The merged iterator follows the cursor

Every operation takes the pair of an iterator and a cursor from a state where the one follows the other
to another such state, as long as it is one of those that the iterator is prepared for.
-/

set_option autoImplicit false

namespace Db8.DbEngine.MojDbLevelTxn

open Db8.Bytes Db8.Bytes.Place Db8.Steps MojDbLevelTxnIterator

structure Paired where
  opened : Opened
  cursor : Cursor

namespace Paired

def create (db : Table) (txn : MojDbLevelTableTxn) : Paired := ⟨.create db txn, .create db txn⟩

def step (db : Table) (op : IteratorOp) (paired : Paired) : Option Paired :=
  (cursorStep op paired.cursor).bind fun cursor =>
    (paired.opened.step db op).map fun opened => ⟨opened, cursor⟩

end Paired

/-- A move finds a key to go to, and where it turns back the iterator of the table has left no key
between itself and the current one that is shown again. -/
def CarefulMove (db : Table) (fwd : Bool) (opened : Opened) : Prop :=
  ¬ opened.iterator.AtTail fwd ∧
    (opened.iterator.fwd ≠ fwd → ∀ key ∈ db.keys, key ∉ opened.txn.pendingDeletes →
      ¬ (Past fwd opened.iterator.it (.on key) ∧ Past fwd (.on key) opened.iterator.current))

/-- A put does not fall between a deleted key under the iterator and the key it has jumped to. -/
def CarefulPut (key : ByteString) (paired : Paired) : Prop :=
  paired.opened.iterator.invalid = true →
    ¬ (Upto paired.opened.iterator.fwd paired.cursor.pos (.on key) ∧
      Past paired.opened.iterator.fwd (.on key) paired.opened.iterator.current)

/-- A key that the iterator of the table stands at is deleted only where the other iterator stands at
it too, and a key of that one only where it is the current key or the iterator is invalid. -/
def CarefulDelete (key : ByteString) (iterator : MojDbLevelTxnIterator) : Prop :=
  (iterator.it = .on key → iterator.insertsIterator = .on key) ∧
    (iterator.insertsIterator = .on key → iterator.invalid = false →
      Upto iterator.fwd (.on key) iterator.it)

def Careful (db : Table) (op : IteratorOp) (paired : Paired) : Prop :=
  match op with
  | .seekToFirst => True
  | .seekToLast => True
  | .seek _ => True
  | .next => CarefulMove db true paired.opened
  | .prev => CarefulMove db false paired.opened
  | .put key _ => CarefulPut key paired
  | .delete key => CarefulDelete key paired.opened.iterator

structure Agrees (db : Table) (opened : Opened) (cursor : Cursor) : Prop where
  shown : ∀ key, opened.txn.get db key = cursor.view.find key
  entry : opened.iterator.entry db opened.txn = cursor.entry
  ends : opened.iterator.invalid = false →
    ∀ fwd, opened.iterator.AtTail fwd ↔ cursor.pos = tail fwd

structure Follows (db : Table) (txn : MojDbLevelTableTxn) (iterator : MojDbLevelTxnIterator)
    (cursor : Cursor) : Prop where
  shown : ∀ key, txn.get db key = cursor.view.find key
  begun : cursor.pos ≠ head iterator.fwd
  steady : Steady db txn iterator.fwd (From iterator.fwd cursor.pos) iterator.it
  inserting : Inserting txn iterator.fwd (From iterator.fwd cursor.pos) iterator.insertsIterator
  invalid : iterator.invalid = true ↔ ∃ key, cursor.pos = .on key ∧ ¬ Visible db txn key

section Follows

variable {db : Table} {txn : MojDbLevelTableTxn} {iterator : MojDbLevelTxnIterator} {cursor : Cursor}
  {fwd : Bool}

theorem follows_of_range {range : ByteString → Prop} {view : Table} {pos : Place ByteString}
    (shown : ∀ key, txn.get db key = view.find key) (onward : Onward iterator.fwd range)
    (valid : iterator.invalid = false) (steady : Steady db txn iterator.fwd range iterator.it)
    (inserting : Inserting txn iterator.fwd range iterator.insertsIterator)
    (placed : Nearest iterator.fwd (fun key => key ∈ view.keys ∧ range key) pos) :
    Follows db txn iterator ⟨view, pos⟩ := by
  have visible : ∀ key, Visible db txn key ↔ key ∈ view.keys :=
    @visible_iff_mem db txn ⟨view, pos⟩ shown
  have first : Nearest iterator.fwd (fun key => Visible db txn key ∧ range key) pos :=
    placed.of_iff fun key => and_congr_left' (visible key)
  have same := first.unique (nearest_nearer steady inserting)
  refine ⟨shown, first.reached, ?_, ?_, ?_⟩
  · exact steady.narrow onward first (same ▸ nearer_upto_it)
  · exact inserting.narrow onward first (same ▸ nearer_upto_inserts)
  · rw [valid]
    constructor
    · rintro ⟨⟩
    · rintro ⟨key, rfl, hidden⟩
      exact absurd (first.stands key rfl).1 hidden

theorem nearest_everywhere (fwd : Bool) {keys : List ByteString} (sorted : keys.Pairwise (· < ·)) :
    Nearest fwd (fun key => key ∈ keys ∧ True) (nearest fwd keys fun _ => true) := by
  simpa using nearest_spec fwd sorted fun _ => true

theorem steady_toFront (fwd : Bool) :
    Steady db txn fwd (fun _ => True) (MojDbLevelTxnIterator.toFront db txn fwd).it :=
  steady_of_nearest (skipDeleted_keys (onward_all fwd) (nearest_everywhere fwd db.keys_sorted))

theorem inserting_toFront (fwd : Bool) :
    Inserting txn fwd (fun _ => True) (MojDbLevelTxnIterator.toFront db txn fwd).insertsIterator :=
  nearest_everywhere fwd txn.pendingValues.keys_sorted

theorem follows_toFront (shown : ∀ key, txn.get db key = cursor.view.find key) (fwd : Bool) :
    Follows db txn (.toFront db txn fwd) (cursor.front fwd) := by
  exact follows_of_range shown (onward_all fwd) rfl (steady_toFront fwd) (inserting_toFront fwd)
    (nearest_everywhere fwd cursor.view.keys_sorted)

theorem follows_seek (shown : ∀ key, txn.get db key = cursor.view.find key) (bound : ByteString) :
    Follows db txn (.seek db txn bound) (cursor.seek bound) := by
  have onwards : ∀ keys : List ByteString, keys.Pairwise (· < ·) →
      Nearest true (fun key => key ∈ keys ∧ From true (.on bound) key)
        (nearest true keys fun key => decide (bound ≤ key)) := by
    intro keys sorted
    apply (nearest_spec true sorted fun key => decide (bound ≤ key)).of_iff
    simp [From, Upto]
  apply follows_of_range shown (onward_from true (.on bound)) rfl
  · exact steady_of_nearest
      (skipDeleted_keys (onward_from true (.on bound)) (onwards _ db.keys_sorted))
  · exact onwards _ txn.pendingValues.keys_sorted
  · exact onwards _ cursor.view.keys_sorted

namespace Follows

theorem nearest_current (follows : Follows db txn iterator cursor) :
    Nearest iterator.fwd (fun key => Visible db txn key ∧ From iterator.fwd cursor.pos key)
      iterator.current := by
  rw [current_eq]
  exact nearest_nearer follows.steady follows.inserting

theorem upto_current (follows : Follows db txn iterator cursor) :
    Upto iterator.fwd cursor.pos iterator.current := by
  by_cases ended : iterator.current = tail iterator.fwd
  · exact ended ▸ upto_tail _ _
  · rcases exists_key follows.nearest_current.reached ended with ⟨key, same⟩
    exact same ▸ (follows.nearest_current.stands key same).2

theorem steady_upto (follows : Follows db txn iterator cursor) :
    Upto iterator.fwd cursor.pos iterator.it := by
  apply follows.upto_current.trans
  rw [current_eq]
  exact nearer_upto_it

theorem pos_visible (follows : Follows db txn iterator cursor) (valid : iterator.invalid = false)
    {key : ByteString} (here : cursor.pos = .on key) : Visible db txn key := by
  by_contra hidden
  have invalid := follows.invalid.mpr ⟨key, here, hidden⟩
  rw [valid] at invalid
  cases invalid

theorem current_of_valid (follows : Follows db txn iterator cursor)
    (valid : iterator.invalid = false) : iterator.current = cursor.pos := by
  apply Upto.antisymm _ follows.upto_current
  by_cases ended : cursor.pos = tail iterator.fwd
  · exact ended ▸ upto_tail _ _
  · rcases exists_key follows.begun ended with ⟨key, here⟩
    rw [here]
    apply follows.nearest_current.least key ⟨follows.pos_visible valid here, _⟩
    exact here ▸ upto_refl _ _

theorem not_atHead (follows : Follows db txn iterator cursor) :
    ¬ iterator.AtTail (!iterator.fwd) :=
  fun ended => follows.inserting.reached ended.2

theorem mem_view (follows : Follows db txn iterator cursor) (key : ByteString) :
    Visible db txn key ↔ key ∈ cursor.view.keys :=
  visible_iff_mem follows.shown key

theorem moveSame (follows : Follows db txn iterator cursor)
    (going : ¬ iterator.AtTail iterator.fwd) :
    ∃ next moved, iterator.moveSame db txn iterator.fwd = some next ∧
      cursor.move iterator.fwd = some moved ∧ next.fwd = iterator.fwd ∧
        Follows db txn next moved := by
  have unended : cursor.pos ≠ tail iterator.fwd := by
    intro ended
    have reached := follows.upto_current
    rw [ended] at reached
    exact going (iterator.atTail_iff.mpr (eq_tail_of_upto reached))
  rcases cursor.move_spec iterator.fwd unended with ⟨pos, moved, placed⟩
  unfold MojDbLevelTxnIterator.moveSame
  rw [if_neg going, if_neg follows.not_atHead]
  by_cases invalid : iterator.invalid = true
  · rw [if_pos invalid]
    refine ⟨_, _, rfl, moved, rfl, ?_⟩
    rcases follows.invalid.mp invalid with ⟨gone, here, hidden⟩
    refine follows_of_range follows.shown ?_ rfl follows.steady follows.inserting ?_
    · exact onward_from iterator.fwd cursor.pos
    refine placed.of_iff fun key => and_congr_right fun member => ⟨fun near => ?_, Past.upto⟩
    apply near.past_of_ne
    intro same
    rw [here, Place.on.injEq] at same
    exact hidden (same ▸ (follows.mem_view key).mpr member)
  · rw [if_neg invalid]
    have valid := Bool.eq_false_of_not_eq_true invalid
    have current := follows.current_of_valid valid
    rw [current_eq] at current
    rcases moveOn_spec iterator follows.steady follows.inserting current unended with
      ⟨next, went, sameFwd, sameInvalid, steady, inserting⟩
    refine ⟨next, _, went, moved, sameFwd, ?_⟩
    rw [← sameFwd] at steady inserting placed
    exact follows_of_range follows.shown (sameFwd ▸ onward_beyond _ cursor.pos)
      (sameInvalid.trans valid) steady inserting placed

end Follows

variable {key : ByteString}

/-- Behind the key that is current for one direction the other one finds what it finds behind the
cursor. -/
theorem beyond_iff {among : ByteString → Prop} {pos first : Place ByteString} {fwd : Bool}
    (nearest : Nearest (!fwd) (fun key => among key ∧ From (!fwd) pos key) first)
    (reached : Upto (!fwd) pos first) (member : among key) :
    Beyond fwd pos key ↔ Beyond fwd first key := by
  constructor
  · intro beyond
    exact (upto_not.mp reached).past beyond
  · intro beyond
    by_contra near
    exact not_past.mpr (upto_not.mp (nearest.least key ⟨member, upto_not.mpr (not_past.mp near)⟩))
      beyond

section Turn

variable {pos it inserts : Place ByteString} {key : ByteString}

theorem steady_here (here : it = .on key) (undeleted : Undeleted db txn key) :
    Steady db txn fwd (From fwd (.on key)) it := by
  subst here
  refine ⟨on_ne_head fwd key, ?_, ?_⟩
  · rintro other ⟨⟩
    exact ⟨undeleted, upto_refl fwd _⟩
  · intro other _ within ahead
    exact absurd (within.past ahead) (not_past_self fwd _)

/-- The iterator of the table comes back to the current key where it has left nothing between. -/
theorem steady_back (behind : Past fwd it (.on key))
    (between : ∀ other, Undeleted db txn other →
      ¬ (Past fwd it (.on other) ∧ Past fwd (.on other) (.on key)))
    {back : Place ByteString}
    (nearest : Nearest fwd (fun other => Undeleted db txn other ∧ Beyond fwd it other) back) :
    Steady db txn fwd (From fwd (.on key)) back := by
  refine ⟨nearest.reached, ?_, ?_⟩
  · intro other same
    rcases nearest.stands other same with ⟨undeleted, beyond⟩
    exact ⟨undeleted, not_past.mp fun below => between other undeleted ⟨beyond, below⟩⟩
  · intro other stored within ahead
    by_contra neither
    rw [not_or] at neither
    have reached := nearest.least other ⟨⟨stored, neither.1⟩, behind.of_upto within⟩
    exact not_past.mpr reached ahead

theorem inserting_here (here : inserts = .on key) (pending : key ∈ txn.pendingValues.keys) :
    Inserting txn fwd (From fwd (.on key)) inserts := by
  subst here
  refine ⟨?_, on_ne_head fwd key, fun other member => member.2⟩
  rintro other ⟨⟩
  exact ⟨pending, upto_refl fwd _⟩

theorem inserting_back (inserting : Inserting txn (!fwd) (From (!fwd) pos) inserts)
    (reached : Upto fwd (.on key) pos) (behind : Past fwd inserts (.on key))
    {back : Place ByteString} (nearest : Inserting txn fwd (Beyond fwd inserts) back) :
    Inserting txn fwd (From fwd (.on key)) back := by
  refine ⟨?_, nearest.reached, ?_⟩
  · intro other same
    rcases nearest.stands other same with ⟨pending, beyond⟩
    refine ⟨pending, reached.trans (not_past.mp fun below => ?_)⟩
    have least := inserting.least other ⟨pending, upto_not.mpr below.upto⟩
    exact not_past.mpr (upto_not.mp least) beyond
  · rintro other ⟨pending, within⟩
    exact nearest.least other ⟨pending, behind.of_upto within⟩

end Turn

theorem current_eq_of_fwd {it : MojDbLevelTxnIterator} (same : it.fwd = fwd) :
    it.current = nearer fwd it.it it.insertsIterator := by
  rw [current_eq, same]

/-- Where both iterators are at the current key or behind it and keep to it, it is current again. -/
theorem nearer_here {it inserts : Place ByteString}
    (steady : Steady db txn fwd (From fwd (.on key)) it)
    (inserting : Inserting txn fwd (From fwd (.on key)) inserts) (visible : Visible db txn key) :
    nearer fwd it inserts = .on key := by
  have nearest := nearest_nearer steady inserting
  apply Upto.antisymm
  · exact nearest.least key ⟨visible, upto_refl fwd _⟩
  · by_cases ended : nearer fwd it inserts = tail fwd
    · exact ended ▸ upto_tail fwd _
    · rcases exists_key nearest.reached ended with ⟨other, same⟩
      exact same ▸ (nearest.stands other same).2

/-- A change of direction brings both iterators to the current key or behind it. -/
theorem Follows.turn (follows : Follows db txn iterator cursor) (other : iterator.fwd = !fwd)
    (here : iterator.current = .on key) (between : ∀ other, Undeleted db txn other →
      ¬ (Past fwd iterator.it (.on other) ∧ Past fwd (.on other) (.on key))) :
    ∃ turned, iterator.turn db txn fwd key = some turned ∧ turned.fwd = fwd ∧
      turned.invalid = false ∧ Steady db txn fwd (From fwd (.on key)) turned.it ∧
      Inserting txn fwd (From fwd (.on key)) turned.insertsIterator := by
  have nearest := follows.nearest_current
  have reached := upto_not.mp (other ▸ here ▸ follows.upto_current)
  have visible := (nearest.stands key here).1
  have steady := follows.steady
  have inserting := follows.inserting
  rw [current_eq_of_fwd other] at here
  rw [other] at steady inserting
  have itGoes : Past fwd iterator.it (.on key) → iterator.it ≠ tail fwd →
      ∃ it, advanceIt db txn fwd iterator.it = some it ∧
        Steady db txn fwd (From fwd (.on key)) it := by
    intro behind going
    obtain ⟨it, advanced, nearest⟩ : ∃ it, advanceIt db txn fwd iterator.it = some it ∧
        Nearest fwd (fun key => Undeleted db txn key ∧ Beyond fwd iterator.it key) it :=
      advanceIt_spec going
    exact ⟨it, advanced, steady_back behind between nearest⟩
  have insertsGo : Past fwd iterator.insertsIterator (.on key) →
      iterator.insertsIterator ≠ tail fwd → ∃ inserts,
        advance fwd txn.pendingValues.keys iterator.insertsIterator = some inserts ∧
          Inserting txn fwd (From fwd (.on key)) inserts := by
    intro behind going
    obtain ⟨inserts, advanced, nearest⟩ : ∃ inserts,
        advance fwd txn.pendingValues.keys iterator.insertsIterator = some inserts ∧
          Inserting txn fwd (Beyond fwd iterator.insertsIterator) inserts := inserts_spec going
    exact ⟨inserts, advanced, inserting_back inserting reached behind nearest⟩
  have begun : iterator.it ≠ tail fwd := head_not fwd ▸ steady.begun
  have insertsBegun : iterator.insertsIterator ≠ tail fwd := head_not fwd ▸ inserting.reached
  unfold nearer at here
  unfold MojDbLevelTxnIterator.turn
  dsimp only
  by_cases itEnded : iterator.it = head fwd
  · have behind : ¬ Past (!fwd) iterator.it iterator.insertsIterator :=
      itEnded ▸ not_tail_past (!fwd) _
    rw [if_neg behind] at here
    rcases itGoes (itEnded ▸ head_past _ (on_ne_head fwd key)) begun with ⟨it, advanced, steadyNext⟩
    rw [if_pos itEnded, advanced]
    exact ⟨_, rfl, rfl, rfl, steadyNext, inserting_here here (inserting.stands key here).1⟩
  rw [if_neg itEnded]
  by_cases insertsEnded : iterator.insertsIterator = head fwd
  · have ahead : Past (!fwd) iterator.it iterator.insertsIterator :=
      insertsEnded ▸ (upto_tail (!fwd) iterator.it).past_of_ne itEnded
    rw [if_pos ahead] at here
    rcases insertsGo (insertsEnded ▸ head_past _ (on_ne_head fwd key)) insertsBegun with
      ⟨back, advanced, insertingNext⟩
    rw [if_pos insertsEnded, advanced]
    exact ⟨_, rfl, rfl, rfl, steady_here here (steady.stands key here).1, insertingNext⟩
  rw [if_neg insertsEnded]
  generalize turnedIs : ({ iterator with fwd := fwd, invalid := false } : MojDbLevelTxnIterator) = turned
  have sameFwd : turned.fwd = fwd := turnedIs ▸ rfl
  have sameIt : turned.it = iterator.it := turnedIs ▸ rfl
  have sameInserts : turned.insertsIterator = iterator.insertsIterator := turnedIs ▸ rfl
  have valid : turned.invalid = false := turnedIs ▸ rfl
  have sameKey : turned.getKey = (nearer fwd turned.it turned.insertsIterator).key? := by
    rw [getKey, current_eq_of_fwd sameFwd]
  have sameWay : turned.moveSame db txn fwd = turned.moveOn db txn fwd := by
    unfold MojDbLevelTxnIterator.moveSame
    rw [if_neg fun ended : turned.AtTail fwd => begun (sameIt ▸ ended.1),
      if_neg fun ended : turned.AtTail (!fwd) => itEnded (sameIt ▸ ended.1), valid]
    rfl
  rw [sameKey, sameWay]
  rw [← sameIt, ← sameInserts] at here
  rw [← sameIt] at steady itGoes begun itEnded
  rw [← sameInserts] at inserting insertsGo insertsBegun insertsEnded
  unfold moveOn nearer
  rw [if_neg insertsBegun, if_neg begun, if_neg (not_or.mpr ⟨itEnded, insertsEnded⟩)]
  rcases past_or_upto fwd turned.it turned.insertsIterator with ahead | level
  · have current : turned.insertsIterator = .on key := by
      rwa [if_neg fun behind => not_past.mpr ahead.upto (past_not.mp behind)] at here
    rcases exists_key itEnded begun with ⟨first, itHere⟩
    have behind : Past fwd turned.it (.on key) := current ▸ ahead
    rcases itGoes behind begun with ⟨it, advanced, steadyNext⟩
    rw [if_pos ahead, itHere, key?, Option.bind_some, if_pos (itHere ▸ behind), if_pos (itHere ▸ ahead),
      ← itHere, advanced]
    exact ⟨_, rfl, sameFwd, valid, steadyNext,
      inserting_here current (inserting.stands key current).1⟩
  · rw [if_neg (not_past.mpr level)]
    by_cases same : turned.it = turned.insertsIterator
    · have current : turned.insertsIterator = .on key := by
        rwa [same, if_neg (not_past_self _ _)] at here
      rw [current, key?, Option.bind_some, if_neg (not_past_self _ _)]
      exact ⟨_, rfl, sameFwd, valid, steady_here (same.trans current)
        (steady.stands key (same.trans current)).1,
        inserting_here current (inserting.stands key current).1⟩
    · have behind := level.past_of_ne (Ne.symm same)
      have current : turned.it = .on key := by
        rwa [if_pos (past_not.mpr behind)] at here
      rcases exists_key insertsEnded insertsBegun with ⟨first, insertsHere⟩
      rcases insertsGo (current ▸ behind) insertsBegun with ⟨back, advanced, insertingNext⟩
      rw [insertsHere, key?, Option.bind_some, if_pos (current ▸ insertsHere ▸ behind), ← insertsHere,
        if_neg (not_past.mpr level), if_neg same, advanced]
      exact ⟨_, rfl, sameFwd, valid, steady_here current (steady.stands key current).1,
        insertingNext⟩

/-- A careful move goes to the next key that is shown, in either direction. -/
theorem Follows.move (follows : Follows db txn iterator cursor)
    (careful : CarefulMove db fwd ⟨txn, iterator⟩) :
    ∃ next moved, iterator.move db txn fwd = some next ∧ cursor.move fwd = some moved ∧
      Follows db txn next moved := by
  rcases careful with ⟨unended, between⟩
  unfold MojDbLevelTxnIterator.move
  by_cases same : iterator.fwd = fwd
  · subst same
    rw [if_pos rfl]
    rcases follows.moveSame unended with ⟨next, moved, went, goes, _, followsNext⟩
    exact ⟨next, moved, went, goes, followsNext⟩
  have other : iterator.fwd = !fwd := by
    cases way : iterator.fwd <;> cases fwd <;> simp_all
  have unmoved : cursor.pos ≠ tail fwd := by
    have begun := follows.begun
    rwa [other, head_not] at begun
  rcases cursor.move_spec fwd unmoved with ⟨pos, moved, placed⟩
  have nearest := follows.nearest_current
  have reached := follows.upto_current
  have atTail := iterator.atTail_iff
  rw [other] at nearest reached atTail
  have ahead : Nearest fwd
      (fun key => key ∈ cursor.view.keys ∧ Beyond fwd iterator.current key) pos :=
    placed.of_iff fun key => and_congr_right fun member =>
      (beyond_iff nearest reached ((follows.mem_view key).mpr member)).symm
  rw [if_neg same, if_neg unended]
  by_cases ended : iterator.AtTail (!fwd)
  · rw [if_pos ended]
    refine ⟨_, _, rfl, moved, ?_⟩
    have front : Nearest fwd (fun key => key ∈ cursor.view.keys ∧ True) pos :=
      ahead.of_iff fun key => and_congr_right fun _ => iff_of_true trivial
        (atTail.mp ended ▸ head_past (.on key) (on_ne_head fwd key))
    exact follows_of_range follows.shown (onward_all fwd) rfl (steady_toFront fwd)
      (inserting_toFront fwd) front
  rw [if_neg ended]
  rcases exists_key nearest.reached fun current => ended (atTail.mpr current) with ⟨key, here⟩
  obtain ⟨turned, turns, sameFwd, valid, steady, inserting⟩ := follows.turn other here
    fun name undeleted both => between same name undeleted.1 undeleted.2 (here ▸ both)
  have visible := (nearest.stands key here).1
  have again := nearer_here steady inserting visible
  have sameKey : turned.getKey = some key := by
    rw [getKey, current_eq_of_fwd sameFwd, again]
    rfl
  rw [getKey, here, key?, Option.bind_some, turns, Option.bind_some, if_pos sameKey]
  rcases moveOn_spec turned steady inserting again (on_ne_tail fwd key) with
    ⟨next, went, nextFwd, nextInvalid, steadyNext, insertingNext⟩
  refine ⟨next, _, went, moved, ?_⟩
  have nextSame := nextFwd.trans sameFwd
  rw [here] at ahead
  rw [← nextSame] at steadyNext insertingNext ahead
  exact follows_of_range follows.shown (onward_beyond _ _) (nextInvalid.trans valid) steadyNext
    insertingNext ahead

section Put

variable {key : ByteString} {range : ByteString → Prop} {it inserts : Place ByteString}

variable (val : ByteString)

theorem visible_put (other : ByteString) :
    Visible db (txn.put key val) other ↔ other = key ∨ Visible db txn other := by
  rw [visible_iff_get, visible_iff_get, MojDbLevelTableTxn.get_put]
  by_cases same : key = other
  · simp [same]
  · simp [same, Ne.symm same]

theorem steady_put (steady : Steady db txn fwd range it) :
    Steady db (txn.put key val) fwd range it := by
  refine ⟨steady.begun, ?_, ?_⟩
  · intro other same
    rcases steady.stands other same with ⟨⟨stored, undeleted⟩, within⟩
    exact ⟨⟨stored, fun gone => undeleted ((SortedSet.mem_del _ _ _).mp gone).1⟩, within⟩
  · intro other stored within ahead
    by_cases same : other = key
    · exact Or.inr ((SortedMap.mem_keys_put _ _ _ _).mpr (Or.inl same))
    · apply (steady.passed other stored within ahead).imp
      · intro deleted
        exact (SortedSet.mem_del _ _ _).mpr ⟨deleted, same⟩
      · intro pending
        exact (SortedMap.mem_keys_put _ _ _ _).mpr (Or.inr pending)

theorem inserting_put_far (inserting : Inserting txn fwd range inserts)
    (far : ¬ (range key ∧ Past fwd (.on key) inserts)) :
    Inserting (txn.put key val) fwd range inserts := by
  refine ⟨?_, inserting.reached, ?_⟩
  · intro other same
    rcases inserting.stands other same with ⟨pending, within⟩
    exact ⟨(SortedMap.mem_keys_put _ _ _ _).mpr (Or.inr pending), within⟩
  · rintro other ⟨pending, within⟩
    rcases (SortedMap.mem_keys_put _ _ _ _).mp pending with rfl | pending
    · exact not_past.mp fun near => far ⟨within, near⟩
    · exact inserting.least other ⟨pending, within⟩

theorem inserting_put_near (inserting : Inserting txn fwd range inserts) (within : range key)
    (near : Past fwd (.on key) inserts) : Inserting (txn.put key val) fwd range (.on key) := by
  refine ⟨?_, on_ne_head fwd key, ?_⟩
  · rintro other ⟨⟩
    exact ⟨(SortedMap.mem_keys_put _ _ _ _).mpr (Or.inl rfl), within⟩
  · rintro other ⟨pending, inside⟩
    rcases (SortedMap.mem_keys_put _ _ _ _).mp pending with rfl | pending
    · exact upto_refl fwd _
    · exact near.upto.trans (inserting.least other ⟨pending, inside⟩)

theorem advance_put (onward : Onward fwd range) (inserting : Inserting txn fwd range inserts)
    (within : range key) (near : Past fwd (.on key) inserts) :
    advance (!fwd) (txn.put key val).pendingValues.keys inserts = some (.on key) := by
  rcases advance_spec (txn.put key val).pendingValues.keys_sorted
    (show inserts ≠ tail (!fwd) from inserting.reached) with ⟨next, advanced, nearest⟩
  rw [advanced]
  apply congrArg some
  refine nearest.unique ⟨?_, on_ne_head _ key, ?_⟩
  · rintro other ⟨⟩
    exact ⟨(SortedMap.mem_keys_put _ _ _ _).mpr (Or.inl rfl), past_not.mpr near⟩
  · rintro other ⟨pending, before⟩
    rcases (SortedMap.mem_keys_put _ _ _ _).mp pending with rfl | pending
    · exact upto_refl _ _
    · rw [upto_not, ← not_past]
      intro beyond
      have least := inserting.least other ⟨pending, onward key other within beyond.upto⟩
      exact not_past.mpr least (past_not.mp before)

end Put

theorem past_current (it : Past iterator.fwd (.on key) iterator.it)
    (inserts : Past iterator.fwd (.on key) iterator.insertsIterator) :
    Past iterator.fwd (.on key) iterator.current := by
  rw [current_eq, nearer]
  split
  · exact it
  · exact inserts

theorem Follows.put (follows : Follows db txn iterator cursor) (val : ByteString)
    (careful : CarefulPut key ⟨⟨txn, iterator⟩, cursor⟩) :
    ∃ next, iterator.notifyPut (txn.put key val) key = some next ∧
      Follows db (txn.put key val) next (cursor.put key val) := by
  have shown : ∀ other, (txn.put key val).get db other = (cursor.put key val).view.find other := by
    intro other
    rw [MojDbLevelTableTxn.get_put, MapCursor.put, SortedMap.find_put, follows.shown]
  have invalid : iterator.invalid = true ↔
      ∃ here, (cursor.put key val).pos = .on here ∧ ¬ Visible db (txn.put key val) here := by
    rw [follows.invalid]
    constructor
    · rintro ⟨here, same, hidden⟩
      refine ⟨here, same, fun seen => ?_⟩
      rcases (visible_put val here).mp seen with rfl | seen
      · have jumped : cursor.pos ≠ iterator.current := fun stays =>
          hidden (follows.nearest_current.stands here (stays ▸ same)).1
        apply careful (follows.invalid.mpr ⟨here, same, hidden⟩)
        exact ⟨same ▸ upto_refl _ _, same ▸ follows.upto_current.past_of_ne jumped⟩
      · exact hidden seen
    · rintro ⟨here, same, hidden⟩
      exact ⟨here, same, fun seen => hidden ((visible_put val here).mpr (Or.inr seen))⟩
  unfold notifyPut
  by_cases passes : Past iterator.fwd (.on key) iterator.it ∨
      ¬ Past iterator.fwd (.on key) iterator.insertsIterator
  · rw [if_pos passes]
    have far : ¬ (From iterator.fwd cursor.pos key ∧
        Past iterator.fwd (.on key) iterator.insertsIterator) := by
      rintro ⟨within, near⟩
      have front := past_current (passes.resolve_right (not_not.mpr near)) near
      cases valid : iterator.invalid with
      | true => exact careful valid ⟨within, front⟩
      | false => exact not_past.mpr within (follows.current_of_valid valid ▸ front)
    exact ⟨iterator, rfl, shown, follows.begun, steady_put val follows.steady,
      inserting_put_far val follows.inserting far, invalid⟩
  · rw [if_neg passes]
    rw [not_or, not_not, not_past] at passes
    have within := (follows.steady_upto).trans passes.1
    rw [advance_put val (onward_from _ _) follows.inserting within passes.2]
    exact ⟨_, rfl, shown, follows.begun, steady_put val follows.steady,
      inserting_put_near val follows.inserting within passes.2, invalid⟩

section Delete

variable {key : ByteString} {range : ByteString → Prop} {it inserts : Place ByteString}

theorem visible_delete (other : ByteString) :
    Visible db (txn.delete key) other ↔ other ≠ key ∧ Visible db txn other := by
  rw [visible_iff_get, visible_iff_get, MojDbLevelTableTxn.get_delete]
  by_cases same : key = other
  · simp [same]
  · simp [same, Ne.symm same]

theorem hidden_delete {other : ByteString} (deleted : other ∉ (txn.delete key).pendingDeletes)
    (dropped : other ∉ (txn.delete key).pendingValues.keys) :
    other ≠ key ∧ other ∉ txn.pendingDeletes ∧ other ∉ txn.pendingValues.keys := by
  have different : other ≠ key := fun same => deleted ((SortedSet.mem_put _ _ _).mpr (Or.inl same))
  refine ⟨different, fun gone => deleted ((SortedSet.mem_put _ _ _).mpr (Or.inr gone)), ?_⟩
  exact fun pending => dropped ((SortedMap.mem_keys_del _ _ _).mpr ⟨pending, different⟩)

theorem undeleted_delete {other : ByteString} (undeleted : Undeleted db txn other)
    (different : other ≠ key) : Undeleted db (txn.delete key) other := by
  refine ⟨undeleted.1, fun gone => ?_⟩
  rcases (SortedSet.mem_put _ _ _).mp gone with same | gone
  · exact different same
  · exact undeleted.2 gone

theorem steady_delete (steady : Steady db txn fwd range it) (elsewhere : it ≠ .on key) :
    Steady db (txn.delete key) fwd range it := by
  refine ⟨steady.begun, ?_, ?_⟩
  · intro other same
    rcases steady.stands other same with ⟨undeleted, within⟩
    exact ⟨undeleted_delete undeleted fun here => elsewhere (here ▸ same), within⟩
  · intro other stored within ahead
    by_contra neither
    rw [not_or] at neither
    rcases hidden_delete neither.1 neither.2 with ⟨_, undeleted, unput⟩
    exact (steady.passed other stored within ahead).elim undeleted unput

theorem steady_delete_here (steady : Steady db txn fwd range (.on key)) (onward : Onward fwd range)
    (nearest : Nearest fwd (fun other => Undeleted db txn other ∧ Beyond fwd (.on key) other) it) :
    Steady db (txn.delete key) fwd range it := by
  refine ⟨nearest.reached, ?_, ?_⟩
  · intro other same
    rcases nearest.stands other same with ⟨undeleted, beyond⟩
    have different : other ≠ key := fun here => beyond.ne (here ▸ rfl)
    exact ⟨undeleted_delete undeleted different,
      onward key other (steady.stands key rfl).2 beyond.upto⟩
  · intro other stored within ahead
    by_contra neither
    rw [not_or] at neither
    rcases hidden_delete neither.1 neither.2 with ⟨different, undeleted, unput⟩
    rcases past_or_upto fwd (.on key) (.on other) with beyond | level
    · exact not_past.mpr (nearest.least other ⟨⟨stored, undeleted⟩, beyond⟩) ahead
    · have before := level.past_of_ne fun same => different (Place.on.inj same)
      exact (steady.passed other stored within before).elim undeleted unput

theorem inserting_delete (inserting : Inserting txn fwd range inserts)
    (elsewhere : inserts ≠ .on key) : Inserting (txn.delete key) fwd range inserts := by
  refine Nearest.narrow inserting ?_ ?_
  · rintro other ⟨pending, within⟩
    exact ⟨((SortedMap.mem_keys_del _ _ _).mp pending).1, within⟩
  · intro other same
    rcases inserting.stands other same with ⟨pending, within⟩
    exact ⟨(SortedMap.mem_keys_del _ _ _).mpr ⟨pending, fun here => elsewhere (here ▸ same)⟩, within⟩

theorem inserting_delete_here (inserting : Inserting txn fwd range (.on key))
    (onward : Onward fwd range) (nearest : Inserting txn fwd (Beyond fwd (.on key)) inserts) :
    Inserting (txn.delete key) fwd range inserts := by
  refine Nearest.of_iff nearest fun other => ⟨?_, ?_⟩
  · rintro ⟨pending, within⟩
    rcases (SortedMap.mem_keys_del _ _ _).mp pending with ⟨pending, different⟩
    refine ⟨pending, (inserting.least other ⟨pending, within⟩).past_of_ne ?_⟩
    exact fun same => different (Place.on.inj same).symm
  · rintro ⟨pending, beyond⟩
    have different : other ≠ key := fun here => beyond.ne (here ▸ rfl)
    exact ⟨(SortedMap.mem_keys_del _ _ _).mpr ⟨pending, different⟩,
      onward key other (inserting.stands key rfl).2 beyond.upto⟩

end Delete

theorem Follows.delete (follows : Follows db txn iterator cursor)
    (careful : CarefulDelete key iterator) :
    ∃ next, iterator.notifyDelete db txn key = some next ∧
      Follows db (txn.delete key) next (cursor.del key) := by
  rcases careful with ⟨both, reaches⟩
  have shown : ∀ other, (txn.delete key).get db other = (cursor.del key).view.find other := by
    intro other
    rw [MojDbLevelTableTxn.get_delete, MapCursor.del, SortedMap.find_del, follows.shown]
  have onward := onward_from iterator.fwd cursor.pos
  unfold notifyDelete
  by_cases elsewhere : iterator.insertsIterator ≠ .on key
  · rw [if_pos elsewhere]
    have itElsewhere : iterator.it ≠ .on key := fun here => elsewhere (both here)
    refine ⟨iterator, rfl, shown, follows.begun, steady_delete follows.steady itElsewhere,
      inserting_delete follows.inserting elsewhere, ?_⟩
    rw [follows.invalid]
    constructor
    · rintro ⟨here, same, hidden⟩
      exact ⟨here, same, fun seen => hidden ((visible_delete here).mp seen).2⟩
    · rintro ⟨here, same, hidden⟩
      by_contra valid
      have unmarked := Bool.eq_false_of_not_eq_true fun marked => valid (follows.invalid.mp marked)
      have current := (follows.current_of_valid unmarked).trans same
      refine hidden ((visible_delete here).mpr ⟨?_, follows.pos_visible unmarked same⟩)
      rintro rfl
      rw [current_eq, nearer] at current
      split at current
      · exact itElsewhere current
      · exact elsewhere current
  · rw [if_neg elsewhere]
    have here := not_not.mp elsewhere
    have inserting := follows.inserting
    rw [here] at inserting
    obtain ⟨inserts, advanced, nearest⟩ : ∃ inserts,
        advance iterator.fwd txn.pendingValues.keys (.on key) = some inserts ∧
          Inserting txn iterator.fwd (Beyond iterator.fwd (.on key)) inserts :=
      inserts_spec (on_ne_tail iterator.fwd key)
    have insertingNext := inserting_delete_here inserting onward nearest
    have invalid : ∃ other, cursor.pos = .on other ∧ ¬ Visible db (txn.delete key) other := by
      cases marked : iterator.invalid with
      | true =>
        rcases follows.invalid.mp marked with ⟨other, same, hidden⟩
        exact ⟨other, same, fun seen => hidden ((visible_delete other).mp seen).2⟩
      | false =>
        have level := reaches here marked
        have current := follows.current_of_valid marked
        rw [current_eq, nearer, here, if_neg (not_past.mpr level)] at current
        exact ⟨key, current.symm, fun seen => ((visible_delete key).mp seen).1 rfl⟩
    rw [here, advanced]
    by_cases same : iterator.it = .on key
    · obtain ⟨it, itAdvanced, itNearest⟩ : ∃ it, advanceIt db txn iterator.fwd (.on key) = some it ∧
          Nearest iterator.fwd
            (fun other => Undeleted db txn other ∧ Beyond iterator.fwd (.on key) other) it :=
        advanceIt_spec (on_ne_tail iterator.fwd key)
      rw [same, if_pos rfl, itAdvanced]
      exact ⟨_, rfl, shown, follows.begun,
        steady_delete_here (same ▸ follows.steady) onward itNearest, insertingNext,
        iff_of_true rfl invalid⟩
    · rw [if_neg same]
      exact ⟨_, rfl, shown, follows.begun, steady_delete follows.steady same, insertingNext,
        iff_of_true rfl invalid⟩

theorem Follows.step {op : IteratorOp} {paired : Paired}
    (follows : Follows db paired.opened.txn paired.opened.iterator paired.cursor)
    (careful : Careful db op paired) {moved : Cursor}
    (stepped : cursorStep op paired.cursor = some moved) :
    ∃ opened, paired.opened.step db op = some opened ∧
      Follows db opened.txn opened.iterator moved := by
  cases op with
  | seekToFirst =>
    cases stepped
    exact ⟨_, rfl, follows_toFront follows.shown true⟩
  | seekToLast =>
    cases stepped
    exact ⟨_, rfl, follows_toFront follows.shown false⟩
  | seek bound =>
    cases stepped
    exact ⟨_, rfl, follows_seek follows.shown bound⟩
  | next =>
    rcases follows.move careful with ⟨next, other, went, same, follows⟩
    rcases Option.some.inj (same.symm.trans stepped) with rfl
    refine ⟨_, congrArg (Option.map _) went, follows⟩
  | prev =>
    rcases follows.move careful with ⟨next, other, went, same, follows⟩
    rcases Option.some.inj (same.symm.trans stepped) with rfl
    refine ⟨_, congrArg (Option.map _) went, follows⟩
  | put key val =>
    cases stepped
    rcases follows.put val careful with ⟨next, went, follows⟩
    exact ⟨_, congrArg (Option.map _) went, follows⟩
  | delete key =>
    cases stepped
    rcases follows.delete careful with ⟨next, went, follows⟩
    exact ⟨_, congrArg (Option.map _) went, follows⟩

theorem Follows.getValue (follows : Follows db txn iterator cursor)
    (here : iterator.current = .on key) : iterator.getValue db txn = txn.get db key := by
  unfold MojDbLevelTxnIterator.getValue MojDbLevelTableTxn.get
  unfold current at here
  by_cases inserted : iterator.inTransaction = true
  · rw [if_pos inserted] at here ⊢
    have pending := (follows.inserting.stands key here).1
    have undeleted : key ∉ txn.pendingDeletes := fun gone => txn.disjoint key gone pending
    rw [here, key?, Option.bind_some, if_neg undeleted]
    cases found : txn.pendingValues.find key with
    | some val => rfl
    | none => exact absurd pending ((SortedMap.find_eq_none_iff _ _).mp found)
  · rw [if_neg inserted] at here ⊢
    have ahead : Past iterator.fwd iterator.it iterator.insertsIterator := by
      by_contra level
      exact inserted (iterator.inTransaction_iff.mpr level)
    rcases follows.steady.stands key here with ⟨⟨stored, undeleted⟩, within⟩
    have absent : key ∉ txn.pendingValues.keys := fun pending =>
      not_past.mpr (follows.inserting.least key ⟨pending, within⟩) (here ▸ ahead)
    rw [here, key?, Option.bind_some, if_neg undeleted,
      (SortedMap.find_eq_none_iff _ _).mpr absent]

theorem Follows.entry (follows : Follows db txn iterator cursor) :
    iterator.entry db txn = cursor.entry := by
  unfold MojDbLevelTxnIterator.entry MapCursor.entry
  cases marked : iterator.invalid with
  | true =>
    rcases follows.invalid.mp marked with ⟨key, same, hidden⟩
    have invalid : ¬ iterator.isValid = true := by simp [isValid, marked]
    have absent := (SortedMap.find_eq_none_iff _ _).mpr (mt (follows.mem_view key).mpr hidden)
    rw [if_neg invalid, same, key?, Option.bind_some, absent]
    rfl
  | false =>
    have current := follows.current_of_valid marked
    by_cases ended : cursor.pos = tail iterator.fwd
    · rcases iterator.atTail_iff.mpr (current.trans ended) with ⟨it, inserts⟩
      have invalid : ¬ iterator.isValid = true := by simp [isValid, it, inserts]
      rw [if_neg invalid, ended, key?_tail]
      rfl
    · rcases exists_key follows.begun ended with ⟨key, same⟩
      have here := current.trans same
      have valid : iterator.isValid = true := by
        unfold MojDbLevelTxnIterator.current at here
        split at here
        · simp [isValid, marked, here, key?]
        · simp [isValid, marked, here, key?]
      simp only [if_pos valid, follows.getValue here, getKey, here, same, key?, follows.shown,
        Option.bind_some]

theorem Follows.agrees {opened : Opened} (follows : Follows db opened.txn opened.iterator cursor) :
    Agrees db opened cursor := by
  refine ⟨follows.shown, follows.entry, fun valid fwd => ?_⟩
  by_cases same : opened.iterator.fwd = fwd
  · rw [← same, opened.iterator.atTail_iff, follows.current_of_valid valid]
  · have other : fwd = !opened.iterator.fwd := by
      cases way : opened.iterator.fwd <;> cases fwd <;> simp_all
    rw [other]
    exact iff_of_false follows.not_atHead follows.begun

end Follows

section Run

variable {db : Table}

theorem run_follows {ops : List IteratorOp} {paired : Paired} {last : Cursor}
    (follows : Follows db paired.opened.txn paired.opened.iterator paired.cursor)
    (careful : Throughout (Paired.step db) (Careful db) ops paired)
    (ran : run cursorStep ops paired.cursor = some last) :
    ∃ opened, run (Opened.step db) ops paired.opened = some opened ∧
      Follows db opened.txn opened.iterator last := by
  induction ops generalizing paired with
  | nil =>
    cases ran
    exact ⟨_, rfl, follows⟩
  | cons op ops ih =>
    rcases run_cons ran with ⟨moved, stepped, rest⟩
    rcases follows.step careful.1 stepped with ⟨opened, went, followsNext⟩
    have taken : Paired.step db op paired = some ⟨opened, moved⟩ := by
      rw [Paired.step, stepped, Option.bind_some, went]
      rfl
    have goesOn : ∃ reached, run (Opened.step db) ops opened = some reached ∧
        Follows db reached.txn reached.iterator last :=
      @ih ⟨opened, moved⟩ followsNext (careful.2 _ taken) rest
    rcases goesOn with
      ⟨reached, wentOn, followsLast⟩
    refine ⟨reached, ?_, followsLast⟩
    rw [run, went, Option.bind_some, wentOn]

theorem follows_create (txn : MojDbLevelTableTxn) :
    Follows db txn (Opened.create db txn).iterator (Cursor.create db txn) :=
  @follows_toFront db txn ⟨view db txn, .start⟩
    (fun key => (find_writeBatch db txn key).symm) true

/-- A run of careful operations meets no assertion, and the iterator shows what a cursor over the
overridden table shows. -/
theorem run_refines (db : Table) (txn : MojDbLevelTableTxn) (ops : List IteratorOp) (last : Cursor)
    (careful : Throughout (Paired.step db) (Careful db) ops (.create db txn))
    (ran : run cursorStep ops (Cursor.create db txn) = some last) :
    ∃ opened, run (Opened.step db) ops (Opened.create db txn) = some opened ∧
      Agrees db opened last := by
  rcases run_follows (follows_create txn) careful ran with ⟨opened, went, follows⟩
  exact ⟨opened, went, follows.agrees⟩

end Run

instance (db : Table) (fwd : Bool) (opened : Opened) : Decidable (CarefulMove db fwd opened) :=
  inferInstanceAs (Decidable (_ ∧ _))

instance (key : ByteString) (paired : Paired) : Decidable (CarefulPut key paired) :=
  inferInstanceAs (Decidable (_ → _))

instance (key : ByteString) (iterator : MojDbLevelTxnIterator) :
    Decidable (CarefulDelete key iterator) :=
  inferInstanceAs (Decidable (_ ∧ _))

instance (db : Table) : (op : IteratorOp) → (paired : Paired) → Decidable (Careful db op paired)
  | .seekToFirst, _ => isTrue trivial
  | .seekToLast, _ => isTrue trivial
  | .seek _, _ => isTrue trivial
  | .next, paired => inferInstanceAs (Decidable (CarefulMove db true paired.opened))
  | .prev, paired => inferInstanceAs (Decidable (CarefulMove db false paired.opened))
  | .put key _, paired => inferInstanceAs (Decidable (CarefulPut key paired))
  | .delete key, paired => inferInstanceAs (Decidable (CarefulDelete key paired.opened.iterator))

def threeKeys : Table := overridden .empty [.put [1] [1], .put [3] [3], .put [5] [5]]

def turningOps : List IteratorOp :=
  [.put [3] [9], .next, .delete [3], .next, .prev, .put [2] [2], .next, .next, .prev, .prev]

theorem run_refines_of_turning :
    ∃ opened last, run cursorStep turningOps (Cursor.create threeKeys .init) = some last ∧
      run (Opened.step threeKeys) turningOps (Opened.create threeKeys .init) = some opened ∧
        Agrees threeKeys opened last := by
  have moves : (run cursorStep turningOps (Cursor.create threeKeys .init)).isSome = true := by
    decide +kernel
  rcases Option.isSome_iff_exists.mp moves with ⟨last, ran⟩
  rcases run_refines threeKeys .init turningOps last (by decide +kernel) ran with
    ⟨opened, went, agrees⟩
  exact ⟨opened, last, ran, went, agrees⟩

/-- A key of the table alone is deleted under the iterator, which goes on showing it. -/
theorem run_not_refines :
    ¬ ∀ (db : Table) (txn : MojDbLevelTableTxn) (ops : List IteratorOp) (last : Cursor),
      run cursorStep ops (Cursor.create db txn) = some last →
        ∃ opened, run (Opened.step db) ops (Opened.create db txn) = some opened ∧
          Agrees db opened last := by
  intro refines
  have shows : (run (Opened.step threeKeys) [.delete [1]] (Opened.create threeKeys .init)).map
      (fun opened => opened.iterator.entry threeKeys opened.txn) = some (some ([1], [1])) := by
    decide +kernel
  have hides : (run cursorStep [.delete [1]] (Cursor.create threeKeys .init)).map
      MapCursor.entry = some none := by
    decide +kernel
  rcases Option.map_eq_some_iff.mp hides with ⟨last, ran, hidden⟩
  rcases refines threeKeys .init [.delete [1]] last ran with ⟨opened, went, agrees⟩
  rw [went] at shows
  have same := (Option.some.inj shows).symm.trans (agrees.entry.trans hidden)
  cases same

end Db8.DbEngine.MojDbLevelTxn
