import Db8.Db.IsamQuery

/-!
# What a scan delivers

The loop of `getKey` seen from outside: as long as the ranges are entered one after the other in
scan direction and share no key, the keys still to come are the stored keys of the ranges left,
range by range. Skipping a seek because the last key lies behind the next range's entry bound loses
nothing, since whatever was passed stopped lies in an earlier range or before every later one.
-/

set_option autoImplicit false

namespace Db8.Db

open Db8.Bytes
open Db8.Core

/-- One range is entered no later than another in scan direction; an open bound comes first. -/
def entersBefore (desc : Bool) (left right : MojDbKeyRange) : Prop :=
  if desc then left.upperKey = [] ∨ right.upperKey ≠ [] ∧ right.upperKey ≤ left.upperKey
  else left.lowerKey ≤ right.lowerKey

instance (desc : Bool) (left right : MojDbKeyRange) : Decidable (entersBefore desc left right) := by
  unfold entersBefore
  infer_instance

structure ScanOrdered (desc : Bool) (ranges : List MojDbKeyRange) : Prop where
  entered : ranges.Pairwise (entersBefore desc)
  disjoint : ranges.Pairwise fun left right => ∀ key, left.contains key → ¬ right.contains key

theorem ScanOrdered.tail {desc : Bool} {range : MojDbKeyRange} {later : List MojDbKeyRange}
    (ordered : ScanOrdered desc (range :: later)) : ScanOrdered desc later :=
  ⟨ordered.entered.of_cons, ordered.disjoint.of_cons⟩

namespace MojDbIsamQuery

def Met (desc : Bool) (left right : MojDbKey) : Prop := if desc then right < left else left < right

theorem line_met (desc : Bool) (keys : KeySet) :
    (Cursor.line desc keys.elems).Pairwise (Met desc) := by
  cases desc with
  | false =>
    apply keys.sorted.imp
    intro left right before
    exact before
  | true =>
    apply List.pairwise_reverse.mpr
    apply keys.sorted.imp
    intro left right before
    exact before

theorem mem_line {desc : Bool} {keys : List MojDbKey} {key : MojDbKey} :
    key ∈ Cursor.line desc keys ↔ key ∈ keys := by
  unfold Cursor.line
  split_ifs <;> simp

namespace Position

/-- The key lies before the range's entry bound. -/
def precedes (desc : Bool) (range : MojDbKeyRange) (key : MojDbKey) : Bool :=
  if desc then decide (¬ Below key range.upperKey) else decide (key < range.lowerKey)

theorem precedes_closed (desc : Bool) (range : MojDbKeyRange) (left right : MojDbKey)
    (met : Met desc left right) (behind : precedes desc range right = true) :
    precedes desc range left = true := by
  cases desc with
  | false =>
    simp only [precedes, Met, Bool.false_eq_true, if_false, decide_eq_true_eq] at met behind ⊢
    exact lt_trans met behind
  | true =>
    simp only [precedes, Met, if_true, decide_eq_true_eq] at met behind ⊢
    exact fun below => behind (below.of_le (le_of_lt met))

theorem inRange_iff (desc : Bool) (range : MojDbKeyRange) (key : MojDbKey) :
    inRange desc range key = true ↔
      if desc then range.lowerKey ≤ key else Below key range.upperKey := by
  cases desc with
  | false =>
    simp only [inRange, exitKey, Bool.false_eq_true, if_false, Below]
    split_ifs with open_ <;> simp [open_]
  | true =>
    simp only [inRange, exitKey, if_true]
    split_ifs with open_
    · simp [open_, not_lt.mp (List.not_lt_nil key)]
    · simp

theorem inRange_closed (desc : Bool) (range : MojDbKeyRange) (left right : MojDbKey)
    (met : Met desc left right) (inside : inRange desc range right = true) :
    inRange desc range left = true := by
  rw [inRange_iff] at inside ⊢
  cases desc with
  | false =>
    simp only [Met, Bool.false_eq_true, if_false] at met inside ⊢
    exact inside.of_le (le_of_lt met)
  | true =>
    simp only [Met, if_true] at met inside ⊢
    exact le_trans inside (le_of_lt met)

theorem contains_iff_met (desc : Bool) (range : MojDbKeyRange) (key : MojDbKey) :
    range.contains key ↔ precedes desc range key = false ∧ inRange desc range key = true := by
  rw [MojDbKeyRange.contains_iff, inRange_iff]
  cases desc with
  | false => simp [precedes]
  | true =>
    simp only [precedes, if_true, decide_eq_false_iff_not, not_not]
    exact and_comm

variable {desc : Bool}

theorem precedes_of_entersBefore {left right : MojDbKeyRange} (order : entersBefore desc left right)
    (key : MojDbKey) (behind : precedes desc left key = true) : precedes desc right key = true := by
  cases desc with
  | false =>
    simp only [precedes, entersBefore, Bool.false_eq_true, if_false, decide_eq_true_eq] at *
    exact lt_of_lt_of_le behind order
  | true =>
    simp only [precedes, entersBefore, if_true, decide_eq_true_eq, Below, not_or, not_lt] at *
    rcases order with open_ | ⟨bounded, ordered⟩
    · exact absurd open_ behind.1
    · exact ⟨bounded, le_trans ordered behind.2⟩

/-- The stored keys of a range in scan order, with its group. -/
def held (store : MojDbIndexStore) (desc : Bool) (range : MojDbKeyRange) :
    List (MojDbKey × Nat) :=
  ((Cursor.line desc store.keys.elems).filter fun key => decide (range.contains key)).map
    fun key => (key, range.group)

def heldBy (store : MojDbIndexStore) (desc : Bool) (ranges : List MojDbKeyRange) :
    List (MojDbKey × Nat) :=
  ranges.flatMap (held store desc)

variable {range : MojDbKeyRange}

theorem held_eq_nil {store : MojDbIndexStore}
    (outside : ∀ key ∈ Cursor.line desc store.keys.elems, ¬ range.contains key) :
    held store desc range = [] := by
  unfold held
  rw [List.map_eq_nil_iff, List.filter_eq_nil_iff]
  intro key member inside
  exact outside key member (of_decide_eq_true inside)

variable {ranges : List MojDbKeyRange}

theorem heldBy_eq_nil {store : MojDbIndexStore}
    (outside : ∀ key ∈ Cursor.line desc store.keys.elems, ∀ range ∈ ranges, ¬ range.contains key) :
    heldBy store desc ranges = [] := by
  unfold heldBy
  rw [List.flatMap_eq_nil_iff]
  intro range member
  exact held_eq_nil fun key keyIn => outside key keyIn range member

/-- Behind keys that are not in a range, its stored keys are what the scan finds from its entry
bound up to its exit bound. -/
theorem held_eq_takeWhile {store : MojDbIndexStore} {passed ahead : List MojDbKey}
    (line : Cursor.line desc store.keys.elems = passed ++ ahead)
    (outside : ∀ key ∈ passed, ¬ range.contains key)
    (entered : ∀ key ∈ ahead, precedes desc range key = false) :
    held store desc range =
      (ahead.takeWhile (inRange desc range)).map fun key => (key, range.group) := by
  have sorted := line_met desc store.keys
  rw [line] at sorted
  unfold held
  rw [line, List.filter_append]
  have none : passed.filter (fun key => decide (range.contains key)) = [] := by
    rw [List.filter_eq_nil_iff]
    intro key member inside
    exact outside key member (of_decide_eq_true inside)
  have rest : ahead.filter (fun key => decide (range.contains key)) =
      ahead.filter (inRange desc range) := by
    apply List.filter_congr
    intro key member
    rw [Bool.eq_iff_iff, decide_eq_true_eq, contains_iff_met desc, entered key member]
    simp
  rw [none, rest, List.nil_append,
    filter_eq_takeWhile (List.pairwise_append.mp sorted).2.1 (inRange_closed desc range)]

/-- The cursor stands on the last key read, with `passed` behind it. -/
structure Reached (store : MojDbIndexStore) (desc : Bool) (pos : Position)
    (passed ahead : List MojDbKey) : Prop where
  line : Cursor.line desc store.keys.elems = passed ++ pos.keyData :: ahead
  stands : Cursor.Stands desc store.keys.elems pos.cursor (pos.keyData :: ahead)

def Scanning (store : MojDbIndexStore) (desc : Bool) (pos : Position)
    (pending : List (MojDbKey × Nat)) : Prop :=
  ScanOrdered desc pos.iter ∧
    match pos.iter, pos.state with
    | [], _ => pending = []
    | range :: later, .seek =>
      (pos.keyData = [] ∨ ∃ passed ahead, Reached store desc pos passed ahead ∧
        ∀ key ∈ passed, ∀ other ∈ range :: later, ¬ other.contains key) ∧
      pending = heldBy store desc (range :: later)
    | range :: later, .next =>
      ∃ passed ahead, Reached store desc pos passed ahead ∧
        (∀ key ∈ passed ++ [pos.keyData], ∀ range ∈ later, ¬ range.contains key) ∧
        precedes desc range pos.keyData = false ∧
        pending = (ahead.takeWhile (inRange desc range)).map (fun key => (key, range.group)) ++
          heldBy store desc later

/-- The position once it has moved in a range: at the end of the keys with nothing to come, or on
a key behind the range's entry bound. -/
def Landed (store : MojDbIndexStore) (desc : Bool) (range : MojDbKeyRange)
    (later : List MojDbKeyRange) (pending : List (MojDbKey × Nat)) (pos : Position) (found : Bool) :
    Prop :=
  if found then
    pos.iter = range :: later ∧ pos.state = .next ∧
      ∃ passed ahead, Reached store desc pos passed ahead ∧
        (∀ key ∈ passed, ∀ range ∈ later, ¬ range.contains key) ∧
        precedes desc range pos.keyData = false ∧
        pending = ((pos.keyData :: ahead).takeWhile (inRange desc range)).map
          (fun key => (key, range.group)) ++ heldBy store desc later
  else pending = []

theorem readEntry_eq {store : MojDbIndexStore} {pos : Position} {ahead : List MojDbKey}
    (stands : Cursor.Stands desc store.keys.elems pos.cursor ahead) :
    readEntry store pos =
      match ahead with
      | [] => (pos, false)
      | key :: _ => ({ pos with keyData := key }, true) := by
  unfold readEntry
  rw [stands.key_eq]
  cases ahead <;> rfl

theorem precedes_up (range : MojDbKeyRange) :
    precedes false range = fun key => !decide (range.lowerKey ≤ key) := by
  funext key
  simp [precedes, ← not_le]

theorem precedes_down (bounded : range.upperKey ≠ []) :
    precedes true range = fun key => decide (range.upperKey ≤ key) := by
  funext key
  simp [precedes, below_iff_lt bounded]

theorem line_of_open {store : MojDbIndexStore} (open_ : entryKey desc range = []) :
    (Cursor.line desc store.keys.elems).dropWhile (precedes desc range) =
      Cursor.line desc store.keys.elems := by
  apply dropWhile_eq_self_of_forall
  intro key _
  cases desc with
  | false =>
    simp only [entryKey, Bool.false_eq_true, if_false] at open_
    simp [precedes, open_]
  | true =>
    simp only [entryKey, if_true] at open_
    simp [precedes, open_]

theorem seek_back {keys : List MojDbKey} {bound : MojDbKey}
    (invalid : ((Cursor.seek keys bound).key keys).isSome = false) :
    Cursor.seek keys bound = .back := by
  unfold Cursor.seek Cursor.ofIndex at invalid ⊢
  split_ifs at invalid ⊢ with inside
  · simp [Cursor.key, inside] at invalid
  · rfl

/-- A seek that is made puts the cursor on the first key behind the entry bound. -/
theorem seekImpl_spec (store : MojDbIndexStore) (desc : Bool) (range : MojDbKeyRange)
    (pos : Position) :
    ∃ moved : Position, Cursor.Stands desc store.keys.elems moved.cursor
        ((Cursor.line desc store.keys.elems).dropWhile (precedes desc range)) ∧
      moved.iter = pos.iter ∧ moved.state = pos.state ∧
      seekImpl store (entryKey desc range) desc pos = readEntry store moved := by
  unfold seekImpl
  by_cases open_ : entryKey desc range = []
  · rw [if_pos open_, line_of_open open_]
    cases desc with
    | false =>
      exact ⟨{ pos with cursor := Cursor.seekToFirst store.keys.elems },
        Cursor.stands_seekToFirst store.keys.elems, rfl, rfl, rfl⟩
    | true =>
      exact ⟨{ pos with cursor := Cursor.seekToLast store.keys.elems },
        Cursor.stands_seekToLast store.keys.elems, rfl, rfl, rfl⟩
  · rw [if_neg open_]
    cases desc with
    | false =>
      rw [precedes_up range]
      exact ⟨{ pos with cursor := Cursor.seek store.keys.elems range.lowerKey },
        Cursor.stands_seek store.keys.elems range.lowerKey, rfl, rfl, rfl⟩
    | true =>
      have stands := Cursor.stands_seek_prev store.keys.sorted range.upperKey
      rw [precedes_down open_]
      cases store.engine with
      | sandwich =>
        cases valid : ((Cursor.seek store.keys.elems range.upperKey).key
            store.keys.elems).isSome with
        | true =>
          refine ⟨{ pos with
            cursor := (Cursor.seek store.keys.elems range.upperKey).prev store.keys.elems },
            stands, rfl, rfl, ?_⟩
          simp [entryKey, valid, next, Cursor.step]
        | false =>
          rw [seek_back valid] at stands
          refine ⟨{ pos with cursor := Cursor.seekToLast store.keys.elems },
            stands, rfl, rfl, ?_⟩
          simp [entryKey, valid]
      | level =>
        refine ⟨{ (readEntry store { pos with
            cursor := Cursor.seek store.keys.elems range.upperKey }).1 with
          cursor := (Cursor.seek store.keys.elems range.upperKey).prev store.keys.elems },
          stands, ?_, ?_, ?_⟩
        · unfold readEntry
          split <;> rfl
        · unfold readEntry
          split <;> rfl
        · simp only [entryKey, next, Cursor.step, if_true]
          congr 1
          unfold readEntry
          split <;> rfl

theorem landed_of_readEntry {store : MojDbIndexStore} {later : List MojDbKeyRange}
    {moved : Position} {passed ahead : List MojDbKey} (iterEq : moved.iter = range :: later)
    (stateEq : moved.state = .next) (line : Cursor.line desc store.keys.elems = passed ++ ahead)
    (stands : Cursor.Stands desc store.keys.elems moved.cursor ahead)
    (outside : ∀ key ∈ passed, ∀ range ∈ later, ¬ range.contains key)
    (entered : ∀ key ∈ ahead, precedes desc range key = false) :
    Landed store desc range later
      ((ahead.takeWhile (inRange desc range)).map (fun key => (key, range.group)) ++
        heldBy store desc later)
      (readEntry store moved).1 (readEntry store moved).2 := by
  rw [readEntry_eq stands]
  cases ahead with
  | nil =>
    rw [List.append_nil] at line
    simp only [Landed, Bool.false_eq_true, if_false, List.takeWhile_nil, List.map_nil,
      List.nil_append]
    apply heldBy_eq_nil
    rw [line]
    exact outside
  | cons key ahead =>
    simp only [Landed, if_true]
    exact ⟨iterEq, stateEq, passed, ahead, ⟨line, stands⟩, outside,
      entered key List.mem_cons_self, rfl⟩

theorem advance_spec {store : MojDbIndexStore} {later : List MojDbKeyRange} {pos : Position}
    {pending : List (MojDbKey × Nat)} (iterEq : pos.iter = range :: later)
    (scanning : Scanning store desc pos pending) :
    Landed store desc range later pending (advance store desc range pos).1
      (advance store desc range pos).2 := by
  rcases scanning with ⟨ordered, scanning⟩
  rw [iterEq] at ordered scanning
  have sorted := line_met desc store.keys
  unfold advance
  cases stateEq : pos.state with
  | seek =>
    simp only [stateEq] at scanning ⊢
    rcases scanning with ⟨reached, rfl⟩
    unfold seek
    simp only
    split_ifs with spared
    · rcases reached with fresh | ⟨passed, ahead, reached, outside⟩
      · exact absurd fresh spared.1
      · have entered : precedes desc range pos.keyData = false := by
          have compared := spared.2
          cases desc with
          | false => simpa [precedes, entryKey] using compared
          | true =>
            simp only [entryKey, if_true, decide_eq_true_eq] at compared
            simp [precedes, Below, compared]
        have allEntered : ∀ key ∈ pos.keyData :: ahead, precedes desc range key = false := by
          rw [reached.line] at sorted
          intro key member
          rcases List.mem_cons.mp member with same | member
          · rw [same, entered]
          · cases behind : precedes desc range key with
            | false => rfl
            | true =>
              have met := (List.pairwise_cons.mp (List.pairwise_append.mp sorted).2.1).1
              rw [precedes_closed desc range _ _ (met key member) behind] at entered
              exact entered
        have here := held_eq_takeWhile reached.line
          (fun key member => outside key member range List.mem_cons_self) allEntered
        simp only [Landed, if_true]
        refine ⟨iterEq, True.intro, passed, ahead, ⟨reached.line, reached.stands⟩,
          fun key member other otherIn =>
            outside key member other (List.mem_cons_of_mem _ otherIn), entered, ?_⟩
        rw [heldBy, List.flatMap_cons, here, heldBy]
    · rcases seekImpl_spec store desc range { pos with state := .next } with
        ⟨moved, stands, movedIter, movedState, same⟩
      rw [same]
      have line := (List.takeWhile_append_dropWhile (p := precedes desc range)
        (l := Cursor.line desc store.keys.elems)).symm
      have allEntered := dropWhile_fails sorted (precedes_closed desc range)
      have before : ∀ key ∈ (Cursor.line desc store.keys.elems).takeWhile (precedes desc range),
          ∀ other ∈ range :: later, ¬ other.contains key := by
        intro key member other otherIn inside
        have behind := mem_takeWhile_holds member
        have entered := ((contains_iff_met desc other key).mp inside).1
        rcases List.mem_cons.mp otherIn with same | otherIn
        · rw [same, behind] at entered
          cases entered
        · have order := (List.pairwise_cons.mp ordered.entered).1 other otherIn
          rw [precedes_of_entersBefore order key behind] at entered
          cases entered
      rw [heldBy, List.flatMap_cons, held_eq_takeWhile line
        (fun key member => before key member range List.mem_cons_self) allEntered]
      exact landed_of_readEntry (movedIter.trans iterEq) movedState line stands
        (fun key member other otherIn =>
          before key member other (List.mem_cons_of_mem _ otherIn)) allEntered
  | next =>
    simp only [stateEq] at scanning ⊢
    rcases scanning with ⟨passed, ahead, reached, outside, entered, rfl⟩
    have line : Cursor.line desc store.keys.elems = (passed ++ [pos.keyData]) ++ ahead := by
      rw [reached.line, List.append_assoc]
      rfl
    have allEntered : ∀ key ∈ ahead, precedes desc range key = false := by
      rw [reached.line] at sorted
      intro key member
      cases behind : precedes desc range key with
      | false => rfl
      | true =>
        have met := (List.pairwise_cons.mp (List.pairwise_append.mp sorted).2.1).1
        rw [precedes_closed desc range _ _ (met key member) behind] at entered
        exact entered
    exact landed_of_readEntry iterEq stateEq line
      reached.stands.step outside allEntered

/-- The first pending key is read and the rest stays pending, or nothing is found. -/
def Delivers (store : MojDbIndexStore) (desc : Bool) (pending : List (MojDbKey × Nat))
    (moved : Position) (group : Option Nat) : Prop :=
  match pending with
  | [] => group = none ∧ Scanning store desc moved []
  | next :: rest =>
    group = some next.2 ∧ moved.keyData = next.1 ∧ Scanning store desc moved rest

theorem getKey_spec {store : MojDbIndexStore} {pos : Position} {pending : List (MojDbKey × Nat)}
    (iterEq : pos.iter = ranges) (scanning : Scanning store desc pos pending) :
    Delivers store desc pending (getKey store desc ranges pos).1
      (getKey store desc ranges pos).2 := by
  induction ranges generalizing pos pending with
  | nil =>
    have nothing : pending = [] := by
      have last := scanning.2
      rw [iterEq] at last
      exact last
    rw [nothing] at scanning ⊢
    exact ⟨rfl, scanning⟩
  | cons range later ih =>
    have ordered := scanning.1
    rw [iterEq] at ordered
    have landed := advance_spec iterEq scanning
    rw [getKey]
    rcases advanced : advance store desc range pos with ⟨moved, found⟩
    rw [advanced] at landed
    cases found with
    | false =>
      simp only [Landed, Bool.false_eq_true, if_false] at landed
      rw [landed]
      exact ⟨rfl, ⟨List.Pairwise.nil, List.Pairwise.nil⟩, rfl⟩
    | true =>
      simp only [Landed, if_true] at landed
      rcases landed with ⟨movedIter, movedState, passed, ahead, reached, outside, entered, rfl⟩
      cases inside : inRange desc range moved.keyData with
      | true =>
        simp only [List.takeWhile_cons, inside, if_true, List.map_cons, List.cons_append]
        refine ⟨rfl, rfl, by rw [movedIter]; exact ordered, ?_⟩
        rw [movedIter, movedState]
        refine ⟨passed, ahead, reached, ?_, entered, rfl⟩
        intro key member other otherIn
        rcases List.mem_append.mp member with member | last
        · exact outside key member other otherIn
        · rw [List.mem_singleton.mp last]
          apply (List.pairwise_cons.mp ordered.disjoint).1 other otherIn
          exact (contains_iff_met desc range moved.keyData).mpr ⟨entered, inside⟩
      | false =>
        simp only [List.takeWhile_cons, inside, Bool.false_eq_true, if_false, List.map_nil,
          List.nil_append]
        apply ih rfl
        refine ⟨ordered.tail, ?_⟩
        cases later with
        | nil => rfl
        | cons other later =>
          exact ⟨Or.inr ⟨passed, ahead, ⟨reached.line, reached.stands⟩, outside⟩, rfl⟩

theorem scanning_start (store : MojDbIndexStore) (ordered : ScanOrdered desc ranges) :
    Scanning store desc ⟨ranges, .seek, .front, []⟩ (heldBy store desc ranges) := by
  refine ⟨ordered, ?_⟩
  cases ranges with
  | nil => rfl
  | cons range later => exact ⟨Or.inl rfl, rfl⟩

theorem length_held_le (store : MojDbIndexStore) (desc : Bool) (range : MojDbKeyRange) :
    (held store desc range).length ≤ store.keys.elems.length := by
  unfold held
  rw [List.length_map]
  apply le_trans (List.length_filter_le _ _)
  unfold Cursor.line
  split_ifs <;> simp

theorem length_heldBy_le (store : MojDbIndexStore) (desc : Bool) (ranges : List MojDbKeyRange) :
    (heldBy store desc ranges).length ≤ ranges.length * store.keys.elems.length := by
  induction ranges with
  | nil => simp [heldBy]
  | cons range later ih =>
    have here := length_held_le store desc range
    unfold heldBy at ih ⊢
    rw [List.flatMap_cons, List.length_append, List.length_cons, Nat.succ_mul]
    omega

theorem Scanning.length_le {store : MojDbIndexStore} {pos : Position}
    {pending : List (MojDbKey × Nat)} (scanning : Scanning store desc pos pending) :
    pending.length ≤ pos.iter.length * (store.keys.elems.length + 1) := by
  rcases scanning with ⟨_, scanning⟩
  cases iterEq : pos.iter with
  | nil =>
    simp only [iterEq] at scanning
    simp [scanning]
  | cons range later =>
    have total := length_heldBy_le store desc (range :: later)
    have behind := length_heldBy_le store desc later
    rw [List.length_cons, Nat.succ_mul] at total
    rw [List.length_cons, Nat.succ_mul, Nat.mul_succ]
    cases stateEq : pos.state with
    | seek =>
      simp only [iterEq, stateEq] at scanning
      rw [scanning.2]
      omega
    | next =>
      simp only [iterEq, stateEq] at scanning
      rcases scanning with ⟨passed, ahead, reached, _, _, rfl⟩
      have sizes := congrArg List.length reached.line
      have size : (Cursor.line desc store.keys.elems).length = store.keys.elems.length := by
        unfold Cursor.line
        split_ifs <;> simp
      have inner := (List.takeWhile_sublist (l := ahead) (inRange desc range)).length_le
      rw [size, List.length_append, List.length_cons] at sizes
      rw [List.length_append, List.length_map]
      omega

theorem met_list_eq {left right : List MojDbKey} (leftMet : left.Pairwise (Met desc))
    (rightMet : right.Pairwise (Met desc)) (same : ∀ key, key ∈ left ↔ key ∈ right) :
    left = right := by
  cases desc with
  | false => exact SortedSet.list_eq_of_mem_iff leftMet rightMet same
  | true =>
    apply List.reverse_injective
    apply SortedSet.list_eq_of_mem_iff
    · exact List.pairwise_reverse.mpr leftMet
    · exact List.pairwise_reverse.mpr rightMet
    · intro key
      rw [List.mem_reverse, List.mem_reverse]
      exact same key

theorem met_of_ranges {left right : MojDbKeyRange} (order : entersBefore desc left right)
    (disjoint : ∀ key, left.contains key → ¬ right.contains key) {leftKey rightKey : MojDbKey}
    (inLeft : left.contains leftKey) (inRight : right.contains rightKey) :
    Met desc leftKey rightKey := by
  by_contra notMet
  have behind : Met desc rightKey leftKey := by
    have distinct : leftKey ≠ rightKey := by
      intro same
      exact disjoint leftKey inLeft (same ▸ inRight)
    unfold Met at notMet ⊢
    cases desc with
    | false => exact lt_of_le_of_ne (not_lt.mp notMet) distinct.symm
    | true => exact lt_of_le_of_ne (not_lt.mp notMet) distinct
  -- the later range's key lies behind the earlier one's entry bound and before one of its keys
  apply disjoint rightKey _ inRight
  rw [contains_iff_met desc] at inLeft inRight ⊢
  refine ⟨?_, inRange_closed desc left rightKey leftKey behind inLeft.2⟩
  cases before : precedes desc left rightKey with
  | false => rfl
  | true =>
    rw [precedes_of_entersBefore order rightKey before] at inRight
    exact inRight.1

/-- Ranges in scan order hold the stored keys they contain, each once and in scan order. -/
theorem heldBy_keys (store : MojDbIndexStore) (ordered : ScanOrdered desc ranges) :
    (heldBy store desc ranges).map Prod.fst =
      (Cursor.line desc store.keys.elems).filter
        fun key => decide (∃ range ∈ ranges, range.contains key) := by
  have keysOf : ∀ range, (held store desc range).map Prod.fst =
      (Cursor.line desc store.keys.elems).filter fun key => decide (range.contains key) := by
    intro range
    rw [held, List.map_map]
    exact List.map_id _
  have sorted := line_met desc store.keys
  apply met_list_eq
  · rw [heldBy, List.map_flatMap, List.pairwise_flatMap]
    constructor
    · intro range _
      rw [keysOf]
      exact sorted.filter _
    · apply (ordered.entered.and ordered.disjoint).imp
      intro left right both leftKey leftIn rightKey rightIn
      rw [keysOf, List.mem_filter, decide_eq_true_eq] at leftIn rightIn
      exact met_of_ranges both.1 both.2 leftIn.2 rightIn.2
  · exact sorted.filter _
  · intro key
    rw [heldBy, List.map_flatMap, List.mem_flatMap, List.mem_filter, decide_eq_true_eq]
    constructor
    · intro member
      rcases member with ⟨range, rangeIn, member⟩
      rw [keysOf, List.mem_filter, decide_eq_true_eq] at member
      exact ⟨member.1, range, rangeIn, member.2⟩
    · intro member
      rcases member with ⟨stored, range, rangeIn, inside⟩
      refine ⟨range, rangeIn, ?_⟩
      rw [keysOf, List.mem_filter, decide_eq_true_eq]
      exact ⟨stored, inside⟩

end Position

def Scans (store : MojDbIndexStore) (query : MojDbIsamQuery) (pending : List (MojDbKey × Nat)) :
    Prop :=
  Position.Scanning store query.plan.query.desc query.toPosition pending

theorem openQuery_scans (store : MojDbIndexStore) {plan : MojDbQueryPlan}
    (excludeKinds : List MojString) (ordered : ScanOrdered plan.query.desc plan.ranges) :
    Scans store (openQuery plan excludeKinds)
      (Position.heldBy store plan.query.desc plan.ranges) :=
  Position.scanning_start store ordered

variable {store : MojDbIndexStore} {query : MojDbIsamQuery}

theorem limitEnforced_iff : query.limitEnforced = true ↔
    query.plan.query.limit.toNat ≤ query.count.toNat := by
  rw [limitEnforced, decide_eq_true_eq, BitVec.le_def]

theorem getKey_enforced (enforced : query.limitEnforced = true) :
    getKey store query = (query, none) := by
  rw [getKey, if_pos enforced]

theorem getKey_nil (unlimited : query.limitEnforced = false) (scans : Scans store query []) :
    ∃ pos, getKey store query = ({ query with toPosition := pos }, none) ∧
      Scans store { query with toPosition := pos } [] := by
  have delivers := Position.getKey_spec rfl scans
  rw [getKey, if_neg (by simp [unlimited])]
  exact ⟨(Position.getKey store query.plan.query.desc query.iter query.toPosition).1,
    Prod.ext rfl delivers.1, delivers.2⟩

theorem getKey_cons {next : MojDbKey × Nat} {rest : List (MojDbKey × Nat)}
    (unlimited : query.limitEnforced = false) (scans : Scans store query (next :: rest)) :
    ∃ pos, getKey store query = ({ query with toPosition := pos }, some next.2) ∧
      pos.keyData = next.1 ∧ Scans store { query with toPosition := pos } rest := by
  have delivers := Position.getKey_spec rfl scans
  rw [getKey, if_neg (by simp [unlimited])]
  exact ⟨(Position.getKey store query.plan.query.desc query.iter query.toPosition).1,
    Prod.ext rfl delivers.1, delivers.2.1, delivers.2.2⟩

variable {pending : List (MojDbKey × Nat)}

/-- At the limit, and behind the last key, nothing is found and only the position moves. -/
theorem getKey_none (stopped : query.limitEnforced = true ∨ pending = [])
    (scans : Scans store query pending) :
    ∃ pos, getKey store query = ({ query with toPosition := pos }, none) ∧
      Scans store { query with toPosition := pos } pending := by
  cases enforced : query.limitEnforced with
  | true => exact ⟨query.toPosition, getKey_enforced enforced, scans⟩
  | false =>
    rcases stopped with limit | nothing
    · rw [enforced] at limit
      cases limit
    · rw [nothing] at scans ⊢
      exact getKey_nil enforced scans

theorem getImpl_none (stopped : query.limitEnforced = true ∨ pending = [])
    (scans : Scans store query pending) :
    ∃ pos, getImpl store query = ({ query with toPosition := pos }, .ok (none, false)) ∧
      Scans store { query with toPosition := pos } pending := by
  rcases getKey_none stopped scans with ⟨pos, found, kept⟩
  exact ⟨pos, by rw [getImpl, found], kept⟩

theorem getImpl_cons {next : MojDbKey × Nat} {rest : List (MojDbKey × Nat)}
    (unlimited : query.limitEnforced = false) (scans : Scans store query (next :: rest)) :
    ∃ pos, getImpl store query =
        (match getVal store query.excludeKinds query.plan.idIndex next.1 with
        | .error err => ({ query with toPosition := pos }, .error err)
        | .ok item => receive { query with toPosition := pos } item) ∧
      pos.keyData = next.1 ∧ Scans store { query with toPosition := pos } rest := by
  rcases getKey_cons unlimited scans with ⟨pos, found, keyEq, kept⟩
  have same := getImpl.eq_1 store query
  rw [found] at same
  rw [← keyEq]
  exact ⟨pos, same, rfl, kept⟩

theorem Scans.incrementCount (scans : Scans store query pending) :
    Scans store query.incrementCount pending := by
  unfold Scans at scans ⊢
  rw [incrementCount_plan, incrementCount_toPosition]
  exact scans

theorem toNat_incrementCount (unlimited : query.limitEnforced = false) :
    query.incrementCount.count.toNat = query.count.toNat + 1 := by
  have small : ¬ query.plan.query.limit.toNat ≤ query.count.toNat := by
    rw [← limitEnforced_iff, unlimited]
    simp
  have fits := query.plan.query.limit.isLt
  rw [incrementCount_count, BitVec.toNat_add]
  exact Nat.mod_eq_of_lt (lt_of_le_of_lt (Nat.succ_le_of_lt (not_le.mp small)) fits)

theorem Scans.length_lt (scans : Scans store query pending) :
    pending.length < callBound store query :=
  Nat.lt_succ_of_le scans.length_le

end MojDbIsamQuery

end Db8.Db
