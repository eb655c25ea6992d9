import Db8.Core.Err
import Mathlib.Data.List.Basic

/-!
# Sequences

`MojDbSandwichSeq`, and `MojDbLevelSeq` with the same text: values are handed out from a page that
was reserved in the store before. The counters are natural numbers; the 64 bits of the code last
for more values than can be asked for. A sequence that is closed or lost has no memory, and the
store keeps the bound it took last.
-/

set_option autoImplicit false

namespace Db8.DbEngine.MojDbStorageSeq

open Db8.Core

def sequenceAllocationPage : Nat := 100

/-- `m_next` and `m_allocated` of an open sequence; the code has `MojUInt64` for both, and that they
wrap behind 2^64 is left out. -/
structure MojDbSandwichSeq where
  next : Nat
  allocated : Nat
deriving DecidableEq

structure World where
  seq : Option MojDbSandwichSeq
  stored : Option Nat
deriving DecidableEq

/-- The bound that the next `open` starts from. -/
def World.bound (world : World) : Nat := world.stored.getD 0

/-- `store`, with the checks of a debug build; the put into the store may fail. -/
def store (seq : MojDbSandwichSeq) (stored : Option Nat) (next : Nat) (failure : Option MojErr) :
    Except MojErr World := do
  mojAssert (decide (seq.next ≤ next)) "next >= m_next"
  if seq.allocated ≠ stored.getD 0 then .error .dbInconsistentIndex
  match failure with
  | some err => .error err
  | none => .ok ⟨some { seq with allocated := next }, some next⟩

def openSeq (stored : Option Nat) : MojDbSandwichSeq := ⟨stored.getD 0, stored.getD 0⟩

/-- `close`; the sequence stays open when the bound cannot be stored. -/
def close (seq : MojDbSandwichSeq) (stored : Option Nat) (failure : Option MojErr) : World :=
  match store seq stored seq.next failure with
  | .error _ => ⟨some seq, stored⟩
  | .ok world => ⟨none, world.stored⟩

/-- `get`; the value is used up also when the next page cannot be stored. -/
def get (seq : MojDbSandwichSeq) (stored : Option Nat) (failure : Option MojErr) :
    World × Except MojErr Nat :=
  let val := seq.next
  let seq := { seq with next := val + 1 }
  if seq.allocated ≤ val then
    match store seq stored (val + sequenceAllocationPage) failure with
    | .error err => (⟨some seq, stored⟩, .error err)
    | .ok world => (world, .ok val)
  else (⟨some seq, stored⟩, .ok val)

inductive Event where
  | get (failure : Option MojErr)
  | close (failure : Option MojErr)
  | crash
  | reopen

/-- One step, with the value a `get` returned. A sequence that is not open has no database to call. -/
def step (world : World) : Event → World × Option Nat
  | .get failure =>
    match world.seq with
    | none => (world, none)
    | some seq =>
      let got := get seq world.stored failure
      (got.1, got.2.toOption)
  | .close failure =>
    match world.seq with
    | none => (world, none)
    | some seq => (close seq world.stored failure, none)
  | .crash => (⟨none, world.stored⟩, none)
  | .reopen => (⟨some (openSeq world.stored), world.stored⟩, none)

def run : World → List Event → World × List Nat
  | world, [] => (world, [])
  | world, event :: rest =>
    let stepped := step world event
    let ran := run stepped.1 rest
    (ran.1, stepped.2.toList ++ ran.2)

/-- Whatever was handed out is below `top`, and so is what the sequence will not hand out again. -/
structure Ahead (top : Nat) (world : World) : Prop where
  bound : top ≤ world.bound
  next : ∀ seq, world.seq = some seq → top ≤ seq.next
  allocated : ∀ seq, world.seq = some seq → seq.allocated = world.bound

variable {top : Nat} {stored : Option Nat}

theorem ahead_closed (bound : top ≤ stored.getD 0) :
    Ahead top ⟨none, stored⟩ where
  bound := bound
  next _ impossible := by cases impossible
  allocated _ impossible := by cases impossible

theorem ahead_open {seq : MojDbSandwichSeq} (bound : top ≤ stored.getD 0) (next : top ≤ seq.next)
    (allocated : seq.allocated = stored.getD 0) : Ahead top ⟨some seq, stored⟩ where
  bound := bound
  next _ same := Option.some.inj same ▸ next
  allocated _ same := Option.some.inj same ▸ allocated

theorem store_eq {seq : MojDbSandwichSeq} {stored : Option Nat} {next : Nat}
    (failure : Option MojErr) (below : seq.next ≤ next)
    (allocated : seq.allocated = stored.getD 0) :
    store seq stored next failure =
      match failure with
      | some err => .error err
      | none => .ok ⟨some { seq with allocated := next }, some next⟩ := by
  unfold store
  simp [mojAssert, below, allocated, bind, Except.bind]

theorem get_spec {seq : MojDbSandwichSeq} (ahead : Ahead top ⟨some seq, stored⟩)
    (failure : Option MojErr) :
    (∃ val, (get seq stored failure).2 = .ok val ∧ top ≤ val ∧
        Ahead (val + 1) (get seq stored failure).1) ∨
      ∃ err, failure = some err ∧ (get seq stored failure).2 = .error err ∧
        Ahead top (get seq stored failure).1 := by
  have above := ahead.next seq rfl
  have allocated : seq.allocated = stored.getD 0 := ahead.allocated seq rfl
  have bound : top ≤ stored.getD 0 := ahead.bound
  unfold get
  simp only
  split_ifs with used
  · have stores := @store_eq ⟨seq.next + 1, seq.allocated⟩ stored
      (seq.next + sequenceAllocationPage) failure (Nat.add_le_add_left (by decide) seq.next)
      allocated
    rw [stores]
    cases failure with
    | some err =>
      apply Or.inr
      refine ⟨err, rfl, rfl, ahead_open bound ?_ allocated⟩
      exact above.trans (Nat.le_succ seq.next)
    | none =>
      apply Or.inl
      refine ⟨seq.next, rfl, above, ahead_open ?_ (Nat.le_refl _) rfl⟩
      exact Nat.add_le_add_left (by decide) seq.next
  · apply Or.inl
    refine ⟨seq.next, rfl, above, ahead_open ?_ (Nat.le_refl _) allocated⟩
    rw [← allocated]
    exact not_le.mp used

theorem close_spec {seq : MojDbSandwichSeq} (ahead : Ahead top ⟨some seq, stored⟩)
    (failure : Option MojErr) : Ahead top (close seq stored failure) := by
  have allocated : seq.allocated = stored.getD 0 := ahead.allocated seq rfl
  unfold close
  rw [store_eq failure (Nat.le_refl _) allocated]
  cases failure with
  | some err => exact ahead
  | none => exact ahead_closed (ahead.next seq rfl)

theorem step_spec {world : World} (ahead : Ahead top world) (event : Event) :
    (step world event).2 = none ∧ Ahead top (step world event).1 ∨
      ∃ val, (step world event).2 = some val ∧ top ≤ val ∧ Ahead (val + 1) (step world event).1 := by
  rcases world with ⟨memory, stored⟩
  cases event with
  | crash => exact Or.inl ⟨rfl, ahead_closed ahead.bound⟩
  | reopen => exact Or.inl ⟨rfl, ahead_open ahead.bound ahead.bound rfl⟩
  | close failure =>
    cases memory with
    | none => exact Or.inl ⟨rfl, ahead⟩
    | some seq => exact Or.inl ⟨rfl, close_spec ahead failure⟩
  | get failure =>
    cases memory with
    | none => exact Or.inl ⟨rfl, ahead⟩
    | some seq =>
      rcases get_spec ahead failure with ⟨val, got, above, next⟩ | ⟨err, -, got, next⟩
      · apply Or.inr
        refine ⟨val, ?_, above, next⟩
        simp only [step, got]
        rfl
      · apply Or.inl
        refine ⟨?_, next⟩
        simp only [step, got]
        rfl

/-- After a run the sequence is ahead of all it handed out, each value above the ones before. -/
theorem run_ahead {world : World} (ahead : Ahead top world) (events : List Event) :
    ∃ next, top ≤ next ∧ Ahead next (run world events).1 ∧
      (run world events).2.Pairwise (· < ·) ∧
      ∀ val ∈ (run world events).2, top ≤ val ∧ val < next := by
  induction events generalizing top world with
  | nil =>
    refine ⟨top, Nat.le_refl top, ahead, List.Pairwise.nil, ?_⟩
    intro val impossible
    cases impossible
  | cons event rest ih =>
    rw [run]
    rcases step_spec ahead event with ⟨none, after⟩ | ⟨val, some, above, after⟩
    · rw [none]
      exact ih after
    · rw [some]
      rcases ih after with ⟨next, ranAbove, ranAhead, increasing, between⟩
      refine ⟨next, by omega, ranAhead, ?_, ?_⟩
      · apply List.Pairwise.cons _ increasing
        intro later member
        exact (between later member).1
      · intro other member
        rcases List.mem_cons.mp member with same | member
        · rw [same]
          exact ⟨above, ranAbove⟩
        · have inside := between other member
          exact ⟨by omega, inside.2⟩

theorem run_spec {world : World} (ahead : Ahead top world) (events : List Event) :
    (run world events).2.Pairwise (· < ·) ∧
      ∀ val ∈ (run world events).2, top ≤ val ∧ val < (run world events).1.bound := by
  rcases run_ahead ahead events with ⟨next, -, ranAhead, increasing, between⟩
  apply And.intro increasing
  intro val member
  exact ⟨(between val member).1, lt_of_lt_of_le (between val member).2 ranAhead.bound⟩

/-- No value is handed out twice, and the stored bound is ahead of all of them. -/
theorem values_unique (stored : Option Nat) (events : List Event) :
    (run ⟨none, stored⟩ events).2.Pairwise (· < ·) ∧
      ∀ val ∈ (run ⟨none, stored⟩ events).2, val < (run ⟨none, stored⟩ events).1.bound := by
  have ran := run_spec (ahead_closed (Nat.zero_le (stored.getD 0))) events
  exact ⟨ran.1, fun val member => (ran.2 val member).2⟩

example : (run ⟨none, none⟩ [.reopen, .get none, .get none, .crash, .reopen, .get (some .dbDeadlock),
    .get none, .close none, .reopen, .get none]).2 = [0, 1, 101, 102] := by decide

end Db8.DbEngine.MojDbStorageSeq
