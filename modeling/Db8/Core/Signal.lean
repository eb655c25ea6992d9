import Mathlib.Data.List.Nodup
import Mathlib.Logic.Function.Basic
import Db8.Steps

/-!
# Signals

`MojSignal` and its slots, on one thread. The lists are intrusive: a slot is unlinked from whichever
list it is in, while the size that is counted down is that of the list asked to erase it. A call or
fire moves the slots to a list of its own and goes through it with the lock released. Whoever cancels
a slot that is still waiting there, or leaves with an error while one is, breaks the bookkeeping.
-/

set_option autoImplicit false

namespace Db8.Core

open Db8.Steps

/-- An intrusive list: what is linked, in order, and the counter beside it. The counter goes below
zero where the source's wraps around. -/
structure MojList (σ : Type) where
  entries : List σ
  size : Int

namespace MojList

variable {σ : Type}

def init : MojList σ := ⟨[], 0⟩

def empty (list : MojList σ) : Bool := decide (list.size = 0)

def pushBack (list : MojList σ) (val : σ) : MojList σ := ⟨list.entries ++ [val], list.size + 1⟩

/-- With nothing linked, the entry taken off would be the list's own, which is no slot. -/
def popFront (list : MojList σ) : Option (σ × MojList σ) :=
  match list.entries with
  | [] => none
  | val :: rest => some (val, ⟨rest, list.size - 1⟩)

/-- `MojListEntry::erase` of a slot, for a list that may have it. -/
def unlink [DecidableEq σ] (list : MojList σ) (val : σ) : MojList σ :=
  { list with entries := list.entries.erase val }

def erase [DecidableEq σ] (list : MojList σ) (val : σ) : MojList σ :=
  ⟨list.entries.erase val, list.size - 1⟩

def Counted (list : MojList σ) : Prop := list.size = list.entries.length

theorem counted_pushBack {list : MojList σ} (counted : list.Counted) (val : σ) :
    (list.pushBack val).Counted := by
  rw [Counted, pushBack, counted, List.length_append]
  rfl

theorem counted_pop {list : MojList σ} (counted : list.Counted) {val : σ} {rest : List σ}
    (entries : list.entries = val :: rest) : Counted ⟨rest, list.size - 1⟩ := by
  dsimp only [Counted] at counted ⊢
  rw [counted, entries, List.length_cons]
  omega

theorem counted_erase [DecidableEq σ] {list : MojList σ} (counted : list.Counted) {val : σ}
    (member : val ∈ list.entries) : (list.erase val).Counted := by
  have filled := List.length_pos_of_mem member
  dsimp only [Counted, erase] at counted ⊢
  rw [counted, List.length_erase_of_mem member]
  omega

end MojList

inductive SignalMode where
  | call
  | fire
deriving DecidableEq

/-- A call or fire in progress: the list it goes through and, for the record, what was connected when
it started, what has been invoked and what was cancelled before its turn. -/
structure SignalRound (σ : Type) where
  mode : SignalMode
  list : MojList σ
  started : σ → Bool
  invoked : List σ
  withdrawn : List σ

structure SignalRecord (σ : Type) where
  started : σ → Bool
  invoked : List σ
  withdrawn : List σ
  failed : Bool

structure MojSignal (σ : Type) where
  slots : MojList σ
  connected : σ → Bool
  round : Option (SignalRound σ)
  records : List (SignalRecord σ)

inductive SignalOp (σ : Type) where
  | connect (slot : σ)
  | cancel (slot : σ)
  | start (mode : SignalMode)
  | returned
  | failed
deriving DecidableEq

namespace MojSignal

variable {σ : Type} [DecidableEq σ]

def init : MojSignal σ := ⟨MojList.init, fun _ => false, none, []⟩

/-- A slot that is connected already may not be connected, as the source asserts. -/
def connect (slot : σ) (signal : MojSignal σ) : Option (MojSignal σ) :=
  if signal.connected slot then none
  else some { signal with
    slots := signal.slots.pushBack slot
    connected := Function.update signal.connected slot true }

def SignalRound.cancel (slot : σ) (round : SignalRound σ) : SignalRound σ :=
  { round with
    list := round.list.unlink slot
    withdrawn := if slot ∈ round.invoked then round.withdrawn else slot :: round.withdrawn }

def cancel (slot : σ) (signal : MojSignal σ) : MojSignal σ :=
  if signal.connected slot then
    { signal with
      slots := signal.slots.erase slot
      connected := Function.update signal.connected slot false
      round := signal.round.map (SignalRound.cancel slot) }
  else signal

/-- The loop of `call` and `fire` up to the next slot it invokes, or to its end. -/
def loop (round : SignalRound σ) (signal : MojSignal σ) : Option (MojSignal σ) :=
  if round.list.empty then
    some { signal with
      round := none
      records := signal.records ++ [⟨round.started, round.invoked, round.withdrawn, false⟩] }
  else
    match round.list.popFront with
    | none => none
    | some (slot, list) =>
      let round := { round with list := list, invoked := round.invoked ++ [slot] }
      match round.mode with
      | .call => some { signal with slots := signal.slots.pushBack slot, round := some round }
      | .fire => some { signal with
          connected := Function.update signal.connected slot false, round := some round }

/-- Handlers connect and cancel slots; they do not call or fire the signal they are invoked by. -/
def start (mode : SignalMode) (signal : MojSignal σ) : Option (MojSignal σ) :=
  match signal.round with
  | some _ => none
  | none => loop ⟨mode, signal.slots, signal.connected, [], []⟩ { signal with slots := MojList.init }

/-- The handler of the slot invoked last comes back. After an error the list of the round goes away
with the slots in it unlinked. -/
def step : SignalOp σ → MojSignal σ → Option (MojSignal σ)
  | .connect slot, signal => signal.connect slot
  | .cancel slot, signal => some (signal.cancel slot)
  | .start mode, signal => signal.start mode
  | .returned, signal => signal.round.bind fun round => loop round signal
  | .failed, signal => signal.round.map fun round =>
    { signal with
      round := none
      records := signal.records ++ [⟨round.started, round.invoked, round.withdrawn, true⟩] }

/-- The slots whose turn in the round is still to come. -/
def waiting (signal : MojSignal σ) : List σ :=
  (signal.round.map fun round => round.list.entries).getD []

end MojSignal

/-- Every slot that was connected at the start, and not cancelled before its turn, has been invoked
exactly once, unless a handler failed before its turn. -/
def SignalRecord.Complete {σ : Type} [DecidableEq σ] (record : SignalRecord σ) : Prop :=
  ∀ slot, record.started slot = true → slot ∉ record.withdrawn →
    record.invoked.count slot = 1 ∨ record.failed = true ∧ slot ∉ record.invoked

namespace MojSignal

variable {σ : Type} [DecidableEq σ]

/-- Between rounds the slots of the list are those that are connected, and the list's size is theirs;
a round in progress can go on; and every round that is done was complete. -/
structure Bookkept (signal : MojSignal σ) : Prop where
  linked : signal.round = none → ∀ slot, signal.connected slot = true ↔ slot ∈ signal.slots.entries
  counted : signal.round = none → signal.slots.Counted
  goesOn : signal.round ≠ none → step .returned signal ≠ none
  complete : ∀ record ∈ signal.records, record.Complete

/-- No slot is cancelled while it waits for its turn, and no handler fails while one waits. -/
def Minds : SignalOp σ → MojSignal σ → Prop
  | .cancel slot, signal => slot ∉ signal.waiting
  | .failed, signal => signal.waiting = []
  | _, _ => True

instance (op : SignalOp σ) (signal : MojSignal σ) : Decidable (Minds op signal) := by
  cases op <;> unfold Minds <;> infer_instance

/-- What every step keeps: the slots that are connected are linked once, in the signal's list or in
the round's, and the round has been through the others it started with. -/
structure Sound (signal : MojSignal σ) : Prop where
  counted : signal.slots.Counted
  nodup : (signal.slots.entries ++ signal.waiting).Nodup
  linked : ∀ slot, signal.connected slot = true ↔ slot ∈ signal.slots.entries ++ signal.waiting
  roundCounted : ∀ round, signal.round = some round → round.list.Counted
  started : ∀ round, signal.round = some round →
    ∀ slot, round.started slot = true ↔ slot ∈ round.invoked ++ round.list.entries
  once : ∀ round, signal.round = some round → (round.invoked ++ round.list.entries).Nodup
  complete : ∀ record ∈ signal.records, record.Complete

theorem sound_init : Sound (init : MojSignal σ) := by
  constructor <;> simp [init, MojList.init, MojList.Counted, waiting]

omit [DecidableEq σ] in
theorem waiting_none {signal : MojSignal σ} (idle : signal.round = none) : signal.waiting = [] := by
  simp [waiting, idle]

omit [DecidableEq σ] in
theorem waiting_some {signal : MojSignal σ} {round : SignalRound σ}
    (busy : signal.round = some round) : signal.waiting = round.list.entries := by
  simp [waiting, busy]

theorem sound_connect {slot : σ} {signal next : MojSignal σ} (sound : Sound signal)
    (stepped : connect slot signal = some next) : Sound next := by
  unfold connect at stepped
  split at stepped
  · cases stepped
  · next unconnected =>
      cases stepped
      have fresh : slot ∉ signal.slots.entries ++ signal.waiting := by
        rw [← sound.linked]
        exact unconnected
      have front : (signal.slots.entries ++ [slot] ++ signal.waiting).Perm
          (slot :: (signal.slots.entries ++ signal.waiting)) := by
        rw [List.append_assoc]
        exact List.perm_middle
      refine ⟨MojList.counted_pushBack sound.counted slot, ?_, ?_, sound.roundCounted,
        sound.started, sound.once, sound.complete⟩
      · exact front.nodup_iff.mpr (List.nodup_cons.mpr ⟨fresh, sound.nodup⟩)
      · intro other
        have others := sound.linked other
        apply Iff.trans _ front.mem_iff.symm
        by_cases same : other = slot
        · simp [same]
        · simpa [same] using others

theorem sound_cancel {slot : σ} {signal : MojSignal σ} (sound : Sound signal)
    (apart : slot ∉ signal.waiting) : Sound (cancel slot signal) := by
  unfold cancel
  split
  · next connected =>
      have linked : slot ∈ signal.slots.entries := by
        have either := (sound.linked slot).mp connected
        exact (List.mem_append.mp either).resolve_right apart
      have kept : ∀ round, signal.round = some round → round.list.unlink slot = round.list := by
        intro round busy
        rw [waiting_some busy] at apart
        rw [MojList.unlink, List.erase_of_not_mem apart]
      have waits : waiting { signal with
          slots := signal.slots.erase slot
          connected := Function.update signal.connected slot false
          round := signal.round.map (SignalRound.cancel slot) } = signal.waiting := by
        cases busy : signal.round with
        | none => simp [waiting, busy]
        | some round => simp [waiting, busy, SignalRound.cancel, kept round busy]
      have erased : signal.slots.entries.erase slot ++ signal.waiting =
          (signal.slots.entries ++ signal.waiting).erase slot := by
        rw [List.erase_append_left _ linked]
      refine ⟨MojList.counted_erase sound.counted linked, ?_, ?_, ?_, ?_, ?_, sound.complete⟩
      · rw [waits]
        dsimp only [MojList.erase]
        rw [erased]
        exact sound.nodup.erase slot
      · intro other
        rw [waits]
        dsimp only [MojList.erase]
        rw [erased, sound.nodup.mem_erase_iff, ← sound.linked]
        by_cases same : other = slot
        · simp [same]
        · simp [same]
      · rintro _ after
        rcases Option.map_eq_some_iff.mp after with ⟨round, busy, rfl⟩
        rw [SignalRound.cancel, kept round busy]
        exact sound.roundCounted round busy
      · rintro _ after
        rcases Option.map_eq_some_iff.mp after with ⟨round, busy, rfl⟩
        rw [SignalRound.cancel, kept round busy]
        exact sound.started round busy
      · rintro _ after
        rcases Option.map_eq_some_iff.mp after with ⟨round, busy, rfl⟩
        rw [SignalRound.cancel, kept round busy]
        exact sound.once round busy
  · exact sound

/-- What the loop goes by: the signal's list and the round's, before the next slot is taken off. -/
structure Turning (round : SignalRound σ) (signal : MojSignal σ) : Prop where
  counted : signal.slots.Counted
  nodup : (signal.slots.entries ++ round.list.entries).Nodup
  linked : ∀ slot, signal.connected slot = true ↔
    slot ∈ signal.slots.entries ++ round.list.entries
  roundCounted : round.list.Counted
  started : ∀ slot, round.started slot = true ↔ slot ∈ round.invoked ++ round.list.entries
  once : (round.invoked ++ round.list.entries).Nodup
  complete : ∀ record ∈ signal.records, record.Complete

omit [DecidableEq σ] in
theorem empty_iff {list : MojList σ} (counted : list.Counted) :
    list.empty = true ↔ list.entries = [] := by
  rw [MojList.empty, decide_eq_true_eq, counted, ← List.length_eq_zero_iff]
  omega

theorem complete_of_turning {round : SignalRound σ} {signal : MojSignal σ}
    (turning : Turning round signal) (done : round.list.entries = []) (failed : Bool) :
    SignalRecord.Complete ⟨round.started, round.invoked, round.withdrawn, failed⟩ := by
  intro slot started _
  have turn := (turning.started slot).mp started
  have once := turning.once
  rw [done, List.append_nil] at turn once
  exact .inl (List.count_eq_one_of_mem once turn)

theorem complete_append {records : List (SignalRecord σ)} {record : SignalRecord σ}
    (old : ∀ record ∈ records, record.Complete) (new : record.Complete) :
    ∀ other ∈ records ++ [record], other.Complete := by
  intro other member
  rcases List.mem_append.mp member with kept | last
  · exact old other kept
  · rw [List.mem_singleton.mp last]
    exact new

theorem loop_sound {round : SignalRound σ} {signal : MojSignal σ}
    (turning : Turning round signal) : ∃ next, loop round signal = some next ∧ Sound next := by
  unfold loop
  split
  · next empty =>
      have done := (empty_iff turning.roundCounted).mp empty
      refine ⟨_, rfl, turning.counted, ?_, ?_, ?_, ?_, ?_, ?_⟩
      · simpa [waiting, done] using turning.nodup
      · simpa [waiting, done] using turning.linked
      · rintro _ ⟨⟩
      · rintro _ ⟨⟩
      · rintro _ ⟨⟩
      · exact complete_append turning.complete (complete_of_turning turning done false)
  · next more =>
      cases entries : round.list.entries with
      | nil => exact absurd ((empty_iff turning.roundCounted).mpr entries) more
      | cons slot rest =>
        have popped : round.list.popFront = some (slot, ⟨rest, round.list.size - 1⟩) := by
          rw [MojList.popFront, entries]
        have counted := MojList.counted_pop turning.roundCounted entries
        have moved : round.invoked ++ round.list.entries = round.invoked ++ [slot] ++ rest := by
          rw [entries, List.append_assoc, List.singleton_append]
        have nodup := turning.nodup
        have linked := turning.linked
        have started := turning.started
        have once := turning.once
        rw [moved] at once
        simp only [moved] at started
        rw [entries] at nodup
        simp only [entries] at linked
        rw [popped]
        dsimp only
        cases round.mode with
        | call =>
          refine ⟨_, rfl, MojList.counted_pushBack turning.counted slot, ?_, ?_, ?_, ?_, ?_,
            turning.complete⟩
          · simpa [waiting, MojList.pushBack] using nodup
          · simpa [waiting, MojList.pushBack] using linked
          · rintro _ ⟨⟩
            exact counted
          · rintro _ ⟨⟩
            exact started
          · rintro _ ⟨⟩
            exact once
        | fire =>
          have front : (signal.slots.entries ++ slot :: rest).Perm
              (slot :: (signal.slots.entries ++ rest)) := List.perm_middle
          have apart := List.nodup_cons.mp (front.nodup_iff.mp nodup)
          refine ⟨_, rfl, turning.counted, ?_, ?_, ?_, ?_, ?_, turning.complete⟩
          · simpa [waiting] using apart.2
          · intro other
            have others := linked other
            rw [front.mem_iff, List.mem_cons] at others
            by_cases same : other = slot
            · simpa [waiting, same] using apart.1
            · simpa [waiting, same] using others
          · rintro _ ⟨⟩
            exact counted
          · rintro _ ⟨⟩
            exact started
          · rintro _ ⟨⟩
            exact once

theorem turning_of_sound {signal : MojSignal σ} (sound : Sound signal) {round : SignalRound σ}
    (busy : signal.round = some round) : Turning round signal := by
  have nodup := sound.nodup
  have linked := sound.linked
  rw [waiting_some busy] at nodup
  simp only [waiting_some busy] at linked
  exact ⟨sound.counted, nodup, linked, sound.roundCounted round busy, sound.started round busy,
    sound.once round busy, sound.complete⟩

theorem sound_step (op : SignalOp σ) (signal next : MojSignal σ) (sound : Sound signal)
    (minds : Minds op signal) (stepped : step op signal = some next) : Sound next := by
  cases op with
  | connect slot => exact sound_connect sound stepped
  | cancel slot =>
    cases stepped
    exact sound_cancel sound minds
  | start mode =>
    rw [step, start] at stepped
    cases idle : signal.round with
    | some round =>
      rw [idle] at stepped
      cases stepped
    | none =>
      rw [idle] at stepped
      have nodup := sound.nodup
      have linked := sound.linked
      rw [waiting_none idle, List.append_nil] at nodup
      simp only [waiting_none idle, List.append_nil] at linked
      have turning : Turning ⟨mode, signal.slots, signal.connected, [], []⟩
          { signal with slots := MojList.init } :=
        ⟨rfl, nodup, linked, sound.counted, linked, nodup, sound.complete⟩
      rcases loop_sound turning with ⟨after, looped, kept⟩
      cases looped.symm.trans stepped
      exact kept
  | returned =>
    rcases Option.bind_eq_some_iff.mp stepped with ⟨round, busy, stepped⟩
    rcases loop_sound (turning_of_sound sound busy) with ⟨after, looped, kept⟩
    cases looped.symm.trans stepped
    exact kept
  | failed =>
    rcases Option.map_eq_some_iff.mp stepped with ⟨round, busy, rfl⟩
    have turning := turning_of_sound sound busy
    have done : round.list.entries = [] := by
      rw [← waiting_some busy]
      exact minds
    refine ⟨turning.counted, ?_, ?_, ?_, ?_, ?_, ?_⟩
    · simpa [waiting, done] using turning.nodup
    · simpa [waiting, done] using turning.linked
    · rintro _ ⟨⟩
    · rintro _ ⟨⟩
    · rintro _ ⟨⟩
    · exact complete_append turning.complete (complete_of_turning turning done true)

theorem bookkept_of_sound {signal : MojSignal σ} (sound : Sound signal) : Bookkept signal := by
  refine ⟨?_, fun _ => sound.counted, ?_, sound.complete⟩
  · intro idle slot
    rw [sound.linked, waiting_none idle, List.append_nil]
  · intro busy stuck
    rcases Option.ne_none_iff_exists'.mp busy with ⟨round, busy⟩
    rcases loop_sound (turning_of_sound sound busy) with ⟨after, looped, _⟩
    rw [step, busy, Option.bind_some, looped] at stuck
    cases stuck

/-- In every run that cancels no slot waiting for its turn and fails at no turn but the last, the
bookkeeping is right in every state. -/
theorem run_bookkept (ops : List (SignalOp σ)) (signal : MojSignal σ)
    (minds : Throughout step Minds ops init) (ran : run step ops init = some signal) :
    Bookkept signal :=
  bookkept_of_sound (run_keeps_where sound_step sound_init minds ran)

/-- The first slot connects itself again while it is fired, is cancelled by the second one, and the
second one fails. -/
theorem run_bookkept_of_two :
    ∃ signal, run step [.connect false, .connect true, .start .fire, .connect false, .returned,
      .cancel false, .failed] init = some signal ∧ Bookkept signal :=
  ⟨_, rfl, run_bookkept [.connect false, .connect true, .start .fire, .connect false, .returned,
    .cancel false, .failed] _ (by decide) rfl⟩

/-- A handler that fails leaves the other slot connected and in no list; one that cancels the other
slot leaves a size below zero, and the round goes on to an entry that is no slot. -/
theorem run_not_bookkept :
    (∃ signal, run step [.connect false, .connect true, .start .fire, .failed] init = some signal ∧
        signal.round = none ∧ signal.connected true = true ∧ true ∉ signal.slots.entries) ∧
      (∃ signal, run step [.connect false, .connect true, .start .fire, .cancel true] init =
        some signal ∧ signal.slots.size = -1 ∧ step .returned signal = none) ∧
      ¬∀ (ops : List (SignalOp Bool)) (signal : MojSignal Bool),
        run step ops init = some signal → Bookkept signal := by
  refine ⟨⟨_, rfl, rfl, rfl, by decide⟩, ⟨_, rfl, rfl, rfl⟩, ?_⟩
  intro all
  have kept := all [.connect false, .connect true, .start .fire, .failed] _ rfl
  exact absurd ((kept.linked rfl true).mp rfl) (by decide)

end MojSignal

end Db8.Core
