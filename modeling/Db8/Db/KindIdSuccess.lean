import Db8.Db.KindIdSpecs

/-!
# When the engine succeeds

The engine fails only when something is refused, or when two indexes of a kind have one name.
-/

set_option autoImplicit false

namespace Db8.Db.KindIds

open Db8.Bytes
open Db8.Core
open Db8.DbEngine
open Db8.DbEngine.MojDbStorageSeq (Ahead)
open Db8.Programs

structure Smooth (working : Working) : Prop where
  faults : ∀ failure ∈ working.faults, failure = none
  opened : working.seq.seq.isSome
  ahead : ∃ top, Ahead top working.seq

section Success

variable {id : MojString}

theorem Smooth.head {working : Working} (smooth : Smooth working) :
    working.faults.head?.getD none = none := by
  cases faults : working.faults with
  | nil => rfl
  | cons failure rest =>
    apply smooth.faults
    rw [faults]
    exact List.mem_cons_self

theorem Smooth.tail {working : Working} (smooth : Smooth working) :
    Smooth { working with faults := working.faults.tail } where
  faults failure member := smooth.faults failure (List.mem_of_mem_tail member)
  opened := smooth.opened
  ahead := smooth.ahead

theorem sure_ask : Sure Smooth ask := by
  intro working smooth
  unfold ask
  rw [smooth.head]
  exact ⟨(), _, rfl, smooth.tail⟩

theorem sure_setRow (key : IdsKey) (name : MojString) (val : Option Nat) :
    Sure Smooth (setRow id key name val) :=
  sure_modify fun _ smooth => ⟨smooth.faults, smooth.opened, smooth.ahead⟩

theorem nextId_faults {working after : Working} {val : Nat}
    (ran : MojDbKindState.nextId working = .ok val after) : after.faults = working.faults.tail := by
  unfold MojDbKindState.nextId at ran
  cases seq : working.seq.seq with
  | none =>
    rw [seq] at ran
    cases ran
  | some seq' =>
    rw [seq] at ran
    dsimp only at ran
    cases got : (MojDbStorageSeq.get seq' working.seq.stored (working.faults.head?.getD none)).2 with
    | error err =>
      rw [got] at ran
      cases ran
    | ok val =>
      rw [got] at ran
      cases ran
      rfl

theorem sure_nextId : Sure Smooth MojDbKindState.nextId := by
  intro working smooth
  rcases smooth.ahead with ⟨top, ahead⟩
  rcases nextId_ahead ahead with ⟨err, after, ran, -, fault⟩ | ⟨val, after, ran, -, further⟩
  · rcases fault smooth.opened with ⟨failure, member, impossible⟩
    exact absurd (smooth.faults failure member) impossible
  · have opened := (nextId_last working).2.2.2 smooth.opened
    rw [ran] at opened
    refine ⟨val, after, ran, ?_, opened, val + 1, further⟩
    rw [nextId_faults ran]
    exact smooth.tail.faults

theorem sure_id (key : IdsKey) (name : MojString) : Sure Smooth (MojDbKindState.id id key name) := by
  unfold MojDbKindState.id
  apply Sure.bind sure_ask
  rintro ⟨⟩
  apply Sure.bind sure_get
  intro working
  cases working.disk.rows id key name with
  | some there => exact sure_pure there
  | none =>
    apply Sure.bind sure_nextId
    intro val
    apply Sure.bind sure_ask
    rintro ⟨⟩
    exact Sure.bind (sure_setRow key name (some val)) fun _ => sure_pure val

theorem sure_dropIndex (index : IndexObject) : Sure Smooth (MojDbKind.dropIndex id index) := by
  unfold MojDbKind.dropIndex MojDbKindState.delIndex
  apply Sure.bind _ fun _ => sure_ask
  exact Sure.bind sure_ask fun _ => sure_setRow .indexIds index.name none

theorem sure_dropIndexes (given : List IndexObject) (old : List (IndexObject × Nat)) :
    Sure Smooth (MojDbKind.dropIndexes id given old) := by
  induction old with
  | nil => exact sure_pure []
  | cons index old ih =>
    rw [MojDbKind.dropIndexes]
    split_ifs
    · exact Sure.bind ih fun kept => sure_pure (index :: kept)
    · exact Sure.bind (sure_dropIndex index.1) fun _ => ih

theorem sure_addIndexes (indexes : List IndexObject) :
    Sure Smooth (MojDbKind.addIndexes id indexes) := by
  induction indexes with
  | nil => exact sure_pure []
  | cons index indexes ih =>
    rw [MojDbKind.addIndexes]
    apply Sure.bind
    · unfold MojDbKind.openIndex
      apply Sure.bind sure_ask
      rintro ⟨⟩
      apply Sure.bind (sure_id .indexIds index.name)
      intro val
      exact Sure.bind sure_ask fun _ => sure_pure val
    · intro val
      exact Sure.bind ih fun added => sure_pure ((index, val) :: added)

theorem sure_remember (kind : Kind) : Sure Smooth (MojDbKind.remember id kind) := by
  apply sure_modify
  intro working smooth
  split_ifs
  · exact ⟨smooth.faults, smooth.opened, smooth.ahead⟩
  · exact smooth

variable {given : List IndexObject} (names : ((wanted given).map IndexObject.name).Nodup)

include names

theorem sure_configureIndexes (old : List (IndexObject × Nat)) :
    Sure Smooth (MojDbKind.configureIndexes id old given) := by
  unfold MojDbKind.configureIndexes
  unfold wanted at names
  dsimp only
  rw [if_pos names]
  apply Sure.bind (sure_dropIndexes _ old)
  intro kept
  exact Sure.bind (sure_addIndexes _) fun added => sure_pure (kept ++ added)

theorem sure_configure (old : List (IndexObject × Nat)) :
    Sure Smooth (MojDbKind.configure id old given) := by
  unfold MojDbKind.configure
  apply Sure.bind sure_ask
  rintro ⟨⟩
  apply Sure.bind (sure_remember _)
  rintro ⟨⟩
  apply Sure.bind (sure_id .kindTokens id)
  intro token
  apply Sure.bind (sure_remember _)
  rintro ⟨⟩
  apply Sure.bind sure_ask
  rintro ⟨⟩
  apply Sure.bind (sure_configureIndexes names old)
  intro now
  apply Sure.bind (sure_remember _)
  rintro ⟨⟩
  exact Sure.bind sure_ask fun _ => sure_pure _

theorem sure_createKind : Sure Smooth (MojDbKindEngine.createKind id given) := by
  unfold MojDbKindEngine.createKind
  apply Sure.bind (sure_configure names [])
  intro kind
  exact sure_modify fun _ smooth => ⟨smooth.faults, smooth.opened, smooth.ahead⟩

theorem sure_putKind : Sure Smooth (MojDbKindEngine.putKind id given) := by
  unfold MojDbKindEngine.putKind
  apply Sure.bind sure_get
  intro working
  cases working.memory.kinds id with
  | none => exact sure_createKind names
  | some kind => exact Sure.bind (sure_configure names kind.indexes) fun _ => sure_pure ()

omit names

theorem sure_forget : Sure Smooth (MojDbKindEngine.forget id) :=
  sure_modify fun _ smooth => ⟨smooth.faults, smooth.opened, smooth.ahead⟩

theorem dropAll_sure (indexes : List (IndexObject × Nat)) {working : Working}
    (smooth : Smooth working) :
    ∃ after, MojDbKind.dropAll id indexes working = .ok none after ∧ Smooth after := by
  induction indexes generalizing working with
  | nil => exact ⟨working, rfl, smooth⟩
  | cons index indexes ih =>
    rcases @sure_dropIndex id index.1 working smooth with ⟨⟨⟩, middle, drops, kept⟩
    have attempts : attempt (MojDbKind.dropIndex id index.1) working = .ok none middle := by
      unfold attempt
      rw [drops]
    rcases ih kept with ⟨after, rest, last⟩
    refine ⟨after, ?_, last⟩
    rw [MojDbKind.dropAll, bind_of_ok attempts, bind_of_ok rest]
    rfl

theorem sure_delKind : Sure Smooth (MojDbKindEngine.delKind id) := by
  unfold MojDbKindEngine.delKind
  apply Sure.bind sure_get
  intro working
  cases working.memory.kinds id with
  | none => exact sure_pure ()
  | some kind =>
    apply Sure.bind _ fun _ => sure_forget
    unfold MojDbKind.drop
    apply Sure.bind sure_ask
    rintro ⟨⟩ state smooth
    rcases @dropAll_sure id kind.indexes state smooth with ⟨middle, drops, kept⟩
    rw [bind_of_ok drops]
    exact Sure.bind (sure_remember _) (fun _ => sure_pure ()) middle kept

end Success

end Db8.Db.KindIds
