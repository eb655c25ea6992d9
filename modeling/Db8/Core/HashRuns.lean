import Db8.Core.HashTables
import Db8.Heap.Handles

/-!
# Hash maps as finite maps

Programs of operations on any number of hash maps, against maps of their own under the same
operations. At every moment each table is well linked: its nodes are in the chains of the buckets
that their hashes say, in one list that is iterated over, and as many as its size. Keys may be hashed
in any way.
-/

set_option autoImplicit false

namespace Db8.Core.MojHashMap

open Db8.Heap Db8.Core.MojHashBase

variable {κ ν : Type} [DecidableEq κ] [DecidableEq ν] (hash : κ → Nat)

section Programs

inductive Op (κ ν : Type) where
  | create
  | copy (source : Nat)
  | assign (place source : Nat)
  | destroy (place : Nat)
  | clear (place : Nat)
  | put (place : Nat) (key : κ) (val : ν)
  | del (place : Nat) (key : κ)
  | get (place : Nat) (key : κ)
  | equals (place other : Nat)
  | iterate (place : Nat)

inductive Report (κ ν : Type) where
  | nothing
  | found (found : Bool)
  | val (val : Option ν)
  | same (same : Bool)
  | entries (entries : List (κ × ν))

structure World (κ ν : Type) where
  memory : Tables κ ν
  handles : List (Option Nat)

def World.start : World κ ν := ⟨Memory.init, []⟩

def World.set (world : World κ ν) (place : Nat) (changed : Tables κ ν × Option Nat) : World κ ν :=
  ⟨changed.1, world.handles.set place changed.2⟩

/-- `assign` does nothing where both are the same map. -/
def step (op : Op κ ν) (world : World κ ν) : Option (World κ ν × Report κ ν) :=
  match op with
  | .create => some (⟨world.memory, world.handles ++ [none]⟩, .nothing)
  | .copy source => do
    let handle ← world.handles[source]?
    let memory ← init world.memory handle
    some (⟨memory, world.handles ++ [handle]⟩, .nothing)
  | .assign place source => do
    let handle ← world.handles[place]?
    let other ← world.handles[source]?
    if place = source then some (world, .nothing)
    else do
      let changed ← assign world.memory handle other
      some (world.set place changed, .nothing)
  | .destroy place => do
    let handle ← world.handles[place]?
    let memory ← release world.memory handle
    some (⟨memory, world.handles.eraseIdx place⟩, .nothing)
  | .clear place => do
    let handle ← world.handles[place]?
    let changed ← clear world.memory handle
    some (world.set place changed, .nothing)
  | .put place key val => do
    let handle ← world.handles[place]?
    let changed ← put hash world.memory handle key val
    some (world.set place changed, .nothing)
  | .del place key => do
    let handle ← world.handles[place]?
    let (changed, found) ← del hash world.memory handle key
    some (world.set place changed, .found found)
  | .get place key => do
    let handle ← world.handles[place]?
    let val ← get hash world.memory handle key
    some (world, .val val)
  | .equals place other => do
    let handle ← world.handles[place]?
    let rhs ← world.handles[other]?
    let same ← equals hash world.memory handle rhs
    some (world, .same same)
  | .iterate place => do
    let handle ← world.handles[place]?
    let entries ← iterate world.memory handle
    some (world, .entries entries)

end Programs

section Maps

abbrev Maps (κ ν : Type) := List (κ → Option ν)

omit [DecidableEq κ] [DecidableEq ν] in
def Maps.change (maps : Maps κ ν) (place source : Nat)
    (result : (κ → Option ν) → κ → Option ν) : Maps κ ν :=
  match maps[source]? with
  | none => maps
  | some map => maps.set place (result map)

def serve (maps : Maps κ ν) : Op κ ν → Maps κ ν
  | .create => maps ++ [fun (_ : κ) => (none : Option ν)]
  | .copy source =>
    match maps[source]? with
    | none => maps
    | some map => maps ++ [map]
  | .assign place source => maps.change place source fun map => map
  | .destroy place => maps.eraseIdx place
  | .clear place => maps.set place fun _ => none
  | .put place key val => maps.change place place fun map => Function.update map key (some val)
  | .del place key => maps.change place place fun map => Function.update map key none
  | _ => maps

omit [DecidableEq κ] [DecidableEq ν] in
/-- What is reported is so of the maps; an iteration meets each entry once. -/
def Right (maps : Maps κ ν) : Op κ ν → Report κ ν → Prop
  | .del place key, report => ∀ map ∈ maps[place]?, report = .found (map key).isSome
  | .get place key, report => ∀ map ∈ maps[place]?, report = .val (map key)
  | .equals place other, report => ∀ map ∈ maps[place]?, ∀ rhs ∈ maps[other]?,
      ∃ same, report = .same same ∧ (same = true ↔ map = rhs)
  | .iterate place, report => ∀ map ∈ maps[place]?, ∃ entries, report = .entries entries ∧
      (entries.map Prod.fst).Nodup ∧ ∀ key val, (key, val) ∈ entries ↔ map key = some val
  | _, _ => True

def Op.Legal (size : Nat) : Op κ ν → Prop
  | .create => True
  | .copy source => source < size
  | .assign place source => place < size ∧ source < size
  | .destroy place => place < size
  | .clear place => place < size
  | .put place _ _ => place < size
  | .del place _ => place < size
  | .get place _ => place < size
  | .equals place other => place < size ∧ other < size
  | .iterate place => place < size

/-- Each operation of the program comes to its end and reports what is so of the maps, and at every
moment the tables are well linked and hold the maps. -/
def Behaves : List (Op κ ν) → World κ ν → Maps κ ν → Prop
  | [], world, maps => List.Forall₂ (Table hash world.memory) world.handles maps
  | op :: ops, world, maps =>
    List.Forall₂ (Table hash world.memory) world.handles maps ∧
      (op.Legal world.handles.length → ∃ next report, step hash op world = some (next, report) ∧
        Right maps op report ∧ Behaves ops next (serve maps op))

end Maps

section Steps

variable {hash} {world : World κ ν} {maps : Maps κ ν}

omit [DecidableEq κ] [DecidableEq ν] in
variable (hash) in
def view : View (Impl κ ν) (Option Nat) (κ → Option ν) := ⟨held, Table hash, Table.other⟩

omit [DecidableEq κ] [DecidableEq ν] in
theorem change_eq {place source : Nat} {map : κ → Option ν}
    {result : (κ → Option ν) → κ → Option ν} (there : maps[source]? = some map) :
    maps.change place source result = maps.set place (result map) := by
  rw [Maps.change, there]

theorem stands_step (stands : (view hash).Stands world.memory world.handles maps) {op : Op κ ν}
    (legal : op.Legal world.handles.length) :
    ∃ next report, step hash op world = some (next, report) ∧ Right maps op report ∧
      (view hash).Stands next.memory next.handles (serve maps op) := by
  have sound := stands.valid.sound
  have there : ∀ {place}, place < world.handles.length → ∃ handle map,
      world.handles[place]? = some handle ∧ maps[place]? = some map ∧
      Table hash world.memory handle map := by
    intro place inside
    rcases stands.at_place (List.getElem?_eq_getElem inside) with ⟨map, isMap, table⟩
    exact ⟨_, map, List.getElem?_eq_getElem inside, isMap, table⟩
  cases op with
  | create =>
    exact ⟨⟨world.memory, world.handles ++ [none]⟩, .nothing, rfl, trivial,
      stands.add (Memory.Moves.refl sound []) (table_none hash world.memory)⟩
  | copy source =>
    rcases there legal with ⟨handle, map, found, isMap, table⟩
    rcases table.init sound with ⟨after, retained, moves, same⟩
    refine ⟨⟨after, world.handles ++ [handle]⟩, .nothing, ?_, trivial, ?_⟩
    · rw [step, found, Option.bind_eq_bind, Option.bind_some, retained]
      rfl
    · rw [serve, isMap]
      exact stands.add moves (table.other fun ref _ => same ref)
  | assign place source =>
    rcases there legal.1 with ⟨handle, map, found, isMap, table⟩
    rcases there legal.2 with ⟨other, rhs, otherFound, isRhs, rhsTable⟩
    rw [step, found, Option.bind_eq_bind, Option.bind_some, otherFound, Option.bind_eq_bind,
      Option.bind_some, serve, change_eq isRhs]
    split_ifs with same
    · refine ⟨world, .nothing, rfl, trivial, ?_⟩
      subst same
      have same : maps.set place rhs = maps := by
        rcases List.getElem?_eq_some_iff.mp isRhs with ⟨inside, rfl⟩
        exact List.set_getElem_self inside
      rw [same]
      exact stands
    · have gives : (view hash).Gives world.memory handle (assign world.memory handle other) rhs := by
        rcases table.release sound with ⟨middle, released, gone⟩
        have stays : Table hash middle other rhs := rhsTable.other fun ref member =>
          gone.others ref (stands.elsewhere found otherFound same ref member)
        rcases stays.init gone.sound with ⟨after, retained, moves, contents⟩
        refine ⟨after, other, ?_, gone.trans moves, stays.other fun ref _ => contents ref⟩
        rw [assign, released, Option.bind_eq_bind, Option.bind_some, retained]
        rfl
      rcases stands.set found gives with ⟨after, next, done, last⟩
      refine ⟨world.set place (after, next), .nothing, ?_, trivial, last⟩
      rw [done]
      rfl
  | destroy place =>
    rcases there legal with ⟨handle, map, found, isMap, table⟩
    rcases table.release sound with ⟨after, released, moves⟩
    refine ⟨⟨after, world.handles.eraseIdx place⟩, .nothing, ?_, trivial, stands.erase found moves⟩
    rw [step, found, Option.bind_eq_bind, Option.bind_some, released]
    rfl
  | clear place =>
    rcases there legal with ⟨handle, map, found, isMap, table⟩
    rcases table.release sound with ⟨after, released, moves⟩
    have gives : (view hash).Gives world.memory handle (clear world.memory handle)
        fun _ => none := by
      refine ⟨after, none, ?_, moves, table_none hash after⟩
      rw [clear, released]
      rfl
    rcases stands.set found gives with ⟨last, next, done, final⟩
    refine ⟨world.set place (last, next), .nothing, ?_, trivial, final⟩
    rw [step, found, Option.bind_eq_bind, Option.bind_some, done]
    rfl
  | put place key val =>
    rcases there legal with ⟨handle, map, found, isMap, table⟩
    rcases stands.set found (table.put sound key val) with ⟨after, next, done, last⟩
    refine ⟨world.set place (after, next), .nothing, ?_, trivial, ?_⟩
    · rw [step, found, Option.bind_eq_bind, Option.bind_some, done]
      rfl
    · rw [serve, change_eq isMap]
      exact last
  | del place key =>
    rcases there legal with ⟨handle, map, found, isMap, table⟩
    rcases table.del sound key with ⟨after, next, done, moves, last⟩
    rcases stands.set found ⟨after, next, rfl, moves, last⟩ with ⟨_, _, ⟨⟩, final⟩
    refine ⟨world.set place (after, next), .found (map key).isSome, ?_, ?_, ?_⟩
    · rw [step, found, Option.bind_eq_bind, Option.bind_some, done]
      rfl
    · intro other isOther
      rw [isMap] at isOther
      cases isOther
      rfl
    · rw [serve, change_eq isMap]
      exact final
  | get place key =>
    rcases there legal with ⟨handle, map, found, isMap, table⟩
    refine ⟨world, .val (map key), ?_, ?_, stands⟩
    · rw [step, found, Option.bind_eq_bind, Option.bind_some, table.get key]
      rfl
    · intro other isOther
      rw [isMap] at isOther
      cases isOther
      rfl
  | equals place other =>
    rcases there legal.1 with ⟨handle, map, found, isMap, table⟩
    rcases there legal.2 with ⟨rhs, otherMap, otherFound, isOther, rhsTable⟩
    rcases table.equals rhsTable with ⟨same, compared, iff⟩
    refine ⟨world, .same same, ?_, ?_, stands⟩
    · rw [step, found, Option.bind_eq_bind, Option.bind_some, otherFound, Option.bind_eq_bind,
        Option.bind_some, compared]
      rfl
    · intro one isOne two isTwo
      rw [isMap] at isOne
      rw [isOther] at isTwo
      cases isOne
      cases isTwo
      exact ⟨same, rfl, iff⟩
  | iterate place =>
    rcases there legal with ⟨handle, map, found, isMap, table⟩
    rcases table.iterate with ⟨entries, iterated, distinct, members⟩
    refine ⟨world, .entries entries, ?_, ?_, stands⟩
    · rw [step, found, Option.bind_eq_bind, Option.bind_some, iterated]
      rfl
    · intro other isOther
      rw [isMap] at isOther
      cases isOther
      exact ⟨entries, rfl, distinct, members⟩

theorem behaves_of_stands (stands : (view hash).Stands world.memory world.handles maps)
    (ops : List (Op κ ν)) : Behaves hash ops world maps := by
  induction ops generalizing world maps with
  | nil => exact stands.reads
  | cons op ops ih =>
    refine ⟨stands.reads, ?_⟩
    intro legal
    rcases stands_step stands legal with ⟨next, report, stepped, right, after⟩
    exact ⟨next, report, stepped, right, ih after⟩

end Steps

/-- Whatever is done with them, and however keys are hashed, hash maps are finite maps, each its own. -/
theorem tables_are_maps (ops : List (Op κ ν)) : Behaves hash ops World.start [] :=
  behaves_of_stands (view hash).stands_init ops

end Db8.Core.MojHashMap
