import Db8.Core.HashLinks
import Db8.Heap.Sharing

/-!
# Copy-on-write hash maps

`MojHashMap`: a handle on a counted table, or on none. Before it changes the table, a handle that is
not the only one takes a clone.
-/

set_option autoImplicit false

namespace Db8.Core.MojHashMap

open Db8.Heap Db8.Core.MojHashBase

variable {κ ν : Type} (hash : κ → Nat)

abbrev Tables (κ ν : Type) := Memory (Impl κ ν)

section Operations

/-- Without a table a map reads like one with an empty table. -/
def impl (memory : Tables κ ν) : Option Nat → Option (Impl κ ν)
  | none => some Impl.new
  | some ref => memory.content ref

def release (memory : Tables κ ν) : Option Nat → Option (Tables κ ν)
  | none => some memory
  | some ref => do
    let object ← memory.objects ref
    if object.refCount = 1 then
      (Impl.deleteNodeList (object.content.size + 1) object.content.begin object.content).bind
        fun _ => memory.release ref
    else memory.release ref

def init (memory : Tables κ ν) : Option Nat → Option (Tables κ ν)
  | none => some memory
  | some ref => memory.retain ref

def assign (memory : Tables κ ν) (map other : Option Nat) : Option (Tables κ ν × Option Nat) := do
  let memory ← release memory map
  let memory ← init memory other
  some (memory, other)

def clear (memory : Tables κ ν) (map : Option Nat) : Option (Tables κ ν × Option Nat) :=
  (release memory map).map fun memory => (memory, none)

/-- With `clone`, a new table is taken before the old one is released. -/
def ensureWritable (memory : Tables κ ν) : Option Nat → Option (Tables κ ν × Option Nat)
  | none => some (memory, none)
  | some ref => do
    let object ← memory.objects ref
    if 1 < object.refCount then do
      let cloned ← object.content.clone hash
      let after ← release (memory.alloc cloned) (some ref)
      some (after, some memory.next)
    else some (memory, some ref)

variable [DecidableEq κ]

/-- `MojHashBase::put`: the table grows first where it is full, and then the bucket is another. -/
def basePut (memory : Tables κ ν) (map : Option Nat) (idx : Nat) (key : κ) (val : ν) :
    Option (Tables κ ν × Option Nat) :=
  match map with
  | none => do
    let grown ← Impl.new.realloc hash initialSize
    let added ← grown.put (Impl.bucketForKey hash key grown.numBuckets) key val
    some (memory.alloc added, some memory.next)
  | some ref => do
    let object ← memory.objects ref
    if object.refCount = 1 then do
      let table := object.content
      let numBuckets := if table.size = 0 then 0 else table.numBuckets
      if numBuckets * fillFactor ≤ table.size then do
        let grown ← table.realloc hash (max initialSize (numBuckets * 2))
        let added ← grown.put (Impl.bucketForKey hash key grown.numBuckets) key val
        let memory ← memory.write ref added
        some (memory, some ref)
      else do
        let added ← table.put idx key val
        let memory ← memory.write ref added
        some (memory, some ref)
    else none

def put (memory : Tables κ ν) (map : Option Nat) (key : κ) (val : ν) :
    Option (Tables κ ν × Option Nat) := do
  let (memory, map) ← ensureWritable hash memory map
  let table ← impl memory map
  let (found, idx) ← table.find hash key
  match found with
  | none => basePut hash memory map idx key val
  | some node => do
    let changed ← table.modify node fun node => { node with val := val }
    let ref ← map
    let memory ← memory.write ref changed
    some (memory, map)

def del (memory : Tables κ ν) (map : Option Nat) (key : κ) :
    Option ((Tables κ ν × Option Nat) × Bool) := do
  let (memory, map) ← ensureWritable hash memory map
  let table ← impl memory map
  let (found, idx) ← table.find hash key
  match found with
  | none => some ((memory, map), false)
  | some node => do
    let cut ← table.unlink idx node
    let ref ← map
    let memory ← memory.write ref cut
    some ((memory, map), true)

def get (memory : Tables κ ν) (map : Option Nat) (key : κ) : Option (Option ν) := do
  let table ← impl memory map
  match ← table.find hash key with
  | (none, _) => some none
  | (some node, _) => (table.nodes node).map fun node => some node.val

def equals [DecidableEq ν] (memory : Tables κ ν) (map rhs : Option Nat) : Option Bool := do
  let table ← impl memory map
  let other ← impl memory rhs
  if table.size ≠ other.size then some false
  else if map = rhs then some true
  else Impl.equalsLoop hash table other (table.size + 1) table.begin

omit [DecidableEq κ] in
/-- What is met from `begin()` to `end()`. -/
def iterate (memory : Tables κ ν) (map : Option Nat) : Option (List (κ × ν)) := do
  let table ← impl memory map
  table.entriesLoop (table.size + 1) table.begin

end Operations

def held (map : Option Nat) : List Nat := map.toList

/-- A handle's table is well linked and holds the entries of a map. -/
def Table (memory : Tables κ ν) (handle : Option Nat) (map : κ → Option ν) : Prop :=
  ∃ table, impl memory handle = some table ∧ table.Holds map ∧
    match handle with
    | none => True
    | some _ => ∃ order, Impl.Linked hash table order

/-- An operation leaves the handle with this map, and all others as they are. -/
def Gives (memory : Tables κ ν) (handle : Option Nat)
    (result : Option (Tables κ ν × Option Nat)) (map : κ → Option ν) : Prop :=
  ∃ after next, result = some (after, next) ∧
    Memory.Moves memory (held handle) after (held next) ∧ Table hash after next map

section Handles

variable {hash} {memory after : Tables κ ν} {handle : Option Nat} {map : κ → Option ν}

theorem table_none (hash : κ → Nat) (memory : Tables κ ν) : Table hash memory none fun _ => none := by
  refine ⟨Impl.new, rfl, ?_, trivial⟩
  intro key val
  constructor
  · intro impossible
    cases impossible
  · rintro ⟨ref, impossible⟩
    cases impossible

theorem Table.some_ref {ref : Nat} (table : Table hash memory (some ref) map) :
    ∃ object order, memory.objects ref = some object ∧ Impl.Linked hash object.content order ∧
      object.content.Holds map ∧ memory.refs ref = object.refCount ∧
      memory.content ref = some object.content := by
  rcases table with ⟨content, found, holds, order, linked⟩
  rcases Memory.refs_of_content found with ⟨object, there, rfl, count⟩
  exact ⟨object, order, there, linked, holds, count, found⟩

theorem Table.other (table : Table hash memory handle map)
    (same : ∀ ref ∈ held handle, after.content ref = memory.content ref) :
    Table hash after handle map := by
  rcases table with ⟨content, found, holds, linked⟩
  refine ⟨content, ?_, holds, linked⟩
  rw [← found]
  cases handle with
  | none => rfl
  | some ref => exact same ref (List.mem_singleton_self ref)

theorem holds_of_has {one two : Impl κ ν} (holds : one.Holds map)
    (same : ∀ entry, two.Has entry ↔ one.Has entry) : two.Holds map := by
  intro key val
  rw [holds, same]

theorem Table.release (table : Table hash memory handle map) (sound : memory.Sound) :
    ∃ after, release memory handle = some after ∧ Memory.Moves memory (held handle) after [] := by
  cases handle with
  | none => exact ⟨memory, rfl, Memory.Moves.refl sound []⟩
  | some ref =>
    rcases table.some_ref with ⟨object, order, there, linked, -, -, found⟩
    rcases Memory.moves_release sound found with ⟨after, released, moves⟩
    refine ⟨after, ?_, moves⟩
    have listed := linked.listed
    rcases Impl.deleteNodeList_spec listed.iter
      (Nat.lt_succ_of_le (Nat.le_of_eq listed.size.symm)) with ⟨rest, deleted⟩
    rw [MojHashMap.release, there, Option.bind_eq_bind, Option.bind_some]
    split_ifs
    · rw [deleted, Option.bind_some]
      exact released
    · exact released

theorem Table.init (table : Table hash memory handle map) (sound : memory.Sound) :
    ∃ after, init memory handle = some after ∧ Memory.Moves memory [] after (held handle) ∧
      ∀ ref, after.content ref = memory.content ref := by
  cases handle with
  | none => exact ⟨memory, rfl, Memory.Moves.refl sound [], fun _ => rfl⟩
  | some ref =>
    rcases table.some_ref with ⟨object, order, -, -, -, -, found⟩
    exact Memory.moves_retain sound found

def Sole (memory : Tables κ ν) (handle : Option Nat) : Prop :=
  ∀ ref, handle = some ref → memory.refs ref = 1

theorem Table.replace (table : Table hash memory handle map) (sound : memory.Sound)
    {content : Impl κ ν} {order : List Nat} (linked : Impl.Linked hash content order)
    {others : κ → Option ν} (holds : content.Holds others) :
    ∃ after, MojHashMap.release (memory.alloc content) handle = some after ∧
      Memory.Moves memory (held handle) after [memory.next] ∧
      Table hash after (some memory.next) others ∧ Sole after (some memory.next) := by
  rcases Memory.moves_alloc sound content with ⟨allocated, found, sole⟩
  have apart : memory.next ∉ held handle := by
    intro member
    cases handle with
    | none => cases member
    | some ref =>
      rcases table.some_ref with ⟨object, order, there, -, -, -, -⟩
      rw [← List.mem_singleton.mp member, sound.fresh memory.next (Nat.le_refl _)] at there
      cases there
  have stays : Table hash (memory.alloc content) handle map := by
    apply table.other
    intro ref member
    apply allocated.others
    cases handle with
    | none => cases member
    | some other =>
      cases List.mem_singleton.mp member
      rcases table.some_ref with ⟨object, order, there, -, -, count, -⟩
      rw [count]
      exact sound.counted ref object there
  rcases stays.release allocated.sound with ⟨after, released, moves⟩
  have zero : (held handle).count memory.next = 0 := List.count_eq_zero_of_not_mem apart
  refine ⟨after, released, ?_, ⟨content, ?_, holds, order, linked⟩, ?_⟩
  · have one := allocated.frame (held handle)
    have two := moves.frame [memory.next]
    exact one.trans (two.perm List.perm_append_comm (List.Perm.refl _))
  · exact (moves.others memory.next (by rw [zero, sole]; exact Nat.one_pos)).trans found
  · intro ref same
    cases same
    have refs := moves.refs memory.next
    rw [zero, sole] at refs
    exact refs

theorem Table.ensureWritable (table : Table hash memory handle map) (sound : memory.Sound) :
    ∃ after next, ensureWritable hash memory handle = some (after, next) ∧
      Memory.Moves memory (held handle) after (held next) ∧ Table hash after next map ∧
      Sole after next := by
  cases handle with
  | none =>
    refine ⟨memory, none, rfl, Memory.Moves.refl sound _, table, ?_⟩
    intro ref impossible
    cases impossible
  | some ref =>
    rcases table.some_ref with ⟨object, order, there, linked, holds, count, -⟩
    rw [MojHashMap.ensureWritable, there, Option.bind_eq_bind, Option.bind_some]
    split_ifs with shared
    · rcases linked.clone with ⟨cloned, others, done, clonedLinked, has⟩
      rcases table.replace sound clonedLinked (holds_of_has holds has) with
        ⟨after, released, moves, replaced, sole⟩
      refine ⟨after, some memory.next, ?_, moves, replaced, sole⟩
      rw [done, Option.bind_eq_bind, Option.bind_some, released]
      rfl
    · refine ⟨memory, some ref, rfl, Memory.Moves.refl sound _, table, ?_⟩
      intro other same
      cases same
      have positive := sound.counted ref object there
      omega

theorem Table.write {ref : Nat} (sound : memory.Sound) (sole : Sole memory (some ref))
    {content : Impl κ ν} {order : List Nat} (linked : Impl.Linked hash content order)
    {others : κ → Option ν} (holds : content.Holds others) :
    ∃ after, memory.write ref content = some after ∧ Memory.Moves memory [ref] after [ref] ∧
      Table hash after (some ref) others := by
  rcases Memory.moves_write sound (sole ref rfl) content with ⟨after, written, moves, found, -⟩
  exact ⟨after, written, moves, content, found, holds, order, linked⟩

end Handles

section Maps

variable {hash} [DecidableEq κ] {memory : Tables κ ν} {handle : Option Nat} {map : κ → Option ν}

variable {content : Impl κ ν}

theorem holds_added (holds : content.Holds map) (fresh : content.entry content.next = none)
    {idx : Nat} {key : κ} {val : ν}
    (absent : ∀ ref entry, content.entry ref = some entry → entry.1 ≠ key) :
    (content.added idx key val).Holds (Function.update map key (some val)) := by
  intro other otherVal
  rw [Function.update_apply, Impl.has_added fresh, Prod.mk.injEq]
  split_ifs with same
  · constructor
    · intro found
      exact .inl ⟨same, (Option.some.inj found).symm⟩
    · rintro (⟨-, rfl⟩ | ⟨ref, found⟩)
      · rfl
      · exact absurd same (absent ref _ found)
  · rw [holds]
    constructor
    · exact .inr
    · rintro (⟨again, -⟩ | has)
      · exact absurd again same
      · exact has

theorem grow_put {order : List Nat} (holds : content.Holds map) (listed : Impl.Listed content order)
    {numBuckets : Nat} (positive : 0 < numBuckets) {key : κ} (val : ν)
    (absent : ∀ ref entry, content.entry ref = some entry → entry.1 ≠ key) :
    ∃ grown added order, content.realloc hash numBuckets = some grown ∧
      grown.put (Impl.bucketForKey hash key grown.numBuckets) key val = some added ∧
      Impl.Linked hash added order ∧ added.Holds (Function.update map key (some val)) := by
  rcases listed.realloc hash positive with ⟨grown, grew, linked, entries, -, -⟩
  have absentGrown : ∀ ref entry, grown.entry ref = some entry → entry.1 ≠ key := by
    rw [entries]
    exact absent
  have grownHolds : grown.Holds map := by
    apply holds_of_has holds
    intro entry
    rw [Impl.Has, Impl.Has, entries]
  rcases linked.put absentGrown val with ⟨put, addedLinked⟩
  have fresh := linked.listed.fresh grown.next (Nat.le_refl _)
  exact ⟨grown, _, _, grew, put, addedLinked, holds_added grownHolds fresh absentGrown⟩

theorem Table.find (table : Table hash memory handle map) (key : κ) :
    ∃ content found idx, impl memory handle = some content ∧
      content.find hash key = some (found, idx) ∧
      (content.size ≠ 0 → idx = Impl.bucketForKey hash key content.numBuckets) ∧
      (∀ ref ∈ found, ∃ val, content.entry ref = some (key, val)) ∧
      (found = none → ∀ ref entry, content.entry ref = some entry → entry.1 ≠ key) := by
  rcases table with ⟨content, isContent, -, order⟩
  cases handle with
  | none =>
    cases isContent
    refine ⟨Impl.new, none, 0, rfl, rfl, fun more => absurd rfl more,
      fun ref member => absurd member (Option.not_mem_none ref), ?_⟩
    intro _ ref entry impossible
    cases impossible
  | some ref =>
    rcases order with ⟨order, linked⟩
    rcases linked.find key with ⟨found, idx, rest⟩
    exact ⟨content, found, idx, isContent, rest⟩

theorem Table.basePut (table : Table hash memory handle map) (sound : memory.Sound)
    (sole : Sole memory handle) (found : impl memory handle = some content) {idx : Nat} {key : κ}
    (val : ν) (bucket : content.size ≠ 0 → idx = Impl.bucketForKey hash key content.numBuckets)
    (absent : ∀ ref entry, content.entry ref = some entry → entry.1 ≠ key) :
    Gives hash memory handle (basePut hash memory handle idx key val)
      (Function.update map key (some val)) := by
  cases handle with
  | none =>
    cases found
    rcases table with ⟨_, ⟨⟩, holds, -⟩
    rcases grow_put holds Impl.listed_new (Nat.zero_lt_succ 7) val absent with
      ⟨grown, added, order, grew, put, linked, addedHolds⟩
    rcases (table_none hash memory).replace sound linked addedHolds with
      ⟨after, released, moves, replaced, -⟩
    refine ⟨after, some memory.next, ?_, moves, replaced⟩
    cases released
    rw [MojHashMap.basePut, initialSize, grew, Option.bind_eq_bind, Option.bind_some, put]
    rfl
  | some ref =>
    rcases table.some_ref with ⟨object, order, there, linked, holds, count, isContent⟩
    have same : content = object.content := Option.some.inj (found.symm.trans isContent)
    subst same
    have last : object.refCount = 1 := count.symm.trans (sole ref rfl)
    rw [MojHashMap.basePut]
    dsimp only
    rw [there, Option.bind_eq_bind, Option.bind_some, if_pos last]
    by_cases full : (if object.content.size = 0 then 0 else object.content.numBuckets) * fillFactor ≤
        object.content.size
    · rw [if_pos full]
      rcases grow_put holds linked.listed
        (Nat.lt_of_lt_of_le (Nat.zero_lt_succ 7) (Nat.le_max_left initialSize
          ((if object.content.size = 0 then 0 else object.content.numBuckets) * 2))) val absent with
        ⟨grown, added, order, grew, put, addedLinked, addedHolds⟩
      rcases Table.write sound sole addedLinked addedHolds with ⟨after, written, moves, last⟩
      refine ⟨after, some ref, ?_, moves, last⟩
      rw [grew, Option.bind_eq_bind, Option.bind_some, put, Option.bind_eq_bind, Option.bind_some,
        written]
      rfl
    · rw [if_neg full]
      have more : object.content.size ≠ 0 := by
        intro empty
        rw [if_pos empty, empty] at full
        exact full (Nat.le_refl 0)
      rw [bucket more]
      rcases linked.put absent val with ⟨put, addedLinked⟩
      have fresh := linked.listed.fresh object.content.next (Nat.le_refl _)
      rcases Table.write sound sole addedLinked (holds_added holds fresh absent) with
        ⟨after, written, moves, last⟩
      refine ⟨after, some ref, ?_, moves, last⟩
      rw [put, Option.bind_eq_bind, Option.bind_some, written]
      rfl

theorem Table.put (table : Table hash memory handle map) (sound : memory.Sound) (key : κ) (val : ν) :
    Gives hash memory handle (put hash memory handle key val)
      (Function.update map key (some val)) := by
  rcases table.ensureWritable sound with ⟨middle, own, ensured, moves, ownTable, sole⟩
  rcases ownTable.find key with ⟨content, found, idx, isContent, looked, bucket, hit, miss⟩
  have result : ∃ after next, MojHashMap.put hash memory handle key val = some (after, next) ∧
      Memory.Moves middle (held own) after (held next) ∧
      Table hash after next (Function.update map key (some val)) := by
    rw [MojHashMap.put, ensured]
    dsimp only [Option.bind_eq_bind, Option.bind_some]
    rw [isContent]
    dsimp only [Option.bind_some]
    rw [looked]
    dsimp only [Option.bind_some]
    cases found with
    | none => exact ownTable.basePut moves.sound sole isContent val bucket (miss rfl)
    | some node =>
      rcases hit node rfl with ⟨before, entry⟩
      cases own with
      | none =>
        cases isContent
        cases entry
      | some ref =>
        rcases ownTable.some_ref with ⟨object, order, there, linked, holds, count, again⟩
        have same : content = object.content := Option.some.inj (isContent.symm.trans again)
        subst same
        rcases Impl.node_of_entry entry with ⟨old, oldThere, keyIs, -⟩
        rcases linked.setVal oldThere val with ⟨changedLinked, has⟩
        have changedHolds : (object.content.changed node { old with val := val }).Holds
            (Function.update map key (some val)) := by
          intro other otherVal
          rw [has, keyIs, Function.update_apply, Prod.mk.injEq]
          split_ifs with isKey
          · constructor
            · intro found
              exact .inl ⟨isKey, (Option.some.inj found).symm⟩
            · rintro (⟨-, rfl⟩ | ⟨apart, -⟩)
              · rfl
              · exact absurd isKey apart
          · rw [holds]
            constructor
            · intro has
              exact .inr ⟨isKey, has⟩
            · rintro (⟨isKey_, -⟩ | ⟨-, has⟩)
              · exact absurd isKey_ isKey
              · exact has
        rcases Table.write moves.sound sole changedLinked changedHolds with
          ⟨after, written, wrote, last⟩
        refine ⟨after, some ref, ?_, wrote, last⟩
        dsimp only
        rw [Impl.modify_eq oldThere]
        dsimp only [Option.bind_some]
        rw [written]
        rfl
  rcases result with ⟨after, next, done, later, last⟩
  exact ⟨after, next, done, moves.trans later, last⟩

omit [DecidableEq κ] in
theorem map_none (holds : content.Holds map) {key : κ}
    (absent : ∀ ref entry, content.entry ref = some entry → entry.1 ≠ key) : map key = none := by
  rcases found : map key with _ | val
  · rfl
  · rcases (holds key val).mp found with ⟨ref, there⟩
    exact absurd rfl (absent ref _ there)

theorem Table.del (table : Table hash memory handle map) (sound : memory.Sound) (key : κ) :
    ∃ after next, del hash memory handle key = some ((after, next), (map key).isSome) ∧
      Memory.Moves memory (held handle) after (held next) ∧
      Table hash after next (Function.update map key none) := by
  rcases table.ensureWritable sound with ⟨middle, own, ensured, moves, ownTable, sole⟩
  rcases ownTable.find key with ⟨content, found, idx, isContent, looked, bucket, hit, miss⟩
  have result : ∃ after next, MojHashMap.del hash memory handle key =
      some ((after, next), (map key).isSome) ∧ Memory.Moves middle (held own) after (held next) ∧
      Table hash after next (Function.update map key none) := by
    rw [MojHashMap.del, ensured]
    dsimp only [Option.bind_eq_bind, Option.bind_some]
    rw [isContent]
    dsimp only [Option.bind_some]
    rw [looked]
    dsimp only [Option.bind_some]
    cases found with
    | none =>
      have holds : content.Holds map := by
        rcases ownTable with ⟨again, isAgain, holds, -⟩
        rw [isContent] at isAgain
        cases isAgain
        exact holds
      have nothing := map_none holds (miss rfl)
      have same : Function.update map key none = map := by
        rw [← nothing]
        exact Function.update_eq_self key map
      rw [nothing, same]
      exact ⟨middle, own, rfl, Memory.Moves.refl moves.sound _, ownTable⟩
    | some node =>
      rcases hit node rfl with ⟨val, entry⟩
      cases own with
      | none =>
        cases isContent
        cases entry
      | some ref =>
        rcases ownTable.some_ref with ⟨object, order, there, linked, holds, count, again⟩
        have same : content = object.content := Option.some.inj (isContent.symm.trans again)
        subst same
        have more : object.content.size ≠ 0 := by
          intro empty
          have member := linked.listed.mem entry
          rw [List.length_eq_zero_iff.mp (linked.listed.size.symm.trans empty)] at member
          cases member
        rcases linked.unlink entry with ⟨cut, others, unlinked, cutLinked, entries⟩
        have cutHolds : cut.Holds (Function.update map key none) := by
          intro other otherVal
          rw [Function.update_apply]
          split_ifs with isKey
          · constructor
            · intro impossible
              cases impossible
            · rintro ⟨far, found⟩
              rw [entries] at found
              split_ifs at found with here
              exact absurd (linked.listed.keys far node _ _ found entry isKey) here
          · rw [holds]
            constructor
            · rintro ⟨far, found⟩
              refine ⟨far, ?_⟩
              rw [entries, if_neg]
              · exact found
              · rintro rfl
                rw [entry] at found
                cases found
                exact isKey rfl
            · rintro ⟨far, found⟩
              rw [entries] at found
              split_ifs at found
              exact ⟨far, found⟩
        have isSome : (map key).isSome = true := by
          rw [(holds key val).mpr ⟨node, entry⟩]
          rfl
        rcases Table.write moves.sound sole cutLinked cutHolds with ⟨after, written, wrote, last⟩
        refine ⟨after, some ref, ?_, wrote, last⟩
        rw [bucket more]
        dsimp only
        rw [unlinked]
        dsimp only [Option.bind_some]
        rw [written, isSome]
        rfl
  rcases result with ⟨after, next, done, later, last⟩
  exact ⟨after, next, done, moves.trans later, last⟩

theorem Table.get (table : Table hash memory handle map) (key : κ) :
    get hash memory handle key = some (map key) := by
  rcases table.find key with ⟨content, found, idx, isContent, looked, -, hit, miss⟩
  rcases table with ⟨again, isAgain, holds, -⟩
  rw [isContent] at isAgain
  cases isAgain
  rw [MojHashMap.get, isContent]
  dsimp only [Option.bind_eq_bind, Option.bind_some]
  rw [looked]
  cases found with
  | none => exact congrArg some (map_none holds (miss rfl)).symm
  | some node =>
    rcases hit node rfl with ⟨val, entry⟩
    rcases Impl.node_of_entry entry with ⟨there, isThere, -, valIs⟩
    dsimp only [Option.bind_some]
    rw [isThere, (holds key val).mpr ⟨node, entry⟩, Option.map_some, valIs]

omit [DecidableEq κ] in
theorem Table.listed (table : Table hash memory handle map) :
    ∃ content order, impl memory handle = some content ∧ Impl.Listed content order ∧
      content.Holds map := by
  rcases table with ⟨content, isContent, holds, order⟩
  cases handle with
  | none =>
    cases isContent
    exact ⟨Impl.new, [], rfl, Impl.listed_new, holds⟩
  | some ref =>
    rcases order with ⟨order, linked⟩
    exact ⟨content, order, isContent, linked.listed, holds⟩

omit [DecidableEq κ] in
theorem Table.iterate (table : Table hash memory handle map) :
    ∃ entries, iterate memory handle = some entries ∧ (entries.map Prod.fst).Nodup ∧
      ∀ key val, (key, val) ∈ entries ↔ map key = some val := by
  rcases table.listed with ⟨content, order, isContent, listed, holds⟩
  refine ⟨content.entries order, ?_, listed.nodup_keys, ?_⟩
  · rw [MojHashMap.iterate, isContent, Option.bind_eq_bind, Option.bind_some]
    exact Impl.entriesLoop_spec listed.iter (Nat.lt_succ_of_le (Nat.le_of_eq listed.size.symm))
  · intro key val
    rw [listed.mem_entries, holds]

omit [DecidableEq κ] in
theorem map_eq_iff {one two : Impl κ ν} {other : κ → Option ν} (holds : one.Holds map)
    (otherHolds : two.Holds other) : map = other ↔ ∀ entry, one.Has entry ↔ two.Has entry := by
  constructor
  · rintro rfl ⟨key, val⟩
    rw [← holds, ← otherHolds]
  · intro same
    funext key
    apply Option.ext
    intro val
    exact (holds key val).trans ((same (key, val)).trans (otherHolds key val).symm)

theorem Table.equals [DecidableEq ν] {rhs : Option Nat} {other : κ → Option ν}
    (table : Table hash memory handle map) (rhsTable : Table hash memory rhs other) :
    ∃ same, equals hash memory handle rhs = some same ∧ (same = true ↔ map = other) := by
  rcases table.listed with ⟨content, order, isContent, listed, holds⟩
  rcases rhsTable.listed with ⟨rhsContent, rhsOrder, isRhs, rhsListed, rhsHolds⟩
  have all := map_eq_iff holds rhsHolds
  rw [MojHashMap.equals, isContent, isRhs]
  dsimp only [Option.bind_eq_bind, Option.bind_some]
  split_ifs with sizes shared
  · refine ⟨false, rfl, fun no => absurd no Bool.false_ne_true, ?_⟩
    intro same
    have perm := (List.perm_ext_iff_of_nodup listed.nodup_entries rhsListed.nodup_entries).mpr
      fun entry => by rw [listed.mem_entries, rhsListed.mem_entries, all.mp same]
    have lengths := perm.length_eq
    rw [listed.length_entries, rhsListed.length_entries] at lengths
    exact absurd lengths sizes
  · refine ⟨true, rfl, fun _ => all.mpr ?_, fun _ => rfl⟩
    rw [shared, isRhs] at isContent
    cases isContent
    exact fun _ => Iff.rfl
  · rw [not_not] at sizes
    have enough : order.length < content.size + 1 :=
      Nat.lt_succ_of_le (Nat.le_of_eq listed.size.symm)
    have within : (∀ ref ∈ order, ∀ entry ∈ content.entry ref, rhsContent.Has entry) ↔ map = other := by
      rw [all]
      constructor
      · intro found
        have some_ : ∀ entry, content.Has entry → rhsContent.Has entry := by
          rintro entry ⟨ref, there⟩
          exact found ref (listed.mem there) entry there
        exact fun entry => ⟨some_ entry, listed.has_of_size rhsListed sizes some_ entry⟩
      · intro same ref _ entry there
        exact (same entry).mp ⟨ref, there⟩
    cases rhs with
    | none =>
      cases isRhs
      have empty : order = [] := List.length_eq_zero_iff.mp (listed.size.symm.trans sizes)
      subst empty
      refine ⟨true, ?_, fun _ => within.mp fun ref member => absurd member List.not_mem_nil,
        fun _ => rfl⟩
      rw [listed.iter.start_eq]
      rfl
    | some ref =>
      rcases rhsTable with ⟨again, isAgain, -, others, linked⟩
      rw [isRhs] at isAgain
      cases isAgain
      rcases Impl.equalsLoop_spec linked listed.iter enough with ⟨same, looped, iff⟩
      exact ⟨same, looped, iff.trans within⟩

end Maps

end Db8.Core.MojHashMap
