import Db8.Db.KindIdSuccess

/-!
# Tokens and ids when the database is opened anew

What is committed decides which id an index has: the kind is stored or built in, asks for the index, and
has the id on record under its name. While the database is open the kinds in memory show just that, and
when they are loaded anew they show it again.
-/

set_option autoImplicit false

namespace Db8.Db.KindIds

open Db8.Bytes
open Db8.Core
open Db8.DbEngine
open Db8.DbEngine.MojDbStorageSeq (World Ahead ahead_closed ahead_open close_spec openSeq)
open Db8.Programs

theorem Turns.mono {top later : Nat} {id : MojString} {given : List IndexObject}
    {old : List (IndexObject × Nat)} {rows after : Rows} (turns : Turns later id given old rows after)
    (above : top ≤ later) : Turns top id given old rows after :=
  ⟨turns.kept, turns.left, fun dropped read => above.trans (turns.renewed dropped read)⟩

theorem Turns.congr {top : Nat} {id : MojString} {given : List IndexObject}
    {old : List (IndexObject × Nat)} {rows after others later : Rows}
    (turns : Turns top id given old rows after) (same : others id = rows id)
    (last : later id = after id) : Turns top id given old others later := by
  refine ⟨?_, ?_, ?_⟩
  · intro name val
    rw [same, last]
    exact turns.kept
  · intro name val
    rw [same, last]
    exact turns.left
  · intro name val dropped
    rw [last]
    exact turns.renewed dropped

section Loading

variable {working after : Working}

theorem acts_addBuiltins (kinds : List (MojString × List IndexObject)) :
    Within (Acts (· ∈ kinds.map Prod.fst)) (MojDbKindEngine.addBuiltins kinds) := by
  have general : ∀ among : MojString → Prop, (∀ id ∈ kinds.map Prod.fst, among id) →
      Within (Acts among) (MojDbKindEngine.addBuiltins kinds) := by
    intro among wide
    induction kinds with
    | nil => exact acts_pure ()
    | cons kind rest ih =>
      rw [MojDbKindEngine.addBuiltins]
      apply Acts.bind (acts_putKind (wide kind.1 List.mem_cons_self) kind.2)
      intro done
      exact ih fun id member => wide id (List.mem_cons_of_mem kind.1 member)
  exact general _ fun id member => member

theorem addBuiltins_ok {top : Nat} {kinds : List (MojString × List IndexObject)} {done : Unit}
    (distinct : (kinds.map Prod.fst).Nodup) (tidy : Tidy top working.disk.rows working.seq)
    (before : ∀ id ∈ kinds.map Prod.fst, ∀ kind, working.memory.kinds id = some kind →
      ∃ given, Held working.disk.rows working.memory id given kind)
    (ran : MojDbKindEngine.addBuiltins kinds working = .ok done after) :
    ∀ entry ∈ kinds, ∃ kind, Held after.disk.rows after.memory entry.1 entry.2 kind ∧
      Turns top entry.1 entry.2 (indexesOf working.memory entry.1) working.disk.rows
        after.disk.rows := by
  induction kinds generalizing working top with
  | nil =>
    intro entry impossible
    cases impossible
  | cons head rest ih =>
    rw [MojDbKindEngine.addBuiltins] at ran
    rcases bind_ok ran with ⟨⟨⟩, middle, puts, ran⟩
    rw [List.map_cons, List.nodup_cons] at distinct
    have acts := (@acts_putKind (· = head.1) head.1 rfl head.2).of_ok puts
    rcases acts.tidy tidy with ⟨reached, above, between, -⟩
    have later := (acts_addBuiltins rest).of_ok ran
    rcases later.tidy between with ⟨last, -, final, -⟩
    have others : ∀ id ∈ rest.map Prod.fst, id ≠ head.1 := by
      rintro id member rfl
      exact distinct.1 member
    intro entry member
    rcases List.mem_cons.mp member with rfl | member
    · rcases putKind_ok tidy (before entry.1 List.mem_cons_self) puts with ⟨kind, held, turns⟩
      exact ⟨kind, held.frame later final distinct.1,
        turns.congr rfl (later.rows entry.1 distinct.1)⟩
    · have key : entry.1 ∈ rest.map Prod.fst := List.mem_map_of_mem member
      have still : ∀ id ∈ rest.map Prod.fst, ∀ kind, middle.memory.kinds id = some kind →
          ∃ given, Held middle.disk.rows middle.memory id given kind := by
        intro id inside kind known
        rw [acts.kinds id (others id inside)] at known
        rcases before id (List.mem_cons_of_mem head.1 inside) kind known with ⟨given, held⟩
        exact ⟨given, held.frame acts between (others id inside)⟩
      rcases ih distinct.2 between still ran entry member with ⟨kind, held, turns⟩
      have same : indexesOf middle.memory entry.1 = indexesOf working.memory entry.1 := by
        rw [indexesOf, acts.kinds entry.1 (others entry.1 key)]
        rfl
      rw [same] at turns
      exact ⟨kind, held, (turns.mono above).congr (acts.rows entry.1 (others entry.1 key)).symm rfl⟩

theorem loadKinds_sure {kinds : List (MojString × List IndexObject)}
    (names : ∀ entry ∈ kinds, ((wanted entry.2).map IndexObject.name).Nodup)
    (smooth : Smooth working) :
    ∃ after, MojDbKindEngine.loadKinds kinds working = .ok () after ∧
      MojDbKindEngine.addBuiltins kinds working = .ok () after ∧ Smooth after := by
  induction kinds generalizing working with
  | nil => exact ⟨working, rfl, rfl, smooth⟩
  | cons head rest ih =>
    rcases @sure_putKind head.1 head.2 (names head List.mem_cons_self) working smooth with
      ⟨⟨⟩, middle, puts, kept⟩
    have attempts : attempt (MojDbKindEngine.putKind head.1 head.2) working = .ok none middle := by
      unfold attempt
      rw [puts]
    rcases ih (fun entry member => names entry (List.mem_cons_of_mem head member)) kept with
      ⟨after, loads, adds, last⟩
    refine ⟨after, ?_, ?_, last⟩
    · rw [MojDbKindEngine.loadKinds, bind_of_ok attempts, loads]
    · rw [MojDbKindEngine.addBuiltins, bind_of_ok puts, adds]

end Loading

/-- The indexes that a kind is to have: its stored object says it, or it is built in. -/
def Disk.asked (disk : Disk) (id : MojString) : Option (List IndexObject) :=
  disk.stored.find id <|> MojDbKindEngine.builtins.lookup id

structure Disk.Owns (disk : Disk) (id : MojString) (index : IndexObject) (val : Nat) : Prop where
  asked : ∃ given, disk.asked id = some given ∧ index ∈ wanted given
  row : disk.rows id .indexIds index.name = some val

/-- A kind object of a built-in kind does not give another index the name of a built-in one. -/
def Agrees (id : MojString) (given : List IndexObject) : Prop :=
  ∀ index ∈ given, ∀ own ∈ (MojDbKindEngine.builtins.lookup id).getD [],
    index.name = own.name → index = own

instance (id : MojString) (given : List IndexObject) : Decidable (Agrees id given) :=
  inferInstanceAs (Decidable (∀ index ∈ given, ∀ own ∈ (MojDbKindEngine.builtins.lookup id).getD [],
    index.name = own.name → index = own))

structure Durable (top : Nat) (disk : Disk) (seq : World) : Prop where
  tidy : Tidy top disk.rows seq
  names : ∀ id given, disk.stored.find id = some given →
    ((wanted given).map IndexObject.name).Nodup
  agrees : ∀ id given, disk.stored.find id = some given → Agrees id given
  covered : ∀ id name val, disk.rows id .indexIds name = some val →
    ∃ given, disk.asked id = some given ∧ name ∈ (wanted given).map IndexObject.name

structure Mirrors (disk : Disk) (memory : Memory) : Prop where
  held : ∀ id kind, memory.kinds id = some kind →
    ∃ given, disk.asked id = some given ∧ Held disk.rows memory id given kind
  loaded : ∀ id given, disk.stored.find id = some given → (memory.kinds id).isSome
  bare : ∀ id, memory.kinds id = none → ∀ name, disk.rows id .indexIds name = none

structure Good (top : Nat) (sys : MojDb.System) : Prop where
  durable : Durable top sys.disk sys.seq
  mirrors : ∀ memory, sys.memory = some memory → Mirrors sys.disk memory ∧ sys.seq.seq.isSome

structure Moves (top : Nat) (changed : MojString → Prop) (disk later : Disk) : Prop where
  owns : ∀ id index val, later.Owns id index val → disk.Owns id index val ∨ top ≤ val
  tokens : ∀ id val, disk.rows id .kindTokens id = some val → later.rows id .kindTokens id = some val
  keeps : ∀ id, ¬changed id → later.stored.find id = disk.stored.find id ∧
    ∀ index val, disk.Owns id index val → later.Owns id index val

theorem Moves.refl (top : Nat) (changed : MojString → Prop) (disk : Disk) :
    Moves top changed disk disk :=
  ⟨fun _ _ _ => Or.inl, fun _ _ read => read, fun _ _ => ⟨rfl, fun _ _ owns => owns⟩⟩

theorem Moves.mono {top later : Nat} {changed : MojString → Prop} {disk after : Disk}
    (moves : Moves later changed disk after) (above : top ≤ later) : Moves top changed disk after :=
  ⟨fun id index val owns => (moves.owns id index val owns).imp_right above.trans, moves.tokens,
    moves.keeps⟩

theorem Moves.trans {top later : Nat} {changed : MojString → Prop} {disk middle after : Disk}
    (first : Moves top changed disk middle) (above : top ≤ later)
    (second : Moves later changed middle after) : Moves top changed disk after := by
  refine ⟨?_, fun id val read => second.tokens id val (first.tokens id val read), ?_⟩
  · intro id index val owns
    rcases second.owns id index val owns with before | new
    · exact first.owns id index val before
    · exact Or.inr (above.trans new)
  · intro id unchanged
    rcases first.keeps id unchanged with ⟨stored, owns⟩
    rcases second.keeps id unchanged with ⟨again, still⟩
    exact ⟨again.trans stored, fun index val owned => still index val (owns index val owned)⟩

theorem Moves.widen {top : Nat} {changed wider : MojString → Prop} {disk after : Disk}
    (moves : Moves top changed disk after) (wide : ∀ id, changed id → wider id) :
    Moves top wider disk after :=
  ⟨moves.owns, moves.tokens, fun id unchanged => moves.keeps id fun here => unchanged (wide id here)⟩

section Reopening

variable {top : Nat} {disk : Disk} {seq : World}

theorem Durable.carry {later : Nat} {after : Disk} {next : World} (durable : Durable top disk seq)
    (stored : after.stored = disk.stored) (tidy : Tidy later after.rows next)
    (fresh : ∀ {kind key name val}, after.rows kind key name = some val →
      disk.rows kind key name = some val ∨ top ≤ val)
    (token : ∀ {kind name val}, disk.rows kind .kindTokens name = some val →
      after.rows kind .kindTokens name = some val)
    (left : ∀ id name val, after.rows id .indexIds name = some val →
      disk.rows id .indexIds name = some val ∨
        ∃ given, disk.asked id = some given ∧ name ∈ (wanted given).map IndexObject.name)
    (kept : ∀ id index val, disk.Owns id index val → after.rows id .indexIds index.name = some val)
    (changed : MojString → Prop) :
    Durable later after next ∧ Moves top changed disk after := by
  have asked : ∀ id, after.asked id = disk.asked id := by
    intro id
    rw [Disk.asked, Disk.asked, stored]
  refine ⟨⟨tidy, ?_, ?_, ?_⟩, ?_, fun id val read => token read, ?_⟩
  · rw [stored]
    exact durable.names
  · rw [stored]
    exact durable.agrees
  · intro id name val read
    rw [asked]
    rcases left id name val read with there | given
    · exact durable.covered id name val there
    · exact given
  · intro id index val owns
    rcases fresh owns.row with row | new
    · exact Or.inl ⟨asked id ▸ owns.asked, row⟩
    · exact Or.inr new
  · intro id _
    refine ⟨by rw [stored], ?_⟩
    intro index val owns
    exact ⟨(asked id).symm ▸ owns.asked, kept id index val owns⟩

theorem Good.lost {sys : MojDb.System} {reached : Nat} {next : World} (good : Good top sys)
    (above : top ≤ reached) (ahead : Ahead reached next) : Good reached (sys.lost next) where
  durable := ⟨good.durable.tidy.mono (ahead_closed ahead.bound) above, good.durable.names,
    good.durable.agrees, good.durable.covered⟩
  mirrors memory impossible := by cases impossible

theorem builtins_distinct : (MojDbKindEngine.builtins.map Prod.fst).Nodup := by decide

theorem builtins_lookup : ∀ entry ∈ MojDbKindEngine.builtins,
    MojDbKindEngine.builtins.lookup entry.1 = some entry.2 := by decide +kernel

theorem mem_builtins {id : MojString} {given : List IndexObject}
    (found : MojDbKindEngine.builtins.lookup id = some given) :
    (id, given) ∈ MojDbKindEngine.builtins := by
  rcases List.lookup_eq_some_iff.mp found with ⟨front, back, same, -⟩
  rw [same]
  exact List.mem_append_right front List.mem_cons_self

theorem acts_loadKinds (kinds : List (MojString × List IndexObject)) {among : MojString → Prop}
    (wide : ∀ id ∈ kinds.map Prod.fst, among id) :
    Within (Acts among) (MojDbKindEngine.loadKinds kinds) := by
  induction kinds with
  | nil => exact acts_pure ()
  | cons kind rest ih =>
    rw [MojDbKindEngine.loadKinds]
    apply Acts.bind (acts_attempt (acts_putKind (wide kind.1 List.mem_cons_self) kind.2))
    intro err
    exact ih fun id member => wide id (List.mem_cons_of_mem kind.1 member)

def opening (sys : MojDb.System) (faults : List (Option MojErr)) : Working :=
  ⟨sys.disk, ⟨fun _ => none, fun _ => none⟩,
    ⟨some (openSeq sys.seq.stored), sys.seq.stored⟩, faults, sys.disk, false⟩

theorem opening_tidy {sys : MojDb.System} (good : Good top sys) (faults : List (Option MojErr)) :
    Tidy top (opening sys faults).disk.rows (opening sys faults).seq := by
  have bound := good.durable.tidy.ahead.bound
  exact good.durable.tidy.mono (ahead_open bound bound rfl) (le_refl top)

/-- After the built-in kinds, these are in memory and the other kinds are as they were. -/
theorem builtins_ok {working after : Working} (tidy : Tidy top working.disk.rows working.seq)
    (empty : ∀ id, working.memory.kinds id = none)
    (ran : MojDbKindEngine.addBuiltins MojDbKindEngine.builtins working = .ok () after) (id : MojString) :
    (after.memory.kinds id = none ∧ after.disk.rows id = working.disk.rows id ∧
        MojDbKindEngine.builtins.lookup id = none) ∨
      ∃ given kind, MojDbKindEngine.builtins.lookup id = some given ∧
        Held after.disk.rows after.memory id given kind ∧
        Turns top id given [] working.disk.rows after.disk.rows := by
  cases found : MojDbKindEngine.builtins.lookup id with
  | none =>
    apply Or.inl
    have outside : id ∉ MojDbKindEngine.builtins.map Prod.fst := by
      intro member
      rcases List.mem_map.mp member with ⟨entry, inside, rfl⟩
      rw [builtins_lookup entry inside] at found
      cases found
    have acts := (acts_addBuiltins MojDbKindEngine.builtins).of_ok ran
    exact ⟨(acts.kinds id outside).trans (empty id), acts.rows id outside, rfl⟩
  | some given =>
    apply Or.inr
    have nothing : ∀ id ∈ MojDbKindEngine.builtins.map Prod.fst, ∀ kind,
        working.memory.kinds id = some kind →
        ∃ given, Held working.disk.rows working.memory id given kind := by
      intro id _ kind known
      rw [empty id] at known
      cases known
    rcases addBuiltins_ok builtins_distinct tidy nothing ran (id, given) (mem_builtins found) with
      ⟨kind, held, turns⟩
    rw [indexesOf_none (empty id)] at turns
    exact ⟨given, kind, rfl, held, turns⟩

/-- After the stored kinds, these are in memory and the other kinds are as they were. -/
theorem stored_ok {working after : Working} (tidy : Tidy top working.disk.rows working.seq)
    (before : ∀ id kind, working.memory.kinds id = some kind →
      ∃ given, Held working.disk.rows working.memory id given kind)
    (ran : MojDbKindEngine.addBuiltins working.disk.stored.entries working = .ok () after)
    (id : MojString) :
    (after.memory.kinds id = working.memory.kinds id ∧ after.disk.rows id = working.disk.rows id ∧
        working.disk.stored.find id = none) ∨
      ∃ given kind, working.disk.stored.find id = some given ∧
        Held after.disk.rows after.memory id given kind ∧
        Turns top id given (indexesOf working.memory id) working.disk.rows after.disk.rows := by
  cases found : working.disk.stored.find id with
  | none =>
    have outside := (working.disk.stored.find_eq_none_iff id).mp found
    have acts := (acts_addBuiltins working.disk.stored.entries).of_ok ran
    exact Or.inl ⟨acts.kinds id outside, acts.rows id outside, rfl⟩
  | some given =>
    have member := (working.disk.stored.find_eq_some_iff id given).mp found
    rcases addBuiltins_ok working.disk.stored.keys_nodup tidy (fun id _ => before id) ran
      (id, given) member with ⟨kind, held, turns⟩
    exact Or.inr ⟨given, kind, rfl, held, turns⟩

theorem opened_good {sys : MojDb.System} {faults loads : List (Option MojErr)} {built after : Working}
    (good : Good top sys)
    (adds : MojDbKindEngine.addBuiltins MojDbKindEngine.builtins (opening sys faults) = .ok () built)
    (ran : MojDbKindEngine.addBuiltins built.disk.stored.entries { built with faults := loads } =
      .ok () after) (changed : MojString → Prop) :
    ∃ later, top ≤ later ∧ Good later ⟨after.disk, after.seq, some after.memory⟩ ∧
      Moves top changed sys.disk after.disk := by
  have tidy := opening_tidy good faults
  have first := (acts_addBuiltins MojDbKindEngine.builtins).of_ok adds
  rcases first.tidy tidy with ⟨reached, above, between, origin⟩
  have second := (acts_addBuiltins built.disk.stored.entries).of_ok ran
  rcases second.tidy between with ⟨later, more, final, last⟩
  have stored : built.disk.stored = sys.disk.stored := first.stored
  have builtin := builtins_ok tidy (fun _ => rfl) adds
  have before : ∀ id kind, built.memory.kinds id = some kind →
      ∃ given, Held built.disk.rows built.memory id given kind := by
    intro id kind known
    rcases builtin id with ⟨absent, -⟩ | ⟨given, other, -, held, -⟩
    · rw [known] at absent
      cases absent
    · rw [held.live] at known
      cases known
      exact ⟨given, held⟩
  have loaded := @stored_ok reached { built with faults := loads } after between before ran
  dsimp only at loaded
  rw [stored] at loaded
  have fresh : ∀ {kind key name val}, after.disk.rows kind key name = some val →
      sys.disk.rows kind key name = some val ∨ top ≤ val := by
    intro kind key name val read
    rcases last read with there | new
    · exact origin there
    · exact Or.inr (above.trans new)
  -- what is on record after the built-in kinds belongs to an index that is asked for
  have builtLeft : ∀ id name val, built.disk.rows id .indexIds name = some val →
      sys.disk.rows id .indexIds name = some val ∨
        ∃ given, MojDbKindEngine.builtins.lookup id = some given ∧
          name ∈ (wanted given).map IndexObject.name := by
    intro id name val read
    rcases builtin id with ⟨-, same, -⟩ | ⟨given, kind, found, -, turns⟩
    · rw [same] at read
      exact Or.inl read
    · rcases turns.left read with inside | ⟨there, -⟩
      · exact Or.inr ⟨given, found, inside⟩
      · exact Or.inl there
  have left : ∀ id name val, after.disk.rows id .indexIds name = some val →
      sys.disk.rows id .indexIds name = some val ∨
        ∃ given, sys.disk.asked id = some given ∧ name ∈ (wanted given).map IndexObject.name := by
    intro id name val read
    rcases loaded id with ⟨-, same, absent⟩ | ⟨given, kind, found, -, turns⟩
    · rw [same] at read
      rcases builtLeft id name val read with there | ⟨given, own, inside⟩
      · exact Or.inl there
      · refine Or.inr ⟨given, ?_, inside⟩
        rw [Disk.asked, absent]
        exact own
    · have asked : sys.disk.asked id = some given := by
        rw [Disk.asked, found]
        rfl
      rcases turns.left read with inside | ⟨there, unnamed⟩
      · exact Or.inr ⟨given, asked, inside⟩
      · rcases builtin id with ⟨-, same, -⟩ | ⟨own, kind, -, held, turns⟩
        · rw [same] at there
          exact Or.inl there
        · rcases turns.left there with inside | ⟨there, -⟩
          · rcases List.mem_map.mp inside with ⟨index, member, named⟩
            rcases held.fits.complete index member with ⟨val, entry⟩
            rw [indexesOf_some held.live] at unnamed
            exact absurd named (unnamed (index, val) entry)
          · exact Or.inl there
  have kept : ∀ id index val, sys.disk.Owns id index val →
      after.disk.rows id .indexIds index.name = some val := by
    intro id index val owns
    have builtKept : built.disk.rows id .indexIds index.name = some val := by
      rcases builtin id with ⟨-, same, -⟩ | ⟨given, kind, -, -, turns⟩
      · rw [same]
        exact owns.row
      · apply turns.kept owns.row
        rintro ⟨entry, impossible, -⟩
        cases impossible
    rcases loaded id with ⟨-, same, -⟩ | ⟨given, kind, found, -, turns⟩
    · rw [same]
      exact builtKept
    · apply turns.kept builtKept
      rintro ⟨entry, member, out, named⟩
      rcases owns.asked with ⟨other, asked, inside⟩
      rw [Disk.asked, found] at asked
      cases asked
      rcases builtin id with ⟨absent, -⟩ | ⟨own, kind, lookup, held, -⟩
      · rw [indexesOf_none absent] at member
        cases member
      · rw [indexesOf_some held.live] at member
        have own' := (held.fits.listed entry member).1
        rcases List.mem_cons.mp own' with same | builtin
        · exact out (same ▸ List.mem_cons_self)
        · rcases List.mem_cons.mp inside with same | inside
          · apply out
            rw [eq_of_names held.names own' List.mem_cons_self (named.trans (congrArg _ same))]
            exact List.mem_cons_self
          · have agrees := good.durable.agrees id given found index inside entry.1
            rw [lookup] at agrees
            exact out (agrees builtin named.symm ▸ List.mem_cons_of_mem _ inside)
  rcases good.durable.carry (second.stored.trans stored) final fresh
    (fun read => second.token (first.token read)) left kept changed with ⟨durable, moves⟩
  refine ⟨later, above.trans more, ⟨durable, ?_⟩, moves⟩
  intro memory same
  cases same
  refine ⟨⟨?_, ?_, ?_⟩, second.opened (first.opened rfl)⟩
  · intro id kind known
    have asked : after.disk.asked id = sys.disk.asked id := by
      rw [Disk.asked, Disk.asked, second.stored.trans stored]
    rw [asked, Disk.asked]
    rcases loaded id with ⟨same, -, absent⟩ | ⟨given, other, found, held, -⟩
    · rw [same] at known
      rcases builtin id with ⟨none, -⟩ | ⟨given, other, found, held, -⟩
      · rw [known] at none
        cases none
      · rw [held.live] at known
        cases known
        rw [absent]
        have outside : id ∉ built.disk.stored.entries.map Prod.fst := by
          rw [stored]
          exact (sys.disk.stored.find_eq_none_iff id).mp absent
        exact ⟨given, found, @Held.frame _ { built with faults := loads } after id given _ later
          after.seq held second final outside⟩
    · rw [held.live] at known
      cases known
      rw [found]
      exact ⟨given, rfl, held⟩
  · intro id given found
    rw [second.stored.trans stored] at found
    rcases loaded id with ⟨-, -, absent⟩ | ⟨_, kind, -, held, -⟩
    · rw [found] at absent
      cases absent
    · rw [held.live]
      rfl
  · intro id none name
    rcases loaded id with ⟨same, rows, absent⟩ | ⟨_, kind, -, held, -⟩
    · rcases builtin id with ⟨-, before, unknown⟩ | ⟨_, kind, -, held, -⟩
      · rw [rows, before]
        cases row : sys.disk.rows id .indexIds name with
        | none => exact row
        | some val =>
          rcases good.durable.covered id name val row with ⟨given, asked, -⟩
          rw [Disk.asked, absent, unknown] at asked
          cases asked
      · rw [same, held.live] at none
        cases none
    · rw [held.live] at none
      cases none

end Reopening

end Db8.Db.KindIds
