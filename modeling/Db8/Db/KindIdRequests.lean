import Db8.Db.KindIdReopen

/-!
# Tokens and ids when a request ends

A request changes what is committed for its own kind only, when it is committed. When it is not, the kinds
in memory are as they were before it if its kind is loaded anew.
-/

set_option autoImplicit false

namespace Db8.Db.KindIds

open Db8.Bytes
open Db8.Core
open Db8.DbEngine
open Db8.DbEngine.MojDbStorageSeq (World Ahead ahead_closed ahead_open close_spec openSeq)
open Db8.Programs

namespace MojDb

def Op.stores : Op → SortedMap MojString (List IndexObject) → SortedMap MojString (List IndexObject)
  | .putKind id given, stored => stored.put id given
  | .delKind id _, stored => stored.del id

def Op.engine : Op → Acting Unit
  | .putKind id given => MojDbKindEngine.putKind id given
  | .delKind id _ => MojDbKindEngine.delKind id

theorem acts_engine (op : Op) : Within (Acts (· = op.id)) op.engine := by
  cases op with
  | putKind id given => exact @acts_putKind (· = id) id rfl given
  | delKind id full => exact @acts_delKind (· = id) id rfl

structure Begun (op : Op) (working began : Working) : Prop where
  rows : began.disk.rows = working.disk.rows
  stored : began.disk.stored = op.stores working.disk.stored
  memory : began.memory = working.memory
  seq : began.seq = working.seq
  faults : ∀ failure ∈ began.faults, failure ∈ working.faults
  request : op.full = 0 → began.request = working.request
  batch : working.batch = true → began.batch = true
  found : ∀ full, op = .delKind op.id full → (working.disk.stored.find op.id).isSome

variable {working after : Working}

theorem attempt_ok {action : Acting Unit} {err : Option MojErr}
    (ran : attempt action working = .ok err after) :
    err = none ∧ action working = .ok () after ∨
      ∃ failure, err = some failure ∧ action working = .error failure after := by
  unfold attempt at ran
  cases acted : action working with
  | ok done middle =>
    rw [acted] at ran
    cases ran
    exact Or.inl ⟨rfl, rfl⟩
  | error failure middle =>
    rw [acted] at ran
    cases ran
    exact Or.inr ⟨failure, rfl, rfl⟩

theorem ask_error {err : MojErr} (ran : ask working = .error err after) :
    after = { working with faults := working.faults.tail } := by
  have held := ask_last working
  rwa [ran] at held

theorem attempt_error {action : Acting Unit} {err : MojErr}
    (ran : attempt action working = .error err after) : False := by
  unfold attempt at ran
  cases acted : action working with
  | ok done middle =>
    rw [acted] at ran
    cases ran
  | error failure middle =>
    rw [acted] at ran
    cases ran

structure Purged (full : Nat) (working after : Working) : Prop where
  disk : after.disk = working.disk
  memory : after.memory = working.memory
  seq : after.seq = working.seq
  faults : ∀ failure ∈ after.faults, failure ∈ working.faults
  request : full = 0 → after.request = working.request
  batch : working.batch = true → after.batch = true

theorem purged_ask (full : Nat) (working : Working) : Purged full working (last (ask working)) := by
  rw [ask_last]
  exact ⟨rfl, rfl, rfl, fun failure member => List.mem_of_mem_tail member, fun _ => rfl, fun same => same⟩

theorem Purged.trans {full other : Nat} {first second third : Working} (one : Purged full first second)
    (two : Purged other second third) : Purged (full + other) first third where
  disk := two.disk.trans one.disk
  memory := two.memory.trans one.memory
  seq := two.seq.trans one.seq
  faults failure member := one.faults failure (two.faults failure member)
  request none := (two.request (by omega)).trans (one.request (by omega))
  batch batched := two.batch (one.batch batched)

theorem commitBatch_last (working : Working) : Purged 1 working (last (commitBatch working)) := by
  have asked := purged_ask 1 working
  unfold commitBatch
  rw [bind_eq]
  cases asks : ask working with
  | error err after =>
    rw [asks] at asked
    exact asked
  | ok done after =>
    rw [asks] at asked
    exact ⟨asked.disk, asked.memory, asked.seq, asked.faults, (fun impossible => by cases impossible),
      fun _ => rfl⟩

theorem purge_last (full : Nat) (working : Working) : Purged full working (last (purge full working)) := by
  induction full generalizing working with
  | zero => exact purged_ask 0 working
  | succ full ih =>
    have round := purged_ask 0 working
    rw [purge, bind_eq]
    cases asks : ask working with
    | error err after =>
      rw [asks] at round
      exact ⟨round.disk, round.memory, round.seq, round.faults, (fun impossible => by cases impossible),
        round.batch⟩
    | ok done after =>
      rw [asks] at round
      have committed := commitBatch_last after
      dsimp only
      rw [bind_eq]
      cases commits : commitBatch after with
      | error err middle =>
        rw [commits] at committed
        have both := round.trans committed
        exact ⟨both.disk, both.memory, both.seq, both.faults,
          (fun impossible => by cases impossible), both.batch⟩
      | ok done middle =>
        rw [commits] at committed
        have rest := (round.trans committed).trans (ih middle)
        exact ⟨rest.disk, rest.memory, rest.seq, rest.faults,
          (fun impossible => by cases impossible), rest.batch⟩

theorem sure_purge (full : Nat) : Sure Smooth (purge full) := by
  induction full with
  | zero => exact sure_ask
  | succ full ih =>
    apply Sure.bind sure_ask
    intro done
    apply Sure.bind _ fun _ => ih
    apply Sure.bind sure_ask
    intro done
    exact sure_modify fun _ smooth => ⟨smooth.faults, smooth.opened, smooth.ahead⟩

/-- A request that fails before the engine is asked has changed no kind; nothing is committed then if no
full batch is, or nothing is refused. -/
theorem body_error {op : Op} {err : MojErr} (ran : op.body working = .error err after) :
    after.memory = working.memory ∧ after.seq = working.seq ∧
      (op.full = 0 ∨ Smooth working → after.committed = working.committed) := by
  cases op with
  | putKind id given =>
    rw [Op.body] at ran
    rcases bind_error ran with asks | ⟨⟨⟩, asked, asks, ran⟩
    · rw [ask_error asks]
      exact ⟨rfl, rfl, fun _ => rfl⟩
    · rcases bind_error ran with impossible | ⟨⟨⟩, stored, stores, ran⟩
      · cases impossible
      · exact (attempt_error ran).elim
  | delKind id full =>
    rw [Op.body] at ran
    rcases bind_error ran with impossible | ⟨read, state, got, ran⟩
    · cases impossible
    · cases got
      cases known : working.memory.kinds id with
      | none =>
        rw [known] at ran
        cases ran
        exact ⟨rfl, rfl, fun _ => rfl⟩
      | some kind =>
        rw [known] at ran
        rcases bind_error ran with asks | ⟨⟨⟩, asked, asks, ran⟩
        · rw [ask_error asks]
          exact ⟨rfl, rfl, fun _ => rfl⟩
        · rcases bind_error ran with impossible | ⟨again, state, got, ran⟩
          · cases impossible
          · cases got
            rw [ask_ok asks] at ran
            split_ifs at ran with found
            · rcases bind_error ran with impossible | ⟨⟨⟩, stored, stores, ran⟩
              · cases impossible
              · cases stores
                rcases bind_error ran with purges | ⟨⟨⟩, purged, purges, ran⟩
                · have rounds := purge_last full { working with
                    faults := working.faults.tail
                    disk := { working.disk with stored := working.disk.stored.del id } }
                  rw [purges] at rounds
                  refine ⟨rounds.memory, rounds.seq, ?_⟩
                  rintro (none | smooth)
                  · exact congrArg Prod.fst (rounds.request none)
                  · have kept : Smooth { working with
                        faults := working.faults.tail
                        disk := { working.disk with stored := working.disk.stored.del id } } :=
                      ⟨smooth.tail.faults, smooth.opened, smooth.ahead⟩
                    rcases sure_purge full _ kept with ⟨done, ended, succeeds, -⟩
                    rw [succeeds] at purges
                    cases purges
                · exact (attempt_error ran).elim
            · cases ran

theorem body_ok {op : Op} {err : Option MojErr} (ran : op.body working = .ok err after) :
    (err = none ∧ working.disk.stored.find op.id = none ∧ (working.memory.kinds op.id).isSome ∧
        after.disk = working.disk ∧ after.memory = working.memory ∧ after.seq = working.seq ∧
          after.request = working.request) ∨
      ∃ began, Begun op working began ∧ (err = none ∧ op.engine began = .ok () after ∨
        ∃ failure, err = some failure ∧ op.engine began = .error failure after) := by
  cases op with
  | putKind id given =>
    rw [Op.body] at ran
    rcases bind_ok ran with ⟨⟨⟩, asked, asks, ran⟩
    rcases bind_ok ran with ⟨⟨⟩, stored, stores, ran⟩
    cases stores
    rw [ask_ok asks] at ran
    have engine : attempt (Op.engine (.putKind id given)) _ = .ok err after := ran
    refine Or.inr ⟨_, ?_, attempt_ok engine⟩
    refine ⟨rfl, rfl, rfl, rfl, fun failure member => List.mem_of_mem_tail member, fun _ => rfl,
      fun same => same, ?_⟩
    intro full impossible
    cases impossible
  | delKind id full =>
    rw [Op.body] at ran
    rcases bind_ok ran with ⟨read, state, got, ran⟩
    cases got
    cases known : working.memory.kinds id with
    | none =>
      rw [known] at ran
      cases ran
    | some kind =>
      rw [known] at ran
      rcases bind_ok ran with ⟨⟨⟩, asked, asks, ran⟩
      rcases bind_ok ran with ⟨again, state, got, ran⟩
      cases got
      rw [ask_ok asks] at ran
      split_ifs at ran with found
      · rcases bind_ok ran with ⟨⟨⟩, stored, stores, ran⟩
        cases stores
        rcases bind_ok ran with ⟨⟨⟩, purged, purges, ran⟩
        have rounds := purge_last full { working with
          faults := working.faults.tail
          disk := { working.disk with stored := working.disk.stored.del id } }
        rw [purges] at rounds
        have engine : attempt (Op.engine (.delKind id full)) purged = .ok err after := ran
        have disk : purged.disk = { working.disk with stored := working.disk.stored.del id } :=
          rounds.disk
        refine Or.inr ⟨purged, ?_, attempt_ok engine⟩
        exact ⟨by rw [disk], by rw [disk]; rfl, rounds.memory, rounds.seq,
          fun failure member => List.mem_of_mem_tail (rounds.faults failure member),
          rounds.request, rounds.batch, fun _ _ => found⟩
      · cases ran
        apply Or.inl
        refine ⟨rfl, ?_, ?_, rfl, rfl, rfl, rfl⟩
        · exact Option.not_isSome_iff_eq_none.mp found
        · change (working.memory.kinds id).isSome
          rw [known]
          rfl

def Op.Named : Op → Prop
  | .putKind _ given => ((wanted given).map IndexObject.name).Nodup
  | .delKind _ _ => True

instance : (op : Op) → Decidable op.Named
  | .putKind _ given => inferInstanceAs (Decidable ((wanted given).map IndexObject.name).Nodup)
  | .delKind _ _ => isTrue trivial

def Op.Agrees : Op → Prop
  | .putKind id given => KindIds.Agrees id given
  | .delKind _ _ => True

instance : (op : Op) → Decidable op.Agrees
  | .putKind id given => inferInstanceAs (Decidable (KindIds.Agrees id given))
  | .delKind _ _ => isTrue trivial

def Op.Unchanging (disk : Disk) (memory : Memory) : Op → Prop
  | .putKind id given => ∃ kind ∈ memory.kinds id,
      (∀ index ∈ wanted given, index ∈ kind.indexes.map Prod.fst) ∧
        ∀ index ∈ kind.indexes.map Prod.fst, index ∈ wanted given
  | .delKind id _ => disk.stored.find id = none

instance (disk : Disk) (memory : Memory) : (op : Op) → Decidable (op.Unchanging disk memory)
  | .putKind id given => inferInstanceAs (Decidable (∃ kind ∈ memory.kinds id,
      (∀ index ∈ wanted given, index ∈ kind.indexes.map Prod.fst) ∧
        ∀ index ∈ kind.indexes.map Prod.fst, index ∈ wanted given))
  | .delKind id _ => inferInstanceAs (Decidable (disk.stored.find id = none))

theorem sure_engine {op : Op} (named : op.Named) : Sure Smooth op.engine := by
  cases op with
  | putKind id given => exact sure_putKind named
  | delKind id full => exact sure_delKind

theorem Op.stores_other {op : Op} {other : MojString} (stored : SortedMap MojString (List IndexObject))
    (apart : other ≠ op.id) : (op.stores stored).find other = stored.find other := by
  cases op with
  | putKind id given =>
    change other ≠ id at apart
    rw [Op.stores, SortedMap.find_put, if_neg apart.symm]
  | delKind id full =>
    change other ≠ id at apart
    rw [Op.stores, SortedMap.find_del, if_neg apart.symm]

end MojDb

section Requests

variable {top : Nat} {disk : Disk} {memory : Memory} {id : MojString}

theorem Mirrors.change {after : Disk} {later : Memory} (mirrors : Mirrors disk memory)
    (kinds : ∀ other, other ≠ id → later.kinds other = memory.kinds other)
    (rows : ∀ other, other ≠ id → after.rows other = disk.rows other)
    (stored : ∀ other, other ≠ id → after.stored.find other = disk.stored.find other)
    (known : ∀ other, other ≠ id → ∀ kind, memory.kinds other = some kind →
      later.tokens kind.token = some other)
    (own : (∃ given kind, after.asked id = some given ∧ Held after.rows later id given kind) ∨
      later.kinds id = none ∧ after.stored.find id = none ∧
        ∀ name, after.rows id .indexIds name = none) : Mirrors after later := by
  refine ⟨?_, ?_, ?_⟩
  · intro other kind live
    by_cases same : other = id
    · subst same
      rcases own with ⟨given, now, asked, held⟩ | ⟨absent, -⟩
      · rw [held.live] at live
        cases live
        exact ⟨given, asked, held⟩
      · rw [live] at absent
        cases absent
    · rw [kinds other same] at live
      rcases mirrors.held other kind live with ⟨given, asked, held⟩
      refine ⟨given, ?_, (kinds other same).trans live, known other same kind live, ?_, held.names⟩
      · rw [Disk.asked, stored other same]
        exact asked
      · refine ⟨?_, ?_, held.fits.complete⟩
        · rw [rows other same]
          exact held.fits.token
        · rw [rows other same]
          exact held.fits.listed
  · intro other given found
    by_cases same : other = id
    · subst same
      rcases own with ⟨_, now, -, held⟩ | ⟨-, absent, -⟩
      · rw [held.live]
        rfl
      · rw [found] at absent
        cases absent
    · rw [kinds other same]
      rw [stored other same] at found
      exact mirrors.loaded other given found
  · intro other absent
    by_cases same : other = id
    · subst same
      rcases own with ⟨_, now, -, held⟩ | ⟨-, -, bare⟩
      · rw [held.live] at absent
        cases absent
      · exact bare
    · rw [kinds other same] at absent
      rw [rows other same]
      exact mirrors.bare other absent

/-- A kind that was put anew for the same indexes shows the ids that were on record before. -/
theorem Held.back {rows after : Rows} {before later : Memory} {given now : List IndexObject}
    {old kind : Kind} (was : Held rows before id given old) (held : Held after later id now kind)
    (same : ∀ index, index ∈ wanted now ↔ index ∈ wanted given)
    (token : ∀ val, rows id .kindTokens id = some val → after id .kindTokens id = some val)
    (kept : ∀ index ∈ wanted given, ∀ val, rows id .indexIds index.name = some val →
      after id .indexIds index.name = some val) : Held rows later id given kind := by
  refine ⟨held.live, held.known, ⟨?_, ?_, ?_⟩, was.names⟩
  · have row := token _ was.fits.token
    rw [held.fits.token] at row
    rw [was.fits.token, row]
  · intro entry member
    rcases held.fits.listed entry member with ⟨inside, row⟩
    have inside := (same entry.1).mp inside
    rcases was.fits.complete entry.1 inside with ⟨val, listed⟩
    have before := (was.fits.listed _ listed).2
    rw [kept entry.1 inside val before] at row
    exact ⟨inside, before.trans row⟩
  · intro index member
    exact held.fits.complete index ((same index).mpr member)

variable {seq : World} {given : List IndexObject}

theorem Durable.named {kind : Kind} {name : MojString} {val : Nat} (durable : Durable top disk seq)
    (asked : disk.asked id = some given) (held : Held disk.rows memory id given kind)
    (row : disk.rows id .indexIds name = some val) :
    ∃ entry ∈ kind.indexes, entry.1.name = name := by
  rcases durable.covered id name val row with ⟨other, same, member⟩
  rw [asked] at same
  cases same
  rcases List.mem_map.mp member with ⟨index, inside, named⟩
  rcases held.fits.complete index inside with ⟨val, entry⟩
  exact ⟨(index, val), entry, named⟩

variable {working began after : Working}

theorem engine_ok {op : MojDb.Op} (begun : MojDb.Begun op working began)
    (durable : Durable top working.disk seq) (tidy : Tidy top began.disk.rows began.seq)
    (mirrors : Mirrors working.disk working.memory) (ran : op.engine began = .ok () after) :
    (∃ given kind, op = .putKind op.id given ∧ Held after.disk.rows after.memory op.id given kind ∧
        Turns top op.id given (indexesOf working.memory op.id) working.disk.rows after.disk.rows) ∨
      (∃ full, op = .delKind op.id full) ∧ after.memory.kinds op.id = none ∧
        ∀ name, after.disk.rows op.id .indexIds name = none := by
  cases op with
  | putKind id given =>
    have before : ∀ kind, began.memory.kinds id = some kind →
        ∃ given, Held began.disk.rows began.memory id given kind := by
      rw [begun.rows, begun.memory]
      intro kind known
      rcases mirrors.held id kind known with ⟨given, -, held⟩
      exact ⟨given, held⟩
    rcases putKind_ok tidy before ran with ⟨kind, held, turns⟩
    rw [begun.rows, begun.memory] at turns
    exact Or.inl ⟨given, kind, rfl, held, turns⟩
  | delKind id full =>
    rcases delKind_ok ran with ⟨absent, names⟩
    rw [begun.rows, begun.memory] at names
    refine Or.inr ⟨⟨full, rfl⟩, absent, ?_⟩
    intro name
    by_cases listed : name ∈ (indexesOf working.memory id).map fun entry => entry.1.name
    · exact (names name).1 listed
    · rw [MojDb.Op.id, (names name).2 listed]
      cases known : working.memory.kinds id with
      | none => exact mirrors.bare id known name
      | some kind =>
        cases row : working.disk.rows id .indexIds name with
        | none => rfl
        | some val =>
          rcases mirrors.held id kind known with ⟨given, asked, held⟩
          rcases durable.named asked held row with ⟨entry, member, named⟩
          rw [indexesOf_some known] at listed
          exact absurd (List.mem_map.mpr ⟨entry, member, named⟩) listed

/-- The kinds that a request is not about stay right in memory, on either disk. -/
theorem Acts.known {began after : Working} {later : Nat} (acts : Acts (· = id) began after)
    (rows : began.disk.rows = disk.rows) (same : began.memory = memory)
    (mirrors : Mirrors disk memory) (tidy : Tidy later after.disk.rows seq) :
    ∀ other, other ≠ id → ∀ kind, memory.kinds other = some kind →
      after.memory.tokens kind.token = some other := by
  intro other apart kind known
  rcases mirrors.held other kind known with ⟨given, -, held⟩
  rw [← rows, ← same] at held
  exact (held.frame acts tidy apart).known

structure Elsewhere (id : MojString) (disk after : Disk) : Prop where
  rows : ∀ other, other ≠ id → after.rows other = disk.rows other
  stored : ∀ other, other ≠ id → after.stored.find other = disk.stored.find other

theorem Elsewhere.asked {after : Disk} (elsewhere : Elsewhere id disk after) {other : MojString}
    (apart : other ≠ id) : after.asked other = disk.asked other := by
  rw [Disk.asked, Disk.asked, elsewhere.stored other apart]

theorem Elsewhere.owns {after : Disk} (elsewhere : Elsewhere id disk after) {other : MojString}
    (apart : other ≠ id) (index : IndexObject) (val : Nat) :
    after.Owns other index val ↔ disk.Owns other index val := by
  have asked := elsewhere.asked apart
  have rows := elsewhere.rows other apart
  constructor
  · intro owns
    exact ⟨asked ▸ owns.asked, rows ▸ owns.row⟩
  · intro owns
    exact ⟨asked.symm ▸ owns.asked, rows.symm ▸ owns.row⟩

theorem Durable.change {later : Nat} {after : Disk} {seq next : World} (durable : Durable top disk seq)
    (elsewhere : Elsewhere id disk after) (tidy : Tidy later after.rows next)
    (own : (∃ given, after.stored.find id = some given ∧
        ((wanted given).map IndexObject.name).Nodup ∧ Agrees id given ∧
        ∀ name val, after.rows id .indexIds name = some val →
          name ∈ (wanted given).map IndexObject.name) ∨
      after.stored.find id = none ∧ ∀ name, after.rows id .indexIds name = none) :
    Durable later after next := by
  refine ⟨tidy, ?_, ?_, ?_⟩
  · intro other given found
    by_cases same : other = id
    · subst same
      rcases own with ⟨now, put, names, -⟩ | ⟨absent, -⟩
      · rw [put] at found
        cases found
        exact names
      · rw [found] at absent
        cases absent
    · rw [elsewhere.stored other same] at found
      exact durable.names other given found
  · intro other given found
    by_cases same : other = id
    · subst same
      rcases own with ⟨now, put, -, agrees, -⟩ | ⟨absent, -⟩
      · rw [put] at found
        cases found
        exact agrees
      · rw [found] at absent
        cases absent
    · rw [elsewhere.stored other same] at found
      exact durable.agrees other given found
  · intro other name val read
    by_cases same : other = id
    · subst same
      rcases own with ⟨now, put, -, -, named⟩ | ⟨-, bare⟩
      · refine ⟨now, ?_, named name val read⟩
        rw [Disk.asked, put]
        rfl
      · rw [bare name] at read
        cases read
    · rw [elsewhere.rows other same] at read
      rw [elsewhere.asked same]
      exact durable.covered other name val read

/-- An id that a kind has after it was put, it had before for the same index, or the id is new. -/
theorem put_owns {rows : Rows} (durable : Durable top disk seq) (mirrors : Mirrors disk memory)
    (names : ((wanted given).map IndexObject.name).Nodup)
    (turns : Turns top id given (indexesOf memory id) disk.rows rows) {index : IndexObject}
    {val : Nat} (inside : index ∈ wanted given) (read : rows id .indexIds index.name = some val)
    (fresh : disk.rows id .indexIds index.name = some val ∨ top ≤ val) :
    disk.Owns id index val ∨ top ≤ val := by
  rcases fresh with row | new
  · cases known : memory.kinds id with
    | none =>
      rw [mirrors.bare id known] at row
      cases row
    | some old =>
      rcases mirrors.held id old known with ⟨had, asked, was⟩
      rcases durable.named asked was row with ⟨entry, member, named⟩
      by_cases same : entry.1 = index
      · exact Or.inl ⟨⟨had, asked, same ▸ (was.fits.listed entry member).1⟩, row⟩
      · apply Or.inr
        apply turns.renewed _ read
        refine ⟨entry, ?_, ?_, named⟩
        · rw [indexesOf_some known]
          exact member
        · intro stays
          exact same (eq_of_names names stays inside named)
  · exact Or.inr new

theorem put_named {rows : Rows} (durable : Durable top disk seq) (mirrors : Mirrors disk memory)
    (turns : Turns top id given (indexesOf memory id) disk.rows rows) (name : MojString) (val : Nat)
    (read : rows id .indexIds name = some val) : name ∈ (wanted given).map IndexObject.name := by
  rcases turns.left read with inside | ⟨row, unnamed⟩
  · exact inside
  · cases known : memory.kinds id with
    | none =>
      rw [mirrors.bare id known] at row
      cases row
    | some old =>
      rcases mirrors.held id old known with ⟨had, asked, was⟩
      rcases durable.named asked was row with ⟨entry, member, named⟩
      rw [indexesOf_some known] at unnamed
      exact absurd named (unnamed entry member)

theorem committed_good {op : MojDb.Op} (begun : MojDb.Begun op working began)
    (durable : Durable top working.disk seq) (tidy : Tidy top began.disk.rows began.seq)
    (mirrors : Mirrors working.disk working.memory)
    (agrees : ∀ given, op = .putKind op.id given → Agrees op.id given)
    (isOpen : began.seq.seq.isSome) (ran : op.engine began = .ok () after) :
    ∃ later, top ≤ later ∧ Good later ⟨after.disk, after.seq, some after.memory⟩ ∧
      Moves top (· = op.id) working.disk after.disk := by
  have acts := (MojDb.acts_engine op).of_ok ran
  rcases acts.tidy tidy with ⟨later, above, final, origin⟩
  have elsewhere : Elsewhere op.id working.disk after.disk := by
    constructor
    · intro other apart
      rw [acts.rows other apart, begun.rows]
    · intro other apart
      rw [acts.stored, begun.stored, MojDb.Op.stores_other _ apart]
  have kinds : ∀ other, other ≠ op.id → after.memory.kinds other = working.memory.kinds other := by
    intro other apart
    rw [acts.kinds other apart, begun.memory]
  have known := acts.known begun.rows begun.memory mirrors final
  have token : ∀ id val, working.disk.rows id .kindTokens id = some val →
      after.disk.rows id .kindTokens id = some val := by
    intro id val read
    apply acts.token
    rwa [begun.rows]
  have keeps : ∀ other, other ≠ op.id →
      after.disk.stored.find other = working.disk.stored.find other ∧
        ∀ index val, working.disk.Owns other index val → after.disk.Owns other index val :=
    fun other apart =>
      ⟨elsewhere.stored other apart, fun index val => (elsewhere.owns apart index val).mpr⟩
  rw [begun.rows] at origin
  have stored : after.disk.stored.find op.id = (op.stores working.disk.stored).find op.id := by
    rw [acts.stored, begun.stored]
  rcases engine_ok begun durable tidy mirrors ran with
    ⟨given, kind, isPut, held, turns⟩ | ⟨⟨full, isDel⟩, absent, bare⟩
  · have put : after.disk.stored.find op.id = some given := by
      rw [stored, isPut]
      exact (SortedMap.find_put _ _ _ _).trans (if_pos rfl)
    have asked : after.disk.asked op.id = some given := by
      rw [Disk.asked, put]
      rfl
    refine ⟨later, above, ⟨?_, ?_⟩, ?_, token, keeps⟩
    · apply durable.change elsewhere final
      exact Or.inl ⟨given, put, held.names, agrees given isPut, put_named durable mirrors turns⟩
    · intro memory same
      cases same
      refine ⟨mirrors.change kinds elsewhere.rows elsewhere.stored known ?_, acts.opened isOpen⟩
      exact Or.inl ⟨given, kind, asked, held⟩
    · intro other index val owns
      by_cases same : other = op.id
      · subst same
        rcases owns.asked with ⟨now, again, inside⟩
        rw [asked] at again
        cases again
        exact put_owns durable mirrors held.names turns inside owns.row (origin owns.row)
      · exact Or.inl ((elsewhere.owns same index val).mp owns)
  · have deleted : after.disk.stored.find op.id = none := by
      rw [stored, isDel]
      exact (SortedMap.find_del _ _ _).trans (if_pos rfl)
    refine ⟨later, above, ⟨?_, ?_⟩, ?_, token, keeps⟩
    · exact durable.change elsewhere final (Or.inr ⟨deleted, bare⟩)
    · intro memory same
      cases same
      refine ⟨mirrors.change kinds elsewhere.rows elsewhere.stored known ?_, acts.opened isOpen⟩
      exact Or.inr ⟨absent, deleted, bare⟩
    · intro other index val owns
      by_cases same : other = op.id
      · subst same
        have row := owns.row
        rw [bare] at row
        cases row
      · exact Or.inl ((elsewhere.owns same index val).mp owns)

/-- A request that changes no index leaves the kinds in memory right also when it is not committed. -/
theorem unchanging_mirrors {op : MojDb.Op} (begun : MojDb.Begun op working began)
    (durable : Durable top working.disk seq) (tidy : Tidy top began.disk.rows began.seq)
    (mirrors : Mirrors working.disk working.memory)
    (unchanging : op.Unchanging working.disk working.memory) (ran : op.engine began = .ok () after) :
    Mirrors working.disk after.memory := by
  have acts := (MojDb.acts_engine op).of_ok ran
  rcases acts.tidy tidy with ⟨later, -, final, -⟩
  have known := acts.known begun.rows begun.memory mirrors final
  have kinds : ∀ other, other ≠ op.id → after.memory.kinds other = working.memory.kinds other := by
    intro other apart
    rw [acts.kinds other apart, begun.memory]
  apply mirrors.change kinds (fun _ _ => rfl) (fun _ _ => rfl) known
  rcases engine_ok begun durable tidy mirrors ran with
    ⟨given, kind, isPut, held, turns⟩ | ⟨⟨full, isDel⟩, -, -⟩
  · apply Or.inl
    rw [isPut] at unchanging
    rcases unchanging with ⟨old, live, stays, listed⟩
    rcases mirrors.held op.id old live with ⟨had, asked, was⟩
    have same : ∀ index, index ∈ wanted given ↔ index ∈ wanted had := by
      intro index
      constructor
      · intro inside
        rcases List.mem_map.mp (stays index inside) with ⟨entry, member, rfl⟩
        exact (was.fits.listed entry member).1
      · intro inside
        rcases was.fits.complete index inside with ⟨val, member⟩
        exact listed index (List.mem_map.mpr ⟨(index, val), member, rfl⟩)
    refine ⟨had, kind, asked, was.back held same ?_ ?_⟩
    · intro val row
      apply acts.token
      rwa [begun.rows]
    · intro index inside val row
      apply turns.kept row
      rintro ⟨entry, member, out, -⟩
      rw [indexesOf_some live] at member
      exact out ((same entry.1).mpr (was.fits.listed entry member).1)
  · have found := begun.found full isDel
    rw [isDel] at unchanging
    rw [unchanging] at found
    cases found

theorem reloadKind_ok {working : Working} {seq : World} (smooth : Smooth working)
    (durable : Durable top working.disk seq) (tidy : Tidy top working.disk.rows working.seq) :
    ∃ after, MojDb.reloadKind id working = .ok () after ∧ Acts (· = id) working after ∧
      ((∃ given kind, working.disk.stored.find id = some given ∧
          Held after.disk.rows after.memory id given kind ∧
          Turns top id given [] working.disk.rows after.disk.rows) ∨
        working.disk.stored.find id = none ∧ after.memory.kinds id = none ∧
          ∀ name, working.disk.rows id .indexIds name = none →
            after.disk.rows id .indexIds name = none) := by
  rcases sure_ask working smooth with ⟨⟨⟩, asked, asks, kept⟩
  have began : MojDb.reloadKind id working =
      (working.disk.stored.find id).elim (MojDbKindEngine.delKind id asked) fun given =>
        MojDbKindEngine.reloadKind id given asked := by
    rw [MojDb.reloadKind, bind_of_ok asks]
    rw [bind_of_ok (rfl : (get : Acting Working) asked = .ok asked asked), ask_ok asks]
    cases working.disk.stored.find id <;> rfl
  have first : Acts (· = id) working asked := acts_ask.of_ok asks
  rw [ask_ok asks] at began first kept
  rw [began]
  cases found : working.disk.stored.find id with
  | some given =>
    rcases @sure_forget id _ kept with ⟨⟨⟩, forgotten, forgets, still⟩
    rcases @sure_createKind id given (durable.names id given found) forgotten still with
      ⟨⟨⟩, after, creates, -⟩
    have forgot := (@acts_forget (· = id) id rfl).of_ok forgets
    have created := (@acts_createKind (· = id) id rfl given).of_ok creates
    refine ⟨after, ?_, first.trans (forgot.trans created), Or.inl ?_⟩
    · rw [Option.elim_some, MojDbKindEngine.reloadKind, bind_of_ok forgets]
      exact creates
    · have same : forgotten.disk = working.disk ∧ forgotten.seq = working.seq := by
        cases forgets
        exact ⟨rfl, rfl⟩
      have onward : Tidy top forgotten.disk.rows forgotten.seq := by
        rw [same.1, same.2]
        exact tidy
      rcases createKind_ok onward creates with ⟨kind, held, turns⟩
      rw [same.1] at turns
      exact ⟨given, kind, rfl, held, turns⟩
  | none =>
    rcases @sure_delKind id _ kept with ⟨⟨⟩, after, deletes, -⟩
    refine ⟨after, deletes, first.trans ((@acts_delKind (· = id) id rfl).of_ok deletes), Or.inr ?_⟩
    rcases delKind_ok deletes with ⟨absent, names⟩
    refine ⟨rfl, absent, ?_⟩
    intro name bare
    by_cases listed : name ∈ (indexesOf working.memory id).map fun entry => entry.1.name
    · exact (names name).1 listed
    · exact ((names name).2 listed).trans bare

theorem reload_good {sys : MojDb.System} {began after : Working} {reload : MojDb.Reload}
    (good : Durable top sys.disk sys.seq) (mirrors : Mirrors sys.disk memory)
    (rows : began.disk.rows = sys.disk.rows) (same : began.memory = memory)
    (tidy : Tidy top began.disk.rows began.seq) (isOpen : began.seq.seq.isSome)
    (acts : Acts (· = id) began after) (faults : ∀ failure ∈ reload.faults, failure = none)
    (builtin : (memory.kinds id).isSome → (sys.disk.stored.find id).isSome)
    (changed : MojString → Prop) :
    ∃ later, top ≤ later ∧ Good later (sys.reload id after.memory after.seq reload) ∧
      Moves top changed sys.disk (sys.reload id after.memory after.seq reload).disk := by
  rcases acts.tidy tidy with ⟨reached, above, between, -⟩
  have known := acts.known rows same mirrors between
  have opened := acts.opened isOpen
  have began' : Tidy reached sys.disk.rows after.seq := good.tidy.mono between.ahead above
  have durable : Durable reached sys.disk after.seq :=
    ⟨began', good.names, good.agrees, good.covered⟩
  have smooth : Smooth ⟨sys.disk, after.memory, after.seq, reload.faults, sys.disk, false⟩ :=
    ⟨faults, opened, reached, between.ahead⟩
  rcases @reloadKind_ok reached id _ after.seq smooth durable began' with ⟨last, ran, more, result⟩
  rcases more.tidy began' with ⟨later, further, final, fresh⟩
  have kinds : ∀ other, other ≠ id → last.memory.kinds other = memory.kinds other := by
    intro other apart
    rw [more.kinds other apart, ← same]
    exact acts.kinds other apart
  have answers : ∀ other, other ≠ id → ∀ kind, memory.kinds other = some kind →
      last.memory.tokens kind.token = some other := by
    intro other apart kind live
    rcases mirrors.held other kind live with ⟨given, -, held⟩
    have still : Held sys.disk.rows after.memory other given kind := by
      refine ⟨?_, known other apart kind live, held.fits, held.names⟩
      rw [acts.kinds other apart, same]
      exact live
    exact (@Held.frame _ ⟨sys.disk, after.memory, after.seq, reload.faults, sys.disk, false⟩ last other
      given kind later last.seq still more final apart).known
  have elsewhere : Elsewhere id sys.disk last.disk :=
    ⟨more.rows, fun other _ => by rw [more.stored]⟩
  have asked : last.disk.asked id = sys.disk.asked id := by
    rw [Disk.asked, Disk.asked, more.stored]
  have shown : Mirrors last.disk last.memory ∧ Mirrors sys.disk last.memory ∧
      (∀ name val, last.disk.rows id .indexIds name = some val →
        sys.disk.rows id .indexIds name = some val ∨
          ∃ given, sys.disk.asked id = some given ∧ name ∈ (wanted given).map IndexObject.name) ∧
      ∀ name val, sys.disk.rows id .indexIds name = some val →
        last.disk.rows id .indexIds name = some val := by
    rcases result with ⟨given, kind, found, held, turns⟩ | ⟨found, absent, bare⟩
    · have own : sys.disk.asked id = some given := by
        rw [Disk.asked, found]
        rfl
      rcases Option.isSome_iff_exists.mp (mirrors.loaded id given found) with ⟨old, live⟩
      rcases mirrors.held id old live with ⟨had, before, was⟩
      rw [own] at before
      cases before
      have kept : ∀ name val, sys.disk.rows id .indexIds name = some val →
          last.disk.rows id .indexIds name = some val := by
        intro name val row
        apply turns.kept row
        rintro ⟨entry, impossible, -⟩
        cases impossible
      refine ⟨?_, ?_, ?_, kept⟩
      · apply mirrors.change kinds elsewhere.rows elsewhere.stored answers
        exact Or.inl ⟨given, kind, asked.trans own, held⟩
      · apply mirrors.change kinds (fun _ _ => rfl) (fun _ _ => rfl) answers
        refine Or.inl ⟨given, kind, own, was.back held (fun _ => Iff.rfl) (fun _ => more.token) ?_⟩
        exact fun index _ => kept index.name
      · intro name val row
        rcases turns.left row with inside | ⟨there, -⟩
        · exact Or.inr ⟨given, own, inside⟩
        · exact Or.inl there
    · have unknown : memory.kinds id = none := by
        cases live : memory.kinds id with
        | none => rfl
        | some kind =>
          rw [live, found] at builtin
          cases builtin rfl
      have empty := mirrors.bare id unknown
      have none := fun name => bare name (empty name)
      refine ⟨?_, ?_, ?_, ?_⟩
      · apply mirrors.change kinds elsewhere.rows elsewhere.stored answers
        refine Or.inr ⟨absent, ?_, none⟩
        rw [more.stored]
        exact found
      · apply mirrors.change kinds (fun _ _ => rfl) (fun _ _ => rfl) answers
        exact Or.inr ⟨absent, found, empty⟩
      · intro name val row
        rw [none name] at row
        cases row
      · intro name val row
        rw [empty name] at row
        cases row
  rcases shown with ⟨mirrorsLast, mirrorsOld, left, kept⟩
  have carried : Durable later last.disk last.seq ∧ Moves reached changed sys.disk last.disk := by
    apply durable.carry more.stored final fresh (fun read => more.token read)
    · intro other name val row
      by_cases same : other = id
      · subst same
        exact left name val row
      · rw [elsewhere.rows other same] at row
        exact Or.inl row
    · intro other index val owns
      by_cases same : other = id
      · subst same
        exact kept index.name val owns.row
      · rw [elsewhere.rows other same]
        exact owns.row
  have lastOpen := more.opened opened
  unfold MojDb.System.reload
  rw [ran]
  dsimp only
  refine ⟨later, above.trans further, ?_, ?_⟩
  · cases reload.commits with
    | true =>
      refine ⟨carried.1, ?_⟩
      intro shown equal
      cases equal
      exact ⟨mirrorsLast, lastOpen⟩
    | false =>
      refine ⟨⟨durable.tidy.mono final.ahead further, good.names, good.agrees, good.covered⟩, ?_⟩
      intro shown equal
      cases equal
      exact ⟨mirrorsOld, lastOpen⟩
  · cases reload.commits with
    | true => exact carried.2.mono above
    | false => exact Moves.refl top changed sys.disk

end Requests

end Db8.Db.KindIds
