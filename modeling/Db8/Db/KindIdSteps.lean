import Db8.Db.KindIds
import Db8.Programs

/-!
# What the work on a kind does to tokens and ids

The engine changes the record of one kind and that kind in memory, whether it succeeds or not. An id that
is on record afterwards was there before, under the same name, or is not below what the sequence had
reached. When the engine succeeds, the kind in memory has what its record has.
-/

set_option autoImplicit false

namespace Db8.Db.KindIds

open Db8.Bytes
open Db8.Core
open Db8.DbEngine
open Db8.DbEngine.MojDbStorageSeq (World MojDbSandwichSeq Ahead get_spec store)
open Db8.Programs

theorem Rows.put_self (rows : Rows) (kind : MojString) (key : IdsKey) (name : MojString)
    (id : Option Nat) : rows.put kind key name id kind key name = id :=
  if_pos ⟨rfl, rfl, rfl⟩

variable {rows : Rows}

theorem Rows.put_other {kind other : MojString} {key otherKey : IdsKey} {name otherName : MojString}
    {id : Option Nat} (apart : ¬(other = kind ∧ otherKey = key ∧ otherName = name)) :
    rows.put kind key name id other otherKey otherName = rows other otherKey otherName :=
  if_neg apart

theorem Rows.put_kind (rows : Rows) {kind other : MojString} (key : IdsKey) (name : MojString)
    (id : Option Nat) (apart : other ≠ kind) : rows.put kind key name id other = rows other := by
  funext otherKey otherName
  exact Rows.put_other fun same => apart same.1

theorem Rows.put_same {kind : MojString} {key : IdsKey} {name : MojString} {id : Option Nat}
    (there : rows kind key name = id) : rows.put kind key name id = rows := by
  funext other otherKey otherName
  unfold Rows.put
  split_ifs with same
  · rcases same with ⟨rfl, rfl, rfl⟩
    exact there.symm
  · rfl

theorem Memory.put_self (memory : Memory) (id : MojString) (kind : Option Kind) :
    (memory.put id kind).kinds id = kind := if_pos rfl

theorem Memory.put_other (memory : Memory) {id other : MojString} (kind : Option Kind)
    (apart : other ≠ id) : (memory.put id kind).kinds other = memory.kinds other := if_neg apart

/-- Ids on record are all different, below `top`, and will not be handed out again. -/
structure Tidy (top : Nat) (rows : Rows) (seq : World) : Prop where
  ahead : Ahead top seq
  below : ∀ {kind key name id}, rows kind key name = some id → id < top
  distinct : ∀ {kind other key otherKey name otherName id}, rows kind key name = some id →
    rows other otherKey otherName = some id → kind = other ∧ key = otherKey ∧ name = otherName

theorem Tidy.del {top : Nat} {seq : World} (tidy : Tidy top rows seq) (kind : MojString)
    (key : IdsKey) (name : MojString) : Tidy top (rows.put kind key name none) seq := by
  have there : ∀ {other otherKey otherName id},
      rows.put kind key name none other otherKey otherName = some id →
      rows other otherKey otherName = some id := by
    intro other otherKey otherName id read
    unfold Rows.put at read
    split_ifs at read
    exact read
  exact ⟨tidy.ahead, fun read => tidy.below (there read),
    fun read again => tidy.distinct (there read) (there again)⟩

theorem Tidy.put {top val : Nat} {before seq : World} (tidy : Tidy top rows before)
    (above : top ≤ val) (ahead : Ahead (val + 1) seq) (kind : MojString) (key : IdsKey)
    (name : MojString) : Tidy (val + 1) (rows.put kind key name (some val)) seq := by
  have cases : ∀ {other otherKey otherName id},
      rows.put kind key name (some val) other otherKey otherName = some id →
      (other = kind ∧ otherKey = key ∧ otherName = name) ∧ id = val ∨
        rows other otherKey otherName = some id ∧ id < val := by
    intro other otherKey otherName id read
    unfold Rows.put at read
    split_ifs at read with same
    · exact Or.inl ⟨same, (Option.some.inj read).symm⟩
    · exact Or.inr ⟨read, lt_of_lt_of_le (tidy.below read) above⟩
  refine ⟨ahead, ?_, ?_⟩
  · intro other otherKey otherName id read
    rcases cases read with ⟨-, same⟩ | ⟨-, below⟩ <;> omega
  · intro other third otherKey thirdKey otherName thirdName id read again
    rcases cases read with ⟨⟨rfl, rfl, rfl⟩, same⟩ | ⟨read, below⟩
    · rcases cases again with ⟨⟨rfl, rfl, rfl⟩, -⟩ | ⟨-, below⟩
      · exact ⟨rfl, rfl, rfl⟩
      · omega
    · rcases cases again with ⟨-, same⟩ | ⟨again, -⟩
      · omega
      · exact tidy.distinct read again

theorem Tidy.mono {top later : Nat} {before seq : World} (tidy : Tidy top rows before)
    (ahead : Ahead later seq) (above : top ≤ later) : Tidy later rows seq where
  ahead := ahead
  below read := lt_of_lt_of_le (tidy.below read) above
  distinct := tidy.distinct

def Working.request (working : Working) : Disk × Bool := (working.committed, working.batch)

structure Acts (among : MojString → Prop) (working after : Working) : Prop where
  stored : after.disk.stored = working.disk.stored
  rows : ∀ kind, ¬among kind → after.disk.rows kind = working.disk.rows kind
  kinds : ∀ kind, ¬among kind → after.memory.kinds kind = working.memory.kinds kind
  token : ∀ {kind name id}, working.disk.rows kind .kindTokens name = some id →
    after.disk.rows kind .kindTokens name = some id
  tokens : ∀ token, after.memory.tokens token = working.memory.tokens token ∨
    ∃ kind, among kind ∧ after.memory.tokens token = some kind ∧
      after.disk.rows kind .kindTokens kind = some token
  opened : working.seq.seq.isSome → after.seq.seq.isSome
  request : after.request = working.request
  tidy : ∀ {top}, Tidy top working.disk.rows working.seq →
    ∃ later, top ≤ later ∧ Tidy later after.disk.rows after.seq ∧
      ∀ {kind key name id}, after.disk.rows kind key name = some id →
        working.disk.rows kind key name = some id ∨ top ≤ id

namespace Acts

variable {among : MojString → Prop}

theorem refl (working : Working) : Acts among working working where
  stored := rfl
  rows _ _ := rfl
  kinds _ _ := rfl
  token read := read
  tokens _ := Or.inl rfl
  opened := id
  request := rfl
  tidy {top} tidy := ⟨top, le_refl top, tidy, Or.inl⟩

theorem trans {first second third : Working} (one : Acts among first second)
    (two : Acts among second third) : Acts among first third where
  stored := two.stored.trans one.stored
  rows kind apart := (two.rows kind apart).trans (one.rows kind apart)
  kinds kind apart := (two.kinds kind apart).trans (one.kinds kind apart)
  token read := two.token (one.token read)
  tokens := by
    intro token
    rcases two.tokens token with same | later
    · rcases one.tokens token with before | ⟨kind, inside, answer, read⟩
      · exact Or.inl (same.trans before)
      · exact Or.inr ⟨kind, inside, same.trans answer, two.token read⟩
    · exact Or.inr later
  opened isOpen := two.opened (one.opened isOpen)
  request := two.request.trans one.request
  tidy := by
    intro top tidy
    rcases one.tidy tidy with ⟨middle, above, between, origin⟩
    rcases two.tidy between with ⟨later, more, after, last⟩
    refine ⟨later, above.trans more, after, ?_⟩
    intro kind key name id read
    rcases last read with there | new
    · exact origin there
    · exact Or.inr (above.trans new)

theorem of_faults (working : Working) (faults : List (Option MojErr)) :
    Acts among working { working with faults := faults } where
  stored := rfl
  rows _ _ := rfl
  kinds _ _ := rfl
  token read := read
  tokens _ := Or.inl rfl
  opened isOpen := isOpen
  request := rfl
  tidy {top} tidy := ⟨top, le_refl top, tidy, Or.inl⟩

theorem of_kinds {working : Working} {id : MojString} (kind : Option Kind) (inside : among id) :
    Acts among working { working with memory := working.memory.put id kind } where
  stored := rfl
  rows _ _ := rfl
  kinds other apart := by
    apply Memory.put_other
    intro same
    exact apart (same ▸ inside)
  token read := read
  tokens _ := Or.inl rfl
  opened isOpen := isOpen
  request := rfl
  tidy {top} tidy := ⟨top, le_refl top, tidy, Or.inl⟩

theorem bind {α β : Type} {first : Acting α} {next : α → Acting β} (inside : Within (Acts among) first)
    (onward : ∀ result, Within (Acts among) (next result)) : Within (Acts among) (first >>= next) :=
  Within.bind (fun one two => one.trans two) inside onward

end Acts

section Engine

variable {among : MojString → Prop} {id : MojString}

theorem acts_pure {α : Type} (result : α) : Within (Acts among) (pure result : Acting α) :=
  within_pure Acts.refl result

theorem acts_get : Within (Acts among) (get : Acting Working) := within_get Acts.refl

theorem acts_throw {α : Type} (err : MojErr) : Within (Acts among) (throw err : Acting α) :=
  within_throw Acts.refl err

theorem ask_last (working : Working) :
    last (ask working) = { working with faults := working.faults.tail } := by
  unfold ask
  cases working.faults.head?.getD none <;> rfl

theorem acts_ask : Within (Acts among) ask := by
  intro working
  rw [ask_last]
  exact Acts.of_faults working _

theorem acts_attempt {action : Acting Unit} (acts : Within (Acts among) action) :
    Within (Acts among) (attempt action) := by
  intro working
  have held := acts working
  unfold attempt
  cases ran : action working with
  | ok result after => rwa [ran] at held
  | error err after => rwa [ran] at held

theorem store_open {seq : MojDbSandwichSeq} {stored : Option Nat} {next : Nat}
    {failure : Option MojErr} {world : World} (stores : store seq stored next failure = .ok world) :
    world.seq.isSome := by
  unfold store at stores
  rcases except_bind_ok stores with ⟨⟨⟩, -, stores⟩
  split_ifs at stores
  · cases stores
  · cases failure with
    | some err => cases stores
    | none =>
      cases stores
      rfl

theorem get_open (seq : MojDbSandwichSeq) (stored : Option Nat) (failure : Option MojErr) :
    (MojDbStorageSeq.get seq stored failure).1.seq.isSome := by
  unfold MojDbStorageSeq.get
  dsimp only
  split
  · split
    · rfl
    · rename_i stores
      exact store_open stores
  · rfl

theorem nextId_last (working : Working) :
    (last (MojDbKindState.nextId working)).disk = working.disk ∧
      (last (MojDbKindState.nextId working)).memory = working.memory ∧
      (last (MojDbKindState.nextId working)).request = working.request ∧
      (working.seq.seq.isSome → (last (MojDbKindState.nextId working)).seq.seq.isSome) := by
  unfold MojDbKindState.nextId
  cases working.seq.seq with
  | none => exact ⟨rfl, rfl, rfl, fun impossible => by cases impossible⟩
  | some seq =>
    have opened := get_open seq working.seq.stored (working.faults.head?.getD none)
    dsimp only
    cases (MojDbStorageSeq.get seq working.seq.stored (working.faults.head?.getD none)).2 with
    | error err => exact ⟨rfl, rfl, rfl, fun _ => opened⟩
    | ok val => exact ⟨rfl, rfl, rfl, fun _ => opened⟩

theorem nextId_ahead {top : Nat} {working : Working} (ahead : Ahead top working.seq) :
    (∃ err after, MojDbKindState.nextId working = .error err after ∧ Ahead top after.seq ∧
        (working.seq.seq.isSome → ∃ failure ∈ working.faults, failure ≠ none)) ∨
      ∃ val after, MojDbKindState.nextId working = .ok val after ∧ top ≤ val ∧
        Ahead (val + 1) after.seq := by
  unfold MojDbKindState.nextId
  rcases working with ⟨disk, memory, ⟨memorySeq, stored⟩, faults⟩
  cases memorySeq with
  | none => exact Or.inl ⟨.notOpen, _, rfl, ahead, fun impossible => by cases impossible⟩
  | some seq =>
    dsimp only
    rcases get_spec ahead (faults.head?.getD none) with ⟨val, got, above, later⟩ |
      ⟨err, failure, got, later⟩
    · rw [got]
      exact Or.inr ⟨val, _, rfl, above, later⟩
    · rw [got]
      refine Or.inl ⟨err, _, rfl, later, fun _ => ?_⟩
      cases faults with
      | nil => cases failure
      | cons first rest =>
        refine ⟨first, List.mem_cons_self, ?_⟩
        intro same
        rw [same] at failure
        cases failure

theorem setRow_last (kind : MojString) (key : IdsKey) (name : MojString) (val : Option Nat)
    (working : Working) : setRow kind key name val working = .ok () { working with
      disk := { working.disk with rows := working.disk.rows.put kind key name val } } := rfl

variable {working after : Working}

theorem ask_ok {done : Unit} (ran : ask working = .ok done after) :
    after = { working with faults := working.faults.tail } := by
  have held := ask_last working
  rwa [ran] at held

theorem createId_ok {kind name : MojString} {key : IdsKey} {val : Nat}
    (ran : MojDbKindState.createId kind key name working = .ok val after) :
    after.disk.rows = working.disk.rows.put kind key name (some val) ∧
      after.disk.stored = working.disk.stored ∧ after.memory = working.memory ∧
      after.request = working.request ∧ (working.seq.seq.isSome → after.seq.seq.isSome) ∧
      ∀ {top}, Ahead top working.seq → top ≤ val ∧ Ahead (val + 1) after.seq := by
  unfold MojDbKindState.createId at ran
  rcases bind_ok ran with ⟨new, taken, took, ran⟩
  rcases bind_ok ran with ⟨⟨⟩, asked, asks, ran⟩
  rcases bind_ok ran with ⟨⟨⟩, put, wrote, ran⟩
  rw [setRow_last] at wrote
  cases wrote
  cases ran
  rw [ask_ok asks]
  rcases nextId_last working with ⟨disk, memory, request, opened⟩
  rw [took] at disk memory request opened
  change taken.disk = working.disk at disk
  refine ⟨by rw [disk], by rw [disk], memory, request, opened, ?_⟩
  intro top ahead
  rcases nextId_ahead ahead with ⟨err, other, failed, -⟩ | ⟨other, last, same, above, further⟩
  · rw [failed] at took
    cases took
  · rw [same] at took
    cases took
    exact ⟨above, further⟩

theorem id_ok {kind name : MojString} {key : IdsKey} {val : Nat}
    (ran : MojDbKindState.id kind key name working = .ok val after) :
    after.disk.rows = working.disk.rows.put kind key name (some val) ∧ after.memory = working.memory ∧
      (working.disk.rows kind key name = some val ∨ working.disk.rows kind key name = none ∧
        ∀ {top}, Ahead top working.seq → top ≤ val) := by
  unfold MojDbKindState.id at ran
  rcases bind_ok ran with ⟨⟨⟩, asked, asks, ran⟩
  rcases bind_ok ran with ⟨read, state, got, ran⟩
  cases got
  rw [ask_ok asks] at ran
  dsimp only at ran
  cases row : working.disk.rows kind key name with
  | some there =>
    rw [row] at ran
    cases ran
    exact ⟨(Rows.put_same row).symm, rfl, Or.inl rfl⟩
  | none =>
    rw [row] at ran
    rcases createId_ok ran with ⟨rows, -, memory, -, -, ahead⟩
    exact ⟨rows, memory, Or.inr ⟨rfl, fun reached => (ahead reached).1⟩⟩

theorem Acts.of_seq (disk : after.disk = working.disk) (memory : after.memory = working.memory)
    (request : after.request = working.request)
    (opened : working.seq.seq.isSome → after.seq.seq.isSome)
    (ahead : ∀ {top}, Ahead top working.seq → ∃ later, top ≤ later ∧ Ahead later after.seq) :
    Acts among working after where
  stored := by rw [disk]
  rows _ _ := by rw [disk]
  kinds _ _ := by rw [memory]
  token read := by rwa [disk]
  tokens _ := by
    rw [memory]
    exact Or.inl rfl
  opened := opened
  request := request
  tidy := by
    intro top tidy
    rcases ahead tidy.ahead with ⟨later, above, further⟩
    rw [disk]
    exact ⟨later, above, tidy.mono further above, Or.inl⟩

theorem Acts.of_put {kind name : MojString} {key : IdsKey} {val : Nat} (inside : among kind)
    (stored : after.disk.stored = working.disk.stored)
    (rows : after.disk.rows = working.disk.rows.put kind key name (some val))
    (memory : after.memory = working.memory) (request : after.request = working.request)
    (absent : working.disk.rows kind key name = none)
    (opened : working.seq.seq.isSome → after.seq.seq.isSome)
    (ahead : ∀ {top}, Ahead top working.seq → top ≤ val ∧ Ahead (val + 1) after.seq) :
    Acts among working after where
  stored := stored
  rows other apart := by
    rw [rows]
    apply Rows.put_kind
    intro same
    exact apart (same ▸ inside)
  kinds _ _ := by rw [memory]
  token := by
    intro other otherName id read
    rw [rows, Rows.put_other _]
    · exact read
    · rintro ⟨rfl, rfl, rfl⟩
      rw [absent] at read
      cases read
  tokens _ := by
    rw [memory]
    exact Or.inl rfl
  opened := opened
  request := request
  tidy := by
    intro top tidy
    rcases ahead tidy.ahead with ⟨above, further⟩
    rw [rows]
    refine ⟨val + 1, by omega, tidy.put above further kind key name, ?_⟩
    intro other otherKey otherName id read
    unfold Rows.put at read
    split_ifs at read
    · cases read
      exact Or.inr above
    · exact Or.inl read

theorem acts_nextId : Within (Acts among) MojDbKindState.nextId := by
  intro working
  rcases nextId_last working with ⟨disk, memory, request, opened⟩
  apply Acts.of_seq disk memory request opened
  intro top ahead
  rcases nextId_ahead ahead with ⟨err, after, ran, further, -⟩ | ⟨val, after, ran, above, further⟩
  · rw [ran]
    exact ⟨top, le_refl top, further⟩
  · rw [ran]
    exact ⟨val + 1, by omega, further⟩

theorem acts_createId {working : Working} {key : IdsKey} {name : MojString} (inside : among id)
    (absent : working.disk.rows id key name = none) :
    Acts among working (last (MojDbKindState.createId id key name working)) := by
  cases ran : MojDbKindState.createId id key name working with
  | ok val after =>
    rcases createId_ok ran with ⟨rows, stored, memory, request, opened, ahead⟩
    exact Acts.of_put inside stored rows memory request absent opened ahead
  | error err after =>
    unfold MojDbKindState.createId at ran
    rw [bind_eq] at ran
    cases took : MojDbKindState.nextId working with
    | error err middle =>
      rw [took] at ran
      cases ran
      exact acts_nextId.of_error took
    | ok val taken =>
      rw [took] at ran
      dsimp only at ran
      rw [bind_eq] at ran
      cases asks : ask taken with
      | error err middle =>
        rw [asks] at ran
        cases ran
        exact (acts_nextId.of_ok took).trans (acts_ask.of_error asks)
      | ok done asked =>
        rw [asks] at ran
        cases ran

theorem acts_id (inside : among id) (key : IdsKey) (name : MojString) :
    Within (Acts among) (MojDbKindState.id id key name) := by
  unfold MojDbKindState.id
  apply Acts.bind acts_ask
  rintro ⟨⟩ working
  rw [bind_of_ok (rfl : (get : Acting Working) working = .ok working working)]
  cases row : working.disk.rows id key name with
  | some there => exact Acts.refl working
  | none => exact acts_createId inside row

theorem acts_delIndex (inside : among id) (name : MojString) :
    Within (Acts among) (MojDbKindState.delIndex id name) := by
  unfold MojDbKindState.delIndex
  apply Acts.bind acts_ask
  rintro ⟨⟩ working
  rw [setRow_last]
  refine ⟨rfl, ?_, fun _ _ => rfl, ?_, fun _ => Or.inl rfl, fun isOpen => isOpen, rfl, ?_⟩
  · intro other apart
    apply Rows.put_kind
    intro same
    exact apart (same ▸ inside)
  · intro other otherName val read
    apply (Rows.put_other _).trans read
    rintro ⟨-, impossible, -⟩
    cases impossible
  · intro top tidy
    refine ⟨top, le_refl top, tidy.del id .indexIds name, ?_⟩
    intro other otherKey otherName val read
    apply Or.inl
    unfold last Rows.put at read
    dsimp only at read
    split_ifs at read
    exact read

theorem acts_openIndex (inside : among id) (index : IndexObject) :
    Within (Acts among) (MojDbKind.openIndex id index) := by
  unfold MojDbKind.openIndex
  apply Acts.bind acts_ask
  rintro ⟨⟩
  apply Acts.bind (acts_id inside .indexIds index.name)
  intro val
  apply Acts.bind acts_ask
  rintro ⟨⟩
  exact acts_pure val

theorem acts_dropIndex (inside : among id) (index : IndexObject) :
    Within (Acts among) (MojDbKind.dropIndex id index) := by
  unfold MojDbKind.dropIndex
  apply Acts.bind (acts_delIndex inside index.name)
  rintro ⟨⟩
  exact acts_ask

theorem acts_dropIndexes (inside : among id) (wanted : List IndexObject)
    (indexes : List (IndexObject × Nat)) :
    Within (Acts among) (MojDbKind.dropIndexes id wanted indexes) := by
  induction indexes with
  | nil => exact acts_pure []
  | cons index indexes ih =>
    rw [MojDbKind.dropIndexes]
    split_ifs
    · exact Acts.bind ih fun kept => acts_pure (index :: kept)
    · exact Acts.bind (acts_dropIndex inside index.1) fun _ => ih

theorem acts_addIndexes (inside : among id) (indexes : List IndexObject) :
    Within (Acts among) (MojDbKind.addIndexes id indexes) := by
  induction indexes with
  | nil => exact acts_pure []
  | cons index indexes ih =>
    rw [MojDbKind.addIndexes]
    apply Acts.bind (acts_openIndex inside index)
    intro val
    exact Acts.bind ih fun added => acts_pure ((index, val) :: added)

theorem acts_configureIndexes (inside : among id) (indexes : List (IndexObject × Nat))
    (given : List IndexObject) : Within (Acts among) (MojDbKind.configureIndexes id indexes given) := by
  unfold MojDbKind.configureIndexes
  dsimp only
  split_ifs
  · apply Acts.bind (acts_dropIndexes inside _ indexes)
    intro kept
    apply Acts.bind (acts_addIndexes inside _)
    intro added
    exact acts_pure (kept ++ added)
  · exact acts_throw _

theorem acts_remember (inside : among id) (kind : Kind) :
    Within (Acts among) (MojDbKind.remember id kind) := by
  apply within_modify
  intro working
  split_ifs
  · exact Acts.of_kinds (some kind) inside
  · exact Acts.refl working

theorem acts_configure (inside : among id) (indexes : List (IndexObject × Nat))
    (given : List IndexObject) : Within (Acts among) (MojDbKind.configure id indexes given) := by
  unfold MojDbKind.configure
  apply Acts.bind acts_ask
  rintro ⟨⟩
  apply Acts.bind (acts_remember inside _)
  rintro ⟨⟩
  apply Acts.bind (acts_id inside .kindTokens id)
  intro token
  apply Acts.bind (acts_remember inside _)
  rintro ⟨⟩
  apply Acts.bind acts_ask
  rintro ⟨⟩
  apply Acts.bind (acts_configureIndexes inside indexes given)
  intro now
  apply Acts.bind (acts_remember inside _)
  rintro ⟨⟩
  apply Acts.bind acts_ask
  rintro ⟨⟩
  exact acts_pure _

theorem acts_dropAll (inside : among id) (indexes : List (IndexObject × Nat)) :
    Within (Acts among) (MojDbKind.dropAll id indexes) := by
  induction indexes with
  | nil => exact acts_pure none
  | cons index indexes ih =>
    rw [MojDbKind.dropAll]
    apply Acts.bind (acts_attempt (acts_dropIndex inside index.1))
    intro err
    exact Acts.bind ih fun later => acts_pure _

theorem acts_drop (inside : among id) (kind : Kind) : Within (Acts among) (MojDbKind.drop id kind) := by
  unfold MojDbKind.drop
  apply Acts.bind acts_ask
  rintro ⟨⟩
  apply Acts.bind (acts_dropAll inside kind.indexes)
  intro err
  apply Acts.bind (acts_remember inside _)
  rintro ⟨⟩
  cases err with
  | none => exact acts_pure ()
  | some err => exact acts_throw err

theorem acts_forget (inside : among id) : Within (Acts among) (MojDbKindEngine.forget id) := by
  apply within_modify
  intro working
  exact Acts.of_kinds none inside

theorem acts_delKind (inside : among id) : Within (Acts among) (MojDbKindEngine.delKind id) := by
  unfold MojDbKindEngine.delKind
  apply Acts.bind acts_get
  intro working
  cases working.memory.kinds id with
  | none => exact acts_pure ()
  | some kind => exact Acts.bind (acts_drop inside kind) fun _ => acts_forget inside

end Engine

end Db8.Db.KindIds
