import Db8.Db.KindIdSteps

/-!
# What a kind has when the engine has succeeded

A kind that is put has in memory what its record has: its token, and an id for every index it asks for.
An index that is not asked for any more has lost its id, and what takes its name gets a new one.
-/

set_option autoImplicit false

namespace Db8.Db.KindIds

open Db8.Bytes
open Db8.Core
open Db8.DbEngine
open Db8.DbEngine.MojDbStorageSeq (World)
open Db8.Programs

/-- The indexes a kind object asks for, with the index of every kind. -/
def wanted (given : List IndexObject) : List IndexObject := MojDbKind.idIndex :: given

def Dropped (given : List IndexObject) (old : List (IndexObject × Nat)) (name : MojString) : Prop :=
  ∃ entry ∈ old, entry.1 ∉ given ∧ entry.1.name = name

/-- From one record of a kind to the next: what is not dropped stays, only what is asked for is added,
and what replaces a dropped index has an id that is new. -/
structure Turns (top : Nat) (id : MojString) (given : List IndexObject)
    (old : List (IndexObject × Nat)) (rows after : Rows) : Prop where
  kept : ∀ {name val}, rows id .indexIds name = some val → ¬Dropped (wanted given) old name →
    after id .indexIds name = some val
  left : ∀ {name val}, after id .indexIds name = some val →
    name ∈ (wanted given).map IndexObject.name ∨
      rows id .indexIds name = some val ∧ ∀ entry ∈ old, entry.1.name ≠ name
  renewed : ∀ {name val}, Dropped (wanted given) old name → after id .indexIds name = some val →
    top ≤ val

/-- A kind in memory has the ids on record, for the indexes its object asks for. -/
structure Fits (rows : Rows) (id : MojString) (given : List IndexObject) (kind : Kind) : Prop where
  token : rows id .kindTokens id = some kind.token
  listed : ∀ entry ∈ kind.indexes, entry.1 ∈ wanted given ∧
    rows id .indexIds entry.1.name = some entry.2
  complete : ∀ index ∈ wanted given, ∃ val, (index, val) ∈ kind.indexes

section Specs

variable {id : MojString} {working after : Working}

theorem dropIndex_ok {index : IndexObject} {done : Unit}
    (ran : MojDbKind.dropIndex id index working = .ok done after) :
    after.disk.rows = working.disk.rows.put id .indexIds index.name none ∧
      after.memory = working.memory := by
  unfold MojDbKind.dropIndex at ran
  rcases bind_ok ran with ⟨⟨⟩, deleted, dels, ran⟩
  rw [ask_ok ran]
  unfold MojDbKindState.delIndex at dels
  rcases bind_ok dels with ⟨⟨⟩, asked, asks, wrote⟩
  rw [setRow_last] at wrote
  cases wrote
  rw [ask_ok asks]
  exact ⟨rfl, rfl⟩

theorem openIndex_ok {index : IndexObject} {val : Nat}
    (ran : MojDbKind.openIndex id index working = .ok val after) :
    after.disk.rows = working.disk.rows.put id .indexIds index.name (some val) ∧
      after.memory = working.memory ∧
      (working.disk.rows id .indexIds index.name = some val ∨
        working.disk.rows id .indexIds index.name = none) := by
  unfold MojDbKind.openIndex at ran
  rcases bind_ok ran with ⟨⟨⟩, asked, asks, ran⟩
  rcases bind_ok ran with ⟨got, opened, gets, ran⟩
  rcases bind_ok ran with ⟨⟨⟩, last, again, ran⟩
  cases ran
  rw [ask_ok again]
  rcases id_ok gets with ⟨rows, memory, row⟩
  rw [ask_ok asks] at rows memory row
  exact ⟨rows, memory, row.imp_right And.left⟩

variable {given : List IndexObject}

theorem dropIndexes_ok {old kept : List (IndexObject × Nat)}
    (ran : MojDbKind.dropIndexes id given old working = .ok kept after) :
    kept = old.filter (fun entry => decide (entry.1 ∈ given)) ∧ after.memory = working.memory ∧
      (∀ name, Dropped given old name → after.disk.rows id .indexIds name = none) ∧
      ∀ name, ¬Dropped given old name →
        after.disk.rows id .indexIds name = working.disk.rows id .indexIds name := by
  induction old generalizing working kept with
  | nil =>
    cases ran
    refine ⟨rfl, rfl, ?_, fun _ _ => rfl⟩
    rintro name ⟨entry, impossible, -⟩
    cases impossible
  | cons index old ih =>
    rw [MojDbKind.dropIndexes] at ran
    split_ifs at ran with stays
    · rcases bind_ok ran with ⟨rest, middle, drops, ran⟩
      cases ran
      rcases ih drops with ⟨same, memory, gone, there⟩
      have tail : ∀ {name}, Dropped given (index :: old) name → Dropped given old name := by
        rintro name ⟨entry, member, out, named⟩
        rcases List.mem_cons.mp member with rfl | member
        · exact absurd stays out
        · exact ⟨entry, member, out, named⟩
      refine ⟨?_, memory, fun name dropped => gone name (tail dropped), ?_⟩
      · rw [List.filter_cons_of_pos (by simpa using stays), same]
      · intro name remains
        apply there
        rintro ⟨entry, member, out⟩
        exact remains ⟨entry, List.mem_cons_of_mem index member, out⟩
    · rcases bind_ok ran with ⟨⟨⟩, middle, drop, ran⟩
      rcases dropIndex_ok drop with ⟨rows, same⟩
      rcases ih ran with ⟨rest, memory, gone, there⟩
      refine ⟨?_, memory.trans same, ?_, ?_⟩
      · rw [List.filter_cons_of_neg (by simpa using stays), rest]
      · rintro name ⟨entry, member, out, named⟩
        by_cases again : Dropped given old name
        · exact gone name again
        · rcases List.mem_cons.mp member with rfl | member
          · rw [there name again, rows, named, Rows.put_self]
          · exact absurd ⟨entry, member, out, named⟩ again
      · intro name remains
        have apart : index.1.name ≠ name := by
          intro named
          exact remains ⟨index, List.mem_cons_self, stays, named⟩
        rw [there name _, rows, Rows.put_other fun same => apart same.2.2.symm]
        rintro ⟨entry, member, out⟩
        exact remains ⟨entry, List.mem_cons_of_mem index member, out⟩

theorem addIndexes_ok {indexes : List IndexObject} {added : List (IndexObject × Nat)}
    (ran : MojDbKind.addIndexes id indexes working = .ok added after) :
    added.map Prod.fst = indexes ∧ after.memory = working.memory ∧
      (∀ entry ∈ added, after.disk.rows id .indexIds entry.1.name = some entry.2) ∧
      (∀ name val, working.disk.rows id .indexIds name = some val →
        after.disk.rows id .indexIds name = some val) ∧
      ∀ name val, after.disk.rows id .indexIds name = some val →
        working.disk.rows id .indexIds name = some val ∨ name ∈ indexes.map IndexObject.name := by
  induction indexes generalizing working added with
  | nil =>
    cases ran
    refine ⟨rfl, rfl, ?_, fun _ _ read => read, fun _ _ => Or.inl⟩
    intro entry impossible
    cases impossible
  | cons index indexes ih =>
    rw [MojDbKind.addIndexes] at ran
    rcases bind_ok ran with ⟨val, middle, opens, ran⟩
    rcases bind_ok ran with ⟨rest, last, adds, ran⟩
    cases ran
    rcases openIndex_ok opens with ⟨rows, same, row⟩
    rcases ih adds with ⟨names, memory, listed, kept, origin⟩
    have here : middle.disk.rows id .indexIds index.name = some val := by
      rw [rows, Rows.put_self]
    refine ⟨?_, memory.trans same, ?_, ?_, ?_⟩
    · rw [List.map_cons, names]
    · intro entry member
      rcases List.mem_cons.mp member with rfl | member
      · exact kept _ _ here
      · exact listed entry member
    · intro name other read
      apply kept
      by_cases named : name = index.name
      · rw [named] at read ⊢
        rcases row with there | absent
        · rw [here, ← there, read]
        · rw [absent] at read
          cases read
      · rw [rows, Rows.put_other fun same => named same.2.2]
        exact read
    · intro name other read
      rcases origin name other read with read | member
      · by_cases named : name = index.name
        · exact Or.inr (named ▸ List.mem_cons_self)
        · rw [rows, Rows.put_other fun same => named same.2.2] at read
          exact Or.inl read
      · exact Or.inr (List.mem_cons_of_mem index.name member)

def Apart (old : List (IndexObject × Nat)) : Prop :=
  ∀ one ∈ old, ∀ two ∈ old, one.1.name = two.1.name → one.1 = two.1

theorem configureIndexes_ok {top : Nat} {old now : List (IndexObject × Nat)}
    (tidy : Tidy top working.disk.rows working.seq)
    (held : ∀ entry ∈ old, working.disk.rows id .indexIds entry.1.name = some entry.2)
    (apart : Apart old) (ran : MojDbKind.configureIndexes id old given working = .ok now after) :
    ((wanted given).map IndexObject.name).Nodup ∧ after.memory = working.memory ∧
      (∀ entry ∈ now, entry.1 ∈ wanted given ∧
        after.disk.rows id .indexIds entry.1.name = some entry.2) ∧
      (∀ index ∈ wanted given, ∃ val, (index, val) ∈ now) ∧
      Turns top id given old working.disk.rows after.disk.rows := by
  unfold MojDbKind.configureIndexes at ran
  split_ifs at ran with nodup
  · rcases bind_ok ran with ⟨kept, middle, drops, ran⟩
    rcases bind_ok ran with ⟨added, last, adds, ran⟩
    cases ran
    rcases dropIndexes_ok drops with ⟨keeps, same, gone, there⟩
    rcases addIndexes_ok adds with ⟨names, memory, listed, stay, origin⟩
    have stays : ∀ {name val}, working.disk.rows id .indexIds name = some val →
        ¬Dropped (wanted given) old name → after.disk.rows id .indexIds name = some val := by
      intro name val read remains
      apply stay
      exact (there name remains).trans read
    refine ⟨nodup, memory.trans same, ?_, ?_, stays, ?_, ?_⟩
    · intro entry member
      rcases List.mem_append.mp member with member | member
      · rw [keeps, List.mem_filter, decide_eq_true_iff] at member
        refine ⟨member.2, stays (held entry member.1) ?_⟩
        rintro ⟨other, inside, out, named⟩
        exact out (apart other inside entry member.1 named ▸ member.2)
      · have inside : entry.1 ∈ added.map Prod.fst := List.mem_map_of_mem member
        rw [names] at inside
        exact ⟨(List.mem_filter.mp inside).1, listed entry member⟩
    · intro index member
      by_cases known : index ∈ old.map Prod.fst
      · rcases List.mem_map.mp known with ⟨entry, inside, rfl⟩
        refine ⟨entry.2, List.mem_append_left added ?_⟩
        rw [keeps, List.mem_filter, decide_eq_true_iff]
        exact ⟨inside, member⟩
      · have new : index ∈ added.map Prod.fst := by
          rw [names, List.mem_filter, decide_eq_true_iff]
          exact ⟨member, known⟩
        rcases List.mem_map.mp new with ⟨entry, inside, rfl⟩
        exact ⟨entry.2, List.mem_append_right kept inside⟩
    · intro name val read
      rcases origin name val read with read | member
      · by_cases dropped : Dropped (wanted given) old name
        · rw [gone name dropped] at read
          cases read
        · rw [there name dropped] at read
          by_cases known : ∃ entry ∈ old, entry.1.name = name
          · rcases known with ⟨entry, inside, rfl⟩
            apply Or.inl
            apply List.mem_map_of_mem
            by_contra out
            exact dropped ⟨entry, inside, out, rfl⟩
          · refine Or.inr ⟨read, ?_⟩
            intro entry inside named
            exact known ⟨entry, inside, named⟩
      · rcases List.mem_map.mp member with ⟨index, inside, rfl⟩
        exact Or.inl (List.mem_map_of_mem (List.mem_filter.mp inside).1)
    · intro name val dropped read
      have acts := (@acts_dropIndexes (· = id) id rfl (wanted given) old).of_ok drops
      rcases acts.tidy tidy with ⟨reached, above, between, -⟩
      have later := (@acts_addIndexes (· = id) id rfl _).of_ok adds
      rcases later.tidy between with ⟨-, -, -, fresh⟩
      rcases fresh read with read | new
      · rw [gone name dropped] at read
        cases read
      · exact above.trans new
  · cases ran

theorem remember_ok {kind : Kind} {done : Unit}
    (ran : MojDbKind.remember id kind working = .ok done after) :
    after.disk = working.disk ∧ after.seq = working.seq ∧
      after.memory.tokens = working.memory.tokens ∧
      ((working.memory.kinds id).isSome → after.memory.kinds id = some kind) := by
  cases ran
  dsimp only
  split_ifs with known
  · exact ⟨rfl, rfl, rfl, fun _ => Memory.put_self _ _ _⟩
  · exact ⟨rfl, rfl, rfl, fun same => absurd same known⟩

theorem configure_token {old : List (IndexObject × Nat)} {kind : Kind}
    (ran : MojDbKind.configure id old given working = .ok kind after) :
    after.disk.rows id .kindTokens id = some kind.token := by
  unfold MojDbKind.configure at ran
  rcases bind_ok ran with ⟨⟨⟩, checked, -, ran⟩
  rcases bind_ok ran with ⟨⟨⟩, cleared, -, ran⟩
  rcases bind_ok ran with ⟨token, read, reads, ran⟩
  rcases bind_ok ran with ⟨⟨⟩, noted, notes, ran⟩
  rcases bind_ok ran with ⟨⟨⟩, asked, asks, ran⟩
  rcases bind_ok ran with ⟨now, indexed, indexes, ran⟩
  rcases bind_ok ran with ⟨⟨⟩, kept, keeps, ran⟩
  rcases bind_ok ran with ⟨⟨⟩, last, supers, ran⟩
  cases ran
  have row : read.disk.rows id .kindTokens id = some token := by
    rw [(id_ok reads).1, Rows.put_self]
  have noted := ((@acts_remember (· = id) id rfl _).of_ok notes).token row
  have asked := (acts_ask.of_ok asks : Acts (· = id) _ _).token noted
  have indexed := ((@acts_configureIndexes (· = id) id rfl old given).of_ok indexes).token asked
  have kept := ((@acts_remember (· = id) id rfl _).of_ok keeps).token indexed
  exact (acts_ask.of_ok supers : Acts (· = id) _ _).token kept

theorem configure_ok {top : Nat} {old : List (IndexObject × Nat)} {kind : Kind}
    (tidy : Tidy top working.disk.rows working.seq)
    (held : ∀ entry ∈ old, working.disk.rows id .indexIds entry.1.name = some entry.2)
    (apart : Apart old) (ran : MojDbKind.configure id old given working = .ok kind after) :
    ((wanted given).map IndexObject.name).Nodup ∧ Fits after.disk.rows id given kind ∧
      Turns top id given old working.disk.rows after.disk.rows ∧
      after.memory.tokens = working.memory.tokens ∧
      ((working.memory.kinds id).isSome → after.memory.kinds id = some kind) := by
  have token := configure_token ran
  unfold MojDbKind.configure at ran
  rcases bind_ok ran with ⟨⟨⟩, checked, checks, ran⟩
  rcases bind_ok ran with ⟨⟨⟩, cleared, clears, ran⟩
  rcases bind_ok ran with ⟨val, read, reads, ran⟩
  rcases bind_ok ran with ⟨⟨⟩, noted, notes, ran⟩
  rcases bind_ok ran with ⟨⟨⟩, asked, asks, ran⟩
  rcases bind_ok ran with ⟨now, indexed, indexes, ran⟩
  rcases bind_ok ran with ⟨⟨⟩, kept, keeps, ran⟩
  rcases bind_ok ran with ⟨⟨⟩, last, supers, ran⟩
  cases ran
  rcases remember_ok clears with ⟨clearedDisk, clearedSeq, clearedTokens, clearedKind⟩
  rw [ask_ok checks] at clearedDisk clearedSeq clearedTokens clearedKind
  rcases id_ok reads with ⟨rows, readMemory, -⟩
  rw [clearedDisk] at rows
  rcases remember_ok notes with ⟨notedDisk, notedSeq, notedTokens, notedKind⟩
  have same : asked.disk.rows = working.disk.rows.put id .kindTokens id (some val) := by
    rw [ask_ok asks, notedDisk, rows]
  have row : ∀ name, asked.disk.rows id .indexIds name = working.disk.rows id .indexIds name := by
    intro name
    rw [same]
    apply Rows.put_other
    rintro ⟨-, impossible, -⟩
    cases impossible
  have began : Tidy top cleared.disk.rows cleared.seq := by
    rw [clearedDisk, clearedSeq]
    exact tidy
  rcases ((@acts_id (· = id) id rfl .kindTokens id).of_ok reads).tidy began with
    ⟨reached, above, between, -⟩
  have between : Tidy reached asked.disk.rows asked.seq := by
    rw [ask_ok asks]
    change Tidy reached noted.disk.rows noted.seq
    rw [notedDisk, notedSeq]
    exact between
  have stillHeld : ∀ entry ∈ old, asked.disk.rows id .indexIds entry.1.name = some entry.2 := by
    intro entry member
    rw [row]
    exact held entry member
  rcases configureIndexes_ok between stillHeld apart indexes with
    ⟨nodup, memory, listed, complete, turns⟩
  rcases remember_ok keeps with ⟨keptDisk, -, keptTokens, keptKind⟩
  have disk : after.disk = indexed.disk := by
    rw [ask_ok supers]
    exact keptDisk
  have memories : asked.memory = noted.memory := by rw [ask_ok asks]
  rw [disk] at token ⊢
  rw [ask_ok supers]
  refine ⟨nodup, ⟨token, listed, complete⟩, ⟨?_, ?_, ?_⟩, ?_, ?_⟩
  · intro name val there remains
    apply turns.kept _ remains
    rw [row]
    exact there
  · intro name val there
    rw [← row name]
    exact turns.left there
  · intro name val dropped there
    exact above.trans (turns.renewed dropped there)
  · change kept.memory.tokens = working.memory.tokens
    rw [keptTokens, memory, memories, notedTokens, readMemory, clearedTokens]
  · intro known
    apply keptKind
    rw [memory, memories, notedKind]
    · rfl
    · rw [readMemory, clearedKind known]
      rfl

end Specs

structure Held (rows : Rows) (memory : Memory) (id : MojString) (given : List IndexObject)
    (kind : Kind) : Prop where
  live : memory.kinds id = some kind
  known : memory.tokens kind.token = some id
  fits : Fits rows id given kind
  names : ((wanted given).map IndexObject.name).Nodup

def indexesOf (memory : Memory) (id : MojString) : List (IndexObject × Nat) :=
  ((memory.kinds id).map Kind.indexes).getD []

theorem indexesOf_some {memory : Memory} {id : MojString} {kind : Kind}
    (known : memory.kinds id = some kind) : indexesOf memory id = kind.indexes := by
  rw [indexesOf, known]
  rfl

theorem indexesOf_none {memory : Memory} {id : MojString} (absent : memory.kinds id = none) :
    indexesOf memory id = [] := by
  rw [indexesOf, absent]
  rfl

theorem eq_of_names {given : List IndexObject} (names : ((wanted given).map IndexObject.name).Nodup)
    {one two : IndexObject} (first : one ∈ wanted given) (second : two ∈ wanted given)
    (same : one.name = two.name) : one = two :=
  List.inj_on_of_nodup_map names first second same

theorem Fits.apart {rows : Rows} {id : MojString} {given : List IndexObject} {kind : Kind}
    (fits : Fits rows id given kind) (names : ((wanted given).map IndexObject.name).Nodup) :
    Apart kind.indexes := by
  intro one first two second same
  exact eq_of_names names (fits.listed one first).1 (fits.listed two second).1 same

theorem Held.frame {among : MojString → Prop} {working after : Working} {id : MojString}
    {given : List IndexObject} {kind : Kind} {top : Nat} {seq : World}
    (held : Held working.disk.rows working.memory id given kind) (acts : Acts among working after)
    (tidy : Tidy top after.disk.rows seq) (apart : ¬among id) :
    Held after.disk.rows after.memory id given kind := by
  have rows := acts.rows id apart
  refine ⟨(acts.kinds id apart).trans held.live, ?_, ?_, held.names⟩
  · rcases acts.tokens kind.token with same | ⟨other, inside, -, row⟩
    · exact same.trans held.known
    · have own := held.fits.token
      rw [← rows] at own
      exact absurd ((tidy.distinct own row).1 ▸ inside) apart
  · refine ⟨?_, ?_, held.fits.complete⟩
    · rw [rows]
      exact held.fits.token
    · rw [rows]
      exact held.fits.listed

section Kinds

variable {among : MojString → Prop} {id : MojString} {working after : Working}

theorem acts_createKind (inside : among id) (given : List IndexObject) :
    Within (Acts among) (MojDbKindEngine.createKind id given) := by
  intro working
  unfold MojDbKindEngine.createKind
  rw [bind_eq]
  cases ran : MojDbKind.configure id [] given working with
  | error err middle => exact (acts_configure inside [] given).of_error ran
  | ok kind middle =>
    apply ((acts_configure inside [] given).of_ok ran).trans
    have row := configure_token ran
    refine ⟨rfl, fun _ _ => rfl, ?_, fun read => read, ?_, fun isOpen => isOpen, rfl, ?_⟩
    · intro other apart
      apply Memory.put_other
      intro same
      exact apart (same ▸ inside)
    · intro token
      by_cases same : token = kind.token
      · rw [← same] at row
        exact Or.inr ⟨id, inside, if_pos same, row⟩
      · exact Or.inl (if_neg same)
    · intro top tidy
      exact ⟨top, le_refl top, tidy, Or.inl⟩

theorem acts_putKind (inside : among id) (given : List IndexObject) :
    Within (Acts among) (MojDbKindEngine.putKind id given) := by
  unfold MojDbKindEngine.putKind
  apply Acts.bind acts_get
  intro working
  cases working.memory.kinds id with
  | none => exact acts_createKind inside given
  | some kind => exact Acts.bind (acts_configure inside kind.indexes given) fun _ => acts_pure ()

theorem createKind_ok {top : Nat} {given : List IndexObject} {done : Unit}
    (tidy : Tidy top working.disk.rows working.seq)
    (ran : MojDbKindEngine.createKind id given working = .ok done after) :
    ∃ kind, Held after.disk.rows after.memory id given kind ∧
      Turns top id given [] working.disk.rows after.disk.rows := by
  unfold MojDbKindEngine.createKind at ran
  rcases bind_ok ran with ⟨kind, middle, configures, ran⟩
  cases ran
  have nothing : ∀ entry ∈ ([] : List (IndexObject × Nat)),
      working.disk.rows id .indexIds entry.1.name = some entry.2 := by
    intro entry impossible
    cases impossible
  have apart : Apart [] := by
    intro one impossible
    cases impossible
  rcases configure_ok tidy nothing apart configures with ⟨names, fits, turns, -, -⟩
  exact ⟨kind, ⟨Memory.put_self _ _ _, if_pos rfl, fits, names⟩, turns⟩

/-- A kind that is put has the ids on record, with those it had as far as they stay. -/
theorem putKind_ok {top : Nat} {given : List IndexObject} {done : Unit}
    (tidy : Tidy top working.disk.rows working.seq)
    (before : ∀ kind, working.memory.kinds id = some kind →
      ∃ given, Held working.disk.rows working.memory id given kind)
    (ran : MojDbKindEngine.putKind id given working = .ok done after) :
    ∃ kind, Held after.disk.rows after.memory id given kind ∧
      Turns top id given (indexesOf working.memory id) working.disk.rows after.disk.rows := by
  unfold MojDbKindEngine.putKind at ran
  rcases bind_ok ran with ⟨read, state, got, ran⟩
  cases got
  cases known : working.memory.kinds id with
  | none =>
    rw [known] at ran
    rw [indexesOf_none known]
    exact createKind_ok tidy ran
  | some old =>
    rw [known] at ran
    rcases bind_ok ran with ⟨kind, middle, configures, ran⟩
    cases ran
    rcases before old known with ⟨had, held⟩
    rcases configure_ok tidy (fun entry member => (held.fits.listed entry member).2)
      (held.fits.apart held.names) configures with ⟨names, fits, turns, tokens, kinds⟩
    have acts := (@acts_configure (· = id) id rfl old.indexes given).of_ok configures
    have same : kind.token = old.token :=
      Option.some.inj (fits.token.symm.trans (acts.token held.fits.token))
    rw [indexesOf_some known]
    refine ⟨kind, ⟨kinds (by rw [known]; rfl), ?_, fits, names⟩, turns⟩
    rw [tokens, same]
    exact held.known

theorem attempt_none {action : Acting Unit} (ran : attempt action working = .ok none after) :
    action working = .ok () after := by
  unfold attempt at ran
  cases acted : action working with
  | ok done middle =>
    rw [acted] at ran
    cases ran
    rfl
  | error err middle =>
    rw [acted] at ran
    cases ran

theorem dropAll_ok {indexes : List (IndexObject × Nat)}
    (ran : MojDbKind.dropAll id indexes working = .ok none after) (name : MojString) :
    (name ∈ indexes.map (fun entry => entry.1.name) → after.disk.rows id .indexIds name = none) ∧
      (name ∉ indexes.map (fun entry => entry.1.name) →
        after.disk.rows id .indexIds name = working.disk.rows id .indexIds name) := by
  induction indexes generalizing working with
  | nil =>
    cases ran
    exact ⟨fun impossible => (List.not_mem_nil impossible).elim, fun _ => rfl⟩
  | cons index indexes ih =>
    rw [MojDbKind.dropAll] at ran
    rcases bind_ok ran with ⟨err, middle, drops, ran⟩
    rcases bind_ok ran with ⟨later, last, rest, ran⟩
    cases later with
    | some later => cases ran
    | none =>
      cases ran
      rcases dropIndex_ok (attempt_none drops) with ⟨rows, -⟩
      rcases ih rest with ⟨gone, stays⟩
      rw [rows] at stays
      rw [List.map_cons, List.mem_cons]
      by_cases again : name ∈ indexes.map fun entry => entry.1.name
      · exact ⟨fun _ => gone again, fun out => absurd (Or.inr again) out⟩
      · refine ⟨?_, ?_⟩
        · rintro (rfl | member)
          · rw [stays again, Rows.put_self]
          · exact absurd member again
        · intro out
          rw [stays again, Rows.put_other fun same => out (Or.inl same.2.2)]

theorem delKind_ok {done : Unit} (ran : MojDbKindEngine.delKind id working = .ok done after) :
    after.memory.kinds id = none ∧ ∀ name,
      (name ∈ (indexesOf working.memory id).map (fun entry => entry.1.name) →
        after.disk.rows id .indexIds name = none) ∧
      (name ∉ (indexesOf working.memory id).map (fun entry => entry.1.name) →
        after.disk.rows id .indexIds name = working.disk.rows id .indexIds name) := by
  unfold MojDbKindEngine.delKind at ran
  rcases bind_ok ran with ⟨read, state, got, ran⟩
  cases got
  cases known : working.memory.kinds id with
  | none =>
    rw [known] at ran
    cases ran
    rw [indexesOf_none known]
    exact ⟨known, fun name => ⟨fun impossible => (List.not_mem_nil impossible).elim, fun _ => rfl⟩⟩
  | some kind =>
    rw [known] at ran
    rcases bind_ok ran with ⟨⟨⟩, dropped, drops, ran⟩
    cases ran
    refine ⟨Memory.put_self _ _ _, ?_⟩
    rw [indexesOf_some known]
    unfold MojDbKind.drop at drops
    rcases bind_ok drops with ⟨⟨⟩, asked, asks, drops⟩
    rcases bind_ok drops with ⟨err, cleared, clears, drops⟩
    rcases bind_ok drops with ⟨⟨⟩, kept, keeps, drops⟩
    cases err with
    | some err => cases drops
    | none =>
      cases drops
      intro name
      have all := dropAll_ok clears name
      rw [ask_ok asks] at all
      rw [← (remember_ok keeps).1] at all
      exact all

end Kinds

end Db8.Db.KindIds
