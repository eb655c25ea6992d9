import Db8.Db.KindIdRequests

/-!
# Tokens and ids over whole runs

A request that is a batch may be refused after the kinds in memory have been changed, and these are not
loaded anew then. A deletion that commits a full batch may end there with the record of a kind that has no
object any more. Where no request does the one with other indexes than there are, every request that does
the other goes through, and no kind is refused when it is loaded, tokens and ids are what the records say.
-/

set_option autoImplicit false

namespace Db8.Db.KindIds

open Db8.Bytes
open Db8.Core
open Db8.DbEngine
open Db8.DbEngine.MojDbStorageSeq (World Ahead ahead_closed ahead_open close_spec openSeq)
open Db8.Programs

namespace MojDb

/-- A request about a built-in kind that has no object of its own has to go through. -/
def Op.Smooth (op : Op) (batch : Bool) (faults : List (Option MojErr)) (ending : Ending) : Prop :=
  (∀ failure ∈ faults, failure = none) ∧ op.Named ∧ (ending = .fails → batch = true)

instance (op : Op) (batch : Bool) (faults : List (Option MojErr)) (ending : Ending) :
    Decidable (op.Smooth batch faults ending) :=
  inferInstanceAs (Decidable ((∀ failure ∈ faults, failure = none) ∧ op.Named ∧
    (ending = .fails → batch = true)))

/-- A deletion that commits a full batch goes through, in a request that is a batch. -/
def Op.Finishes (op : Op) (batch : Bool) (faults : List (Option MojErr)) (ending : Ending) : Prop :=
  0 < op.full → batch = true ∧ ending = .commits ∧ ∀ failure ∈ faults, failure = none

instance (op : Op) (batch : Bool) (faults : List (Option MojErr)) (ending : Ending) :
    Decidable (op.Finishes batch faults ending) :=
  inferInstanceAs (Decidable (0 < op.full →
    batch = true ∧ ending = .commits ∧ ∀ failure ∈ faults, failure = none))

/-- A kind can be loaded anew, a batch that is not committed asked for no other indexes, and a deletion
that commits on its way goes through. -/
def Event.Meets : Event → System → Prop
  | .request op batch faults ending reload, sys => ∀ memory ∈ sys.memory,
      (∀ failure ∈ reload.faults, failure = none) ∧ op.Agrees ∧
        (batch = true → ending = .fails → op.Unchanging sys.disk memory) ∧
        ((memory.kinds op.id).isSome → sys.disk.stored.find op.id = none →
          op.Smooth batch faults ending) ∧ op.Finishes batch faults ending
  | .stop _, _ => True
  | .start _ loads commits, _ => commits = true → ∀ failure ∈ loads, failure = none

instance : (event : Event) → (sys : System) → Decidable (event.Meets sys)
  | .request op batch faults ending reload, sys => inferInstanceAs (Decidable (∀ memory ∈ sys.memory,
      (∀ failure ∈ reload.faults, failure = none) ∧ op.Agrees ∧
        (batch = true → ending = .fails → op.Unchanging sys.disk memory) ∧
        ((memory.kinds op.id).isSome → sys.disk.stored.find op.id = none →
          op.Smooth batch faults ending) ∧ op.Finishes batch faults ending))
  | .stop _, _ => isTrue trivial
  | .start _ loads commits, _ =>
    inferInstanceAs (Decidable (commits = true → ∀ failure ∈ loads, failure = none))

def Event.Changes (id : MojString) : Event → System → Prop
  | .request op batch faults ending _, sys => op.id = id ∧ ending = .commits ∧ ∃ memory ∈ sys.memory,
      match op.body ⟨sys.disk, memory, sys.seq, faults, sys.disk, batch⟩ with
      | .ok none _ => True
      | _ => False
  | .stop _, _ => False
  | .start _ _ _, _ => False

end MojDb

section Steps

variable {top : Nat} {sys next : MojDb.System}

theorem Durable.later {reached : Nat} {disk : Disk} {seq after : World} (durable : Durable top disk seq)
    (above : top ≤ reached) (ahead : Ahead reached after) : Durable reached disk after :=
  ⟨durable.tidy.mono ahead above, durable.names, durable.agrees, durable.covered⟩

theorem committed_request {memory : Memory} {op : MojDb.Op} {batch : Bool}
    {faults : List (Option MojErr)} {reload : MojDb.Reload} {began after : Working}
    (good : Good top sys) (isOpen : sys.memory = some memory) (agrees : op.Agrees)
    (ran : op.body ⟨sys.disk, memory, sys.seq, faults, sys.disk, batch⟩ = .ok none after)
    (begun : MojDb.Begun op ⟨sys.disk, memory, sys.seq, faults, sys.disk, batch⟩ began)
    (tidy : Tidy top began.disk.rows began.seq) (mirrors : Mirrors sys.disk memory)
    (opened : began.seq.seq.isSome) (done : op.engine began = .ok () after) :
    ∃ later, top ≤ later ∧ Good later ⟨after.disk, after.seq, some after.memory⟩ ∧
      Moves top (fun id => (MojDb.Event.request op batch faults .commits reload).Changes id sys)
        sys.disk after.disk := by
  have agreed : ∀ given, op = .putKind op.id given → Agrees op.id given := by
    intro given isPut
    rw [isPut] at agrees
    exact agrees
  rcases committed_good begun good.durable tidy mirrors agreed opened done with
    ⟨later, more, last, moves⟩
  refine ⟨later, more, last, moves.widen ?_⟩
  rintro id rfl
  refine ⟨rfl, rfl, memory, isOpen, ?_⟩
  rw [ran]
  trivial

theorem request_good {memory : Memory} {op : MojDb.Op} {batch : Bool} {faults : List (Option MojErr)}
    {ending : MojDb.Ending} {reload : MojDb.Reload} (good : Good top sys)
    (isOpen : sys.memory = some memory)
    (meets : (MojDb.Event.request op batch faults ending reload).Meets sys) :
    ∃ later, top ≤ later ∧ Good later (sys.request memory op batch faults ending reload) ∧
      Moves top (fun id => (MojDb.Event.request op batch faults ending reload).Changes id sys)
        sys.disk (sys.request memory op batch faults ending reload).disk := by
  rcases meets memory isOpen with ⟨reloads, agrees, unchanging, builtin, finishes⟩
  rcases good.mirrors memory isOpen with ⟨mirrors, opened⟩
  -- where a full batch is committed, nothing is refused
  have quiet : op.full = 0 ∨ (batch = true ∧ ending = .commits) ∧
      ∀ state : Working, (∀ failure ∈ state.faults, failure ∈ faults) → state.seq = sys.seq →
        Smooth state := by
    rcases Nat.eq_zero_or_pos op.full with none | some
    · exact Or.inl none
    · rcases finishes some with ⟨batched, commits, refused⟩
      refine Or.inr ⟨⟨batched, commits⟩, fun state members same => ⟨?_, ?_, ?_⟩⟩
      · exact fun failure member => refused failure (members failure member)
      · rw [same]
        exact opened
      · rw [same]
        exact ⟨top, good.durable.tidy.ahead⟩
  unfold MojDb.System.request
  cases ran : op.body ⟨sys.disk, memory, sys.seq, faults, sys.disk, batch⟩ with
  | error err after =>
    rcases MojDb.body_error ran with ⟨same, seq, committed⟩
    have committed := committed (quiet.imp_right fun sure => sure.2 _ (fun _ member => member) rfl)
    dsimp only at same seq committed ⊢
    rw [same, seq, committed]
    split_ifs
    · exact ⟨top, le_refl top, good.lost (le_refl top) good.durable.tidy.ahead, Moves.refl _ _ _⟩
    · refine ⟨top, le_refl top, ⟨good.durable, ?_⟩, Moves.refl _ _ _⟩
      intro shown equal
      cases equal
      exact ⟨mirrors, opened⟩
  | ok err after =>
    rcases MojDb.body_ok ran with
      ⟨rfl, absent, live, disk, same, seq, request⟩ | ⟨began, begun, outcome⟩
    · have committed : after.committed = sys.disk := congrArg Prod.fst request
      have unchanged : after.batch = batch := congrArg Prod.snd request
      dsimp only at absent live disk same seq ⊢
      rw [disk, same, seq, committed, unchanged]
      have shown : Good top ⟨sys.disk, sys.seq, some memory⟩ := by
        refine ⟨good.durable, ?_⟩
        intro shown equal
        cases equal
        exact ⟨mirrors, opened⟩
      have stays := Moves.refl top (fun id =>
        (MojDb.Event.request op batch faults ending reload).Changes id sys) sys.disk
      cases ending with
      | dies =>
        exact ⟨top, le_refl top, good.lost (le_refl top) good.durable.tidy.ahead, stays⟩
      | commits =>
        dsimp only
        rw [if_pos rfl]
        exact ⟨top, le_refl top, shown, stays⟩
      | fails =>
        have batched : batch = true := (builtin live absent).2.2 rfl
        rw [batched]
        exact ⟨top, le_refl top, shown, Moves.refl top _ sys.disk⟩
    · have tidy : Tidy top began.disk.rows began.seq := by
        rw [begun.rows, begun.seq]
        exact good.durable.tidy
      have isOpen' : began.seq.seq.isSome := by
        rw [begun.seq]
        exact opened
      have acts : Acts (· = op.id) began after := by
        rcases outcome with ⟨-, done⟩ | ⟨failure, -, failed⟩
        · exact (MojDb.acts_engine op).of_ok done
        · exact (MojDb.acts_engine op).of_error failed
      rcases acts.tidy tidy with ⟨reached, above, between, -⟩
      -- what is not to be committed is not committed before, either
      have kept : op.full = 0 → after.committed = sys.disk ∧ after.batch = batch := by
        intro none
        have same := acts.request.trans (begun.request none)
        exact ⟨congrArg Prod.fst same, congrArg Prod.snd same⟩
      rcases outcome with ⟨rfl, done⟩ | ⟨failure, rfl, failed⟩
      · rcases quiet with none | ⟨⟨batched, commits⟩, -⟩
        · rcases kept none with ⟨committed, unchanged⟩
          dsimp only
          rw [committed, unchanged]
          cases ending with
          | dies => exact ⟨reached, above, good.lost above between.ahead, Moves.refl _ _ _⟩
          | commits =>
            dsimp only
            rw [if_pos rfl]
            exact committed_request good isOpen agrees ran begun tidy mirrors isOpen' done
          | fails =>
            cases batch with
            | true =>
              refine ⟨reached, above, ⟨good.durable.later above between.ahead, ?_⟩,
                Moves.refl _ _ _⟩
              intro shown equal
              cases equal
              exact ⟨unchanging_mirrors begun good.durable tidy mirrors (unchanging rfl rfl) done,
                acts.opened isOpen'⟩
            | false =>
              apply reload_good good.durable mirrors begun.rows begun.memory tidy isOpen' acts
                reloads
              intro live
              cases found : sys.disk.stored.find op.id with
              | some given => rfl
              | none => cases (builtin live found).2.2 rfl
        · have still : after.batch = batch := by
            have same : after.batch = began.batch := congrArg Prod.snd acts.request
            rw [same, batched]
            exact begun.batch batched
          subst commits
          dsimp only
          rw [if_pos still]
          exact committed_request good isOpen agrees ran begun tidy mirrors isOpen' done
      · have committed : after.committed = sys.disk := by
          rcases quiet with none | ⟨-, sure⟩
          · exact (kept none).1
          · have named : op.Named ∨ op.full = 0 := by
              cases op with
              | putKind id given => exact Or.inr rfl
              | delKind id full => exact Or.inl trivial
            rcases named with named | none
            · rcases MojDb.sure_engine named began (sure began begun.faults begun.seq) with
                ⟨done, last, succeeds, -⟩
              rw [succeeds] at failed
              cases failed
            · exact (kept none).1
        dsimp only
        rw [committed]
        split_ifs
        · exact ⟨reached, above, good.lost above between.ahead, Moves.refl _ _ _⟩
        · apply reload_good good.durable mirrors begun.rows begun.memory tidy isOpen' acts reloads
          intro live
          cases found : sys.disk.stored.find op.id with
          | some given => rfl
          | none =>
            rcases builtin live found with ⟨none, named, -⟩
            have smooth : Smooth began :=
              ⟨fun failure member => none failure (begun.faults failure member), isOpen',
                top, tidy.ahead⟩
            rcases MojDb.sure_engine named began smooth with ⟨done, last, succeeds, -⟩
            rw [succeeds] at failed
            cases failed

theorem start_good {faults loads : List (Option MojErr)} {commits : Bool} (good : Good top sys)
    (meets : (MojDb.Event.start faults loads commits).Meets sys) (changed : MojString → Prop) :
    ∃ later, top ≤ later ∧ Good later (sys.start faults loads commits) ∧
      Moves top changed sys.disk (sys.start faults loads commits).disk := by
  have tidy := opening_tidy good faults
  rw [MojDb.System.start, ← opening]
  cases adds : MojDbKindEngine.addBuiltins MojDbKindEngine.builtins (opening sys faults) with
  | error err built =>
    have acts := (acts_addBuiltins MojDbKindEngine.builtins).of_error adds
    rcases acts.tidy tidy with ⟨reached, above, between, -⟩
    exact ⟨reached, above, good.lost above between.ahead, Moves.refl _ _ _⟩
  | ok done built =>
    have acts := (acts_addBuiltins MojDbKindEngine.builtins).of_ok adds
    rcases acts.tidy tidy with ⟨reached, above, between, -⟩
    dsimp only
    cases commits with
    | true =>
      have smooth : Smooth { built with faults := loads } :=
        ⟨meets rfl, acts.opened rfl, reached, between.ahead⟩
      have names : ∀ entry ∈ built.disk.stored.entries,
          ((wanted entry.2).map IndexObject.name).Nodup := by
        intro entry member
        have found := (built.disk.stored.find_eq_some_iff entry.1 entry.2).mpr member
        rw [acts.stored] at found
        exact good.durable.names entry.1 entry.2 found
      rcases loadKinds_sure names smooth with ⟨after, loaded, added, -⟩
      rw [loaded]
      exact opened_good good adds added changed
    | false =>
      have more := acts_loadKinds built.disk.stored.entries (fun id member => member)
        { built with faults := loads }
      rcases more.tidy between with ⟨later, further, final, -⟩
      cases loaded : MojDbKindEngine.loadKinds built.disk.stored.entries
          { built with faults := loads } with
      | error err after =>
        rw [loaded] at final
        exact ⟨later, above.trans further, good.lost (above.trans further) final.ahead,
          Moves.refl _ _ _⟩
      | ok done after =>
        rw [loaded] at final
        exact ⟨later, above.trans further, good.lost (above.trans further) final.ahead,
          Moves.refl _ _ _⟩

theorem step_good {event : MojDb.Event} (good : Good top sys) (meets : event.Meets sys)
    (stepped : MojDb.step event sys = some next) :
    ∃ later, top ≤ later ∧ Good later next ∧
      Moves top (fun id => event.Changes id sys) sys.disk next.disk := by
  cases event with
  | request op batch faults ending reload =>
    rcases Option.map_eq_some_iff.mp stepped with ⟨memory, isOpen, rfl⟩
    exact request_good good isOpen meets
  | stop failure =>
    unfold MojDb.step at stepped
    dsimp only at stepped
    cases isOpen : sys.memory with
    | none =>
      rw [isOpen] at stepped
      cases stepped
    | some memory =>
      rw [isOpen] at stepped
      have ahead := good.durable.tidy.ahead
      cases failure with
      | none =>
        cases stepped
        exact ⟨top, le_refl top, good.lost (le_refl top) ahead, Moves.refl _ _ _⟩
      | some failure =>
        cases stepped
        have closed : Ahead top (MojDbStorageSeq.step sys.seq (.close failure)).1 := by
          rcases seq : sys.seq with ⟨inner, stored⟩
          rw [seq] at ahead
          cases inner with
          | none => exact ahead
          | some inner => exact close_spec ahead failure
        exact ⟨top, le_refl top, good.lost (le_refl top) closed, Moves.refl _ _ _⟩
  | start faults loads commits =>
    unfold MojDb.step at stepped
    dsimp only at stepped
    cases isOpen : sys.memory with
    | none =>
      rw [isOpen] at stepped
      cases stepped
      exact start_good good meets _
    | some memory =>
      rw [isOpen] at stepped
      cases stepped

theorem fresh_good : Good 0 MojDb.fresh where
  durable := by
    refine ⟨⟨ahead_closed (le_refl 0), ?_, ?_⟩, ?_, ?_, ?_⟩
    · intro kind key name id impossible
      cases impossible
    · intro kind other key otherKey name otherName id impossible
      cases impossible
    · intro id given impossible
      cases impossible
    · intro id given impossible
      cases impossible
    · intro id name val impossible
      cases impossible
  mirrors memory impossible := by cases impossible

/-- A run leaves what it owns to the same indexes, and everything else is new. -/
theorem run_good {events : List MojDb.Event} (good : Good top sys)
    (meets : Steps.Throughout MojDb.step MojDb.Event.Meets events sys)
    (ran : Steps.run MojDb.step events sys = some next) :
    ∃ later, top ≤ later ∧ Good later next ∧ Moves top (fun _ => True) sys.disk next.disk := by
  apply @Steps.run_keeps_where _ _ _ MojDb.Event.Meets
    (fun state => ∃ later, top ≤ later ∧ Good later state ∧
      Moves top (fun _ => True) sys.disk state.disk) _ _ _ _ _ meets ran
  · rintro event state after ⟨reached, above, now, moves⟩ meets stepped
    rcases step_good now meets stepped with ⟨later, more, last, step⟩
    refine ⟨later, above.trans more, last, moves.trans above (step.widen fun _ _ => trivial)⟩
  · exact ⟨top, le_refl top, good, Moves.refl _ _ _⟩

end Steps

namespace MojDb

def System.tokenFromId (sys : System) (id : MojString) : Option Nat :=
  sys.memory.bind fun memory => (memory.kinds id).map Kind.token

def System.idFromToken (sys : System) (token : Nat) : Option MojString :=
  sys.memory.bind fun memory => memory.tokens token

def System.Live (sys : System) (id : MojString) (index : IndexObject) (val : Nat) : Prop :=
  ∃ memory kind, sys.memory = some memory ∧ memory.kinds id = some kind ∧ (index, val) ∈ kind.indexes

/-- No two kinds share a token, and no two indexes an id. -/
structure Unshared (sys : System) : Prop where
  tokens : ∀ id other token, sys.tokenFromId id = some token → sys.tokenFromId other = some token →
    id = other
  answers : ∀ id token, sys.tokenFromId id = some token → sys.idFromToken token = some id
  ids : ∀ id other index otherIndex val, sys.Live id index val → sys.Live other otherIndex val →
    id = other ∧ index = otherIndex
  single : ∀ id index val other, sys.Live id index val → sys.Live id index other → val = other

/-- From an early state of a run to later ones. An id that is not live any more stays so, and what no
request is committed for is the same. -/
structure Lasting (untouched : MojString → Prop) (early middle late : System) : Prop where
  unshared : Unshared middle
  ids : ∀ id other index otherIndex val, early.Live id index val → late.Live other otherIndex val →
    id = other ∧ index = otherIndex
  dropped : ∀ id index val, early.Live id index val → middle.memory.isSome →
    ¬middle.Live id index val → ∀ other otherIndex, ¬late.Live other otherIndex val
  tokens : ∀ id token later, early.tokenFromId id = some token → middle.tokenFromId id = some later →
    token = later
  same : ∀ id token, untouched id → middle.memory.isSome → early.tokenFromId id = some token →
    middle.tokenFromId id = some token ∧
      ∀ index val, middle.Live id index val ↔ early.Live id index val

end MojDb

section Lasting

variable {top : Nat} {sys early middle late : MojDb.System}

variable {id : MojString}

theorem Good.token {token : Nat} (good : Good top sys) (read : sys.tokenFromId id = some token) :
    ∃ memory kind given, sys.memory = some memory ∧ sys.disk.asked id = some given ∧
      Held sys.disk.rows memory id given kind ∧ kind.token = token := by
  rcases Option.bind_eq_some_iff.mp read with ⟨memory, isOpen, read⟩
  rcases Option.map_eq_some_iff.mp read with ⟨kind, live, same⟩
  rcases (good.mirrors memory isOpen).1.held id kind live with ⟨given, asked, held⟩
  exact ⟨memory, kind, given, isOpen, asked, held, same⟩

theorem Good.tokenRow {token : Nat} (good : Good top sys)
    (read : sys.tokenFromId id = some token) : sys.disk.rows id .kindTokens id = some token := by
  rcases good.token read with ⟨memory, kind, given, -, -, held, rfl⟩
  exact held.fits.token

theorem Good.live_iff (good : Good top sys) (isOpen : sys.memory.isSome) (id : MojString)
    (index : IndexObject) (val : Nat) : sys.Live id index val ↔ sys.disk.Owns id index val := by
  rcases Option.isSome_iff_exists.mp isOpen with ⟨memory, shown⟩
  have mirrors := (good.mirrors memory shown).1
  constructor
  · rintro ⟨other, kind, same, live, member⟩
    rw [shown] at same
    cases same
    rcases mirrors.held id kind live with ⟨given, asked, held⟩
    rcases held.fits.listed _ member with ⟨inside, row⟩
    exact ⟨⟨given, asked, inside⟩, row⟩
  · intro owns
    cases live : memory.kinds id with
    | none =>
      have row := owns.row
      rw [mirrors.bare id live] at row
      cases row
    | some kind =>
      rcases mirrors.held id kind live with ⟨given, asked, held⟩
      rcases owns.asked with ⟨other, again, inside⟩
      rw [asked] at again
      cases again
      rcases held.fits.complete index inside with ⟨same, member⟩
      have row := (held.fits.listed _ member).2
      rw [owns.row] at row
      cases row
      exact ⟨memory, kind, shown, live, member⟩

theorem Good.owns {index : IndexObject} {val : Nat} (good : Good top sys)
    (live : sys.Live id index val) : sys.disk.Owns id index val := by
  have isOpen : sys.memory.isSome := by
    rcases live with ⟨memory, -, shown, -⟩
    rw [shown]
    rfl
  exact (good.live_iff isOpen id index val).mp live

theorem builtins_names : ∀ entry ∈ MojDbKindEngine.builtins,
    ((wanted entry.2).map IndexObject.name).Nodup := by decide +kernel

theorem Durable.askedNames {disk : Disk} {seq : World} {given : List IndexObject}
    (durable : Durable top disk seq) (asked : disk.asked id = some given) :
    ((wanted given).map IndexObject.name).Nodup := by
  unfold Disk.asked at asked
  cases found : disk.stored.find id with
  | some own =>
    rw [found] at asked
    cases asked
    exact durable.names id given found
  | none =>
    rw [found] at asked
    exact builtins_names (id, given) (mem_builtins asked)

theorem Durable.unique {disk : Disk} {seq : World} {id other : MojString}
    {index otherIndex : IndexObject} {val : Nat} (durable : Durable top disk seq)
    (one : disk.Owns id index val) (two : disk.Owns other otherIndex val) :
    id = other ∧ index = otherIndex := by
  rcases durable.tidy.distinct one.row two.row with ⟨rfl, -, named⟩
  rcases one.asked with ⟨given, asked, inside⟩
  rcases two.asked with ⟨now, again, member⟩
  rw [asked] at again
  cases again
  exact ⟨rfl, eq_of_names (durable.askedNames asked) inside member named⟩

theorem Good.unshared (good : Good top sys) : MojDb.Unshared sys where
  tokens id other token one two :=
    (good.durable.tidy.distinct (good.tokenRow one) (good.tokenRow two)).1
  answers id token read := by
    rcases good.token read with ⟨memory, kind, given, isOpen, -, held, rfl⟩
    rw [MojDb.System.idFromToken, isOpen]
    exact held.known
  ids id other index otherIndex val one two := good.durable.unique (good.owns one) (good.owns two)
  single id index val other one two :=
    Option.some.inj ((good.owns one).row.symm.trans (good.owns two).row)

theorem untouched_same {events : List MojDb.Event} (good : Good top sys)
    (meets : Steps.Throughout MojDb.step MojDb.Event.Meets events sys)
    (untouched : Steps.Throughout MojDb.step (fun event state => ¬event.Changes id state) events sys)
    (ran : Steps.run MojDb.step events sys = some late) :
    late.disk.stored.find id = sys.disk.stored.find id ∧
      ∀ index val, sys.disk.Owns id index val → late.disk.Owns id index val := by
  have kept := @Steps.run_keeps_where _ _ _
    (fun event state => event.Meets state ∧ ¬event.Changes id state)
    (fun state => (∃ later, Good later state) ∧
      state.disk.stored.find id = sys.disk.stored.find id ∧
      ∀ index val, sys.disk.Owns id index val → state.disk.Owns id index val) ?_ _ _ _
    ⟨⟨top, good⟩, rfl, fun _ _ owns => owns⟩ (meets.and untouched) ran
  · exact kept.2
  · rintro event state after ⟨⟨reached, now⟩, stored, owns⟩ ⟨meets, unchanged⟩ stepped
    rcases step_good now meets stepped with ⟨later, -, last, moves⟩
    rcases moves.keeps id unchanged with ⟨again, still⟩
    exact ⟨⟨later, last⟩, again.trans stored, fun index val owned => still index val (owns index val owned)⟩

/-- Where every step meets the condition, tokens and ids are not shared and last. -/
theorem ids_last {first second third : List MojDb.Event}
    (began : Steps.run MojDb.step first MojDb.fresh = some early)
    (went : Steps.run MojDb.step second early = some middle)
    (ended : Steps.run MojDb.step third middle = some late)
    (meets : Steps.Throughout MojDb.step MojDb.Event.Meets (first ++ second ++ third) MojDb.fresh) :
    MojDb.Lasting (fun id => Steps.Throughout MojDb.step (fun event sys => ¬event.Changes id sys)
      second early) early middle late := by
  rcases Steps.Throughout.of_append meets (by rw [Steps.run_append, began]; exact went) with
    ⟨meets, meetsThird⟩
  rcases Steps.Throughout.of_append meets began with ⟨meetsFirst, meetsSecond⟩
  rcases run_good fresh_good meetsFirst began with ⟨one, -, goodEarly, -⟩
  rcases run_good goodEarly meetsSecond went with ⟨two, above, goodMiddle, onward⟩
  rcases run_good goodMiddle meetsThird ended with ⟨three, -, goodLate, final⟩
  have below : ∀ {id index val}, early.Live id index val → val < one :=
    fun live => goodEarly.durable.tidy.below (goodEarly.owns live).row
  refine ⟨goodMiddle.unshared, ?_, ?_, ?_, ?_⟩
  · intro id other index otherIndex val live again
    have small := below live
    rcases final.owns other otherIndex val (goodLate.owns again) with owns | new
    · rcases onward.owns other otherIndex val owns with owns | new
      · exact goodEarly.durable.unique (goodEarly.owns live) owns
      · omega
    · omega
  · intro id index val live isOpen gone other otherIndex again
    have small := below live
    rcases final.owns other otherIndex val (goodLate.owns again) with owns | new
    · rcases onward.owns other otherIndex val owns with before | new
      · rcases goodEarly.durable.unique (goodEarly.owns live) before with ⟨rfl, rfl⟩
        exact gone ((goodMiddle.live_iff isOpen id index val).mpr owns)
      · omega
    · omega
  · intro id token later read again
    have row := onward.tokens id token (goodEarly.tokenRow read)
    exact Option.some.inj (row.symm.trans (goodMiddle.tokenRow again))
  · intro id token untouched isOpen read
    rcases untouched_same goodEarly meetsSecond untouched went with ⟨stored, kept⟩
    rcases goodEarly.token read with ⟨memory, kind, given, early', asked, held, rfl⟩
    have asked' : middle.disk.asked id = some given := by
      rw [Disk.asked, stored]
      exact asked
    have openEarly : early.memory.isSome := by
      rw [early']
      rfl
    have each : ∀ index ∈ wanted given, ∃ val, early.disk.Owns id index val := by
      intro index inside
      rcases held.fits.complete index inside with ⟨val, member⟩
      exact ⟨val, ⟨given, asked, inside⟩, (held.fits.listed _ member).2⟩
    have row := onward.tokens id kind.token held.fits.token
    rcases each MojDbKind.idIndex List.mem_cons_self with ⟨val, owns⟩
    have live := (goodMiddle.live_iff isOpen id _ val).mpr (kept _ val owns)
    rcases live with ⟨shown, now, middle', known, -⟩
    rcases (goodMiddle.mirrors shown middle').1.held id now known with ⟨_, -, again⟩
    refine ⟨?_, ?_⟩
    · rw [MojDb.System.tokenFromId, middle', Option.bind_some, known, ← row]
      exact again.fits.token.symm
    · intro index val
      rw [goodMiddle.live_iff isOpen, goodEarly.live_iff openEarly]
      constructor
      · intro owned
        rcases owned.asked with ⟨other, same, inside⟩
        rw [asked'] at same
        cases same
        rcases each index inside with ⟨before, owns⟩
        have equal := (kept index before owns).row.symm.trans owned.row
        exact Option.some.inj equal ▸ owns
      · exact kept index val

end Lasting

section Sample

def sampleKind : MojString := chars "Note:1".toList

def sampleIndex : IndexObject := MojDbKindEngine.index "at" [MojDbKindEngine.named "at",
  MojDbKindEngine.props [.object [MojDbKindEngine.named "at"]]]

def samplePut (ending : MojDb.Ending) : MojDb.Event :=
  .request (.putKind sampleKind [sampleIndex]) true [] ending ⟨[], true⟩

def sampleRestart : List MojDb.Event := [.stop (some none), .start [] [] true]

def sampleDelete : MojDb.Event := .request (.delKind sampleKind 1) true [] .commits ⟨[], true⟩

def sampleReached (events : List MojDb.Event) : Option Kind :=
  (Steps.run MojDb.step events MojDb.fresh).bind fun sys =>
    sys.memory.bind fun memory => memory.kinds sampleKind

theorem live_of_reached {events : List MojDb.Event} {sys : MojDb.System} {kind : Kind} {val : Nat}
    (ran : Steps.run MojDb.step events MojDb.fresh = some sys)
    (reached : sampleReached events = some kind) (member : (sampleIndex, val) ∈ kind.indexes) :
    sys.Live sampleKind sampleIndex val ∧ sys.tokenFromId sampleKind = some kind.token := by
  unfold sampleReached at reached
  rw [ran, Option.bind_some] at reached
  rcases Option.bind_eq_some_iff.mp reached with ⟨memory, isOpen, live⟩
  refine ⟨⟨memory, kind, isOpen, live, member⟩, ?_⟩
  rw [MojDb.System.tokenFromId, isOpen, Option.bind_some, live]
  rfl

theorem ids_last_sample : ∃ early middle late,
    Steps.run MojDb.step [.start [] [] true, samplePut .commits, samplePut .fails] MojDb.fresh =
        some early ∧
      Steps.run MojDb.step sampleRestart early = some middle ∧
      Steps.run MojDb.step [sampleDelete] middle = some late ∧
      MojDb.Lasting (fun id => Steps.Throughout MojDb.step (fun event sys => ¬event.Changes id sys)
        sampleRestart early) early middle late := by
  have whole : (Steps.run MojDb.step ([.start [] [] true, samplePut .commits, samplePut .fails] ++
      sampleRestart ++ [sampleDelete]) MojDb.fresh).isSome := by decide +kernel
  rcases Option.isSome_iff_exists.mp whole with ⟨late, ran⟩
  rw [Steps.run_append, Steps.run_append] at ran
  rcases Option.bind_eq_some_iff.mp ran with ⟨middle, front, ended⟩
  rcases Option.bind_eq_some_iff.mp front with ⟨early, began, went⟩
  exact ⟨early, middle, late, began, went, ended, ids_last began went ended (by decide +kernel)⟩

/-- A kind that was put twice, the first time in a batch that was not committed, has an index that gets
another id when the database is opened again. -/
theorem uncommitted_batch_changes_id : ¬∀ (first second third : List MojDb.Event)
    (early middle late : MojDb.System), Steps.run MojDb.step first MojDb.fresh = some early →
      Steps.run MojDb.step second early = some middle →
      Steps.run MojDb.step third middle = some late →
      MojDb.Lasting (fun id => Steps.Throughout MojDb.step (fun event sys => ¬event.Changes id sys)
        second early) early middle late := by
  intro settled
  have whole : (Steps.run MojDb.step ([.start [] [] true, samplePut .fails, samplePut .commits] ++
      sampleRestart) MojDb.fresh).isSome := by decide +kernel
  rcases Option.isSome_iff_exists.mp whole with ⟨middle, ran⟩
  have went := ran
  rw [Steps.run_append] at went
  rcases Option.bind_eq_some_iff.mp went with ⟨early, began, went⟩
  have before : sampleReached [.start [] [] true, samplePut .fails, samplePut .commits] =
      some ⟨20, [(MojDbKind.idIndex, 18), (sampleIndex, 19)]⟩ := by decide +kernel
  have after : sampleReached ([.start [] [] true, samplePut .fails, samplePut .commits] ++
      sampleRestart) = some ⟨20, [(MojDbKind.idIndex, 21), (sampleIndex, 22)]⟩ := by decide +kernel
  have first : (sampleIndex, 19) ∈ [(MojDbKind.idIndex, 18), (sampleIndex, 19)] :=
    List.mem_cons_of_mem _ List.mem_cons_self
  have later : (sampleIndex, 22) ∈ [(MojDbKind.idIndex, 21), (sampleIndex, 22)] :=
    List.mem_cons_of_mem _ List.mem_cons_self
  rcases live_of_reached began before first with ⟨live, token⟩
  rcases live_of_reached ran after later with ⟨now, -⟩
  have isOpen : middle.memory.isSome := by
    rcases now with ⟨memory, -, shown, -⟩
    rw [shown]
    rfl
  have lasting := settled _ _ [] early middle middle began went rfl
  have same := (lasting.same sampleKind 20 ⟨id, fun _ _ => ⟨id, fun _ _ => trivial⟩⟩ isOpen token).2
  have still := (same sampleIndex 19).mpr live
  have impossible : 19 = 22 := lasting.unshared.single sampleKind sampleIndex 19 22 still now
  cases impossible

end Sample

end Db8.Db.KindIds
