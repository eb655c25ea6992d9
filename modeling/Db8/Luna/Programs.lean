import Db8.Luna.Request

/-!
# Programs that are run again

A call that succeeds does what it does where nothing fails. What a run leaves outside its
transaction, the words that became tokens, is found there by the next run of the same program, which
ends like one that is the first.
-/

set_option autoImplicit false

namespace Db8.Luna

open Db8.Bytes
open Db8.Core
open Db8.Db
open Db8.Db.MojDb

variable {σ κ ρ ρ' : Type*} {faults : Faults σ}

namespace Ran

theorem andThen_ok {ran : Ran σ κ ρ} {reply : ρ} (success : ran.result = .ok reply)
    (next : World σ κ → ρ → Ran σ κ ρ') :
    ran.andThen next = ⟨(next ran.world reply).world, ran.commits ++ (next ran.world reply).commits,
      ran.rights ++ (next ran.world reply).rights, ran.watches ++ (next ran.world reply).watches,
      (next ran.world reply).result⟩ := by
  unfold andThen
  rw [success]

theorem andThen_error {ran : Ran σ κ ρ} {err : MojErr} (failed : ran.result = .error err)
    (next : World σ κ → ρ → Ran σ κ ρ') :
    ran.andThen next = ⟨ran.world, ran.commits, ran.rights, ran.watches, .error err⟩ := by
  unfold andThen
  rw [failed]

theorem ok_of_andThen {ran : Ran σ κ ρ} {next : World σ κ → ρ → Ran σ κ ρ'} {last : ρ'}
    (success : (ran.andThen next).result = .ok last) :
    ∃ reply, ran.result = .ok reply ∧ (next ran.world reply).result = .ok last := by
  cases result : ran.result with
  | error err =>
    rw [andThen_error result] at success
    cases success
  | ok reply =>
    rw [andThen_ok result] at success
    exact ⟨reply, rfl, success⟩

theorem andThen_assoc {ρ'' : Type*} (ran : Ran σ κ ρ) (next : World σ κ → ρ → Ran σ κ ρ')
    (last : World σ κ → ρ' → Ran σ κ ρ'') :
    (ran.andThen next).andThen last =
      ran.andThen fun world reply => (next world reply).andThen last := by
  cases result : ran.result with
  | error err =>
    rw [andThen_error result, andThen_error result]
    rfl
  | ok reply =>
    rw [andThen_ok result, andThen_ok result]
    cases later : (next ran.world reply).result with
    | error err =>
      rw [andThen_error later, andThen_error rfl]
    | ok reply' =>
      rw [andThen_ok later, andThen_ok rfl]
      simp only [List.append_assoc]

theorem andThen_congr {ran : Ran σ κ ρ} {next other : World σ κ → ρ → Ran σ κ ρ'}
    (same : ∀ reply, ran.result = .ok reply → next ran.world reply = other ran.world reply) :
    ran.andThen next = ran.andThen other := by
  cases result : ran.result with
  | error err => rw [andThen_error result, andThen_error result]
  | ok reply => rw [andThen_ok result, andThen_ok result, same reply result]

end Ran

theorem Program.exec_bind (faults : Faults σ) (program : Program σ κ ρ)
    (after : ρ → Program σ κ ρ') (world : World σ κ) :
    (program.bind after).exec faults world =
      (program.exec faults world).andThen fun world reply => (after reply).exec faults world := by
  induction program generalizing world with
  | done result =>
    cases result with
    | error err => rfl
    | ok reply => rfl
  | look next ih => exact ih world.kinds world
  | access run next ih =>
    rw [Program.bind, Program.exec, Program.exec, Ran.andThen_assoc]
    exact Ran.andThen_congr fun txn _ => ih txn _
  | addProp kind prop next ih =>
    rw [Program.bind, Program.exec, Program.exec, Ran.andThen_assoc]
    exact Ran.andThen_congr fun token _ => ih token _
  | watch query next ih =>
    rw [Program.bind, Program.exec, Program.exec, Ran.andThen_assoc]
    exact Ran.andThen_congr fun _ _ => ih _
  | putRights perm opMap next ih =>
    rw [Program.bind, Program.exec, Program.exec, Ran.andThen_assoc]
    exact Ran.andThen_congr fun _ _ => ih _
  | updateKinds change next ih => exact ih _
  | begin next ih =>
    rw [Program.bind, Program.exec, Program.exec, Ran.andThen_assoc]
    exact Ran.andThen_congr fun _ _ => ih _
  | finish commitNow next ih =>
    rw [Program.bind, Program.exec, Program.exec, Ran.andThen_assoc]
    exact Ran.andThen_congr fun _ _ => ih _
  | delImpl del limit next ih =>
    rw [Program.bind, Program.exec, Program.exec, Ran.andThen_assoc]
    exact Ran.andThen_congr fun rounds _ => ih rounds _

/-! ### Calls that succeed -/

section Never

variable {world : World σ κ}

theorem access_never {asserted : String} {run : σ → σ × Except MojErr ρ} {reply : ρ}
    (success : (world.access faults asserted run).result = .ok reply) :
    world.access .never asserted run = world.access faults asserted run := by
  unfold World.access at success ⊢
  cases running : world.txn with
  | none => rfl
  | some txn =>
    rw [running] at success
    cases uncut : faults world.clock with
    | none => rfl
    | some cut =>
      rw [uncut] at success
      cases success

theorem begin_never (success : (world.begin faults).result = .ok ()) :
    world.begin .never = world.begin faults := by
  unfold World.begin at success ⊢
  dsimp only at success ⊢
  split_ifs at success ⊢
  · cases uncut : faults world.clock with
    | none => rfl
    | some cut =>
      rw [uncut] at success
      cases success
  · rfl

theorem commit_never (success : (world.commit faults).result = .ok ()) :
    world.commit .never = world.commit faults := by
  unfold World.commit at success ⊢
  cases running : world.txn with
  | none => rfl
  | some txn =>
    rw [running] at success
    cases uncut : faults world.clock with
    | none => rfl
    | some cut =>
      rw [uncut] at success
      cases success

theorem finish_never {commitNow : Bool} (success : (world.finish faults commitNow).result = .ok ()) :
    world.finish .never commitNow = world.finish faults commitNow := by
  unfold World.finish at success ⊢
  dsimp only at success ⊢
  split_ifs at success ⊢
  · exact commit_never success
  · rfl
  · rfl

/-- Where a step succeeds, and what comes then too, both do what they do where nothing fails. -/
theorem andThen_never {ran never : Ran σ κ ρ} {next nextNever : World σ κ → ρ → Ran σ κ ρ'}
    {last : ρ'} (success : (ran.andThen next).result = .ok last)
    (first : ∀ reply, ran.result = .ok reply → never = ran)
    (later : ∀ reply, ran.result = .ok reply → (next ran.world reply).result = .ok last →
      nextNever ran.world reply = next ran.world reply) :
    never.andThen nextNever = ran.andThen next := by
  rcases Ran.ok_of_andThen success with ⟨reply, result, onward⟩
  rw [first reply result, Ran.andThen_ok result, Ran.andThen_ok result, later reply result onward]

theorem commitBatch_never (success : (world.commitBatch faults).result = .ok ()) :
    world.commitBatch .never = world.commitBatch faults := by
  apply andThen_never success
  · intro _ ended
    exact finish_never ended
  · intro _ _ onward
    apply andThen_never onward
    · intro _ committed
      exact commit_never committed
    · intro _ _ again
      exact begin_never again

theorem endRound_never {swept : Swept} (success : (world.endRound faults swept).result = .ok ()) :
    world.endRound .never swept = world.endRound faults swept := by
  unfold World.endRound at success ⊢
  split_ifs at success ⊢
  · exact commitBatch_never success
  · rfl

theorem delRounds_never {sweep : Sweep σ} {left limit queryLimit : Nat} {rounds : List Swept}
    (success : (world.delRounds faults sweep left limit queryLimit).result = .ok rounds) :
    world.delRounds .never sweep left limit queryLimit =
      world.delRounds faults sweep left limit queryLimit := by
  induction left generalizing world limit queryLimit rounds with
  | zero => rfl
  | succ left ih =>
    unfold World.delRounds at success ⊢
    split_ifs at success ⊢ with ended
    · rfl
    · apply andThen_never success
      · intro _ accessed
        exact access_never accessed
      · intro swept _ onward
        apply andThen_never onward
        · intro _ spent
          exact endRound_never spent
        · intro _ _ rest
          split_ifs at rest ⊢
          · rfl
          · apply andThen_never rest
            · intro _ later
              exact ih later
            · intro _ _ _
              rfl

theorem addProp_never {kind prop : MojString} {token : Nat}
    (success : (world.addProp faults kind prop).result = .ok token) :
    world.addProp .never kind prop = world.addProp faults kind prop := by
  cases uncut : faults world.clock with
  | none =>
    unfold World.addProp
    rw [uncut]
    rfl
  | some cut =>
    have same : (world.states kind).addPropImpl prop (some TokenWrite.done)
        (world.disk.tokens kind) = (world.states kind).addPropImpl prop (some cut.write)
          (world.disk.tokens kind) := by
      unfold World.addProp at success
      rw [uncut] at success
      simp only [Option.map_some, Option.getD_some] at success
      unfold MojDbKindState.addPropImpl at success ⊢
      cases got : MojDbKindState.getToken (world.states kind).tokensObj prop with
      | error err => rfl
      | ok found =>
        cases found with
        | some token => rfl
        | none =>
          rw [got] at success
          simp only at success ⊢
          split_ifs at success ⊢
          · exfalso
            unfold MojDbKindState.writeTokens Cut.write at success
            cases read : MojDbKindState.recordObj (world.states kind).oldTokensItem with
            | error err =>
              rw [read] at success
              cases success
            | ok obj =>
              rw [read] at success
              split_ifs at success <;> cases success
          · rfl
    unfold World.addProp Faults.never
    simp only [uncut, Option.map_none, Option.map_some, Option.getD_none, Option.getD_some, same]

theorem exec_never (program : Program σ κ ρ) {world : World σ κ} {reply : ρ}
    (success : (program.exec faults world).result = .ok reply) :
    program.exec .never world = program.exec faults world := by
  induction program generalizing world with
  | done result => rfl
  | look next ih => exact ih world.kinds success
  | access run next ih =>
    exact andThen_never success (fun _ accessed => access_never accessed)
      fun txn _ onward => ih txn onward
  | addProp kind prop next ih =>
    exact andThen_never success (fun _ added => addProp_never added)
      fun token _ onward => ih token onward
  | watch query next ih =>
    exact andThen_never success (fun _ _ => rfl) fun _ _ onward => ih onward
  | putRights perm opMap next ih =>
    exact andThen_never success (fun _ _ => rfl) fun _ _ onward => ih onward
  | updateKinds change next ih => exact ih success
  | begin next ih =>
    exact andThen_never success (fun _ begun => begin_never begun) fun _ _ onward => ih onward
  | finish commitNow next ih =>
    exact andThen_never success (fun _ ended => finish_never ended) fun _ _ onward => ih onward
  | delImpl del limit next ih =>
    exact andThen_never success (fun _ deleted => delRounds_never deleted)
      fun rounds _ onward => ih rounds onward

end Never

/-! ### Tokens that are there already -/

/-- The world with the tokens another run left, and their records. -/
def World.grown (world left : World σ κ) : World σ κ :=
  { world with states := left.states, disk := { world.disk with tokens := left.disk.tokens } }

structure Tokenless (before : World σ κ) (ran : Ran σ κ ρ) : Prop where
  states : ran.world.states = before.states
  tokens : ran.world.disk.tokens = before.disk.tokens
  kinds : ran.world.kinds = before.kinds
  rights : ran.rights = []
  watches : ran.watches = []

structure Alike (left : World σ κ) (ran other : Ran σ κ ρ) : Prop where
  result : other.result = ran.result
  world : other.world = ran.world.grown left
  rights : other.rights = ran.rights
  watches : other.watches = ran.watches

variable {next : World σ κ → ρ → Ran σ κ ρ'} {ran : Ran σ κ ρ}

theorem Tokenless.andThen {before : World σ κ} (first : Tokenless before ran)
    (later : ∀ world reply, Tokenless world (next world reply)) :
    Tokenless before (ran.andThen next) := by
  cases result : ran.result with
  | error err =>
    rw [Ran.andThen_error result]
    exact ⟨first.states, first.tokens, first.kinds, first.rights, first.watches⟩
  | ok reply =>
    rw [Ran.andThen_ok result]
    have rest := later ran.world reply
    refine ⟨rest.states.trans first.states, rest.tokens.trans first.tokens,
      rest.kinds.trans first.kinds, ?_, ?_⟩
    · simp only [first.rights, rest.rights, List.append_nil]
    · simp only [first.watches, rest.watches, List.append_nil]

theorem Alike.andThen {left : World σ κ} {ran other : Ran σ κ ρ} (first : Alike left ran other)
    (later : ∀ world reply, Alike left (next world reply) (next (world.grown left) reply)) :
    Alike left (ran.andThen next) (other.andThen next) := by
  cases result : ran.result with
  | error err =>
    rw [Ran.andThen_error result, Ran.andThen_error (first.result.trans result)]
    exact ⟨rfl, first.world, first.rights, first.watches⟩
  | ok reply =>
    rw [Ran.andThen_ok result, Ran.andThen_ok (first.result.trans result), first.world]
    have rest := later ran.world reply
    exact ⟨rest.result, rest.world, congrArg₂ _ first.rights rest.rights,
      congrArg₂ _ first.watches rest.watches⟩

section Steps

variable (faults) (world left : World σ κ)

theorem access_tokenless (asserted : String) (run : σ → σ × Except MojErr ρ) :
    Tokenless world (world.access faults asserted run) := by
  unfold World.access
  cases world.txn with
  | none => exact ⟨rfl, rfl, rfl, rfl, rfl⟩
  | some txn => cases faults world.clock <;> exact ⟨rfl, rfl, rfl, rfl, rfl⟩

theorem access_alike (asserted : String) (run : σ → σ × Except MojErr ρ) :
    Alike left (world.access faults asserted run)
      ((world.grown left).access faults asserted run) := by
  rcases world with ⟨⟨count, batch, txn⟩, disk, kinds, states, clock⟩
  unfold World.access World.grown
  cases txn with
  | none => exact ⟨rfl, rfl, rfl, rfl⟩
  | some txn =>
    dsimp only
    cases faults clock <;> exact ⟨rfl, rfl, rfl, rfl⟩

theorem begin_tokenless : Tokenless world (world.begin faults) := by
  unfold World.begin
  dsimp only
  split_ifs
  · cases faults world.clock <;> exact ⟨rfl, rfl, rfl, rfl, rfl⟩
  · exact ⟨rfl, rfl, rfl, rfl, rfl⟩

theorem begin_alike : Alike left (world.begin faults) ((world.grown left).begin faults) := by
  rcases world with ⟨⟨count, batch, txn⟩, disk, kinds, states, clock⟩
  unfold World.begin World.grown
  dsimp only
  split_ifs
  · cases faults clock <;> exact ⟨rfl, rfl, rfl, rfl⟩
  · exact ⟨rfl, rfl, rfl, rfl⟩

theorem commit_tokenless : Tokenless world (world.commit faults) := by
  unfold World.commit
  cases world.txn with
  | none => exact ⟨rfl, rfl, rfl, rfl, rfl⟩
  | some txn => cases faults world.clock <;> exact ⟨rfl, rfl, rfl, rfl, rfl⟩

theorem commit_alike : Alike left (world.commit faults) ((world.grown left).commit faults) := by
  rcases world with ⟨⟨count, batch, txn⟩, disk, kinds, states, clock⟩
  unfold World.commit World.grown
  cases txn with
  | none => exact ⟨rfl, rfl, rfl, rfl⟩
  | some txn =>
    dsimp only
    cases faults clock <;> exact ⟨rfl, rfl, rfl, rfl⟩

theorem finish_tokenless (commitNow : Bool) : Tokenless world (world.finish faults commitNow) := by
  unfold World.finish
  dsimp only
  split_ifs
  · have committed := commit_tokenless faults { world with beginCount := world.beginCount - 1 }
    exact ⟨committed.states, committed.tokens, committed.kinds, committed.rights, committed.watches⟩
  · exact ⟨rfl, rfl, rfl, rfl, rfl⟩
  · exact ⟨rfl, rfl, rfl, rfl, rfl⟩

theorem finish_alike (commitNow : Bool) :
    Alike left (world.finish faults commitNow) ((world.grown left).finish faults commitNow) := by
  rcases world with ⟨⟨count, batch, txn⟩, disk, kinds, states, clock⟩
  unfold World.finish World.grown
  dsimp only
  split_ifs
  · exact commit_alike faults ⟨⟨count - 1, batch, txn⟩, disk, kinds, states, clock⟩ left
  · exact ⟨rfl, rfl, rfl, rfl⟩
  · exact ⟨rfl, rfl, rfl, rfl⟩

theorem endBatch_tokenless : Tokenless world (world.endBatch faults) :=
  have committed := commit_tokenless faults { world with batch := false }
  ⟨committed.states, committed.tokens, committed.kinds, committed.rights, committed.watches⟩

theorem endBatch_alike : Alike left (world.endBatch faults) ((world.grown left).endBatch faults) :=
  commit_alike faults { world with batch := false } left

theorem commitBatch_tokenless : Tokenless world (world.commitBatch faults) := by
  apply (finish_tokenless faults world true).andThen
  intro ended _
  apply (endBatch_tokenless faults ended).andThen
  intro committed _
  have begun := begin_tokenless faults committed.beginBatch
  exact ⟨begun.states, begun.tokens, begun.kinds, begun.rights, begun.watches⟩

theorem commitBatch_alike :
    Alike left (world.commitBatch faults) ((world.grown left).commitBatch faults) := by
  apply (finish_alike faults world left true).andThen
  intro ended _
  apply (endBatch_alike faults ended left).andThen
  intro committed _
  exact begin_alike faults committed.beginBatch left

theorem endRound_tokenless (swept : Swept) : Tokenless world (world.endRound faults swept) := by
  unfold World.endRound
  split_ifs
  · exact commitBatch_tokenless faults world
  · exact ⟨rfl, rfl, rfl, rfl, rfl⟩

theorem endRound_alike (swept : Swept) :
    Alike left (world.endRound faults swept) ((world.grown left).endRound faults swept) := by
  unfold World.endRound
  split_ifs
  · exact commitBatch_alike faults world left
  · exact ⟨rfl, rfl, rfl, rfl⟩

theorem delRounds_tokenless (sweep : Sweep σ) (rounds limit queryLimit : Nat) :
    Tokenless world (world.delRounds faults sweep rounds limit queryLimit) := by
  induction rounds generalizing world limit queryLimit with
  | zero => exact ⟨rfl, rfl, rfl, rfl, rfl⟩
  | succ rounds ih =>
    unfold World.delRounds
    split_ifs
    · exact ⟨rfl, rfl, rfl, rfl, rfl⟩
    · apply (access_tokenless faults world _ _).andThen
      intro _ swept
      apply (endRound_tokenless faults _ swept).andThen
      intro _ _
      split_ifs
      · exact ⟨rfl, rfl, rfl, rfl, rfl⟩
      · exact (ih _ _ _).andThen fun _ _ => ⟨rfl, rfl, rfl, rfl, rfl⟩

theorem delImpl_tokenless (sweep : Sweep σ) (limit : MojUInt32) :
    Tokenless world (world.delImpl faults sweep limit) :=
  delRounds_tokenless faults world sweep _ _ _

theorem delRounds_alike (sweep : Sweep σ) (rounds limit queryLimit : Nat) :
    Alike left (world.delRounds faults sweep rounds limit queryLimit)
      ((world.grown left).delRounds faults sweep rounds limit queryLimit) := by
  induction rounds generalizing world limit queryLimit with
  | zero => exact ⟨rfl, rfl, rfl, rfl⟩
  | succ rounds ih =>
    unfold World.delRounds
    split_ifs
    · exact ⟨rfl, rfl, rfl, rfl⟩
    · apply (access_alike faults world left _ _).andThen
      intro accessed swept
      apply (endRound_alike faults accessed left swept).andThen
      intro ended _
      split_ifs
      · exact ⟨rfl, rfl, rfl, rfl⟩
      · exact (ih ended _ _).andThen fun _ _ => ⟨rfl, rfl, rfl, rfl⟩

end Steps

/-! ### Tokens that are added -/

def Outgrows (before after : MojString → MojDbKindState) : Prop :=
  ∀ kind words, MojDbKindState.Holds words (before kind) →
    ∃ more, MojDbKindState.Holds (words ++ more) (after kind)

theorem Outgrows.refl (states : MojString → MojDbKindState) : Outgrows states states :=
  fun _ words holds => ⟨[], (List.append_nil words).symm ▸ holds⟩

theorem Outgrows.trans {first second third : MojString → MojDbKindState}
    (before : Outgrows first second) (after : Outgrows second third) : Outgrows first third := by
  intro kind words holds
  rcases before kind words holds with ⟨more, grown⟩
  rcases after kind _ grown with ⟨others, last⟩
  exact ⟨more ++ others, List.append_assoc words more others ▸ last⟩

def Tokened (states : MojString → MojDbKindState) : Prop :=
  ∀ kind, ∃ words, MojDbKindState.Holds words (states kind)

theorem Tokened.after {before after : MojString → MojDbKindState} (tokened : Tokened before)
    (outgrows : Outgrows before after) : Tokened after := by
  intro kind
  rcases tokened kind with ⟨words, holds⟩
  rcases outgrows kind words holds with ⟨more, grown⟩
  exact ⟨words ++ more, grown⟩

theorem addProp_outgrows (faults : Faults σ) (world : World σ κ) (kind prop : MojString) :
    Outgrows world.states (world.addProp faults kind prop).world.states := by
  intro other words holds
  by_cases same : other = kind
  · subst same
    unfold World.addProp
    simp only [Function.update_self]
    by_cases known : prop ∈ words
    · rcases List.getElem?_of_mem known with ⟨place, word⟩
      rw [holds.addProp_known word]
      exact ⟨[], (List.append_nil words).symm ▸ holds⟩
    · by_cases full : words.length = 223
      · rw [holds.addProp_full known full]
        exact ⟨[], (List.append_nil words).symm ▸ holds⟩
      · have room : words.length < 223 := lt_of_le_of_ne holds.names.fits full
        rcases holds.addProp_new known room (((faults world.clock).map Cut.write).getD .done)
          (world.disk.tokens other) with ⟨after, added, grown⟩ | ⟨_, err, after, refused, still⟩
        · rw [added]
          exact ⟨[prop], grown⟩
        · rw [refused]
          exact ⟨[], (List.append_nil words).symm ▸ still⟩
  · unfold World.addProp
    simp only [Function.update_of_ne same]
    exact Outgrows.refl world.states other words holds

variable {world : World σ κ}

theorem Tokenless.outgrows (tokenless : Tokenless world ran) :
    Outgrows world.states ran.world.states :=
  tokenless.states ▸ Outgrows.refl _

theorem Ran.andThen_outgrows {states : MojString → MojDbKindState}
    (first : Outgrows states ran.world.states)
    (later : ∀ world reply, Outgrows world.states (next world reply).world.states) :
    Outgrows states (ran.andThen next).world.states := by
  cases result : ran.result with
  | error err =>
    rw [Ran.andThen_error result]
    exact first
  | ok reply =>
    rw [Ran.andThen_ok result]
    exact first.trans (later ran.world reply)

theorem exec_outgrows (faults : Faults σ) (program : Program σ κ ρ) (world : World σ κ) :
    Outgrows world.states (program.exec faults world).world.states := by
  induction program generalizing world with
  | done result => exact Outgrows.refl _
  | look next ih => exact ih world.kinds world
  | access run next ih =>
    exact Ran.andThen_outgrows (access_tokenless faults world _ _).outgrows fun _ txn => ih txn _
  | addProp kind prop next ih =>
    exact Ran.andThen_outgrows (addProp_outgrows faults world kind prop) fun _ token => ih token _
  | watch query next ih => exact Ran.andThen_outgrows (Outgrows.refl _) fun _ _ => ih _
  | putRights perm opMap next ih => exact Ran.andThen_outgrows (Outgrows.refl _) fun _ _ => ih _
  | updateKinds change next ih => exact ih { world with kinds := change world.kinds }
  | begin next ih =>
    exact Ran.andThen_outgrows (begin_tokenless faults world).outgrows fun _ _ => ih _
  | finish commitNow next ih =>
    exact Ran.andThen_outgrows (finish_tokenless faults world commitNow).outgrows fun _ _ => ih _
  | delImpl del limit next ih =>
    exact Ran.andThen_outgrows (delImpl_tokenless faults world _ _).outgrows
      fun _ rounds => ih rounds _

def Answers (words : List MojString) (prop : MojString) (token : Nat) : Prop :=
  (∃ place, words[place]? = some prop ∧ token = tokenStartMarker + place) ∨
    (prop ∉ words ∧ words.length = 223 ∧ token = invalidToken)

theorem Answers.grow {words more : List MojString} {prop : MojString} {token : Nat}
    (answers : Answers words prop token) (fits : (words ++ more).length ≤ 223) :
    Answers (words ++ more) prop token := by
  rcases answers with ⟨place, word, same⟩ | ⟨unknown, full, same⟩
  · left
    refine ⟨place, ?_, same⟩
    rw [List.getElem?_append_left (List.getElem?_eq_some_iff.mp word).1]
    exact word
  · right
    have empty : more = [] := by
      rw [List.length_append, full] at fits
      exact List.length_eq_zero_iff.mp (by omega)
    rw [empty, List.append_nil]
    exact ⟨unknown, full, same⟩

theorem Answers.addPropImpl {words : List MojString} {prop : MojString} {token : Nat}
    (answers : Answers words prop token) {state : MojDbKindState}
    (holds : MojDbKindState.Holds words state) (write : Option TokenWrite)
    (store : Option ByteString) :
    state.addPropImpl prop write store = (.ok ⟨token, [], []⟩, state, store) := by
  rcases answers with ⟨place, word, rfl⟩ | ⟨unknown, full, rfl⟩
  · exact holds.addProp_known word write store
  · exact holds.addProp_full unknown full write store

/-- A property name that got its token gets it again, and so does one that was refused for good. -/
theorem addProp_answers {kind prop : MojString} {token : Nat} (tokened : Tokened world.states)
    (success : (world.addProp faults kind prop).result = .ok token) :
    ∃ words, MojDbKindState.Holds words ((world.addProp faults kind prop).world.states kind) ∧
      Answers words prop token := by
  rcases tokened kind with ⟨words, holds⟩
  unfold World.addProp at success ⊢
  simp only [Function.update_self] at success ⊢
  by_cases known : prop ∈ words
  · rcases List.getElem?_of_mem known with ⟨place, word⟩
    rw [holds.addProp_known word] at success ⊢
    cases success
    exact ⟨words, holds, Or.inl ⟨place, word, rfl⟩⟩
  · by_cases full : words.length = 223
    · rw [holds.addProp_full known full] at success ⊢
      cases success
      exact ⟨words, holds, Or.inr ⟨known, full, rfl⟩⟩
    · have room : words.length < 223 := lt_of_le_of_ne holds.names.fits full
      rcases holds.addProp_new known room (((faults world.clock).map Cut.write).getD .done)
        (world.disk.tokens kind) with ⟨after, added, grown⟩ | ⟨_, err, after, refused, _⟩
      · rw [added] at success ⊢
        cases success
        refine ⟨words ++ [prop], grown, Or.inl ⟨words.length, ?_, rfl⟩⟩
        rw [List.getElem?_concat_length]
      · rw [refused] at success
        cases success

theorem addProp_alike {world left : World σ κ} {kind prop : MojString} {token : Nat}
    (tokened : Tokened world.states)
    (success : (world.addProp faults kind prop).result = .ok token)
    (outgrows : Outgrows (world.addProp faults kind prop).world.states left.states) :
    Alike left (world.addProp faults kind prop) ((world.grown left).addProp .never kind prop) := by
  rcases addProp_answers tokened success with ⟨words, holds, answers⟩
  rcases outgrows kind words holds with ⟨more, grown⟩
  have again := (answers.grow grown.names.fits).addPropImpl grown (some .done)
    (left.disk.tokens kind)
  have uncut : (((Faults.never : Faults σ) (world.grown left).clock).map Cut.write).getD .done =
      .done := rfl
  unfold World.addProp
  rw [uncut]
  have states : (world.grown left).states = left.states := rfl
  have tokens : (world.grown left).disk.tokens = left.disk.tokens := rfl
  simp only [states, tokens, again, Function.update_eq_self]
  unfold World.addProp at success
  exact ⟨success.symm, rfl, rfl, rfl⟩

/-- A property name whose record could not be written gets the token it would have got. -/
theorem addProp_retried {state : MojDbKindState} {words : List MojString} {prop : MojString}
    (holds : MojDbKindState.Holds words state) (unknown : prop ∉ words)
    (room : words.length < 223) (cut : Cut σ) (store : Option ByteString) :
    (state.addPropImpl prop (some cut.write) store).2.2 = store ∧
      (state.addPropImpl prop (some cut.write) store).2.1.addPropImpl prop (some .done) store =
        state.addPropImpl prop (some .done) store := by
  have next : state.nextToken < 255 := by
    rw [holds.next]
    unfold tokenStartMarker
    omega
  have got := holds.names.getToken_none unknown
  rcases holds.old with ⟨earlier, recorded⟩
  rcases recorded.obj with ⟨obj, read, bytes⟩
  have names := (holds.grow unknown room ⟨earlier, recorded⟩).names
  unfold Cut.write
  split_ifs
  · rcases MojDbKindState.recorded_orElse names recorded with ⟨last, again⟩
    rcases again.obj with ⟨kept, readAgain, bytesAgain⟩
    simp only [MojDbKindState.addPropImpl, got, if_pos next, MojDbKindState.writeTokens, read,
      bytes, readAgain, bytesAgain]
    cases state.oldTokensItem with
    | none => exact ⟨trivial, rfl⟩
    | some item => exact ⟨trivial, rfl⟩
  · simp only [MojDbKindState.addPropImpl, got, if_pos next, MojDbKindState.writeTokens, read,
      bytes]
    exact ⟨trivial, trivial⟩

theorem addProp_again {kind prop : MojString} {err : MojErr} (tokened : Tokened world.states)
    (failed : (world.addProp faults kind prop).result = .error err) :
    (world.grown (world.addProp faults kind prop).world).addProp .never kind prop =
      world.addProp .never kind prop := by
  rcases tokened kind with ⟨words, holds⟩
  have stopped : prop ∉ words ∧ words.length < 223 ∧ ∃ cut, faults world.clock = some cut := by
    unfold World.addProp at failed
    dsimp only at failed
    by_cases known : prop ∈ words
    · rcases List.getElem?_of_mem known with ⟨place, word⟩
      rw [holds.addProp_known word] at failed
      cases failed
    · by_cases full : words.length = 223
      · rw [holds.addProp_full known full] at failed
        cases failed
      · have room : words.length < 223 := lt_of_le_of_ne holds.names.fits full
        refine ⟨known, room, ?_⟩
        cases uncut : faults world.clock with
        | some cut => exact ⟨cut, rfl⟩
        | none =>
          rcases holds.addProp_new known room .done (world.disk.tokens kind) with
            ⟨after, added, _⟩ | ⟨impossible, _⟩
          · simp only [uncut, Option.map_none, Option.getD_none, added] at failed
            cases failed
          · exact absurd rfl impossible
  rcases stopped with ⟨unknown, room, cut, fails⟩
  rcases addProp_retried holds unknown room cut (world.disk.tokens kind) with ⟨unwritten, again⟩
  have left : (world.addProp faults kind prop).world.states = Function.update world.states kind
      ((world.states kind).addPropImpl prop (some cut.write) (world.disk.tokens kind)).2.1 ∧
      (world.addProp faults kind prop).world.disk.tokens = world.disk.tokens := by
    unfold World.addProp
    simp only [fails, Option.map_some, Option.getD_some, unwritten, Function.update_eq_self]
    exact ⟨trivial, trivial⟩
  unfold World.grown
  rw [left.1, left.2]
  unfold World.addProp World.tick Faults.never
  simp only [Option.map_none, Option.getD_none, Function.update_self, again, Function.update_idem]

/-! ### Programs -/

/-- A run that fails, one that nothing disturbs, and one that comes after the first. -/
structure Again (first alone again : Ran σ κ ρ) : Prop where
  result : again.result = alone.result
  world : again.world = alone.world
  rights : again.rights = alone.rights
  watches : again.watches = alone.watches
  begun : first.rights <+: alone.rights

theorem Again.andThen (step stepNever : World σ κ → Ran σ κ ρ)
    {next nextNever : World σ κ → ρ → Ran σ κ ρ'}
    (never : ∀ reply, (step world).result = .ok reply → stepNever world = step world)
    (failed : ∀ err, (step world).result = .error err → (step world).rights = [] ∧
      stepNever (world.grown (step world).world) = stepNever world)
    (alike : ∀ reply, (step world).result = .ok reply →
      Alike ((step world).andThen next).world (step world)
        (stepNever (world.grown ((step world).andThen next).world)))
    (later : ∀ reply, (step world).result = .ok reply →
      Again (next (step world).world reply) (nextNever (step world).world reply)
        (nextNever ((step world).world.grown (next (step world).world reply).world) reply)) :
    Again ((step world).andThen next) ((stepNever world).andThen nextNever)
      ((stepNever (world.grown ((step world).andThen next).world)).andThen nextNever) := by
  cases result : (step world).result with
  | error err =>
    rcases failed err result with ⟨rights, same⟩
    have left : ((step world).andThen next).world = (step world).world := by
      rw [Ran.andThen_error result]
    rw [left, same]
    refine ⟨rfl, rfl, rfl, rfl, ?_⟩
    rw [Ran.andThen_error result, rights]
    exact List.nil_prefix
  | ok reply =>
    have same := alike reply result
    have rest := later reply result
    have left : ((step world).andThen next).world = (next (step world).world reply).world := by
      rw [Ran.andThen_ok result]
    rw [left] at same ⊢
    rw [never reply result, Ran.andThen_ok (same.result.trans result), Ran.andThen_ok result,
      Ran.andThen_ok result, same.world]
    refine ⟨rest.result, rest.world, congrArg₂ _ same.rights rest.rights,
      congrArg₂ _ same.watches rest.watches, ?_⟩
    exact (List.prefix_append_right_inj _).mpr rest.begun

theorem Again.ofTokenless (step stepNever : World σ κ → Ran σ κ ρ)
    {next nextNever : World σ κ → ρ → Ran σ κ ρ'} (tokenless : Tokenless world (step world))
    (never : ∀ reply, (step world).result = .ok reply → stepNever world = step world)
    (alike : ∀ left, Alike left (stepNever world) (stepNever (world.grown left)))
    (later : ∀ reply, (step world).result = .ok reply →
      Again (next (step world).world reply) (nextNever (step world).world reply)
        (nextNever ((step world).world.grown (next (step world).world reply).world) reply)) :
    Again ((step world).andThen next) ((stepNever world).andThen nextNever)
      ((stepNever (world.grown ((step world).andThen next).world)).andThen nextNever) := by
  apply Again.andThen step stepNever never
  · intro err _
    have same : world.grown (step world).world = world := by
      unfold World.grown
      rw [tokenless.states, tokenless.tokens]
    exact ⟨tokenless.rights, by rw [same]⟩
  · intro reply success
    rw [← never reply success]
    exact alike _
  · exact later

theorem exec_again (faults : Faults σ) (program : Program σ κ ρ) (tokened : Tokened world.states) :
    Again (program.exec faults world) (program.exec .never world)
      (program.exec .never (world.grown (program.exec faults world).world)) := by
  induction program generalizing world with
  | done result => exact ⟨rfl, rfl, rfl, rfl, List.prefix_rfl⟩
  | look next ih => exact ih world.kinds tokened
  | access run next ih =>
    apply Again.ofTokenless (fun world => world.access faults _ _)
      (fun world => world.access .never _ _) (access_tokenless faults world _ _)
      fun _ success => access_never success
    · intro left
      exact access_alike .never world left _ _
    · intro txn _
      exact ih txn (tokened.after (access_tokenless faults world _ _).outgrows)
  | addProp kind prop next ih =>
    apply Again.andThen (fun world => world.addProp faults kind prop)
      (fun world => world.addProp .never kind prop) fun _ success => addProp_never success
    · intro err failed
      exact ⟨rfl, addProp_again tokened failed⟩
    · intro token success
      apply addProp_alike tokened success
      rw [Ran.andThen_ok success]
      exact exec_outgrows faults (next token) _
    · intro token _
      exact ih token (tokened.after (addProp_outgrows faults world kind prop))
  | watch query next ih =>
    have rest := ih tokened
    exact ⟨rest.result, rest.world, rest.rights, congrArg (query :: ·) rest.watches, rest.begun⟩
  | putRights perm opMap next ih =>
    have rest := ih tokened
    exact ⟨rest.result, rest.world, congrArg ((perm, opMap) :: ·) rest.rights, rest.watches,
      (List.prefix_cons_inj _).mpr rest.begun⟩
  | updateKinds change next ih =>
    exact @ih { world with kinds := change world.kinds } tokened
  | begin next ih =>
    apply Again.ofTokenless (fun world => world.begin faults) (fun world => world.begin .never)
      (begin_tokenless faults world) fun _ success => begin_never success
    · intro left
      exact begin_alike .never world left
    · intro _ _
      exact ih (tokened.after (begin_tokenless faults world).outgrows)
  | finish commitNow next ih =>
    apply Again.ofTokenless (fun world => world.finish faults commitNow)
      (fun world => world.finish .never commitNow) (finish_tokenless faults world commitNow)
      fun _ success => finish_never success
    · intro left
      exact finish_alike .never world left commitNow
    · intro _ _
      exact ih (tokened.after (finish_tokenless faults world commitNow).outgrows)
  | delImpl del limit next ih =>
    apply Again.ofTokenless (fun world => world.delImpl faults del.sweep limit)
      (fun world => world.delImpl .never del.sweep limit)
      (delImpl_tokenless faults world _ _) fun _ success => delRounds_never success
    · intro left
      exact delRounds_alike .never world left _ _ _ _
    · intro rounds _
      exact ih rounds (tokened.after (delImpl_tokenless faults world _ _).outgrows)

theorem Ran.andThen_kinds {kinds : κ} (first : ran.world.kinds = kinds)
    (later : ∀ world reply, (next world reply).world.kinds = world.kinds) :
    (ran.andThen next).world.kinds = kinds := by
  cases result : ran.result with
  | error err =>
    rw [Ran.andThen_error result]
    exact first
  | ok reply =>
    rw [Ran.andThen_ok result]
    exact (later ran.world reply).trans first

theorem exec_kinds (faults : Faults σ) {program : Program σ κ ρ} (keeps : program.KeepsKinds)
    (world : World σ κ) : (program.exec faults world).world.kinds = world.kinds := by
  induction program generalizing world with
  | done result => rfl
  | look next ih => exact ih world.kinds (keeps _) world
  | access run next ih =>
    apply Ran.andThen_kinds (access_tokenless faults world _ _).kinds
    exact fun after txn => ih txn (keeps txn) after
  | addProp kind prop next ih =>
    apply Ran.andThen_kinds rfl
    exact fun after token => ih token (keeps token) after
  | watch query next ih => exact ih keeps world
  | putRights perm opMap next ih => exact ih keeps world
  | updateKinds change next ih => exact keeps.elim
  | begin next ih =>
    exact Ran.andThen_kinds (begin_tokenless faults world).kinds fun after _ => ih keeps after
  | finish commitNow next ih =>
    exact Ran.andThen_kinds (finish_tokenless faults world commitNow).kinds
      fun after _ => ih keeps after
  | delImpl del limit next ih =>
    apply Ran.andThen_kinds (delImpl_tokenless faults world _ _).kinds
    exact fun after rounds => ih rounds (keeps rounds) after

/-! ### Conditions on the steps -/

theorem Ran.onward_andThen {holds : World σ κ → ρ' → Prop} :
    (ran.andThen next).Onward holds ↔ ran.Onward fun world reply => (next world reply).Onward holds := by
  cases result : ran.result with
  | error err =>
    rw [Ran.andThen_error result]
    unfold Ran.Onward
    simp [result]
  | ok reply =>
    rw [Ran.andThen_ok result]
    unfold Ran.Onward
    simp [result]

theorem Ran.onward_and {holds others : World σ κ → ρ → Prop} :
    (ran.Onward fun world reply => holds world reply ∧ others world reply) ↔
      ran.Onward holds ∧ ran.Onward others := by
  unfold Ran.Onward
  rw [← forall_and]
  exact forall_congr' fun reply => imp_and

theorem Ran.onward_congr {holds others : World σ κ → ρ → Prop}
    (same : ∀ reply, holds ran.world reply ↔ others ran.world reply) :
    ran.Onward holds ↔ ran.Onward others :=
  forall_congr' fun reply => imp_congr_right fun _ => same reply

theorem Program.throughout_bind (faults : Faults σ) (meets : Conditions σ κ)
    (program : Program σ κ ρ) (after : ρ → Program σ κ ρ') (world : World σ κ) :
    (program.bind after).Throughout faults meets world ↔
      program.Throughout faults meets world ∧ (program.exec faults world).Onward fun world reply =>
        (after reply).Throughout faults meets world := by
  induction program generalizing world with
  | done result =>
    cases result with
    | error err => simp [Program.bind, Program.Throughout, Program.exec, Ran.Onward, Ran.stop]
    | ok reply => simp [Program.bind, Program.Throughout, Program.exec, Ran.Onward, Ran.stop]
  | look next ih => exact ih world.kinds world
  | access run next ih =>
    rw [Program.bind, Program.Throughout, Program.Throughout, Program.exec, Ran.onward_andThen,
      ← Ran.onward_and]
    exact Ran.onward_congr fun txn => ih txn _
  | addProp kind prop next ih =>
    rw [Program.bind, Program.Throughout, Program.Throughout, Program.exec, Ran.onward_andThen,
      and_assoc, ← Ran.onward_and]
    exact and_congr_right fun _ => Ran.onward_congr fun token => ih token _
  | watch query next ih =>
    rw [Program.bind, Program.Throughout, Program.Throughout, Program.exec, Ran.onward_andThen,
      and_assoc, ih]
    apply and_congr_right
    intro _
    simp [Ran.Onward]
  | putRights perm opMap next ih =>
    rw [Program.bind, Program.Throughout, Program.Throughout, Program.exec, Ran.onward_andThen, ih]
    simp [Ran.Onward]
  | updateKinds change next ih => exact ih { world with kinds := change world.kinds }
  | begin next ih =>
    rw [Program.bind, Program.Throughout, Program.Throughout, Program.exec, Ran.onward_andThen,
      ← Ran.onward_and]
    exact Ran.onward_congr fun _ => ih _
  | finish commitNow next ih =>
    rw [Program.bind, Program.Throughout, Program.Throughout, Program.exec, Ran.onward_andThen,
      ← Ran.onward_and]
    exact Ran.onward_congr fun _ => ih _
  | delImpl del limit next ih =>
    rw [Program.bind, Program.Throughout, Program.Throughout, Program.exec, Ran.onward_andThen,
      and_assoc, ← Ran.onward_and]
    exact and_congr_right fun _ => Ran.onward_congr fun rounds => ih rounds _

def unwatched : Conditions σ κ where
  addProp _ _ _ := True
  watch _ _ := False
  delImpl _ _ _ := True

theorem Ran.andThen_watches (first : ran.watches = []) :
    (ran.andThen next).watches = [] ↔ ran.Onward fun world reply => (next world reply).watches = [] := by
  cases result : ran.result with
  | error err =>
    rw [Ran.andThen_error result]
    unfold Ran.Onward
    simp [result, first]
  | ok reply =>
    rw [Ran.andThen_ok result]
    unfold Ran.Onward
    simp [result, first]

theorem exec_watches (faults : Faults σ) (program : Program σ κ ρ) (world : World σ κ) :
    (program.exec faults world).watches = [] ↔ program.Throughout faults unwatched world := by
  induction program generalizing world with
  | done result => simp [Program.exec, Ran.stop, Program.Throughout]
  | look next ih => exact ih world.kinds world
  | access run next ih =>
    rw [Program.exec, Ran.andThen_watches (access_tokenless faults world _ _).watches, Program.Throughout]
    exact Ran.onward_congr fun txn => ih txn _
  | addProp kind prop next ih =>
    rw [Program.exec, Ran.andThen_watches rfl, Program.Throughout]
    apply Iff.trans _ (and_iff_right trivial).symm
    exact Ran.onward_congr fun token => ih token _
  | watch query next ih => simp [Program.exec, Ran.andThen, Program.Throughout, unwatched]
  | putRights perm opMap next ih => exact ih world
  | updateKinds change next ih => exact ih { world with kinds := change world.kinds }
  | begin next ih =>
    rw [Program.exec, Ran.andThen_watches (begin_tokenless faults world).watches, Program.Throughout]
    exact Ran.onward_congr fun _ => ih _
  | finish commitNow next ih =>
    rw [Program.exec, Ran.andThen_watches (finish_tokenless faults world commitNow).watches,
      Program.Throughout]
    exact Ran.onward_congr fun _ => ih _
  | delImpl del limit next ih =>
    rw [Program.exec, Ran.andThen_watches (delImpl_tokenless faults world del.sweep limit).watches,
      Program.Throughout]
    apply Iff.trans _ (and_iff_right trivial).symm
    exact Ran.onward_congr fun rounds => ih rounds _

end Db8.Luna
