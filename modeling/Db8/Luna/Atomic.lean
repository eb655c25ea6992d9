import Db8.Db.DelDurable
import Db8.Luna.Request

/-!
# Requests as units

A request that fails should leave nothing and one that succeeds should commit all it did at its
end. Three things stand in the way: the full rounds of query deletions, which commit from the inside
of the batch they run in, the record of the tokens, which is committed as soon as a property has a
new name, and a commit that fails half way.
-/

set_option autoImplicit false

namespace Db8.Luna

open Db8.Core
open Db8.Db
open Db8.Db.MojDb

variable {σ κ ρ ρ' : Type*} {faults : Faults σ}

/-! ### Steps that commit nothing -/

structure Keeps (before : World σ κ) (ran : Ran σ κ ρ) : Prop where
  commits : ran.commits = []
  disk : ran.world.disk = before.disk
  batch : ran.world.batch = before.batch

namespace Keeps

variable {before : World σ κ}

theorem stop {world : World σ κ} (disk : world.disk = before.disk)
    (batch : world.batch = before.batch) (result : Except MojErr ρ) :
    Keeps before (Ran.stop world result) := ⟨rfl, disk, batch⟩

theorem andThen {ran : Ran σ κ ρ} {next : World σ κ → ρ → Ran σ κ ρ'} (keeps : Keeps before ran)
    (later : ran.Onward fun world reply => Keeps world (next world reply)) :
    Keeps before (ran.andThen next) := by
  unfold Ran.andThen
  cases result : ran.result with
  | error err => exact ⟨keeps.commits, keeps.disk, keeps.batch⟩
  | ok reply =>
    have rest := later reply result
    refine ⟨?_, rest.disk.trans keeps.disk, rest.batch.trans keeps.batch⟩
    simp only [keeps.commits, rest.commits, List.append_nil]

end Keeps

theorem access_keeps (faults : Faults σ) (world : World σ κ) (running : String)
    (run : σ → σ × Except MojErr ρ) : Keeps world (world.access faults running run) := by
  unfold World.access
  cases world.txn with
  | none => exact ⟨rfl, rfl, rfl⟩
  | some txn =>
    cases faults world.clock with
    | none => exact ⟨rfl, rfl, rfl⟩
    | some cut => exact ⟨rfl, rfl, rfl⟩

theorem begin_keeps (faults : Faults σ) (world : World σ κ) : Keeps world (world.begin faults) := by
  unfold World.begin
  dsimp only
  split_ifs
  · cases faults world.clock with
    | none => exact ⟨rfl, rfl, rfl⟩
    | some cut => exact ⟨rfl, rfl, rfl⟩
  · exact ⟨rfl, rfl, rfl⟩

variable {world : World σ κ}

theorem finish_keeps (faults : Faults σ) (batch : world.batch = true) (commitNow : Bool) :
    Keeps world (world.finish faults commitNow) := by
  unfold World.finish
  dsimp only
  rw [if_neg (by simp [batch])]
  exact ⟨rfl, rfl, rfl⟩

def Known (state : MojDbKindState) (prop : MojString) : Prop :=
  MojDbKindState.getToken state.tokensObj prop = .ok none → 255 ≤ state.nextToken

theorem addPropImpl_known {state : MojDbKindState} {prop : MojString} (known : Known state prop)
    (write : Option TokenWrite) (store : Option Bytes.ByteString) :
    (state.addPropImpl prop write store).2 = (state, store) := by
  unfold MojDbKindState.addPropImpl
  cases got : MojDbKindState.getToken state.tokensObj prop with
  | error err => rfl
  | ok found =>
    cases found with
    | none =>
      simp only
      rw [if_neg (not_lt.mpr (known got))]
    | some token =>
      simp only
      cases mojAssert (decide (token ≤ 255)) "token <= MojUInt8Max" <;> rfl

theorem addPropImpl_unwritten (state : MojDbKindState) (prop : MojString) {write : TokenWrite}
    (unwritten : write ≠ .done) (store : Option Bytes.ByteString) :
    (state.addPropImpl prop (some write) store).2.2 = store := by
  unfold MojDbKindState.addPropImpl
  cases MojDbKindState.getToken state.tokensObj prop with
  | error err => rfl
  | ok found =>
    cases found with
    | some token =>
      simp only
      cases mojAssert (decide (token ≤ 255)) "token <= MojUInt8Max" <;> rfl
    | none =>
      simp only
      split_ifs
      · simp only [MojDbKindState.writeTokens]
        cases MojDbKindState.recordObj state.oldTokensItem with
        | error err => rfl
        | ok obj =>
          cases write with
          | done => exact absurd rfl unwritten
          | refused err => rfl
          | lost err => rfl
      · rfl

theorem Cut.write_ne_done (cut : Cut σ) : cut.write ≠ .done := by
  unfold Cut.write
  split_ifs <;> simp

def Unwritten (faults : Faults σ) (world : World σ κ) (kind prop : MojString) : Prop :=
  Known (world.states kind) prop ∨ faults world.clock ≠ none

theorem addProp_keeps {kind prop : MojString} (unwritten : Unwritten faults world kind prop) :
    Keeps world (world.addProp faults kind prop) := by
  have same : ((world.states kind).addPropImpl prop
      (some (((faults world.clock).map Cut.write).getD .done)) (world.disk.tokens kind)).2.2 =
        world.disk.tokens kind := by
    rcases unwritten with known | cut
    · rw [addPropImpl_known known]
    · cases fails : faults world.clock with
      | none => exact absurd fails cut
      | some cut => exact addPropImpl_unwritten _ _ cut.write_ne_done _
  unfold World.addProp
  dsimp only
  rw [same, if_pos rfl, Function.update_eq_self]
  exact ⟨rfl, rfl, rfl⟩

/-! ### Query deletions -/

/-- A first round that nothing stops and that counts a full batch. -/
structure FullRound (faults : Faults σ) (del : DelQuery σ) (limit : MojUInt32) (clock : Nat)
    (txn : σ) : Prop where
  room : autoBatchSize ≤ firstLimit limit
  many : autoBatchSize ≤ del.most txn
  uncut : faults clock = none
  done : ∃ swept, (del.sweep (firstLimit limit) txn).2 = .ok swept

def Unfilled (faults : Faults σ) (world : World σ κ) (del : DelQuery σ) (limit : MojUInt32) : Prop :=
  ∀ txn, world.txn = some txn → ¬ FullRound faults del limit world.clock txn

theorem access_txn {asserted : String} {run : σ → σ × Except MojErr ρ} {reply : ρ}
    (success : (world.access faults asserted run).result = .ok reply) :
    ∃ txn, world.txn = some txn ∧ faults world.clock = none ∧ (run txn).2 = .ok reply ∧
      world.access faults asserted run =
        Ran.stop { world.tick with txn := some (run txn).1 } (.ok reply) := by
  unfold World.access at success ⊢
  cases running : world.txn with
  | none =>
    rw [running] at success
    cases success
  | some txn =>
    rw [running] at success
    cases uncut : faults world.clock with
    | some cut =>
      rw [uncut] at success
      cases success
    | none =>
      rw [uncut] at success
      have done : (run txn).2 = .ok reply := success
      refine ⟨txn, rfl, rfl, done, ?_⟩
      simp only [done]

theorem endRound_part (world : World σ κ) {swept : Swept}
    (part : ¬ autoBatchSize ≤ swept.numberInBatch) :
    world.endRound faults swept = Ran.stop world (.ok ()) := if_neg part

/-- Rounds that have too little room, or too few objects to meet, commit nothing. -/
theorem delRounds_keeps (del : DelQuery σ) {left limit queryLimit : Nat}
    (small : ∀ txn, world.txn = some txn →
      del.most txn < autoBatchSize ∨ (limit < autoBatchSize ∧ limit = queryLimit) ∨
        faults world.clock ≠ none ∨ ∃ err, (del.sweep limit txn).2 = .error err) :
    Keeps world (world.delRounds faults del.sweep left limit queryLimit) := by
  induction left generalizing limit queryLimit world with
  | zero => exact Keeps.stop rfl rfl _
  | succ left ih =>
    unfold World.delRounds
    split_ifs with ended
    · exact Keeps.stop rfl rfl _
    · apply (access_keeps faults world _ (del.sweep limit)).andThen
      intro swept success
      rcases access_txn success with ⟨txn, running, uncut, done, ran⟩
      rw [ran]
      have round : del.sweep limit txn = ((del.sweep limit txn).1, .ok swept) := by rw [← done]
      rcases del.bounded round with ⟨below, most, shrunk⟩
      have few : del.most txn < autoBatchSize ∨ (limit < autoBatchSize ∧ limit = queryLimit) := by
        rcases small txn running with few | alone | cut | ⟨err, failed⟩
        · exact Or.inl few
        · exact Or.inr alone
        · exact absurd uncut cut
        · rw [done] at failed
          cases failed
      have part : ¬ autoBatchSize ≤ swept.numberInBatch := by omega
      rw [endRound_part _ part]
      apply (Keeps.stop rfl rfl _).andThen
      intro _ _
      dsimp only [Ran.stop]
      split_ifs with counted
      · exact Keeps.stop rfl rfl _
      · refine Keeps.andThen ?_ (fun _ _ => ⟨rfl, rfl, rfl⟩)
        rcases few with few | ⟨_, alone⟩
        · apply ih
          intro next same
          rw [← Option.some.inj same]
          exact Or.inl (by omega)
        · have spent : queryLimit - limit = 0 := by omega
          rw [spent]
          cases left with
          | zero => exact Keeps.stop rfl rfl _
          | succ left =>
            unfold World.delRounds
            rw [if_pos rfl]
            exact Keeps.stop rfl rfl _

theorem firstLimit_eq {limit : MojUInt32} (less : firstLimit limit < autoBatchSize) :
    firstLimit limit = limit.toNat := by
  unfold firstLimit at less ⊢
  split_ifs at less ⊢ with default
  · exact absurd less (lt_irrefl _)
  · rfl

theorem delImpl_keeps {del : DelQuery σ} {limit : MojUInt32}
    (unfilled : Unfilled faults world del limit) :
    Keeps world (world.delImpl faults del.sweep limit) := by
  apply delRounds_keeps
  intro txn running
  by_cases room : firstLimit limit < autoBatchSize
  · exact Or.inr (Or.inl ⟨room, firstLimit_eq room⟩)
  · by_cases few : del.most txn < autoBatchSize
    · exact Or.inl few
    · right
      right
      by_cases uncut : faults world.clock = none
      · right
        cases done : (del.sweep (firstLimit limit) txn).2 with
        | error err => exact ⟨err, rfl⟩
        | ok swept =>
          exact absurd ⟨not_lt.mp room, not_lt.mp few, uncut, swept, done⟩ (unfilled txn running)
      · exact Or.inl uncut

/-! ### Programs -/

def quiet (faults : Faults σ) : Conditions σ κ where
  addProp := Unwritten faults
  watch _ _ := True
  delImpl := Unfilled faults

theorem exec_keeps (program : Program σ κ ρ) (batch : world.batch = true)
    (steps : program.Throughout faults (quiet faults) world) :
    Keeps world (program.exec faults world) := by
  induction program generalizing world with
  | done result => exact Keeps.stop rfl rfl _
  | look next ih => exact ih world.kinds batch steps
  | access run next ih =>
    have keeps := access_keeps faults world "req.txn()" fun txn => (run txn, .ok txn)
    apply keeps.andThen
    intro txn success
    exact ih txn (keeps.batch.trans batch) (steps txn success)
  | addProp kind prop next ih =>
    have keeps := addProp_keeps steps.1
    apply keeps.andThen
    intro token success
    exact ih token (keeps.batch.trans batch) (steps.2 token success)
  | watch query next ih =>
    exact Keeps.andThen ⟨rfl, rfl, rfl⟩ fun _ _ => ih batch steps.2
  | putRights perm opMap next ih =>
    exact Keeps.andThen ⟨rfl, rfl, rfl⟩ fun _ _ => ih batch steps
  | updateKinds change next ih =>
    have changed : ({ world with kinds := change world.kinds } : World σ κ).batch = true := batch
    have rest := ih changed steps
    exact ⟨rest.commits, rest.disk, rest.batch⟩
  | begin next ih =>
    have keeps := begin_keeps faults world
    apply keeps.andThen
    intro _ success
    exact ih (keeps.batch.trans batch) (steps _ success)
  | finish commitNow next ih =>
    have keeps := finish_keeps faults batch commitNow
    apply keeps.andThen
    intro _ success
    exact ih (keeps.batch.trans batch) (steps _ success)
  | delImpl del limit next ih =>
    have keeps := delImpl_keeps steps.1
    apply keeps.andThen
    intro rounds success
    exact ih rounds (keeps.batch.trans batch) (steps.2 rounds success)

/-- A change of the kind engine that fails is aborted, and none is committed by itself. -/
theorem commitKind_keeps {before : World σ κ} {ran : Ran σ κ Unit} (keeps : Keeps before ran)
    (batch : before.batch = true) (reload : σ → κ → κ) :
    (commitKind faults reload ran).commits = [] ∧
      (commitKind faults reload ran).world.disk = before.disk := by
  unfold commitKind
  cases result : ran.result with
  | error err => exact ⟨keeps.commits, keeps.disk⟩
  | ok _ =>
    have ended : Keeps before (ran.andThen fun world _ => world.finish faults true) :=
      keeps.andThen fun _ _ => finish_keeps faults (keeps.batch.trans batch) true
    exact ⟨ended.commits, ended.disk⟩

theorem andThen_still {disk : Disk σ} {ran : Ran σ κ ρ} {next : World σ κ → ρ → Ran σ κ ρ'}
    (commits : ran.commits = []) (same : ran.world.disk = disk)
    (later : ran.Onward fun world reply =>
      (next world reply).commits = [] ∧ (next world reply).world.disk = world.disk) :
    (ran.andThen next).commits = [] ∧ (ran.andThen next).world.disk = disk := by
  unfold Ran.andThen
  cases result : ran.result with
  | error err => exact ⟨commits, same⟩
  | ok reply =>
    rcases later reply result with ⟨none, still⟩
    exact ⟨by simp only [commits, none, List.append_nil], still.trans same⟩

/-- A request whose steps commit nothing leaves the disk as it was until it ends. -/
theorem handle_keeps (request : Request σ κ ρ) (batch : world.batch = true)
    (steps : request.Throughout faults (quiet faults) world) :
    (request.handle faults world).commits = [] ∧
      (request.handle faults world).world.disk = world.disk := by
  cases request with
  | batch ops =>
    have keeps := exec_keeps (handleBatch ops) batch steps
    exact ⟨keeps.commits, keeps.disk⟩
  | putPermissions puts replySuccess =>
    have keeps := exec_keeps (handlePutPermissions puts replySuccess) batch steps
    exact ⟨keeps.commits, keeps.disk⟩
  | kind request =>
    have before := exec_keeps request.before batch steps.1
    apply andThen_still before.commits before.disk
    intro found result
    have inBatch := before.batch.trans batch
    cases found with
    | false =>
      have ended := finish_keeps faults inBatch true
      rw [if_neg Bool.false_ne_true]
      apply andThen_still ended.commits ended.disk
      intro _ _
      exact ⟨rfl, rfl⟩
    | true =>
      have change := exec_keeps request.change inBatch (steps.2 true result rfl)
      rcases commitKind_keeps change inBatch request.reload with ⟨commits, disk⟩
      rw [if_pos rfl]
      apply andThen_still commits disk
      intro _ _
      exact ⟨rfl, rfl⟩

/-! ### Steps that show -/

def Shows (disk : Disk σ) (ran : Ran σ κ ρ) : Prop := ∃ left ∈ ran.commits, left ≠ disk

namespace Shows

variable {disk : Disk σ} {ran : Ran σ κ ρ} {next : World σ κ → ρ → Ran σ κ ρ'}

theorem andThen (shows_ : Shows disk ran) : Shows disk (ran.andThen next) := by
  rcases shows_ with ⟨left, member, different⟩
  refine ⟨left, ?_, different⟩
  unfold Ran.andThen
  cases ran.result with
  | error err => exact member
  | ok reply => exact List.mem_append_left _ member

theorem later {reply : ρ} (success : ran.result = .ok reply)
    (shows_ : Shows disk (next ran.world reply)) : Shows disk (ran.andThen next) := by
  rcases shows_ with ⟨left, member, different⟩
  refine ⟨left, ?_, different⟩
  unfold Ran.andThen
  rw [success]
  exact List.mem_append_right _ member

end Shows

def DelQuery.Plain (del : DelQuery σ) : Prop :=
  ∀ {limit txn after swept}, del.sweep limit txn = (after, .ok swept) →
    swept.numberInBatch = min limit (del.most txn) ∧
      del.most after + swept.numberInBatch = del.most txn

/-- The record of a kind holds the words its state knows. -/
def InStep (world : World σ κ) (kind : MojString) : Prop :=
  ∃ words, MojDbKindState.Holds words (world.states kind) ∧
    MojDbKindState.Recorded words (world.disk.tokens kind)

/-- What a step commits can be told from what was there: the records are those of the tokens, and
fewer than a thousand of the objects that a deletion meets are the request's own. -/
def exposed (faults : Faults σ) : Conditions σ κ where
  addProp world kind _ := InStep world kind
  watch _ _ := True
  delImpl world del _ := del.Plain ∧ faults (world.clock + 1) = none ∧
    ∀ txn, world.txn = some txn → del.most txn < del.most world.disk.data + autoBatchSize

theorem addProp_shows {kind prop : MojString} (inStep : InStep world kind)
    (written : ¬ Unwritten faults world kind prop) :
    Shows world.disk (world.addProp faults kind prop) := by
  rcases inStep with ⟨words, holds, recorded⟩
  rcases not_or.mp written with ⟨unknown, uncut⟩
  rcases Classical.not_imp.mp unknown with ⟨missing, room⟩
  have uncut := not_not.mp uncut
  have absent : prop ∉ words := by
    intro member
    rcases List.mem_iff_getElem?.mp member with ⟨place, word⟩
    rw [holds.names.getToken_word word] at missing
    cases missing
  have short : words.length < 223 := by
    have next := holds.next
    unfold tokenStartMarker at next
    omega
  rcases holds.addProp_new absent short .done (world.disk.tokens kind) with
    ⟨after, added, grown⟩ | ⟨refused, _⟩
  · have changed : some (MojDbKindState.record after.tokensObj) ≠ world.disk.tokens kind := by
      intro same
      rw [← same] at recorded
      rcases recorded with ⟨kept, names, bytes⟩
      have read := names.recordObj_record
      rw [← bytes, grown.names.recordObj_record] at read
      have equal : after.tokensObj = kept := by
        simpa using read
      have found := grown.names.getToken_word
        (show (words ++ [prop])[words.length]? = some prop by simp)
      rw [equal, names.getToken_none absent] at found
      cases found
    unfold World.addProp Shows
    rw [uncut]
    simp only [Option.map_none, Option.getD_none, added]
    rw [if_neg changed]
    refine ⟨_, List.mem_singleton_self _, ?_⟩
    intro same
    have tokens := congrFun (congrArg Disk.tokens same) kind
    simp only [Function.update_self] at tokens
    exact changed tokens
  · exact absurd rfl refused

theorem delImpl_shows {del : DelQuery σ} {limit : MojUInt32} (batch : world.batch = true)
    (plain : del.Plain) (uncut : faults (world.clock + 1) = none)
    (own : ∀ txn, world.txn = some txn → del.most txn < del.most world.disk.data + autoBatchSize)
    (filled : ¬ Unfilled faults world del limit) :
    Shows world.disk (world.delImpl faults del.sweep limit) := by
  unfold Unfilled at filled
  push Not at filled
  rcases filled with ⟨txn, running, full⟩
  rcases full.done with ⟨swept, done⟩
  have round : del.sweep (firstLimit limit) txn =
      ((del.sweep (firstLimit limit) txn).1, .ok swept) := by rw [← done]
  rcases plain round with ⟨counted, rest⟩
  have few := own txn running
  have room := full.room
  have many := full.many
  have whole : autoBatchSize ≤ swept.numberInBatch := by omega
  have changed : (del.sweep (firstLimit limit) txn).1 ≠ world.disk.data := by
    intro same
    rw [same] at rest
    omega
  have going : limit.toNat ≠ 0 := by
    intro zero
    unfold firstLimit autoBatchSize at room
    split_ifs at room with default
    · rw [default] at zero
      exact absurd zero (by decide)
    · omega
  have accessed : world.access faults "cursor.txn()" (del.sweep (firstLimit limit)) =
      Ran.stop { world.tick with txn := some (del.sweep (firstLimit limit) txn).1 } (.ok swept) := by
    unfold World.access
    rw [running, full.uncut]
    simp only [done]
  unfold World.delImpl World.delRounds
  rw [if_neg going, accessed]
  apply Shows.later rfl
  apply Shows.andThen
  unfold World.endRound
  rw [if_pos whole]
  unfold World.commitBatch
  have ended : (World.finish faults true
      { world.tick with txn := some (del.sweep (firstLimit limit) txn).1 }) =
        Ran.stop { world.tick with
          txn := some (del.sweep (firstLimit limit) txn).1
          beginCount := world.beginCount - 1 } (.ok ()) := by
    unfold World.finish
    dsimp only
    rw [if_neg (by simp [World.tick, batch])]
    rfl
  rw [Ran.stop, ended]
  apply Shows.later rfl
  apply Shows.andThen
  unfold World.endBatch World.commit
  dsimp only [Ran.stop, World.tick]
  rw [uncut]
  refine ⟨_, List.mem_singleton_self _, ?_⟩
  intro same
  exact changed (congrArg Disk.data same)

theorem Ran.onward_fails {ran : Ran σ κ ρ} {holds : World σ κ → ρ → Prop}
    (fails : ¬ ran.Onward holds) : ∃ reply, ran.result = .ok reply ∧ ¬ holds ran.world reply := by
  unfold Ran.Onward at fails
  push Not at fails
  exact fails

theorem exec_shows (program : Program σ κ ρ) (batch : world.batch = true)
    (clear : program.Throughout faults (exposed faults) world)
    (loud : ¬ program.Throughout faults (quiet faults) world) :
    Shows world.disk (program.exec faults world) := by
  induction program generalizing world with
  | done result => exact absurd trivial loud
  | look next ih => exact ih world.kinds batch clear loud
  | access run next ih =>
    have keeps := access_keeps faults world "req.txn()" fun txn => (run txn, .ok txn)
    rcases Ran.onward_fails loud with ⟨txn, success, still⟩
    apply Shows.later success
    rw [← keeps.disk]
    exact ih txn (keeps.batch.trans batch) (clear txn success) still
  | addProp kind prop next ih =>
    by_cases unwritten : Unwritten faults world kind prop
    · have keeps := addProp_keeps unwritten
      rcases Ran.onward_fails (not_and.mp loud unwritten) with ⟨token, success, still⟩
      apply Shows.later success
      rw [← keeps.disk]
      exact ih token (keeps.batch.trans batch) (clear.2 token success) still
    · exact (addProp_shows clear.1 unwritten).andThen
  | watch query next ih =>
    have still : ¬ next.Throughout faults (quiet faults) world :=
      fun steps => loud ⟨trivial, steps⟩
    exact Shows.later rfl (ih batch clear.2 still)
  | putRights perm opMap next ih => exact Shows.later rfl (ih batch clear loud)
  | updateKinds change next ih =>
    have changed : ({ world with kinds := change world.kinds } : World σ κ).batch = true := batch
    exact ih changed clear loud
  | begin next ih =>
    have keeps := begin_keeps faults world
    rcases Ran.onward_fails loud with ⟨reply, success, still⟩
    apply Shows.later success
    rw [← keeps.disk]
    exact ih (keeps.batch.trans batch) (clear reply success) still
  | finish commitNow next ih =>
    have keeps := finish_keeps faults batch commitNow
    rcases Ran.onward_fails loud with ⟨reply, success, still⟩
    apply Shows.later success
    rw [← keeps.disk]
    exact ih (keeps.batch.trans batch) (clear reply success) still
  | delImpl del limit next ih =>
    rcases clear with ⟨⟨plain, uncut, own⟩, onward⟩
    by_cases unfilled : Unfilled faults world del limit
    · have keeps := delImpl_keeps unfilled
      rcases Ran.onward_fails (not_and.mp loud unfilled) with ⟨rounds, success, still⟩
      apply Shows.later success
      rw [← keeps.disk]
      exact ih rounds (keeps.batch.trans batch) (onward rounds success) still
    · exact (delImpl_shows batch plain uncut own unfilled).andThen

theorem handle_shows (request : Request σ κ ρ) (batch : world.batch = true)
    (clear : request.Throughout faults (exposed faults) world)
    (loud : ¬ request.Throughout faults (quiet faults) world) :
    Shows world.disk (request.handle faults world) := by
  cases request with
  | batch ops => exact exec_shows (handleBatch ops) batch clear loud
  | putPermissions puts replySuccess =>
    exact exec_shows (handlePutPermissions puts replySuccess) batch clear loud
  | kind request =>
    by_cases before : request.before.Throughout faults (quiet faults) world
    · have keeps := exec_keeps request.before batch before
      rcases Ran.onward_fails (not_and.mp loud before) with ⟨found, success, still⟩
      rcases Classical.not_imp.mp still with ⟨yes, change⟩
      apply Shows.later success
      rw [if_pos yes]
      have shown := exec_shows request.change (keeps.batch.trans batch)
        (clear.2 found success yes) change
      rw [keeps.disk] at shown
      apply Shows.andThen
      unfold commitKind
      cases (request.change.exec faults (request.before.exec faults world).world).result with
      | error err => exact shown
      | ok _ => exact shown.andThen
    · exact (exec_shows request.before batch clear.1 before).andThen

/-! ### Requests -/

def WholeCommit (faults : Faults σ) (world : World σ κ) : Prop :=
  ∀ txn cut, world.txn = some txn → faults world.clock = some cut →
    cut.written world.disk.data txn = world.disk.data

section Requests

variable {request : MojDbPermissionEngine → Request σ κ ρ} {disk : Disk σ} {memory : Memory κ}

/-- No effect of a request that fails is committed; of one that succeeds, all effects are, together
at its end. -/
structure Atomic (faults : Faults σ) (request : MojDbPermissionEngine → Request σ κ ρ)
    (disk : Disk σ) (memory : Memory κ) : Prop where
  failed : ∀ err, (invokeImpl faults request disk memory).result = .error err →
    (invokeImpl faults request disk memory).world.disk = disk ∧
      ∀ left ∈ (invokeImpl faults request disk memory).commits, left = disk
  together : ∀ replies, (invokeImpl faults request disk memory).result = .ok replies →
    (∀ left ∈ ((request memory.permissions).handle faults (start disk memory)).commits,
      left = disk) ∧
    (invokeImpl faults request disk memory).world.disk = { disk with
      data := ((request memory.permissions).handle faults (start disk memory)).world.view }

structure Quiet (faults : Faults σ) (request : MojDbPermissionEngine → Request σ κ ρ)
    (disk : Disk σ) (memory : Memory κ) : Prop where
  steps : (request memory.permissions).Throughout faults (quiet faults) (start disk memory)
  commit : ((request memory.permissions).handle faults (start disk memory)).Onward
    fun world _ => WholeCommit faults world

theorem endBatch_cases (faults : Faults σ) (world : World σ κ) :
    (world.txn = none ∧ (world.endBatch faults).result = .ok () ∧
      (world.endBatch faults).commits = [] ∧ (world.endBatch faults).world.disk = world.disk) ∨
    (∃ txn, world.txn = some txn ∧ faults world.clock = none ∧
      (world.endBatch faults).result = .ok () ∧
      (world.endBatch faults).world.disk = { world.disk with data := txn } ∧
      (world.endBatch faults).commits = [{ world.disk with data := txn }]) ∨
    (∃ txn cut, world.txn = some txn ∧ faults world.clock = some cut ∧
      (world.endBatch faults).result = .error cut.err ∧
      (world.endBatch faults).world.disk =
        { world.disk with data := cut.written world.disk.data txn } ∧
      (world.endBatch faults).commits =
        [{ world.disk with data := cut.written world.disk.data txn }]) := by
  unfold World.endBatch World.commit
  cases running : world.txn with
  | none => exact Or.inl ⟨rfl, rfl, rfl, rfl⟩
  | some txn =>
    right
    dsimp only
    cases fails : faults world.clock with
    | none => exact Or.inl ⟨txn, rfl, rfl, rfl, rfl, rfl⟩
    | some cut => exact Or.inr ⟨txn, cut, rfl, rfl, rfl, rfl, rfl⟩

theorem invokeImpl_failed {err : MojErr}
    (failed : ((request memory.permissions).handle faults (start disk memory)).result =
      .error err) :
    (invokeImpl faults request disk memory).result = .error err ∧
      (invokeImpl faults request disk memory).world =
        ((request memory.permissions).handle faults (start disk memory)).world ∧
      (invokeImpl faults request disk memory).commits =
        ((request memory.permissions).handle faults (start disk memory)).commits := by
  unfold invokeImpl
  rw [Ran.andThen, failed]
  exact ⟨rfl, rfl, rfl⟩

theorem invokeImpl_handled {replies : List ρ}
    (handled : ((request memory.permissions).handle faults (start disk memory)).result =
      .ok replies) :
    let ended := ((request memory.permissions).handle faults (start disk memory)).world.endBatch
      faults
    (invokeImpl faults request disk memory).result = ended.result.map (fun _ => replies) ∧
      (invokeImpl faults request disk memory).world = ended.world ∧
      (invokeImpl faults request disk memory).commits =
        ((request memory.permissions).handle faults (start disk memory)).commits ++
          ended.commits := by
  intro ended
  unfold invokeImpl
  rw [Ran.andThen, handled]
  dsimp only
  change (Ran.andThen ended _).result = _ ∧ _
  unfold Ran.andThen
  cases ended.result with
  | error err => exact ⟨rfl, rfl, rfl⟩
  | ok _ => exact ⟨rfl, rfl, congrArg _ (List.append_nil _)⟩

theorem start_batch (disk : Disk σ) (memory : Memory κ) : (start disk memory).batch = true := rfl

theorem Quiet.atomic (unit : Quiet faults request disk memory) :
    Atomic faults request disk memory := by
  rcases handle_keeps (request memory.permissions) (start_batch disk memory) unit.steps with
    ⟨commits, same⟩
  cases handled : ((request memory.permissions).handle faults (start disk memory)).result with
  | error err =>
    rcases invokeImpl_failed handled with ⟨result, world, committed⟩
    constructor
    · intro _ _
      rw [world, committed, commits]
      exact ⟨same, by simp⟩
    · intro replies done
      rw [result] at done
      cases done
  | ok replies =>
    have whole := unit.commit replies handled
    rcases invokeImpl_handled handled with ⟨result, world, committed⟩
    rcases endBatch_cases faults
        ((request memory.permissions).handle faults (start disk memory)).world with
      ⟨none, ended, nothing, kept⟩ | ⟨txn, running, _, ended, stored, log⟩ |
      ⟨txn, cut, running, fails, ended, stored, log⟩
    · constructor
      · intro err failed
        rw [result, ended] at failed
        cases failed
      · intro _ _
        refine ⟨by simp [commits], ?_⟩
        rw [world, kept, same, World.view, none, Option.getD_none, same]
        rfl
    · constructor
      · intro err failed
        rw [result, ended] at failed
        cases failed
      · intro _ _
        refine ⟨by simp [commits], ?_⟩
        rw [world, stored, same, World.view, running, Option.getD_some]
        rfl
    · have unwritten := whole txn cut running fails
      have left : ({ ((request memory.permissions).handle faults (start disk memory)).world.disk
          with data := cut.written ((request memory.permissions).handle faults
            (start disk memory)).world.disk.data txn } : Disk σ) = disk := by
        rw [unwritten]
        exact same
      constructor
      · intro err _
        rw [world, stored, committed, commits, log, left]
        simp
      · intro replies done
        rw [result, ended] at done
        cases done

end Requests

/-! ### Requests nothing fails in -/

section Sessions

structure Mirrors (ran : Ran σ κ ρ) (session : Session σ × Except MojErr ρ) : Prop where
  req : ran.world.toMojDbReq = session.1.toMojDbReq
  data : ran.world.disk.data = session.1.stored
  result : ran.result = session.2

variable {world : World σ κ} {session : Session σ}

theorem commit_mirrors (req : world.toMojDbReq = session.toMojDbReq)
    (data : world.disk.data = session.stored) :
    Mirrors (world.commit .never) (session.commit, .ok ()) := by
  rcases world with ⟨⟨count, batch, txn⟩, disk, kinds, states, clock⟩
  rcases session with ⟨⟨_, _, _⟩, stored, commits⟩
  cases req
  cases txn with
  | none => exact ⟨rfl, data, rfl⟩
  | some txn => exact ⟨rfl, rfl, rfl⟩

theorem begin_mirrors (req : world.toMojDbReq = session.toMojDbReq)
    (data : world.disk.data = session.stored) :
    Mirrors (world.begin .never) (session.begin, .ok ()) := by
  rcases world with ⟨⟨count, batch, txn⟩, disk, kinds, states, clock⟩
  rcases session with ⟨⟨_, _, _⟩, stored, commits⟩
  cases req
  cases data
  unfold World.begin Session.begin Session.view
  dsimp only
  by_cases zero : count = 0
  · rw [if_pos zero]
    cases txn with
    | none =>
      rw [if_pos ⟨zero, rfl⟩]
      exact ⟨rfl, rfl, rfl⟩
    | some txn =>
      rw [if_neg (by simp)]
      exact ⟨rfl, rfl, rfl⟩
  · rw [if_neg zero, if_neg (not_and_of_not_left _ zero)]
    exact ⟨rfl, rfl, rfl⟩

theorem finish_mirrors (req : world.toMojDbReq = session.toMojDbReq)
    (data : world.disk.data = session.stored) (commitNow : Bool) :
    Mirrors (world.finish .never commitNow) (session.finish commitNow, .ok ()) := by
  rcases world with ⟨⟨count, batch, txn⟩, disk, kinds, states, clock⟩
  rcases session with ⟨⟨_, _, _⟩, stored, commits⟩
  cases req
  unfold World.finish Session.finish
  dsimp only
  split_ifs
  · exact commit_mirrors rfl data
  · exact ⟨rfl, data, rfl⟩
  · exact ⟨rfl, data, rfl⟩

theorem Mirrors.andThen {ran : Ran σ κ ρ} {next : World σ κ → ρ → Ran σ κ ρ'} {reply : ρ}
    {later : Session σ × Except MojErr ρ'} (mirrors : Mirrors ran (session, .ok reply))
    (onward : Mirrors (next ran.world reply) later) : Mirrors (ran.andThen next) later := by
  unfold Ran.andThen
  rw [mirrors.result]
  exact ⟨onward.req, onward.data, onward.result⟩

theorem commitBatch_mirrors (req : world.toMojDbReq = session.toMojDbReq)
    (data : world.disk.data = session.stored) :
    Mirrors (world.commitBatch .never) (session.commitBatch, .ok ()) := by
  have ended := finish_mirrors req data true
  apply ended.andThen
  have batchEnded : Mirrors ((world.finish .never true).world.endBatch .never)
      ((session.finish true).endBatch, .ok ()) := by
    have batchOver : ({ (world.finish .never true).world with batch := false } :
        World σ κ).toMojDbReq =
          ({ session.finish true with batch := false } : Session σ).toMojDbReq :=
      congrArg (fun req : MojDbReq σ => { req with batch := false }) ended.req
    exact commit_mirrors batchOver ended.data
  apply batchEnded.andThen
  apply begin_mirrors rfl
  exact batchEnded.data

theorem delRounds_mirrors (sweep : Sweep σ) (left limit queryLimit : Nat)
    (req : world.toMojDbReq = session.toMojDbReq) (data : world.disk.data = session.stored) :
    Mirrors (world.delRounds .never sweep left limit queryLimit)
      (MojDb.delRounds sweep left limit queryLimit session) := by
  induction left generalizing world session limit queryLimit with
  | zero => exact ⟨req, data, rfl⟩
  | succ left ih =>
    unfold World.delRounds MojDb.delRounds
    by_cases spent : queryLimit = 0
    · rw [if_pos spent, if_pos spent]
      exact ⟨req, data, rfl⟩
    · rw [if_neg spent, if_neg spent]
      have txns : world.txn = session.txn := congrArg MojDbReq.txn req
      cases running : session.txn with
      | none =>
        rw [running] at txns
        unfold World.access
        rw [txns]
        exact ⟨req, data, rfl⟩
      | some txn =>
        rw [running] at txns
        rcases round : sweep limit txn with ⟨after, result⟩
        have accessed : world.access .never "cursor.txn()" (sweep limit) =
            Ran.stop { world.tick with txn := some after } result := by
          unfold World.access
          rw [txns]
          simp only [Faults.never, round]
        have same : ({ world.tick with txn := some after } : World σ κ).toMojDbReq =
            ({ session with txn := some after } : Session σ).toMojDbReq :=
          congrArg (fun req : MojDbReq σ => { req with txn := some after }) req
        rw [accessed]
        simp only [round]
        cases result with
        | error err => exact ⟨same, data, rfl⟩
        | ok swept =>
          have ended : Mirrors (({ world.tick with txn := some after } : World σ κ).endRound
              .never swept) (endRound session after swept, .ok ()) := by
            unfold World.endRound MojDb.endRound
            dsimp only
            split_ifs
            · exact commitBatch_mirrors same data
            · exact ⟨same, data, rfl⟩
          have accessing : Mirrors (Ran.stop ({ world.tick with txn := some after } :
              World σ κ) (Except.ok swept)) ({ session with txn := some after },
                .ok swept) := ⟨same, data, rfl⟩
          apply accessing.andThen
          apply ended.andThen
          dsimp only
          by_cases none : swept.count = 0
          · rw [if_pos none, if_pos none]
            exact ⟨ended.req, ended.data, rfl⟩
          · rw [if_neg none, if_neg none]
            have rest := ih (nextLimit (queryLimit - limit)) (queryLimit - limit) ended.req
              ended.data
            rcases later : MojDb.delRounds sweep left (nextLimit (queryLimit - limit))
              (queryLimit - limit) (endRound session after swept) with ⟨last, outcome⟩
            rw [later] at rest
            unfold Ran.andThen
            rw [rest.result]
            cases outcome with
            | error err => exact ⟨rest.req, rest.data, rfl⟩
            | ok reply => exact ⟨rest.req, rest.data, rfl⟩

end Sessions

/-! ### Deletions as requests make them -/

section Queries

open Deletion

variable {χ : Type*} [LinearOrder χ]

def plainQuery (deletion : Deletion χ) (vanishes : ∀ store, deletion.Vanishes store)
    (once : ∀ store, deletion.MetOnce store) : DelQuery ObjectStore where
  sweep := deletion.sweep
  most store := (deletion.matching store).length
  bounded success := by
    rcases sweep_done (vanishes _) success with ⟨batch, done⟩
    have counted := done.once (once _)
    have bounded := done.bounded
    omega

theorem plainQuery_plain (deletion : Deletion χ) (vanishes : ∀ store, deletion.Vanishes store)
    (once : ∀ store, deletion.MetOnce store) : (plainQuery deletion vanishes once).Plain := by
  intro limit txn after swept success
  rcases sweep_done (vanishes _) success with ⟨batch, done⟩
  have counted := done.once (once _)
  have bounded := done.bounded
  have drained : swept.count < limit → (deletion.matching after).length = 0 :=
    fun less => List.length_eq_zero_iff.mpr (done.drained less)
  change swept.numberInBatch = min limit (deletion.matching txn).length ∧
    (deletion.matching after).length + swept.numberInBatch = (deletion.matching txn).length
  omega

theorem marking_bounded {deletion : Deletion χ} {width limit : Nat} {txn after : ObjectStore}
    {swept : Swept} (marks : deletion.Marks) (wide : deletion.Wide width)
    (success : deletion.sweep limit txn = (after, .ok swept)) :
    swept.numberInBatch ≤ limit ∧
      swept.numberInBatch ≤ width * ((deletion.matching txn).length + (deletion.alive txn).length) ∧
      width * ((deletion.matching after).length + (deletion.alive after).length) ≤
        width * ((deletion.matching txn).length + (deletion.alive txn).length) := by
  rcases sweep_ok success with ⟨batch, ran⟩
  rcases sweepFrom_few marks wide limit (liveAhead_none txn) ran with ⟨counted, _, fewer⟩
  have all : deletion.keysAhead none txn = (deletion.indexKeys txn).elems := by
    simp [keysAhead, Beyond]
  have keys := wide.indexKeys txn
  have shrunk : (deletion.matching after).length ≤ (deletion.matching txn).length :=
    (List.subperm_of_subset (deletion.matching_nodup after)
      fun _ member => (sweep_deleted success).matching_sub member).length_le
  rw [all] at counted
  refine ⟨batch ▸ sweepFrom_le limit ran, ?_, Nat.mul_le_mul_left _ (Nat.add_le_add shrunk fewer)⟩
  rw [Nat.mul_add]
  omega

/-- A deletion that marks objects it may find again, with a bound on the keys an object has. -/
def markingQuery (deletion : Deletion χ) (marks : deletion.Marks) (width : Nat)
    (wide : deletion.Wide width) : DelQuery ObjectStore where
  sweep := deletion.sweep
  most store := width * ((deletion.matching store).length + (deletion.alive store).length)
  bounded := marking_bounded marks wide

def deleteAllQuery : DelQuery ObjectStore := plainQuery deleteAll deleteAll_vanishes deleteAll_metOnce

end Queries

theorem delImpl_safe {del : DelQuery σ}
    (safe : ∀ limit txn, ∃ after swept, del.sweep limit txn = (after, .ok swept))
    (limit : MojUInt32) {txn : σ} (one : world.beginCount = 1) (running : world.txn = some txn) :
    (world.delImpl .never del.sweep limit).result =
      .ok ((queryRounds del.sweep limit txn).swept.map Prod.fst) := by
  have mirrors := @delRounds_mirrors _ _ world ⟨world.toMojDbReq, world.disk.data, []⟩ del.sweep
    (limit.toNat + 1) (firstLimit limit) limit.toNat rfl rfl
  have ok : (queryRounds del.sweep limit txn).result = .ok () :=
    rounds_ok safe firstLimit_pos (Nat.lt_succ_self _)
  rw [delRounds_eq del.sweep _ _ _ one running] at mirrors
  unfold queryRounds at ok ⊢
  rw [ok] at mirrors
  exact mirrors.result

def deleteThenFail : MojDbPermissionEngine → Request ObjectStore Unit Unit := fun _ =>
  .batch [.delQuery (fun _ => deleteAllQuery) MojDbQuery.limitDefault (fun _ => ()),
    .invalid .dbInvalidBatch]

def objectsDisk (count : Nat) : Disk ObjectStore := ⟨Deletion.emptyObjects count, fun _ => none⟩

def freshMemory : Memory Unit where
  kinds := ()
  states _ := ⟨[], [], tokenStartMarker, none⟩
  permissions := ⟨Bytes.SortedMap.empty, true⟩
  watches := []

theorem Ran.result_andThen {ran : Ran σ κ ρ} {reply : ρ} (success : ran.result = .ok reply)
    (next : World σ κ → ρ → Ran σ κ ρ') :
    (ran.andThen next).result = (next ran.world reply).result := by
  unfold Ran.andThen
  rw [success]

theorem finish_ends (world : World σ κ) (commitNow : Bool) :
    (world.finish .never commitNow).result = .ok () :=
  (@finish_mirrors _ _ world ⟨world.toMojDbReq, world.disk.data, []⟩ rfl rfl commitNow).result

theorem deleteAllQuery_safe (limit : Nat) (txn : ObjectStore) :
    ∃ after swept, deleteAllQuery.sweep limit txn = (after, .ok swept) :=
  @Deletion.sweep_safe _ _ Deletion.deleteAll rfl (fun _ _ => rfl) limit txn

theorem deleteThenFail_failed (disk : Disk ObjectStore) (memory : Memory Unit) :
    ((deleteThenFail memory.permissions).handle .never (start disk memory)).result =
      .error .dbInvalidBatch := by
  have begun : ((start disk memory).begin .never).result = .ok () := rfl
  have inside : ((start disk memory).begin .never).world.beginCount = 1 := rfl
  have running : ((start disk memory).begin .never).world.txn = some disk.data := rfl
  have deleted := delImpl_safe deleteAllQuery_safe MojDbQuery.limitDefault inside running
  simp only [deleteThenFail, Request.handle, handleBatch, BatchOp.program, Program.bind,
    Program.exec]
  rw [Ran.result_andThen begun, Ran.result_andThen deleted, Ran.result_andThen (finish_ends _ true)]
  rfl

section DeleteThenFail

variable (disk : Disk ObjectStore) (memory : Memory Unit)

theorem deleteThenFail_exposed :
    (deleteThenFail memory.permissions).Throughout .never (exposed .never) (start disk memory) := by
  intro _ _
  refine ⟨⟨plainQuery_plain _ _ _, rfl, ?_⟩, ?_⟩
  · intro txn running
    rw [← Option.some.inj running]
    exact Nat.lt_add_of_pos_right (by decide)
  · intro _ _ _ _
    trivial

theorem deleteThenFail_loud (many : 1000 ≤ (Deletion.deleteAll.matching disk.data).length) :
    ¬ (deleteThenFail memory.permissions).Throughout .never (quiet .never)
      (start disk memory) := by
  intro steps
  apply (steps () rfl).1 disk.data rfl
  rcases deleteAllQuery_safe 1000 disk.data with ⟨after, swept, round⟩
  exact ⟨by decide, many, rfl, swept, congrArg Prod.snd round⟩

theorem deleteThenFail_quiet (few : (Deletion.deleteAll.matching disk.data).length < 1000) :
    Quiet .never deleteThenFail disk memory := by
  constructor
  · intro _ _
    refine ⟨?_, fun _ _ _ _ => trivial⟩
    intro txn running full
    rw [← Option.some.inj running] at full
    exact absurd few (not_lt.mpr full.many)
  · intro _ handled
    rw [deleteThenFail_failed] at handled
    cases handled

theorem deleteThenFail_not_atomic
    (many : 1000 ≤ (Deletion.deleteAll.matching disk.data).length) :
    (invokeImpl .never deleteThenFail disk memory).result = .error .dbInvalidBatch ∧
      ¬ Atomic .never deleteThenFail disk memory := by
  rcases invokeImpl_failed (deleteThenFail_failed disk memory) with ⟨result, _, committed⟩
  apply And.intro result
  intro atomic
  rcases handle_shows (deleteThenFail memory.permissions) (start_batch disk memory)
    (deleteThenFail_exposed disk memory) (deleteThenFail_loud disk memory many) with
    ⟨left, member, different⟩
  exact different ((atomic.failed _ result).2 left (committed ▸ member))

end DeleteThenFail

/-- A batch that puts an object with a property `a` of the kind `A:1` and then fails. -/
def putThenFail : MojDbPermissionEngine → Request ObjectStore Unit Unit := fun _ =>
  .batch [.within true (.addProp (chars "A:1".toList) (chars "a".toList) fun _ =>
    .access (fun store => { store with rev := store.rev + 1 }) fun _ => .done (.ok ()))
      fun _ _ => trivial,
    .invalid .dbInvalidBatch]

end Db8.Luna
