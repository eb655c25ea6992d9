import Db8.Db.QueryPlan

/-!
# Requests and query deletion

`MojDbReq` over a store of any kind: nested operations share one transaction, which is committed
when the outermost one ends, or at the end of the batch. A query deletion runs in rounds and calls
`commitBatch` from the inside. What the rounds do to the transaction is kept apart from what they
do to the request, so that the stores committed on the way can be read off the rounds.
-/

set_option autoImplicit false

namespace Db8.Db

open Db8.Core

structure MojDbReq (σ : Type*) where
  beginCount : MojUInt32
  batch : Bool
  txn : Option σ

/-- A request on its engine, where no call of the storage fails: the committed store, and what the
request committed, latest first. -/
structure Session (σ : Type*) extends MojDbReq σ where
  stored : σ
  commits : List σ

namespace Session

variable {σ : Type*}

def create (stored : σ) : Session σ := ⟨⟨0, false, none⟩, stored, []⟩

def view (session : Session σ) : σ := session.txn.getD session.stored

def commit (session : Session σ) : Session σ :=
  match session.txn with
  | none => session
  | some txn => { session with txn := none, stored := txn, commits := txn :: session.commits }

/-- `begin`; a new transaction starts from the committed store. -/
def begin (session : Session σ) : Session σ :=
  if session.beginCount = 0 then
    { session with
      beginCount := session.beginCount + 1
      txn := some session.view }
  else { session with beginCount := session.beginCount + 1 }

/-- `end`. -/
def finish (session : Session σ) (commitNow : Bool) : Session σ :=
  let session := { session with beginCount := session.beginCount - 1 }
  if session.beginCount = 0 ∧ session.batch = false then
    if commitNow then session.commit else { session with txn := none }
  else session

def beginBatch (session : Session σ) : Session σ :=
  { session with batch := true, beginCount := 0, txn := none }

def endBatch (session : Session σ) : Session σ := { session with batch := false }.commit

def abort (session : Session σ) : Session σ :=
  { session with beginCount := 0, batch := false, txn := none }

def commitBatch (session : Session σ) : Session σ :=
  (session.finish true).endBatch.beginBatch.begin

/-- Inside one operation the transaction goes on unchanged, but its store is committed and the
request is a batch from here on. -/
theorem commitBatch_eq {session : Session σ} {txn : σ} (one : session.beginCount = 1)
    (running : session.txn = some txn) :
    session.commitBatch = { session with
      batch := true
      stored := txn
      commits := txn :: session.commits } := by
  cases batched : session.batch <;>
    simp [commitBatch, finish, endBatch, beginBatch, begin, commit, view, one, running, batched]

end Session

namespace MojDb

open Session

structure Swept where
  count : Nat
  numberInBatch : Nat
deriving DecidableEq

/-- A round within the transaction: the find with its limit, and the deletion of what it gives. -/
abbrev Sweep (σ : Type*) := Nat → σ → σ × Except MojErr Swept

def autoBatchSize : Nat := 1000

def nextLimit (queryLimit : Nat) : Nat :=
  if queryLimit > autoBatchSize then autoBatchSize else queryLimit

variable {σ : Type*}

def endRound (session : Session σ) (txn : σ) (swept : Swept) : Session σ :=
  let session := { session with txn := some txn }
  if autoBatchSize ≤ swept.numberInBatch then session.commitBatch else session

/-- The loop of `delImpl`, as the list of its rounds. -/
def delRounds (sweep : Sweep σ) : Nat → Nat → Nat → Session σ →
    Session σ × Except MojErr (List Swept)
  | 0, _, _, session => (session, .error (.assertFailed "the limit bounds the rounds"))
  | rounds + 1, limit, queryLimit, session =>
    if queryLimit = 0 then (session, .ok [])
    else
      match session.txn with
      | none => (session, .error (.assertFailed "cursor.txn()"))
      | some txn =>
        match sweep limit txn with
        | (txn, .error err) => ({ session with txn := some txn }, .error err)
        | (txn, .ok swept) =>
          let session := endRound session txn swept
          if swept.count = 0 then (session, .ok [swept])
          else
            let queryLimit := queryLimit - limit
            let later := delRounds sweep rounds (nextLimit queryLimit) queryLimit session
            (later.1, later.2.map (swept :: ·))

def firstLimit (limit : MojUInt32) : Nat :=
  if limit = MojDbQuery.limitDefault then autoBatchSize else limit.toNat

/-- `countOut`, a sum of 32 bits. -/
def countOut (rounds : List Swept) : MojUInt32 :=
  BitVec.ofNat 32 (rounds.map Swept.count).sum

def delImpl (sweep : Sweep σ) (limit : MojUInt32) (session : Session σ) :
    Session σ × Except MojErr (List Swept) :=
  delRounds sweep (limit.toNat + 1) (firstLimit limit) limit.toNat session

def del (sweep : Sweep σ) (limit : MojUInt32) (session : Session σ) :
    Session σ × Except MojErr MojUInt32 :=
  match delImpl sweep limit session.begin with
  | (session, .error err) => (session, .error err)
  | (session, .ok rounds) => (session.finish true, .ok (countOut rounds))

/-- The rounds within the transaction: the store it ends with, and each round with what it left. -/
structure Rounds (σ : Type*) where
  txn : σ
  swept : List (Swept × σ)
  result : Except MojErr Unit

def full (swept : List (Swept × σ)) : List σ :=
  (swept.filter fun round => decide (autoBatchSize ≤ round.1.numberInBatch)).map Prod.snd

def rounds (sweep : Sweep σ) : Nat → Nat → Nat → σ → Rounds σ
  | 0, _, _, txn => ⟨txn, [], .error (.assertFailed "the limit bounds the rounds")⟩
  | left + 1, limit, queryLimit, txn =>
    if queryLimit = 0 then ⟨txn, [], .ok ()⟩
    else
      match sweep limit txn with
      | (txn, .error err) => ⟨txn, [], .error err⟩
      | (txn, .ok swept) =>
        if swept.count = 0 then ⟨txn, [(swept, txn)], .ok ()⟩
        else
          let queryLimit := queryLimit - limit
          let later := rounds sweep left (nextLimit queryLimit) queryLimit txn
          { later with swept := (swept, txn) :: later.swept }

/-- Rounds that ended without an error: from the first store over each round to the last store. -/
inductive Ran (sweep : Sweep σ) : Nat → Nat → σ → List (Swept × σ) → σ → Prop where
  | out (limit : Nat) (txn : σ) : Ran sweep limit 0 txn [] txn
  | last {limit queryLimit : Nat} {txn after : σ} {swept : Swept} (going : queryLimit ≠ 0)
      (round : sweep limit txn = (after, .ok swept)) (none : swept.count = 0) :
      Ran sweep limit queryLimit txn [(swept, after)] after
  | more {limit queryLimit : Nat} {txn after final : σ} {swept : Swept}
      {later : List (Swept × σ)} (going : queryLimit ≠ 0)
      (round : sweep limit txn = (after, .ok swept)) (some : swept.count ≠ 0)
      (onward : Ran sweep (nextLimit (queryLimit - limit)) (queryLimit - limit) after later final) :
      Ran sweep limit queryLimit txn ((swept, after) :: later) final

theorem rounds_ran {sweep : Sweep σ} {left limit queryLimit : Nat} {txn : σ}
    (success : (rounds sweep left limit queryLimit txn).result = .ok ()) :
    Ran sweep limit queryLimit txn (rounds sweep left limit queryLimit txn).swept
      (rounds sweep left limit queryLimit txn).txn := by
  induction left generalizing limit queryLimit txn with
  | zero => cases success
  | succ left ih =>
    rw [rounds] at success ⊢
    by_cases ended : queryLimit = 0
    · rw [if_pos ended, ended]
      exact Ran.out limit txn
    · rw [if_neg ended] at success ⊢
      rcases round : sweep limit txn with ⟨after, result⟩
      rw [round] at success
      cases result with
      | error err => cases success
      | ok swept =>
        simp only at success ⊢
        by_cases none : swept.count = 0
        · rw [if_pos none]
          exact Ran.last ended round none
        · rw [if_neg none] at success ⊢
          exact Ran.more ended round none (ih success)

/-- With more rounds than the limit counts, only a round that fails ends the loop early. -/
theorem rounds_ok {sweep : Sweep σ} {left limit queryLimit : Nat} {txn : σ}
    (safe : ∀ limit txn, ∃ after swept, sweep limit txn = (after, .ok swept))
    (positive : queryLimit ≠ 0 → 0 < limit) (enough : queryLimit < left) :
    (rounds sweep left limit queryLimit txn).result = .ok () := by
  induction left generalizing limit queryLimit txn with
  | zero => exact absurd enough (Nat.not_lt_zero _)
  | succ left ih =>
    rw [rounds]
    by_cases ended : queryLimit = 0
    · rw [if_pos ended]
    · rw [if_neg ended]
      rcases safe limit txn with ⟨after, swept, round⟩
      rw [round]
      simp only
      by_cases none : swept.count = 0
      · rw [if_pos none]
      · rw [if_neg none]
        have positive := positive ended
        apply ih
        · unfold nextLimit autoBatchSize
          split_ifs <;> omega
        · omega

def queryRounds (sweep : Sweep σ) (limit : MojUInt32) (txn : σ) : Rounds σ :=
  rounds sweep (limit.toNat + 1) (firstLimit limit) limit.toNat txn

/-- A request inside one operation after the rounds it ran. -/
def afterRounds (session : Session σ) (ran : Rounds σ) : Session σ :=
  { session with
    batch := session.batch || !(full ran.swept).isEmpty
    txn := some ran.txn
    stored := (full ran.swept).getLastD session.stored
    commits := (full ran.swept).reverse ++ session.commits }

variable {session : Session σ}

theorem afterRounds_nil {txn : σ} (result : Except MojErr Unit) :
    afterRounds session ⟨txn, [], result⟩ = { session with txn := some txn } := by
  simp [afterRounds, full]

theorem endRound_full (txn : σ) {swept : Swept} (one : session.beginCount = 1)
    (whole : autoBatchSize ≤ swept.numberInBatch) :
    endRound session txn swept = { session with
      batch := true
      txn := some txn
      stored := txn
      commits := txn :: session.commits } := by
  have inside : ({ session with txn := some txn } : Session σ).beginCount = 1 := one
  unfold endRound
  simp only [if_pos whole]
  exact Session.commitBatch_eq inside rfl

theorem endRound_part (session : Session σ) (txn : σ) {swept : Swept}
    (part : ¬ autoBatchSize ≤ swept.numberInBatch) :
    endRound session txn swept = { session with txn := some txn } := if_neg part

theorem afterRounds_cons {txn : σ} (swept : Swept) (later : Rounds σ) (one : session.beginCount = 1) :
    afterRounds (endRound session txn swept) later =
      afterRounds session { later with swept := (swept, txn) :: later.swept } := by
  by_cases whole : autoBatchSize ≤ swept.numberInBatch
  · rw [endRound_full txn one whole]
    have cons : full ((swept, txn) :: later.swept) = txn :: full later.swept := by
      simp [full, whole]
    unfold afterRounds
    rw [cons]
    simp [List.getLast?_cons]
  · rw [endRound_part session txn whole]
    have skip : full ((swept, txn) :: later.swept) = full later.swept := by
      simp [full, whole]
    unfold afterRounds
    rw [skip]

theorem endRound_running (txn : σ) (swept : Swept) (one : session.beginCount = 1) :
    (endRound session txn swept).beginCount = 1 ∧
      (endRound session txn swept).txn = some txn := by
  by_cases whole : autoBatchSize ≤ swept.numberInBatch
  · rw [endRound_full txn one whole]
    exact ⟨one, rfl⟩
  · rw [endRound_part session txn whole]
    exact ⟨one, rfl⟩

theorem delRounds_eq (sweep : Sweep σ) (left limit queryLimit : Nat) {txn : σ}
    (one : session.beginCount = 1) (running : session.txn = some txn) :
    delRounds sweep left limit queryLimit session =
      (afterRounds session (rounds sweep left limit queryLimit txn),
        (rounds sweep left limit queryLimit txn).result.map fun _ =>
          (rounds sweep left limit queryLimit txn).swept.map Prod.fst) := by
  have same : { session with txn := some txn } = session := by rw [← running]
  induction left generalizing limit queryLimit session txn with
  | zero =>
    rw [delRounds, rounds, afterRounds_nil, same]
    rfl
  | succ left ih =>
    rw [delRounds, rounds]
    by_cases ended : queryLimit = 0
    · rw [if_pos ended, if_pos ended, afterRounds_nil, same]
      rfl
    · rw [if_neg ended, if_neg ended, running]
      simp only
      rcases sweep limit txn with ⟨after, result⟩
      cases result with
      | error err =>
        simp only
        rw [afterRounds_nil]
        rfl
      | ok swept =>
        rcases endRound_running after swept one with ⟨stillOne, stillRunning⟩
        simp only
        by_cases none : swept.count = 0
        · rw [if_pos none, if_pos none, ← afterRounds_cons swept ⟨after, [], .ok ()⟩ one,
            afterRounds_nil, ← stillRunning]
          rfl
        · rw [if_neg none, if_neg none]
          rw [ih (nextLimit (queryLimit - limit)) (queryLimit - limit) stillOne stillRunning
            (by rw [← stillRunning]), afterRounds_cons swept _ one]
          cases (rounds sweep left (nextLimit (queryLimit - limit)) (queryLimit - limit)
            after).result <;> rfl

theorem firstLimit_pos {limit : MojUInt32} (positive : limit.toNat ≠ 0) : 0 < firstLimit limit := by
  unfold firstLimit
  split_ifs
  · decide
  · exact Nat.pos_of_ne_zero positive

/-- A deletion that succeeds, as seen by the request: its rounds ran, and they decide what was
committed on the way. -/
theorem del_ok {sweep : Sweep σ} {limit : MojUInt32} {session after : Session σ}
    {count : MojUInt32} (idle : session.beginCount = 0)
    (success : del sweep limit session = (after, .ok count)) :
    (queryRounds sweep limit session.view).result = .ok () ∧
      after = (afterRounds session.begin
        (queryRounds sweep limit session.view)).finish true ∧
      count = countOut
        ((queryRounds sweep limit session.view).swept.map Prod.fst) := by
  have one : session.begin.beginCount = 1 := by simp [Session.begin, idle]
  have running : session.begin.txn = some session.view := by
    simp [Session.begin, idle]
  unfold del delImpl at success
  rw [delRounds_eq sweep _ _ _ one running] at success
  unfold queryRounds
  cases ran : (rounds sweep (limit.toNat + 1) (firstLimit limit) limit.toNat
      session.view).result with
  | error err => simp [ran, Except.map] at success
  | ok _ =>
    simp only [ran, Except.map, Prod.mk.injEq, Except.ok.injEq] at success
    exact ⟨rfl, success.1.symm, success.2.symm⟩

theorem stored_in_batch (ran : Rounds σ) (idle : session.beginCount = 0)
    (batch : session.batch = true) :
    ((afterRounds session.begin ran).finish true).endBatch.stored = ran.txn := by
  simp [afterRounds, Session.begin, Session.finish, Session.endBatch, Session.commit, idle, batch]

theorem stored_alone (ran : Rounds σ) (idle : session.beginCount = 0)
    (alone : session.batch = false) :
    ((afterRounds session.begin ran).finish true).stored = (full ran.swept).getLastD ran.txn := by
  cases whole : full ran.swept with
  | nil =>
    simp [afterRounds, Session.begin, Session.finish, Session.commit, idle, alone, whole]
  | cons first rest =>
    simp [afterRounds, Session.begin, Session.finish, idle, alone, whole,
      List.getLast?_cons]

end MojDb

end Db8.Db
