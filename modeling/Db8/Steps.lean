/-!
# Runs of a step function

A system that takes one operation after another, a step being refused when its operation may not be
made. What a step preserves where a condition holds of it, a run preserves when the condition holds of
every step of it.
-/

set_option autoImplicit false

namespace Db8.Steps

variable {σ ω : Type} (step : ω → σ → Option σ)

def run : List ω → σ → Option σ
  | [], state => some state
  | op :: ops, state => (step op state).bind (run ops)

/-- A condition on an operation and the state it is made in holds of every step of a run. -/
def Throughout (meets : ω → σ → Prop) : List ω → σ → Prop
  | [], _ => True
  | op :: ops, state => meets op state ∧ ∀ next, step op state = some next → Throughout meets ops next

instance decidableThroughout (meets : ω → σ → Prop) [∀ op state, Decidable (meets op state)] :
    (ops : List ω) → (state : σ) → Decidable (Throughout step meets ops state)
  | [], _ => isTrue trivial
  | op :: ops, state =>
    match stepped : step op state with
    | none => decidable_of_iff (meets op state) (by simp [Throughout, stepped])
    | some next =>
      have := decidableThroughout meets ops next
      decidable_of_iff (meets op state ∧ Throughout step meets ops next)
        (by simp [Throughout, stepped])

variable {step} {meets : ω → σ → Prop} {invariant : σ → Prop}

theorem run_cons {op : ω} {ops : List ω} {state last : σ}
    (ran : run step (op :: ops) state = some last) :
    ∃ next, step op state = some next ∧ run step ops next = some last :=
  Option.bind_eq_some_iff.mp ran

theorem run_append (front back : List ω) (state : σ) :
    run step (front ++ back) state = (run step front state).bind (run step back) := by
  induction front generalizing state with
  | nil => rfl
  | cons op front ih =>
    rw [List.cons_append, run, run, Option.bind_assoc]
    apply congrArg (Option.bind (step op state))
    funext next
    exact ih next

theorem Throughout.and {other : ω → σ → Prop} {ops : List ω} {state : σ}
    (one : Throughout step meets ops state) (two : Throughout step other ops state) :
    Throughout step (fun op state => meets op state ∧ other op state) ops state := by
  induction ops generalizing state with
  | nil => trivial
  | cons op ops ih =>
    exact ⟨⟨one.1, two.1⟩, fun next stepped => ih (one.2 next stepped) (two.2 next stepped)⟩

theorem Throughout.of_append {front back : List ω} {state middle : σ}
    (throughout : Throughout step meets (front ++ back) state)
    (ran : run step front state = some middle) :
    Throughout step meets front state ∧ Throughout step meets back middle := by
  induction front generalizing state with
  | nil =>
    cases ran
    exact ⟨trivial, throughout⟩
  | cons op front ih =>
    rcases run_cons ran with ⟨next, stepped, rest⟩
    rcases ih (throughout.2 next stepped) rest with ⟨-, last⟩
    refine ⟨⟨throughout.1, ?_⟩, last⟩
    intro other again
    rw [stepped] at again
    cases again
    exact (ih (throughout.2 next stepped) rest).1

theorem run_keeps_where
    (keeps : ∀ op state next, invariant state → meets op state → step op state = some next →
      invariant next)
    {ops : List ω} {state last : σ} (holds : invariant state)
    (throughout : Throughout step meets ops state) (ran : run step ops state = some last) :
    invariant last := by
  induction ops generalizing state with
  | nil =>
    cases ran
    exact holds
  | cons op ops ih =>
    rcases run_cons ran with ⟨next, stepped, rest⟩
    exact ih (keeps op state next holds throughout.1 stepped) (throughout.2 next stepped) rest

theorem run_keeps
    (keeps : ∀ op state next, invariant state → step op state = some next → invariant next)
    {ops : List ω} {state last : σ} (holds : invariant state)
    (ran : run step ops state = some last) : invariant last := by
  induction ops generalizing state with
  | nil =>
    cases ran
    exact holds
  | cons op ops ih =>
    rcases run_cons ran with ⟨next, stepped, rest⟩
    exact ih (keeps op state next holds stepped) rest

/-- A condition holds throughout a run if it holds of every step between states of an invariant that
holds after every step. -/
theorem throughout_of_holds (total : ∀ op state, ∃ next, step op state = some next)
    (needs : ∀ op state next, invariant state → step op state = some next → invariant next →
      meets op state)
    (ops : List ω) {state : σ}
    (after : ∀ front last, front <+: ops → run step front state = some last → invariant last) :
    Throughout step meets ops state := by
  induction ops generalizing state with
  | nil => trivial
  | cons op ops ih =>
    rcases total op state with ⟨next, stepped⟩
    have ranOne : ∀ front, run step (op :: front) state = run step front next := by
      intro front
      rw [run, stepped]
      rfl
    have holds := after [] state (List.nil_prefix) rfl
    have nextHolds := after [op] next ⟨ops, rfl⟩ (ranOne [])
    refine ⟨needs op state next holds stepped nextHolds, ?_⟩
    intro other again
    rw [stepped] at again
    cases again
    apply ih
    intro front last starts ran
    exact after (op :: front) last (List.cons_prefix_cons.mpr ⟨rfl, starts⟩)
      ((ranOne front).trans ran)

/-- What a step keeps where a condition holds of it holds after every step of a run in which the
condition holds throughout. -/
theorem holds_of_throughout
    (keeps : ∀ op state next, invariant state → meets op state → step op state = some next →
      invariant next)
    {ops : List ω} {state : σ} (holds : invariant state) (throughout : Throughout step meets ops state)
    {front : List ω} {last : σ} (starts : front <+: ops) (ran : run step front state = some last) :
    invariant last := by
  rcases starts with ⟨back, rfl⟩
  exact run_keeps_where keeps holds (throughout.of_append ran).1 ran

/-- Where an invariant survives a step just if a condition holds of the step, it holds after every
step of a run just if the condition holds throughout. -/
theorem holds_throughout_iff (total : ∀ op state, ∃ next, step op state = some next)
    (survives : ∀ op state next, invariant state → step op state = some next →
      (invariant next ↔ meets op state))
    (ops : List ω) {state : σ} (holds : invariant state) :
    (∀ front last, front <+: ops → run step front state = some last → invariant last) ↔
      Throughout step meets ops state := by
  constructor
  · exact throughout_of_holds total
      (fun op state next holds stepped => (survives op state next holds stepped).mp) ops
  · intro throughout front last starts ran
    exact holds_of_throughout
      (fun op state next holds meets stepped => (survives op state next holds stepped).mpr meets)
      holds throughout starts ran

end Db8.Steps
