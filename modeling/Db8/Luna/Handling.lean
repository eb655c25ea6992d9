import Db8.Luna.ServiceHandler

/-!
# What a handler does to its message

Rules for following a handler step by step. One kind says that it fails and sends nothing or only
appends some calls to the writer; the other that what was sent before stays sent.
-/

set_option autoImplicit false

namespace Db8.Luna.MojDbServiceHandler

open Db8.Core

variable {σ κ α β : Type}

theorem bind_apply (first : Handling σ α) (next : α → Handling σ β)
    (before : σ × MojServiceMessage) :
    (first >>= next) before = match first before with
      | .ok result after => next result after
      | .error err after => .error err after := by
  change EStateM.bind first next before = _
  unfold EStateM.bind
  cases first before <;> rfl

def Fails (handling : Handling σ α) (state : σ) : Prop :=
  ∃ next err, ∀ message, ∃ left,
    handling (state, message) = .error err (next, left) ∧ left.replies = message.replies

/-- From this state the handling succeeds and does nothing to the message but these calls to its
writer. -/
def Writes (handling : Handling σ α) (state next : σ) (result : α) (calls : List VisitorCall) :
    Prop :=
  ∀ message, handling (state, message) = .ok result (next, message.write calls)

/-- The handling fails without a reply, or ends as said with some calls to the writer. -/
def Ends (handling : Handling σ α) (state : σ) (post : σ → α → List VisitorCall → Prop) : Prop :=
  Fails handling state ∨
    ∃ next result calls, Writes handling state next result calls ∧ post next result calls

theorem Fails.bind {first : Handling σ α} {state : σ} (fails : Fails first state)
    (next : α → Handling σ β) : Fails (first >>= next) state := by
  rcases fails with ⟨after, err, fails⟩
  refine ⟨after, err, fun message => ?_⟩
  rcases fails message with ⟨left, failed, same⟩
  exact ⟨left, by rw [bind_apply, failed], same⟩

theorem Writes.bind {first : Handling σ α} {next : α → Handling σ β} {state middle after : σ}
    {result : α} {last : β} {calls later : List VisitorCall}
    (writes : Writes first state middle result calls)
    (onward : Writes (next result) middle after last later) :
    Writes (first >>= next) state after last (calls ++ later) := by
  intro message
  rw [bind_apply, writes message]
  simp only
  rw [onward, MojServiceMessage.write_append]

theorem Writes.bind_fails {first : Handling σ α} {next : α → Handling σ β} {state middle : σ}
    {result : α} {calls : List VisitorCall} (writes : Writes first state middle result calls)
    (fails : Fails (next result) middle) : Fails (first >>= next) state := by
  rcases fails with ⟨after, err, fails⟩
  refine ⟨after, err, fun message => ?_⟩
  rcases fails (message.write calls) with ⟨left, failed, same⟩
  exact ⟨left, by rw [bind_apply, writes message]; exact failed, same⟩

namespace Ends

variable {state : σ} {post : σ → α → List VisitorCall → Prop}

variable {next : α → Handling σ β}

theorem bind {first : Handling σ α} {post : σ → β → List VisitorCall → Prop}
    {middle : σ → α → List VisitorCall → Prop} (ends : Ends first state middle)
    (onward : ∀ after result calls, Writes first state after result calls →
      middle after result calls →
        Ends (next result) after fun final last later => post final last (calls ++ later)) :
    Ends (first >>= next) state post := by
  rcases ends with fails | ⟨after, result, calls, writes, met⟩
  · exact Or.inl (fails.bind next)
  · rcases onward after result calls writes met with fails | ⟨final, last, later, wrote, met⟩
    · exact Or.inl (writes.bind_fails fails)
    · exact Or.inr ⟨final, last, calls ++ later, writes.bind wrote, met⟩

theorem mono {handling : Handling σ α} {weaker : σ → α → List VisitorCall → Prop}
    (ends : Ends handling state post)
    (weaken : ∀ next result calls, post next result calls → weaker next result calls) :
    Ends handling state weaker := by
  rcases ends with fails | ⟨next, result, calls, writes, met⟩
  · exact Or.inl fails
  · exact Or.inr ⟨next, result, calls, writes, weaken _ _ _ met⟩

theorem pure {result : α} (met : post state result []) :
    Ends (Pure.pure result : Handling σ α) state post :=
  Or.inr ⟨state, result, [], fun _ => rfl, met⟩

theorem throw (err : MojErr) : Ends (throw err : Handling σ α) state post :=
  Or.inl ⟨state, err, fun message => ⟨message, rfl, rfl⟩⟩

theorem call {run : Call σ α} (met : ∀ next result, post next result []) :
    Ends (call run) state post := by
  rcases ran : run state with ⟨next, result⟩
  cases result with
  | error err =>
    refine Or.inl ⟨next, err, fun message => ⟨message, ?_, rfl⟩⟩
    simp only [MojDbServiceHandler.call, ran]
  | ok result =>
    refine Or.inr ⟨next, result, [], fun message => ?_, met next result⟩
    simp only [MojDbServiceHandler.call, ran]
    rfl

theorem write {calls : List VisitorCall} {post : σ → Unit → List VisitorCall → Prop}
    (met : post state () calls) : Ends (write calls) state post :=
  Or.inr ⟨state, (), calls, fun _ => rfl, met⟩

theorem bind_throw {post : σ → β → List VisitorCall → Prop}
    (err : MojErr) : Ends (MonadExcept.throw err >>= next) state post :=
  Or.inl (Fails.bind ⟨state, err, fun message => ⟨message, rfl, rfl⟩⟩ next)

theorem bind_call {run : Call σ α} {post : σ → β → List VisitorCall → Prop}
    (onward : ∀ after result, Ends (next result) after post) :
    Ends (MojDbServiceHandler.call run >>= next) state post := by
  have first : Ends (MojDbServiceHandler.call run) state fun _ _ calls => calls = [] :=
    call fun _ _ => rfl
  apply first.bind
  intro after result calls _ none
  rw [none]
  exact onward after result

theorem bind_check {checked : Except MojErr α} {post : σ → β → List VisitorCall → Prop}
    (onward : ∀ result, checked = .ok result → Ends (next result) state post) :
    Ends (MojDbServiceHandler.check checked >>= next) state post := by
  cases checked with
  | error err => exact Or.inl (Fails.bind ⟨state, err, fun message => ⟨message, rfl, rfl⟩⟩ next)
  | ok result => exact onward result rfl

theorem bind_write {calls : List VisitorCall} {next : Unit → Handling σ β}
    {post : σ → β → List VisitorCall → Prop}
    (onward : Ends (next ()) state fun final last later => post final last (calls ++ later)) :
    Ends (MojDbServiceHandler.write calls >>= next) state post := by
  have first : Ends (MojDbServiceHandler.write calls) state fun after _ written =>
      after = state ∧ written = calls := write ⟨rfl, rfl⟩
  apply first.bind
  intro after _ written _ same
  rw [same.1, same.2]
  exact onward

end Ends

def messageOf : EStateM.Result MojErr (σ × MojServiceMessage) α → MojServiceMessage
  | .ok _ after => after.2
  | .error _ after => after.2

def Keeps (handling : Handling σ α) : Prop :=
  ∀ before, before.2.replies <+: (messageOf (handling before)).replies

namespace Keeps

theorem bind {first : Handling σ α} {next : α → Handling σ β} (keeps : Keeps first)
    (onward : ∀ result, Keeps (next result)) : Keeps (first >>= next) := by
  intro before
  have begun := keeps before
  rw [bind_apply]
  cases ran : first before with
  | error err after =>
    rw [ran] at begun
    exact begun
  | ok result after =>
    rw [ran] at begun
    exact begun.trans (onward result after)

theorem pure (result : α) : Keeps (Pure.pure result : Handling σ α) := fun _ => List.prefix_rfl

theorem throw (err : MojErr) : Keeps (MonadExcept.throw err : Handling σ α) :=
  fun _ => List.prefix_rfl

theorem call (run : Call σ α) : Keeps (call run) := by
  intro before
  unfold MojDbServiceHandler.call
  rcases run before.1 with ⟨state, result⟩
  cases result <;> exact List.prefix_rfl

theorem check (checked : Except MojErr α) : Keeps (check checked : Handling σ α) := by
  intro before
  cases checked <;> exact List.prefix_rfl

theorem write (calls : List VisitorCall) : Keeps (write calls : Handling σ Unit) :=
  fun _ => List.prefix_rfl

theorem send {update : MojServiceMessage → Except MojErr MojServiceMessage}
    (keeps : ∀ message after, update message = .ok after → message.replies <+: after.replies) :
    Keeps (send update : Handling σ Unit) := by
  intro before
  unfold MojDbServiceHandler.send
  cases updated : update before.2 with
  | error err => exact List.prefix_rfl
  | ok after => exact keeps before.2 after updated

theorem when (condition : Bool) {handling : Handling σ Unit} (keeps : Keeps handling) :
    Keeps (when condition handling) := by
  unfold MojDbServiceHandler.when
  cases condition
  · exact pure ()
  · exact keeps

theorem of_ends {handling : Handling σ α} {post : σ → σ → α → List VisitorCall → Prop}
    (ends : ∀ state, Ends handling state (post state)) : Keeps handling := by
  intro before
  rcases ends before.1 with fails | ⟨next, result, calls, writes, _⟩
  · rcases fails with ⟨next, err, fails⟩
    rcases fails before.2 with ⟨left, failed, same⟩
    rw [show before = (before.1, before.2) from rfl, failed]
    exact same ▸ List.prefix_rfl
  · rw [show before = (before.1, before.2) from rfl, writes before.2]
    exact List.prefix_rfl

end Keeps

end Db8.Luna.MojDbServiceHandler
