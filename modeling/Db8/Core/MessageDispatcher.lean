import Mathlib.Data.List.Nodup
import Mathlib.Logic.Function.Basic
import Db8.Core.Object
import Db8.Steps

/-!
# The message dispatcher

`MojMessageDispatcher`: a queue for each name, scheduled while it has messages that nobody works on,
and pending while a worker has one of its messages out. A step is what is done between a lock and the
next unlock, by whichever thread. What was scheduled under a name is, in order, what has been taken
and then what its queue still has.
-/

set_option autoImplicit false

namespace Db8.Core

open Db8.Steps

structure DispatchQueue (μ : Type) where
  name : MojString
  messages : List μ

inductive DispatchWorker (μ : Type) where
  | waiting
  | running (queue : Nat) (msg : μ)
  | stopped

structure MojMessageDispatcher (μ ω : Type) where
  heap : Nat → Option (DispatchQueue μ)
  fresh : Nat
  scheduledList : List Nat
  pendingList : List Nat
  stop : Bool
  workers : ω → DispatchWorker μ
  /-- The messages given to `schedule`, for the record. -/
  posted : List μ
  /-- The messages given to workers, for the record. -/
  dispatched : List μ

inductive DispatchOp (μ ω : Type) where
  | schedule (msg : μ)
  | stop
  | take (worker : ω)
  | finish (worker : ω)
deriving DecidableEq

namespace MojMessageDispatcher

variable {μ ω : Type}

def init : MojMessageDispatcher μ ω :=
  ⟨fun _ => none, 0, [], [], false, fun _ => .waiting, [], []⟩

def findQueue (dispatcher : MojMessageDispatcher μ ω) (name : MojString) (list : List Nat) :
    Option Nat :=
  list.find? fun queue => decide ((dispatcher.heap queue).map DispatchQueue.name = some name)

def push (dispatcher : MojMessageDispatcher μ ω) (queue : Nat) (msg : μ) :
    MojMessageDispatcher μ ω :=
  { dispatcher with
    heap := Function.update dispatcher.heap queue
      ((dispatcher.heap queue).map fun live => { live with messages := live.messages ++ [msg] })
    posted := dispatcher.posted ++ [msg] }

def schedule (queueOf : μ → MojString) (msg : μ) (dispatcher : MojMessageDispatcher μ ω) :
    MojMessageDispatcher μ ω :=
  match dispatcher.findQueue (queueOf msg) dispatcher.scheduledList with
  | some queue => dispatcher.push queue msg
  | none =>
    match dispatcher.findQueue (queueOf msg) dispatcher.pendingList with
    | some queue => dispatcher.push queue msg
    | none =>
      push { dispatcher with
        heap := Function.update dispatcher.heap dispatcher.fresh (some ⟨queueOf msg, []⟩)
        fresh := dispatcher.fresh + 1
        scheduledList := dispatcher.scheduledList ++ [dispatcher.fresh] } dispatcher.fresh msg

variable [DecidableEq ω]

/-- `dispatch` up to its unlock. A worker with nothing to do waits until it is stopped. -/
def take (worker : ω) (dispatcher : MojMessageDispatcher μ ω) :
    Option (MojMessageDispatcher μ ω) :=
  match dispatcher.workers worker, dispatcher.scheduledList with
  | .waiting, [] =>
    if dispatcher.stop then
      some { dispatcher with workers := Function.update dispatcher.workers worker .stopped }
    else none
  | .waiting, queue :: rest =>
    match dispatcher.heap queue with
    | some ⟨name, msg :: messages⟩ => some { dispatcher with
        heap := Function.update dispatcher.heap queue (some ⟨name, messages⟩)
        scheduledList := rest
        pendingList := dispatcher.pendingList ++ [queue]
        workers := Function.update dispatcher.workers worker (.running queue msg)
        dispatched := dispatcher.dispatched ++ [msg] }
    | _ => none
  | _, _ => none

/-- `dispatch` from its second lock on. -/
def finish (worker : ω) (dispatcher : MojMessageDispatcher μ ω) :
    Option (MojMessageDispatcher μ ω) :=
  match dispatcher.workers worker with
  | .running queue _ =>
    let dispatcher := { dispatcher with
      pendingList := dispatcher.pendingList.erase queue
      workers := Function.update dispatcher.workers worker .waiting }
    match dispatcher.heap queue with
    | some ⟨_, []⟩ => some { dispatcher with heap := Function.update dispatcher.heap queue none }
    | some _ => some { dispatcher with scheduledList := dispatcher.scheduledList ++ [queue] }
    | none => none
  | _ => none

def step (queueOf : μ → MojString) : DispatchOp μ ω → MojMessageDispatcher μ ω →
    Option (MojMessageDispatcher μ ω)
  | .schedule msg, dispatcher => some (dispatcher.schedule queueOf msg)
  | .stop, dispatcher => some { dispatcher with stop := true }
  | .take worker, dispatcher => dispatcher.take worker
  | .finish worker, dispatcher => dispatcher.finish worker

def named (queueOf : μ → MojString) (name : MojString) (messages : List μ) : List μ :=
  messages.filter fun msg => decide (queueOf msg = name)

/-- Every live queue is in exactly one of the lists, under a name of its own, and has a message when
it is scheduled. -/
structure Consistent (dispatcher : MojMessageDispatcher μ ω) : Prop where
  listed : ∀ queue, dispatcher.heap queue ≠ none ↔
    queue ∈ dispatcher.scheduledList ++ dispatcher.pendingList
  nodup : (dispatcher.scheduledList ++ dispatcher.pendingList).Nodup
  names : ∀ queue other live otherLive, dispatcher.heap queue = some live →
    dispatcher.heap other = some otherLive → live.name = otherLive.name → queue = other
  filled : ∀ queue live, queue ∈ dispatcher.scheduledList → dispatcher.heap queue = some live →
    live.messages ≠ []

structure Sound (queueOf : μ → MojString) (dispatcher : MojMessageDispatcher μ ω) : Prop
    extends Consistent dispatcher where
  below : ∀ queue, dispatcher.heap queue ≠ none → queue < dispatcher.fresh
  own : ∀ queue live, dispatcher.heap queue = some live → ∀ msg ∈ live.messages,
    queueOf msg = live.name
  held : ∀ queue ∈ dispatcher.pendingList, ∃ worker msg,
    dispatcher.workers worker = .running queue msg
  running : ∀ worker queue msg, dispatcher.workers worker = .running queue msg →
    queue ∈ dispatcher.pendingList ∧ ∀ live, dispatcher.heap queue = some live →
      live.name = queueOf msg
  alone : ∀ worker other queue msg otherMsg, dispatcher.workers worker = .running queue msg →
    dispatcher.workers other = .running queue otherMsg → worker = other
  ordered : ∀ queue live, dispatcher.heap queue = some live →
    named queueOf live.name dispatcher.posted =
      named queueOf live.name dispatcher.dispatched ++ live.messages
  finished : ∀ name, (∀ queue live, dispatcher.heap queue = some live → live.name ≠ name) →
    named queueOf name dispatcher.posted = named queueOf name dispatcher.dispatched

omit [DecidableEq ω] in
theorem findQueue_some {dispatcher : MojMessageDispatcher μ ω} {name : MojString}
    {list : List Nat} {queue : Nat} (found : dispatcher.findQueue name list = some queue) :
    queue ∈ list ∧ ∃ live, dispatcher.heap queue = some live ∧ live.name = name := by
  have named := List.find?_some found
  rw [decide_eq_true_eq, Option.map_eq_some_iff] at named
  exact ⟨List.mem_of_find?_eq_some found, named⟩

omit [DecidableEq ω] in
theorem findQueue_none {dispatcher : MojMessageDispatcher μ ω} {name : MojString}
    {list : List Nat} (missing : dispatcher.findQueue name list = none) {queue : Nat}
    (member : queue ∈ list) {live : DispatchQueue μ} (here : dispatcher.heap queue = some live) :
    live.name ≠ name := by
  have other := List.find?_eq_none.mp missing queue member
  simpa [here] using other

theorem named_concat (queueOf : μ → MojString) (name : MojString) (messages : List μ) (msg : μ) :
    named queueOf name (messages ++ [msg]) =
      named queueOf name messages ++ if queueOf msg = name then [msg] else [] := by
  rw [named, List.filter_append]
  apply congrArg (named queueOf name messages ++ ·)
  by_cases same : queueOf msg = name <;> simp [same]

theorem update_some {heap : Nat → Option (DispatchQueue μ)} {queue other : Nat}
    {changed live : DispatchQueue μ}
    (here : Function.update heap queue (some changed) other = some live) :
    other = queue ∧ live = changed ∨ other ≠ queue ∧ heap other = some live := by
  by_cases same : other = queue
  · rw [same, Function.update_self] at here
    exact .inl ⟨same, (Option.some.inj here).symm⟩
  · rw [Function.update_of_ne same] at here
    exact .inr ⟨same, here⟩

theorem update_live {heap : Nat → Option (DispatchQueue μ)} {queue : Nat}
    {live : DispatchQueue μ} (here : heap queue = some live) (changed : DispatchQueue μ)
    (other : Nat) : Function.update heap queue (some changed) other ≠ none ↔ heap other ≠ none := by
  by_cases same : other = queue
  · simp [same, here]
  · rw [Function.update_of_ne same]

section Steps

variable {queueOf : μ → MojString} {dispatcher next : MojMessageDispatcher μ ω}

omit [DecidableEq ω] in
theorem sound_init : Sound queueOf (init : MojMessageDispatcher μ ω) := by
  constructor
  · constructor <;> simp [init]
  all_goals simp [init, named]

omit [DecidableEq ω] in
theorem sound_push (sound : Sound queueOf dispatcher) {queue : Nat} {live : DispatchQueue μ}
    (here : dispatcher.heap queue = some live) {msg : μ} (own : live.name = queueOf msg) :
    Sound queueOf (dispatcher.push queue msg) := by
  unfold push
  rw [here, Option.map_some]
  constructor
  · constructor
    · intro other
      rw [update_live here]
      exact sound.listed other
    · exact sound.nodup
    · intro first second firstLive secondLive firstHere secondHere same
      rcases update_some firstHere with ⟨rfl, rfl⟩ | ⟨_, firstOld⟩
      · rcases update_some secondHere with ⟨rfl, _⟩ | ⟨_, secondOld⟩
        · rfl
        · exact sound.names _ _ _ _ here secondOld same
      · rcases update_some secondHere with ⟨rfl, rfl⟩ | ⟨_, secondOld⟩
        · exact sound.names _ _ _ _ firstOld here same
        · exact sound.names _ _ _ _ firstOld secondOld same
    · intro other otherLive member otherHere
      rcases update_some otherHere with ⟨_, rfl⟩ | ⟨_, otherHere⟩
      · simp
      · exact sound.filled other otherLive member otherHere
  · intro other alive
    rw [update_live here] at alive
    exact sound.below other alive
  · intro other otherLive otherHere message member
    rcases update_some otherHere with ⟨_, rfl⟩ | ⟨_, otherHere⟩
    · rcases List.mem_append.mp member with old | new
      · exact sound.own queue live here message old
      · rw [List.mem_singleton.mp new]
        exact own.symm
    · exact sound.own other otherLive otherHere message member
  · exact sound.held
  · intro worker other message runs
    apply And.intro (sound.running worker other message runs).1
    intro otherLive otherHere
    rcases update_some otherHere with ⟨rfl, rfl⟩ | ⟨_, otherHere⟩
    · exact (sound.running worker other message runs).2 live here
    · exact (sound.running worker other message runs).2 otherLive otherHere
  · exact sound.alone
  · intro other otherLive otherHere
    rw [named_concat]
    rcases update_some otherHere with ⟨_, rfl⟩ | ⟨apart, otherHere⟩
    · rw [if_pos own.symm, sound.ordered queue live here, List.append_assoc]
    · have different : queueOf msg ≠ otherLive.name := by
        intro same
        exact apart (sound.names _ _ _ _ otherHere here (same.symm.trans own.symm))
      rw [if_neg different, List.append_nil]
      exact sound.ordered other otherLive otherHere
  · intro name unused
    have different : queueOf msg ≠ name := by
      intro same
      exact unused queue _ (Function.update_self ..) (own.trans same)
    rw [named_concat, if_neg different, List.append_nil]
    apply sound.finished
    intro other otherLive otherHere
    by_cases same : other = queue
    · rw [same, here] at otherHere
      cases otherHere
      exact fun equal => different (own.symm.trans equal)
    · exact unused other otherLive ((Function.update_of_ne same ..).trans otherHere)

omit [DecidableEq ω] in
theorem sound_create (sound : Sound queueOf dispatcher) {msg : μ}
    (unused : ∀ queue live, dispatcher.heap queue = some live → live.name ≠ queueOf msg) :
    Sound queueOf (push { dispatcher with
      heap := Function.update dispatcher.heap dispatcher.fresh (some ⟨queueOf msg, []⟩)
      fresh := dispatcher.fresh + 1
      scheduledList := dispatcher.scheduledList ++ [dispatcher.fresh] } dispatcher.fresh msg) := by
  have free : dispatcher.heap dispatcher.fresh = none := by
    by_contra alive
    exact absurd (sound.below _ alive) (Nat.lt_irrefl _)
  have unlisted : dispatcher.fresh ∉ dispatcher.scheduledList ++ dispatcher.pendingList := by
    rw [← sound.listed]
    exact not_not.mpr free
  have front : (dispatcher.scheduledList ++ [dispatcher.fresh] ++ dispatcher.pendingList).Perm
      (dispatcher.fresh :: (dispatcher.scheduledList ++ dispatcher.pendingList)) := by
    rw [List.append_assoc]
    exact List.perm_middle
  unfold push
  dsimp only
  rw [Function.update_self, Option.map_some, Function.update_idem, List.nil_append]
  constructor
  · constructor
    · intro other
      apply Iff.trans _ front.mem_iff.symm
      rw [List.mem_cons, ← sound.listed]
      by_cases same : other = dispatcher.fresh
      · simp [same]
      · simp [same]
    · exact front.nodup_iff.mpr (List.nodup_cons.mpr ⟨unlisted, sound.nodup⟩)
    · intro first second firstLive secondLive firstHere secondHere same
      rcases update_some firstHere with ⟨rfl, rfl⟩ | ⟨_, firstOld⟩
      · rcases update_some secondHere with ⟨rfl, _⟩ | ⟨_, secondOld⟩
        · rfl
        · exact absurd same.symm (unused second secondLive secondOld)
      · rcases update_some secondHere with ⟨rfl, rfl⟩ | ⟨_, secondOld⟩
        · exact absurd same (unused first firstLive firstOld)
        · exact sound.names _ _ _ _ firstOld secondOld same
    · intro other otherLive member otherHere
      rcases update_some otherHere with ⟨_, rfl⟩ | ⟨apart, otherHere⟩
      · simp
      · have old : other ∈ dispatcher.scheduledList := by simpa [apart] using member
        exact sound.filled other otherLive old otherHere
  · intro other alive
    by_cases same : other = dispatcher.fresh
    · rw [same]
      exact Nat.lt_succ_self dispatcher.fresh
    · apply Nat.lt_succ_of_lt
      apply sound.below
      intro gone
      exact alive ((Function.update_of_ne same ..).trans gone)
  · intro other otherLive otherHere message member
    rcases update_some otherHere with ⟨_, rfl⟩ | ⟨_, otherHere⟩
    · rw [List.mem_singleton.mp member]
    · exact sound.own other otherLive otherHere message member
  · exact sound.held
  · intro worker other message runs
    apply And.intro (sound.running worker other message runs).1
    intro otherLive otherHere
    rcases update_some otherHere with ⟨rfl, _⟩ | ⟨_, otherHere⟩
    · exact absurd (List.mem_append_right _ (sound.running worker _ message runs).1) unlisted
    · exact (sound.running worker other message runs).2 otherLive otherHere
  · exact sound.alone
  · intro other otherLive otherHere
    rw [named_concat]
    rcases update_some otherHere with ⟨_, rfl⟩ | ⟨_, otherHere⟩
    · rw [if_pos rfl, sound.finished _ unused]
    · rw [if_neg fun same => unused other otherLive otherHere same.symm, List.append_nil]
      exact sound.ordered other otherLive otherHere
  · intro name others
    have different : queueOf msg ≠ name := others dispatcher.fresh _ (Function.update_self ..)
    rw [named_concat, if_neg different, List.append_nil]
    apply sound.finished
    intro other otherLive otherHere
    apply others other otherLive
    have apart : other ≠ dispatcher.fresh := by
      rintro rfl
      rw [free] at otherHere
      cases otherHere
    exact (Function.update_of_ne apart ..).trans otherHere

omit [DecidableEq ω] in
theorem sound_schedule (sound : Sound queueOf dispatcher) (msg : μ) :
    Sound queueOf (dispatcher.schedule queueOf msg) := by
  unfold schedule
  split
  · next queue found =>
      rcases findQueue_some found with ⟨_, live, here, name⟩
      exact sound_push sound here name
  · next noneScheduled =>
      split
      · next queue found =>
          rcases findQueue_some found with ⟨_, live, here, name⟩
          exact sound_push sound here name
      · next nonePending =>
          apply sound_create sound
          intro queue live here
          have listed := (sound.listed queue).mp (by rw [here]; simp)
          rcases List.mem_append.mp listed with scheduled | pending
          · exact findQueue_none noneScheduled scheduled here
          · exact findQueue_none nonePending pending here

theorem sound_stopped (sound : Sound queueOf dispatcher) {worker : ω}
    (waits : dispatcher.workers worker = .waiting) :
    Sound queueOf { dispatcher with
      workers := Function.update dispatcher.workers worker .stopped } := by
  have runs : ∀ other queue msg,
      Function.update dispatcher.workers worker .stopped other = .running queue msg →
        dispatcher.workers other = .running queue msg := by
    intro other queue msg here
    by_cases same : other = worker
    · rw [same, Function.update_self] at here
      cases here
    · rwa [Function.update_of_ne same] at here
  refine ⟨⟨sound.listed, sound.nodup, sound.names, sound.filled⟩, sound.below, sound.own, ?_, ?_, ?_,
    sound.ordered, sound.finished⟩
  · intro queue pending
    rcases sound.held queue pending with ⟨other, msg, here⟩
    have apart : other ≠ worker := by
      rintro rfl
      rw [waits] at here
      cases here
    exact ⟨other, msg, (Function.update_of_ne apart ..).trans here⟩
  · intro other queue msg here
    exact sound.running other queue msg (runs other queue msg here)
  · intro first second queue msg otherMsg firstRuns secondRuns
    exact sound.alone first second queue msg otherMsg (runs _ _ _ firstRuns) (runs _ _ _ secondRuns)

theorem update_running {workers : ω → DispatchWorker μ} {worker other : ω} {queue otherQueue : Nat}
    {msg otherMsg : μ}
    (here : Function.update workers worker (.running queue msg) other =
      .running otherQueue otherMsg) :
    other = worker ∧ otherQueue = queue ∧ otherMsg = msg ∨
      other ≠ worker ∧ workers other = .running otherQueue otherMsg := by
  by_cases same : other = worker
  · rw [same, Function.update_self] at here
    cases here
    exact .inl ⟨same, rfl, rfl⟩
  · rw [Function.update_of_ne same] at here
    exact .inr ⟨same, here⟩

theorem sound_taken (sound : Sound queueOf dispatcher) {worker : ω}
    (waits : dispatcher.workers worker = .waiting) {queue : Nat} {rest : List Nat}
    (scheduled : dispatcher.scheduledList = queue :: rest) {name : MojString} {msg : μ}
    {messages : List μ} (here : dispatcher.heap queue = some ⟨name, msg :: messages⟩) :
    Sound queueOf { dispatcher with
      heap := Function.update dispatcher.heap queue (some ⟨name, messages⟩)
      scheduledList := rest
      pendingList := dispatcher.pendingList ++ [queue]
      workers := Function.update dispatcher.workers worker (.running queue msg)
      dispatched := dispatcher.dispatched ++ [msg] } := by
  have moved : (rest ++ (dispatcher.pendingList ++ [queue])).Perm
      (dispatcher.scheduledList ++ dispatcher.pendingList) := by
    rw [scheduled, ← List.append_assoc, List.cons_append]
    exact List.perm_append_singleton _ _
  have nodup := sound.nodup
  rw [scheduled, List.cons_append, List.nodup_cons, List.mem_append, not_or] at nodup
  have own : queueOf msg = name := sound.own queue _ here msg List.mem_cons_self
  constructor
  · constructor
    · intro other
      rw [update_live here, moved.mem_iff]
      exact sound.listed other
    · exact moved.nodup_iff.mpr sound.nodup
    · intro first second firstLive secondLive firstHere secondHere same
      rcases update_some firstHere with ⟨rfl, rfl⟩ | ⟨_, firstOld⟩
      · rcases update_some secondHere with ⟨rfl, _⟩ | ⟨_, secondOld⟩
        · rfl
        · exact sound.names _ _ _ _ here secondOld same
      · rcases update_some secondHere with ⟨rfl, rfl⟩ | ⟨_, secondOld⟩
        · exact sound.names _ _ _ _ firstOld here same
        · exact sound.names _ _ _ _ firstOld secondOld same
    · intro other otherLive member otherHere
      rcases update_some otherHere with ⟨rfl, _⟩ | ⟨_, otherOld⟩
      · exact absurd member nodup.1.1
      · apply sound.filled other otherLive _ otherOld
        rw [scheduled]
        exact List.mem_cons_of_mem _ member
  · intro other alive
    rw [update_live here] at alive
    exact sound.below other alive
  · intro other otherLive otherHere message member
    rcases update_some otherHere with ⟨_, rfl⟩ | ⟨_, otherOld⟩
    · exact sound.own queue _ here message (List.mem_cons_of_mem _ member)
    · exact sound.own other otherLive otherOld message member
  · intro other pending
    rcases List.mem_append.mp pending with old | new
    · rcases sound.held other old with ⟨holder, message, runs⟩
      have apart : holder ≠ worker := by
        rintro rfl
        rw [waits] at runs
        cases runs
      exact ⟨holder, message, (Function.update_of_ne apart ..).trans runs⟩
    · rw [List.mem_singleton.mp new]
      exact ⟨worker, msg, Function.update_self ..⟩
  · intro other otherQueue message runs
    rcases update_running runs with ⟨_, rfl, rfl⟩ | ⟨_, runsOld⟩
    · apply And.intro (List.mem_append_right _ (List.mem_singleton.mpr rfl))
      intro live live_here
      rcases update_some live_here with ⟨_, rfl⟩ | ⟨apart, _⟩
      · exact own.symm
      · exact absurd rfl apart
    · rcases sound.running other otherQueue message runsOld with ⟨pending, names⟩
      apply And.intro (List.mem_append_left _ pending)
      intro live live_here
      rcases update_some live_here with ⟨rfl, _⟩ | ⟨_, old⟩
      · exact absurd pending nodup.1.2
      · exact names live old
  · intro first second otherQueue message otherMessage firstRuns secondRuns
    rcases update_running firstRuns with ⟨rfl, rfl, _⟩ | ⟨_, firstOld⟩
    · rcases update_running secondRuns with ⟨same, _⟩ | ⟨_, secondOld⟩
      · exact same.symm
      · exact absurd (sound.running second _ _ secondOld).1 nodup.1.2
    · rcases update_running secondRuns with ⟨_, rfl, _⟩ | ⟨_, secondOld⟩
      · exact absurd (sound.running first _ _ firstOld).1 nodup.1.2
      · exact sound.alone first second otherQueue message otherMessage firstOld secondOld
  · intro other otherLive otherHere
    rw [named_concat]
    rcases update_some otherHere with ⟨_, rfl⟩ | ⟨apart, otherOld⟩
    · rw [if_pos own, List.append_assoc, List.singleton_append]
      exact sound.ordered queue _ here
    · have different : queueOf msg ≠ otherLive.name := by
        intro same
        exact apart (sound.names _ _ _ _ otherOld here (same.symm.trans own))
      rw [if_neg different, List.append_nil]
      exact sound.ordered other otherLive otherOld
  · intro other others
    have different : queueOf msg ≠ other := by
      intro same
      exact others queue _ (Function.update_self ..) (own.symm.trans same)
    rw [named_concat, if_neg different, List.append_nil]
    apply sound.finished
    intro otherQueue otherLive otherHere
    by_cases same : otherQueue = queue
    · rw [same, here] at otherHere
      cases otherHere
      exact fun equal => different (own.trans equal)
    · exact others otherQueue otherLive ((Function.update_of_ne same ..).trans otherHere)

theorem sound_take (sound : Sound queueOf dispatcher) {worker : ω}
    (stepped : dispatcher.take worker = some next) : Sound queueOf next := by
  unfold take at stepped
  split at stepped
  · next waits empty =>
      split at stepped
      · cases stepped
        exact sound_stopped sound waits
      · cases stepped
  · next queue rest waits scheduled =>
      split at stepped
      · next name msg messages here =>
          cases stepped
          exact sound_taken sound waits scheduled here
      · cases stepped
  · cases stepped

theorem released (sound : Sound queueOf dispatcher) {worker : ω} {queue : Nat} {msg : μ}
    (runs : dispatcher.workers worker = .running queue msg) :
    (∀ other ∈ dispatcher.pendingList.erase queue, ∃ holder message,
        Function.update dispatcher.workers worker .waiting holder = .running other message) ∧
      ∀ other otherQueue message,
        Function.update dispatcher.workers worker .waiting other = .running otherQueue message →
          otherQueue ∈ dispatcher.pendingList.erase queue ∧
            dispatcher.workers other = .running otherQueue message := by
  have nodup := (List.nodup_append.mp sound.nodup).2.1
  constructor
  · intro other member
    rcases nodup.mem_erase_iff.mp member with ⟨apart, member⟩
    rcases sound.held other member with ⟨holder, message, here⟩
    have different : holder ≠ worker := by
      rintro rfl
      rw [runs] at here
      cases here
      exact apart rfl
    exact ⟨holder, message, (Function.update_of_ne different ..).trans here⟩
  · intro other otherQueue message here
    have different : other ≠ worker := by
      rintro rfl
      rw [Function.update_self] at here
      cases here
    rw [Function.update_of_ne different] at here
    refine ⟨nodup.mem_erase_iff.mpr ⟨?_, (sound.running other otherQueue message here).1⟩, here⟩
    rintro rfl
    exact different (sound.alone other worker _ _ _ here runs)

theorem update_none {heap : Nat → Option (DispatchQueue μ)} {queue other : Nat}
    {live : DispatchQueue μ} (here : Function.update heap queue none other = some live) :
    other ≠ queue ∧ heap other = some live := by
  by_cases same : other = queue
  · rw [same, Function.update_self] at here
    cases here
  · rw [Function.update_of_ne same] at here
    exact ⟨same, here⟩

theorem sound_deleted (sound : Sound queueOf dispatcher) {worker : ω} {queue : Nat} {msg : μ}
    (runs : dispatcher.workers worker = .running queue msg) {name : MojString}
    (here : dispatcher.heap queue = some ⟨name, []⟩) :
    Sound queueOf { dispatcher with
      pendingList := dispatcher.pendingList.erase queue
      workers := Function.update dispatcher.workers worker .waiting
      heap := Function.update dispatcher.heap queue none } := by
  rcases released sound runs with ⟨held, running⟩
  have nodup := List.nodup_append.mp sound.nodup
  constructor
  · constructor
    · intro other
      have listed := sound.listed other
      rw [List.mem_append] at listed
      dsimp only
      rw [List.mem_append, nodup.2.1.mem_erase_iff]
      by_cases same : other = queue
      · subst same
        have unscheduled : other ∉ dispatcher.scheduledList := by
          intro scheduled
          exact nodup.2.2 other scheduled other (sound.running worker other msg runs).1 rfl
        simp [unscheduled]
      · rw [Function.update_of_ne same, listed]
        simp [same]
    · exact sound.nodup.sublist (List.Sublist.append_left List.erase_sublist _)
    · intro first second firstLive secondLive firstHere secondHere same
      exact sound.names _ _ _ _ (update_none firstHere).2 (update_none secondHere).2 same
    · intro other live member otherHere
      exact sound.filled other live member (update_none otherHere).2
  · intro other alive
    rcases Option.ne_none_iff_exists'.mp alive with ⟨live, otherHere⟩
    exact sound.below other (by rw [(update_none otherHere).2]; simp)
  · intro other live otherHere
    exact sound.own other live (update_none otherHere).2
  · exact held
  · intro other otherQueue message otherRuns
    rcases running other otherQueue message otherRuns with ⟨member, old⟩
    apply And.intro member
    intro live otherHere
    exact (sound.running other otherQueue message old).2 live (update_none otherHere).2
  · intro first second otherQueue message otherMessage firstRuns secondRuns
    exact sound.alone first second otherQueue message otherMessage (running _ _ _ firstRuns).2
      (running _ _ _ secondRuns).2
  · intro other live otherHere
    exact sound.ordered other live (update_none otherHere).2
  · intro other others
    by_cases same : other = name
    · have done := sound.ordered queue _ here
      rw [List.append_nil] at done
      rw [same]
      exact done
    · apply sound.finished
      intro otherQueue live otherHere
      by_cases own : otherQueue = queue
      · rw [own, here] at otherHere
        cases otherHere
        exact Ne.symm same
      · exact others otherQueue live ((Function.update_of_ne own ..).trans otherHere)

theorem sound_requeued (sound : Sound queueOf dispatcher) {worker : ω} {queue : Nat} {msg : μ}
    (runs : dispatcher.workers worker = .running queue msg)
    (filled : ∀ live, dispatcher.heap queue = some live → live.messages ≠ []) :
    Sound queueOf { dispatcher with
      pendingList := dispatcher.pendingList.erase queue
      workers := Function.update dispatcher.workers worker .waiting
      scheduledList := dispatcher.scheduledList ++ [queue] } := by
  rcases released sound runs with ⟨held, running⟩
  have moved : (dispatcher.scheduledList ++ [queue] ++ dispatcher.pendingList.erase queue).Perm
      (dispatcher.scheduledList ++ dispatcher.pendingList) := by
    rw [List.append_assoc, List.singleton_append]
    exact (List.perm_cons_erase (sound.running worker queue msg runs).1).symm.append_left _
  constructor
  · constructor
    · intro other
      exact (sound.listed other).trans moved.mem_iff.symm
    · exact moved.nodup_iff.mpr sound.nodup
    · exact sound.names
    · intro other live member otherHere
      rcases List.mem_append.mp member with old | new
      · exact sound.filled other live old otherHere
      · rw [List.mem_singleton.mp new] at otherHere
        exact filled live otherHere
  · exact sound.below
  · exact sound.own
  · exact held
  · intro other otherQueue message otherRuns
    rcases running other otherQueue message otherRuns with ⟨member, old⟩
    exact ⟨member, (sound.running other otherQueue message old).2⟩
  · intro first second otherQueue message otherMessage firstRuns secondRuns
    exact sound.alone first second otherQueue message otherMessage (running _ _ _ firstRuns).2
      (running _ _ _ secondRuns).2
  · exact sound.ordered
  · exact sound.finished

theorem sound_finish (sound : Sound queueOf dispatcher) {worker : ω}
    (stepped : dispatcher.finish worker = some next) : Sound queueOf next := by
  unfold finish at stepped
  split at stepped
  · next queue msg runs =>
      dsimp only at stepped
      split at stepped
      · next name here =>
          cases stepped
          exact sound_deleted sound runs here
      · next live more here =>
          cases stepped
          apply sound_requeued sound runs
          rintro ⟨name, messages⟩ otherHere none
          rw [here] at otherHere
          cases otherHere
          exact more name (by rw [← none])
      · cases stepped
  · cases stepped

theorem sound_step (op : DispatchOp μ ω) (dispatcher next : MojMessageDispatcher μ ω)
    (sound : Sound queueOf dispatcher) (stepped : step queueOf op dispatcher = some next) :
    Sound queueOf next := by
  cases op with
  | schedule msg =>
    cases stepped
    exact sound_schedule sound msg
  | stop =>
    cases stepped
    exact ⟨⟨sound.listed, sound.nodup, sound.names, sound.filled⟩, sound.below, sound.own,
      sound.held, sound.running, sound.alone, sound.ordered, sound.finished⟩
  | take worker => exact sound_take sound stepped
  | finish worker => exact sound_finish sound stepped

end Steps

/-! ### Once, in order, and to the end -/

/-- Nothing is scheduled once the dispatcher has been stopped. -/
def Timely : DispatchOp μ ω → MojMessageDispatcher μ ω → Prop
  | .schedule _, dispatcher => dispatcher.stop = false
  | _, _ => True

instance (op : DispatchOp μ ω) (dispatcher : MojMessageDispatcher μ ω) :
    Decidable (Timely op dispatcher) := by
  cases op <;> unfold Timely <;> infer_instance

def AllStopped (dispatcher : MojMessageDispatcher μ ω) : Prop :=
  (∃ worker, dispatcher.workers worker = .stopped) ∧
    ∀ worker, dispatcher.workers worker = .stopped

/-- A worker only stops when no queue is scheduled, and one that does not stop is left for those that
are scheduled afterwards. -/
structure Attended (dispatcher : MojMessageDispatcher μ ω) : Prop where
  early : dispatcher.stop = false → ∀ worker, dispatcher.workers worker ≠ .stopped
  served : (∃ worker, dispatcher.workers worker = .stopped) → dispatcher.scheduledList ≠ [] →
    ∃ worker, dispatcher.workers worker ≠ .stopped

section Ends

variable {queueOf : μ → MojString} {dispatcher next : MojMessageDispatcher μ ω}

omit [DecidableEq ω] in
theorem attended_init : Attended (init : MojMessageDispatcher μ ω) := by
  constructor
  · intro _ worker stopped
    cases stopped
  · intro _ none
    exact absurd rfl none

omit [DecidableEq ω] in
theorem schedule_workers (msg : μ) :
    (dispatcher.schedule queueOf msg).workers = dispatcher.workers ∧
      (dispatcher.schedule queueOf msg).stop = dispatcher.stop := by
  unfold schedule
  split
  · exact ⟨rfl, rfl⟩
  · split
    · exact ⟨rfl, rfl⟩
    · exact ⟨rfl, rfl⟩

theorem attended_update (attended : Attended dispatcher) {worker : ω} {state : DispatchWorker μ}
    (goesOn : state ≠ .stopped) (stops : next.stop = dispatcher.stop)
    (workers : next.workers = Function.update dispatcher.workers worker state) :
    Attended next := by
  have here : next.workers worker ≠ .stopped := by
    rw [workers, Function.update_self]
    exact goesOn
  constructor
  · intro running other
    by_cases same : other = worker
    · rw [same]
      exact here
    · rw [workers, Function.update_of_ne same]
      exact attended.early (stops ▸ running) other
  · intro _ _
    exact ⟨worker, here⟩

theorem attended_step (op : DispatchOp μ ω) (dispatcher next : MojMessageDispatcher μ ω)
    (attended : Attended dispatcher) (timely : Timely op dispatcher)
    (stepped : step queueOf op dispatcher = some next) : Attended next := by
  cases op with
  | schedule msg =>
    cases stepped
    have early := attended.early timely
    have same : (dispatcher.schedule queueOf msg).workers = dispatcher.workers ∧
        (dispatcher.schedule queueOf msg).stop = dispatcher.stop := schedule_workers msg
    constructor
    · intro _
      rw [same.1]
      exact early
    · rintro ⟨worker, stopped⟩
      rw [same.1] at stopped
      exact absurd stopped (early worker)
  | stop =>
    cases stepped
    constructor
    · rintro ⟨⟩
    · exact attended.served
  | take worker =>
    rw [step, take] at stepped
    split at stepped
    · next waits empty =>
        split at stepped
        · next stops =>
            cases stepped
            constructor
            · intro running
              exact absurd (stops.symm.trans running) (by simp)
            · intro _ filled
              exact absurd empty filled
        · cases stepped
    · split at stepped
      · cases stepped
        exact attended_update attended (by simp) rfl rfl
      · cases stepped
    · cases stepped
  | finish worker =>
    rw [step, finish] at stepped
    split at stepped
    · dsimp only at stepped
      split at stepped
      · cases stepped
        exact attended_update attended (by simp) rfl rfl
      · cases stepped
        exact attended_update attended (by simp) rfl rfl
      · cases stepped
    · cases stepped

omit [DecidableEq ω] in
theorem named_starts (sound : Sound queueOf dispatcher) (name : MojString) :
    named queueOf name dispatcher.dispatched <+: named queueOf name dispatcher.posted := by
  by_cases live : ∃ queue live, dispatcher.heap queue = some live ∧ live.name = name
  · rcases live with ⟨queue, live, here, rfl⟩
    rw [sound.ordered queue live here]
    exact List.prefix_append _ _
  · have others : ∀ queue live, dispatcher.heap queue = some live → live.name ≠ name :=
      fun queue other here same => live ⟨queue, other, here, same⟩
    exact sound.finished name others ▸ List.prefix_rfl

theorem count_named [DecidableEq μ] (msg : μ) (messages : List μ) :
    (named queueOf (queueOf msg) messages).count msg = messages.count msg :=
  List.count_filter (by simp)

omit [DecidableEq ω] in
theorem named_of_stopped (sound : Sound queueOf dispatcher) (attended : Attended dispatcher)
    (stopped : AllStopped dispatcher) (name : MojString) :
    named queueOf name dispatcher.dispatched = named queueOf name dispatcher.posted := by
  have unscheduled : dispatcher.scheduledList = [] := by
    by_contra filled
    rcases attended.served stopped.1 filled with ⟨worker, goesOn⟩
    exact goesOn (stopped.2 worker)
  symm
  apply sound.finished
  intro queue live here
  have listed := (sound.listed queue).mp (by rw [here]; simp)
  rw [unscheduled, List.nil_append] at listed
  rcases sound.held queue listed with ⟨worker, msg, runs⟩
  rw [stopped.2 worker] at runs
  cases runs

end Ends

/-- In every run of the dispatcher its lists are consistent, no two workers have messages of one
queue, the messages of a queue are dispatched in the order they were scheduled in and none more often
than it was scheduled; and when all workers have stopped, and nothing was scheduled after the stop,
they have all been dispatched. -/
theorem dispatched_once_in_order [DecidableEq μ] (queueOf : μ → MojString)
    (ops : List (DispatchOp μ ω)) (dispatcher : MojMessageDispatcher μ ω)
    (ran : run (step queueOf) ops init = some dispatcher) :
    Consistent dispatcher ∧
      (∀ worker other queue otherQueue msg otherMsg,
        dispatcher.workers worker = .running queue msg →
        dispatcher.workers other = .running otherQueue otherMsg →
        queueOf msg = queueOf otherMsg → worker = other) ∧
      (∀ name, named queueOf name dispatcher.dispatched <+:
        named queueOf name dispatcher.posted) ∧
      (∀ msg, dispatcher.dispatched.count msg ≤ dispatcher.posted.count msg) ∧
      (Throughout (step queueOf) Timely ops init → AllStopped dispatcher →
        ∀ name, named queueOf name dispatcher.dispatched =
          named queueOf name dispatcher.posted) := by
  have sound : Sound queueOf dispatcher := run_keeps sound_step sound_init ran
  refine ⟨sound.toConsistent, ?_, named_starts sound, ?_, ?_⟩
  · intro worker other queue otherQueue msg otherMsg runs otherRuns same
    rcases sound.running worker queue msg runs with ⟨pending, names⟩
    rcases sound.running other otherQueue otherMsg otherRuns with ⟨otherPending, otherNames⟩
    have alive := (sound.listed queue).mpr (List.mem_append_right _ pending)
    have otherAlive := (sound.listed otherQueue).mpr (List.mem_append_right _ otherPending)
    rcases Option.ne_none_iff_exists'.mp alive with ⟨live, here⟩
    rcases Option.ne_none_iff_exists'.mp otherAlive with ⟨otherLive, otherHere⟩
    have queues : queue = otherQueue := by
      apply sound.names queue otherQueue live otherLive here otherHere
      rw [names live here, otherNames otherLive otherHere, same]
    subst queues
    exact sound.alone worker other queue msg otherMsg runs otherRuns
  · intro msg
    have dispatched : (named queueOf (queueOf msg) dispatcher.dispatched).count msg =
        dispatcher.dispatched.count msg := count_named msg dispatcher.dispatched
    have posted : (named queueOf (queueOf msg) dispatcher.posted).count msg =
        dispatcher.posted.count msg := count_named msg dispatcher.posted
    rw [← dispatched, ← posted]
    exact (named_starts sound (queueOf msg)).sublist.count_le msg
  · intro timely stopped
    exact named_of_stopped sound (run_keeps_where attended_step attended_init timely ran) stopped

def twoQueues (msg : Nat) : MojString := chars [if msg = 2 then 'b' else 'a']

/-- Three messages in two queues, with two workers. -/
def twoWorkers : List (DispatchOp Nat Bool) :=
  [.schedule 0, .schedule 1, .schedule 2, .take false, .take true, .stop, .finish true, .take true,
    .finish false, .take false, .finish false, .take false]

theorem dispatched_once_in_order_of_twoWorkers :
    ∃ dispatcher, run (step twoQueues) twoWorkers init = some dispatcher ∧
      dispatcher.dispatched = [0, 2, 1] ∧ Consistent dispatcher ∧
      ∀ name, named twoQueues name dispatcher.dispatched =
        named twoQueues name dispatcher.posted := by
  refine ⟨_, rfl, rfl, (dispatched_once_in_order twoQueues twoWorkers _ rfl).1, ?_⟩
  apply (dispatched_once_in_order twoQueues twoWorkers _ rfl).2.2.2.2 (by decide)
  apply And.intro ⟨false, rfl⟩
  intro worker
  cases worker <;> rfl

end MojMessageDispatcher

end Db8.Core
