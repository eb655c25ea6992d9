import Db8.Db.WatchKeys
import Mathlib.Data.List.Count

/-!
# Calls about one watcher

What the index, the transactions and the cursors keep for the watchers, and that each call about one
of them keeps it: a key that arrives, the closing of the cursor, and cancelling.
-/

set_option autoImplicit false

namespace Db8.Db.Watches

open Db8.Bytes
open Db8.Core

/-! ### What holds all along -/

inductive Tracks (signalled held : Prop) (watcher : MojDbWatcher) (watch : Watch) : Prop where
  | pending (state : watcher.state = .pending) (open_ : watch.limit = none)
      (kept : watch.cancelled = false) (silent : ¬ signalled) (holds : held)
      (unlimited : watcher.limitKey = []) (desc : watcher.desc = watch.desc)
      (fireKey : Kept watch watcher.fireKey) (index : watcher.index = some watch.index)
      (ranges : watcher.ranges = watch.ranges)
  | active (state : watcher.state = .active) (limit : watch.limit = some watcher.limitKey)
      (kept : watch.cancelled = false) (silent : ¬ signalled) (free : ¬ held)
      (desc : watcher.desc = watch.desc) (waits : watch.due = false)
      (index : watcher.index = some watch.index) (ranges : watcher.ranges = watch.ranges)
  | signalled (state : watcher.state = .invalid) (index : watcher.index = none)
      (called : signalled) (free : ¬ held) (kept : watch.cancelled = false)
      (due : watch.due = true)
  | cancelled (state : watcher.state = .invalid) (index : watcher.index = none)
      (silent : ¬ signalled) (free : ¬ held) (limited : watch.limit ≠ none)
      (given : watch.cancelled = true)

def countOf (sys : System) (index : Nat) (domain : MojString) : Option Nat :=
  match (sys.indexes index).watcherVec.countP fun handle =>
    decide ((sys.watchers handle).domain = domain) with
  | 0 => none
  | count => some count

structure Base (sys : System) (history : History) : Prop where
  next : sys.next = history.next
  fresh : ∀ handle, sys.next ≤ handle → (sys.watchers handle).index = none ∧
    handle ∉ sys.signals ∧ handle ∉ sys.cursors ∧ (history.watches handle).limit = none ∧
      ∀ txn, told handle (sys.txns txn) = [] ∧ told handle (sys.firing txn) = []
  once : ∀ index, (sys.indexes index).watcherVec.Nodup
  registered : ∀ index handle, handle ∈ (sys.indexes index).watcherVec ↔
    (sys.watchers handle).index = some index
  counts : ∀ index domain, (sys.indexes index).watcherMap domain = countOf sys index domain
  collected : ∀ handle txn, (sys.watchers handle).index ≠ none →
    told handle (sys.txns txn) = (leastOf ((history.watches handle).touched txn)).toList
  sent : ∀ handle txn, (sys.watchers handle).index ≠ none →
    (told handle (sys.firing txn)).map some = ((history.watches handle).sent txn).map leastOf
  signals : sys.signals.Nodup
  held : sys.cursors.Nodup

def AllTrack (sys : System) (history : History) : Prop :=
  ∀ handle < sys.next, Tracks (handle ∈ sys.signals) (handle ∈ sys.cursors) (sys.watchers handle)
    (history.watches handle)

structure Inv (sys : System) (history : History) : Prop where
  base : Base sys history
  tracks : AllTrack sys history

theorem inv_start : Inv System.start History.start := by
  refine ⟨⟨rfl, ?_, fun _ => List.nodup_nil, ?_, fun _ _ => rfl, ?_, ?_, List.nodup_nil,
    List.nodup_nil⟩, ?_⟩
  · intro handle _
    exact ⟨rfl, List.not_mem_nil, List.not_mem_nil, rfl, fun _ => ⟨rfl, rfl⟩⟩
  · intro index handle
    constructor
    · exact nofun
    · exact nofun
  · intro handle txn bound
    exact absurd rfl bound
  · intro handle txn bound
    exact absurd rfl bound
  · intro handle below
    exact absurd below (Nat.not_lt_zero handle)

section Changes

variable {sys : System} {history : History} {handle : Nat}

theorem Base.below (base : Base sys history) {index : Nat}
    (bound : (sys.watchers handle).index = some index) : handle < sys.next := by
  by_contra above
  have none_ := (base.fresh handle (not_lt.mp above)).1
  rw [bound] at none_
  cases none_

theorem watches_change (history : History) (handle other : Nat) (change : Watch → Watch) :
    (history.change handle change).watches other =
      if other = handle ∧ handle < history.next then change (history.watches other)
      else history.watches other := by
  unfold History.change
  by_cases below : handle < history.next
  · rw [if_pos below]
    by_cases same : other = handle
    · subst same
      simp [below]
    · simp [same]
  · rw [if_neg below]
    simp [below]

theorem change_here {history : History} {handle : Nat} (below : handle < history.next)
    (change : Watch → Watch) :
    (history.change handle change).watches handle = change (history.watches handle) := by
  rw [watches_change, if_pos ⟨rfl, below⟩]

theorem change_other (history : History) {handle other : Nat} (apart : other ≠ handle)
    (change : Watch → Watch) :
    (history.change handle change).watches other = history.watches other := by
  rw [watches_change, if_neg (fun both => apart both.1)]

theorem change_next (history : History) (handle : Nat) (change : Watch → Watch) :
    (history.change handle change).next = history.next := by
  unfold History.change
  split_ifs <;> rfl

theorem Base.change (base : Base sys history) {change : Watch → Watch}
    (touched : (change (history.watches handle)).touched = (history.watches handle).touched)
    (sent : (change (history.watches handle)).sent = (history.watches handle).sent) :
    Base sys (history.change handle change) := by
  have same : ∀ other, ((history.change handle change).watches other).touched =
      (history.watches other).touched ∧
        ((history.change handle change).watches other).sent = (history.watches other).sent := by
    intro other
    rw [watches_change]
    split_ifs with here
    · rw [here.1, touched, sent]
      exact ⟨rfl, rfl⟩
    · exact ⟨rfl, rfl⟩
  refine ⟨base.next.trans (change_next history handle change).symm, ?_, base.once, base.registered,
    base.counts, ?_, ?_, base.signals, base.held⟩
  · intro other above
    rcases base.fresh other above with ⟨a, b, c, limit, d⟩
    refine ⟨a, b, c, ?_, d⟩
    rw [watches_change, if_neg, limit]
    rintro ⟨rfl, below⟩
    rw [base.next] at above
    omega
  · intro other txn bound
    rw [(same other).1]
    exact base.collected other txn bound
  · intro other txn bound
    rw [(same other).2]
    exact base.sent other txn bound

theorem Base.setWatcher (base : Base sys history) {watcher : MojDbWatcher}
    (index : watcher.index = (sys.watchers handle).index)
    (domain : watcher.domain = (sys.watchers handle).domain) :
    Base (setWatcher sys handle watcher) history := by
  have same : ∀ other, ((Watches.setWatcher sys handle watcher).watchers other).index =
      (sys.watchers other).index ∧ ((Watches.setWatcher sys handle watcher).watchers other).domain =
        (sys.watchers other).domain := by
    intro other
    unfold Watches.setWatcher
    by_cases here : other = handle
    · rw [here]
      simp [index, domain]
    · simp [here]
  refine ⟨base.next, ?_, base.once, ?_, ?_, ?_, ?_, base.signals, base.held⟩
  · intro other above
    rw [(same other).1]
    exact base.fresh other above
  · intro at_ other
    rw [(same other).1]
    exact base.registered at_ other
  · intro at_ name
    have counts := base.counts at_ name
    unfold countOf at counts ⊢
    simp only [(same _).2]
    exact counts
  · intro other txn bound
    rw [(same other).1] at bound
    exact base.collected other txn bound
  · intro other txn bound
    rw [(same other).1] at bound
    exact base.sent other txn bound

theorem Base.signal (base : Base sys history) (silent : handle ∉ sys.signals)
    (below : handle < sys.next) : Base { sys with signals := sys.signals ++ [handle] } history := by
  refine ⟨base.next, ?_, base.once, base.registered, base.counts, base.collected, base.sent, ?_,
    base.held⟩
  · intro other above
    rcases base.fresh other above with ⟨a, quiet, c⟩
    refine ⟨a, ?_, c⟩
    intro member
    rcases List.mem_append.mp member with before | last
    · exact quiet before
    · rw [List.mem_singleton.mp last] at above
      exact absurd below (not_lt.mpr above)
  · rw [List.nodup_append]
    refine ⟨base.signals, List.nodup_singleton _, ?_⟩
    intro other member _ last same
    rw [List.mem_singleton.mp last] at same
    exact silent (same ▸ member)

theorem Base.leaveCursor (base : Base sys history) :
    Base { sys with cursors := sys.cursors.erase handle } history := by
  refine ⟨base.next, ?_, base.once, base.registered, base.counts, base.collected, base.sent,
    base.signals, base.held.erase handle⟩
  intro other above
  rcases base.fresh other above with ⟨a, b, free, c⟩
  exact ⟨a, b, fun member => free (List.mem_of_mem_erase member), c⟩

structure Others (handle : Nat) (before after : System) : Prop where
  next : after.next = before.next
  watchers : ∀ other ≠ handle, after.watchers other = before.watchers other
  signals : ∀ other ≠ handle, other ∈ after.signals ↔ other ∈ before.signals
  cursors : ∀ other ≠ handle, other ∈ after.cursors ↔ other ∈ before.cursors

theorem Others.trans {first second third : System} (one : Others handle first second)
    (two : Others handle second third) : Others handle first third :=
  ⟨two.next.trans one.next,
    fun other apart => (two.watchers other apart).trans (one.watchers other apart),
    fun other apart => (two.signals other apart).trans (one.signals other apart),
    fun other apart => (two.cursors other apart).trans (one.cursors other apart)⟩

theorem setWatcher_watchers (sys : System) (handle : Nat) (watcher : MojDbWatcher) :
    (Watches.setWatcher sys handle watcher).watchers handle = watcher := Function.update_self _ _ _

theorem others_setWatcher (sys : System) (handle : Nat) (watcher : MojDbWatcher) :
    Others handle sys (Watches.setWatcher sys handle watcher) :=
  ⟨rfl, fun _ apart => Function.update_of_ne apart _ _, fun _ _ => Iff.rfl, fun _ _ => Iff.rfl⟩

theorem release_counts {counts : MojString → Option Nat} {vec : List Nat}
    {domainOf : Nat → MojString} (member : handle ∈ vec)
    (exact_ : ∀ domain, counts domain =
      match vec.countP fun other => decide (domainOf other = domain) with
      | 0 => none
      | count => some count) (domain : MojString) :
    release counts (domainOf handle) domain =
      match (vec.erase handle).countP fun other => decide (domainOf other = domain) with
      | 0 => none
      | count => some count := by
  have here := exact_ (domainOf handle)
  have some_ : 0 < vec.countP fun other => decide (domainOf other = domainOf handle) := by
    rw [List.countP_pos_iff]
    exact ⟨handle, member, by simp⟩
  rcases Nat.exists_eq_succ_of_ne_zero (Nat.pos_iff_ne_zero.mp some_) with ⟨count, total⟩
  rw [total] at here
  have known : counts (domainOf handle) = some (count + 1) := here
  unfold release
  rw [known]
  dsimp only
  rw [List.countP_erase]
  by_cases same : domain = domainOf handle
  · have one : (if handle ∈ vec ∧ decide (domainOf handle = domainOf handle) = true then 1 else 0) = 1 :=
      if_pos ⟨member, by simp⟩
    rw [same, Function.update_self, total, one]
    cases count <;> rfl
  · rw [Function.update_of_ne same, if_neg, exact_ domain]
    · rfl
    · rintro ⟨-, hit⟩
      exact same (of_decide_eq_true hit).symm

theorem invalidate_ok (base : Base sys history) {index : Nat}
    (bound : (sys.watchers handle).index = some index)
    (state : (sys.watchers handle).state = .active) :
    ∃ after, invalidate sys handle = some (after, none) ∧ Base after history ∧
      Others handle sys after ∧ after.signals = sys.signals ∧ after.cursors = sys.cursors ∧
      (after.watchers handle).state = .invalid ∧ (after.watchers handle).index = none := by
  have member := (base.registered index handle).mpr bound
  have below := base.below bound
  unfold invalidate
  dsimp only
  rw [bound]
  dsimp only
  rw [if_pos state]
  unfold cancelWatch
  rw [if_pos (show handle ∈ ((Watches.setWatcher sys handle { sys.watchers handle with
    index := none, state := .invalid }).indexes index).watcherVec from member)]
  refine ⟨_, rfl, ⟨base.next, ?_, ?_, ?_, ?_, ?_, ?_, base.signals, base.held⟩,
    ⟨rfl, ?_, fun _ _ => Iff.rfl, fun _ _ => Iff.rfl⟩, rfl, rfl, ?_, ?_⟩
  · intro other above
    have apart : other ≠ handle := fun same => absurd below (not_lt.mpr (same ▸ above))
    simp only [setIndex, Watches.setWatcher, Function.update_of_ne apart]
    exact base.fresh other above
  · intro at_
    by_cases same : at_ = index
    · simp only [setIndex, same, Function.update_self]
      exact (base.once index).erase handle
    · simp only [setIndex, Function.update_of_ne same]
      exact base.once at_
  · intro at_ other
    simp only [setIndex, Watches.setWatcher]
    by_cases here : other = handle
    · rw [here, Function.update_self]
      by_cases same : at_ = index
      · rw [same, Function.update_self]
        simp [(base.once index).mem_erase_iff]
      · rw [Function.update_of_ne same, base.registered, bound]
        simp [Ne.symm same]
    · rw [Function.update_of_ne here]
      by_cases same : at_ = index
      · rw [same, Function.update_self, ← base.registered index other]
        simp [(base.once index).mem_erase_iff, here]
      · rw [Function.update_of_ne same]
        exact base.registered at_ other
  · intro at_ domain
    have domains : ∀ other, ((Watches.setWatcher sys handle { sys.watchers handle with
        index := none, state := .invalid }).watchers other).domain =
          (sys.watchers other).domain := by
      intro other
      unfold Watches.setWatcher
      by_cases here : other = handle
      · rw [here]
        simp
      · simp [here]
    unfold countOf
    simp only [setIndex, domains]
    by_cases same : at_ = index
    · rw [same, Function.update_self]
      exact release_counts member (fun domain => base.counts index domain) domain
    · rw [Function.update_of_ne same]
      exact base.counts at_ domain
  · intro other txn live
    by_cases here : other = handle
    · rw [here] at live
      simp [setIndex, Watches.setWatcher] at live
    · simp only [setIndex, Watches.setWatcher, Function.update_of_ne here] at live ⊢
      exact base.collected other txn live
  · intro other txn live
    by_cases here : other = handle
    · rw [here] at live
      simp [setIndex, Watches.setWatcher] at live
    · simp only [setIndex, Watches.setWatcher, Function.update_of_ne here] at live ⊢
      exact base.sent other txn live
  · intro other apart
    simp only [setIndex, Watches.setWatcher, Function.update_of_ne apart]
  · simp [setIndex, Watches.setWatcher]
  · simp [setIndex, Watches.setWatcher]

theorem fireImpl_ok (base : Base sys history) {index : Nat}
    (bound : (sys.watchers handle).index = some index)
    (state : (sys.watchers handle).state = .active) (silent : handle ∉ sys.signals) :
    ∃ after, fireImpl sys handle = some (after, none) ∧ Base after history ∧
      Others handle sys after ∧ handle ∈ after.signals ∧ after.cursors = sys.cursors ∧
      (after.watchers handle).state = .invalid ∧ (after.watchers handle).index = none := by
  rcases invalidate_ok base bound state with
    ⟨mid, runs, midBase, others, signals, cursors, invalid, gone⟩
  have below : handle < mid.next := by
    rw [others.next]
    exact base.below bound
  unfold fireImpl
  rw [runs]
  refine ⟨_, rfl, midBase.signal (signals ▸ silent) below,
    ⟨others.next, others.watchers, ?_, others.cursors⟩, ?_, cursors, invalid, gone⟩
  · intro other apart
    rw [← others.signals other apart]
    simp [apart]
  · simp

theorem AllTrack.others (all : AllTrack sys history) {after : System} {change : Watch → Watch}
    (others : Others handle sys after)
    (here : handle < sys.next → Tracks (handle ∈ after.signals) (handle ∈ after.cursors)
      (after.watchers handle) ((history.change handle change).watches handle)) :
    AllTrack after (history.change handle change) := by
  intro other below
  rw [others.next] at below
  by_cases same : other = handle
  · rw [same] at below ⊢
    exact here below
  · have old := all other below
    rw [change_other history same, others.watchers other same]
    rw [← propext (others.signals other same), ← propext (others.cursors other same)] at old
    exact old

theorem due_of_limit {watch : Watch} {limit : MojDbKey} (known : watch.limit = some limit) :
    watch.due = watch.dueAt limit := by
  rw [Watch.due, known]
  rfl

theorem due_arrive {watch : Watch} (due : watch.due = true) (keys : List StoredKey) :
    (watch.arrive keys).due = true := by
  rw [Watch.due, Option.any_eq_true] at due ⊢
  rcases due with ⟨limit, known, at_⟩
  refine ⟨limit, known, ?_⟩
  rw [Watch.dueAt, Watch.arrive, List.any_append, Bool.or_eq_true]
  exact Or.inl at_

theorem fire_ok (base : Base sys history) {watch : Watch} {keys : List StoredKey} {key : StoredKey}
    (tracks : Tracks (handle ∈ sys.signals) (handle ∈ sys.cursors) (sys.watchers handle) watch)
    (known : (sys.watchers handle).index ≠ none → leastOf keys = some key) :
    ∃ after, Watches.fire sys handle key = some (after, none) ∧ Base after history ∧
      Others handle sys after ∧
      Tracks (handle ∈ after.signals) (handle ∈ after.cursors) (after.watchers handle)
        (watch.arrive keys) := by
  have stays : Others handle sys sys :=
    ⟨rfl, fun _ _ => rfl, fun _ _ => Iff.rfl, fun _ _ => Iff.rfl⟩
  unfold Watches.fire
  dsimp only
  cases tracks with
  | pending state open_ kept silent holds unlimited desc fireKey index ranges =>
    have least := known (by rw [index]; simp)
    have next := kept_arrive fireKey least
    rw [unlimited, if_pos (within_iff.mpr (Or.inl rfl)), state]
    dsimp only
    rw [desc]
    by_cases saved : saves watch.desc (sys.watchers handle).fireKey key = true
    · rw [if_pos saved] at next ⊢
      refine ⟨_, rfl, base.setWatcher rfl rfl, others_setWatcher _ _ _, ?_⟩
      rw [setWatcher_watchers]
      exact Tracks.pending rfl open_ kept silent holds rfl rfl next index ranges
    · rw [if_neg saved] at next ⊢
      exact ⟨sys, rfl, base, stays,
        Tracks.pending state open_ kept silent holds unlimited desc next index ranges⟩
  | active state limit kept silent free desc waits index ranges =>
    have least := known (by rw [index]; simp)
    have before : watch.dueAt (sys.watchers handle).limitKey = false := by
      rw [← due_of_limit limit]
      exact waits
    have now : (watch.arrive keys).due =
        within watch.desc (sys.watchers handle).limitKey key := by
      rw [@due_of_limit (watch.arrive keys) _ limit,
        dueAt_arrive watch least, before, Bool.false_or]
    rw [desc]
    by_cases inside : within watch.desc (sys.watchers handle).limitKey key = true
    · rw [if_pos inside, state]
      dsimp only
      rcases fireImpl_ok base index state silent with
        ⟨after, runs, afterBase, others, called, cursors, invalid, gone⟩
      refine ⟨after, runs, afterBase, others, ?_⟩
      rw [cursors]
      exact Tracks.signalled invalid gone called free kept (now.trans inside)
    · rw [if_neg inside]
      refine ⟨sys, rfl, base, stays, ?_⟩
      exact Tracks.active state limit kept silent free desc
        (now.trans (Bool.eq_false_iff.mpr inside)) index ranges
  | signalled state index called free kept due =>
    refine ⟨sys, ?_, base, stays,
      Tracks.signalled state index called free kept (due_arrive due keys)⟩
    rw [state]
    split_ifs <;> rfl
  | cancelled state index silent free limited given =>
    refine ⟨sys, ?_, base, stays, Tracks.cancelled state index silent free limited given⟩
    rw [state]
    split_ifs <;> rfl

/-! ### One call -/

structure Watch.Agrees (watch other : Watch) : Prop where
  limit : other.limit = watch.limit
  arrived : other.arrived = watch.arrived
  desc : other.desc = watch.desc
  cancelled : other.cancelled = watch.cancelled
  index : other.index = watch.index
  ranges : other.ranges = watch.ranges

theorem Tracks.agrees {signalled held : Prop} {watcher : MojDbWatcher} {watch other : Watch}
    (tracks : Tracks signalled held watcher watch) (same : watch.Agrees other) :
    Tracks signalled held watcher other := by
  rcases watch with ⟨_, _, _, _, _, _, _, _, _⟩
  rcases other with ⟨_, _, _, _, _, _, _, _, _⟩
  rcases same with ⟨limit, arrived, desc, cancelled, index, ranges⟩
  dsimp only at limit arrived desc cancelled index ranges
  subst limit arrived desc cancelled index ranges
  cases tracks with
  | pending state open_ kept silent holds unlimited desc fireKey index ranges =>
    exact Tracks.pending state open_ kept silent holds unlimited desc fireKey index ranges
  | active state limit kept silent free desc waits index ranges =>
    exact Tracks.active state limit kept silent free desc waits index ranges
  | signalled state index called free kept due =>
    exact Tracks.signalled state index called free kept due
  | cancelled state index silent free limited given =>
    exact Tracks.cancelled state index silent free limited given

theorem Tracks.live {signalled held : Prop} {watcher : MojDbWatcher} {watch : Watch}
    (tracks : Tracks signalled held watcher watch) (live : watcher.index ≠ none) :
    watcher.index = some watch.index ∧ watcher.ranges = watch.ranges := by
  cases tracks with
  | pending _ _ _ _ _ _ _ _ index ranges => exact ⟨index, ranges⟩
  | active _ _ _ _ _ _ _ index ranges => exact ⟨index, ranges⟩
  | signalled _ index _ _ _ _ => exact absurd index live
  | cancelled _ index _ _ _ _ => exact absurd index live

theorem others_self (sys : System) (handle : Nat) : Others handle sys sys :=
  ⟨rfl, fun _ _ => rfl, fun _ _ => Iff.rfl, fun _ _ => Iff.rfl⟩

theorem Inv.change_tracks (inv : Inv sys history) (below : handle < sys.next)
    {change : Watch → Watch} {signalled held : Prop} {watcher : MojDbWatcher}
    (tracks : Tracks signalled held watcher (change (history.watches handle))) :
    Tracks signalled held watcher ((history.change handle change).watches handle) := by
  rw [change_here (inv.base.next ▸ below)]
  exact tracks

theorem inv_fire (inv : Inv sys history) (below : handle < sys.next) (key : StoredKey) :
    ∃ after, Watches.fire sys handle key = some (after, none) ∧
      Inv after (history.change handle fun watch => watch.arrive [key]) := by
  rcases fire_ok inv.base (inv.tracks handle below) (fun _ => (rfl : leastOf [key] = some key)) with
    ⟨after, runs, base, others, tracks⟩
  exact ⟨after, runs, base.change rfl rfl,
    inv.tracks.others others fun _ => inv.change_tracks below tracks⟩

theorem fire_dead {sys : System} {handle : Nat} {signalled held : Prop} {watch : Watch}
    (tracks : Tracks signalled held (sys.watchers handle) watch)
    (dead : (sys.watchers handle).index = none) (key : StoredKey) :
    Watches.fire sys handle key = some (sys, none) := by
  have state : (sys.watchers handle).state = .invalid := by
    cases tracks with
    | pending _ _ _ _ _ _ _ _ index _ =>
      rw [dead] at index
      cases index
    | active _ _ _ _ _ _ _ index _ =>
      rw [dead] at index
      cases index
    | signalled state _ _ _ _ _ => exact state
    | cancelled state _ _ _ _ _ => exact state
  unfold Watches.fire
  dsimp only
  rw [state]
  split_ifs <;> rfl

section Deliver

variable {txn : Nat} {info : WatcherInfo} {infos : List WatcherInfo}

theorem waiting_below (base : Base sys history) (waiting : sys.firing txn = info :: infos) :
    info.1 < sys.next := by
  by_contra above
  have quiet := ((base.fresh info.1 (not_lt.mp above)).2.2.2.2 txn).2
  rw [waiting, told_cons, if_pos rfl] at quiet
  cases quiet

theorem sent_pop (base : Base sys history) (waiting : sys.firing txn = info :: infos)
    (live : (sys.watchers info.1).index ≠ none) :
    ∃ keys rest, (history.watches info.1).sent txn = keys :: rest ∧ leastOf keys = some info.2 ∧
      (told info.1 infos).map some = rest.map leastOf := by
  have queue := base.sent info.1 txn live
  rw [waiting, told_cons, if_pos rfl, List.map_cons] at queue
  cases sent : (history.watches info.1).sent txn with
  | nil =>
    rw [sent] at queue
    cases queue
  | cons keys rest =>
    rw [sent, List.map_cons] at queue
    rcases List.cons.inj queue with ⟨here, later⟩
    exact ⟨keys, rest, rfl, here.symm, later⟩

theorem deliver_sent {watch : Watch} {keys : List StoredKey} {rest : List (List StoredKey)}
    (sent : watch.sent txn = keys :: rest) : watch.deliver txn =
      ({ watch with sent := Function.update watch.sent txn rest } : Watch).arrive keys := by
  rw [Watch.deliver, sent]

theorem deliver_touched (watch : Watch) : (watch.deliver txn).touched = watch.touched := by
  unfold Watch.deliver
  cases watch.sent txn <;> rfl

theorem told_update (other at_ : Nat) :
    told other (Function.update sys.firing txn infos at_) =
      if at_ = txn then told other infos else told other (sys.firing at_) := by
  by_cases same : at_ = txn
  · rw [same, Function.update_self, if_pos rfl]
  · rw [Function.update_of_ne same, if_neg same]

theorem told_rest {other : Nat} (waiting : sys.firing txn = info :: infos) (apart : other ≠ info.1) :
    told other infos = told other (sys.firing txn) := by
  rw [waiting, told_cons, if_neg (Ne.symm apart)]

theorem base_deliver (base : Base sys history) (waiting : sys.firing txn = info :: infos) :
    Base { sys with firing := Function.update sys.firing txn infos }
      (history.change info.1 fun watch => watch.deliver txn) := by
  have below := waiting_below base waiting
  refine ⟨base.next.trans (change_next history info.1 _).symm, ?_, base.once, base.registered,
    base.counts, ?_, ?_, base.signals, base.held⟩
  · intro other above
    rcases base.fresh other above with ⟨a, b, c, limit, quiet⟩
    have apart : other ≠ info.1 := fun same => absurd below (not_lt.mpr (same ▸ above))
    refine ⟨a, b, c, ?_, ?_⟩
    · rw [change_other history apart, limit]
    · intro at_
      refine ⟨(quiet at_).1, ?_⟩
      rw [told_update]
      split_ifs with same
      · rw [told_rest waiting apart]
        exact (quiet txn).2
      · exact (quiet at_).2
  · intro other at_ live
    rw [watches_change]
    split_ifs with here
    · rw [deliver_touched]
      exact base.collected other at_ live
    · exact base.collected other at_ live
  · intro other at_ live
    rw [told_update]
    by_cases here : other = info.1
    · subst here
      rcases sent_pop base waiting live with ⟨keys, rest, sent, -, later⟩
      rw [change_here (base.next ▸ below), deliver_sent sent]
      show _ = (Function.update (history.watches info.1).sent txn rest at_).map leastOf
      by_cases same : at_ = txn
      · rw [if_pos same, same, Function.update_self]
        exact later
      · rw [if_neg same, Function.update_of_ne same]
        exact base.sent info.1 at_ live
    · have old := base.sent other at_ live
      rw [change_other history here]
      split_ifs with same
      · rw [told_rest waiting here, ← same]
        exact old
      · exact old

theorem deliver_runs (inv : Inv sys history) (waiting : sys.firing txn = info :: infos) :
    ∃ after, Watches.deliver sys txn info.1 = some (after, none) ∧
      Inv after (history.change info.1 fun watch => watch.deliver txn) := by
  have below := waiting_below inv.base waiting
  have base := base_deliver inv.base waiting
  have tracks := inv.tracks info.1 below
  have found : ∃ fired, Watches.fire
      { sys with firing := Function.update sys.firing txn infos } info.1 info.2 =
        some (fired, none) ∧
      Base fired (history.change info.1 fun watch => watch.deliver txn) ∧
      Others info.1 { sys with firing := Function.update sys.firing txn infos } fired ∧
      Tracks (info.1 ∈ fired.signals) (info.1 ∈ fired.cursors) (fired.watchers info.1)
        ((history.watches info.1).deliver txn) := by
    cases sent : (history.watches info.1).sent txn with
    | nil =>
      -- Only a watcher that is done with can have nothing sent.
      have dead : (sys.watchers info.1).index = none := by
        by_contra live
        rcases sent_pop inv.base waiting live with ⟨_, _, some_, -, -⟩
        rw [sent] at some_
        cases some_
      have unchanged : (history.watches info.1).deliver txn = history.watches info.1 := by
        rw [Watch.deliver, sent]
      rw [unchanged]
      refine ⟨_, ?_, base, others_self _ _, tracks⟩
      exact @fire_dead { sys with firing := Function.update sys.firing txn infos } _ _ _ _
        tracks dead info.2
    | cons keys rest =>
      have same : (history.watches info.1).Agrees { history.watches info.1 with
          sent := Function.update (history.watches info.1).sent txn rest } :=
        ⟨rfl, rfl, rfl, rfl, rfl, rfl⟩
      rw [deliver_sent sent]
      refine @fire_ok { sys with firing := Function.update sys.firing txn infos } _ _ base _
        keys info.2 (tracks.agrees same) ?_
      intro live
      rcases sent_pop inv.base waiting live with ⟨first, _, some_, least, -⟩
      rw [sent] at some_
      rw [(List.cons.inj some_).1]
      exact least
  rcases found with ⟨fired, fires, firedBase, others, firedTracks⟩
  have all : AllTrack { sys with firing := Function.update sys.firing txn infos } history :=
    inv.tracks
  refine ⟨fired, ?_, firedBase, all.others others fun _ => inv.change_tracks below firedTracks⟩
  unfold Watches.deliver
  rw [waiting]
  dsimp only
  rw [if_pos rfl, fires]

theorem inv_deliver (inv : Inv sys history) {after : System} {err : Option MojErr}
    (runs : Watches.deliver sys txn handle = some (after, err)) :
    Inv after (history.change handle fun watch => watch.deliver txn) := by
  cases waiting : sys.firing txn with
  | nil =>
    rw [Watches.deliver, waiting] at runs
    cases runs
  | cons info infos =>
    by_cases named : info.1 = handle
    · subst named
      rcases deliver_runs inv waiting with ⟨fired, delivers, holds⟩
      rw [delivers] at runs
      cases runs
      exact holds
    · rw [Watches.deliver, waiting] at runs
      dsimp only at runs
      rw [if_neg named] at runs
      cases runs

end Deliver

theorem close_rest (watch : Watch) (endKey : MojDbKey) :
    (watch.close endKey).touched = watch.touched ∧ (watch.close endKey).sent = watch.sent := by
  unfold Watch.close
  cases watch.limit <;> exact ⟨rfl, rfl⟩

theorem inv_close (inv : Inv sys history) (endKey : MojDbKey) :
    ∃ after, closeCursor sys handle endKey = some (after, none) ∧
      Inv after (history.change handle fun watch => watch.close endKey) := by
  have rest := close_rest (history.watches handle) endKey
  unfold closeCursor
  by_cases held : handle ∈ sys.cursors
  · rw [if_pos held]
    have below : handle < sys.next := by
      by_contra above
      exact (inv.base.fresh handle (not_lt.mp above)).2.2.1 held
    have left := @Base.leaveCursor sys history handle inv.base
    have gone : handle ∉ sys.cursors.erase handle := by
      rw [inv.base.held.mem_erase_iff]
      exact fun both => both.1 rfl
    have leaves : Others handle sys { sys with cursors := sys.cursors.erase handle } := by
      refine ⟨rfl, fun _ _ => rfl, fun _ _ => Iff.rfl, ?_⟩
      intro other apart
      show other ∈ sys.cursors.erase handle ↔ _
      rw [inv.base.held.mem_erase_iff, and_iff_right apart]
    cases inv.tracks handle below with
    | pending state open_ kept silent _ unlimited desc fireKey index ranges =>
      have closed : (history.watches handle).close endKey =
          { history.watches handle with limit := some endKey } := by
        rw [Watch.close, open_]
      have due : ((history.watches handle).close endKey).due =
          (history.watches handle).dueAt endKey := by
        rw [closed]
        rfl
      unfold activate
      dsimp only
      rw [if_neg (by rw [index]; simp), desc]
      -- The kept key decides whether something is due by now.
      have decides : ((sys.watchers handle).fireKey ≠ [] ∧
          within (history.watches handle).desc endKey (sys.watchers handle).fireKey = true) ↔
            (history.watches handle).dueAt endKey = true := by
        unfold Kept at fireKey
        by_cases first : (sys.watchers handle).fireKey = []
        · rw [if_pos first] at fireKey
          simp [first, Watch.dueAt, fireKey]
        · rw [if_neg first] at fireKey
          rw [fireKey endKey, and_iff_right first]
      by_cases now : (history.watches handle).dueAt endKey = true
      · rw [if_pos (decides.mpr now)]
        rcases @fireImpl_ok _ history handle (left.setWatcher (by rfl) (by rfl)) _
          ((congrArg MojDbWatcher.index (setWatcher_watchers { sys with
            cursors := sys.cursors.erase handle } handle { sys.watchers handle with
              desc := (history.watches handle).desc, state := .active })).trans index)
          (congrArg MojDbWatcher.state (setWatcher_watchers _ handle _)) silent with
          ⟨after, runs, base, others, called, cursors, invalid, none_⟩
        refine ⟨after, runs, base.change rest.1 rest.2,
          inv.tracks.others ((leaves.trans (others_setWatcher _ _ _)).trans others) fun _ =>
            inv.change_tracks below ?_⟩
        rw [cursors]
        exact Tracks.signalled invalid none_ called gone (by rw [closed]; exact kept)
          (due.trans now)
      · rw [if_neg (fun both => now (decides.mp both))]
        refine ⟨_, rfl, Base.change (left.setWatcher (by rfl) (by rfl)) rest.1 rest.2,
          inv.tracks.others (leaves.trans (others_setWatcher _ _ _)) fun _ =>
            inv.change_tracks below ?_⟩
        rw [setWatcher_watchers]
        rw [closed] at due ⊢
        exact Tracks.active rfl rfl kept silent gone rfl
          (due.trans (Bool.eq_false_iff.mpr now)) index ranges
    | active _ _ _ _ free _ _ _ _ => exact absurd held free
    | signalled _ _ _ free _ _ => exact absurd held free
    | cancelled _ _ _ free _ _ => exact absurd held free
  · rw [if_neg held]
    refine ⟨sys, rfl, inv.base.change rest.1 rest.2, inv.tracks.others (others_self sys handle) ?_⟩
    intro below
    apply inv.change_tracks below
    have tracks := inv.tracks handle below
    have limited : (history.watches handle).limit ≠ none := by
      cases tracks with
      | pending _ _ _ _ holds _ _ _ _ _ => exact absurd holds held
      | active _ limit _ _ _ _ _ _ _ => simp [limit]
      | signalled _ _ _ _ _ due =>
        intro open_
        rw [Watch.due, open_] at due
        cases due
      | cancelled _ _ _ _ limited _ => exact limited
    have same : (history.watches handle).close endKey = history.watches handle := by
      unfold Watch.close
      cases known : (history.watches handle).limit with
      | none => exact absurd known limited
      | some limit => rfl
    rw [same]
    exact tracks

theorem cancel_rest (watch : Watch) :
    watch.cancel.touched = watch.touched ∧ watch.cancel.sent = watch.sent := by
  unfold Watch.cancel
  split_ifs <;> exact ⟨rfl, rfl⟩

theorem inv_cancel (inv : Inv sys history) (below : handle < sys.next) {after : System}
    {err : Option MojErr} (runs : handleCancel sys handle = some (after, err)) :
    Inv after (history.change handle Watch.cancel) := by
  have rest := cancel_rest (history.watches handle)
  have unchanged : ∀ tracks : Tracks (handle ∈ sys.signals) (handle ∈ sys.cursors)
      (sys.watchers handle) (history.watches handle).cancel,
      Inv sys (history.change handle Watch.cancel) := fun tracks =>
    ⟨inv.base.change rest.1 rest.2,
      inv.tracks.others (others_self sys handle) fun _ => inv.change_tracks below tracks⟩
  unfold handleCancel at runs
  dsimp only at runs
  cases inv.tracks handle below with
  | pending state _ _ _ _ _ _ _ index _ =>
    rw [if_neg (by rw [index]; simp), if_pos (by rw [state]; simp), invalidate] at runs
    rw [index] at runs
    dsimp only at runs
    rw [if_neg (by rw [state]; simp)] at runs
    cases runs
  | active state limit kept silent free desc waits index ranges =>
    rw [if_neg (by rw [index]; simp), if_pos (by rw [state]; simp)] at runs
    rcases invalidate_ok inv.base index state with
      ⟨gone, ends, base, others, signals, cursors, invalid, none_⟩
    rw [ends] at runs
    cases runs
    refine ⟨base.change rest.1 rest.2,
      inv.tracks.others others fun _ => inv.change_tracks below ?_⟩
    rw [signals, cursors, Watch.cancel, if_neg (by rw [waits]; simp)]
    exact Tracks.cancelled invalid none_ silent free (by simp [limit]) rfl
  | signalled state index called free kept due =>
    rw [if_pos index] at runs
    cases runs
    apply unchanged
    rw [Watch.cancel, if_pos due]
    exact Tracks.signalled state index called free kept due
  | cancelled state index silent free limited given =>
    rw [if_pos index] at runs
    cases runs
    apply unchanged
    unfold Watch.cancel
    split_ifs
    · exact Tracks.cancelled state index silent free limited given
    · exact Tracks.cancelled state index silent free limited rfl

end Changes

end Db8.Db.Watches
