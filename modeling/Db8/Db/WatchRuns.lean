import Db8.Db.WatchCalls

/-!
# Runs of watched queries

Queries begin, transactions collect keys, commit and abort, and all the calls together keep the
invariant. So whether a handler has been called can be read off the history, and the index knows
exactly the watchers that still wait.
-/

set_option autoImplicit false

namespace Db8.Db.Watches

open Db8.Bytes
open Db8.Core

section Everyone

variable {sys : System} {history : History}

theorem countP_new {vec : List Nat} {handle : Nat} {before after : Nat → MojString}
    (same : ∀ other ∈ vec, after other = before other) (domain : MojString) :
    (vec ++ [handle]).countP (fun other => decide (after other = domain)) =
      vec.countP (fun other => decide (before other = domain)) +
        if after handle = domain then 1 else 0 := by
  rw [List.countP_append]
  congr 1
  · apply List.countP_congr
    intro other member
    rw [same other member]
  · by_cases here : after handle = domain <;> simp [here]

theorem inv_find (inv : Inv sys history) (index : Nat) (domain : MojString)
    (ranges : List MojDbKeyRange) (desc : Bool) :
    Inv (addWatch sys index domain ranges desc)
      (history.step (.find index domain ranges desc)) := by
  rcases inv with ⟨base, tracks⟩
  rcases base.fresh sys.next le_rfl with ⟨unbound, silent, free, -, quiet⟩
  have absent : ∀ at_, sys.next ∉ (sys.indexes at_).watcherVec := by
    intro at_ member
    rw [base.registered, unbound] at member
    cases member
  have watchers : ∀ other ≠ sys.next,
      (addWatch sys index domain ranges desc).watchers other = sys.watchers other :=
    fun other apart => Function.update_of_ne apart _ _
  have here : (addWatch sys index domain ranges desc).watchers sys.next =
      ⟨ranges, [], [], domain, desc, .pending, some index⟩ := Function.update_self _ _ _
  have watches : ∀ other ≠ sys.next,
      (history.step (.find index domain ranges desc)).watches other = history.watches other := by
    intro other apart
    rw [base.next] at apart
    exact Function.update_of_ne apart _ _
  have watchHere : (history.step (.find index domain ranges desc)).watches sys.next =
      ⟨index, domain, ranges, desc, fun _ => [], fun _ => [], [], none, false⟩ := by
    rw [base.next]
    exact Function.update_self _ _ _
  have vecs : ∀ at_, ((addWatch sys index domain ranges desc).indexes at_).watcherVec =
      if at_ = index then (sys.indexes index).watcherVec ++ [sys.next]
      else (sys.indexes at_).watcherVec := by
    intro at_
    unfold addWatch setIndex
    by_cases same : at_ = index
    · rw [if_pos same, same]
      simp
    · rw [if_neg same]
      simp [same, Watches.setWatcher]
  refine ⟨⟨congrArg (· + 1) base.next, ?_, ?_, ?_, ?_, ?_, ?_, base.signals,
    List.nodup_cons.mpr ⟨free, base.held⟩⟩, ?_⟩
  · intro other above
    have later : sys.next < other := above
    have apart : other ≠ sys.next := Nat.ne_of_gt later
    rcases base.fresh other (le_of_lt later) with ⟨a, b, c, d, e⟩
    rw [watchers other apart, watches other apart]
    refine ⟨a, b, ?_, d, e⟩
    intro member
    rcases List.mem_cons.mp member with same | old
    · exact apart same
    · exact c old
  · intro at_
    rw [vecs]
    split_ifs with same
    · rw [List.nodup_append]
      refine ⟨base.once index, List.nodup_singleton _, ?_⟩
      intro other member _ last same
      rw [List.mem_singleton.mp last] at same
      exact absent index (same ▸ member)
    · exact base.once at_
  · intro at_ other
    rw [vecs]
    by_cases new : other = sys.next
    · rw [new, here]
      split_ifs with same
      · simp [same]
      · simp [absent at_, Ne.symm same]
    · rw [watchers other new]
      split_ifs with same
      · rw [same, ← base.registered]
        simp [new]
      · exact base.registered at_ other
  · intro at_ name
    have others : ∀ handle ∈ (sys.indexes at_).watcherVec,
        ((addWatch sys index domain ranges desc).watchers handle).domain =
          (sys.watchers handle).domain := by
      intro handle member
      rw [watchers handle (fun same => absent at_ (same ▸ member))]
    unfold countOf
    rw [vecs]
    have old := base.counts at_ name
    unfold countOf at old
    by_cases same : at_ = index
    · subst same
      rw [if_pos rfl, countP_new others, here]
      have counted : ((addWatch sys at_ domain ranges desc).indexes at_).watcherMap =
          acquire (sys.indexes at_).watcherMap domain := by
        unfold addWatch setIndex
        simp
      rw [counted, acquire]
      by_cases named : name = domain
      · subst named
        rw [Function.update_self, old, if_pos rfl]
        cases (sys.indexes at_).watcherVec.countP _ <;> rfl
      · rw [Function.update_of_ne named, old, if_neg (Ne.symm named)]
        rfl
    · rw [if_neg same, List.countP_congr (fun handle member => by rw [others handle member])]
      have kept : ((addWatch sys index domain ranges desc).indexes at_) = sys.indexes at_ :=
        Function.update_of_ne same _ _
      rw [kept]
      exact old
  · intro other txn live
    by_cases new : other = sys.next
    · rw [new, watchHere]
      exact (quiet txn).1
    · rw [watchers other new] at live
      rw [watches other new]
      exact base.collected other txn live
  · intro other txn live
    by_cases new : other = sys.next
    · rw [new, watchHere]
      exact congrArg (List.map some) (quiet txn).2
    · rw [watchers other new] at live
      rw [watches other new]
      exact base.sent other txn live
  · intro other below
    by_cases new : other = sys.next
    · rw [new, here, watchHere]
      have kept : Kept ⟨index, domain, ranges, desc, fun _ => [], fun _ => [], [], none, false⟩ [] := by
        unfold Kept
        rw [if_pos rfl]
      exact Tracks.pending rfl rfl rfl silent List.mem_cons_self rfl rfl kept rfl rfl
    · have before : other < sys.next := by
        have at_most : other < sys.next + 1 := below
        omega
      rw [watchers other new, watches other new]
      have held : other ∈ (addWatch sys index domain ranges desc).cursors ↔ other ∈ sys.cursors := by
        show other ∈ sys.next :: sys.cursors ↔ _
        simp [new]
      rw [propext held]
      exact tracks other before

theorem inv_transactions (inv : Inv sys history) {txns firing : Nat → List WatcherInfo}
    {change : Watch → Watch} (agrees : ∀ watch : Watch, watch.Agrees (change watch))
    (fresh : ∀ handle, sys.next ≤ handle → ∀ txn,
      told handle (txns txn) = [] ∧ told handle (firing txn) = [])
    (collected : ∀ handle txn, (sys.watchers handle).index ≠ none →
      told handle (txns txn) = (leastOf ((change (history.watches handle)).touched txn)).toList)
    (sent : ∀ handle txn, (sys.watchers handle).index ≠ none →
      (told handle (firing txn)).map some =
        ((change (history.watches handle)).sent txn).map leastOf) :
    Inv { sys with txns := txns, firing := firing } (history.changeAll change) := by
  rcases inv with ⟨base, tracks⟩
  refine ⟨⟨base.next, ?_, base.once, base.registered, base.counts, collected, sent, base.signals,
    base.held⟩, ?_⟩
  · intro handle above
    rcases base.fresh handle above with ⟨a, b, c, limit, -⟩
    exact ⟨a, b, c, (agrees _).limit.trans limit, fresh handle above⟩
  · exact fun handle below => (tracks handle below).agrees (agrees _)

theorem inv_notify (inv : Inv sys history) (txn index : Nat) (keys : List StoredKey) :
    Inv (notifyWatches sys index keys txn)
      (history.changeAll fun watch => watch.notify txn index keys) := by
  have base := inv.base
  apply inv_transactions inv
  · intro watch
    unfold Watch.notify
    split_ifs <;> exact ⟨rfl, rfl, rfl, rfl, rfl, rfl⟩
  · intro handle above at_
    rcases base.fresh handle above with ⟨unbound, -, -, -, quiet⟩
    refine ⟨?_, (quiet at_).2⟩
    have absent : handle ∉ (sys.indexes index).watcherVec := by
      rw [base.registered, unbound]
      exact nofun
    by_cases same : at_ = txn
    · rw [same, Function.update_self, told_notify_absent keys absent]
      exact (quiet txn).1
    · rw [Function.update_of_ne same]
      exact (quiet at_).1
  · intro handle at_ live
    have below : handle < sys.next := by
      by_contra above
      exact live (base.fresh handle (not_lt.mp above)).1
    rcases (inv.tracks handle below).live live with ⟨bound, ranges⟩
    have old := base.collected handle at_ live
    unfold Watch.notify
    by_cases mine : (history.watches handle).index = index
    · rw [if_pos mine]
      have member : handle ∈ (sys.indexes index).watcherVec := by
        rw [base.registered, bound, mine]
      dsimp only
      by_cases same : at_ = txn
      · subst same
        rw [Function.update_self, Function.update_self, told_notify keys (base.once index) member old,
          ranges]
      · rw [Function.update_of_ne same, Function.update_of_ne same]
        exact old
    · rw [if_neg mine, ← old]
      have absent : handle ∉ (sys.indexes index).watcherVec := by
        rw [base.registered, bound]
        exact fun same => mine (Option.some.inj same)
      by_cases same : at_ = txn
      · rw [same, Function.update_self, told_notify_absent keys absent]
      · rw [Function.update_of_ne same]
  · intro handle at_ live
    have old := base.sent handle at_ live
    unfold Watch.notify
    split_ifs <;> exact old

theorem inv_commit (inv : Inv sys history) (txn : Nat) :
    Inv (commitTxn sys txn) (history.changeAll fun watch => watch.commit txn) := by
  have base := inv.base
  apply inv_transactions inv
  · exact fun watch => ⟨rfl, rfl, rfl, rfl, rfl, rfl⟩
  · intro handle above at_
    rcases base.fresh handle above with ⟨-, -, -, -, quiet⟩
    by_cases same : at_ = txn
    · rw [same, Function.update_self, Function.update_self, told_append, (quiet txn).1, (quiet txn).2]
      exact ⟨rfl, rfl⟩
    · rw [Function.update_of_ne same, Function.update_of_ne same]
      exact quiet at_
  · intro handle at_ live
    show told handle (Function.update sys.txns txn [] at_) = (leastOf (Function.update
      (history.watches handle).touched txn [] at_)).toList
    by_cases same : at_ = txn
    · rw [same, Function.update_self, Function.update_self]
      rfl
    · rw [Function.update_of_ne same, Function.update_of_ne same]
      exact base.collected handle at_ live
  · intro handle at_ live
    show (told handle (Function.update sys.firing txn (sys.firing txn ++ sys.txns txn) at_)).map some =
      (Function.update (history.watches handle).sent txn
        (if (history.watches handle).touched txn = [] then (history.watches handle).sent txn
          else (history.watches handle).sent txn ++ [(history.watches handle).touched txn])
        at_).map leastOf
    by_cases same : at_ = txn
    · rw [same, Function.update_self, Function.update_self, told_append, List.map_append,
        base.sent handle txn live, base.collected handle txn live]
      by_cases empty : (history.watches handle).touched txn = []
      · rw [if_pos empty, empty]
        simp [leastOf]
      · rw [if_neg empty, List.map_append]
        cases known : leastOf ((history.watches handle).touched txn) with
        | none => exact absurd (leastOf_eq_none.mp known) empty
        | some least => simp [known]
    · rw [Function.update_of_ne same, Function.update_of_ne same]
      exact base.sent handle at_ live

theorem inv_abort (inv : Inv sys history) (txn : Nat) :
    Inv (abortTxn sys txn) (history.changeAll fun watch => watch.abort txn) := by
  have base := inv.base
  apply @inv_transactions sys history inv _ sys.firing
  · exact fun watch => ⟨rfl, rfl, rfl, rfl, rfl, rfl⟩
  · intro handle above at_
    rcases base.fresh handle above with ⟨-, -, -, -, quiet⟩
    refine ⟨?_, (quiet at_).2⟩
    by_cases same : at_ = txn
    · rw [same, Function.update_self]
      rfl
    · rw [Function.update_of_ne same]
      exact (quiet at_).1
  · intro handle at_ live
    show told handle (Function.update sys.txns txn [] at_) = (leastOf (Function.update
      (history.watches handle).touched txn [] at_)).toList
    by_cases same : at_ = txn
    · rw [same, Function.update_self, Function.update_self]
      rfl
    · rw [Function.update_of_ne same, Function.update_of_ne same]
      exact base.collected handle at_ live
  · exact fun handle at_ live => base.sent handle at_ live

/-! ### Runs -/

theorem inv_step (inv : Inv sys history) {event : Event} {after : System} {err : Option MojErr}
    (runs : sys.step event = some (after, err)) : Inv after (history.step event) := by
  cases event with
  | find index domain ranges desc =>
    cases runs
    exact inv_find inv index domain ranges desc
  | notify txn index keys =>
    cases runs
    exact inv_notify inv txn index keys
  | commit txn =>
    cases runs
    exact inv_commit inv txn
  | abort txn =>
    cases runs
    exact inv_abort inv txn
  | deliver txn handle => exact inv_deliver inv runs
  | fire handle key =>
    rw [System.step] at runs
    by_cases below : handle < sys.next
    · rw [if_pos below] at runs
      rcases inv_fire inv below key with ⟨fired, fires, holds⟩
      rw [fires] at runs
      cases runs
      exact holds
    · rw [if_neg below] at runs
      cases runs
  | close handle endKey =>
    rcases @inv_close sys history handle inv endKey with ⟨closed, closes, holds⟩
    rw [System.step, closes] at runs
    cases runs
    exact holds
  | cancel handle =>
    rw [System.step] at runs
    by_cases below : handle < sys.next
    · rw [if_pos below] at runs
      exact inv_cancel inv below runs
    · rw [if_neg below] at runs
      cases runs

theorem inv_run (inv : Inv sys history) {events : List Event} {after : System}
    (runs : sys.run events = some after) : Inv after (events.foldl History.step history) := by
  induction events generalizing sys history with
  | nil =>
    cases runs
    exact inv
  | cons event events ih =>
    rw [System.run, Option.bind_eq_some_iff] at runs
    rcases runs with ⟨⟨mid, err⟩, steps, rest⟩
    exact ih (inv_step inv steps) rest

end Everyone

def historyOf (events : List Event) : History := events.foldl History.step History.start

/-- In every run a handler has been called exactly when its watch was not cancelled and some keys that
arrived for it are within the limit its cursor was closed with, and it has been called once. -/
theorem signals_iff_due (events : List Event) {sys : System}
    (runs : System.start.run events = some sys) (handle : Nat) :
    sys.signals.count handle =
      if ((historyOf events).watches handle).cancelled = false ∧
        ((historyOf events).watches handle).due = true then 1 else 0 := by
  have inv := inv_run inv_start runs
  have called : handle ∈ sys.signals ↔ ((historyOf events).watches handle).cancelled = false ∧
      ((historyOf events).watches handle).due = true := by
    by_cases below : handle < sys.next
    · cases inv.tracks handle below with
      | pending _ open_ _ silent _ _ _ _ _ _ =>
        simp only [silent, false_iff, not_and]
        intro _ due
        rw [historyOf, Watch.due, open_] at due
        cases due
      | active _ _ _ silent _ _ waits _ _ =>
        simp only [silent, false_iff, not_and]
        intro _ due
        rw [historyOf, waits] at due
        cases due
      | signalled _ _ called _ kept due => exact ⟨fun _ => ⟨kept, due⟩, fun _ => called⟩
      | cancelled _ _ silent _ _ given =>
        simp only [silent, false_iff, not_and]
        intro kept
        rw [historyOf, given] at kept
        cases kept
    · rcases inv.base.fresh handle (not_lt.mp below) with ⟨-, silent, -, open_, -⟩
      simp only [silent, false_iff, not_and]
      intro _ due
      rw [historyOf, Watch.due, open_] at due
      cases due
  by_cases member : handle ∈ sys.signals
  · rw [if_pos (called.mp member), List.count_eq_one_of_mem inv.base.signals member]
  · rw [if_neg (fun both => member (called.mpr both)), List.count_eq_zero_of_not_mem member]

/-- A watched query of a whole index and two transactions, one delivered before its cursor closes
without a limit and one after. -/
def sampleRun : List Event :=
  [.find 0 [] [⟨[], [], 0⟩] false, .notify 3 0 [⟨[1], List.cons_ne_nil _ _⟩],
    .notify 4 0 [⟨[2], List.cons_ne_nil _ _⟩], .commit 3, .deliver 3 0, .close 0 [], .commit 4,
    .deliver 4 0]

/-- The handler of the query is called once for both transactions. -/
theorem signals_sample : ∃ sys, System.start.run sampleRun = some sys ∧ sys.signals.count 0 = 1 := by
  have ran : (System.start.run sampleRun).isSome = true := rfl
  rcases Option.isSome_iff_exists.mp ran with ⟨sys, runs⟩
  exact ⟨sys, runs, (signals_iff_due sampleRun runs 0).trans (if_pos ⟨rfl, rfl⟩)⟩

/-- In every run each index holds, once, exactly the watchers whose handler has not been called and
that were not cancelled, and its counts are theirs. -/
theorem registry_exact (events : List Event) {sys : System}
    (runs : System.start.run events = some sys) (index : Nat) :
    (sys.indexes index).watcherVec.Nodup ∧
      (∀ handle, handle ∈ (sys.indexes index).watcherVec ↔ handle < sys.next ∧
        ((historyOf events).watches handle).index = index ∧
          ((historyOf events).watches handle).cancelled = false ∧
            ((historyOf events).watches handle).due = false) ∧
      ∀ domain, (sys.indexes index).watcherMap domain = countOf sys index domain := by
  have inv := inv_run inv_start runs
  refine ⟨inv.base.once index, ?_, inv.base.counts index⟩
  intro handle
  rw [inv.base.registered]
  constructor
  · intro bound
    have below := inv.base.below bound
    cases inv.tracks handle below with
    | pending _ open_ kept _ _ _ _ _ at_ _ =>
      refine ⟨below, Option.some.inj (at_.symm.trans bound), kept, ?_⟩
      rw [historyOf, Watch.due, open_]
      rfl
    | active _ _ kept _ _ _ waits at_ _ =>
      exact ⟨below, Option.some.inj (at_.symm.trans bound), kept, waits⟩
    | signalled _ gone _ _ _ _ =>
      rw [gone] at bound
      cases bound
    | cancelled _ gone _ _ _ _ =>
      rw [gone] at bound
      cases bound
  · rintro ⟨below, mine, kept, waits⟩
    rw [historyOf] at mine kept waits
    cases inv.tracks handle below with
    | pending _ _ _ _ _ _ _ _ at_ _ => rw [at_, mine]
    | active _ _ _ _ _ _ _ at_ _ => rw [at_, mine]
    | signalled _ _ _ _ _ due =>
      rw [waits] at due
      cases due
    | cancelled _ _ _ _ _ given =>
      rw [kept] at given
      cases given

/-- After the first transaction and the closing of its cursor the query is no longer registered. -/
theorem registry_sample : ∃ sys, System.start.run sampleRun = some sys ∧
    0 ∉ (sys.indexes 0).watcherVec := by
  have ran : (System.start.run sampleRun).isSome = true := rfl
  rcases Option.isSome_iff_exists.mp ran with ⟨sys, runs⟩
  refine ⟨sys, runs, ?_⟩
  rw [(registry_exact sampleRun runs 0).2.1]
  rintro ⟨-, -, -, waits⟩
  exact absurd (show ((historyOf sampleRun).watches 0).due = true from rfl) (by rw [waits]; simp)

/-- In every run each entry that a commit has still to deliver can be delivered, and each cursor be
closed, without an error. -/
theorem delivery_safe (events : List Event) {sys : System}
    (runs : System.start.run events = some sys) :
    (∀ handle endKey, ∃ after, closeCursor sys handle endKey = some (after, none)) ∧
      ∀ txn info infos, sys.firing txn = info :: infos →
        ∃ after, Watches.deliver sys txn info.1 = some (after, none) := by
  have inv := inv_run inv_start runs
  constructor
  · intro handle endKey
    rcases @inv_close sys _ handle inv endKey with ⟨after, closes, -⟩
    exact ⟨after, closes⟩
  · intro txn info infos waiting
    rcases deliver_runs inv waiting with ⟨after, delivers, -⟩
    exact ⟨after, delivers⟩

/-- So the second transaction of the sample is delivered without an error after the first one has
been. -/
theorem delivery_sample : ∃ sys after, System.start.run (sampleRun.take 7) = some sys ∧
    Watches.deliver sys 4 0 = some (after, none) := by
  have ran : (System.start.run (sampleRun.take 7)).isSome = true := rfl
  rcases Option.isSome_iff_exists.mp ran with ⟨sys, runs⟩
  have waits : ((System.start.run (sampleRun.take 7)).map fun sys =>
      (sys.firing 4).map Prod.fst) = some [0] := rfl
  rw [runs, Option.map_some, Option.some.injEq] at waits
  cases waiting : sys.firing 4 with
  | nil =>
    rw [waiting] at waits
    cases waits
  | cons info infos =>
    rw [waiting] at waits
    rcases (delivery_safe (sampleRun.take 7) runs).2 4 info infos waiting with ⟨after, delivers⟩
    rw [(List.cons.inj waits).1] at delivers
    exact ⟨sys, after, runs, delivers⟩

end Db8.Db.Watches
