import Db8.Db.QuotaRequest
import Db8.Steps

/-!
# The usage kept with the quotas

A commit adds its offsets to the usage of the quotas, unless it ends in a refresh. A quota that is
put refreshes before that, with the usage of the same commit already in the store, so the offsets
of a commit that puts quotas are counted twice. A request that fails can leave its kinds in the kind
map or its usage in the store, and its refresh undone.
-/

set_option autoImplicit false

namespace Db8.Db

open Db8.Bytes
open Db8.Core

namespace MojDbQuotaEngine

open ReqOp

theorem commitQuota_rest (engine : MojDbQuotaEngine) (owner : OwnerKey) (size : Int) :
    (engine.commitQuota owner size).usageDb = engine.usageDb ∧
      (engine.commitQuota owner size).kinds = engine.kinds ∧
      (engine.commitQuota owner size).isOpen = engine.isOpen := by
  unfold commitQuota
  dsimp only
  split <;> split_ifs
  · exact ⟨(refreshImpl_rest _).2.1, (refreshImpl_rest _).1.2, (refreshImpl_rest _).2.2⟩
  · exact ⟨rfl, rfl, rfl⟩
  · exact ⟨(refreshImpl_rest _).2.1, (refreshImpl_rest _).1.2, (refreshImpl_rest _).2.2⟩
  · exact ⟨rfl, rfl, rfl⟩

variable {engine : MojDbQuotaEngine}

theorem commitQuota_mirrored (isOpen : engine.isOpen = true) (owner : OwnerKey)
    (size : Int) : (engine.commitQuota owner size).Mirrored := by
  unfold commitQuota
  dsimp only
  split
  · rw [if_pos isOpen]
    exact refreshImpl_mirrored _
  · rw [if_pos isOpen]
    exact refreshImpl_mirrored _

def commitQuotas (engine : MojDbQuotaEngine) (puts : List (OwnerKey × Int)) : MojDbQuotaEngine :=
  puts.foldl (fun engine put => engine.commitQuota put.1 put.2) engine

theorem commitQuotas_rest (engine : MojDbQuotaEngine) (puts : List (OwnerKey × Int)) :
    (engine.commitQuotas puts).usageDb = engine.usageDb ∧
      (engine.commitQuotas puts).kinds = engine.kinds ∧
      (engine.commitQuotas puts).isOpen = engine.isOpen := by
  unfold commitQuotas
  induction puts generalizing engine with
  | nil => exact ⟨rfl, rfl, rfl⟩
  | cons put rest ih =>
    have head := engine.commitQuota_rest put.1 put.2
    have tail := ih (engine.commitQuota put.1 put.2)
    rw [List.foldl_cons]
    exact ⟨tail.1.trans head.1, tail.2.1.trans head.2.1, tail.2.2.trans head.2.2⟩

theorem commitQuotas_mirrored (isOpen : engine.isOpen = true) {puts : List (OwnerKey × Int)}
    (some : puts ≠ []) : (engine.commitQuotas puts).Mirrored := by
  unfold commitQuotas
  induction puts generalizing engine with
  | nil => exact absurd rfl some
  | cons put rest ih =>
    rw [List.foldl_cons]
    cases rest with
    | nil => exact commitQuota_mirrored isOpen put.1 put.2
    | cons next others =>
      exact ih ((engine.commitQuota_rest put.1 put.2).2.2.trans isOpen) (List.cons_ne_nil _ _)

/-- The engine between the commit of the store and the end of `MojDbStorageTxn::commit`. -/
structure Applied (engine : MojDbQuotaEngine) (charges : List (MojString × StorageOp))
    (applied : MojDbQuotaEngine) : Prop where
  usage : ∀ id, applied.kindUsage id = engine.kindUsage id + netOf charges id
  quotas : applied.quotas = engine.quotas
  kinds : applied.kinds = engine.kinds
  isOpen : applied.isOpen = engine.isOpen

variable {charges : List (MojString × StorageOp)}

theorem commit_ok {engine after : MojDbQuotaEngine} {txn : MojDbStorageTxn}
    (tallied : Tallied charges txn) (committed : engine.commit txn = .ok after) :
    ∃ applied, Applied engine charges applied ∧
      after = if txn.quotaEngine && txn.refreshQuotas then
          ((applied.commitQuotas txn.postCommit).applyQuota txn).refreshImpl
        else (applied.commitQuotas txn.postCommit).applyQuota txn := by
  unfold commit at committed
  cases started : txn.quotaEngine with
  | false =>
    simp only [started, Bool.false_eq_true, if_false] at committed
    have empty := tallied.wellFormed.untouched started
    apply Exists.intro engine
    apply And.intro
    · have none : ∀ id, netOf charges id = 0 := by
        intro id
        rw [← tallied.offsets id, empty]
        rfl
      exact ⟨fun id => by rw [none id, Int.add_zero], rfl, rfl, rfl⟩
    · rw [applyQuota, empty]
      exact (Except.ok.inj committed).symm
  | true =>
    simp only [started, if_true] at committed
    cases usage : engine.applyUsage txn with
    | error err =>
      rw [usage] at committed
      cases committed
    | ok applied =>
      rw [usage] at committed
      have spec := applyUsageEntries_ok txn.offsetMap.keys_nodup usage
      apply Exists.intro applied
      apply And.intro
      · exact ⟨fun id => by rw [spec.1 id, tallied.offsets id], spec.2.1, spec.2.2.1,
          spec.2.2.2⟩
      · rw [Bool.true_and]
        exact (Except.ok.inj committed).symm

theorem charge_add (kinds : List MojDbKind) (governor : MojDbKind → Option OwnerKey)
    (usage change : MojDbKind → Int) (owner : OwnerKey) :
    charge (kinds.map fun kind => (governor kind, usage kind + change kind)) owner =
      charge (kinds.map fun kind => (governor kind, usage kind)) owner +
        charge (kinds.map fun kind => (governor kind, change kind)) owner := by
  induction kinds with
  | nil => rfl
  | cons kind rest ih =>
    unfold charge at ih ⊢
    simp only [List.map_cons, List.sum_cons] at ih ⊢
    rw [ih]
    split_ifs <;> omega

theorem usageOf_applied {engine applied : MojDbQuotaEngine} (spec : Applied engine charges applied)
    (owner : OwnerKey) :
    applied.usageOf owner = engine.usageOf owner + engine.governedNet (netOf charges) owner := by
  have same : engine.SameTables applied := ⟨by rw [spec.quotas], spec.kinds⟩
  unfold usageOf governedNet
  rw [← charge_add, quotaForKind_same same, spec.kinds]
  congr 1
  apply List.map_congr_left
  intro kind _
  rw [spec.usage]

theorem applyQuota_find (engine : MojDbQuotaEngine) (txn : MojDbStorageTxn) (owner : OwnerKey) :
    (engine.applyQuota txn).quotas.find owner =
      (engine.quotas.find owner).map fun quota => quota.offset
        (charge (txn.offsetMap.entries.map fun entry => (entry.2.quota, entry.2.offset)) owner) :=
  offsetUsages_find engine _ owner

theorem usageOf_applyQuota (engine : MojDbQuotaEngine) (txn : MojDbStorageTxn) :
    (engine.applyQuota txn).usageOf = engine.usageOf :=
  usageOf_same (offsetUsages_rest engine _).1 (offsetUsages_rest engine _).2.1

/-- Adding offsets to usages that already count them keeps them right only where they add up to
nothing. -/
theorem applyQuota_mirrored_iff (mirrored : engine.Mirrored) (txn : MojDbStorageTxn) :
    (engine.applyQuota txn).Mirrored ↔
      ∀ owner ∈ engine.quotas.keys,
        charge (txn.offsetMap.entries.map fun entry => (entry.2.quota, entry.2.offset)) owner = 0 := by
  unfold Mirrored
  rw [usageOf_applyQuota]
  constructor
  · intro right owner member
    cases found : engine.quotas.find owner with
    | none => exact absurd member ((engine.quotas.find_eq_none_iff owner).mp found)
    | some quota =>
      have before := mirrored owner quota found
      have after := right owner _ (by rw [applyQuota_find, found]; rfl)
      unfold Quota.offset at after
      dsimp only at after
      omega
  · intro zero owner quota found
    rw [applyQuota_find, Option.map_eq_some_iff] at found
    rcases found with ⟨kept, foundKept, same⟩
    have member : owner ∈ engine.quotas.keys := by
      by_contra absent
      rw [(engine.quotas.find_eq_none_iff owner).mpr absent] at foundKept
      cases foundKept
    rw [← same, zero owner member, ← mirrored owner kept foundKept]
    exact Int.add_zero _

theorem governedNet_unregistered (engine : MojDbQuotaEngine) (change : MojString → Int)
    {owner : OwnerKey} (absent : owner ∉ engine.quotas.keys) :
    engine.governedNet change owner = 0 := by
  have zero : ∀ kind ∈ engine.kinds.kinds,
      (if engine.quotaForKind kind none = some owner then change kind.id else 0) = 0 := by
    intro kind _
    apply if_neg
    intro found
    exact absent (quotaForKind_mem found)
  unfold governedNet charge
  rw [List.map_map]
  apply List.sum_eq_zero
  intro term member
  rcases List.mem_map.mp member with ⟨kind, inside, same⟩
  rw [← same]
  exact zero kind inside

theorem commitQuotas_keys (engine : MojDbQuotaEngine) (puts : List (OwnerKey × Int))
    {owner : OwnerKey} (member : owner ∈ engine.quotas.keys) :
    owner ∈ (engine.commitQuotas puts).quotas.keys := by
  unfold commitQuotas
  induction puts generalizing engine with
  | nil => exact member
  | cons put rest ih =>
    rw [List.foldl_cons]
    apply ih
    unfold commitQuota
    dsimp only
    split <;> split_ifs
    · rw [(refreshImpl_rest _).1.1, SortedMap.mem_keys_put]
      exact Or.inr member
    · rw [SortedMap.mem_keys_put]
      exact Or.inr member
    · rw [(refreshImpl_rest _).1.1, SortedMap.mem_keys_put]
      exact Or.inr member
    · rw [SortedMap.mem_keys_put]
      exact Or.inr member

theorem applyQuota_mirrored {engine applied : MojDbQuotaEngine} {txn : MojDbStorageTxn}
    (spec : Applied engine charges applied) (tallied : Tallied charges txn)
    (governed : Governed engine txn) : (applied.applyQuota txn).Mirrored ↔ engine.Mirrored := by
  have moved : ∀ owner, (applied.applyQuota txn).quotas.find owner =
      (engine.quotas.find owner).map fun quota =>
        quota.offset (engine.governedNet (netOf charges) owner) := by
    intro owner
    rw [applyQuota_find, charge_offsetMap tallied governed, spec.quotas]
  constructor
  · intro right owner quota found
    have after := right owner _ (by rw [moved, found]; rfl)
    rw [usageOf_applyQuota, usageOf_applied spec] at after
    exact add_right_cancel after
  · intro mirrored owner quota found
    rw [moved, Option.map_eq_some_iff] at found
    rcases found with ⟨kept, foundKept, same⟩
    rw [usageOf_applyQuota, usageOf_applied spec, ← same, ← mirrored owner kept foundKept]
    rfl

theorem request_ok {engine after : MojDbQuotaEngine} {ops : List ReqOp}
    (committed : engine.request ops = .ok after) :
    ∃ engineRan txn, engine.runOps MojDbStorageTxn.begin ops = .ok (engineRan, txn) ∧
      engineRan.commit txn = .ok after := by
  unfold request at committed
  cases ran : engine.runOps MojDbStorageTxn.begin ops with
  | error err =>
    rw [ran] at committed
    cases committed
  | ok result =>
    rw [ran] at committed
    exact ⟨result.1, result.2, rfl, committed⟩

/-- The charges of a request on the kinds of each registered quota add up to nothing. -/
def Balanced (engine : MojDbQuotaEngine) (ops : List ReqOp) : Prop :=
  ∀ owner ∈ engine.quotas.keys, engine.governedNet (net ops) owner = 0

instance (engine : MojDbQuotaEngine) (ops : List ReqOp) : Decidable (engine.Balanced ops) :=
  inferInstanceAs (Decidable (∀ owner ∈ engine.quotas.keys, _))

section Committed

variable {engine after : MojDbQuotaEngine} {ops : List ReqOp}

theorem request_refreshes (committed : engine.request ops = .ok after)
    (changes : changesKinds ops = true) : after.Mirrored := by
  rcases request_ok committed with ⟨engineRan, txn, run, finished⟩
  have ran := runOps_ran ops begin_tallied run
  rcases commit_ok ran.tallied finished with ⟨applied, spec, result⟩
  have started := ran.quotaEngine (by rw [changes]; rfl)
  have refreshing : txn.refreshQuotas = true := ran.refreshQuotas.trans changes
  rw [started, refreshing, Bool.and_self, if_pos rfl] at result
  rw [result]
  exact refreshImpl_mirrored _

/-- A request that only charges kinds moves the usages kept as it moves the sums. -/
theorem request_charges (committed : engine.request ops = .ok after)
    (standing : changesKinds ops = false) (quiet : quotasPut ops = []) :
    after.Mirrored ↔ engine.Mirrored := by
  rcases request_ok committed with ⟨engineRan, txn, run, finished⟩
  have ran := runOps_ran ops begin_tallied run
  have tallied : Tallied (charged none ops) txn := ran.tallied
  rcases commit_ok tallied finished with ⟨applied, spec, result⟩
  have refreshing : txn.refreshQuotas = false := ran.refreshQuotas.trans standing
  have handlers : txn.postCommit = [] := ran.postCommit.trans quiet
  rw [ran.unchanged standing] at spec
  rw [refreshing, handlers, Bool.and_false, if_neg Bool.false_ne_true] at result
  rw [result]
  exact applyQuota_mirrored spec tallied
    (runOps_governed standing begin_tallied (begin_governed engine) run)

/-- The handlers of the quotas put refresh with the usage of the request already in the store, and its
offsets are added after them. -/
theorem request_puts (isOpen : engine.isOpen = true) (committed : engine.request ops = .ok after)
    (standing : changesKinds ops = false) (puts : quotasPut ops ≠ []) :
    after.Mirrored ↔ engine.Balanced ops := by
  rcases request_ok committed with ⟨engineRan, txn, run, finished⟩
  have ran := runOps_ran ops begin_tallied run
  have tallied : Tallied (charged none ops) txn := ran.tallied
  rcases commit_ok tallied finished with ⟨applied, spec, result⟩
  have refreshing : txn.refreshQuotas = false := ran.refreshQuotas.trans standing
  have handlers : txn.postCommit = quotasPut ops := ran.postCommit
  rw [ran.unchanged standing] at spec
  have governed := runOps_governed standing begin_tallied (begin_governed engine) run
  have sums := charge_offsetMap tallied governed
  have counted := commitQuotas_mirrored (spec.isOpen.trans isOpen) puts
  rw [refreshing, handlers, Bool.and_false, if_neg Bool.false_ne_true] at result
  rw [result, applyQuota_mirrored_iff counted]
  constructor
  · intro zero owner member
    have kept := applied.commitQuotas_keys (quotasPut ops) (spec.quotas.symm ▸ member)
    exact (sums owner).symm.trans (zero owner kept)
  · intro balanced owner _
    rw [sums owner]
    by_cases member : owner ∈ engine.quotas.keys
    · exact balanced owner member
    · exact governedNet_unregistered engine _ member

theorem request_isOpen (committed : engine.request ops = .ok after) :
    after.isOpen = engine.isOpen := by
  rcases request_ok committed with ⟨engineRan, txn, run, finished⟩
  have ran := runOps_ran ops begin_tallied run
  rcases commit_ok ran.tallied finished with ⟨applied, spec, result⟩
  have quotas := (applied.commitQuotas_rest txn.postCommit).2.2
  have offsets := (offsetUsages_rest (applied.commitQuotas txn.postCommit)
    (txn.offsetMap.entries.map fun entry => (entry.2.quota, entry.2.offset))).2.2
  have kept : ((applied.commitQuotas txn.postCommit).applyQuota txn).isOpen = engine.isOpen :=
    offsets.trans (quotas.trans (spec.isOpen.trans ran.isOpen))
  rw [result]
  split_ifs
  · exact (refreshImpl_rest _).2.2.trans kept
  · exact kept

/-- The usages are right after a request that changes kinds, after one that only charges them if they
were right before, and after one that puts quotas if its charges balance. -/
def Settles (engine : MojDbQuotaEngine) (rightBefore : Prop) (ops : List ReqOp) : Prop :=
  changesKinds ops = true ∨ (quotasPut ops = [] ∧ rightBefore) ∨
    (quotasPut ops ≠ [] ∧ engine.Balanced ops)

instance (engine : MojDbQuotaEngine) (rightBefore : Prop) [Decidable rightBefore]
    (ops : List ReqOp) : Decidable (engine.Settles rightBefore ops) :=
  inferInstanceAs (Decidable (_ ∨ _ ∨ _))

theorem request_mirrored_iff (isOpen : engine.isOpen = true)
    (committed : engine.request ops = .ok after) :
    after.Mirrored ↔ engine.Settles engine.Mirrored ops := by
  unfold Settles
  cases changes : changesKinds ops with
  | true => exact ⟨fun _ => Or.inl rfl, fun _ => request_refreshes committed changes⟩
  | false =>
    by_cases quiet : quotasPut ops = []
    · rw [request_charges committed changes quiet]
      simp only [Bool.false_eq_true, quiet, ne_eq, not_true_eq_false, true_and, false_and,
        or_false, false_or]
    · rw [request_puts isOpen committed changes quiet]
      simp only [Bool.false_eq_true, quiet, ne_eq, not_false_eq_true, true_and, false_and,
        false_or]

end Committed

section Failures

/-- `refreshImpl` as far as it gets: it fails before it starts, or after the kinds counted. -/
def refreshPart (engine : MojDbQuotaEngine) : Option Nat → MojDbQuotaEngine
  | none => engine
  | some counted =>
    let zeroed :=
      { engine with quotas := engine.quotas.mapVals fun quota => { quota with usage := 0 } }
    zeroed.offsetUsages ((engine.kinds.kinds.take counted).map fun kind =>
      (zeroed.quotaForKind kind none, zeroed.kindUsage kind.id))

/-- `commitQuota` with a refresh that fails. -/
def commitQuotaPart (engine : MojDbQuotaEngine) (owner : OwnerKey) (size : Int)
    (reached : Option Nat) : MojDbQuotaEngine :=
  let stored := match engine.quotas.find owner with
    | none => { engine with quotas := engine.quotas.put owner ⟨size, 0⟩ }
    | some quota => { engine with quotas := engine.quotas.put owner { quota with size := size } }
  if stored.isOpen then stored.refreshPart reached else stored

inductive Event where
  /-- It commits, and the handlers and the refresh of its commit succeed. -/
  | committed (ops : List ReqOp)
  /-- It makes the steps listed and fails before or within the commit of the store. The kinds it has
  changed stay changed, as in a batch whose `putKind` succeeds and whose commit does not; `written`
  says that the usage table was committed before another table failed. -/
  | failed (ran : List ReqOp) (written : Bool)
  /-- The store commits, and after some handlers one fails in its refresh, or the refresh at the end
  of the commit does. -/
  | interrupted (ops : List ReqOp) (handlers : Nat) (reached : Option Nat)

/-- The steps of a request with no handler run, and the usage table if the store has it. -/
def runUntil (engine : MojDbQuotaEngine) (ops : List ReqOp) (written : Bool) :
    Except MojErr (MojDbQuotaEngine × MojDbStorageTxn) := do
  let (engine, txn) ← engine.runOps MojDbStorageTxn.begin ops
  let engine ← if written && txn.quotaEngine then engine.applyUsage txn else .ok engine
  return (engine, txn)

/-- A commit whose store succeeded, up to the handler or the last refresh that fails. -/
def commitUntil (engine : MojDbQuotaEngine) (txn : MojDbStorageTxn) (handlers : Nat)
    (reached : Option Nat) : Option MojDbQuotaEngine :=
  let engine := engine.commitQuotas (txn.postCommit.take handlers)
  match txn.postCommit[handlers]? with
  | some put => some (engine.commitQuotaPart put.1 put.2 reached)
  | none =>
    if txn.quotaEngine && txn.refreshQuotas then
      some ((engine.applyQuota txn).refreshPart reached)
    else none

/-- What the store and the engine are after an event; none where the request does not end so. -/
def serve (engine : MojDbQuotaEngine) : Event → Option MojDbQuotaEngine
  | .committed ops => (engine.request ops).toOption
  | .failed ran written => (engine.runUntil ran written).toOption.map Prod.fst
  | .interrupted ops handlers reached =>
    (engine.runUntil ops true).toOption.bind fun ran => ran.1.commitUntil ran.2 handlers reached

theorem refreshPart_isOpen (engine : MojDbQuotaEngine) (reached : Option Nat) :
    (engine.refreshPart reached).isOpen = engine.isOpen := by
  cases reached with
  | none => rfl
  | some counted => exact (offsetUsages_rest _ _).2.2

theorem refreshPart_kinds (engine : MojDbQuotaEngine) (reached : Option Nat) :
    (engine.refreshPart reached).kinds = engine.kinds := by
  cases reached with
  | none => rfl
  | some counted => exact (offsetUsages_rest _ _).1.2

def Complete (engine : MojDbQuotaEngine) (reached : Option Nat) : Prop :=
  ∃ counted ∈ reached, engine.kinds.kinds.length ≤ counted

instance (engine : MojDbQuotaEngine) (reached : Option Nat) : Decidable (engine.Complete reached) :=
  match reached with
  | none => isFalse (by simp [Complete])
  | some counted => decidable_of_iff (engine.kinds.kinds.length ≤ counted) (by simp [Complete])

theorem refreshPart_mirrored {engine : MojDbQuotaEngine} {reached : Option Nat}
    (complete : engine.Complete reached) : (engine.refreshPart reached).Mirrored := by
  rcases complete with ⟨counted, rfl, whole⟩
  have same : engine.refreshPart (some counted) = engine.refreshImpl := by
    simp only [refreshPart, refreshImpl, List.take_of_length_le whole]
  rw [same]
  exact refreshImpl_mirrored engine

theorem commitQuotaPart_rest (engine : MojDbQuotaEngine) (owner : OwnerKey) (size : Int)
    (reached : Option Nat) :
    (engine.commitQuotaPart owner size reached).isOpen = engine.isOpen ∧
      (engine.commitQuotaPart owner size reached).kinds = engine.kinds := by
  unfold commitQuotaPart
  dsimp only
  split <;> split_ifs
  · exact ⟨refreshPart_isOpen _ _, refreshPart_kinds _ _⟩
  · exact ⟨rfl, rfl⟩
  · exact ⟨refreshPart_isOpen _ _, refreshPart_kinds _ _⟩
  · exact ⟨rfl, rfl⟩

theorem commitQuotaPart_mirrored {engine : MojDbQuotaEngine} (isOpen : engine.isOpen = true)
    (owner : OwnerKey) (size : Int) {reached : Option Nat} (complete : engine.Complete reached) :
    (engine.commitQuotaPart owner size reached).Mirrored := by
  unfold commitQuotaPart
  dsimp only
  split
  · rw [if_pos isOpen]
    exact refreshPart_mirrored complete
  · rw [if_pos isOpen]
    exact refreshPart_mirrored complete

/-- Each registered quota's kinds have the usage in all that they had. -/
def SumsKept (engine after : MojDbQuotaEngine) : Prop :=
  ∀ owner ∈ engine.quotas.keys, after.usageOf owner = engine.usageOf owner

instance (engine after : MojDbQuotaEngine) : Decidable (engine.SumsKept after) :=
  inferInstanceAs (Decidable (∀ owner ∈ engine.quotas.keys, _))

theorem sumsKept_mirrored {engine after : MojDbQuotaEngine} (mirrored : engine.Mirrored)
    (quotas : after.quotas = engine.quotas) (kept : engine.SumsKept after) : after.Mirrored := by
  intro owner quota found
  rw [quotas] at found
  have member : owner ∈ engine.quotas.keys := by
    by_contra absent
    rw [(engine.quotas.find_eq_none_iff owner).mpr absent] at found
    cases found
  rw [kept owner member]
  exact mirrored owner quota found

theorem ok_of_toOption {α : Type} {result : Except MojErr α} {value : α}
    (succeeds : result.toOption = some value) : result = .ok value := by
  cases result with
  | error err => cases succeeds
  | ok other => exact congrArg Except.ok (Option.some.inj succeeds)

theorem runUntil_rest {engine ended : MojDbQuotaEngine} {txn : MojDbStorageTxn} {ops : List ReqOp}
    {written : Bool} (ran : engine.runUntil ops written = .ok (ended, txn)) :
    ended.quotas = engine.quotas ∧ ended.isOpen = engine.isOpen := by
  rcases except_bind_ok ran with ⟨⟨engineRan, txnRan⟩, steps, rest⟩
  have spec := runOps_ran ops begin_tallied steps
  dsimp only at rest
  split_ifs at rest
  · rcases except_bind_ok rest with ⟨applied, usage, done⟩
    cases done
    have kept := applyUsageEntries_ok txn.offsetMap.keys_nodup usage
    exact ⟨kept.2.1.trans spec.quotas, kept.2.2.2.trans spec.isOpen⟩
  · cases rest
    exact ⟨spec.quotas, spec.isOpen⟩

theorem commitUntil_rest {engine after : MojDbQuotaEngine} {txn : MojDbStorageTxn}
    (isOpen : engine.isOpen = true) {handlers : Nat} {reached : Option Nat}
    (ended : engine.commitUntil txn handlers reached = some after) :
    after.isOpen = true ∧ (after.Complete reached → after.Mirrored) := by
  have handled := (engine.commitQuotas_rest (txn.postCommit.take handlers)).2.2.trans isOpen
  unfold commitUntil at ended
  dsimp only at ended
  cases next : txn.postCommit[handlers]? with
  | some put =>
    rw [next] at ended
    cases ended
    have rest := (engine.commitQuotas (txn.postCommit.take handlers)).commitQuotaPart_rest
      put.1 put.2 reached
    refine ⟨rest.1.trans handled, ?_⟩
    intro complete
    unfold Complete at complete
    rw [rest.2] at complete
    exact commitQuotaPart_mirrored handled put.1 put.2 complete
  | none =>
    rw [next] at ended
    dsimp only at ended
    split_ifs at ended
    cases ended
    refine ⟨(refreshPart_isOpen _ _).trans ((offsetUsages_rest _ _).2.2.trans handled), ?_⟩
    intro complete
    unfold Complete at complete
    rw [refreshPart_kinds] at complete
    exact refreshPart_mirrored complete

end Failures

section Runs

/-- The engine in a run, with what the requests so far say about its usages: whether a refresh has
ended since which no failed request changed a sum. -/
structure Watched where
  engine : MojDbQuotaEngine
  right : Bool

namespace Watched

/-- What an event leaves of `right`. -/
def rightAfter (watched : Watched) (event : Event) (after : MojDbQuotaEngine) : Bool :=
  match event with
  | .committed ops => watched.right || changesKinds ops || decide (quotasPut ops ≠ [])
  | .failed _ _ => watched.right && decide (watched.engine.SumsKept after)
  | .interrupted _ _ reached => decide (after.Complete reached)

def step (event : Event) (watched : Watched) : Option Watched :=
  (watched.engine.serve event).map fun after => ⟨after, watched.rightAfter event after⟩

/-- An engine that `openWith` has just refreshed. -/
def opened (kinds : MojDbKindEngine.KindMap) (usageDb : SortedMap MojString Int)
    (stats : MojString → Nat) (quotas : List (OwnerKey × Int)) : Watched :=
  ⟨openWith kinds usageDb stats quotas, true⟩

def Settled (event : Event) (watched : Watched) : Prop :=
  match event with
  | .committed ops => watched.engine.Settles (watched.right = true) ops
  | .failed _ _ => True
  | .interrupted _ _ _ => True

instance (event : Event) (watched : Watched) : Decidable (Settled event watched) :=
  match event with
  | .committed ops => inferInstanceAs (Decidable (watched.engine.Settles _ ops))
  | .failed _ _ => isTrue trivial
  | .interrupted _ _ _ => isTrue trivial

/-- Where `right` is set the usages are right. -/
structure Sound (watched : Watched) : Prop where
  isOpen : watched.engine.isOpen = true
  mirrored : watched.right = true → watched.engine.Mirrored

theorem opened_sound (kinds : MojDbKindEngine.KindMap) (usageDb : SortedMap MojString Int)
    (stats : MojString → Nat) (quotas : List (OwnerKey × Int)) :
    (opened kinds usageDb stats quotas).Sound where
  isOpen := rfl
  mirrored _ := refreshImpl_mirrored _

theorem step_cases {event : Event} {watched next : Watched}
    (stepped : step event watched = some next) :
    watched.engine.serve event = some next.engine ∧
      next.right = watched.rightAfter event next.engine := by
  rcases Option.map_eq_some_iff.mp stepped with ⟨after, served, rfl⟩
  exact ⟨served, rfl⟩

theorem committed_mirrored {ops : List ReqOp} {watched next : Watched} (sound : watched.Sound)
    (settled : Settled (.committed ops) watched)
    (stepped : step (.committed ops) watched = some next) : next.engine.Mirrored := by
  have committed := ok_of_toOption (step_cases stepped).1
  apply (request_mirrored_iff sound.isOpen committed).mpr
  rcases settled with changes | quiet | balanced
  · exact Or.inl changes
  · exact Or.inr (Or.inl ⟨quiet.1, sound.mirrored quiet.2⟩)
  · exact Or.inr (Or.inr balanced)

theorem step_sound {event : Event} {watched next : Watched} (sound : watched.Sound)
    (settled : Settled event watched) (stepped : step event watched = some next) : next.Sound := by
  rcases step_cases stepped with ⟨served, right⟩
  cases event with
  | committed ops =>
    have committed := ok_of_toOption served
    exact ⟨(request_isOpen committed).trans sound.isOpen,
      fun _ => committed_mirrored sound settled stepped⟩
  | failed ran written =>
    rcases Option.map_eq_some_iff.mp served with ⟨ended, partway, same⟩
    have kept := runUntil_rest (ok_of_toOption partway)
    rw [same] at kept
    refine ⟨kept.2.trans sound.isOpen, ?_⟩
    intro still
    rw [right, rightAfter, Bool.and_eq_true, decide_eq_true_eq] at still
    exact sumsKept_mirrored (sound.mirrored still.1) kept.1 still.2
  | interrupted ops handlers reached =>
    rcases Option.bind_eq_some_iff.mp served with ⟨ran, partway, stopped⟩
    have isOpen := (runUntil_rest (ok_of_toOption partway)).2.trans sound.isOpen
    have ended := commitUntil_rest isOpen stopped
    refine ⟨ended.1, ?_⟩
    intro still
    rw [right, rightAfter, decide_eq_true_eq] at still
    exact ended.2 still

end Watched

end Runs

/-- In a run in which each request that commits is settled, whatever other requests fail between them,
the usages of the quotas are right after every one that commits. From any state of such a run the
next commit leaves them right exactly when it refreshes at its end, only charges kinds and finds them
right, or puts quotas and its charges balance. -/
theorem mirrored_while_settled {kinds : MojDbKindEngine.KindMap}
    {usageDb : SortedMap MojString Int} {stats : MojString → Nat} {quotas : List (OwnerKey × Int)}
    {events : List Event}
    (settled : Steps.Throughout Watched.step Watched.Settled events
      (Watched.opened kinds usageDb stats quotas)) :
    (∀ front ops watched, front ++ [.committed ops] <+: events →
        Steps.run Watched.step (front ++ [.committed ops])
          (Watched.opened kinds usageDb stats quotas) = some watched →
        watched.engine.Mirrored) ∧
      ∀ front watched, front <+: events →
        Steps.run Watched.step front (Watched.opened kinds usageDb stats quotas) = some watched →
        ∀ ops after, watched.engine.request ops = .ok after →
          (after.Mirrored ↔ watched.engine.Settles watched.engine.Mirrored ops) := by
  have start := Watched.opened_sound kinds usageDb stats quotas
  have keeps : ∀ event watched next, watched.Sound → Watched.Settled event watched →
      Watched.step event watched = some next → next.Sound :=
    fun _ _ _ sound meets stepped => Watched.step_sound sound meets stepped
  constructor
  · intro front ops watched starts ran
    rcases starts with ⟨back, rfl⟩
    rw [Steps.run_append] at ran
    rcases Option.bind_eq_some_iff.mp ran with ⟨before, ranFront, last⟩
    rw [List.append_assoc] at settled
    have parts := settled.of_append ranFront
    have sound := Steps.run_keeps_where keeps start parts.1 ranFront
    rcases Steps.run_cons last with ⟨next, stepped, done⟩
    cases done
    exact Watched.committed_mirrored sound parts.2.1 stepped
  · intro front watched starts ran ops after committed
    have sound := Steps.holds_of_throughout keeps start settled starts ran
    exact request_mirrored_iff sound.isOpen committed

section Wildcard

def everyone : OwnerKey := ⟨chars "*".toList⟩

/-- The root kind and the kind of the quota objects, as far as quotas read them. -/
def quotaKinds : MojDbKindEngine.KindMap :=
  (MojDbKindEngine.KindMap.empty.put
    ⟨MojDbKindEngine.rootKindId, MojDbKindEngine.adminOwner, [], [], []⟩).put
    ⟨MojDbKindEngine.quotaId, MojDbKindEngine.adminOwner, [], [MojDbKindEngine.rootKindId], []⟩

def wildcardEngine : MojDbQuotaEngine :=
  openWith quotaKinds SortedMap.empty (fun _ => 0) [(everyone, 1000)]

def quotaPut : List ReqOp :=
  [.curKind MojDbKindEngine.quotaId, .storage (.insert 20 100), .putQuota ⟨chars "com.foo".toList⟩ 500]

def usages (result : Except MojErr MojDbQuotaEngine) (owner : OwnerKey) : Option (Option Quota × Int) :=
  match result with
  | .error _ => none
  | .ok engine => some (engine.quotas.find owner, engine.usageOf owner)

theorem quotaPut_counted_twice :
    wildcardEngine.Mirrored ∧
      ∃ after, wildcardEngine.request quotaPut = .ok after ∧ ¬ after.Mirrored := by
  apply And.intro (refreshImpl_mirrored _)
  have computed : usages (wildcardEngine.request quotaPut) everyone = some (some ⟨1000, 240⟩, 120) := by
    decide +kernel
  cases committed : wildcardEngine.request quotaPut with
  | error err =>
    rw [committed] at computed
    cases computed
  | ok after =>
    rw [committed] at computed
    simp only [usages, Option.some.injEq, Prod.mk.injEq] at computed
    apply Exists.intro after
    apply And.intro rfl
    intro mirrored
    have same := mirrored everyone ⟨1000, 240⟩ computed.1
    rw [computed.2] at same
    exact absurd same (by decide)

/-- The kind of the quota objects under another owner, and the engine's kinds with it. -/
def soldKind : MojDbKind :=
  ⟨MojDbKindEngine.quotaId, chars "com.foo".toList, [], [MojDbKindEngine.rootKindId], []⟩

def soldKinds : MojDbKindEngine.KindMap := quotaKinds.put soldKind

def sellerEngine : Watched :=
  Watched.opened quotaKinds SortedMap.empty (fun _ => 0)
    [(⟨chars "com.foo".toList⟩, 500), (⟨MojDbKindEngine.adminOwner⟩, 1000)]

/-- An insert; a batch that gives its kind to another owner and does not commit; the same change
committed; and another insert. -/
def soldEvents : List Event :=
  [.committed [.curKind MojDbKindEngine.quotaId, .storage (.insert 20 100)],
    .failed [.commitKind soldKind soldKinds, .storage (.insert 10 60)] false,
    .committed [.commitKind soldKind soldKinds, .storage (.insert 10 60)],
    .committed [.curKind MojDbKindEngine.quotaId, .storage (.insert 20 100)]]

/-- All that the kind has in the store is com.foo's in the end. -/
theorem soldEvents_mirrored :
    ∃ watched, Steps.run Watched.step soldEvents sellerEngine = some watched ∧
      watched.engine.Mirrored := by
  have runs : (Steps.run Watched.step soldEvents sellerEngine).isSome = true := by decide +kernel
  rcases Option.isSome_iff_exists.mp runs with ⟨watched, ran⟩
  have settled : Steps.Throughout Watched.step Watched.Settled soldEvents sellerEngine := by
    decide +kernel
  exact ⟨watched, ran, (mirrored_while_settled settled).1 soldEvents.dropLast _ watched
    (List.prefix_refl soldEvents) ran⟩

end Wildcard

end MojDbQuotaEngine

end Db8.Db
