import Db8.Db.QuotaMirror

/-!
# Whether a commit can exceed a quota

Each kind's offset is checked against the whole space its quota has left, so a transaction in which
one kind of a quota grows stays within it, while two kinds can each take what is left.
-/

set_option autoImplicit false

namespace Db8.Db

open Db8.Bytes
open Db8.Core

namespace MojDbQuotaEngine

open ReqOp

def onObjects (ops : List ReqOp) : Prop := changesKinds ops = false ∧ quotasPut ops = []

instance (ops : List ReqOp) : Decidable (onObjects ops) := inferInstanceAs (Decidable (_ ∧ _))

def grown (engine : MojDbQuotaEngine) (ops : List ReqOp) (owner : OwnerKey) : List MojDbKind :=
  engine.kinds.kinds.filter fun kind =>
    decide (engine.quotaForKind kind none = some owner ∧ 0 < net ops kind.id)

/-- At most one kind of each quota grows, or what the growing ones add fits in what is left. -/
def SingleGrowth (engine : MojDbQuotaEngine) (ops : List ReqOp) : Prop :=
  ∀ entry ∈ engine.quotas.entries,
    (engine.grown ops entry.1).length ≤ 1 ∨
      ((engine.grown ops entry.1).map fun kind => net ops kind.id).sum ≤ entry.2.available

instance (engine : MojDbQuotaEngine) (ops : List ReqOp) : Decidable (engine.SingleGrowth ops) :=
  inferInstanceAs (Decidable (∀ entry ∈ engine.quotas.entries, _ ∨ _))

theorem governedNet_le_grown (engine : MojDbQuotaEngine) (ops : List ReqOp) (owner : OwnerKey) :
    engine.governedNet (net ops) owner ≤
      ((engine.grown ops owner).map fun kind => net ops kind.id).sum := by
  unfold governedNet charge grown
  induction engine.kinds.kinds with
  | nil => exact Int.le_refl 0
  | cons kind rest ih =>
    rw [List.map_cons, List.map_cons, List.sum_cons, List.filter_cons]
    by_cases governed : engine.quotaForKind kind none = some owner
    · by_cases grows : 0 < net ops kind.id
      · rw [if_pos governed, if_pos (decide_eq_true ⟨governed, grows⟩), List.map_cons,
          List.sum_cons]
        omega
      · rw [if_pos governed, if_neg (by simp [grows])]
        dsimp only
        omega
    · rw [if_neg governed, if_neg (by simp [governed])]
      omega

theorem growth_fits {engine : MojDbQuotaEngine} {ops : List ReqOp} {txn : MojDbStorageTxn}
    (tallied : Tallied (charged none ops) txn) (governed : Governed engine txn)
    {owner : OwnerKey} {quota : Quota} (found : engine.quotas.find owner = some quota)
    {kind : MojDbKind} (member : kind ∈ engine.grown ops owner) :
    net ops kind.id ≤ quota.available := by
  rw [grown, List.mem_filter, decide_eq_true_eq] at member
  have tally : offsetOf txn.offsetMap.entries kind.id = net ops kind.id := tallied.offsets kind.id
  have registered := (engine.kinds.mem_kinds_iff kind).mp member.1
  rw [offsetOf_find] at tally
  cases entry : txn.offsetMap.find kind.id with
  | none =>
    rw [entry] at tally
    have grows := member.2.2
    rw [← tally] at grows
    exact absurd grows (lt_irrefl 0)
  | some offset =>
    rw [entry] at tally
    rcases governed kind.id offset entry with ⟨known, knownKind, governor, fits⟩
    rw [registered, Option.some.injEq] at knownKind
    rcases fits with zero | fits
    · have grows := member.2.2
      rw [← tally, Option.elim_some, zero] at grows
      exact absurd grows (lt_irrefl 0)
    · rw [← tally]
      exact fits owner quota (by rw [governor, ← knownKind, member.2.1]) found

theorem request_within {engine after : MojDbQuotaEngine} {ops : List ReqOp}
    (mirrored : engine.Mirrored) (objects : onObjects ops) (single : engine.SingleGrowth ops)
    (committed : engine.request ops = .ok after) {owner : OwnerKey} {quota : Quota}
    (found : engine.quotas.find owner = some quota) (within : engine.usageOf owner ≤ quota.size) :
    after.usageOf owner ≤ quota.size := by
  rcases request_ok committed with ⟨engineRan, txn, run, finished⟩
  have ran := runOps_ran ops begin_tallied run
  have tallied : Tallied (charged none ops) txn := ran.tallied
  rcases commit_ok tallied finished with ⟨applied, spec, result⟩
  have refreshing : txn.refreshQuotas = changesKinds ops := ran.refreshQuotas
  have handlers : txn.postCommit = quotasPut ops := ran.postCommit
  rw [ran.unchanged objects.1] at spec
  rw [refreshing, objects.1, Bool.and_false, if_neg Bool.false_ne_true, handlers, objects.2]
    at result
  have governed := runOps_governed objects.1 begin_tallied (begin_governed engine) run
  have usage : after.usageOf owner = engine.usageOf owner + engine.governedNet (net ops) owner := by
    rw [result]
    have added := congrFun (usageOf_applyQuota applied txn) owner
    exact added.trans (usageOf_applied spec owner)
  have kept : quota.usage = engine.usageOf owner := mirrored owner quota found
  have bound := engine.governedNet_le_grown ops owner
  have member := (engine.quotas.find_eq_some_iff owner quota).mp found
  have room : ((engine.grown ops owner).map fun kind => net ops kind.id).sum ≤
      quota.available := by
    rcases single (owner, quota) member with one | fits
    · dsimp only at one
      cases list : engine.grown ops owner with
      | nil =>
        unfold Quota.available
        rw [List.map_nil, List.sum_nil]
        omega
      | cons kind rest =>
        rw [list, List.length_cons] at one
        have alone : rest = [] := List.length_eq_zero_iff.mp (by omega)
        rw [alone, List.map_singleton, List.sum_singleton]
        exact growth_fits tallied governed found (by rw [list]; exact List.mem_cons_self)
    · exact fits
  unfold Quota.available at room
  omega

def ObjectRequest (engine after : MojDbQuotaEngine) : Prop :=
  ∃ ops, onObjects ops ∧ engine.request ops = .ok after

theorem objects_mirrored {kinds : MojDbKindEngine.KindMap} {usageDb : SortedMap MojString Int}
    {stats : MojString → Nat} {quotas : List (OwnerKey × Int)} {engine : MojDbQuotaEngine}
    (run : Relation.ReflTransGen ObjectRequest (openWith kinds usageDb stats quotas) engine) :
    engine.isOpen = true ∧ engine.Mirrored := by
  induction run with
  | refl => exact ⟨rfl, refreshImpl_mirrored _⟩
  | tail _ step ih =>
    rcases step with ⟨ops, objects, committed⟩
    exact ⟨(request_isOpen committed).trans ih.1,
      (request_charges committed objects.1 objects.2).mpr ih.2⟩

/-- Over any run of requests on objects, a commit in which one kind of each quota grows, or whose
growing kinds find room together, leaves no quota exceeded that was not. -/
theorem quota_kept {kinds : MojDbKindEngine.KindMap} {usageDb : SortedMap MojString Int}
    {stats : MojString → Nat} {quotas : List (OwnerKey × Int)} {engine after : MojDbQuotaEngine}
    {ops : List ReqOp}
    (run : Relation.ReflTransGen ObjectRequest (openWith kinds usageDb stats quotas) engine)
    (objects : onObjects ops) (single : engine.SingleGrowth ops)
    (committed : engine.request ops = .ok after) :
    ∀ owner quota, engine.quotas.find owner = some quota → engine.usageOf owner ≤ quota.size →
      after.usageOf owner ≤ quota.size := by
  intro owner quota found within
  exact request_within (objects_mirrored run).2 objects single committed found within

section TwoKinds

def sharedOwner : OwnerKey := ⟨chars "com.foo".toList⟩

def firstKindId : MojString := chars "Foo:1".toList

def secondKindId : MojString := chars "Bar:1".toList

/-- Two kinds of one owner, under a quota of 100 bytes. -/
def sharedEngine : MojDbQuotaEngine :=
  openWith
    ((MojDbKindEngine.KindMap.empty.put ⟨firstKindId, sharedOwner.name, [], [], []⟩).put
      ⟨secondKindId, sharedOwner.name, [], [], []⟩)
    SortedMap.empty (fun _ => 0) [(sharedOwner, 100)]

def twoPuts : List ReqOp :=
  [.curKind firstKindId, .storage (.insert 10 50), .curKind secondKindId, .storage (.insert 10 50)]

theorem twoPuts_exceed :
    onObjects twoPuts ∧ sharedEngine.usageOf sharedOwner ≤ 100 ∧
      ∃ after, sharedEngine.request twoPuts = .ok after ∧
        after.quotas.find sharedOwner = some ⟨100, 120⟩ ∧ ¬ after.usageOf sharedOwner ≤ 100 := by
  apply And.intro (by decide)
  apply And.intro (by decide +kernel)
  have computed : usages (sharedEngine.request twoPuts) sharedOwner = some (some ⟨100, 120⟩, 120) := by
    decide +kernel
  cases committed : sharedEngine.request twoPuts with
  | error err =>
    rw [committed] at computed
    cases computed
  | ok after =>
    rw [committed] at computed
    simp only [usages, Option.some.injEq, Prod.mk.injEq] at computed
    apply Exists.intro after
    apply And.intro rfl
    apply And.intro computed.1
    rw [computed.2]
    decide

/-- One put of the two is within the quota. -/
theorem onePut_kept :
    ∃ after, sharedEngine.request [.curKind firstKindId, .storage (.insert 10 50)] = .ok after ∧
      after.usageOf sharedOwner ≤ 100 := by
  have runs : (sharedEngine.request
      [.curKind firstKindId, .storage (.insert 10 50)]).toOption.isSome = true := by
    decide +kernel
  have kept : sharedEngine.quotas.find sharedOwner = some ⟨100, 0⟩ := by decide +kernel
  cases committed : sharedEngine.request [.curKind firstKindId, .storage (.insert 10 50)] with
  | error err =>
    rw [committed] at runs
    cases runs
  | ok after =>
    apply Exists.intro after
    apply And.intro rfl
    exact quota_kept .refl (by decide) (by decide +kernel) committed sharedOwner ⟨100, 0⟩ kept
      (by decide +kernel)

end TwoKinds

end MojDbQuotaEngine

end Db8.Db
