import Db8.Db.QuotaEngine

/-!
# Requests and their charges

A request as the quota engine sees it: the kinds it makes current, the offsets its storage
operations report, and the changes of quotas and kinds that take effect with its commit. What a run
of such steps leaves in the offset map is the net charge of each kind.
-/

set_option autoImplicit false

namespace Db8.Db

open Db8.Bytes
open Db8.Core

inductive StorageOp where
  | insert (key val : Nat)
  | update (old val : Nat)
  | del (key : Nat)
  /-- The drop of an index, record by record. -/
  | delPrefix (sizes : List Nat)
  /-- The correction a purge makes for the record it is about to delete. -/
  | purge (item : Nat)
deriving DecidableEq

namespace StorageOp

/-- The offsets reported, one call of `offsetQuota` each. -/
def offsets : StorageOp → List Int
  | .insert key val => [(val : Int) + key]
  | .update old val => [-(old : Int), (val : Int)]
  | .del key => [-(key : Int)]
  | .delPrefix sizes => sizes.map fun size : Nat => -(size : Int)
  | .purge item => [-(item : Int)]

def net (op : StorageOp) : Int := op.offsets.sum

def totals (start : Int) : List Int → List Int
  | [] => []
  | offset :: rest => (start + offset) :: totals (start + offset) rest

end StorageOp

inductive ReqOp where
  /-- `MojDbReq::curKind`, as a kind's update calls it. -/
  | curKind (id : MojString)
  | storage (op : StorageOp)
  /-- `MojDbQuotaEngine::put`, once its object is stored: the handler for the commit. -/
  | putQuota (owner : OwnerKey) (size : Int)
  /-- What `putKind` or `delKind` does to the kind map, with the refresh asked for in
  `commitKind`. -/
  | commitKind (kind : MojDbKind) (kinds : MojDbKindEngine.KindMap)

namespace MojDbQuotaEngine

def offsetAll (engine : MojDbQuotaEngine) : List Int → MojDbStorageTxn →
    Except MojErr MojDbStorageTxn
  | [], txn => .ok txn
  | offset :: rest, txn => do
    let txn ← engine.offsetQuota offset txn
    engine.offsetAll rest txn

def step (engine : MojDbQuotaEngine) (txn : MojDbStorageTxn) :
    ReqOp → Except MojErr (MojDbQuotaEngine × MojDbStorageTxn)
  | .curKind id => do
    let kind ← MojDbKindEngine.getKind engine.kinds id
    return (engine, engine.curKind kind txn)
  | .storage op => do
    let txn ← engine.offsetAll op.offsets txn
    return (engine, txn)
  | .putQuota owner size =>
    .ok (engine, { txn with postCommit := txn.postCommit ++ [(owner, size)] })
  | .commitKind kind kinds =>
    .ok ({ engine with kinds := kinds },
      { engine.curKind kind txn with refreshQuotas := true })

def runOps (engine : MojDbQuotaEngine) (txn : MojDbStorageTxn) :
    List ReqOp → Except MojErr (MojDbQuotaEngine × MojDbStorageTxn)
  | [] => .ok (engine, txn)
  | op :: rest => do
    let (engine, txn) ← engine.step txn op
    engine.runOps txn rest

def request (engine : MojDbQuotaEngine) (ops : List ReqOp) : Except MojErr MojDbQuotaEngine := do
  let (engine, txn) ← engine.runOps MojDbStorageTxn.begin ops
  engine.commit txn

end MojDbQuotaEngine

namespace ReqOp

/-- The storage operations of a request, each with the kind that is current when it runs. -/
def charged : Option MojString → List ReqOp → List (MojString × StorageOp)
  | _, [] => []
  | _, .curKind id :: rest => charged (some id) rest
  | _, .commitKind kind _ :: rest => charged (some kind.id) rest
  | cur, .putQuota _ _ :: rest => charged cur rest
  | none, .storage _ :: rest => charged none rest
  | some id, .storage op :: rest => (id, op) :: charged (some id) rest

/-- What a list of charged operations adds up to for a kind. -/
def netOf (charges : List (MojString × StorageOp)) (id : MojString) : Int :=
  (charges.map fun charge => if charge.1 = id then charge.2.net else 0).sum

def net (ops : List ReqOp) (id : MojString) : Int := netOf (charged none ops) id

def quotasPut : List ReqOp → List (OwnerKey × Int)
  | [] => []
  | .putQuota owner size :: rest => (owner, size) :: quotasPut rest
  | .curKind _ :: rest => quotasPut rest
  | .storage _ :: rest => quotasPut rest
  | .commitKind _ _ :: rest => quotasPut rest

def changesKinds (ops : List ReqOp) : Bool :=
  ops.any fun
    | .commitKind _ _ => true
    | _ => false

end ReqOp

namespace MojDbQuotaEngine

open ReqOp

/-- A transaction as `curKind` and `offsetQuota` leave it. -/
structure WellFormed (txn : MojDbStorageTxn) : Prop where
  enabled : txn.quotaEnabled = true
  current : ∀ id, txn.curQuotaOffset = some id → ∃ entry, txn.offsetMap.find id = some entry
  untouched : txn.quotaEngine = false → txn.offsetMap.entries = []

theorem begin_wellFormed : WellFormed MojDbStorageTxn.begin where
  enabled := rfl
  current _ none := by cases none
  untouched _ := rfl

def Fits (engine : MojDbQuotaEngine) (governor : Option OwnerKey) (offset : Int) : Prop :=
  ∀ owner quota, governor = some owner → engine.quotas.find owner = some quota →
    offset ≤ quota.available

theorem fits_mono {engine : MojDbQuotaEngine} {governor : Option OwnerKey} {low high : Int}
    (below : low ≤ high) (fits : engine.Fits governor high) : engine.Fits governor low := by
  intro owner quota governed found
  exact le_trans below (fits owner quota governed found)

theorem applyTo_ok_iff (engine : MojDbQuotaEngine) (entry after : Offset) (offset : Int) :
    engine.applyTo entry offset = .ok after ↔
      after = { entry with offset := entry.offset + offset } ∧
        engine.Fits entry.quota (entry.offset + offset) := by
  rcases entry with ⟨running, governor⟩
  unfold applyTo Fits
  cases found : governor.bind engine.quotas.find with
  | none =>
    simp only [Except.ok.injEq]
    constructor
    · intro same
      apply And.intro same.symm
      intro owner quota governed kept
      rw [governed, Option.bind_some, kept] at found
      cases found
    · intro both
      exact both.1.symm
  | some quota =>
    rcases Option.bind_eq_some_iff.mp found with ⟨owner, governed, kept⟩
    dsimp only
    split_ifs with full
    · constructor
      · intro same
        cases same
      · intro both
        exact absurd (both.2 owner quota governed kept) (not_le.mpr full)
    · rw [Except.ok.injEq]
      constructor
      · intro same
        apply And.intro same.symm
        intro other held named found
        rw [governed, Option.some.injEq] at named
        rw [← named, kept, Option.some.injEq] at found
        rw [← found]
        exact not_lt.mp full
      · intro both
        exact both.1.symm

theorem offsetQuota_ok_iff {engine : MojDbQuotaEngine} {txn : MojDbStorageTxn}
    (enabled : txn.quotaEnabled = true) {id : MojString} {entry : Offset} (offset : Int)
    (current : txn.curQuotaOffset = some id) (found : txn.offsetMap.find id = some entry)
    (after : MojDbStorageTxn) :
    engine.offsetQuota offset txn = .ok after ↔
      after = { txn with
        offsetMap := txn.offsetMap.put id { entry with offset := entry.offset + offset } } ∧
      engine.Fits entry.quota (entry.offset + offset) := by
  unfold offsetQuota
  simp only [current, found, enabled, if_true]
  cases applied : engine.applyTo entry offset with
  | error err =>
    constructor
    · intro same
      cases same
    · intro both
      have fits := (engine.applyTo_ok_iff entry _ offset).mpr ⟨rfl, both.2⟩
      rw [applied] at fits
      cases fits
  | ok next =>
    have spec := (engine.applyTo_ok_iff entry next offset).mp applied
    constructor
    · intro same
      rw [← spec.1]
      exact ⟨(Except.ok.inj same).symm, spec.2⟩
    · intro both
      rw [both.1, spec.1]
      rfl

theorem offsetAll_none {engine : MojDbQuotaEngine} {txn : MojDbStorageTxn} (offsets : List Int)
    (current : txn.curQuotaOffset = none) : engine.offsetAll offsets txn = .ok txn := by
  have still : ∀ offset, engine.offsetQuota offset txn = .ok txn := by
    intro offset
    unfold offsetQuota
    rw [current]
  induction offsets with
  | nil => rfl
  | cons offset rest ih =>
    rw [offsetAll, still]
    exact ih

theorem offsetAll_ok_iff {engine : MojDbQuotaEngine} {txn : MojDbStorageTxn}
    (enabled : txn.quotaEnabled = true) {id : MojString} {entry : Offset} (offsets : List Int)
    (current : txn.curQuotaOffset = some id) (found : txn.offsetMap.find id = some entry)
    (after : MojDbStorageTxn) :
    engine.offsetAll offsets txn = .ok after ↔
      after = { txn with
        offsetMap := txn.offsetMap.put id { entry with offset := entry.offset + offsets.sum } } ∧
      ∀ total ∈ StorageOp.totals entry.offset offsets, engine.Fits entry.quota total := by
  induction offsets generalizing txn entry with
  | nil =>
    rw [offsetAll, List.sum_nil, Int.add_zero, SortedMap.put_found found, Except.ok.injEq]
    constructor
    · intro same
      exact ⟨same.symm, fun total member => by cases member⟩
    · intro both
      exact both.1.symm
  | cons offset rest ih =>
    have first := @offsetQuota_ok_iff engine txn enabled id entry offset current found
    rw [offsetAll]
    cases moved : engine.offsetQuota offset txn with
    | error err =>
      constructor
      · intro same
        cases same
      · intro both
        have fits := both.2 _ List.mem_cons_self
        have applied := (first _).mpr ⟨rfl, fits⟩
        rw [moved] at applied
        cases applied
    | ok middle =>
      have spec := (first middle).mp moved
      have kept : middle.offsetMap.find id =
          some { entry with offset := entry.offset + offset } := by
        rw [spec.1, SortedMap.find_put, if_pos rfl]
      have tail := @ih middle (by rw [spec.1]; exact enabled) _
        (by rw [spec.1]; exact current) kept
      have joined : ({ middle with
          offsetMap := middle.offsetMap.put id
            { entry with offset := entry.offset + offset + rest.sum } } : MojDbStorageTxn) =
          { txn with
            offsetMap := txn.offsetMap.put id
              { entry with offset := entry.offset + (offset :: rest).sum } } := by
        rw [spec.1, SortedMap.put_put, List.sum_cons, Int.add_assoc]
      rw [← joined, StorageOp.totals, List.forall_mem_cons]
      constructor
      · intro same
        exact ⟨(tail.mp same).1, spec.2, (tail.mp same).2⟩
      · intro both
        exact tail.mpr ⟨both.1, both.2.2⟩

section Tally

/-- The offset map holds the net of the operations charged so far. -/
structure Tallied (charges : List (MojString × StorageOp)) (txn : MojDbStorageTxn) : Prop where
  wellFormed : WellFormed txn
  offsets : ∀ id, offsetOf txn.offsetMap.entries id = netOf charges id

theorem begin_tallied : Tallied [] MojDbStorageTxn.begin where
  wellFormed := begin_wellFormed
  offsets _ := rfl

theorem offsetOf_find (map : OffsetMap) (id : MojString) :
    offsetOf map.entries id = (map.find id).elim 0 Offset.offset := rfl

theorem curKind_find (engine : MojDbQuotaEngine) (kind : MojDbKind) (txn : MojDbStorageTxn)
    (id : MojString) :
    (engine.curKind kind txn).offsetMap.find id =
      if kind.id = id then
        some { (txn.offsetMap.find kind.id).getD ⟨0, none⟩ with
          quota := engine.quotaForKind kind ((txn.offsetMap.find kind.id).getD ⟨0, none⟩).quota }
      else txn.offsetMap.find id :=
  SortedMap.find_put _ _ _ _

theorem curKind_tallied {charges : List (MojString × StorageOp)} {txn : MojDbStorageTxn}
    (engine : MojDbQuotaEngine) (kind : MojDbKind) (tallied : Tallied charges txn) :
    Tallied charges (engine.curKind kind txn) where
  wellFormed :=
    { enabled := tallied.wellFormed.enabled
      current := by
        intro id current
        rw [curKind_find, if_pos (Option.some.inj current)]
        exact ⟨_, rfl⟩
      untouched := by
        intro unset
        cases unset }
  offsets := by
    intro id
    rw [← tallied.offsets id, offsetOf_find, offsetOf_find, curKind_find]
    split_ifs with same
    · rw [← same]
      cases txn.offsetMap.find kind.id <;> rfl
    · rfl

theorem storage_tallied {engine : MojDbQuotaEngine} {charges : List (MojString × StorageOp)}
    {txn after : MojDbStorageTxn} {op : StorageOp} (tallied : Tallied charges txn)
    (moved : engine.offsetAll op.offsets txn = .ok after) :
    Tallied (charges ++ charged txn.curQuotaOffset [.storage op]) after ∧
      after.curQuotaOffset = txn.curQuotaOffset := by
  cases current : txn.curQuotaOffset with
  | none =>
    rw [offsetAll_none op.offsets current, Except.ok.injEq] at moved
    rw [← moved]
    exact ⟨by rwa [charged, charged, List.append_nil], current⟩
  | some id =>
    rcases tallied.wellFormed.current id current with ⟨entry, found⟩
    have spec := ((offsetAll_ok_iff tallied.wellFormed.enabled op.offsets current found
      after).mp moved).1
    have tally : Tallied (charges ++ [(id, op)]) after :=
      { wellFormed :=
          { enabled := by rw [spec]; exact tallied.wellFormed.enabled
            current := by
              intro other now
              rw [spec, current] at now
              rw [spec, SortedMap.find_put, if_pos (Option.some.inj now)]
              exact ⟨_, rfl⟩
            untouched := by
              intro unset
              rw [spec] at unset
              have empty := tallied.wellFormed.untouched unset
              have missing : txn.offsetMap.find id = none := by
                rw [SortedMap.find, empty]
                rfl
              rw [missing] at found
              cases found }
        offsets := by
          intro other
          rw [netOf, List.map_append, List.sum_append, ← netOf, ← tallied.offsets other,
            offsetOf_find, offsetOf_find, spec, SortedMap.find_put, List.map_singleton,
            List.sum_singleton]
          split_ifs with same
          · rw [← same, found]
            rfl
          · exact (Int.add_zero _).symm }
    exact ⟨tally, by rw [spec]; exact current⟩

inductive Stepped (engine : MojDbQuotaEngine) (txn : MojDbStorageTxn) :
    ReqOp → MojDbQuotaEngine → MojDbStorageTxn → Prop
  | curKind {id : MojString} {kind : MojDbKind} (found : engine.kinds.find id = some kind) :
      Stepped engine txn (.curKind id) engine (engine.curKind kind txn)
  | storage {op : StorageOp} {after : MojDbStorageTxn}
      (moved : engine.offsetAll op.offsets txn = .ok after) :
      Stepped engine txn (.storage op) engine after
  | putQuota {owner : OwnerKey} {size : Int} :
      Stepped engine txn (.putQuota owner size) engine
        { txn with postCommit := txn.postCommit ++ [(owner, size)] }
  | commitKind {kind : MojDbKind} {kinds : MojDbKindEngine.KindMap} :
      Stepped engine txn (.commitKind kind kinds) { engine with kinds := kinds }
        { engine.curKind kind txn with refreshQuotas := true }

theorem step_cases {engine engineAfter : MojDbQuotaEngine} {txn txnAfter : MojDbStorageTxn}
    {op : ReqOp} (stepped : engine.step txn op = .ok (engineAfter, txnAfter)) :
    Stepped engine txn op engineAfter txnAfter := by
  cases op with
  | curKind id =>
    simp only [step] at stepped
    cases found : MojDbKindEngine.getKind engine.kinds id with
    | error err =>
      rw [found] at stepped
      cases stepped
    | ok kind =>
      rw [found] at stepped
      cases stepped
      exact .curKind ((MojDbKindEngine.getKind_ok_iff _ _ _).mp found)
  | storage op =>
    simp only [step] at stepped
    cases moved : engine.offsetAll op.offsets txn with
    | error err =>
      rw [moved] at stepped
      cases stepped
    | ok after =>
      rw [moved] at stepped
      cases stepped
      exact .storage moved
  | putQuota owner size =>
    cases stepped
    exact .putQuota
  | commitKind kind kinds =>
    cases stepped
    exact .commitKind

theorem runOps_cons {engine engineAfter : MojDbQuotaEngine} {txn txnAfter : MojDbStorageTxn}
    {op : ReqOp} {rest : List ReqOp}
    (ran : engine.runOps txn (op :: rest) = .ok (engineAfter, txnAfter)) :
    ∃ engineNext txnNext, Stepped engine txn op engineNext txnNext ∧
      engineNext.runOps txnNext rest = .ok (engineAfter, txnAfter) := by
  rw [runOps] at ran
  cases first : engine.step txn op with
  | error err =>
    rw [first] at ran
    cases ran
  | ok next =>
    rw [first] at ran
    exact ⟨next.1, next.2, step_cases first, ran⟩

structure Ran (engine : MojDbQuotaEngine) (txn : MojDbStorageTxn)
    (charges : List (MojString × StorageOp)) (ops : List ReqOp) (engineAfter : MojDbQuotaEngine)
    (txnAfter : MojDbStorageTxn) : Prop where
  tallied : Tallied (charges ++ charged txn.curQuotaOffset ops) txnAfter
  postCommit : txnAfter.postCommit = txn.postCommit ++ quotasPut ops
  refreshQuotas : txnAfter.refreshQuotas = (txn.refreshQuotas || changesKinds ops)
  quotas : engineAfter.quotas = engine.quotas
  usageDb : engineAfter.usageDb = engine.usageDb
  isOpen : engineAfter.isOpen = engine.isOpen
  quotaEngine : (changesKinds ops || txn.quotaEngine) = true → txnAfter.quotaEngine = true
  unchanged : changesKinds ops = false → engineAfter = engine

theorem offsetAll_rest {engine : MojDbQuotaEngine} {txn after : MojDbStorageTxn}
    (wellFormed : WellFormed txn) {offsets : List Int}
    (moved : engine.offsetAll offsets txn = .ok after) :
    after.postCommit = txn.postCommit ∧ after.refreshQuotas = txn.refreshQuotas ∧
      after.quotaEngine = txn.quotaEngine := by
  cases current : txn.curQuotaOffset with
  | none =>
    rw [offsetAll_none offsets current, Except.ok.injEq] at moved
    rw [← moved]
    exact ⟨rfl, rfl, rfl⟩
  | some id =>
    rcases wellFormed.current id current with ⟨entry, found⟩
    rw [((offsetAll_ok_iff wellFormed.enabled offsets current found after).mp moved).1]
    exact ⟨rfl, rfl, rfl⟩

theorem runOps_ran {engine engineAfter : MojDbQuotaEngine} {txn txnAfter : MojDbStorageTxn}
    {charges : List (MojString × StorageOp)} (ops : List ReqOp) (tallied : Tallied charges txn)
    (ran : engine.runOps txn ops = .ok (engineAfter, txnAfter)) :
    Ran engine txn charges ops engineAfter txnAfter := by
  induction ops generalizing engine txn charges with
  | nil =>
    cases ran
    exact ⟨by rwa [charged, List.append_nil], (List.append_nil _).symm, (Bool.or_false _).symm,
      rfl, rfl, rfl, id, fun _ => rfl⟩
  | cons op rest ih =>
    rcases runOps_cons ran with ⟨engineNext, txnNext, stepped, tail⟩
    cases stepped with
    | @curKind id kind found =>
      have after := ih (curKind_tallied engine kind tallied) tail
      have same : kind.id = id := MojDbKindEngine.KindMap.find_id found
      exact ⟨same ▸ after.tallied, after.postCommit, after.refreshQuotas, after.quotas,
        after.usageDb, after.isOpen, fun _ => after.quotaEngine (Bool.or_true _),
        after.unchanged⟩
    | @storage op _ moved =>
      have next := storage_tallied tallied moved
      have kept := offsetAll_rest tallied.wellFormed moved
      have after := ih next.1 tail
      have joined : charges ++ charged txn.curQuotaOffset (.storage op :: rest) =
          charges ++ charged txn.curQuotaOffset [.storage op] ++
            charged txnNext.curQuotaOffset rest := by
        rw [next.2]
        cases txn.curQuotaOffset with
        | none => simp [charged]
        | some id => simp [charged]
      exact ⟨joined ▸ after.tallied, kept.1 ▸ after.postCommit, kept.2.1 ▸ after.refreshQuotas,
        after.quotas, after.usageDb, after.isOpen, kept.2.2 ▸ after.quotaEngine,
        after.unchanged⟩
    | @putQuota owner size =>
      have after := @ih engine { txn with postCommit := txn.postCommit ++ [(owner, size)] } charges
        ⟨⟨tallied.wellFormed.enabled, tallied.wellFormed.current,
          tallied.wellFormed.untouched⟩, tallied.offsets⟩ tail
      exact ⟨after.tallied, by rw [after.postCommit, quotasPut, List.append_assoc]; rfl,
        after.refreshQuotas, after.quotas, after.usageDb, after.isOpen, after.quotaEngine,
        after.unchanged⟩
    | @commitKind kind kinds =>
      have kindTally := curKind_tallied engine kind tallied
      have after := @ih { engine with kinds := kinds }
        { engine.curKind kind txn with refreshQuotas := true } charges
        ⟨⟨kindTally.wellFormed.enabled, kindTally.wellFormed.current,
          kindTally.wellFormed.untouched⟩, kindTally.offsets⟩ tail
      exact ⟨after.tallied, after.postCommit,
        by rw [after.refreshQuotas]; simp [changesKinds], after.quotas, after.usageDb,
        after.isOpen, fun _ => after.quotaEngine (Bool.or_true _), fun none => by cases none⟩

end Tally

section Governance

/-- While the kind map stands, every entry is checked against the quota of its kind. -/
def Governed (engine : MojDbQuotaEngine) (txn : MojDbStorageTxn) : Prop :=
  ∀ id entry, txn.offsetMap.find id = some entry →
    ∃ kind, engine.kinds.find id = some kind ∧ entry.quota = engine.quotaForKind kind none ∧
      (entry.offset = 0 ∨ engine.Fits entry.quota entry.offset)

theorem begin_governed (engine : MojDbQuotaEngine) : Governed engine MojDbStorageTxn.begin := by
  intro id entry found
  cases found

theorem curKind_governed {engine : MojDbQuotaEngine} {txn : MojDbStorageTxn}
    (governed : Governed engine txn) {id : MojString} {kind : MojDbKind}
    (registered : engine.kinds.find id = some kind) :
    Governed engine (engine.curKind kind txn) := by
  intro other entry found
  have named : kind.id = id := MojDbKindEngine.KindMap.find_id registered
  rw [curKind_find] at found
  split_ifs at found with same
  · apply Exists.intro kind
    rw [← same, named]
    apply And.intro registered
    rw [← Option.some.inj found]
    cases before : txn.offsetMap.find kind.id with
    | none => exact ⟨rfl, Or.inl rfl⟩
    | some kept =>
      rcases governed kind.id kept before with ⟨known, knownKind, quota, fits⟩
      rw [named, registered, Option.some.injEq] at knownKind
      rw [← knownKind] at quota
      simp only [Option.getD_some]
      rw [quota, quotaForKind_sticky]
      exact ⟨rfl, quota ▸ fits⟩
  · exact governed other entry found

theorem totals_last (start : Int) {offsets : List Int} (some : offsets ≠ []) :
    start + offsets.sum ∈ StorageOp.totals start offsets := by
  induction offsets generalizing start with
  | nil => exact absurd rfl some
  | cons offset rest ih =>
    rw [StorageOp.totals, List.sum_cons, ← Int.add_assoc]
    cases rest with
    | nil =>
      rw [List.sum_nil, Int.add_zero]
      exact List.mem_cons_self
    | cons next others => exact List.mem_cons_of_mem _ (ih _ (List.cons_ne_nil _ _))

theorem offsetAll_governed {engine : MojDbQuotaEngine} {txn after : MojDbStorageTxn}
    (wellFormed : WellFormed txn) (governed : Governed engine txn) {offsets : List Int}
    (moved : engine.offsetAll offsets txn = .ok after) : Governed engine after := by
  cases current : txn.curQuotaOffset with
  | none =>
    rw [offsetAll_none offsets current, Except.ok.injEq] at moved
    exact moved ▸ governed
  | some id =>
    rcases wellFormed.current id current with ⟨entry, found⟩
    have spec := (offsetAll_ok_iff wellFormed.enabled offsets current found after).mp moved
    intro other kept foundKept
    rw [spec.1, SortedMap.find_put] at foundKept
    split_ifs at foundKept with same
    · rcases governed id entry found with ⟨kind, registered, quota, fits⟩
      rw [← Option.some.inj foundKept, ← same]
      apply Exists.intro kind
      apply And.intro registered
      apply And.intro quota
      by_cases none : offsets = []
      · rw [none, List.sum_nil, Int.add_zero]
        exact fits
      · exact Or.inr (spec.2 _ (totals_last entry.offset none))
    · exact governed other kept foundKept

theorem runOps_governed {engine engineAfter : MojDbQuotaEngine} {txn txnAfter : MojDbStorageTxn}
    {charges : List (MojString × StorageOp)} {ops : List ReqOp}
    (standing : changesKinds ops = false) (tallied : Tallied charges txn)
    (governed : Governed engine txn)
    (ran : engine.runOps txn ops = .ok (engineAfter, txnAfter)) : Governed engine txnAfter := by
  induction ops generalizing txn charges with
  | nil =>
    cases ran
    exact governed
  | cons op rest ih =>
    rcases runOps_cons ran with ⟨engineNext, txnNext, stepped, tail⟩
    cases stepped with
    | @curKind id kind found =>
      exact ih standing (curKind_tallied engine kind tallied)
        (curKind_governed governed found) tail
    | storage moved =>
      exact ih standing (storage_tallied tallied moved).1
        (offsetAll_governed tallied.wellFormed governed moved) tail
    | @putQuota owner size =>
      exact @ih { txn with postCommit := txn.postCommit ++ [(owner, size)] } charges standing
        ⟨⟨tallied.wellFormed.enabled, tallied.wellFormed.current,
          tallied.wellFormed.untouched⟩, tallied.offsets⟩ governed tail
    | commitKind => cases standing

/-- What a change of the kinds' usage adds to the quota of an owner. -/
def governedNet (engine : MojDbQuotaEngine) (change : MojString → Int) (owner : OwnerKey) : Int :=
  charge (engine.kinds.kinds.map fun kind => (engine.quotaForKind kind none, change kind.id)) owner

theorem charge_offsetMap {engine : MojDbQuotaEngine} {charges : List (MojString × StorageOp)}
    {txn : MojDbStorageTxn} (tallied : Tallied charges txn) (governed : Governed engine txn)
    (owner : OwnerKey) :
    charge (txn.offsetMap.entries.map fun entry => (entry.2.quota, entry.2.offset)) owner =
      engine.governedNet (netOf charges) owner := by
  have covered : ∀ id ∈ txn.offsetMap.entries.map Prod.fst, id ∈ engine.kinds.ids := by
    intro id member
    rcases List.mem_map.mp member with ⟨entry, inside, same⟩
    have found := (txn.offsetMap.find_eq_some_iff entry.1 entry.2).mpr inside
    rcases governed entry.1 entry.2 found with ⟨kind, registered, _⟩
    rw [← same, ← MojDbKindEngine.KindMap.find_id registered]
    apply List.mem_map_of_mem
    rw [engine.kinds.mem_kinds_iff, MojDbKindEngine.KindMap.find_id registered, registered]
  have sums := SortedMap.sum_entries
    (fun _ (entry : Offset) => if entry.quota = some owner then entry.offset else 0)
    txn.offsetMap.entries engine.kinds.ids txn.offsetMap.keys_nodup engine.kinds.ids_nodup covered
  unfold governedNet charge
  rw [List.map_map, List.map_map]
  apply Eq.trans sums
  unfold MojDbKindEngine.KindMap.ids
  rw [List.map_map]
  apply congrArg
  apply List.map_congr_left
  intro kind member
  have registered := (engine.kinds.mem_kinds_iff kind).mp member
  have tally := tallied.offsets kind.id
  unfold offsetOf at tally
  simp only [Function.comp]
  cases found : SortedMap.findEntry kind.id txn.offsetMap.entries with
  | none =>
    rw [found] at tally
    rw [← tally]
    exact (ite_self 0).symm
  | some entry =>
    rcases governed kind.id entry found with ⟨known, knownKind, quota, _⟩
    rw [registered, Option.some.injEq] at knownKind
    rw [found] at tally
    rw [← tally, knownKind, ← quota]
    rfl

end Governance

end MojDbQuotaEngine

end Db8.Db
