import Db8.Db.Kind
import Mathlib.Data.Prod.Lex
import Mathlib.Order.OrderDual

/-!
# Quotas

`MojDbQuotaEngine` and the part of `MojDbStorageTxn` it works through. A transaction keeps one
running offset for each kind it touches, checked against the quota that governs the kind; a commit
adds the offsets to the persisted usage of the kinds and then to the usage kept with the quotas.
-/

set_option autoImplicit false

namespace Db8.Db

open Db8.Bytes
open Db8.Core

/-- An owner under which a quota is kept. Longer names come first, so that the first wildcard that
matches is the longest one. -/
structure OwnerKey where
  name : MojString
deriving DecidableEq

namespace OwnerKey

/-- `MojDbPutHandler::LengthComp`. -/
def rank (key : OwnerKey) : ℕᵒᵈ ×ₗ MojString := toLex (OrderDual.toDual key.name.length, key.name)

theorem rank_injective : Function.Injective rank := by
  intro left right same
  have names : left.name = right.name := congrArg (fun rank => (ofLex rank).2) same
  cases left
  cases right
  exact congrArg OwnerKey.mk names

instance : LinearOrder OwnerKey := LinearOrder.lift' rank rank_injective

end OwnerKey

def star : MojChar := ⟨42, by decide⟩

def matchWildcard (expr val : MojString) : Bool :=
  decide (expr.getLast? = some star) && expr.dropLast.isPrefixOf val

structure Quota where
  size : Int
  usage : Int
deriving DecidableEq

namespace Quota

def available (quota : Quota) : Int := quota.size - quota.usage

def offset (quota : Quota) (off : Int) : Quota := { quota with usage := quota.usage + off }

end Quota

abbrev QuotaMap := SortedMap OwnerKey Quota

structure Offset where
  offset : Int
  quota : Option OwnerKey
deriving DecidableEq

abbrev OffsetMap := SortedMap MojString Offset

/-- The quota engine, with the kind map it reads. A quota is never removed, so the owner it is kept
under stands for a pointer to it. `usageDb` holds the persisted usage of the kinds. -/
structure MojDbQuotaEngine where
  isOpen : Bool
  quotas : QuotaMap
  usageDb : SortedMap MojString Int
  kinds : MojDbKindEngine.KindMap

structure MojDbStorageTxn where
  quotaEnabled : Bool
  refreshQuotas : Bool
  /-- Set by the first `curKind`. -/
  quotaEngine : Bool
  offsetMap : OffsetMap
  /-- The kind whose entry in `offsetMap` is current. -/
  curQuotaOffset : Option MojString
  /-- The commit handlers of the quotas put, in the order of their connection. -/
  postCommit : List (OwnerKey × Int)

namespace MojDbStorageTxn

def begin : MojDbStorageTxn where
  quotaEnabled := true
  refreshQuotas := false
  quotaEngine := false
  offsetMap := SortedMap.empty
  curQuotaOffset := none
  postCommit := []

end MojDbStorageTxn

namespace MojDbQuotaEngine

/-- The quota of an owner: its own one, else the first wildcard that matches. -/
def quotaForOwner (owners : List OwnerKey) (owner : MojString) : Option OwnerKey :=
  if OwnerKey.mk owner ∈ owners then some ⟨owner⟩
  else owners.find? fun key => matchWildcard key.name owner

/-- The walk through the supers in `quotaForKind`; the flag tells that a super's quota was taken. -/
def quotaForSupers (kinds : MojDbKindEngine.KindMap)
    (quotaForKind : MojDbKind → Option OwnerKey → Option OwnerKey) :
    List MojString → Option OwnerKey → Option OwnerKey × Bool
  | [], quotaOut => (quotaOut, false)
  | id :: rest, quotaOut =>
    if id = MojDbKindEngine.rootKindId then quotaForSupers kinds quotaForKind rest quotaOut
    else
      match kinds.find id with
      | none => quotaForSupers kinds quotaForKind rest quotaOut
      | some kind =>
        match quotaForKind kind quotaOut with
        | some quota => (some quota, true)
        | none => quotaForSupers kinds quotaForKind rest none

/-- `quotaForKind`: a super's quota goes before the quota of the kind's owner. What the caller
passes in `quotaOut` stays when nothing is found. -/
def quotaForKindFrom (owners : List OwnerKey) (kinds : MojDbKindEngine.KindMap) :
    Nat → MojDbKind → Option OwnerKey → Option OwnerKey
  | 0, _, quotaOut => quotaOut
  | fuel + 1, kind, quotaOut =>
    let fromSupers := quotaForSupers kinds (quotaForKindFrom owners kinds fuel) kind.supers quotaOut
    if fromSupers.2 then fromSupers.1
    else (quotaForOwner owners kind.owner).or fromSupers.1

def quotaForKind (engine : MojDbQuotaEngine) (kind : MojDbKind) (quotaOut : Option OwnerKey) :
    Option OwnerKey :=
  quotaForKindFrom engine.quotas.keys engine.kinds (engine.kinds.kinds.length + 1) kind quotaOut

/-- `kindUsage`: a kind without a record has used nothing. -/
def kindUsage (engine : MojDbQuotaEngine) (id : MojString) : Int :=
  (engine.usageDb.find id).getD 0

/-- `curKind`: the current offset becomes that of the kind, and its quota is looked up. -/
def curKind (engine : MojDbQuotaEngine) (kind : MojDbKind) (txn : MojDbStorageTxn) :
    MojDbStorageTxn :=
  let entry := (txn.offsetMap.find kind.id).getD ⟨0, none⟩
  { txn with
    quotaEngine := true
    offsetMap := txn.offsetMap.put kind.id
      { entry with quota := engine.quotaForKind kind entry.quota }
    curQuotaOffset := some kind.id }

/-- `Offset::apply`. -/
def applyTo (engine : MojDbQuotaEngine) (entry : Offset) (offset : Int) : Except MojErr Offset :=
  let newOffset := entry.offset + offset
  match entry.quota.bind engine.quotas.find with
  | none => .ok { entry with offset := newOffset }
  | some quota =>
    if quota.available < newOffset then .error .dbQuotaExceeded
    else .ok { entry with offset := newOffset }

def offsetQuota (engine : MojDbQuotaEngine) (offset : Int) (txn : MojDbStorageTxn) :
    Except MojErr MojDbStorageTxn :=
  match txn.curQuotaOffset with
  | none => .ok txn
  | some id =>
    match txn.offsetMap.find id with
    | none => .ok txn
    | some entry => do
      if txn.quotaEnabled then
        let entry ← engine.applyTo entry offset
        return { txn with offsetMap := txn.offsetMap.put id entry }
      else return txn

def insertUsage (engine : MojDbQuotaEngine) (id : MojString) (usage : Int) :
    Except MojErr MojDbQuotaEngine := do
  mojAssert (decide (0 ≤ usage)) "usage >= 0"
  return { engine with usageDb := engine.usageDb.put id usage }

/-- `applyOffset`: the update of a usage record is not itself charged to a quota. -/
def applyOffset (engine : MojDbQuotaEngine) (id : MojString) (offset : Int) :
    Except MojErr MojDbQuotaEngine :=
  match engine.usageDb.find id with
  | some usage => do
    mojAssert (decide (0 ≤ offset + usage)) "newUsage >= 0"
    return { engine with usageDb := engine.usageDb.put id (offset + usage) }
  | none => engine.insertUsage id offset

def applyUsageEntries (engine : MojDbQuotaEngine) :
    List (MojString × Offset) → Except MojErr MojDbQuotaEngine
  | [] => .ok engine
  | (id, entry) :: rest => do
    let engine ← engine.applyOffset id entry.offset
    engine.applyUsageEntries rest

def applyUsage (engine : MojDbQuotaEngine) (txn : MojDbStorageTxn) :
    Except MojErr MojDbQuotaEngine :=
  engine.applyUsageEntries txn.offsetMap.entries

def offsetUsage (engine : MojDbQuotaEngine) (quota : Option OwnerKey) (offset : Int) :
    MojDbQuotaEngine :=
  match quota with
  | none => engine
  | some owner => { engine with quotas := engine.quotas.modify owner fun quota => quota.offset offset }

def offsetUsages (engine : MojDbQuotaEngine) (offsets : List (Option OwnerKey × Int)) :
    MojDbQuotaEngine :=
  offsets.foldl (fun engine offset => engine.offsetUsage offset.1 offset.2) engine

def applyQuota (engine : MojDbQuotaEngine) (txn : MojDbStorageTxn) : MojDbQuotaEngine :=
  engine.offsetUsages (txn.offsetMap.entries.map fun entry => (entry.2.quota, entry.2.offset))

/-- `refreshImpl`: recalculate the usage of the quotas from that of the registered kinds. -/
def refreshImpl (engine : MojDbQuotaEngine) : MojDbQuotaEngine :=
  let zeroed := { engine with quotas := engine.quotas.mapVals fun quota => { quota with usage := 0 } }
  zeroed.offsetUsages (engine.kinds.kinds.map fun kind =>
    (zeroed.quotaForKind kind none, zeroed.kindUsage kind.id))

def commitQuota (engine : MojDbQuotaEngine) (owner : OwnerKey) (size : Int) : MojDbQuotaEngine :=
  let stored := match engine.quotas.find owner with
    | none => { engine with quotas := engine.quotas.put owner ⟨size, 0⟩ }
    | some quota => { engine with quotas := engine.quotas.put owner { quota with size := size } }
  if stored.isOpen then stored.refreshImpl else stored

/-- `MojDbStorageTxn::commit`. The usage is written with the transaction; the handlers run when the
store has it, before the offsets are added to the quotas. -/
def commit (engine : MojDbQuotaEngine) (txn : MojDbStorageTxn) : Except MojErr MojDbQuotaEngine := do
  let engine ← if txn.quotaEngine then engine.applyUsage txn else .ok engine
  let engine := txn.postCommit.foldl (fun engine put => engine.commitQuota put.1 put.2) engine
  if txn.quotaEngine then
    let engine := engine.applyQuota txn
    return if txn.refreshQuotas then engine.refreshImpl else engine
  else return engine

/-- `open`: quotas from the configuration and the store, a usage record for every kind that has
none, and a first calculation of the usage of the quotas. -/
def openWith (kinds : MojDbKindEngine.KindMap) (usageDb : SortedMap MojString Int)
    (stats : MojString → Nat) (quotas : List (OwnerKey × Int)) : MojDbQuotaEngine :=
  let closed : MojDbQuotaEngine := ⟨false, SortedMap.empty, usageDb, kinds⟩
  let configured := quotas.foldl (fun engine put => engine.commitQuota put.1 put.2) closed
  let counted := kinds.kinds.foldl
    (fun usageDb kind =>
      if kind.id ∈ usageDb.keys then usageDb else usageDb.put kind.id (stats kind.id))
    usageDb
  { ({ configured with usageDb := counted } : MojDbQuotaEngine).refreshImpl with isOpen := true }

section Sticky

variable {owners : List OwnerKey} {kinds : MojDbKindEngine.KindMap}

theorem quotaForSupers_sticky {quotaForKind : MojDbKind → Option OwnerKey → Option OwnerKey}
    (sticky : ∀ kind owner, quotaForKind kind none = none ∨ quotaForKind kind none = some owner →
      quotaForKind kind (some owner) = some owner)
    (supers : List MojString) (owner : OwnerKey)
    (before : (quotaForSupers kinds quotaForKind supers none).1 = none ∨
      (quotaForSupers kinds quotaForKind supers none).1 = some owner) :
    (quotaForSupers kinds quotaForKind supers (some owner)).1 = some owner ∧
      ((quotaForSupers kinds quotaForKind supers none).2 = true →
        (quotaForSupers kinds quotaForKind supers (some owner)).2 = true) := by
  induction supers with
  | nil => exact ⟨rfl, id⟩
  | cons id rest ih =>
    simp only [quotaForSupers] at before ⊢
    by_cases root : id = MojDbKindEngine.rootKindId
    · rw [if_pos root] at before
      rw [if_pos root, if_pos root]
      exact ih before
    · rw [if_neg root] at before
      rw [if_neg root, if_neg root]
      cases found : kinds.find id with
      | none =>
        rw [found] at before
        exact ih before
      | some kind =>
        rw [found] at before
        have kept : quotaForKind kind (some owner) = some owner := by
          apply sticky
          cases first : quotaForKind kind none with
          | none => exact Or.inl rfl
          | some quota =>
            simp only [first, reduceCtorEq, false_or] at before
            exact Or.inr before
        simp only [kept, implies_true, and_self]

theorem quotaForSupers_untaken {quotaForKind : MojDbKind → Option OwnerKey → Option OwnerKey}
    (supers : List MojString)
    (untaken : (quotaForSupers kinds quotaForKind supers none).2 = false) :
    (quotaForSupers kinds quotaForKind supers none).1 = none := by
  induction supers with
  | nil => rfl
  | cons id rest ih =>
    rw [quotaForSupers] at untaken ⊢
    split_ifs at untaken ⊢ with root
    · exact ih untaken
    · cases found : kinds.find id with
      | none =>
        rw [found] at untaken
        exact ih untaken
      | some kind =>
        rw [found] at untaken
        cases first : quotaForKind kind none with
        | none =>
          simp only [first] at untaken ⊢
          exact ih untaken
        | some quota => simp only [first, Bool.true_eq_false] at untaken

theorem quotaForKindFrom_sticky (fuel : Nat) (kind : MojDbKind) (owner : OwnerKey)
    (before : quotaForKindFrom owners kinds fuel kind none = none ∨
      quotaForKindFrom owners kinds fuel kind none = some owner) :
    quotaForKindFrom owners kinds fuel kind (some owner) = some owner := by
  induction fuel generalizing kind owner with
  | zero => rfl
  | succ fuel ih =>
    have supers := @quotaForSupers_sticky kinds _ ih kind.supers owner
    rw [quotaForKindFrom] at before ⊢
    cases taken : (quotaForSupers kinds (quotaForKindFrom owners kinds fuel) kind.supers none).2 with
    | true =>
      simp only [taken, if_true] at before
      have kept := supers before
      simp only [kept.1, kept.2 taken, if_true]
    | false =>
      have none := quotaForSupers_untaken kind.supers taken
      simp only [taken, none, Bool.false_eq_true, if_false, Option.or_none] at before
      have kept := supers (Or.inl none)
      simp only [kept.1]
      split_ifs
      · rfl
      · rcases before with missing | found
        · rw [missing]
          rfl
        · rw [found]
          rfl

theorem quotaForSupers_mem {quotaForKind : MojDbKind → Option OwnerKey → Option OwnerKey}
    (known : ∀ kind owner, quotaForKind kind none = some owner → owner ∈ owners)
    (supers : List MojString) {owner : OwnerKey}
    (found : (quotaForSupers kinds quotaForKind supers none).1 = some owner) : owner ∈ owners := by
  induction supers with
  | nil => cases found
  | cons id rest ih =>
    rw [quotaForSupers] at found
    split_ifs at found
    · exact ih found
    · cases registered : kinds.find id with
      | none =>
        rw [registered] at found
        exact ih found
      | some kind =>
        rw [registered] at found
        cases first : quotaForKind kind none with
        | none =>
          simp only [first] at found
          exact ih found
        | some quota =>
          simp only [first, Option.some.injEq] at found
          exact known kind owner (first.trans (congrArg some found))

theorem quotaForKindFrom_mem (fuel : Nat) (kind : MojDbKind) {owner : OwnerKey}
    (found : quotaForKindFrom owners kinds fuel kind none = some owner) : owner ∈ owners := by
  induction fuel generalizing kind owner with
  | zero => cases found
  | succ fuel ih =>
    have supers := @quotaForSupers_mem owners kinds _
      (fun kind owner found => ih kind found) kind.supers owner
    rw [quotaForKindFrom] at found
    split_ifs at found
    · exact supers found
    · rcases Option.or_eq_some_iff.mp found with own | inherited
      · unfold quotaForOwner at own
        split_ifs at own with exact
        · exact Option.some.inj own ▸ exact
        · exact List.mem_of_find?_eq_some own
      · exact supers inherited.2

end Sticky

theorem quotaForKind_mem {engine : MojDbQuotaEngine} {kind : MojDbKind} {owner : OwnerKey}
    (found : engine.quotaForKind kind none = some owner) : owner ∈ engine.quotas.keys :=
  quotaForKindFrom_mem _ kind found

theorem quotaForKind_sticky (engine : MojDbQuotaEngine) (kind : MojDbKind) :
    engine.quotaForKind kind (engine.quotaForKind kind none) = engine.quotaForKind kind none := by
  unfold quotaForKind
  cases found : quotaForKindFrom engine.quotas.keys engine.kinds (engine.kinds.kinds.length + 1)
      kind none with
  | none => exact found
  | some owner => exact quotaForKindFrom_sticky _ kind owner (Or.inr found)

/-- The engine without what a commit changes: which quota governs a kind depends on this only. -/
def SameTables (engine other : MojDbQuotaEngine) : Prop :=
  other.quotas.keys = engine.quotas.keys ∧ other.kinds = engine.kinds

theorem quotaForKind_same {engine other : MojDbQuotaEngine} (same : engine.SameTables other) :
    other.quotaForKind = engine.quotaForKind := by
  unfold quotaForKind
  rw [same.1, same.2]

section Offsets

def charge (offsets : List (Option OwnerKey × Int)) (owner : OwnerKey) : Int :=
  (offsets.map fun offset => if offset.1 = some owner then offset.2 else 0).sum

variable (engine : MojDbQuotaEngine)

theorem offsetUsage_find (quota : Option OwnerKey) (offset : Int) (owner : OwnerKey) :
    (engine.offsetUsage quota offset).quotas.find owner =
      (engine.quotas.find owner).map fun kept =>
        kept.offset (if quota = some owner then offset else 0) := by
  have unmoved : (fun kept : Quota => kept.offset 0) = id := by
    funext kept
    unfold Quota.offset
    rw [Int.add_zero]
    rfl
  cases quota with
  | none =>
    simp only [offsetUsage, reduceCtorEq, if_false, unmoved, Option.map_id_fun, id]
  | some name =>
    simp only [offsetUsage, SortedMap.find_modify, Option.some.injEq]
    split_ifs with same
    · rfl
    · rw [unmoved, Option.map_id_fun, id]

theorem offsetUsage_rest (quota : Option OwnerKey) (offset : Int) :
    engine.SameTables (engine.offsetUsage quota offset) ∧
      (engine.offsetUsage quota offset).usageDb = engine.usageDb ∧
      (engine.offsetUsage quota offset).isOpen = engine.isOpen := by
  cases quota with
  | none => exact ⟨⟨rfl, rfl⟩, rfl, rfl⟩
  | some owner => exact ⟨⟨SortedMap.keys_modify _ _ _, rfl⟩, rfl, rfl⟩

theorem offsetUsages_find (offsets : List (Option OwnerKey × Int)) (owner : OwnerKey) :
    (engine.offsetUsages offsets).quotas.find owner =
      (engine.quotas.find owner).map fun kept => kept.offset (charge offsets owner) := by
  induction offsets generalizing engine with
  | nil =>
    cases found : engine.quotas.find owner with
    | none => simp [offsetUsages, found]
    | some kept => simp [offsetUsages, found, charge, Quota.offset]
  | cons offset rest ih =>
    have tail := ih (engine.offsetUsage offset.1 offset.2)
    unfold offsetUsages at tail ⊢
    rw [List.foldl_cons, tail, offsetUsage_find, Option.map_map]
    congr 1
    funext kept
    simp only [Function.comp, charge, Quota.offset, List.map_cons, List.sum_cons, Int.add_assoc]

theorem offsetUsages_rest (offsets : List (Option OwnerKey × Int)) :
    engine.SameTables (engine.offsetUsages offsets) ∧
      (engine.offsetUsages offsets).usageDb = engine.usageDb ∧
      (engine.offsetUsages offsets).isOpen = engine.isOpen := by
  induction offsets generalizing engine with
  | nil => exact ⟨⟨rfl, rfl⟩, rfl, rfl⟩
  | cons offset rest ih =>
    have head := engine.offsetUsage_rest offset.1 offset.2
    have tail := ih (engine.offsetUsage offset.1 offset.2)
    unfold offsetUsages at tail ⊢
    rw [List.foldl_cons]
    exact ⟨⟨tail.1.1.trans head.1.1, tail.1.2.trans head.1.2⟩, tail.2.1.trans head.2.1,
      tail.2.2.trans head.2.2⟩

end Offsets

section Usage

theorem kindUsage_put (engine : MojDbQuotaEngine) (id other : MojString) (usage : Int) :
    ({ engine with usageDb := engine.usageDb.put id usage } : MojDbQuotaEngine).kindUsage other =
      if id = other then usage else engine.kindUsage other := by
  unfold kindUsage
  rw [SortedMap.find_put]
  split_ifs <;> rfl

theorem applyOffset_ok {engine after : MojDbQuotaEngine} {id : MojString} {offset : Int}
    (applied : engine.applyOffset id offset = .ok after) :
    0 ≤ engine.kindUsage id + offset ∧
      after = { engine with usageDb := engine.usageDb.put id (engine.kindUsage id + offset) } := by
  unfold applyOffset at applied
  cases found : engine.usageDb.find id with
  | none =>
    have fresh : engine.kindUsage id = 0 := by rw [kindUsage, found]; rfl
    simp only [found, insertUsage, mojAssert] at applied
    by_cases bound : 0 ≤ offset
    · simp only [bound, decide_true, if_true] at applied
      rw [fresh, Int.zero_add]
      exact ⟨bound, (Except.ok.inj applied).symm⟩
    · simp only [bound, decide_false, Bool.false_eq_true, if_false] at applied
      cases applied
  | some usage =>
    have kept : engine.kindUsage id = usage := by rw [kindUsage, found]; rfl
    simp only [found, mojAssert] at applied
    by_cases bound : 0 ≤ offset + usage
    · simp only [bound, decide_true, if_true] at applied
      rw [kept, Int.add_comm usage offset]
      exact ⟨bound, (Except.ok.inj applied).symm⟩
    · simp only [bound, decide_false, Bool.false_eq_true, if_false] at applied
      cases applied

/-- The offset of a kind in a list of entries of the offset map. -/
def offsetOf (entries : List (MojString × Offset)) (id : MojString) : Int :=
  (SortedMap.findEntry id entries).elim 0 Offset.offset

/-- `applyUsage` adds its offset to the persisted usage of each kind and touches nothing else. -/
theorem applyUsageEntries_ok {engine after : MojDbQuotaEngine}
    {entries : List (MojString × Offset)} (distinct : (entries.map Prod.fst).Nodup)
    (applied : engine.applyUsageEntries entries = .ok after) :
    (∀ id, after.kindUsage id = engine.kindUsage id + offsetOf entries id) ∧
      after.quotas = engine.quotas ∧ after.kinds = engine.kinds ∧ after.isOpen = engine.isOpen := by
  induction entries generalizing engine with
  | nil =>
    rw [← Except.ok.inj applied]
    exact ⟨fun id => (Int.add_zero _).symm, rfl, rfl, rfl⟩
  | cons entry rest ih =>
    rcases entry with ⟨id, entry⟩
    rw [applyUsageEntries] at applied
    rw [List.map_cons, List.nodup_cons] at distinct
    cases first : engine.applyOffset id entry.offset with
    | error err =>
      rw [first] at applied
      cases applied
    | ok middle =>
      rw [first] at applied
      have tail := ih distinct.2 applied
      have head := (applyOffset_ok first).2
      have usages : ∀ other, middle.kindUsage other =
          if id = other then engine.kindUsage id + entry.offset else engine.kindUsage other := by
        intro other
        rw [head]
        exact engine.kindUsage_put id other _
      apply And.intro
      · intro other
        rw [tail.1 other, usages other, offsetOf, offsetOf, SortedMap.findEntry]
        split_ifs with same
        · rw [← same, SortedMap.findEntry_none distinct.1]
          exact Int.add_zero _
        · rfl
      · rw [tail.2.1, tail.2.2.1, tail.2.2.2, head]
        exact ⟨rfl, rfl, rfl⟩

end Usage

section Mirror

/-- The usage a quota should have: the persisted usage of the kinds it governs. -/
def usageOf (engine : MojDbQuotaEngine) (owner : OwnerKey) : Int :=
  charge (engine.kinds.kinds.map fun kind =>
    (engine.quotaForKind kind none, engine.kindUsage kind.id)) owner

def Mirrored (engine : MojDbQuotaEngine) : Prop :=
  ∀ owner quota, engine.quotas.find owner = some quota → quota.usage = engine.usageOf owner

theorem usageOf_same {engine other : MojDbQuotaEngine} (same : engine.SameTables other)
    (usage : other.usageDb = engine.usageDb) : other.usageOf = engine.usageOf := by
  funext owner
  unfold usageOf kindUsage
  rw [quotaForKind_same same, same.2, usage]

variable (engine : MojDbQuotaEngine)

theorem refreshImpl_rest :
    engine.SameTables engine.refreshImpl ∧ engine.refreshImpl.usageDb = engine.usageDb ∧
      engine.refreshImpl.isOpen = engine.isOpen := by
  have added := offsetUsages_rest
    { engine with quotas := engine.quotas.mapVals fun quota => { quota with usage := 0 } }
    (engine.kinds.kinds.map fun kind =>
      (({ engine with quotas := engine.quotas.mapVals fun quota => { quota with usage := 0 } } :
          MojDbQuotaEngine).quotaForKind kind none, engine.kindUsage kind.id))
  exact ⟨⟨added.1.1.trans (engine.quotas.keys_mapVals _), added.1.2⟩, added.2.1, added.2.2⟩

theorem refreshImpl_find (owner : OwnerKey) :
    engine.refreshImpl.quotas.find owner =
      (engine.quotas.find owner).map fun quota => ⟨quota.size, engine.usageOf owner⟩ := by
  have zeroed : engine.SameTables
      { engine with quotas := engine.quotas.mapVals fun quota => { quota with usage := 0 } } :=
    ⟨engine.quotas.keys_mapVals _, rfl⟩
  have governs := quotaForKind_same zeroed
  unfold refreshImpl
  rw [offsetUsages_find, SortedMap.find_mapVals, Option.map_map]
  congr 1
  funext quota
  simp only [Function.comp, Quota.offset, Int.zero_add, governs]
  rfl

theorem refreshImpl_mirrored : engine.refreshImpl.Mirrored := by
  intro owner quota found
  rw [refreshImpl_find, Option.map_eq_some_iff] at found
  rcases found with ⟨kept, _, same⟩
  rw [← same, usageOf_same engine.refreshImpl_rest.1 engine.refreshImpl_rest.2.1]

end Mirror

end MojDbQuotaEngine

end Db8.Db
