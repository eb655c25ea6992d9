import Db8.Db.QuotaRequest

/-!
# Which requests a quota refuses

An offset is compared with what its quota has available whatever its sign. The operations of a
request are listed with the quota each is checked against; the request is refused exactly where one
of them does not fit. Where every operation frees space, the running offset of a kind only falls,
so the first operation on it under a quota decides.
-/

set_option autoImplicit false

namespace Db8.Db

open Db8.Bytes
open Db8.Core

namespace StorageOp

/-- The highest total an operation passes through, counted from where it starts. -/
def peak : StorageOp → Option Int
  | .insert key val => some ((val : Int) + key)
  | .update old val => some ((val : Int) - old)
  | .del key => some (-(key : Int))
  | .delPrefix [] => none
  | .delPrefix (size :: _) => some (-(size : Int))
  | .purge item => some (-(item : Int))

def freeing (op : StorageOp) : Prop := op.net ≤ 0

instance (op : StorageOp) : Decidable op.freeing := inferInstanceAs (Decidable (op.net ≤ 0))

theorem totals_drop_le (start : Int) (sizes : List Nat) :
    ∀ total ∈ totals start (sizes.map fun size : Nat => -(size : Int)), total ≤ start := by
  induction sizes generalizing start with
  | nil =>
    intro total member
    cases member
  | cons size rest ih =>
    intro total member
    rw [List.map_cons, totals, List.mem_cons] at member
    rcases member with same | member
    · omega
    · have below := ih _ total member
      omega

theorem totals_fit_iff {fits : Int → Prop} (down : ∀ low high, low ≤ high → fits high → fits low)
    (start : Int) (op : StorageOp) :
    (∀ total ∈ totals start op.offsets, fits total) ↔
      ∀ height ∈ op.peak, fits (start + height) := by
  cases op with
  | insert key val => simp [offsets, totals, peak]
  | update old val =>
    simp only [offsets, totals, peak, List.forall_mem_cons, Option.mem_some_iff, forall_eq']
    constructor
    · intro both
      have same : start + -(old : Int) + val = start + (val - old) := by omega
      exact same ▸ both.2.1
    · intro high
      apply And.intro
      · exact down _ _ (by omega) high
      · apply And.intro
        · exact down _ _ (by omega) high
        · intro total member
          cases member
  | del key => simp [offsets, totals, peak]
  | purge item => simp [offsets, totals, peak]
  | delPrefix sizes =>
    cases sizes with
    | nil => simp [offsets, totals, peak]
    | cons size rest =>
      simp only [offsets, totals, peak, List.map_cons, List.forall_mem_cons,
        Option.mem_some_iff, forall_eq']
      constructor
      · intro both
        exact both.1
      · intro first
        apply And.intro first
        intro total member
        exact down _ _ (totals_drop_le _ rest total member) first

theorem sum_drop_nonpos (sizes : List Nat) : (sizes.map fun size : Nat => -(size : Int)).sum ≤ 0 := by
  induction sizes with
  | nil => exact Int.le_refl 0
  | cons size rest ih =>
    rw [List.map_cons, List.sum_cons]
    omega

theorem net_le_peak {op : StorageOp} {height : Int} (peak : height ∈ op.peak) : op.net ≤ height := by
  cases op with
  | delPrefix sizes =>
    cases sizes with
    | nil => cases peak
    | cons size rest =>
      cases peak
      have below := sum_drop_nonpos rest
      simp only [net, offsets, List.map_cons, List.sum_cons]
      omega
  | insert key val =>
    cases peak
    simp [net, offsets]
  | update old val =>
    cases peak
    simp only [net, offsets, List.sum_cons, List.sum_nil]
    omega
  | del key =>
    cases peak
    simp [net, offsets]
  | purge item =>
    cases peak
    simp [net, offsets]

theorem freeing_peak {op : StorageOp} (frees : op.freeing) {height : Int}
    (peak : height ∈ op.peak) : height ≤ 0 := by
  cases op with
  | delPrefix sizes =>
    cases sizes with
    | nil => cases peak
    | cons size rest =>
      cases peak
      omega
  | insert key val =>
    cases peak
    simpa [freeing, net, offsets] using frees
  | update old val =>
    cases peak
    simp only [freeing, net, offsets, List.sum_cons, List.sum_nil] at frees
    omega
  | del key =>
    cases peak
    omega
  | purge item =>
    cases peak
    omega

end StorageOp

namespace MojDbQuotaEngine

open ReqOp

/-- An operation that reports an offset, with the kind it is charged to, the quota that governs the
kind then, and its peak. -/
structure Check where
  kind : MojString
  governor : Option OwnerKey
  op : StorageOp
  height : Int

def Check.charge (check : Check) : MojString × StorageOp := (check.kind, check.op)

/-- The checks of a request, in their order. `governors` holds the quota each kind is checked
against so far. -/
def checks (engine : MojDbQuotaEngine) (governors : MojString → Option OwnerKey) :
    Option MojString → List ReqOp → List Check
  | _, [] => []
  | _, .curKind id :: rest =>
    match engine.kinds.find id with
    | none => []
    | some kind =>
      engine.checks
        (Function.update governors id (engine.quotaForKind kind (governors id))) (some id) rest
  | none, .storage _ :: rest => engine.checks governors none rest
  | some id, .storage op :: rest =>
    match op.peak with
    | none => engine.checks governors (some id) rest
    | some height => ⟨id, governors id, op, height⟩ :: engine.checks governors (some id) rest
  | cur, .putQuota _ _ :: rest => engine.checks governors cur rest
  | _, .commitKind kind kinds :: rest =>
    ({ engine with kinds := kinds } : MojDbQuotaEngine).checks
      (Function.update governors kind.id (engine.quotaForKind kind (governors kind.id)))
      (some kind.id) rest

/-- Every check fits, on top of what the ones before it have charged to its kind. -/
def AllFit (engine : MojDbQuotaEngine) (charges : List (MojString × StorageOp))
    (list : List Check) : Prop :=
  ∀ before check after, list = before ++ check :: after →
    engine.Fits check.governor
      (netOf (charges ++ before.map Check.charge) check.kind + check.height)

theorem allFit_nil (engine : MojDbQuotaEngine) (charges : List (MojString × StorageOp)) :
    engine.AllFit charges [] := by
  intro before check after split
  cases before <;> cases split

theorem allFit_cons (engine : MojDbQuotaEngine) (charges : List (MojString × StorageOp))
    (check : Check) (rest : List Check) :
    engine.AllFit charges (check :: rest) ↔
      engine.Fits check.governor (netOf charges check.kind + check.height) ∧
        engine.AllFit (charges ++ [check.charge]) rest := by
  constructor
  · intro all
    apply And.intro
    · have first := all [] check rest rfl
      rwa [List.map_nil, List.append_nil] at first
    · intro before next after split
      have later := all (check :: before) next after (by rw [split]; rfl)
      rw [List.append_assoc]
      exact later
  · intro both before next after split
    cases before with
    | nil =>
      rw [List.nil_append, List.cons.injEq] at split
      rw [← split.1, List.map_nil, List.append_nil]
      exact both.1
    | cons head before =>
      rw [List.cons_append, List.cons.injEq] at split
      have later := both.2 before next after split.2
      rw [List.append_assoc] at later
      rw [List.map_cons, ← split.1]
      exact later

theorem net_of_flat {op : StorageOp} (flat : op.peak = none) : op.offsets = [] := by
  cases op with
  | delPrefix sizes =>
    cases sizes with
    | nil => rfl
    | cons size rest => cases flat
  | insert key val => cases flat
  | update old val => cases flat
  | del key => cases flat
  | purge item => cases flat

/-- The offset map knows the quotas its entries are checked against. -/
def Governing (governors : MojString → Option OwnerKey) (txn : MojDbStorageTxn) : Prop :=
  ∀ id, (txn.offsetMap.find id).bind Offset.quota = governors id

theorem curKind_governing (engine : MojDbQuotaEngine) {governors : MojString → Option OwnerKey}
    {txn : MojDbStorageTxn} (kind : MojDbKind) (governing : Governing governors txn) :
    Governing (Function.update governors kind.id (engine.quotaForKind kind (governors kind.id)))
      (engine.curKind kind txn) := by
  intro id
  have before := governing kind.id
  rw [curKind_find, Function.update_apply]
  by_cases same : kind.id = id
  · rw [if_pos same, if_pos same.symm, ← before]
    cases txn.offsetMap.find kind.id <;> rfl
  · rw [if_neg same, if_neg (Ne.symm same)]
    exact governing id

variable {engine : MojDbQuotaEngine}

theorem offsetQuota_error {txn : MojDbStorageTxn} {offset : Int} {err : MojErr}
    (failed : engine.offsetQuota offset txn = .error err) : err = .dbQuotaExceeded := by
  unfold offsetQuota at failed
  split at failed
  · cases failed
  · split at failed
    · cases failed
    · rename_i entry _
      split_ifs at failed
      · cases applied : engine.applyTo entry offset with
        | error other =>
          rw [applied] at failed
          unfold applyTo at applied
          dsimp only at applied
          split at applied
          · cases applied
          · split_ifs at applied
            cases applied
            cases failed
            rfl
        | ok next =>
          rw [applied] at failed
          cases failed
      · cases failed

theorem offsetAll_error {txn : MojDbStorageTxn} {offsets : List Int} {err : MojErr}
    (failed : engine.offsetAll offsets txn = .error err) : err = .dbQuotaExceeded := by
  induction offsets generalizing txn with
  | nil => cases failed
  | cons offset rest ih =>
    rw [offsetAll] at failed
    cases first : engine.offsetQuota offset txn with
    | error other =>
      rw [first] at failed
      cases failed
      exact offsetQuota_error first
    | ok next =>
      rw [first] at failed
      exact ih failed

theorem runOps_accepted_iff {engine : MojDbQuotaEngine} {txn : MojDbStorageTxn}
    {charges : List (MojString × StorageOp)} {governors : MojString → Option OwnerKey}
    (ops : List ReqOp) (tallied : Tallied charges txn) (governing : Governing governors txn) :
    engine.runOps txn ops ≠ .error .dbQuotaExceeded ↔
      engine.AllFit charges (engine.checks governors txn.curQuotaOffset ops) := by
  induction ops generalizing engine txn charges governors with
  | nil =>
    simp only [runOps, checks, ne_eq, reduceCtorEq, not_false_eq_true, true_iff]
    exact engine.allFit_nil charges
  | cons op rest ih =>
    rw [runOps]
    cases op with
    | curKind id =>
      simp only [step, MojDbKindEngine.getKind, checks]
      cases found : engine.kinds.find id with
      | none =>
        simp only [bind, Except.bind, ne_eq, Except.error.injEq, reduceCtorEq,
          not_false_eq_true, true_iff]
        exact engine.allFit_nil charges
      | some kind =>
        have named : kind.id = id := MojDbKindEngine.KindMap.find_id found
        rw [← named]
        exact ih (curKind_tallied engine kind tallied)
          (engine.curKind_governing kind governing)
    | putQuota owner size =>
      exact @ih engine { txn with postCommit := txn.postCommit ++ [(owner, size)] } charges governors
        ⟨⟨tallied.wellFormed.enabled, tallied.wellFormed.current,
          tallied.wellFormed.untouched⟩, tallied.offsets⟩ governing
    | commitKind kind kinds =>
      have kindTally := curKind_tallied engine kind tallied
      exact @ih { engine with kinds := kinds }
        { engine.curKind kind txn with refreshQuotas := true } charges _
        ⟨⟨kindTally.wellFormed.enabled, kindTally.wellFormed.current,
          kindTally.wellFormed.untouched⟩, kindTally.offsets⟩
        (engine.curKind_governing kind governing)
    | storage op =>
      simp only [step]
      cases current : txn.curQuotaOffset with
      | none =>
        rw [offsetAll_none op.offsets current, checks, ← current]
        exact ih tallied governing
      | some id =>
        rw [checks]
        cases high : op.peak with
        | none =>
          rw [net_of_flat high, offsetAll]
          dsimp only
          rw [← current]
          exact ih tallied governing
        | some height =>
          rcases tallied.wellFormed.current id current with ⟨entry, found⟩
          have running : entry.offset = netOf charges id := by
            rw [← tallied.offsets id, offsetOf_find, found]
            rfl
          have governor : entry.quota = governors id := by
            rw [← governing id, found]
            rfl
          have spec := @offsetAll_ok_iff engine txn tallied.wellFormed.enabled id entry
            op.offsets current found
          have peaks := @StorageOp.totals_fit_iff (engine.Fits entry.quota)
            (fun _ _ => fits_mono) entry.offset op
          rw [high, governor, running] at peaks
          simp only [Option.mem_some_iff, forall_eq'] at peaks
          dsimp only
          rw [allFit_cons]
          cases moved : engine.offsetAll op.offsets txn with
          | error err =>
            rw [offsetAll_error moved]
            simp only [bind, Except.bind, ne_eq, not_true_eq_false, false_iff, not_and]
            intro fits
            have done := (spec _).mpr ⟨rfl, by
              rw [governor, running]
              exact peaks.mpr fits⟩
            rw [moved] at done
            cases done
          | ok next =>
            have both := (spec next).mp moved
            have fits : engine.Fits (governors id) (netOf charges id + height) := by
              apply peaks.mp
              rw [← governor, ← running]
              exact both.2
            have stored := storage_tallied tallied moved
            rw [current] at stored
            have kept : Governing governors next := by
              intro other
              rw [both.1, SortedMap.find_put]
              split_ifs with same
              · rw [← same, ← governor]
                rfl
              · exact governing other
            have tail := @ih engine next _ governors stored.1 kept
            rw [stored.2] at tail
            exact ⟨fun accepted => ⟨fits, tail.mp accepted⟩, fun all => tail.mpr all.2⟩

theorem applyUsageEntries_error {entries : List (MojString × Offset)} :
    engine.applyUsageEntries entries ≠ .error .dbQuotaExceeded := by
  induction entries generalizing engine with
  | nil =>
    intro failed
    cases failed
  | cons entry rest ih =>
    rw [applyUsageEntries]
    cases first : engine.applyOffset entry.1 entry.2.offset with
    | ok next => exact ih
    | error err =>
      intro failed
      cases failed
      unfold applyOffset insertUsage mojAssert at first
      split at first
      · split_ifs at first <;> cases first
      · split_ifs at first <;> cases first

theorem commit_not_refused (engine : MojDbQuotaEngine) (txn : MojDbStorageTxn) :
    engine.commit txn ≠ .error .dbQuotaExceeded := by
  unfold commit
  cases started : txn.quotaEngine with
  | false =>
    intro failed
    cases failed
  | true =>
    cases usage : engine.applyUsage txn with
    | error err =>
      intro failed
      simp only [if_true] at failed
      cases failed
      exact applyUsageEntries_error usage
    | ok applied =>
      intro failed
      simp only [if_true] at failed
      cases failed

theorem request_accepted_iff (engine : MojDbQuotaEngine) (ops : List ReqOp) :
    engine.request ops ≠ .error .dbQuotaExceeded ↔
      engine.AllFit [] (engine.checks (fun _ => none) none ops) := by
  have steps := @runOps_accepted_iff engine MojDbStorageTxn.begin [] (fun _ => none) ops
    begin_tallied (fun _ => rfl)
  apply Iff.trans _ steps
  unfold request
  cases ran : engine.runOps MojDbStorageTxn.begin ops with
  | error err =>
    constructor
    · intro accepted failed
      cases failed
      exact accepted rfl
    · intro accepted failed
      cases failed
      exact accepted rfl
  | ok result =>
    constructor
    · intro _ failed
      cases failed
    · intro _
      exact commit_not_refused result.1 result.2

section Freeing

theorem checks_mem {engine : MojDbQuotaEngine} {governors : MojString → Option OwnerKey}
    {cur : Option MojString} {ops : List ReqOp} {check : Check}
    (member : check ∈ engine.checks governors cur ops) :
    .storage check.op ∈ ops ∧ check.height ∈ check.op.peak := by
  induction ops generalizing engine governors cur with
  | nil =>
    cases cur <;> cases member
  | cons op rest ih =>
    have later : ∀ {engine : MojDbQuotaEngine} {governors : MojString → Option OwnerKey}
        {cur : Option MojString}, check ∈ engine.checks governors cur rest →
        .storage check.op ∈ op :: rest ∧ check.height ∈ check.op.peak :=
      fun member => ⟨List.mem_cons_of_mem op (ih member).1, (ih member).2⟩
    cases op with
    | curKind id =>
      rw [checks] at member
      cases found : engine.kinds.find id with
      | none =>
        rw [found] at member
        cases member
      | some kind =>
        rw [found] at member
        exact later member
    | putQuota owner size =>
      rw [checks] at member
      exact later member
    | commitKind kind kinds =>
      rw [checks] at member
      exact later member
    | storage op =>
      cases cur with
      | none =>
        rw [checks] at member
        exact later member
      | some id =>
        rw [checks] at member
        cases high : op.peak with
        | none =>
          rw [high] at member
          exact later member
        | some height =>
          rw [high] at member
          rcases List.mem_cons.mp member with same | member
          · rw [same]
            exact ⟨List.mem_cons_self, high⟩
          · exact later member

/-- For each kind and each quota it comes under, the first operation checked finds room. -/
def RoomForFirst (engine : MojDbQuotaEngine) (ops : List ReqOp) : Prop :=
  ∀ before check after, engine.checks (fun _ => none) none ops = before ++ check :: after →
    (∀ earlier ∈ before, earlier.kind = check.kind → earlier.governor ≠ check.governor) →
    engine.Fits check.governor (netOf (before.map Check.charge) check.kind + check.height)

theorem netOf_nonpos {charges : List (MojString × StorageOp)}
    (frees : ∀ charge ∈ charges, charge.2.freeing) (id : MojString) : netOf charges id ≤ 0 := by
  induction charges with
  | nil => exact Int.le_refl 0
  | cons charge rest ih =>
    have head : charge.2.net ≤ 0 := frees charge List.mem_cons_self
    have tail := ih fun other member => frees other (List.mem_cons_of_mem charge member)
    unfold netOf at tail ⊢
    rw [List.map_cons, List.sum_cons]
    split_ifs <;> omega

theorem netOf_append (front back : List (MojString × StorageOp)) (id : MojString) :
    netOf (front ++ back) id = netOf front id + netOf back id := by
  unfold netOf
  rw [List.map_append, List.sum_append]

theorem first_split {α : Type*} {accepts : α → Prop} [DecidablePred accepts] {list : List α}
    (some : ∃ value ∈ list, accepts value) :
    ∃ before value after, list = before ++ value :: after ∧ accepts value ∧
      ∀ earlier ∈ before, ¬ accepts earlier := by
  induction list with
  | nil =>
    rcases some with ⟨value, member, _⟩
    cases member
  | cons head rest ih =>
    by_cases hit : accepts head
    · exact ⟨[], head, rest, rfl, hit, fun _ member => by cases member⟩
    · rcases some with ⟨value, member, accepted⟩
      rcases List.mem_cons.mp member with same | member
      · exact absurd (same ▸ accepted) hit
      · rcases ih ⟨value, member, accepted⟩ with ⟨before, first, after, split, firstHit, none⟩
        exact ⟨head :: before, first, after, by rw [split]; rfl, firstHit,
          List.forall_mem_cons.mpr ⟨hit, none⟩⟩

/-- A request that only frees space is accepted exactly when every first check has room. -/
theorem freeing_accepted_iff (engine : MojDbQuotaEngine) (ops : List ReqOp)
    (frees : ∀ op, .storage op ∈ ops → op.freeing) :
    engine.request ops ≠ .error .dbQuotaExceeded ↔ engine.RoomForFirst ops := by
  rw [request_accepted_iff]
  constructor
  · intro all before check after split _
    have fits := all before check after split
    rwa [List.nil_append] at fits
  · intro first before check after split
    have known : ∀ other ∈ before ++ check :: after, other.op.freeing ∧
        other.height ∈ other.op.peak := by
      intro other member
      have listed := checks_mem (split ▸ member)
      exact ⟨frees other.op listed.1, listed.2⟩
    rw [List.nil_append]
    by_cases seen : ∃ earlier ∈ before,
        earlier.kind = check.kind ∧ earlier.governor = check.governor
    · rcases first_split seen with ⟨front, lead, back, beforeSplit, same, none⟩
      have fits := first front lead (back ++ check :: after)
        (by rw [split, beforeSplit, List.append_assoc]; rfl)
        (fun earlier member kind governor =>
          none earlier member ⟨kind.trans same.1, governor.trans same.2⟩)
      rw [same.1, same.2] at fits
      apply fits_mono _ fits
      have leadKnown := known lead (by rw [beforeSplit]; simp)
      have checkKnown := known check (by simp)
      have middle : netOf (back.map Check.charge) check.kind ≤ 0 := by
        apply netOf_nonpos
        intro charge member
        rcases List.mem_map.mp member with ⟨other, inside, equal⟩
        rw [← equal]
        exact (known other (by rw [beforeSplit]; simp [inside])).1
      have leadNet := StorageOp.net_le_peak leadKnown.2
      have checkHeight := StorageOp.freeing_peak checkKnown.1 checkKnown.2
      have leadCharge : netOf [lead.charge] check.kind = lead.op.net := by
        simp [netOf, Check.charge, same.1]
      rw [beforeSplit, List.map_append, List.map_cons, ← List.singleton_append, netOf_append,
        netOf_append, leadCharge]
      omega
    · exact first before check after split fun earlier member kind governor =>
        seen ⟨earlier, member, kind, governor⟩

section Purge

def fooOwner : OwnerKey := ⟨chars "com.foo".toList⟩

def fooKindId : MojString := chars "Foo:1".toList

def loweredEngine : MojDbQuotaEngine :=
  openWith (MojDbKindEngine.KindMap.empty.put ⟨fooKindId, fooOwner.name, [], [], []⟩)
    (SortedMap.empty.put fooKindId 300) (fun _ => 0) [(fooOwner, 100)]

/-- The purge of one object: its index key, the correction for its record, its id. -/
def purgeOps : List ReqOp :=
  [.curKind fooKindId, .storage (.del 20), .storage (.purge 150), .storage (.del 10)]

theorem purgeOps_freeing (op : StorageOp) (member : .storage op ∈ purgeOps) : op.freeing := by
  simp only [purgeOps, List.mem_cons, reduceCtorEq, ReqOp.storage.injEq, List.not_mem_nil, or_false,
    false_or] at member
  rcases member with same | same | same <;> rw [same] <;> decide

theorem purge_refused :
    (∀ op, .storage op ∈ purgeOps → op.freeing) ∧
      loweredEngine.request purgeOps = .error .dbQuotaExceeded := by
  apply And.intro purgeOps_freeing
  have refused : (match loweredEngine.request purgeOps with
      | .error err => decide (err = .dbQuotaExceeded)
      | .ok _ => false) = true := by
    decide +kernel
  cases result : loweredEngine.request purgeOps with
  | error err =>
    rw [result] at refused
    rw [of_decide_eq_true refused]
  | ok after =>
    rw [result] at refused
    cases refused

theorem purge_accepted_iff_room :
    loweredEngine.request purgeOps ≠ .error .dbQuotaExceeded ↔
      loweredEngine.RoomForFirst purgeOps :=
  freeing_accepted_iff loweredEngine purgeOps purgeOps_freeing

end Purge

end Freeing

end MojDbQuotaEngine

end Db8.Db
