import Db8.Db.PermissionEngine

/-!
# What a sequence of permissions grants

Permissions are put one after the other and every one replaces what was put for the same caller of
the same object. What `check` answers is what was last put for the caller itself, or for the longest
wildcard that begins with its stem; the order of the puts does not matter otherwise. The longest
wildcard comes out because the callers of an object are ordered by length first.
-/

set_option autoImplicit false

namespace Db8.Db.MojDbPermissionEngine

open Db8.Bytes
open Db8.Core

section LengthComp

/-- `MojStrCmp`, of which only the sign is looked at. -/
def strCmp : MojString → MojString → Ordering
  | [], [] => .eq
  | [], _ :: _ => .lt
  | _ :: _, [] => .gt
  | first :: str1, other :: str2 =>
    if first < other then .lt
    else if other < first then .gt
    else strCmp str1 str2

/-- `MojComp` of two sizes. -/
def sizeComp (val1 val2 : Nat) : Ordering :=
  if val1 < val2 then .lt else if val2 < val1 then .gt else .eq

def lengthComp (val1 val2 : MojString) : Ordering :=
  if val1.length = val2.length then strCmp val1 val2 else sizeComp val2.length val1.length

theorem strCmp_spec (left right : MojString) :
    (strCmp left right = .lt ↔ left < right) ∧ (strCmp left right = .eq ↔ left = right) := by
  induction left generalizing right with
  | nil =>
    cases right with
    | nil => simp [strCmp]
    | cons other right => simp [strCmp]
  | cons first left ih =>
    cases right with
    | nil => simp [strCmp]
    | cons other right =>
      rw [strCmp, List.cons_lt_cons_iff, List.cons_eq_cons]
      rcases lt_trichotomy first other with less | rfl | greater
      · simp [less, ne_of_lt less]
      · simp [ih right]
      · simp [greater, lt_asymm greater, ne_of_gt greater]

theorem ownerKey_lt_iff (left right : MojString) : OwnerKey.mk left < OwnerKey.mk right ↔
    right.length < left.length ∨ left.length = right.length ∧ left < right := by
  change OwnerKey.rank _ < OwnerKey.rank _ ↔ _
  rw [OwnerKey.rank, OwnerKey.rank, Prod.Lex.toLex_lt_toLex]
  rfl

theorem length_le_of_le {left right : MojString} (ordered : OwnerKey.mk left ≤ OwnerKey.mk right) :
    right.length ≤ left.length := by
  apply Nat.le_of_not_lt
  intro shorter
  exact absurd ((ownerKey_lt_iff right left).mpr (Or.inl shorter)) (not_lt_of_ge ordered)

theorem lengthComp_spec (left right : MojString) :
    (lengthComp left right = .lt ↔ OwnerKey.mk left < OwnerKey.mk right) ∧
      (lengthComp left right = .eq ↔ left = right) := by
  rw [ownerKey_lt_iff, lengthComp]
  by_cases same : left.length = right.length
  · rw [if_pos same, (strCmp_spec left right).1, (strCmp_spec left right).2]
    simp [same]
  · have apart : left ≠ right := fun equal => same (congrArg List.length equal)
    rw [if_neg same, sizeComp]
    rcases Nat.lt_or_ge right.length left.length with longer | shorter
    · simp [longer, apart]
    · have less : left.length < right.length := by omega
      simp [less, Nat.not_lt.mpr shorter, apart, same]

theorem lengthComp_swap (left right : MojString) :
    lengthComp right left = (lengthComp left right).swap := by
  rcases lt_trichotomy (OwnerKey.mk left) (OwnerKey.mk right) with less | equal | greater
  · have right_gt : lengthComp right left = .gt := by
      cases compared : lengthComp right left with
      | lt => exact absurd ((lengthComp_spec right left).1.mp compared) (lt_asymm less)
      | eq =>
        rw [(lengthComp_spec right left).2.mp compared] at less
        exact absurd less (lt_irrefl _)
      | gt => rfl
    rw [right_gt, (lengthComp_spec left right).1.mpr less]
    rfl
  · have same : left = right := congrArg OwnerKey.name equal
    rw [same, (lengthComp_spec right right).2.mpr rfl]
    rfl
  · have left_gt : lengthComp left right = .gt := by
      cases compared : lengthComp left right with
      | lt => exact absurd ((lengthComp_spec left right).1.mp compared) (lt_asymm greater)
      | eq =>
        rw [(lengthComp_spec left right).2.mp compared] at greater
        exact absurd greater (lt_irrefl _)
      | gt => rfl
    rw [left_gt, (lengthComp_spec right left).1.mpr greater]
    rfl

end LengthComp

section Puts

/-- `put`. The last argument is the result of putting the permission in the database, or success
where that is not asked for. -/
def put (engine : MojDbPermissionEngine) (kinds : MojDbKindEngine.KindMap) (req : Requester)
    (perm : Permission) (stored : Except MojErr Unit) : Except MojErr MojDbPermissionEngine := do
  let opMap ← engine.checkPut kinds req perm
  stored
  .ok (engine.record perm opMap)

/-- A call of `put`, with what it finds. -/
structure Put where
  kinds : MojDbKindEngine.KindMap
  req : Requester
  perm : Permission
  stored : Except MojErr Unit

namespace Put

def operations (put : Put) (enabled : Bool) : Option OperationMap :=
  match checkPut ⟨SortedMap.empty, enabled⟩ put.kinds put.req put.perm, put.stored with
  | .ok opMap, .ok _ => some opMap
  | _, _ => none

/-- What the put tells about a caller, or a pattern of callers, of an object. -/
def tells (put : Put) (enabled : Bool) (type object pattern : MojString) : Option OperationMap :=
  if put.perm.type = type ∧ put.perm.object = object ∧ put.perm.caller = pattern then
    put.operations enabled
  else none

def key (put : Put) : MojString × MojString × MojString :=
  (put.perm.type, put.perm.object, put.perm.caller)

end Put

def apply (engine : MojDbPermissionEngine) (call : Put) : MojDbPermissionEngine :=
  match engine.put call.kinds call.req call.perm call.stored with
  | .ok next => next
  | .error _ => engine

def applyAll (engine : MojDbPermissionEngine) (calls : List Put) : MojDbPermissionEngine :=
  calls.foldl apply engine

def fresh (enabled : Bool) : MojDbPermissionEngine := ⟨SortedMap.empty, enabled⟩

/-- The last put for a caller, or a pattern of callers, of an object that succeeded. -/
def lastPut (enabled : Bool) (calls : List Put) (type object pattern : MojString) :
    Option OperationMap :=
  calls.reverse.findSome? fun call => call.tells enabled type object pattern

theorem checkPut_enabled (engine other : MojDbPermissionEngine)
    (same : engine.enabled = other.enabled) (kinds : MojDbKindEngine.KindMap) (req : Requester)
    (perm : Permission) : engine.checkPut kinds req perm = other.checkPut kinds req perm := by
  unfold checkPut checkKindUpdate deny
  rw [same]

variable (engine : MojDbPermissionEngine)

theorem enabled_apply (call : Put) : (engine.apply call).enabled = engine.enabled := by
  unfold apply put
  cases engine.checkPut call.kinds call.req call.perm with
  | error err => rfl
  | ok opMap =>
    cases call.stored with
    | error err => rfl
    | ok _ => rfl

theorem find_apply (call : Put) (type object pattern : MojString) :
    ((engine.apply call).callers type object).find ⟨pattern⟩ =
      (call.tells engine.enabled type object pattern).or
        ((engine.callers type object).find ⟨pattern⟩) := by
  have checked := checkPut_enabled engine ⟨SortedMap.empty, engine.enabled⟩ rfl call.kinds call.req
    call.perm
  unfold apply put Put.tells Put.operations
  rw [← checked]
  cases engine.checkPut call.kinds call.req call.perm with
  | error err => simp [bind, Except.bind]
  | ok opMap =>
    cases call.stored with
    | error err => simp [bind, Except.bind]
    | ok _ =>
      simp only [bind, Except.bind, callers_record]
      by_cases about : call.perm.type = type ∧ call.perm.object = object
      · rw [if_pos about, SortedMap.find_put]
        by_cases same : call.perm.caller = pattern
        · simp [about, same]
        · have keys : OwnerKey.mk call.perm.caller ≠ ⟨pattern⟩ := by
            intro equal
            exact same (congrArg OwnerKey.name equal)
          simp [same, keys]
      · rw [if_neg about]
        have other : ¬ (call.perm.type = type ∧ call.perm.object = object ∧
            call.perm.caller = pattern) := fun all => about ⟨all.1, all.2.1⟩
        simp [other]

/-- The tables hold what was put last, over what they held before. -/
theorem find_applyAll (calls : List Put) (type object pattern : MojString) :
    ((engine.applyAll calls).callers type object).find ⟨pattern⟩ =
      (lastPut engine.enabled calls type object pattern).or
        ((engine.callers type object).find ⟨pattern⟩) := by
  induction calls generalizing engine with
  | nil => rfl
  | cons call rest ih =>
    have folded : engine.applyAll (call :: rest) = (engine.apply call).applyAll rest := rfl
    rw [folded, ih, enabled_apply, find_apply, ← Option.or_assoc]
    unfold lastPut
    rw [List.reverse_cons, List.findSome?_append, List.findSome?_singleton]

theorem find_fresh (enabled : Bool) (calls : List Put) (type object pattern : MojString) :
    (((fresh enabled).applyAll calls).callers type object).find ⟨pattern⟩ =
      lastPut enabled calls type object pattern := by
  rw [find_applyAll]
  have nothing : ((fresh enabled).callers type object).find ⟨pattern⟩ = none := rfl
  rw [nothing, Option.or_none]
  rfl

end Puts

section Resolution

/-- The stem is that of the longest wildcard, of those anything was put for, that fits the caller. -/
def LongestWildcard (last : MojString → Option OperationMap) (caller stem : MojString) : Prop :=
  last (stem ++ [star]) ≠ none ∧ stem <+: caller ∧
    ∀ other, last (other ++ [star]) ≠ none → other <+: caller → other.length ≤ stem.length

theorem matchWildcard_iff (expr val : MojString) :
    matchWildcard expr val = true ↔ ∃ stem, expr = stem ++ [star] ∧ stem <+: val := by
  unfold matchWildcard
  rw [Bool.and_eq_true, decide_eq_true_eq, List.isPrefixOf_iff_prefix]
  constructor
  · rintro ⟨last, starts⟩
    exact ⟨expr.dropLast, (List.dropLast_append_getLast? star last).symm, starts⟩
  · rintro ⟨stem, rfl, starts⟩
    rw [List.getLast?_concat, List.dropLast_concat]
    exact ⟨rfl, starts⟩

theorem callerEntry_own {callers : CallerMap} {caller : MojString} {opMap : OperationMap}
    (own : callers.find ⟨caller⟩ = some opMap) :
    callerEntry callers caller = some (⟨caller⟩, opMap) := by
  rw [callerEntry, own]

theorem callerEntry_wildcard {callers : CallerMap} {caller stem : MojString} {opMap : OperationMap}
    (own : callers.find ⟨caller⟩ = none)
    (longest : LongestWildcard (fun pattern => callers.find ⟨pattern⟩) caller stem)
    (found : callers.find ⟨stem ++ [star]⟩ = some opMap) :
    callerEntry callers caller = some (⟨stem ++ [star]⟩, opMap) := by
  rcases longest with ⟨_, starts, most⟩
  have there := (callers.find_eq_some_iff _ _).mp found
  have fits : matchWildcard (stem ++ [star]) caller = true :=
    (matchWildcard_iff _ _).mpr ⟨stem, rfl, starts⟩
  rw [callerEntry, own]
  cases searched : callers.entries.find? fun entry => matchWildcard entry.1.name caller with
  | none => exact absurd fits (List.find?_eq_none.mp searched _ there)
  | some first =>
    have hit := List.find?_some searched
    have before : first.1 ≤ ⟨stem ++ [star]⟩ := SortedMap.le_of_find? searched there fits
    have present := (callers.find_eq_some_iff first.1 first.2).mpr (List.mem_of_find?_eq_some searched)
    rcases (matchWildcard_iff _ _).mp hit with ⟨other, nameEq, otherStarts⟩
    have keyEq : first.1 = ⟨other ++ [star]⟩ := congrArg OwnerKey.mk nameEq
    rw [keyEq] at before present
    have otherShort : other.length ≤ stem.length := by
      apply most other _ otherStarts
      simp only [present]
      exact Option.some_ne_none _
    -- an entry before it is longer, so the stems have one length and begin the same caller
    have stemShort : stem.length ≤ other.length := by
      have lengths := length_le_of_le before
      simpa using lengths
    have same : other = stem :=
      List.IsPrefix.eq_of_length (List.prefix_of_prefix_length_le otherStarts starts otherShort)
        (Nat.le_antisymm otherShort stemShort)
    rw [same, found] at present
    rw [same] at keyEq
    exact congrArg some (Prod.ext keyEq (Option.some.inj present).symm)

theorem callerEntry_none {callers : CallerMap} {caller : MojString}
    (own : callers.find ⟨caller⟩ = none)
    (nothing : ∀ stem, stem <+: caller → callers.find ⟨stem ++ [star]⟩ = none) :
    callerEntry callers caller = none := by
  rw [callerEntry, own]
  apply List.find?_eq_none.mpr
  intro entry there hit
  rcases (matchWildcard_iff _ _).mp hit with ⟨stem, nameEq, starts⟩
  have present := (callers.find_eq_some_iff entry.1 entry.2).mpr there
  have keyEq : entry.1 = ⟨stem ++ [star]⟩ := congrArg OwnerKey.mk nameEq
  rw [keyEq, nothing stem starts] at present
  cases present

theorem lastPut_eq_some_iff {enabled : Bool} {calls : List Put}
    (distinct : calls.Pairwise fun one two => one.key ≠ two.key) (type object pattern : MojString)
    (opMap : OperationMap) :
    lastPut enabled calls type object pattern = some opMap ↔
      ∃ call ∈ calls, call.tells enabled type object pattern = some opMap := by
  constructor
  · intro last
    rcases List.exists_of_findSome?_eq_some last with ⟨call, there, told⟩
    exact ⟨call, List.mem_reverse.mp there, told⟩
  · rintro ⟨call, there, told⟩
    have keyed : ∀ {other : Put} {others : OperationMap},
        other.tells enabled type object pattern = some others → other.key = (type, object, pattern) := by
      intro other others tells
      unfold Put.tells at tells
      split_ifs at tells with about
      unfold Put.key
      rw [about.1, about.2.1, about.2.2]
    cases last : lastPut enabled calls type object pattern with
    | none =>
      have silent := List.findSome?_eq_none_iff.mp last call (List.mem_reverse.mpr there)
      rw [told] at silent
      cases silent
    | some found =>
      rcases List.exists_of_findSome?_eq_some last with ⟨other, otherThere, otherTold⟩
      have same : other = call := by
        apply Classical.byContradiction
        intro apart
        have : Std.Symm fun one two : Put => one.key ≠ two.key := ⟨fun _ _ unlike => unlike.symm⟩
        have unlike := distinct.forall (List.mem_reverse.mp otherThere) there apart
        exact unlike ((keyed otherTold).trans (keyed told).symm)
      rw [same, told] at otherTold
      exact otherTold.symm

theorem check_applyAll (enabled : Bool) (calls : List Put) (type object caller op : MojString) :
    ((fresh enabled).applyAll calls).check type object caller op =
      ((callerEntry (((fresh enabled).applyAll calls).callers type object) caller).bind
        fun entry => entry.2.find op).getD .undefined := by
  unfold check
  cases callerEntry (((fresh enabled).applyAll calls).callers type object) caller with
  | none => rfl
  | some entry => rfl

/-- `check` answers by what was last put for the caller, else for the longest wildcard that fits. -/
theorem check_eq (enabled : Bool) (calls : List Put) (type object caller op : MojString) :
    (∀ opMap, lastPut enabled calls type object caller = some opMap →
      ((fresh enabled).applyAll calls).check type object caller op =
        (opMap.find op).getD .undefined) ∧
    (∀ stem opMap, lastPut enabled calls type object caller = none →
      LongestWildcard (lastPut enabled calls type object) caller stem →
      lastPut enabled calls type object (stem ++ [star]) = some opMap →
      ((fresh enabled).applyAll calls).check type object caller op =
        (opMap.find op).getD .undefined) ∧
    (lastPut enabled calls type object caller = none →
      (∀ stem, stem <+: caller → lastPut enabled calls type object (stem ++ [star]) = none) →
      ((fresh enabled).applyAll calls).check type object caller op = .undefined) := by
  have held := find_fresh enabled calls type object
  have table : lastPut enabled calls type object =
      fun pattern => (((fresh enabled).applyAll calls).callers type object).find ⟨pattern⟩ :=
    funext fun pattern => (held pattern).symm
  rw [check_applyAll, table]
  refine ⟨?_, ?_, ?_⟩
  · intro opMap own
    rw [callerEntry_own own]
    rfl
  · intro stem opMap own longest found
    rw [callerEntry_wildcard own longest found]
    rfl
  · intro own nothing
    rw [callerEntry_none own nothing]
    rfl

variable {calls others : List Put}

theorem callers_eq_of_lastPut {enabled other : Bool}
    (same : lastPut enabled calls = lastPut other others) (type object : MojString) :
    ((fresh enabled).applyAll calls).callers type object =
      ((fresh other).applyAll others).callers type object := by
  apply SortedMap.ext_find
  rintro ⟨pattern⟩
  rw [find_fresh, find_fresh, same]

theorem check_eq_of_lastPut {enabled other : Bool}
    (same : lastPut enabled calls = lastPut other others) (type object caller op : MojString) :
    ((fresh enabled).applyAll calls).check type object caller op =
      ((fresh other).applyAll others).check type object caller op := by
  unfold check
  rw [callers_eq_of_lastPut same]

theorem lastPut_perm {enabled : Bool} (reordered : calls.Perm others)
    (distinct : calls.Pairwise fun one two => one.key ≠ two.key) :
    lastPut enabled calls = lastPut enabled others := by
  have othersDistinct := (reordered.pairwise_iff fun unlike => unlike.symm).mp distinct
  funext type object pattern
  apply Option.ext
  intro opMap
  rw [lastPut_eq_some_iff distinct, lastPut_eq_some_iff othersDistinct]
  constructor
  · rintro ⟨call, there, told⟩
    exact ⟨call, reordered.mem_iff.mp there, told⟩
  · rintro ⟨call, there, told⟩
    exact ⟨call, reordered.mem_iff.mpr there, told⟩

end Resolution

/-- After any permissions put in any order, `check` answers by the last put for the caller, else for
the longest wildcard that fits it, else not at all; and the comparison behind it is a total order. -/
theorem permission_resolution :
    (∀ (enabled : Bool) (calls : List Put) (type object caller op : MojString),
      (∀ opMap, lastPut enabled calls type object caller = some opMap →
        ((fresh enabled).applyAll calls).check type object caller op =
          (opMap.find op).getD .undefined) ∧
      (∀ stem opMap, lastPut enabled calls type object caller = none →
        LongestWildcard (lastPut enabled calls type object) caller stem →
        lastPut enabled calls type object (stem ++ [star]) = some opMap →
        ((fresh enabled).applyAll calls).check type object caller op =
          (opMap.find op).getD .undefined) ∧
      (lastPut enabled calls type object caller = none →
        (∀ stem, stem <+: caller → lastPut enabled calls type object (stem ++ [star]) = none) →
        ((fresh enabled).applyAll calls).check type object caller op = .undefined)) ∧
    (∀ (enabled other : Bool) (calls others : List Put),
      lastPut enabled calls = lastPut other others → ∀ type object caller op,
        ((fresh enabled).applyAll calls).check type object caller op =
          ((fresh other).applyAll others).check type object caller op) ∧
    (∀ (enabled : Bool) (calls others : List Put), calls.Perm others →
      (calls.Pairwise fun one two => one.key ≠ two.key) → ∀ type object caller op,
        ((fresh enabled).applyAll calls).check type object caller op =
          ((fresh enabled).applyAll others).check type object caller op) ∧
    (∀ left right, lengthComp left right = .lt ↔ OwnerKey.mk left < OwnerKey.mk right) ∧
    (∀ left right, lengthComp left right = .eq ↔ left = right) ∧
    (∀ left right, lengthComp right left = (lengthComp left right).swap) ∧
    ∀ left middle right, lengthComp left middle = .lt → lengthComp middle right = .lt →
      lengthComp left right = .lt := by
  refine ⟨check_eq, ?_, ?_, ?_, ?_, lengthComp_swap, ?_⟩
  · intro enabled other calls others same
    exact check_eq_of_lastPut same
  · intro enabled calls others reordered distinct
    exact check_eq_of_lastPut (lastPut_perm reordered distinct)
  · intro left right
    exact (lengthComp_spec left right).1
  · intro left right
    exact (lengthComp_spec left right).2
  · intro left middle right first second
    rw [(lengthComp_spec _ _).1] at first second ⊢
    exact lt_trans first second

/-- A put that lets these callers read something. -/
def readPut (caller val : MojString) : Put where
  kinds := MojDbKindEngine.KindMap.empty
  req := ⟨[], true⟩
  perm := ⟨chars "t".toList, chars "o".toList, caller, [(chars "read".toList, val)]⟩
  stored := .ok ()

def samplePuts : List Put :=
  [readPut (chars "com.a.*".toList) denyKey, readPut (chars "com.*".toList) allowKey]

theorem permission_resolution_sample :
    ((fresh true).applyAll samplePuts).check (chars "t".toList) (chars "o".toList)
        (chars "com.a.b".toList) (chars "read".toList) = .deny ∧
      ((fresh true).applyAll samplePuts.reverse).check (chars "t".toList) (chars "o".toList)
        (chars "com.a.b".toList) (chars "read".toList) = .deny ∧
      ((fresh true).applyAll samplePuts).check (chars "t".toList) (chars "o".toList)
        (chars "org".toList) (chars "read".toList) = .undefined ∧
      lengthComp (chars "abc".toList) (chars "c".toList) = .lt := by
  rcases permission_resolution with ⟨resolved, _, reordered, _, _, _, transitive⟩
  have wild : ∃ opMap, lastPut true samplePuts (chars "t".toList) (chars "o".toList)
      (chars "com.a.".toList ++ [star]) = some opMap ∧
        opMap.find (chars "read".toList) = some .deny := by
    have found : (lastPut true samplePuts (chars "t".toList) (chars "o".toList)
        (chars "com.a.".toList ++ [star])).bind (fun opMap => opMap.find (chars "read".toList)) =
          some .deny := by decide +kernel
    exact Option.bind_eq_some_iff.mp found
  rcases wild with ⟨opMap, last, denies⟩
  have longest : LongestWildcard (lastPut true samplePuts (chars "t".toList) (chars "o".toList))
      (chars "com.a.b".toList) (chars "com.a.".toList) := by
    refine ⟨?_, by decide +kernel, ?_⟩
    · rw [last]
      exact Option.some_ne_none _
    · intro other put starts
      have all : ∀ other ∈ (chars "com.a.b".toList).inits,
          (lastPut true samplePuts (chars "t".toList) (chars "o".toList) (other ++ [star])).isSome →
            other.length ≤ (chars "com.a.".toList).length := by decide +kernel
      exact all other ((List.mem_inits _ _).mpr starts) (Option.isSome_iff_ne_none.mpr put)
  have first : ((fresh true).applyAll samplePuts).check (chars "t".toList) (chars "o".toList)
      (chars "com.a.b".toList) (chars "read".toList) = .deny := by
    rw [(resolved true samplePuts _ _ _ _).2.1 _ opMap (by decide +kernel) longest last, denies]
    rfl
  refine ⟨first, ?_, ?_, ?_⟩
  · rw [← reordered true samplePuts samplePuts.reverse (List.reverse_perm _).symm (by decide +kernel)]
    exact first
  · apply (resolved true samplePuts _ _ _ _).2.2 (by decide +kernel)
    intro stem starts
    have all : ∀ stem ∈ (chars "org".toList).inits,
        lastPut true samplePuts (chars "t".toList) (chars "o".toList) (stem ++ [star]) = none := by
      decide +kernel
    exact all stem ((List.mem_inits _ _).mpr starts)
  · exact transitive _ (chars "ab".toList) _ (by decide +kernel) (by decide +kernel)

end Db8.Db.MojDbPermissionEngine
