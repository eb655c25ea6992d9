import Db8.Db.Watches

/-!
# The keys of a watch

The least key of a transaction stands for all of them, the list of a transaction keeps one key for
each watcher, and a pending watcher keeps the one key that decides for every limit.
-/

set_option autoImplicit false

namespace Db8.Db.Watches

open Db8.Bytes
open Db8.Core

/-! ### The least key -/

def leastOf (keys : List StoredKey) : Option StoredKey :=
  keys.foldl (fun least key => some (match least with
    | none => key
    | some other => if key < other then key else other)) none

theorem leastOf_append (keys : List StoredKey) (key : StoredKey) :
    leastOf (keys ++ [key]) = some (match leastOf keys with
      | none => key
      | some other => if key < other then key else other) := by
  rw [leastOf, List.foldl_append]
  rfl

theorem leastOf_isLeast (keys : List StoredKey) :
    match leastOf keys with
    | none => keys = []
    | some least => least ∈ keys ∧ ∀ key ∈ keys, least ≤ key := by
  induction keys using List.reverseRecOn with
  | nil => rfl
  | append_singleton keys key ih =>
    rw [leastOf_append]
    cases known : leastOf keys with
    | none =>
      rw [known] at ih
      subst ih
      simp
    | some other =>
      rw [known] at ih
      rcases ih with ⟨member, least⟩
      dsimp only
      by_cases below : key < other
      · rw [if_pos below]
        refine ⟨by simp, ?_⟩
        intro each inside
        rcases List.mem_append.mp inside with before | last
        · exact le_trans (le_of_lt below) (least each before)
        · rw [List.mem_singleton.mp last]
      · rw [if_neg below]
        refine ⟨List.mem_append_left _ member, ?_⟩
        intro each inside
        rcases List.mem_append.mp inside with before | last
        · exact least each before
        · rw [List.mem_singleton.mp last]
          exact not_lt.mp below

variable {keys : List StoredKey}

theorem leastOf_eq_none : leastOf keys = none ↔ keys = [] := by
  constructor
  · intro known
    have spec := leastOf_isLeast keys
    rw [known] at spec
    exact spec
  · intro empty
    rw [empty]
    rfl

theorem within_iff {desc : Bool} {limit key : MojDbKey} :
    within desc limit key = true ↔ limit = [] ∨ if desc then limit ≤ key else key ≤ limit := by
  cases desc <;> simp [within]

theorem due_of_least {desc : Bool} {limit : MojDbKey} {least : StoredKey}
    (known : leastOf keys = some least) :
    (if desc then keys.all fun key => within true limit key
      else keys.any fun key => within false limit key) = within desc limit least := by
  have spec := leastOf_isLeast keys
  rw [known] at spec
  rcases spec with ⟨member, lowest⟩
  rw [Bool.eq_iff_iff]
  cases desc with
  | true =>
    simp only [if_true, List.all_eq_true, within_iff]
    constructor
    · exact fun all => all least member
    · rintro (unlimited | above) key inside
      · exact Or.inl unlimited
      · exact Or.inr (le_trans above (lowest key inside))
  | false =>
    simp only [Bool.false_eq_true, if_false, List.any_eq_true, within_iff]
    constructor
    · rintro ⟨key, inside, unlimited | below⟩
      · exact Or.inl unlimited
      · exact Or.inr (le_trans (lowest key inside) below)
    · exact fun holds => ⟨least, member, holds⟩

/-! ### The keys on the way to one watcher -/

def told (handle : Nat) (infos : List WatcherInfo) : List StoredKey :=
  (infos.filter fun info => decide (info.1 = handle)).map Prod.snd

theorem told_append (handle : Nat) (infos more : List WatcherInfo) :
    told handle (infos ++ more) = told handle infos ++ told handle more := by
  rw [told, List.filter_append, List.map_append]
  rfl

theorem told_cons (handle : Nat) (info : WatcherInfo) (infos : List WatcherInfo) :
    told handle (info :: infos) =
      if info.1 = handle then info.2 :: told handle infos else told handle infos := by
  rw [told, List.filter_cons]
  by_cases same : info.1 = handle <;> simp [same, told]

theorem told_addWatcher_other {handle other : Nat} (apart : handle ≠ other) (key : StoredKey)
    (infos : List WatcherInfo) : told other (addWatcher handle key infos) = told other infos := by
  induction infos with
  | nil => simp [addWatcher, told, apart]
  | cons info infos ih =>
    rw [addWatcher]
    by_cases same : info.1 = handle
    · rw [if_pos same, told_cons, told_cons, if_neg apart, if_neg (same ▸ apart)]
    · rw [if_neg same, told_cons, told_cons, ih]

theorem told_addWatcher {handle : Nat} {infos : List WatcherInfo}
    (collected : told handle infos = (leastOf keys).toList) (key : StoredKey) :
    told handle (addWatcher handle key infos) = (leastOf (keys ++ [key])).toList := by
  rw [leastOf_append]
  induction infos with
  | nil =>
    have first : leastOf keys = none := by
      cases known : leastOf keys with
      | none => rfl
      | some least =>
        rw [known] at collected
        cases collected
    rw [first]
    simp [addWatcher, told]
  | cons info infos ih =>
    rw [told_cons] at collected
    rw [addWatcher]
    by_cases same : info.1 = handle
    · rw [if_pos same] at collected
      rw [if_pos same, told_cons, if_pos rfl]
      cases known : leastOf keys with
      | none =>
        rw [known] at collected
        cases collected
      | some least =>
        rw [known] at collected
        rcases List.cons.inj collected with ⟨here, rest⟩
        rw [rest, here]
        rfl
    · rw [if_neg same] at collected
      rw [if_neg same, told_cons, if_neg same]
      exact ih collected

section Fold

variable {sys : System} {handle : Nat} (key : StoredKey)

theorem told_fold_absent {vec : List Nat} (absent : handle ∉ vec) (infos : List WatcherInfo) :
    told handle (vec.foldl (fun infos other =>
      if inRanges (sys.watchers other).ranges key then addWatcher other key infos else infos) infos) =
        told handle infos := by
  induction vec generalizing infos with
  | nil => rfl
  | cons other vec ih =>
    rcases List.ne_and_not_mem_of_not_mem_cons absent with ⟨apart, later⟩
    rw [List.foldl_cons, ih later]
    by_cases covers : inRanges (sys.watchers other).ranges key = true
    · rw [if_pos covers, told_addWatcher_other (Ne.symm apart)]
    · rw [if_neg covers]

theorem told_fold {vec : List Nat} (once : vec.Nodup) (member : handle ∈ vec)
    {infos : List WatcherInfo} {keys : List StoredKey}
    (collected : told handle infos = (leastOf keys).toList) :
    told handle (vec.foldl (fun infos other =>
      if inRanges (sys.watchers other).ranges key then addWatcher other key infos else infos) infos) =
        (leastOf (keys ++ [key].filter (inRanges (sys.watchers handle).ranges))).toList := by
  induction vec generalizing infos with
  | nil => cases member
  | cons other vec ih =>
    rcases List.nodup_cons.mp once with ⟨apart, others⟩
    rw [List.foldl_cons]
    rcases List.mem_cons.mp member with rfl | later
    · rw [told_fold_absent key apart]
      by_cases covers : inRanges (sys.watchers handle).ranges key = true
      · rw [if_pos covers, told_addWatcher collected, List.filter_cons_of_pos covers]
        rfl
      · rw [if_neg covers, collected, List.filter_cons_of_neg covers, List.filter_nil,
          List.append_nil]
    · have different : other ≠ handle := fun same => apart (same ▸ later)
      apply ih others later
      by_cases covers : inRanges (sys.watchers other).ranges key = true
      · rw [if_pos covers, told_addWatcher_other different, collected]
      · rw [if_neg covers, collected]

end Fold

theorem told_notify {sys : System} {index handle : Nat} (newKeys : List StoredKey)
    (once : (sys.indexes index).watcherVec.Nodup) (member : handle ∈ (sys.indexes index).watcherVec)
    {infos : List WatcherInfo} (collected : told handle infos = (leastOf keys).toList) :
    told handle (newKeys.foldl (notifyKey sys index) infos) =
      (leastOf (keys ++ newKeys.filter (inRanges (sys.watchers handle).ranges))).toList := by
  induction newKeys generalizing infos keys with
  | nil =>
    rw [List.filter_nil, List.append_nil]
    exact collected
  | cons key newKeys ih =>
    have first : told handle (notifyKey sys index infos key) =
        (leastOf (keys ++ [key].filter (inRanges (sys.watchers handle).ranges))).toList :=
      told_fold key once member collected
    rw [List.foldl_cons, ih first, List.append_assoc, ← List.filter_append]
    rfl

theorem told_notify_absent {sys : System} {index handle : Nat} (newKeys : List StoredKey)
    (absent : handle ∉ (sys.indexes index).watcherVec) (infos : List WatcherInfo) :
    told handle (newKeys.foldl (notifyKey sys index) infos) = told handle infos := by
  induction newKeys generalizing infos with
  | nil => rfl
  | cons key newKeys ih => rw [List.foldl_cons, ih, notifyKey, told_fold_absent key absent]

/-! ### What a watcher keeps -/

/-- The watcher of a query that is still being read keeps the key that decides for every limit. -/
def Kept (watch : Watch) (fireKey : MojDbKey) : Prop :=
  if fireKey = [] then watch.arrived = []
  else ∀ limit, within watch.desc limit fireKey = watch.dueAt limit

@[simp] theorem arrive_desc (watch : Watch) (keys : List StoredKey) :
    (watch.arrive keys).desc = watch.desc := rfl

theorem dueAt_arrive (watch : Watch) {least : StoredKey} (known : leastOf keys = some least)
    (limit : MojDbKey) :
    (watch.arrive keys).dueAt limit =
      (watch.dueAt limit || within watch.desc limit least) := by
  rw [← due_of_least known]
  simp [Watch.dueAt, Watch.arrive]

theorem kept_arrive {watch : Watch} {fireKey : MojDbKey} (kept : Kept watch fireKey)
    {least : StoredKey} (known : leastOf keys = some least) :
    Kept (watch.arrive keys)
      (if saves watch.desc fireKey least then least.val else fireKey) := by
  unfold Kept at kept ⊢
  simp only [arrive_desc]
  by_cases first : fireKey = []
  · rw [if_pos first] at kept
    have saved : saves watch.desc fireKey least = true := by
      have above : ([] : MojDbKey) < least.val := by
        rcases List.exists_cons_of_ne_nil least.property with ⟨head, tail, whole⟩
        rw [whole]
        exact List.nil_lt_cons head tail
      rw [first]
      cases watch.desc <;> simp [saves, above]
    rw [if_pos saved, if_neg least.property]
    intro limit
    rw [dueAt_arrive watch known]
    simp [Watch.dueAt, kept]
  · rw [if_neg first] at kept
    have always : (if saves watch.desc fireKey least then least.val else fireKey) ≠ [] := by
      split_ifs
      · exact least.property
      · exact first
    rw [if_neg always]
    intro limit
    rw [dueAt_arrive watch known, ← kept, Bool.eq_iff_iff, Bool.or_eq_true, within_iff, within_iff,
      within_iff]
    by_cases saved : saves watch.desc fireKey least = true
    · rw [if_pos saved]
      cases down : watch.desc with
      | true =>
        have higher : fireKey < least.val := by simpa [saves, down] using saved
        simp only [if_true]
        constructor
        · exact fun holds => Or.inr holds
        · rintro ((none_ | old) | holds)
          · exact Or.inl none_
          · exact Or.inr (le_trans old (le_of_lt higher))
          · exact holds
      | false =>
        have lower : least.val < fireKey := by simpa [saves, down, first] using saved
        simp only [Bool.false_eq_true, if_false]
        constructor
        · exact fun holds => Or.inr holds
        · rintro ((none_ | old) | holds)
          · exact Or.inl none_
          · exact Or.inr (le_trans (le_of_lt lower) old)
          · exact holds
    · rw [if_neg saved]
      cases down : watch.desc with
      | true =>
        have lower : least.val ≤ fireKey := by simpa [saves, down] using saved
        simp only [if_true]
        constructor
        · exact fun holds => Or.inl holds
        · rintro (holds | none_ | new)
          · exact holds
          · exact Or.inl none_
          · exact Or.inr (le_trans new lower)
      | false =>
        have higher : fireKey ≤ least.val := by simpa [saves, down, first] using saved
        simp only [Bool.false_eq_true, if_false]
        constructor
        · exact fun holds => Or.inl holds
        · rintro (holds | none_ | new)
          · exact holds
          · exact Or.inl none_
          · exact Or.inr (le_trans higher new)

end Db8.Db.Watches
