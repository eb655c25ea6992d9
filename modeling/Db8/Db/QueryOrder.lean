import Db8.Db.QueryObject

/-!
# The order of where clauses

Which lists of clauses `addClauses` accepts, and what it makes of them. Two clauses on one property
have to be a lower and an upper bound. Of their collations the first one is free to be missing, but
not the second: so the order of the clauses matters where only one of them names a collation, and
only there.
-/

set_option autoImplicit false

namespace Db8.Db.MojDbQuery

open Db8.Bytes
open Db8.Core
open WhereClause

def IsUpper (op : CompOp) : Prop := op = .lessThan ∨ op = .lessThanEq

instance (op : CompOp) : Decidable (IsUpper op) := inferInstanceAs (Decidable (_ ∨ _))

/-- The operator gives a lower bound that an upper one can be added to. -/
def IsGreater (op : CompOp) : Prop := op = .greaterThan ∨ op = .greaterThanEq

instance (op : CompOp) : Decidable (IsGreater op) := inferInstanceAs (Decidable (_ ∨ _))

def OpsCombine (one two : CompOp) : Prop :=
  IsUpper one ∧ IsGreater two ∨ IsGreater one ∧ IsUpper two

/-- The second clause can be added when the first one has been. -/
def InOrder (one two : Clause) : Prop :=
  one.prop = two.prop →
    OpsCombine one.op two.op ∧ (one.coll = .invalid ∨ two.coll = one.coll)

def Combine (one two : Clause) : Prop :=
  one.prop = two.prop → OpsCombine one.op two.op ∧
    (one.coll = two.coll ∨ one.coll = .invalid ∨ two.coll = .invalid)

def SameColl (one two : Clause) : Prop := one.prop = two.prop → one.coll = two.coll

theorem opsCombine_comm (one two : CompOp) : OpsCombine one two ↔ OpsCombine two one := by
  unfold OpsCombine
  constructor
  · rintro (⟨upper, greater⟩ | ⟨greater, upper⟩)
    · exact Or.inr ⟨greater, upper⟩
    · exact Or.inl ⟨upper, greater⟩
  · rintro (⟨upper, greater⟩ | ⟨greater, upper⟩)
    · exact Or.inr ⟨greater, upper⟩
    · exact Or.inl ⟨upper, greater⟩

theorem not_upper_greater {op : CompOp} (upper : IsUpper op) : ¬ IsGreater op := by
  rcases upper with rfl | rfl <;> decide

theorem combine_of_inOrder {one two : Clause} (ordered : InOrder one two) : Combine one two := by
  intro same
  rcases ordered same with ⟨ops, missing | equal⟩
  · exact ⟨ops, Or.inr (Or.inl missing)⟩
  · exact ⟨ops, Or.inl equal.symm⟩

theorem combine_symm {one two : Clause} (combine : Combine one two) : Combine two one := by
  intro same
  rcases combine same.symm with ⟨ops, equal | missing | missing⟩
  · exact ⟨(opsCombine_comm _ _).mp ops, Or.inl equal.symm⟩
  · exact ⟨(opsCombine_comm _ _).mp ops, Or.inr (Or.inr missing)⟩
  · exact ⟨(opsCombine_comm _ _).mp ops, Or.inr (Or.inl missing)⟩

section Entries

def enter (entry : Option WhereClause) (clause : Clause) : WhereClause :=
  let entry := entry.getD fresh
  if IsUpper clause.op then
    { entry with upperOp := clause.op, upperVal := some clause.val, collation := clause.coll }
  else { entry with lowerOp := clause.op, lowerVal := some clause.val, collation := clause.coll }

/-- What `addClause` does to the entry for a property. -/
def next (entry : Option WhereClause) (clause : Clause) : Except MojErr WhereClause :=
  match entry with
  | none => createClause clause.op clause.val clause.coll
  | some before => updateClause before clause.op clause.val clause.coll

theorem next_some (before : WhereClause) (clause : Clause) :
    next (some before) clause = updateClause before clause.op clause.val clause.coll := rfl

theorem setCollation_iff (clause updated : WhereClause) (coll : MojDbCollationStrength) :
    clause.setCollation coll = .ok updated ↔
      (clause.collation = .invalid ∨ coll = clause.collation) ∧
        updated = { clause with collation := coll } := by
  unfold setCollation
  by_cases missing : clause.collation = .invalid
  · simp [missing, eq_comm]
  · by_cases equal : coll = clause.collation
    · simp [equal, eq_comm]
    · simp [missing, equal]

theorem setLower_iff (clause updated : WhereClause) (op : CompOp) (val : MojObject)
    (coll : MojDbCollationStrength) :
    clause.setLower op val coll = .ok updated ↔ clause.lowerOp = .none ∧
      (clause.collation = .invalid ∨ coll = clause.collation) ∧
        updated = { clause with lowerOp := op, lowerVal := some val, collation := coll } := by
  unfold setLower
  by_cases free : clause.lowerOp = .none
  · rw [if_neg (not_not.mpr free)]
    constructor
    · intro set
      rcases except_bind_ok set with ⟨middle, collated, done⟩
      rcases (setCollation_iff _ _ _).mp collated with ⟨fits, rfl⟩
      exact ⟨free, fits, (Except.ok.inj done).symm⟩
    · rintro ⟨_, fits, rfl⟩
      rw [(setCollation_iff clause _ coll).mpr ⟨fits, rfl⟩]
      rfl
  · rw [if_pos free]
    simp [free]

theorem setUpper_iff (clause updated : WhereClause) (op : CompOp) (val : MojObject)
    (coll : MojDbCollationStrength) :
    clause.setUpper op val coll = .ok updated ↔ clause.upperOp = .none ∧
      (clause.collation = .invalid ∨ coll = clause.collation) ∧
        updated = { clause with upperOp := op, upperVal := some val, collation := coll } := by
  unfold setUpper
  by_cases free : clause.upperOp = .none
  · rw [if_neg (not_not.mpr free)]
    constructor
    · intro set
      rcases except_bind_ok set with ⟨middle, collated, done⟩
      rcases (setCollation_iff _ _ _).mp collated with ⟨fits, rfl⟩
      exact ⟨free, fits, (Except.ok.inj done).symm⟩
    · rintro ⟨_, fits, rfl⟩
      rw [(setCollation_iff clause _ coll).mpr ⟨fits, rfl⟩]
      rfl
  · rw [if_pos free]
    simp [free]

theorem updateClause_upper (before entry : WhereClause) {op : CompOp} (upper : IsUpper op)
    (val : MojObject) (coll : MojDbCollationStrength) :
    updateClause before op val coll = .ok entry ↔
      (before.lowerOp = .none ∨ IsGreater before.lowerOp) ∧
        before.setUpper op val coll = .ok entry := by
  have chosen : updateClause before op val coll =
      if before.lowerOp ≠ .none ∧ before.lowerOp ≠ .greaterThan ∧
        before.lowerOp ≠ .greaterThanEq then .error .dbInvalidQueryOpCombo
      else before.setUpper op val coll := by
    rcases upper with rfl | rfl <;> rfl
  rw [chosen]
  unfold IsGreater
  split_ifs with clash
  · simp [clash.1, clash.2.1, clash.2.2]
  · have fits : before.lowerOp = .none ∨ before.lowerOp = .greaterThan ∨
        before.lowerOp = .greaterThanEq := by
      rwa [not_and_or, not_and_or, not_not, not_not, not_not] at clash
    simp [fits]

theorem updateClause_greater (before entry : WhereClause) {op : CompOp} (greater : IsGreater op)
    (val : MojObject) (coll : MojDbCollationStrength) :
    updateClause before op val coll = .ok entry ↔
      (before.upperOp = .none ∨ IsUpper before.upperOp) ∧
        before.setLower op val coll = .ok entry := by
  have chosen : updateClause before op val coll =
      if before.upperOp ≠ .none ∧ before.upperOp ≠ .lessThan ∧
        before.upperOp ≠ .lessThanEq then .error .dbInvalidQueryOpCombo
      else before.setLower op val coll := by
    rcases greater with rfl | rfl <;> rfl
  rw [chosen]
  unfold IsUpper
  split_ifs with clash
  · simp [clash.1, clash.2.1, clash.2.2]
  · have fits : before.upperOp = .none ∨ before.upperOp = .lessThan ∨
        before.upperOp = .lessThanEq := by
      rwa [not_and_or, not_and_or, not_not, not_not, not_not] at clash
    simp [fits]

theorem updateClause_other (before : WhereClause) {op : CompOp} (notUpper : ¬ IsUpper op)
    (notGreater : ¬ IsGreater op) (val : MojObject) (coll : MojDbCollationStrength) :
    updateClause before op val coll = .error .dbInvalidQueryOpCombo := by
  cases op with
  | lessThan => exact absurd (Or.inl rfl) notUpper
  | lessThanEq => exact absurd (Or.inr rfl) notUpper
  | greaterThan => exact absurd (Or.inl rfl) notGreater
  | greaterThanEq => exact absurd (Or.inr rfl) notGreater
  | none => rfl
  | eq => rfl
  | notEq => rfl
  | prefixOf => rfl
  | search => rfl
  | subString => rfl

theorem createClause_lower {op : CompOp} (notUpper : ¬ IsUpper op) (val : MojObject)
    (coll : MojDbCollationStrength) : createClause op val coll = fresh.setLower op val coll := by
  cases op with
  | lessThan => exact absurd (Or.inl rfl) notUpper
  | lessThanEq => exact absurd (Or.inr rfl) notUpper
  | _ => rfl

theorem next_none (clause : Clause) : next none clause = .ok (enter none clause) := by
  unfold next enter
  by_cases upper : IsUpper clause.op
  · have created : createClause clause.op clause.val clause.coll =
        fresh.setUpper clause.op clause.val clause.coll := by
      unfold createClause
      rcases upper with isOp | isOp <;> rw [isOp]
    rw [if_pos upper]
    exact created.trans ((setUpper_iff _ _ _ _ _).mpr ⟨rfl, Or.inl rfl, rfl⟩)
  · rw [if_neg upper]
    exact (createClause_lower upper _ _).trans
      ((setLower_iff _ _ _ _ _).mpr ⟨rfl, Or.inl rfl, rfl⟩)

theorem enter_upper (entry : Option WhereClause) {clause : Clause} (upper : IsUpper clause.op) :
    enter entry clause = { entry.getD fresh with
      upperOp := clause.op, upperVal := some clause.val, collation := clause.coll } :=
  if_pos upper

theorem enter_lower (entry : Option WhereClause) {clause : Clause} (notUpper : ¬ IsUpper clause.op) :
    enter entry clause = { entry.getD fresh with
      lowerOp := clause.op, lowerVal := some clause.val, collation := clause.coll } :=
  if_neg notUpper

theorem next_one {one two : Clause} (named : one.op ≠ .none) (same : one.prop = two.prop)
    (entry : WhereClause) :
    next (some (enter none one)) two = .ok entry ↔
      InOrder one two ∧ entry = enter (some (enter none one)) two := by
  have upperNamed : ∀ op : CompOp, IsUpper op → op ≠ .none := by
    rintro op (rfl | rfl) <;> decide
  have greaterNamed : ∀ op : CompOp, IsGreater op → op ≠ .none := by
    rintro op (rfl | rfl) <;> decide
  have ordered : InOrder one two ↔
      OpsCombine one.op two.op ∧ (one.coll = .invalid ∨ two.coll = one.coll) :=
    ⟨fun inOrder => inOrder same, fun both _ => both⟩
  rw [ordered, next_some]
  unfold OpsCombine
  by_cases twoUpper : IsUpper two.op
  · rw [updateClause_upper _ _ twoUpper, setUpper_iff, enter_upper _ twoUpper]
    have notGreater := not_upper_greater twoUpper
    by_cases oneUpper : IsUpper one.op
    · simp [enter_upper none oneUpper, upperNamed _ oneUpper, notGreater,
        not_upper_greater oneUpper]
    · simp [enter_lower none oneUpper, named, twoUpper, notGreater, fresh]
      tauto
  · by_cases twoGreater : IsGreater two.op
    · rw [updateClause_greater _ _ twoGreater, setLower_iff, enter_lower _ twoUpper]
      by_cases oneUpper : IsUpper one.op
      · simp [enter_upper none oneUpper, oneUpper, twoGreater, twoUpper, fresh]
      · simp [enter_lower none oneUpper, named, oneUpper, twoUpper]
    · rw [updateClause_other _ twoUpper twoGreater]
      simp [twoUpper, twoGreater]

theorem next_two {one two : Clause} (ops : OpsCombine one.op two.op) (clause : Clause)
    (entry : WhereClause) :
    next (some (enter (some (enter none one)) two)) clause ≠ .ok entry := by
  have upperNamed : ∀ op : CompOp, IsUpper op → op ≠ .none := by
    rintro op (rfl | rfl) <;> decide
  have greaterNamed : ∀ op : CompOp, IsGreater op → op ≠ .none := by
    rintro op (rfl | rfl) <;> decide
  have full : (enter (some (enter none one)) two).lowerOp ≠ .none ∧
      (enter (some (enter none one)) two).upperOp ≠ .none := by
    rcases ops with ⟨oneUpper, twoGreater⟩ | ⟨oneGreater, twoUpper⟩
    · have notUpper : ¬ IsUpper two.op := fun upper => not_upper_greater upper twoGreater
      rw [enter_lower _ notUpper, enter_upper _ oneUpper]
      exact ⟨greaterNamed _ twoGreater, upperNamed _ oneUpper⟩
    · have notUpper : ¬ IsUpper one.op := fun upper => not_upper_greater upper oneGreater
      rw [enter_upper _ twoUpper, enter_lower _ notUpper]
      exact ⟨greaterNamed _ oneGreater, upperNamed _ twoUpper⟩
  rw [next_some]
  by_cases upper : IsUpper clause.op
  · rw [ne_eq, updateClause_upper _ _ upper, setUpper_iff]
    exact fun both => full.2 both.2.1
  · by_cases greater : IsGreater clause.op
    · rw [ne_eq, updateClause_greater _ _ greater, setLower_iff]
      exact fun both => full.1 both.2.1
    · rw [updateClause_other _ upper greater]
      intro done
      cases done

end Entries

section Lists

/-- The entry that the clauses on one property make, where they are accepted. -/
def entered (mine : List Clause) : Option WhereClause :=
  mine.foldl (fun entry clause => some (enter entry clause)) none

def merged (clauses : List Clause) (prop : MojString) : Option WhereClause :=
  entered (clauses.filter fun clause => decide (clause.prop = prop))

def addAll (map : WhereMap) (clauses : List Clause) : Except MojErr WhereMap :=
  clauses.foldlM (fun map clause => map.addClause clause.prop clause.op clause.val clause.coll) map

theorem next_entered {mine : List Clause} (named : ∀ one ∈ mine, one.op ≠ .none) {clause : Clause}
    (same : ∀ one ∈ mine, one.prop = clause.prop) (ordered : mine.Pairwise InOrder)
    (entry : WhereClause) :
    next (entered mine) clause = .ok entry ↔
      (∀ one ∈ mine, InOrder one clause) ∧ entry = enter (entered mine) clause := by
  match mine, named, same, ordered with
  | [], _, _, _ =>
    rw [entered, List.foldl_nil, next_none, Except.ok.injEq]
    constructor
    · rintro rfl
      exact ⟨fun one member => absurd member List.not_mem_nil, rfl⟩
    · intro both
      exact both.2.symm
  | [one], named, same, _ =>
    rw [List.forall_mem_singleton]
    exact next_one (named one List.mem_cons_self) (same one List.mem_cons_self) entry
  | one :: two :: rest, _, same, ordered =>
    have together : one.prop = two.prop :=
      (same one List.mem_cons_self).trans (same two (by simp)).symm
    have ops : ∀ {left right : Clause}, InOrder left right → left ∈ one :: two :: rest →
        right ∈ one :: two :: rest → OpsCombine left.op right.op := by
      intro left right inOrder leftIn rightIn
      exact (inOrder ((same left leftIn).trans (same right rightIn).symm)).1
    have first := (List.pairwise_cons.mp ordered).1
    have second := (List.pairwise_cons.mp (List.pairwise_cons.mp ordered).2).1
    have pair := ops (first two List.mem_cons_self) (by simp) (by simp)
    -- no third operator combines with a lower and an upper bound
    have third : ∀ op : CompOp, OpsCombine one.op op → OpsCombine two.op op → False := by
      intro op withOne withTwo
      rcases pair with ⟨oneUpper, twoGreater⟩ | ⟨oneGreater, twoUpper⟩
      · rcases withOne with ⟨_, greater⟩ | ⟨oneGreater, _⟩
        · rcases withTwo with ⟨twoUpper, _⟩ | ⟨_, upper⟩
          · exact not_upper_greater twoUpper twoGreater
          · exact not_upper_greater upper greater
        · exact not_upper_greater oneUpper oneGreater
      · rcases withTwo with ⟨_, greater⟩ | ⟨twoGreater, _⟩
        · rcases withOne with ⟨oneUpper, _⟩ | ⟨_, upper⟩
          · exact not_upper_greater oneUpper oneGreater
          · exact not_upper_greater upper greater
        · exact not_upper_greater twoUpper twoGreater
    have alone : rest = [] := by
      cases rest with
      | nil => rfl
      | cons other rest =>
        exact (third other.op (ops (first other (by simp)) (by simp) (by simp))
          (ops (second other List.mem_cons_self) (by simp) (by simp))).elim
    subst alone
    constructor
    · intro done
      exact absurd done (next_two pair clause entry)
    · rintro ⟨all, _⟩
      have withOne := (all one (by simp) (same one (by simp))).1
      have withTwo := (all two (by simp) (same two (by simp))).1
      exact (third clause.op withOne withTwo).elim

def Built (map : WhereMap) (clauses : List Clause) : Prop :=
  ∀ prop, map.find prop = merged clauses prop

theorem built_empty : Built WhereMap.empty [] := fun _ => rfl

theorem find_replace {map : WhereMap} {propName : MojString} {before : WhereClause}
    (found : map.find propName = some before) (clause : WhereClause) (accepted : clause.Accepted)
    (other : MojString) :
    (map.replace propName clause accepted).find other =
      if propName = other then some clause else map.find other := by
  have there := WhereMap.find_mem found
  split_ifs with same
  · subst same
    apply WhereMap.find_of_mem
    apply List.mem_map.mpr
    exact ⟨_, there, if_pos rfl⟩
  · have kept : ∀ entries : List (MojString × WhereClause),
        WhereMap.lookup (entries.map fun entry =>
          if entry.1 = propName then (propName, clause) else entry) other =
            WhereMap.lookup entries other := by
      intro entries
      unfold WhereMap.lookup
      induction entries with
      | nil => rfl
      | cons entry entries ih =>
        rw [List.map_cons, List.find?_cons, List.find?_cons]
        by_cases named : entry.1 = propName
        · rw [if_pos named, named]
          simp only [same, decide_false]
          exact ih
        · rw [if_neg named]
          by_cases here : entry.1 = other
          · simp [here]
          · simp only [here, decide_false]
            exact ih
    exact kept map.entries

theorem addClause_ok {map updated : WhereMap} {clause : Clause}
    (added : map.addClause clause.prop clause.op clause.val clause.coll = .ok updated) :
    admits clause.op clause.val ∧ ∃ entry, next (map.find clause.prop) clause = .ok entry ∧
      ∀ prop, updated.find prop = if clause.prop = prop then some entry else map.find prop := by
  unfold WhereMap.addClause at added
  split_ifs at added with named admitted
  refine ⟨admitted, ?_⟩
  split at added
  next missing =>
    split at added
    · cases added
    next entry created =>
      cases added
      refine ⟨entry, ?_, fun prop => WhereMap.find_insertNew _ _ _ _ _ _⟩
      rw [missing]
      exact created
  next before found =>
    split at added
    · cases added
    next entry changed =>
      cases added
      refine ⟨entry, ?_, fun prop => find_replace found _ _ _⟩
      rw [found]
      exact changed

theorem addClause_of_next {map : WhereMap} {clause : Clause} {entry : WhereClause}
    (admitted : admits clause.op clause.val)
    (fits : next (map.find clause.prop) clause = .ok entry) :
    ∃ updated, map.addClause clause.prop clause.op clause.val clause.coll = .ok updated := by
  unfold WhereMap.addClause
  rw [if_neg admitted.1, dif_neg (not_not.mpr admitted)]
  split
  next missing =>
    rw [missing] at fits
    split
    next err failed =>
      have none_next : next none clause = .error err := failed
      rw [fits] at none_next
      cases none_next
    · exact ⟨_, rfl⟩
  next before found =>
    rw [found] at fits
    split
    next err failed =>
      have some_next : next (some before) clause = .error err := failed
      rw [fits] at some_next
      cases some_next
    · exact ⟨_, rfl⟩

def Admitted (clauses : List Clause) : Prop := ∀ clause ∈ clauses, admits clause.op clause.val

theorem addClause_step {map : WhereMap} {done : List Clause} (built : Built map done)
    (admitted : Admitted done) (ordered : done.Pairwise InOrder) (clause : Clause) :
    ((∃ updated, map.addClause clause.prop clause.op clause.val clause.coll = .ok updated) ↔
      admits clause.op clause.val ∧ ∀ one ∈ done, InOrder one clause) ∧
    ∀ updated, map.addClause clause.prop clause.op clause.val clause.coll = .ok updated →
      Built updated (done ++ [clause]) := by
  have mine : ∀ one ∈ done.filter (fun one => decide (one.prop = clause.prop)),
      one.prop = clause.prop := by
    intro one member
    exact of_decide_eq_true (List.mem_filter.mp member).2
  have named : ∀ one ∈ done.filter (fun one => decide (one.prop = clause.prop)),
      one.op ≠ .none := by
    intro one member
    exact (admitted one (List.mem_filter.mp member).1).1
  have fits := next_entered named mine (ordered.filter _)
  have found : map.find clause.prop =
      entered (done.filter fun one => decide (one.prop = clause.prop)) := built clause.prop
  rw [← found] at fits
  have all : (∀ one ∈ done.filter (fun one => decide (one.prop = clause.prop)),
      InOrder one clause) ↔ ∀ one ∈ done, InOrder one clause := by
    constructor
    · intro mineOnly one member same
      exact mineOnly one (List.mem_filter.mpr ⟨member, decide_eq_true same⟩) same
    · intro every one member
      exact every one (List.mem_filter.mp member).1
  constructor
  · constructor
    · rintro ⟨updated, added⟩
      rcases addClause_ok added with ⟨admits, entry, accepted, _⟩
      exact ⟨admits, all.mp ((fits entry).mp accepted).1⟩
    · rintro ⟨admits, every⟩
      exact addClause_of_next admits ((fits _).mpr ⟨all.mpr every, rfl⟩)
  · intro updated added prop
    rcases addClause_ok added with ⟨_, entry, accepted, finds⟩
    rw [finds, built prop]
    unfold merged
    rw [List.filter_append]
    by_cases same : clause.prop = prop
    · have entryEq := ((fits entry).mp accepted).2
      rw [if_pos same, entryEq, found, same, List.filter_singleton]
      simp only [same, decide_true, cond_true]
      unfold entered
      rw [List.foldl_append]
      rfl
    · rw [if_neg same, List.filter_singleton]
      simp only [same, decide_false, cond_false, List.append_nil]

theorem addAll_spec {map : WhereMap} {done : List Clause} (built : Built map done)
    (admitted : Admitted done) (ordered : done.Pairwise InOrder) (clauses : List Clause) :
    ((∃ updated, addAll map clauses = .ok updated) ↔
      Admitted clauses ∧ (done ++ clauses).Pairwise InOrder) ∧
    ∀ updated, addAll map clauses = .ok updated → Built updated (done ++ clauses) := by
  induction clauses generalizing map done with
  | nil =>
    rw [List.append_nil]
    constructor
    · exact ⟨fun _ => ⟨fun _ member => absurd member List.not_mem_nil, ordered⟩,
        fun _ => ⟨map, rfl⟩⟩
    · intro updated same
      cases same
      exact built
  | cons clause rest ih =>
    rcases addClause_step built admitted ordered clause with ⟨accepts, builds⟩
    have regroup : done ++ clause :: rest = done ++ [clause] ++ rest := by simp
    have first : ∀ updated, addAll map (clause :: rest) = .ok updated →
        ∃ middle, map.addClause clause.prop clause.op clause.val clause.coll = .ok middle ∧
          addAll middle rest = .ok updated := by
      intro updated ran
      unfold addAll at ran
      rw [List.foldlM_cons] at ran
      exact except_bind_ok ran
    have extended : admits clause.op clause.val → (∀ one ∈ done, InOrder one clause) →
        Admitted (done ++ [clause]) ∧ (done ++ [clause]).Pairwise InOrder := by
      intro admits every
      constructor
      · intro one member
        rcases List.mem_append.mp member with before | last
        · exact admitted one before
        · rw [List.mem_singleton.mp last]
          exact admits
      · apply List.pairwise_append.mpr
        refine ⟨ordered, List.pairwise_singleton _ _, ?_⟩
        intro one before other last
        rw [List.mem_singleton.mp last]
        exact every one before
    rw [regroup]
    constructor
    · constructor
      · rintro ⟨updated, ran⟩
        rcases first updated ran with ⟨middle, added, later⟩
        rcases accepts.mp ⟨middle, added⟩ with ⟨admits, every⟩
        rcases extended admits every with ⟨admitted', ordered'⟩
        rcases (ih (builds middle added) admitted' ordered').1.mp ⟨updated, later⟩ with
          ⟨others, all⟩
        exact ⟨List.forall_mem_cons.mpr ⟨admits, others⟩, all⟩
      · rintro ⟨others, all⟩
        have admits := (List.forall_mem_cons.mp others).1
        have ordered' := (List.pairwise_append.mp all).1
        have every : ∀ one ∈ done, InOrder one clause := by
          intro one before
          exact (List.pairwise_append.mp ordered').2.2 one before clause List.mem_cons_self
        rcases accepts.mpr ⟨admits, every⟩ with ⟨middle, added⟩
        rcases extended admits every with ⟨admitted', _⟩
        rcases (ih (builds middle added) admitted' ordered').1.mpr
          ⟨(List.forall_mem_cons.mp others).2, all⟩ with ⟨updated, later⟩
        refine ⟨updated, ?_⟩
        unfold addAll
        rw [List.foldlM_cons, added]
        exact later
    · intro updated ran
      rcases first updated ran with ⟨middle, added, later⟩
      rcases accepts.mp ⟨middle, added⟩ with ⟨admits, every⟩
      rcases extended admits every with ⟨admitted', ordered'⟩
      exact (ih (builds middle added) admitted' ordered').2 updated later

end Lists

section Orders

/-- The clauses can be added in both of their orders, with one result. -/
def Either (one two : Clause) : Prop := Combine one two ∧ SameColl one two

theorem either_symm {one two : Clause} (either : Either one two) : Either two one :=
  ⟨combine_symm either.1, fun same => (either.2 same.symm).symm⟩

theorem inOrder_of_either {one two : Clause} (either : Either one two) : InOrder one two :=
  fun same => ⟨(either.1 same).1, Or.inr (either.2 same).symm⟩

/-- A lower and an upper bound of one collation make the same entry in both orders. -/
theorem enter_enter {one two : Clause} (ops : OpsCombine one.op two.op) (coll : one.coll = two.coll)
    (entry : Option WhereClause) :
    enter (some (enter entry one)) two = enter (some (enter entry two)) one := by
  rcases ops with ⟨oneUpper, twoGreater⟩ | ⟨oneGreater, twoUpper⟩
  · have notUpper : ¬ IsUpper two.op := fun upper => not_upper_greater upper twoGreater
    rw [enter_lower _ notUpper, enter_upper _ oneUpper, enter_upper _ oneUpper,
      enter_lower _ notUpper]
    simp only [Option.getD_some, coll]
  · have notUpper : ¬ IsUpper one.op := fun upper => not_upper_greater upper oneGreater
    rw [enter_upper _ twoUpper, enter_lower _ notUpper, enter_lower _ notUpper,
      enter_upper _ twoUpper]
    simp only [Option.getD_some, coll]

theorem merged_perm {left right : List Clause} (reordered : left.Perm right)
    (either : left.Pairwise Either) : merged left = merged right := by
  have : Std.Symm Either := ⟨fun _ _ => either_symm⟩
  funext prop
  apply List.Perm.foldl_eq' (reordered.filter _)
  intro one oneIn two twoIn entry
  by_cases same : one = two
  · rw [same]
  · have oneMine := List.mem_filter.mp oneIn
    have twoMine := List.mem_filter.mp twoIn
    have pair := either.forall oneMine.1 twoMine.1 same
    have together : one.prop = two.prop :=
      (of_decide_eq_true oneMine.2).trans (of_decide_eq_true twoMine.2).symm
    rw [enter_enter (pair.1 together).1 (pair.2 together)]

/-- Where clauses that can be added in some order have their collations all alike, every order is
accepted or none, and all make one map. -/
theorem addAll_perm {left right : List Clause} (reordered : left.Perm right)
    (alike : Admitted left → left.Pairwise Combine → left.Pairwise SameColl) :
    ((∃ map, addAll WhereMap.empty left = .ok map) ↔
      ∃ map, addAll WhereMap.empty right = .ok map) ∧
    ∀ one two, addAll WhereMap.empty left = .ok one → addAll WhereMap.empty right = .ok two →
      one.find = two.find := by
  have leftSpec := addAll_spec built_empty (fun _ member => absurd member List.not_mem_nil)
    List.Pairwise.nil left
  have rightSpec := addAll_spec built_empty (fun _ member => absurd member List.not_mem_nil)
    List.Pairwise.nil right
  rw [List.nil_append] at leftSpec rightSpec
  have admitted : Admitted left ↔ Admitted right :=
    ⟨fun all clause member => all clause (reordered.mem_iff.mpr member),
      fun all clause member => all clause (reordered.mem_iff.mp member)⟩
  have either : Admitted left → left.Pairwise Combine → left.Pairwise Either := by
    intro admits combine
    exact combine.and (alike admits combine)
  have combineLeft : left.Pairwise InOrder → left.Pairwise Combine := fun ordered =>
    ordered.imp combine_of_inOrder
  have combineRight : right.Pairwise InOrder → left.Pairwise Combine := fun ordered =>
    (reordered.pairwise_iff combine_symm).mpr (ordered.imp combine_of_inOrder)
  constructor
  · rw [leftSpec.1, rightSpec.1]
    constructor
    · rintro ⟨admits, ordered⟩
      have both := either admits (combineLeft ordered)
      exact ⟨admitted.mp admits,
        ((reordered.pairwise_iff either_symm).mp both).imp inOrder_of_either⟩
    · rintro ⟨admits, ordered⟩
      have both := either (admitted.mpr admits) (combineRight ordered)
      exact ⟨admitted.mpr admits, both.imp inOrder_of_either⟩
  · intro one two leftRan rightRan
    rcases leftSpec.1.mp ⟨one, leftRan⟩ with ⟨admits, ordered⟩
    have both := either admits (combineLeft ordered)
    funext prop
    rw [leftSpec.2 one leftRan prop, rightSpec.2 two rightRan prop, merged_perm reordered both]

end Orders

section Objects

def readOr (obj : MojObject) : Clause :=
  match readClause obj with
  | .ok clause => clause
  | .error _ => ⟨[], .none, .null, .invalid⟩

def Readable (obj : MojObject) : Prop := readClause obj = .ok (readOr obj)

theorem readable_of_ok {obj : MojObject} {clause : Clause} (read : readClause obj = .ok clause) :
    readOr obj = clause ∧ Readable obj := by
  have same : readOr obj = clause := by
    unfold readOr
    rw [read]
  refine ⟨same, ?_⟩
  unfold Readable
  rw [same, read]

theorem addClauses_iff (map updated : WhereMap) (objs : List MojObject) :
    addClauses map objs = .ok updated ↔
      (∀ obj ∈ objs, Readable obj) ∧ addAll map (objs.map readOr) = .ok updated := by
  induction objs generalizing map with
  | nil => exact ⟨fun done => ⟨fun _ member => absurd member List.not_mem_nil, done⟩, And.right⟩
  | cons obj rest ih =>
    rw [addClauses, List.forall_mem_cons, List.map_cons, addAll, List.foldlM_cons]
    constructor
    · intro ran
      rcases except_bind_ok ran with ⟨clause, read, ran⟩
      rcases except_bind_ok ran with ⟨middle, added, ran⟩
      rcases readable_of_ok read with ⟨same, readable⟩
      rcases (ih middle).mp ran with ⟨others, later⟩
      rw [same, added]
      exact ⟨⟨readable, others⟩, later⟩
    · rintro ⟨⟨readable, others⟩, ran⟩
      rcases except_bind_ok ran with ⟨middle, added, later⟩
      rw [readable]
      change (map.addClause (readOr obj).prop (readOr obj).op (readOr obj).val (readOr obj).coll >>=
        fun map => addClauses map rest) = _
      rw [added]
      exact (ih middle).mpr ⟨others, later⟩

theorem addClause_congr {one two : WhereMap} (same : one.find = two.find) (clause : Clause) :
    ((∃ updated, one.addClause clause.prop clause.op clause.val clause.coll = .ok updated) ↔
      ∃ updated, two.addClause clause.prop clause.op clause.val clause.coll = .ok updated) ∧
    ∀ left right, one.addClause clause.prop clause.op clause.val clause.coll = .ok left →
      two.addClause clause.prop clause.op clause.val clause.coll = .ok right →
      left.find = right.find := by
  constructor
  · constructor
    · rintro ⟨updated, added⟩
      rcases addClause_ok added with ⟨admitted, entry, fits, _⟩
      rw [same] at fits
      exact addClause_of_next admitted fits
    · rintro ⟨updated, added⟩
      rcases addClause_ok added with ⟨admitted, entry, fits, _⟩
      rw [← same] at fits
      exact addClause_of_next admitted fits
  · intro left right leftAdded rightAdded
    rcases addClause_ok leftAdded with ⟨_, leftEntry, leftFits, leftFinds⟩
    rcases addClause_ok rightAdded with ⟨_, rightEntry, rightFits, rightFinds⟩
    rw [same, rightFits] at leftFits
    cases leftFits
    funext prop
    rw [leftFinds, rightFinds, same]

/-- Equal queries: the maps hold the same clauses, collations included. -/
structure Same (left right : SelectQuery) : Prop where
  selectProps : left.selectProps = right.selectProps
  fromType : left.query.fromType = right.query.fromType
  whereClauses : left.query.whereClauses.find = right.query.whereClauses.find
  filterClauses : left.query.filterClauses.find = right.query.filterClauses.find
  page : left.query.page = right.query.page
  order : left.query.order = right.query.order
  distinct : left.query.distinct = right.query.distinct
  limit : left.query.limit = right.query.limit
  desc : left.query.desc = right.query.desc

inductive Agree : Except MojErr SelectQuery → Except MojErr SelectQuery → Prop where
  | queries {left right : SelectQuery} (same : Same left right) : Agree (.ok left) (.ok right)
  | errors (err other : MojErr) : Agree (.error err) (.error other)

theorem ok_iff_of_agree {left right : Except MojErr SelectQuery} (agree : Agree left right) :
    (∃ query, left = .ok query) ↔ ∃ query, right = .ok query := by
  cases agree with
  | queries same => exact ⟨fun _ => ⟨_, rfl⟩, fun _ => ⟨_, rfl⟩⟩
  | errors err other => simp

theorem includeDeleted_agree {left right : MojDbQuery} {selectProps : SortedSet MojString}
    (same : Same ⟨left, selectProps⟩ ⟨right, selectProps⟩) :
    Agree (left.includeDeleted >>= fun query => .ok ⟨query, selectProps⟩)
      (right.includeDeleted >>= fun query => .ok ⟨query, selectProps⟩) := by
  rcases addClause_congr same.whereClauses
    ⟨delKey, .eq, .array [.bool false, .bool true], .invalid⟩ with ⟨accepts, finds⟩
  unfold MojDbQuery.includeDeleted MojDbQuery.addWhere
  cases leftAdded : left.whereClauses.addClause delKey .eq (.array [.bool false, .bool true])
      .invalid with
  | ok one =>
    rcases accepts.mp ⟨one, leftAdded⟩ with ⟨two, rightAdded⟩
    rw [rightAdded]
    exact .queries ⟨rfl, same.fromType, finds one two leftAdded rightAdded, same.filterClauses,
      same.page, same.order, same.distinct, same.limit, same.desc⟩
  | error err =>
    cases rightAdded : right.whereClauses.addClause delKey .eq
        (.array [.bool false, .bool true]) .invalid with
    | ok two =>
      rcases accepts.mpr ⟨two, rightAdded⟩ with ⟨one, added⟩
      rw [leftAdded] at added
      cases added
    | error other => exact .errors err other

theorem fromObject_agree {left right : MojObject}
    (others : ∀ key, key ≠ whereKey → left.get key = right.get key)
    (accepts : (∃ map, readClauses left whereKey = .ok map) ↔
      ∃ map, readClauses right whereKey = .ok map)
    (finds : ∀ one two, readClauses left whereKey = .ok one → readClauses right whereKey = .ok two →
      one.find = two.find) : Agree (fromObject left) (fromObject right) := by
  have order : readOrder left = readOrder right := by
    unfold readOrder readSelect MojObject.getString
    rw [others distinctKey (by decide), others selectKey (by decide), others orderByKey (by decide)]
  have fromType : left.getRequired fromKey = right.getRequired fromKey := by
    unfold MojObject.getRequired
    rw [others fromKey (by decide)]
  have filter : readClauses left filterKey = readClauses right filterKey := by
    unfold readClauses
    rw [others filterKey (by decide)]
  have limit : readLimit left = readLimit right := by
    unfold readLimit
    rw [others limitKey (by decide)]
  have page : readPage left = readPage right := by
    unfold readPage
    rw [others pageKey (by decide)]
  have desc : getBool left descKey = getBool right descKey := by
    unfold getBool
    rw [others descKey (by decide)]
  have deleted : getBool left includeDeletedKey = getBool right includeDeletedKey := by
    unfold getBool
    rw [others includeDeletedKey (by decide)]
  unfold fromObject
  rw [order, fromType, filter, limit, page, desc, deleted]
  cases readOrder right with
  | error err => exact .errors err err
  | ok head =>
    rcases head with ⟨distinct, order, selectProps⟩
    simp only [bind, Except.bind]
    cases right.getRequired fromKey with
    | error err => exact .errors err err
    | ok fromVal =>
      simp only
      cases leftRead : readClauses left whereKey with
      | error err =>
        cases rightRead : readClauses right whereKey with
        | error other => exact .errors err other
        | ok two =>
          rcases accepts.mpr ⟨two, rightRead⟩ with ⟨one, read⟩
          rw [leftRead] at read
          cases read
      | ok one =>
        rcases accepts.mp ⟨one, leftRead⟩ with ⟨two, rightRead⟩
        rw [rightRead]
        simp only
        cases readClauses right filterKey with
        | error err => exact .errors err err
        | ok filterClauses =>
          simp only
          cases readLimit right with
          | error err => exact .errors err err
          | ok lim =>
            simp only
            cases readPage right with
            | error err => exact .errors err err
            | ok key =>
              simp only
              have same : Same ⟨⟨fromVal.stringValue, one, filterClauses, key, order, distinct,
                  lim, getBool right descKey⟩, selectProps⟩ ⟨⟨fromVal.stringValue, two,
                  filterClauses, key, order, distinct, lim, getBool right descKey⟩,
                  selectProps⟩ :=
                ⟨rfl, rfl, finds one two leftRead rightRead, rfl, rfl, rfl, rfl, rfl, rfl⟩
              cases getBool right includeDeletedKey with
              | true => exact includeDeleted_agree same
              | false => exact .queries same

/-- No order of these where clauses makes a difference, whatever else the object holds. -/
def OrderFree (objs : List MojObject) : Prop :=
  ∀ (left right : MojObject) (reordered : List MojObject), objs.Perm reordered →
    left.get whereKey = some (.array objs) → right.get whereKey = some (.array reordered) →
    (∀ key, key ≠ whereKey → left.get key = right.get key) →
    Agree (fromObject left) (fromObject right)

/-- If every clause can be read and passes its checks, and any two on one property are a lower and
an upper bound whose collations are equal or not both there, then no two on one property have only
one collation. -/
def CollationsAgree (objs : List MojObject) : Prop :=
  (∀ obj ∈ objs, Readable obj) → Admitted (objs.map readOr) →
    (objs.map readOr).Pairwise Combine → (objs.map readOr).Pairwise SameColl

theorem orderFree_of_collationsAgree {objs : List MojObject} (alike : CollationsAgree objs) :
    OrderFree objs := by
  intro left right reordered perm leftArray rightArray others
  have readable : (∀ obj ∈ objs, Readable obj) ↔ ∀ obj ∈ reordered, Readable obj :=
    ⟨fun all obj member => all obj (perm.mem_iff.mpr member),
      fun all obj member => all obj (perm.mem_iff.mp member)⟩
  have leftRead : readClauses left whereKey = addClauses WhereMap.empty objs := by
    unfold readClauses
    rw [leftArray]
    rfl
  have rightRead : readClauses right whereKey = addClauses WhereMap.empty reordered := by
    unfold readClauses
    rw [rightArray]
    rfl
  apply fromObject_agree others
  · rw [leftRead, rightRead]
    simp only [addClauses_iff]
    constructor
    · rintro ⟨map, all, ran⟩
      rcases (addAll_perm (perm.map readOr) (alike all)).1.mp ⟨map, ran⟩ with ⟨other, otherRan⟩
      exact ⟨other, readable.mp all, otherRan⟩
    · rintro ⟨map, all, ran⟩
      rcases (addAll_perm (perm.map readOr) (alike (readable.mpr all))).1.mpr ⟨map, ran⟩ with
        ⟨other, otherRan⟩
      exact ⟨other, readable.mpr all, otherRan⟩
  · intro one two leftRan rightRan
    rw [leftRead, addClauses_iff] at leftRan
    rw [rightRead, addClauses_iff] at rightRan
    exact (addAll_perm (perm.map readOr) (alike leftRan.1)).2 one two leftRan.2 rightRan.2

def bare (objs : List MojObject) : MojObject :=
  .object [(fromKey, .string []), (whereKey, .array objs)]

theorem get_bare (objs : List MojObject) (key : MojString) : (bare objs).get key =
    if fromKey = key then some (.string []) else if whereKey = key then some (.array objs)
    else none := by
  unfold bare MojObject.get MojObject.map
  rw [MojObject.find_cons, MojObject.find_cons, MojObject.find_nil]

theorem fromObject_bare (objs : List MojObject) :
    (∃ query, fromObject (bare objs) = .ok query) ↔
      ∃ map, addClauses WhereMap.empty objs = .ok map := by
  have missing : ∀ key, fromKey ≠ key → whereKey ≠ key → (bare objs).get key = none := by
    intro key notFrom notWhere
    rw [get_bare, if_neg notFrom, if_neg notWhere]
  have order : readOrder (bare objs) = .ok ([], [], SortedSet.empty) := by
    unfold readOrder readSelect MojObject.getString
    rw [missing distinctKey (by decide) (by decide), missing selectKey (by decide) (by decide),
      missing orderByKey (by decide) (by decide)]
    rfl
  have fromType : (bare objs).getRequired fromKey = .ok (.string []) := by
    unfold MojObject.getRequired
    rw [get_bare, if_pos rfl]
  have clauses : readClauses (bare objs) whereKey = addClauses WhereMap.empty objs := by
    unfold readClauses
    rw [get_bare, if_neg (by decide), if_pos rfl]
    rfl
  have filter : readClauses (bare objs) filterKey = .ok WhereMap.empty := by
    unfold readClauses
    rw [missing filterKey (by decide) (by decide)]
  have limit : readLimit (bare objs) = .ok limitDefault := by
    unfold readLimit
    rw [missing limitKey (by decide) (by decide)]
  have page : readPage (bare objs) = .ok [] := by
    unfold readPage
    rw [missing pageKey (by decide) (by decide)]
  have deleted : getBool (bare objs) includeDeletedKey = false := by
    unfold getBool
    rw [missing includeDeletedKey (by decide) (by decide)]
    rfl
  unfold fromObject
  rw [order, fromType, clauses, filter, limit, page, deleted]
  cases addClauses WhereMap.empty objs with
  | error err => simp [bind, Except.bind]
  | ok map => simp [bind, Except.bind]

theorem accepted_iff (objs : List MojObject) :
    (∃ query, fromObject (bare objs) = .ok query) ↔ (∀ obj ∈ objs, Readable obj) ∧
      Admitted (objs.map readOr) ∧ (objs.map readOr).Pairwise InOrder := by
  have spec := (addAll_spec built_empty (fun _ member => absurd member List.not_mem_nil)
    List.Pairwise.nil (objs.map readOr)).1
  rw [List.nil_append] at spec
  rw [fromObject_bare]
  simp only [addClauses_iff]
  rw [← spec]
  constructor
  · rintro ⟨map, readable, ran⟩
    exact ⟨readable, map, ran⟩
  · rintro ⟨readable, map, ran⟩
    exact ⟨map, readable, ran⟩

theorem accepted_of_perm {objs others : List MojObject} (free : OrderFree objs)
    (perm : objs.Perm others) :
    (∃ query, fromObject (bare objs) = .ok query) ↔ ∃ query, fromObject (bare others) = .ok query := by
  have array : ∀ list, (bare list).get whereKey = some (.array list) := by
    intro list
    rw [get_bare, if_neg (by decide), if_pos rfl]
  apply ok_iff_of_agree
  apply free _ _ others perm (array objs) (array others)
  intro key notWhere
  rw [get_bare, get_bare, if_neg notWhere.symm, if_neg notWhere.symm]

def namesColl (obj : MojObject) : Bool := decide ((readOr obj).coll ≠ .invalid)

theorem inOrder_named {objs : List MojObject}
    (combine : objs.Pairwise fun one two => Combine (readOr one) (readOr two)) :
    (objs.filter (fun obj => !namesColl obj) ++ objs.filter namesColl).Pairwise
      fun one two => InOrder (readOr one) (readOr two) := by
  have symmetric : Std.Symm fun one two => Combine (readOr one) (readOr two) :=
    ⟨fun _ _ => combine_symm⟩
  have unnamed : ∀ obj ∈ objs.filter (fun obj => !namesColl obj), (readOr obj).coll = .invalid := by
    intro obj member
    have negative := (List.mem_filter.mp member).2
    simpa [namesColl] using negative
  have named : ∀ obj ∈ objs.filter namesColl, (readOr obj).coll ≠ .invalid := by
    intro obj member
    exact of_decide_eq_true (List.mem_filter.mp member).2
  apply List.pairwise_append.mpr
  refine ⟨?_, ?_, ?_⟩
  · apply (combine.filter _).imp_of_mem
    intro one two oneIn _ fits same
    exact ⟨(fits same).1, Or.inl (unnamed one oneIn)⟩
  · apply (combine.filter _).imp_of_mem
    intro one two oneIn twoIn fits same
    rcases fits same with ⟨ops, equal | missing | missing⟩
    · exact ⟨ops, Or.inr equal.symm⟩
    · exact absurd missing (named one oneIn)
    · exact absurd missing (named two twoIn)
  · intro one oneIn two twoIn same
    have apart : one ≠ two := by
      rintro rfl
      exact named one twoIn (unnamed one oneIn)
    have fits := combine.forall (List.mem_filter.mp oneIn).1 (List.mem_filter.mp twoIn).1 apart
    exact ⟨(fits same).1, Or.inl (unnamed one oneIn)⟩

theorem collationsAgree_of_orderFree {objs : List MojObject} (free : OrderFree objs) :
    CollationsAgree objs := by
  intro readable admitted combine
  have firstPerm : objs.Perm (objs.filter (fun obj => !namesColl obj) ++ objs.filter namesColl) :=
    ((List.perm_append_comm).trans (List.filter_append_perm namesColl objs)).symm
  have lastPerm : objs.Perm (objs.filter namesColl ++ objs.filter fun obj => !namesColl obj) :=
    (List.filter_append_perm namesColl objs).symm
  -- the clauses are accepted when those without a collation come first
  have firstAccepted := (accepted_iff _).mpr ⟨fun obj member => readable obj (firstPerm.mem_iff.mpr member),
    fun clause member => admitted clause ((firstPerm.map readOr).mem_iff.mpr member),
    List.pairwise_map.mpr (inOrder_named (List.pairwise_map.mp combine))⟩
  -- and so they would have to be when these come last
  have lastAccepted := (accepted_of_perm free lastPerm).mp
    ((accepted_of_perm free firstPerm).mpr firstAccepted)
  have lastOrder := (List.pairwise_append.mp
    (List.pairwise_map.mp ((accepted_iff _).mp lastAccepted).2.2)).2.2
  have mixed : ∀ one ∈ objs, ∀ two ∈ objs, (readOr one).prop = (readOr two).prop →
      (readOr one).coll = .invalid → (readOr two).coll ≠ .invalid → False := by
    intro one oneIn two twoIn same missing named
    have oneLast : one ∈ objs.filter fun obj => !namesColl obj :=
      List.mem_filter.mpr ⟨oneIn, by simp [namesColl, missing]⟩
    have twoFirst : two ∈ objs.filter namesColl :=
      List.mem_filter.mpr ⟨twoIn, decide_eq_true named⟩
    rcases (lastOrder two twoFirst one oneLast same.symm).2 with absent | equal
    · exact named absent
    · exact named (equal.symm.trans missing)
  have symmetric : Std.Symm Combine := ⟨fun _ _ => combine_symm⟩
  apply List.pairwise_of_forall_mem_list
  intro one oneIn two twoIn together
  apply Classical.byContradiction
  intro unlike
  have apart : one ≠ two := fun same => unlike (congrArg Clause.coll same)
  have fits := (combine.forall oneIn twoIn apart together).2
  rcases List.mem_map.mp oneIn with ⟨left, leftIn, rfl⟩
  rcases List.mem_map.mp twoIn with ⟨right, rightIn, rfl⟩
  rcases fits with equal | missing | missing
  · exact unlike equal
  · exact mixed left leftIn right rightIn together missing fun also => unlike (missing.trans also.symm)
  · exact mixed right rightIn left leftIn together.symm missing
      fun also => unlike (also.trans missing.symm)

end Objects

/-- The order of where clauses makes no difference just where their collations agree. -/
theorem clause_order (objs : List MojObject) : OrderFree objs ↔ CollationsAgree objs :=
  ⟨collationsAgree_of_orderFree, orderFree_of_collationsAgree⟩

/-- A clause on `a`, with a collation or without. -/
def clauseSample (op : List Char) (coll : Option (List Char)) : MojObject :=
  .object ((coll.map fun coll => (collateKey, MojObject.string (chars coll))).toList ++
    [(opKey, .string (chars op)), (propKey, .string (chars ['a'])), (valKey, .int 1)])

set_option maxRecDepth 20000 in
/-- A lower bound without a collation and an upper one with one are accepted in this order only. -/
theorem clause_order_collation :
    (∃ query, fromObject (bare [clauseSample ['>'] none,
      clauseSample ['<'] (some "primary".toList)]) = .ok query) ∧
    fromObject (bare [clauseSample ['<'] (some "primary".toList), clauseSample ['>'] none]) =
      .error .dbInvalidQueryCollationMismatch ∧
    ¬ ∀ objs, OrderFree objs := by
  have accepted : ∃ query, fromObject (bare [clauseSample ['>'] none,
      clauseSample ['<'] (some "primary".toList)]) = .ok query := ⟨_, rfl⟩
  have rejected : fromObject (bare [clauseSample ['<'] (some "primary".toList),
      clauseSample ['>'] none]) = .error .dbInvalidQueryCollationMismatch := rfl
  refine ⟨accepted, rejected, ?_⟩
  intro all
  rcases (accepted_of_perm (all _) (List.Perm.swap _ _ [])).mp accepted with ⟨query, other⟩
  rw [rejected] at other
  cases other

end Db8.Db.MojDbQuery
