import Db8.Db.RangeOrder

/-!
# What a plan's bounds select

What the where clauses ask of the values spelled out in a key, and which keys lie in the ranges that
`rangesFromKeys` makes of the three key sets for each kind of last clause. Everything rests on the
codes of values being prefix-free: the bytes in front of an inequality's value fix the values before
it, and the value is cut by its bound whatever follows.
-/

set_option autoImplicit false

namespace Db8.Db

open Db8.Bytes
open Db8.Core

namespace WhereClause

/-- The codes of a clause's value, of each element when it is an array. -/
def Encodes (locale : MojDbLocale) (coll : MojDbCollationStrength) (val : Option MojObject)
    (code : MojDbKey) : Prop :=
  match val with
  | none => False
  | some val => ∃ elem ∈ MojDbPropExtractor.elements val,
      code = MojDbKey.assign elem (locale.collatorOf coll)

/-- The code of a string without its terminator starts the codes of its extensions. -/
def Starts (code part : MojDbKey) : Prop := MojDbQueryPlan.dropTerminator code <+: part

theorem charBytes_prefix_iff (stem text : MojString) :
    MojObjectWriter.charBytes stem <+: MojObjectWriter.charBytes text ++ [0] ↔ stem <+: text := by
  induction stem generalizing text with
  | nil => simp [MojObjectWriter.charBytes]
  | cons c stem ih =>
    cases text with
    | nil => simpa [MojObjectWriter.charBytes] using fun same => absurd same c.property
    | cons d text =>
      have tails := ih text
      simp only [MojObjectWriter.charBytes, List.map_cons, List.cons_append,
        List.cons_prefix_cons, Subtype.val_inj] at tails ⊢
      rw [tails]

theorem starts_string_iff (stem text : MojString) :
    Starts (MojObjectWriter.value (.string stem)) (MojObjectWriter.value (.string text)) ↔
      stem <+: text := by
  have stemOf : MojDbQueryPlan.dropTerminator (MojObjectWriter.value (.string stem)) =
      4 :: MojObjectWriter.charBytes stem := by
    have shape : MojObjectWriter.value (.string stem) =
        (4 :: MojObjectWriter.charBytes stem) ++ [0] := by
      rw [MojObjectWriter.value, MojObjectWriter.stringValue]
    rw [MojDbQueryPlan.dropTerminator, shape, List.getLast?_append_of_ne_nil _ (by simp),
      List.dropLast_append_of_ne_nil (by simp)]
    simp
  rw [Starts, stemOf, MojObjectWriter.value, MojObjectWriter.stringValue, List.cons_append,
    List.cons_prefix_cons, charBytes_prefix_iff]
  simp only [true_and]

/-- The words a search clause looks for, those that start another word left out. -/
def Searches (locale : MojDbLocale) (clause : WhereClause) (code : MojDbKey) : Prop :=
  code ∈ MojDbQueryPlan.pushSearch locale clause.lowerVal (locale.collatorOf clause.collation)

def LowerHolds (locale : MojDbLocale) (clause : WhereClause) (part : MojDbKey) : Prop :=
  let encodes := Encodes locale clause.collation clause.lowerVal
  match clause.lowerOp with
  | .none => True
  | .eq => encodes part
  | .notEq => ¬ encodes part
  | .greaterThan => ∀ code, encodes code → code < part
  | .greaterThanEq => ∀ code, encodes code → code ≤ part
  | .prefixOf => ∃ code, encodes code ∧ Starts code part
  | .search => ∃ code, Searches locale clause code ∧ Starts code part
  | .subString => ∃ code, encodes code ∧
      (MojDbQueryPlan.dropTerminator code).tail <:+: part
  | .lessThan => True
  | .lessThanEq => True

def UpperHolds (locale : MojDbLocale) (clause : WhereClause) (part : MojDbKey) : Prop :=
  let encodes := Encodes locale clause.collation clause.upperVal
  match clause.upperOp with
  | .lessThan => ∀ code, encodes code → part < code
  | .lessThanEq => ∀ code, encodes code → part ≤ code
  | _ => True

def Holds (locale : MojDbLocale) (clause : WhereClause) (part : MojDbKey) : Prop :=
  clause.LowerHolds locale part ∧ clause.UpperHolds locale part

/-- An operator that needs the prefix of the keys in front of its value. -/
def Inequality (clause : WhereClause) : Prop :=
  clause.lowerOp ≠ .eq ∧ clause.lowerOp ≠ .prefixOf ∧ clause.lowerOp ≠ .search

instance (clause : WhereClause) : Decidable clause.Inequality :=
  inferInstanceAs (Decidable (_ ∧ _))

end WhereClause

namespace MojDbIndex

structure Spells (index : MojDbIndex) (parts : List MojDbKey) (key : MojDbKey) : Prop where
  length : parts.length = index.props.length
  codes : ∀ part ∈ parts, part ∈ MojObjectWriter.codes
  key : key = MojDbKey.assign index.id none ++ parts.flatten

def partOf (index : MojDbIndex) (parts : List MojDbKey) (propName : MojString) :
    Option MojDbKey :=
  ((index.names.zip parts).find? fun entry => decide (entry.1 = propName)).map Prod.snd

def Satisfies (index : MojDbIndex) (query : MojDbQuery) (parts : List MojDbKey) : Prop :=
  ∀ entry ∈ query.whereClauses.entries, ∃ part, index.partOf parts entry.1 = some part ∧
    entry.2.Holds index.locale part

theorem spells_of_vals (index : MojDbIndex) (obj : MojObject) {parts : List MojDbKey}
    (members : List.Forall₂ (fun part vals => part ∈ vals) parts (index.vals obj)) :
    index.Spells parts (MojDbKey.assign index.id none ++ parts.flatten) := by
  refine ⟨?_, ?_, rfl⟩
  · rw [members.length_eq, vals, List.length_map]
  · intro part partIn
    obtain ⟨place, within, rfl⟩ := List.getElem_of_mem partIn
    have here := members.get within (members.length_eq ▸ within)
    simp only [List.get_eq_getElem, vals, List.getElem_map] at here
    exact MojDbExtractor.vals_subset_codes _ _ _ _ here

theorem getKeys_spelled (index : MojDbIndex) (obj : MojObject) {key : MojDbKey}
    (member : key ∈ index.getKeys obj) : ∃ parts, index.Spells parts key := by
  obtain ⟨parts, members, rfl⟩ := (index.mem_getKeys obj key).mp member
  exact ⟨parts, index.spells_of_vals obj members⟩

theorem Spells.unique {index : MojDbIndex} {left right : List MojDbKey} {key : MojDbKey}
    (leftSpells : index.Spells left key) (rightSpells : index.Spells right key) :
    left = right := by
  have same := leftSpells.key.symm.trans rightSpells.key
  have tails := List.append_cancel_left same
  exact MojObjectWriter.codes_prefixFree.flatten_inj leftSpells.codes rightSpells.codes
    (leftSpells.length.trans rightSpells.length.symm) tails

theorem Spells.split {index : MojDbIndex} {parts : List MojDbKey} {key : MojDbKey}
    (spells : index.Spells parts key) {count : Nat} (enough : count < parts.length) :
    MojDbKey.assign index.id none ++ (parts.take count).flatten ∈
        Words MojObjectWriter.codes (count + 1) ∧
      key = (MojDbKey.assign index.id none ++ (parts.take count).flatten) ++
        (parts[count] ++ (parts.drop (count + 1)).flatten) := by
  have frontLength : (parts.take count).length = count := List.length_take_of_le enough.le
  constructor
  · refine ⟨MojDbKey.assign index.id none :: parts.take count, by simp [frontLength], ?_, by simp⟩
    intro part member
    rcases List.mem_cons.mp member with rfl | member
    · exact MojDbKey.assign_mem_codes _ _
    · exact spells.codes part (List.mem_of_mem_take member)
  · have split : parts = parts.take count ++ parts[count] :: parts.drop (count + 1) := by
      rw [List.getElem_cons_drop, List.take_append_drop]
    rw [spells.key, List.append_assoc]
    congr 1
    conv_lhs => rw [split]
    rw [List.flatten_append, List.flatten_cons]

end MojDbIndex

namespace MojDbQueryPlan

open WhereClause

theorem mem_pushVal (locale : MojDbLocale) (coll : MojDbCollationStrength) (val : MojObject)
    (code : MojDbKey) :
    code ∈ pushVal (some val) (locale.collatorOf coll) ↔ Encodes locale coll (some val) code := by
  simp only [pushVal, Encodes, SortedSet.mem_ofList, List.mem_map, eq_comm]

theorem pushVal_scalar {val : MojObject} (scalar : isArray (some val) = false)
    (coll : Option MojDbTextCollator) :
    pushVal (some val) coll = SortedSet.single (MojDbKey.assign val coll) := by
  ext code
  cases val <;>
    simp_all [pushVal, MojDbPropExtractor.elements, isArray]

theorem encodes_scalar {locale : MojDbLocale} {coll : MojDbCollationStrength} {val : MojObject}
    (scalar : isArray (some val) = false) (code : MojDbKey) :
    Encodes locale coll (some val) code ↔
      code = MojDbKey.assign val (locale.collatorOf coll) := by
  rw [← mem_pushVal, pushVal_scalar scalar, SortedSet.mem_single]

theorem pushVal_codes (val : Option MojObject) (coll : Option MojDbTextCollator) :
    ∀ code ∈ pushVal val coll, code ∈ MojObjectWriter.codes := by
  intro code member
  cases val with
  | none =>
    obtain rfl := (SortedSet.mem_single _ _).mp member
    exact MojDbKey.assign_mem_codes _ _
  | some val =>
    obtain ⟨elem, _, rfl⟩ := List.mem_map.mp ((SortedSet.mem_ofList _ _).mp member)
    exact MojDbKey.assign_mem_codes _ _

theorem pushSearch_codes (locale : MojDbLocale) (val : Option MojObject)
    (coll : Option MojDbTextCollator) :
    ∀ code ∈ pushSearch locale val coll, code ∈ MojObjectWriter.codes := by
  intro code member
  have kept := (dropPrefixes_sublist _).subset member
  exact (locale.mem_tokenize _ _ _ _ kept).resolve_right (SortedSet.not_mem_empty code)

/-- No code is below the code of null, so an undefined bound excludes nothing. -/
theorem null_le_code {code : MojDbKey} (member : code ∈ MojObjectWriter.codes) :
    MojDbKey.assign .null none ≤ code := by
  obtain ⟨obj, rfl⟩ := member
  obtain ⟨marker, rest, shape, known⟩ := MojObjectWriter.value_marker obj
  rw [shape]
  have nonzero : (1 : Byte) ≤ marker := by
    by_contra below
    have zero : marker = 0 := by
      rw [not_le, Fin.lt_def] at below
      exact Fin.ext (Nat.lt_one_iff.mp below)
    rw [zero] at known
    simp [MojObjectWriter.markerType] at known
  rcases lt_or_eq_of_le nonzero with above | same
  · exact le_of_lt (List.cons_lt_cons_iff.mpr (Or.inl above))
  · rw [← same]
    exact le_of_starts (List.prefix_append [1] rest)

theorem code_successor_ne_nil {code : MojDbKey} (member : code ∈ MojObjectWriter.codes) :
    successor code ≠ [] := by
  obtain ⟨obj, rfl⟩ := member
  obtain ⟨marker, rest, shape, known⟩ := MojObjectWriter.value_marker obj
  rw [shape]
  apply successor_ne_nil
  by_contra large
  have top : marker = 255 := by
    have := marker.isLt
    exact Fin.ext (by omega)
  rw [top] at known
  simp [MojObjectWriter.markerType] at known

section Products

def CodeSets (stack : List KeySet) : Prop :=
  ∀ vals ∈ stack, ∀ code ∈ vals, code ∈ MojObjectWriter.codes

theorem keys_words {stack : List KeySet} (codeSets : CodeSets stack) :
    ∀ key ∈ MojDbKeyBuilder.keys stack, key ∈ Words MojObjectWriter.codes stack.length := by
  cases stack with
  | nil =>
    intro key member
    exact absurd member (SortedSet.not_mem_empty key)
  | cons vals rest =>
    intro key member
    rw [MojDbKeyBuilder.mem_keys_iff, MojDbKeyBuilder.mem_product_iff] at member
    obtain ⟨parts, members, rfl⟩ := member
    refine ⟨parts, members.length_eq, ?_, rfl⟩
    intro part partIn
    obtain ⟨place, within, rfl⟩ := List.getElem_of_mem partIn
    have here := members.get within (members.length_eq ▸ within)
    exact codeSets _ (List.getElem_mem _) _ here

theorem mem_product_concat (stack : List KeySet) (vals : KeySet) (key : MojDbKey) :
    key ∈ MojDbKeyBuilder.product (stack ++ [vals]) ↔
      ∃ front ∈ MojDbKeyBuilder.product stack, ∃ val ∈ vals, key = front ++ val := by
  induction stack generalizing key with
  | nil =>
    rw [List.nil_append, MojDbKeyBuilder.mem_product_cons]
    simp [MojDbKeyBuilder.product]
  | cons head stack ih =>
    rw [List.cons_append, MojDbKeyBuilder.mem_product_cons]
    simp only [MojDbKeyBuilder.mem_product_cons, ih]
    constructor
    · rintro ⟨first, firstIn, _, ⟨front, frontIn, val, valIn, rfl⟩, rfl⟩
      exact ⟨first ++ front, ⟨first, firstIn, front, frontIn, rfl⟩, val, valIn, by simp⟩
    · rintro ⟨_, ⟨first, firstIn, front, frontIn, rfl⟩, val, valIn, rfl⟩
      exact ⟨first, firstIn, front ++ val, ⟨front, frontIn, val, valIn, rfl⟩, by simp⟩

theorem mem_keys_concat {stack : List KeySet} (started : stack ≠ []) (vals : KeySet)
    (key : MojDbKey) :
    key ∈ MojDbKeyBuilder.keys (stack ++ [vals]) ↔
      ∃ front ∈ MojDbKeyBuilder.keys stack, ∃ val ∈ vals, key = front ++ val := by
  cases stack with
  | nil => exact absurd rfl started
  | cons head stack =>
    rw [List.cons_append, MojDbKeyBuilder.mem_keys_iff, ← List.cons_append, mem_product_concat]
    simp only [MojDbKeyBuilder.mem_keys_iff]

theorem keys_concat_single {stack : List KeySet} (started : stack ≠ [])
    (codeSets : CodeSets stack) (val : MojDbKey) :
    (MojDbKeyBuilder.keys (stack ++ [SortedSet.single val])).elems =
      (MojDbKeyBuilder.keys stack).elems.map (· ++ val) := by
  have free := MojObjectWriter.codes_prefixFree.words stack.length
  have mapped : ((MojDbKeyBuilder.keys stack).elems.map (· ++ val)).Pairwise (· < ·) := by
    rw [List.pairwise_map]
    refine (MojDbKeyBuilder.keys stack).sorted.imp_of_mem ?_
    intro left right leftIn rightIn below
    rw [free.append_lt_append_iff (keys_words codeSets left leftIn)
      (keys_words codeSets right rightIn)]
    exact Or.inl below
  refine SortedSet.list_eq_of_mem_iff (SortedSet.sorted _) mapped ?_
  intro key
  rw [← SortedSet.mem_def, mem_keys_concat started, List.mem_map]
  constructor
  · rintro ⟨front, frontIn, other, otherIn, rfl⟩
    rw [(SortedSet.mem_single _ _).mp otherIn]
    exact ⟨front, frontIn, rfl⟩
  · rintro ⟨front, frontIn, rfl⟩
    exact ⟨front, frontIn, val, (SortedSet.mem_single _ _).mpr rfl, rfl⟩

end Products

section Bounds

structure Within (front : MojDbKey) (range : MojDbKeyRange) : Prop where
  lowerFrom : front ≤ range.lowerKey
  lowerTo : range.lowerKey ≤ successor front
  upperFrom : front ≤ range.upperKey
  upperTo : range.upperKey ≤ successor front
  bounded : range.upperKey ≠ []

theorem Within.precedes {left right : MojDbKey} {leftRange rightRange : MojDbKeyRange}
    (leftWithin : Within left leftRange) (rightWithin : Within right rightRange)
    (below : left < right) (separate : ¬ left <+: right) : leftRange.Precedes rightRange := by
  have gap := (successor_le_of_separate below separate).2
  exact ⟨leftWithin.upperTo.trans (gap.trans rightWithin.lowerFrom),
    leftWithin.lowerTo.trans (gap.trans rightWithin.lowerFrom),
    leftWithin.upperTo.trans (gap.trans rightWithin.upperFrom)⟩

theorem Within.prefix_of_contains {front key : MojDbKey} {range : MojDbKeyRange}
    (within : Within front range) (bounded : successor front ≠ [])
    (inside : range.contains key) : front <+: key := by
  rw [MojDbKeyRange.contains_iff] at inside
  rw [← le_and_below_successor_iff, below_iff_lt bounded]
  exact ⟨within.lowerFrom.trans inside.1,
    ((below_iff_lt within.bounded key).mp inside.2).trans_le within.upperTo⟩

theorem append_le_successor {front : MojDbKey} (bounded : successor front ≠ [])
    (rest : MojDbKey) : front ++ rest ≤ successor front := by
  have below := (below_successor_iff front (front ++ rest)).mpr (Or.inr (List.prefix_append _ _))
  exact ((below_iff_lt bounded _).mp below).le

theorem below_append_iff (front key : MojDbKey) {bound : MojDbKey} (bounded : bound ≠ []) :
    Below (front ++ key) (front ++ bound) ↔ Below key bound := by
  have longer : front ++ bound ≠ [] := by simp [bounded]
  rw [below_iff_lt longer, below_iff_lt bounded, append_lt_append_left_iff]

variable (locale : MojDbLocale) {clause : WhereClause} {front lower upper : MojDbKey}

/-- The upper bound computed for a prefix cuts off what the upper operator refuses. -/
theorem upperBound_spec (accepted : clause.Accepted) (bounded : successor front ≠ [])
    (upperIn : upper ∈ MojObjectWriter.codes)
    (upperCode : clause.upperOp ≠ .none →
      ∀ code, Encodes locale clause.collation clause.upperVal code ↔ code = upper) :
    ∃ bound, upperBound clause.lowerOp clause.upperOp (front ++ upper) front = .ok bound ∧
      front ≤ bound ∧ bound ≤ successor front ∧ bound ≠ [] ∧
      ∀ code ∈ MojObjectWriter.codes, ∀ rest,
        Below (front ++ (code ++ rest)) bound ↔ clause.UpperHolds locale code := by
  have free := MojObjectWriter.codes_prefixFree
  have upperBounded := code_successor_ne_nil upperIn
  have upperNonempty : upper ≠ [] := by
    rintro rfl
    exact upperBounded successor_nil
  rcases accepted.upperOps with open_ | strict | inclusive
  · refine ⟨successor front, ?_, (lt_successor bounded).le, le_rfl, bounded, ?_⟩
    · have lowerOp : clause.lowerOp ≠ .none := by
        intro missing
        exact accepted.some_op.elim (fun some => some missing) (fun some => some open_)
      simp [upperBound, open_, mojAssert, lowerOp, bind, Except.bind, MojDbKey.increment]
    · intro code _ rest
      simp only [UpperHolds, open_, iff_true]
      exact (below_successor_iff _ _).mpr (Or.inr (List.prefix_append _ _))
  · have encodes := upperCode (by simp [strict])
    refine ⟨front ++ upper, ?_, self_le_append _ _, append_le_successor bounded _,
      by simp [upperNonempty], ?_⟩
    · simp [upperBound, strict, mojAssert, bind, Except.bind]
    · intro code codeIn rest
      rw [below_append_iff _ _ upperNonempty, below_iff_lt upperNonempty,
        lt_append_of_code free upperIn codeIn]
      simp only [UpperHolds, strict, encodes, forall_eq]
  · have encodes := upperCode (by simp [inclusive])
    refine ⟨successor (front ++ upper), ?_, ?_, ?_, ?_, ?_⟩
    · simp [upperBound, inclusive, MojDbKey.increment]
    · rw [successor_append upperBounded]
      exact self_le_append _ _
    · rw [successor_append upperBounded]
      exact append_le_successor bounded _
    · rw [successor_append upperBounded]
      simp [upperBounded]
    · intro code codeIn rest
      rw [successor_append upperBounded, below_append_iff _ _ upperBounded,
        below_successor_of_code free upperIn codeIn]
      simp only [UpperHolds, inclusive, encodes, forall_eq]

structure Answers (front : MojDbKey) (clause : WhereClause) (here : List MojDbKeyRange) :
    Prop where
  ordered : here.Pairwise MojDbKeyRange.Precedes
  within : ∀ range ∈ here, Within front range
  exact : ∀ code ∈ MojObjectWriter.codes, ∀ rest,
    (∃ range ∈ here, range.contains (front ++ (code ++ rest))) ↔ clause.Holds locale code

theorem answers_single {bound floor : MojDbKey} (floorFrom : front ≤ floor)
    (floorTo : floor ≤ successor front) (boundFrom : front ≤ bound)
    (boundTo : bound ≤ successor front) (bounded : bound ≠ [])
    (lowerHolds : ∀ code ∈ MojObjectWriter.codes, ∀ rest,
      floor ≤ front ++ (code ++ rest) ↔ clause.LowerHolds locale code)
    (upperHolds : ∀ code ∈ MojObjectWriter.codes, ∀ rest,
      Below (front ++ (code ++ rest)) bound ↔ clause.UpperHolds locale code) (group : Nat) :
    Answers locale front clause [⟨floor, bound, group⟩] where
  ordered := List.pairwise_singleton _ _
  within := by
    intro range member
    rw [List.mem_singleton.mp member]
    exact ⟨floorFrom, floorTo, boundFrom, boundTo, bounded⟩
  exact := by
    intro code codeIn rest
    simp only [List.mem_singleton, exists_eq_left, MojDbKeyRange.contains_iff,
      lowerHolds code codeIn rest, upperHolds code codeIn rest, Holds]

/-- An inequality's ranges for one prefix hold the keys whose value answers it. -/
theorem boundsFromKeys_inequality (accepted : clause.Accepted) (inequality : clause.Inequality)
    (noSubString : clause.lowerOp ≠ .subString) (bounded : successor front ≠ [])
    (lowerIn : lower ∈ MojObjectWriter.codes) (upperIn : upper ∈ MojObjectWriter.codes)
    (lowerNone : clause.lowerOp = .none → lower = MojDbKey.assign .null none)
    (lowerCode : clause.lowerOp ≠ .none →
      ∀ code, Encodes locale clause.collation clause.lowerVal code ↔ code = lower)
    (upperCode : clause.upperOp ≠ .none →
      ∀ code, Encodes locale clause.collation clause.upperVal code ↔ code = upper)
    (index groupCount : Nat) :
    ∃ here, boundsFromKeys (front ++ lower) (front ++ upper) front index groupCount
        (some clause) = .ok here ∧ Answers locale front clause here := by
  have free := MojObjectWriter.codes_prefixFree
  have lowerBounded := code_successor_ne_nil lowerIn
  obtain ⟨bound, computed, boundFrom, boundTo, boundNonempty, upperHolds⟩ :=
    upperBound_spec locale accepted bounded upperIn upperCode
  obtain ⟨notEq, notPrefix, notSearch⟩ := inequality
  have above : front ≤ front ++ lower := self_le_append _ _
  have under : front ++ lower ≤ successor front := append_le_successor bounded _
  have stepped : successor (front ++ lower) = front ++ successor lower :=
    successor_append lowerBounded front
  cases lowerOp : clause.lowerOp with
  | none =>
    have upperOp : clause.upperOp ≠ .none :=
      accepted.some_op.resolve_left (fun some => some lowerOp)
    refine ⟨[⟨front ++ lower, bound, 0⟩], ?_, ?_⟩
    · rw [lowerOp] at computed
      simp [boundsFromKeys, lowerOp, computed, upperOp, mojAssert, bind, Except.bind]
    · refine answers_single locale above under boundFrom boundTo boundNonempty ?_ upperHolds 0
      intro code codeIn rest
      rw [append_le_append_left_iff, le_append_of_code free lowerIn codeIn, lowerNone lowerOp]
      simp only [LowerHolds, lowerOp, null_le_code codeIn]
  | eq => exact absurd lowerOp notEq
  | prefixOf => exact absurd lowerOp notPrefix
  | search => exact absurd lowerOp notSearch
  | subString => exact absurd lowerOp noSubString
  | lessThan => exact absurd lowerOp accepted.notUpper.1
  | lessThanEq => exact absurd lowerOp accepted.notUpper.2
  | greaterThan =>
    have encodes := lowerCode (by simp [lowerOp])
    refine ⟨[⟨successor (front ++ lower), bound, 0⟩], ?_, ?_⟩
    · rw [lowerOp] at computed
      simp [boundsFromKeys, lowerOp, computed, bind, Except.bind, MojDbKey.increment]
    · rw [stepped]
      refine answers_single locale (self_le_append _ _) (append_le_successor bounded _) boundFrom
        boundTo boundNonempty ?_ upperHolds 0
      intro code codeIn rest
      rw [append_le_append_left_iff, successor_le_of_code free lowerIn codeIn rest lowerBounded]
      simp only [LowerHolds, lowerOp, encodes, forall_eq]
  | greaterThanEq =>
    have encodes := lowerCode (by simp [lowerOp])
    refine ⟨[⟨front ++ lower, bound, 0⟩], ?_, ?_⟩
    · rw [lowerOp] at computed
      simp [boundsFromKeys, lowerOp, computed, bind, Except.bind]
    · refine answers_single locale above under boundFrom boundTo boundNonempty ?_ upperHolds 0
      intro code codeIn rest
      rw [append_le_append_left_iff, le_append_of_code free lowerIn codeIn]
      simp only [LowerHolds, lowerOp, encodes, forall_eq]
  | notEq =>
    have encodes := lowerCode (by simp [lowerOp])
    have openAbove : clause.upperOp = .none := by
      by_contra upperOp
      rcases accepted.pairs upperOp with same | same | same <;> simp [same] at lowerOp
    have lowerNonempty : front ++ lower ≠ [] := by
      intro empty
      rw [(List.append_eq_nil_iff.mp empty).2] at lowerBounded
      exact lowerBounded successor_nil
    refine ⟨[⟨front, front ++ lower, 0⟩, ⟨successor (front ++ lower), successor front, 0⟩],
      ?_, ?_⟩
    · rw [lowerOp] at computed
      simp [boundsFromKeys, lowerOp, computed, bind, Except.bind, MojDbKey.increment]
    · rw [stepped]
      refine ⟨?_, ?_, ?_⟩
      · refine List.pairwise_pair.mpr ⟨?_, self_le_append _ _, under⟩
        rw [append_le_append_left_iff]
        exact (lt_successor lowerBounded).le
      · intro range member
        rcases List.mem_pair.mp member with rfl | rfl
        · exact ⟨le_rfl, (lt_successor bounded).le, above, under, lowerNonempty⟩
        · exact ⟨self_le_append _ _, append_le_successor bounded _, (lt_successor bounded).le,
            le_rfl, bounded⟩
      · intro code codeIn rest
        have inFront : Below (front ++ (code ++ rest)) (successor front) :=
          (below_successor_iff _ _).mpr (Or.inr (List.prefix_append _ _))
        simp only [List.mem_cons, List.not_mem_nil, or_false, exists_eq_or_imp, exists_eq_left,
          MojDbKeyRange.contains_iff, self_le_append, true_and, inFront, and_true]
        rw [below_iff_lt lowerNonempty, append_lt_append_left_iff, append_le_append_left_iff,
          lt_append_of_code free lowerIn codeIn,
          successor_le_of_code free lowerIn codeIn rest lowerBounded]
        simp only [Holds, LowerHolds, UpperHolds, lowerOp, openAbove, encodes, and_true]
        exact (lt_or_lt_iff_ne).trans Iff.rfl

/-- A key cut off behind a prefix of it, or right in front of its terminator. -/
def StemOf (stem key : MojDbKey) : Prop := key = stem ∨ key = stem ++ [0]

theorem dropTerminator_stem (key : MojDbKey) : StemOf (dropTerminator key) key := by
  unfold dropTerminator StemOf
  split_ifs with terminated
  · obtain ⟨initial, rfl⟩ := List.getLast?_eq_some_iff.mp terminated
    exact Or.inr (by simp)
  · exact Or.inl rfl

theorem dropTerminator_append (front : MojDbKey) {key : MojDbKey} (nonempty : key ≠ []) :
    dropTerminator (front ++ key) = front ++ dropTerminator key := by
  unfold dropTerminator
  rw [List.getLast?_append_of_ne_nil _ nonempty]
  split_ifs
  · exact List.dropLast_append_of_ne_nil nonempty
  · rfl

theorem StemOf.starts {stem key : MojDbKey} (isStem : StemOf stem key) : stem <+: key := by
  rcases isStem with rfl | rfl
  · exact List.prefix_refl _
  · exact List.prefix_append _ _

theorem successor_le_of_starts {left right : MojDbKey} (starts : left <+: right)
    (bounded : successor left ≠ []) : successor right ≤ successor left := by
  by_contra beyond
  rw [not_le] at beyond
  rcases (below_successor_iff right (successor left)).mp (Or.inr beyond) with before | extends_
  · have inside := (below_successor_iff left right).mpr (Or.inr starts)
    exact lt_asymm before ((below_iff_lt bounded right).mp inside)
  · have inside := (below_successor_iff left _).mpr (Or.inr (starts.trans extends_))
    exact lt_irrefl _ ((below_iff_lt bounded _).mp inside)

/-- Two stems of a prefix-free set give ranges one after the other or one inside the other. -/
theorem stems_staged {words : Set MojDbKey} (free : PrefixFree words)
    {left right leftStem rightStem : MojDbKey} (leftIn : left ∈ words) (rightIn : right ∈ words)
    (below : left < right) (leftIs : StemOf leftStem left) (rightIs : StemOf rightStem right)
    (leftBounded : successor leftStem ≠ []) (rightBounded : successor rightStem ≠ [])
    (leftGroup rightGroup : Nat) :
    MojDbKeyRange.Staged ⟨left, successor leftStem, leftGroup⟩
      ⟨right, successor rightStem, rightGroup⟩ := by
  by_cases starts : leftStem <+: right
  · have proper : leftStem ≠ right := by
      rintro rfl
      exact absurd (free _ rightIn _ leftIn leftIs.starts) below.ne'
    have shorter : leftStem <+: rightStem := by
      rcases rightIs with rfl | rfl
      · exact starts
      · rcases List.prefix_concat_iff.mp starts with same | shorter
        · exact absurd same proper
        · exact shorter
    right
    refine ⟨?_, Or.inr (successor_le_of_starts shorter leftBounded)⟩
    rw [MojDbKeyRange.contains_iff]
    exact ⟨below.le, (below_successor_iff _ _).mpr (Or.inr starts)⟩
  · left
    have gap := (successor_le_of_separate
      ((le_of_starts leftIs.starts).trans_lt below) starts).2
    have inside := (below_successor_iff rightStem right).mpr (Or.inr rightIs.starts)
    exact ⟨gap, below.le, gap.trans ((below_iff_lt rightBounded right).mp inside).le⟩

/-- A code starts the bytes of another code and what follows it only if it starts that code. -/
theorem stem_prefix_append {stem code bound : MojDbKey} (isStem : StemOf stem bound)
    (boundIn : bound ∈ MojObjectWriter.codes) (codeIn : code ∈ MojObjectWriter.codes)
    (rest : MojDbKey) : stem <+: code ++ rest ↔ stem <+: code := by
  constructor
  · intro starts
    rcases List.prefix_or_prefix_of_prefix starts (List.prefix_append code rest) with
      short | long
    · exact short
    · have same := MojObjectWriter.codes_prefixFree code codeIn bound boundIn
        (long.trans isStem.starts)
      rw [same]
      exact isStem.starts
  · intro starts
    exact starts.trans (List.prefix_append code rest)

theorem le_of_stem_prefix {stem code bound : MojDbKey} (isStem : StemOf stem bound)
    (boundIn : bound ∈ MojObjectWriter.codes) (codeIn : code ∈ MojObjectWriter.codes)
    (starts : stem <+: code) : bound ≤ code := by
  rcases isStem with rfl | rfl
  · exact le_of_starts starts
  · obtain ⟨tail, rfl⟩ := starts
    cases tail with
    | nil =>
      rw [List.append_nil] at codeIn
      have same := MojObjectWriter.codes_prefixFree _ codeIn _ boundIn (List.prefix_append _ _)
      rw [List.append_nil, ← same]
    | cons byte tail =>
      rw [append_le_append_left_iff]
      rcases eq_or_lt_of_le (Fin.zero_le byte) with same | above
      · rw [← same]
        exact le_of_starts (List.prefix_append [0] tail)
      · exact le_of_lt (List.cons_lt_cons_iff.mpr (Or.inl above))

/-- The range of a stem holds the keys whose value the stem starts. -/
theorem contains_stem_range {front other stem code bound : MojDbKey} {count : Nat}
    (frontIn : front ∈ Words MojObjectWriter.codes count)
    (otherIn : other ∈ Words MojObjectWriter.codes count)
    (isStem : StemOf stem bound) (boundIn : bound ∈ MojObjectWriter.codes)
    (codeIn : code ∈ MojObjectWriter.codes) (rest : MojDbKey) (group : Nat) :
    MojDbKeyRange.contains ⟨front ++ bound, successor (front ++ stem), group⟩
        (other ++ (code ++ rest)) ↔
      front = other ∧ stem <+: code := by
  rw [MojDbKeyRange.contains_iff, below_successor_iff]
  constructor
  · rintro ⟨above, below | starts⟩
    · have lower : front ++ stem ≤ front ++ bound :=
        (append_le_append_left_iff _ _ _).mpr (le_of_starts isStem.starts)
      exact absurd (below.trans_le lower) (not_lt.mpr above)
    · obtain ⟨rfl, tail⟩ := (MojObjectWriter.codes_prefixFree.words count).append_prefix_append
        frontIn otherIn starts
      exact ⟨rfl, (stem_prefix_append isStem boundIn codeIn rest).mp tail⟩
  · rintro ⟨rfl, starts⟩
    have wide := (stem_prefix_append isStem boundIn codeIn rest).mpr starts
    refine ⟨?_, Or.inr ((List.prefix_append_right_inj front).mpr wide)⟩
    rw [append_le_append_left_iff, le_append_of_code MojObjectWriter.codes_prefixFree boundIn codeIn]
    exact le_of_stem_prefix isStem boundIn codeIn starts

end Bounds

section KeySets

theorem boundsFromKeySets_ok (groupCount : Nat) (clause : Option WhereClause)
    (good : MojDbKey → List MojDbKeyRange → Prop) (lower upper front : MojDbKey → MojDbKey)
    (keys : List MojDbKey)
    (each : ∀ key ∈ keys, ∀ index, ∃ here,
      boundsFromKeys (lower key) (upper key) (front key) index groupCount clause = .ok here ∧
        good key here) (index : Nat) :
    ∃ parts, boundsFromKeySets groupCount clause index (keys.map lower) (keys.map upper)
        (keys.map front) = .ok parts.flatten ∧ List.Forall₂ good keys parts := by
  induction keys generalizing index with
  | nil => exact ⟨[], rfl, List.Forall₂.nil⟩
  | cons key keys ih =>
    obtain ⟨here, computed, isGood⟩ := each key List.mem_cons_self index
    obtain ⟨parts, rest, allGood⟩ :=
      ih (fun other member => each other (List.mem_cons_of_mem _ member)) (index + 1)
    refine ⟨here :: parts, ?_, List.Forall₂.cons isGood allGood⟩
    simp [boundsFromKeySets, computed, rest, bind, Except.bind]

variable {good : MojDbKey → List MojDbKeyRange → Prop} {parts : List (List MojDbKeyRange)}

theorem flatten_staged {before : MojDbKey → MojDbKey → Prop} {keys : List MojDbKey}
    (goods : List.Forall₂ good keys parts) (sorted : keys.Pairwise before)
    (inside : ∀ key here, good key here → here.Pairwise MojDbKeyRange.Staged)
    (across : ∀ left ∈ keys, ∀ right ∈ keys, ∀ leftHere rightHere, before left right →
      good left leftHere → good right rightHere →
      ∀ first ∈ leftHere, ∀ second ∈ rightHere, first.Staged second) :
    parts.flatten.Pairwise MojDbKeyRange.Staged := by
  induction goods with
  | nil => exact List.Pairwise.nil
  | @cons key here keys parts isGood goods ih =>
    obtain ⟨keyBefore, tailSorted⟩ := List.pairwise_cons.mp sorted
    rw [List.flatten_cons, List.pairwise_append]
    refine ⟨inside key here isGood, ?_, ?_⟩
    · exact ih tailSorted fun left leftIn right rightIn =>
        across left (List.mem_cons_of_mem _ leftIn) right (List.mem_cons_of_mem _ rightIn)
    · intro first firstIn second secondIn
      obtain ⟨other, otherIn, secondIn⟩ := List.mem_flatten.mp secondIn
      obtain ⟨place, within, rfl⟩ := List.getElem_of_mem otherIn
      have bound : place < keys.length := goods.length_eq ▸ within
      have otherGood := goods.get bound within
      have placed := List.getElem_mem bound
      exact across key List.mem_cons_self _ (List.mem_cons_of_mem _ placed) here _
        (keyBefore _ placed) isGood otherGood first firstIn second secondIn

theorem mem_flatten_of_forall {keys : List MojDbKey} (goods : List.Forall₂ good keys parts)
    (range : MojDbKeyRange) :
    range ∈ parts.flatten → ∃ key ∈ keys, ∃ here, good key here ∧ range ∈ here := by
  intro member
  obtain ⟨here, hereIn, rangeIn⟩ := List.mem_flatten.mp member
  obtain ⟨place, within, rfl⟩ := List.getElem_of_mem hereIn
  have bound : place < keys.length := goods.length_eq ▸ within
  exact ⟨_, List.getElem_mem bound, _, goods.get bound within, rangeIn⟩

theorem exists_flatten_of_forall {keys : List MojDbKey} (goods : List.Forall₂ good keys parts)
    {key : MojDbKey} (member : key ∈ keys) :
    ∃ here, good key here ∧ ∀ range ∈ here, range ∈ parts.flatten := by
  obtain ⟨place, within, rfl⟩ := List.getElem_of_mem member
  have bound : place < parts.length := goods.length_eq ▸ within
  exact ⟨_, goods.get within bound, fun range rangeIn =>
    List.mem_flatten.mpr ⟨_, List.getElem_mem bound, rangeIn⟩⟩

/-- The key up to which a clause's own value must match. -/
def clauseStem (clause : WhereClause) (key : MojDbKey) : MojDbKey :=
  if clause.lowerOp = .eq then key else dropTerminator key

theorem clauseStem_stem (clause : WhereClause) (key : MojDbKey) :
    StemOf (clauseStem clause key) key := by
  unfold clauseStem
  split_ifs
  · exact Or.inl rfl
  · exact dropTerminator_stem key

theorem clauseStem_append (clause : WhereClause) (front : MojDbKey) {key : MojDbKey}
    (nonempty : key ≠ []) : clauseStem clause (front ++ key) = front ++ clauseStem clause key := by
  unfold clauseStem
  split_ifs
  · rfl
  · exact dropTerminator_append front nonempty

theorem code_ne_nil {code : MojDbKey} (codeIn : code ∈ MojObjectWriter.codes) : code ≠ [] := by
  obtain ⟨obj, rfl⟩ := codeIn
  exact MojObjectWriter.value_ne_nil obj

theorem word_successor_ne_nil {count : Nat} {word : MojDbKey}
    (wordIn : word ∈ Words MojObjectWriter.codes (count + 1)) (rest : MojDbKey) :
    successor (word ++ rest) ≠ [] := by
  obtain ⟨parts, length, partsIn, rfl⟩ := wordIn
  cases parts with
  | nil => simp at length
  | cons code parts =>
    obtain ⟨obj, rfl⟩ := partsIn _ List.mem_cons_self
    obtain ⟨marker, body, shape, known⟩ := MojObjectWriter.value_marker obj
    rw [List.flatten_cons, shape, List.append_assoc, List.cons_append]
    apply successor_ne_nil
    by_contra large
    have top : marker = 255 := by
      have := marker.isLt
      exact Fin.ext (by omega)
    rw [top] at known
    simp [MojObjectWriter.markerType] at known

def Pointwise (clause : WhereClause) : Prop :=
  clause.lowerOp = .eq ∨ clause.lowerOp = .prefixOf ∨ clause.lowerOp = .search

theorem boundsFromKeys_pointwise {clause : WhereClause} (pointwise : Pointwise clause)
    (openAbove : clause.upperOp = .none) {key : MojDbKey} (nonempty : key ≠ [])
    (index groupCount : Nat) :
    ∃ group, boundsFromKeys key key key index groupCount (some clause) =
      .ok [⟨key, successor (clauseStem clause key), group⟩] := by
  rcases pointwise with lowerOp | lowerOp | lowerOp
  · exact ⟨0, by simp [boundsFromKeys, upperBound, lowerOp, openAbove, mojAssert, bind,
      Except.bind, MojDbKey.increment, clauseStem]⟩
  · exact ⟨0, by simp [boundsFromKeys, upperBound, lowerOp, openAbove, mojAssert, bind,
      Except.bind, MojDbKey.increment, clauseStem, nonempty]⟩
  · exact ⟨index % groupCount, by simp [boundsFromKeys, upperBound, lowerOp, openAbove, mojAssert,
      bind, Except.bind, MojDbKey.increment, clauseStem, nonempty]⟩

/-- What a sequence of raw ranges holds among the keys of an index. -/
structure RawExact (count : Nat) (raw : List MojDbKeyRange)
    (selects : MojDbKey → MojDbKey → Prop) : Prop where
  staged : raw.Pairwise MojDbKeyRange.Staged
  bounded : ∀ range ∈ raw, range.upperKey ≠ []
  exact : ∀ front ∈ Words MojObjectWriter.codes count, ∀ code ∈ MojObjectWriter.codes, ∀ rest,
    (∃ range ∈ raw, range.contains (front ++ (code ++ rest))) ↔ selects front code

theorem pointwise_raw {clause : WhereClause} {stack : List KeySet} {vals : KeySet}
    (started : stack ≠ []) (codeSets : CodeSets stack)
    (valCodes : ∀ code ∈ vals, code ∈ MojObjectWriter.codes) (pointwise : Pointwise clause)
    (openAbove : clause.upperOp = .none) (groupCount : Nat) :
    let keys := (MojDbKeyBuilder.keys (stack ++ [vals])).elems
    ∃ raw, boundsFromKeySets groupCount (some clause) 0 keys keys keys = .ok raw ∧
      RawExact stack.length raw fun front code =>
        front ∈ MojDbKeyBuilder.keys stack ∧ ∃ bound ∈ vals, clauseStem clause bound <+: code := by
  intro keys
  have allCodes : CodeSets (stack ++ [vals]) := by
    intro set setIn
    rcases List.mem_append.mp setIn with inStack | last
    · exact codeSets set inStack
    · rw [List.mem_singleton.mp last]
      exact valCodes
  have words : ∀ key ∈ keys, key ∈ Words MojObjectWriter.codes (stack.length + 1) := by
    intro key member
    have word := keys_words allCodes key member
    rwa [List.length_append] at word
  have nonempty : ∀ key ∈ keys, key ≠ [] := by
    rintro _ member rfl
    have bounded := word_successor_ne_nil (words _ member) []
    exact bounded rfl
  obtain ⟨count, lengthEq⟩ : ∃ count, stack.length = count + 1 :=
    Nat.exists_eq_succ_of_ne_zero (by simpa using started)
  have split : ∀ key ∈ keys, ∃ front ∈ MojDbKeyBuilder.keys stack, ∃ bound ∈ vals,
      key = front ++ bound ∧ clauseStem clause key = front ++ clauseStem clause bound := by
    intro key member
    obtain ⟨front, frontIn, bound, boundIn, rfl⟩ := (mem_keys_concat started vals key).mp member
    exact ⟨front, frontIn, bound, boundIn, rfl,
      clauseStem_append clause front (code_ne_nil (valCodes bound boundIn))⟩
  have stemBounded : ∀ key ∈ keys, successor (clauseStem clause key) ≠ [] := by
    intro key member
    obtain ⟨front, frontIn, bound, _, rfl, stemEq⟩ := split key member
    have frontWord := keys_words codeSets front frontIn
    rw [lengthEq] at frontWord
    rw [stemEq]
    exact word_successor_ne_nil frontWord _
  obtain ⟨parts, computed, goods⟩ := boundsFromKeySets_ok groupCount (some clause)
    (fun key here => ∃ group, here = [⟨key, successor (clauseStem clause key), group⟩])
    id id id keys (fun key member index => by
      obtain ⟨group, computed⟩ :=
        boundsFromKeys_pointwise pointwise openAbove (nonempty key member) index groupCount
      exact ⟨_, computed, group, rfl⟩) 0
  rw [List.map_id] at computed
  refine ⟨parts.flatten, computed, ?_, ?_, ?_⟩
  · refine flatten_staged goods (SortedSet.sorted _) ?_ ?_
    · rintro key _ ⟨group, rfl⟩
      exact List.pairwise_singleton _ _
    · rintro left leftIn right rightIn _ _ below ⟨leftGroup, rfl⟩ ⟨rightGroup, rfl⟩ first firstIn
        second secondIn
      rw [List.mem_singleton.mp firstIn, List.mem_singleton.mp secondIn]
      exact stems_staged (MojObjectWriter.codes_prefixFree.words _) (words left leftIn)
        (words right rightIn) below (clauseStem_stem clause left) (clauseStem_stem clause right)
        (stemBounded left leftIn) (stemBounded right rightIn) leftGroup rightGroup
  · intro range member
    obtain ⟨key, keyIn, _, ⟨group, rfl⟩, inHere⟩ := mem_flatten_of_forall goods range member
    rw [List.mem_singleton.mp inHere]
    exact stemBounded key keyIn
  · intro front frontIn code codeIn rest
    constructor
    · rintro ⟨range, member, inside⟩
      obtain ⟨key, keyIn, _, ⟨group, rfl⟩, inHere⟩ := mem_flatten_of_forall goods range member
      rw [List.mem_singleton.mp inHere] at inside
      obtain ⟨other, otherIn, bound, boundIn, rfl, stemEq⟩ := split key keyIn
      rw [stemEq, contains_stem_range (keys_words codeSets other otherIn) frontIn
        (clauseStem_stem clause bound) (valCodes bound boundIn) codeIn rest group] at inside
      obtain ⟨rfl, starts⟩ := inside
      exact ⟨otherIn, bound, boundIn, starts⟩
    · rintro ⟨frontKey, bound, boundIn, starts⟩
      have member : front ++ bound ∈ keys :=
        (mem_keys_concat started vals _).mpr ⟨front, frontKey, bound, boundIn, rfl⟩
      obtain ⟨_, ⟨group, rfl⟩, here⟩ := exists_flatten_of_forall goods member
      refine ⟨_, here _ (List.mem_singleton.mpr rfl), ?_⟩
      rw [clauseStem_append clause front (code_ne_nil (valCodes bound boundIn)),
        contains_stem_range frontIn frontIn (clauseStem_stem clause bound)
          (valCodes bound boundIn) codeIn rest group]
      exact ⟨rfl, starts⟩

theorem inequality_raw (locale : MojDbLocale) {clause : WhereClause} {stack : List KeySet}
    {lower upper : MojDbKey} (started : stack ≠ []) (codeSets : CodeSets stack)
    (accepted : clause.Accepted) (inequality : clause.Inequality)
    (noSubString : clause.lowerOp ≠ .subString)
    (lowerIn : lower ∈ MojObjectWriter.codes) (upperIn : upper ∈ MojObjectWriter.codes)
    (lowerNone : clause.lowerOp = .none → lower = MojDbKey.assign .null none)
    (lowerCode : clause.lowerOp ≠ .none →
      ∀ code, Encodes locale clause.collation clause.lowerVal code ↔ code = lower)
    (upperCode : clause.upperOp ≠ .none →
      ∀ code, Encodes locale clause.collation clause.upperVal code ↔ code = upper)
    (groupCount : Nat) :
    let fronts := (MojDbKeyBuilder.keys stack).elems
    ∃ raw, boundsFromKeySets groupCount (some clause) 0 (fronts.map (· ++ lower))
        (fronts.map (· ++ upper)) fronts = .ok raw ∧
      RawExact stack.length raw fun front code =>
        front ∈ MojDbKeyBuilder.keys stack ∧ clause.Holds locale code := by
  intro fronts
  obtain ⟨count, lengthEq⟩ : ∃ count, stack.length = count + 1 :=
    Nat.exists_eq_succ_of_ne_zero (by simpa using started)
  have words : ∀ front ∈ fronts, front ∈ Words MojObjectWriter.codes stack.length :=
    fun front member => keys_words codeSets front member
  have bounded : ∀ front ∈ fronts, successor front ≠ [] := by
    intro front member
    have word := words front member
    rw [lengthEq] at word
    simpa using word_successor_ne_nil word []
  have free := MojObjectWriter.codes_prefixFree.words stack.length
  obtain ⟨parts, computed, goods⟩ := boundsFromKeySets_ok groupCount (some clause)
    (fun front here => Answers locale front clause here)
    (· ++ lower) (· ++ upper) id fronts (fun front member index =>
      boundsFromKeys_inequality locale accepted inequality noSubString (bounded front member)
        lowerIn upperIn lowerNone lowerCode upperCode index groupCount) 0
  rw [List.map_id] at computed
  refine ⟨parts.flatten, computed, ?_, ?_, ?_⟩
  · refine flatten_staged goods (SortedSet.sorted _) ?_ ?_
    · intro front here answers
      exact answers.ordered.imp Or.inl
    · intro left leftIn right rightIn leftHere rightHere below leftAnswers rightAnswers first
        firstIn second secondIn
      left
      refine (leftAnswers.within first firstIn).precedes (rightAnswers.within second secondIn)
        below ?_
      intro starts
      exact below.ne (free left (words left leftIn) right (words right rightIn) starts)
  · intro range member
    obtain ⟨front, _, here, answers, inHere⟩ := mem_flatten_of_forall goods range member
    exact (answers.within range inHere).bounded
  · intro front frontIn code codeIn rest
    constructor
    · rintro ⟨range, member, inside⟩
      obtain ⟨other, otherIn, here, answers, inHere⟩ := mem_flatten_of_forall goods range member
      have starts := (answers.within range inHere).prefix_of_contains (bounded other otherIn) inside
      have same : other = front := by
        have whole : other ++ [] <+: front ++ (code ++ rest) := by rwa [List.append_nil]
        exact (free.append_prefix_append (words other otherIn) frontIn whole).1
      subst same
      exact ⟨otherIn, (answers.exact code codeIn rest).mp ⟨range, inHere, inside⟩⟩
    · rintro ⟨frontKey, holds⟩
      obtain ⟨here, answers, included⟩ := exists_flatten_of_forall goods frontKey
      obtain ⟨range, inHere, inside⟩ := (answers.exact code codeIn rest).mpr holds
      exact ⟨range, included range inHere, inside⟩

end KeySets

end MojDbQueryPlan

end Db8.Db
