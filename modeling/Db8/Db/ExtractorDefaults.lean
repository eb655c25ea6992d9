import Db8.Db.Extractor

/-!
# Defaults beside stored values

A default is encoded when the index is configured and put among the keys as it is; a stored value is
collated and broken into words when it is extracted. The two agree on every value that is not a
string. A path is followed here to the spots it ends in, so that the object as it is can be compared
with the object that has the property set to the default wherever the path leads to no value.
-/

set_option autoImplicit false

namespace Db8.Db.MojDbPropExtractor

open Db8.Bytes
open Db8.Core

section Spots

/-- Where following a path ends: at a value, at a named component an object does not have, or at a
wildcard or an array that has nothing to follow. -/
inductive Spot where
  | found (val : MojObject)
  | absent
  | empty
deriving DecidableEq

def spots : List MojString → MojObject → List Spot
  | [], val => [.found val]
  | propKey :: rest, obj =>
    if propKey = wildcardKey then
      if obj.map = [] then [.empty] else (obj.map.map Prod.snd).flatMap (spots rest)
    else
      match obj.get propKey with
      | none => [.absent]
      | some val =>
        if elements val = [] ∧ rest ≠ [] then [.empty] else (elements val).flatMap (spots rest)

def Missing (path : List MojString) (obj : MojObject) : Prop :=
  ∀ val, .found val ∉ spots path obj

variable (name : MojString) (dflt : MojObject)

/-- The rest of a path made anew, with the default at its end; under a wildcard any name will do. -/
def place : List MojString → MojObject
  | [] => dflt
  | propKey :: rest =>
    .object [(if propKey = wildcardKey then name else propKey, place rest)]

/-- The property set to the default wherever its path leads to no value. -/
def setDefault : List MojString → MojObject → MojObject
  | [], val => val
  | propKey :: rest, obj =>
    if propKey = wildcardKey then
      if obj.map = [] then obj.put name (place name dflt rest)
      else .object (obj.map.map fun prop => (prop.1, setDefault rest prop.2))
    else
      match obj.get propKey with
      | none => obj.put propKey (place name dflt rest)
      | some (.array vals) =>
        if vals = [] ∧ rest ≠ [] then obj.put propKey (.array [place name dflt rest])
        else obj.put propKey (.array (vals.map (setDefault rest)))
      | some val => obj.put propKey (setDefault rest val)

/-- What is extracted of a default that is set: under a wildcard an array is not taken apart. -/
def placed (path : List MojString) : List MojObject :=
  if path.getLast? = some wildcardKey then [dflt] else elements dflt

variable (extractor : MojDbPropExtractor) (locale : MojDbLocale)

def readSpot (valsOut : KeySet) : Spot → KeySet
  | .found val => extractor.leafVals locale valsOut val
  | .absent => valsOut.putAll extractor.default
  | .empty => valsOut

def readSet (path : List MojString) (valsOut : KeySet) : Spot → KeySet
  | .found val => extractor.leafVals locale valsOut val
  | .absent | .empty => (placed dflt path).foldl (extractor.leafVals locale) valsOut

/-- `handleVal` with the components of the path that are left. -/
def handleVal (rest : List MojString) (valsOut : KeySet) (val : MojObject) : KeySet :=
  match rest with
  | [] => extractor.leafVals locale valsOut val
  | _ :: _ => extractor.valsImpl locale rest val valsOut

variable {name dflt extractor locale}

theorem valsImpl_cons (propKey : MojString) (rest : List MojString) (obj : MojObject)
    (valsOut : KeySet) :
    extractor.valsImpl locale (propKey :: rest) obj valsOut =
      if propKey = wildcardKey then
        (obj.map.map Prod.snd).foldl (handleVal extractor locale rest) valsOut
      else
        match obj.get propKey with
        | none => valsOut.putAll extractor.default
        | some val => (elements val).foldl (handleVal extractor locale rest) valsOut := by
  cases rest with
  | nil => rfl
  | cons next rest => rfl

theorem handleVal_eq_spots (path : List MojString) (valsOut : KeySet) (val : MojObject) :
    handleVal extractor locale path valsOut val =
      (spots path val).foldl (readSpot extractor locale) valsOut := by
  induction path generalizing valsOut val with
  | nil => rfl
  | cons propKey rest ih =>
    have steps : handleVal extractor locale rest =
        fun valsOut val => (spots rest val).foldl (readSpot extractor locale) valsOut := by
      funext valsOut val
      exact ih valsOut val
    rw [handleVal, valsImpl_cons, spots, steps]
    split_ifs with wild bare
    · rw [bare]
      rfl
    · rw [List.foldl_flatMap]
    · cases val.get propKey with
      | none => rfl
      | some inner =>
        simp only []
        split_ifs with nothing
        · rw [nothing.1]
          rfl
        · rw [List.foldl_flatMap]

theorem elements_place {rest : List MojString} (more : rest ≠ []) :
    elements (place name dflt rest) = [place name dflt rest] := by
  cases rest with
  | nil => exact absurd rfl more
  | cons next rest => rfl

theorem placed_cons (propKey : MojString) {rest : List MojString} (more : rest ≠ []) :
    placed dflt (propKey :: rest) = placed dflt rest := by
  unfold placed
  rw [List.getLast?_cons_of_ne_nil more]

theorem readSet_cons (propKey : MojString) {rest : List MojString} (more : rest ≠ []) :
    readSet dflt extractor locale (propKey :: rest) = readSet dflt extractor locale rest := by
  funext valsOut spot
  unfold readSet
  rw [placed_cons propKey more]

/-- A path that is made anew leads to the default: what is extracted of it where a wildcard or a named
component of an object holds it. -/
theorem handleVal_place (propKey : MojString) (rest : List MojString) (valsOut : KeySet) :
    ((if propKey = wildcardKey then [place name dflt rest]
      else elements (place name dflt rest)).foldl (handleVal extractor locale rest) valsOut) =
      (placed dflt (propKey :: rest)).foldl (extractor.leafVals locale) valsOut := by
  induction rest generalizing propKey valsOut with
  | nil =>
    unfold placed
    by_cases wild : propKey = wildcardKey
    · simp only [wild, if_true, List.getLast?_singleton, place]
      rfl
    · simp only [wild, if_false, List.getLast?_singleton, place, Option.some.injEq]
      rfl
  | cons next rest ih =>
    rw [elements_place (List.cons_ne_nil next rest), ite_self, List.foldl_cons, List.foldl_nil,
      placed_cons propKey (List.cons_ne_nil next rest), ← ih next valsOut, handleVal, valsImpl_cons,
      place]
    by_cases wild : next = wildcardKey
    · simp only [if_pos wild]
      rfl
    · simp only [if_neg wild]
      simp [MojObject.get, MojObject.find, MojObject.map]

theorem setDefault_object (propKey : MojString) (rest : List MojString) (obj : MojObject) :
    ∃ props, setDefault name dflt (propKey :: rest) obj = .object props := by
  rw [setDefault]
  split
  · split
    · exact ⟨_, rfl⟩
    · exact ⟨_, rfl⟩
  · split
    · exact ⟨_, rfl⟩
    · split
      · exact ⟨_, rfl⟩
      · exact ⟨_, rfl⟩
    · exact ⟨_, rfl⟩

theorem elements_setDefault (rest : List MojString) {val : MojObject}
    (plain : ∀ vals, val ≠ .array vals) :
    elements val = [val] ∧ elements (setDefault name dflt rest val) = [setDefault name dflt rest val] := by
  have single : ∀ {other : MojObject}, (∀ vals, other ≠ .array vals) → elements other = [other] := by
    intro other notArray
    cases other with
    | array vals => exact absurd rfl (notArray vals)
    | _ => rfl
  refine ⟨single plain, ?_⟩
  cases rest with
  | nil => exact single plain
  | cons propKey rest =>
    rcases @setDefault_object name dflt propKey rest val with ⟨props, shape⟩
    rw [shape]
    rfl

/-- Following a path through the object with the default set reads the default in the spots where it
led to no value. -/
theorem handleVal_setDefault (path : List MojString) (valsOut : KeySet) (val : MojObject) :
    handleVal extractor locale path valsOut (setDefault name dflt path val) =
      (spots path val).foldl (readSet dflt extractor locale path) valsOut := by
  induction path generalizing valsOut val with
  | nil => rfl
  | cons propKey rest ih =>
    have steps : (fun valsOut val => handleVal extractor locale rest valsOut
          (setDefault name dflt rest val)) =
        fun valsOut val => (spots rest val).foldl
          (readSet dflt extractor locale (propKey :: rest)) valsOut := by
      funext valsOut val
      cases rest with
      | nil => rfl
      | cons next rest => rw [ih, readSet_cons propKey (List.cons_ne_nil next rest)]
    have fresh := @handleVal_place name dflt extractor locale propKey rest valsOut
    rw [handleVal, valsImpl_cons, spots, setDefault]
    by_cases wild : propKey = wildcardKey
    · simp only [if_pos wild] at fresh ⊢
      by_cases bare : val.map = []
      · rw [if_pos bare, if_pos bare, MojObject.put, bare]
        exact fresh
      · rw [if_neg bare, if_neg bare, List.foldl_flatMap, ← steps, MojObject.map, List.map_map,
          List.foldl_map, List.foldl_map]
        rfl
    · simp only [if_neg wild] at fresh ⊢
      cases held : val.get propKey with
      | none =>
        simp only [MojObject.get_put, if_true]
        exact fresh
      | some inner =>
        by_cases isArray : ∃ vals, inner = .array vals
        · rcases isArray with ⟨vals, rfl⟩
          by_cases nothing : elements (.array vals) = [] ∧ rest ≠ []
          · have bare : vals = [] ∧ rest ≠ [] := nothing
            rw [elements_place nothing.2] at fresh
            simp only [if_pos nothing, if_pos bare, MojObject.get_put, if_true]
            exact fresh
          · have more : ¬ (vals = [] ∧ rest ≠ []) := nothing
            simp only [if_neg nothing, if_neg more, MojObject.get_put, if_true]
            rw [List.foldl_flatMap, ← steps]
            exact List.foldl_map
        · have plain : ∀ vals, inner ≠ .array vals := fun vals same => isArray ⟨vals, same⟩
          rcases @elements_setDefault name dflt rest inner plain with ⟨one, filled⟩
          have matched : (match some inner with
              | none => val.put propKey (place name dflt rest)
              | some (.array vals) =>
                if vals = [] ∧ rest ≠ [] then
                  val.put propKey (.array [place name dflt rest])
                else val.put propKey (.array (vals.map (setDefault name dflt rest)))
              | some val' => val.put propKey (setDefault name dflt rest val')) =
              val.put propKey (setDefault name dflt rest inner) := by
            cases inner with
            | array vals => exact absurd rfl (plain vals)
            | _ => rfl
          have more : ¬ (elements inner = [] ∧ rest ≠ []) := by
            rw [one]
            simp
          rw [matched]
          simp only [MojObject.get_put, if_true, if_neg more]
          rw [List.foldl_flatMap, ← steps, one, filled]
          rfl

end Spots

section Keys

variable (extractor : MojDbPropExtractor) (locale : MojDbLocale)

def storedTexts (text : MojString) : List MojString :=
  (if extractor.tokenized then locale.words text else [text]).map fun tok =>
    match locale.collatorOf extractor.collation with
    | none => tok
    | some coll => coll.sortKey tok

def leafKeys : MojObject → List MojDbKey
  | .string text => (extractor.storedTexts locale text).map fun tok => MojDbKey.assign (.string tok) none
  | val => [MojDbKey.assign val none]

variable {extractor locale}

theorem leafVals_eq (valsOut : KeySet) (val : MojObject) :
    extractor.leafVals locale valsOut val = valsOut.putAll (extractor.leafKeys locale val) := by
  have collated : ∀ tok, MojDbKey.assign (.string tok) (locale.collatorOf extractor.collation) =
      MojDbKey.assign (.string (match locale.collatorOf extractor.collation with
        | none => tok
        | some coll => coll.sortKey tok)) none := by
    intro tok
    cases locale.collatorOf extractor.collation with
    | none => rfl
    | some coll => rfl
  have plain : (∀ text, val ≠ .string text) →
      MojDbKey.assign val (locale.collatorOf extractor.collation) = MojDbKey.assign val none := by
    intro notString
    unfold MojDbKey.assign MojDbKey.collated
    cases val with
    | string text => exact absurd rfl (notString text)
    | _ => cases locale.collatorOf extractor.collation <;> rfl
  unfold leafVals
  cases val with
  | string text =>
    rw [leafKeys, storedTexts, List.map_map]
    cases extractor.tokenized with
    | true =>
      apply congrArg valsOut.putAll
      apply List.map_congr_left
      intro tok _
      exact collated tok
    | false => exact congrArg valsOut.put (collated text)
  | _ =>
    have kept := congrArg valsOut.put (plain (by intro text same; cases same))
    cases extractor.tokenized <;> exact kept

theorem mem_foldl_iff {ι : Type} {adds : KeySet → ι → KeySet} {stands : ι → MojDbKey → Prop}
    (one : ∀ valsOut item key, key ∈ adds valsOut item ↔ key ∈ valsOut ∨ stands item key)
    (items : List ι) (valsOut : KeySet) (key : MojDbKey) :
    key ∈ items.foldl adds valsOut ↔ key ∈ valsOut ∨ ∃ item ∈ items, stands item key := by
  induction items generalizing valsOut with
  | nil => simp
  | cons item items ih =>
    rw [List.foldl_cons, ih, one, or_assoc]
    apply or_congr_right
    simp only [List.mem_cons, exists_eq_or_imp]

theorem mem_leaves (vals : List MojObject) (valsOut : KeySet) (key : MojDbKey) :
    key ∈ vals.foldl (extractor.leafVals locale) valsOut ↔
      key ∈ valsOut ∨ ∃ val ∈ vals, key ∈ extractor.leafKeys locale val := by
  apply mem_foldl_iff
  intro valsOut val key
  rw [leafVals_eq, SortedSet.mem_putAll, or_comm]

variable {name : MojString} {dflt obj : MojObject}

theorem vals_eq (valsOut : KeySet) (val : MojObject) :
    extractor.vals locale val valsOut = handleVal extractor locale extractor.prop valsOut val := by
  unfold vals handleVal
  cases path : extractor.prop with
  | nil => exact absurd path extractor.path_ne_nil
  | cons propKey rest => rfl

/-- Where the path leads to no value, the default is extracted as it was encoded, if a named component
is absent. -/
theorem mem_vals_missing (missing : Missing extractor.prop obj) (key : MojDbKey) :
    key ∈ extractor.vals locale obj SortedSet.empty ↔
      Spot.absent ∈ spots extractor.prop obj ∧ key ∈ extractor.default := by
  have read : ∀ (valsOut : KeySet) (spot : Spot) (key : MojDbKey),
      key ∈ readSpot extractor locale valsOut spot ↔ key ∈ valsOut ∨
        (match spot with
          | .found val => key ∈ extractor.leafKeys locale val
          | .absent => key ∈ extractor.default
          | .empty => False) := by
    intro valsOut spot key
    cases spot with
    | found val => rw [readSpot, leafVals_eq, SortedSet.mem_putAll, or_comm]
    | absent => rw [readSpot, SortedSet.mem_putAll, or_comm]
    | empty => rw [readSpot, or_false]
  rw [vals_eq, handleVal_eq_spots, mem_foldl_iff read]
  constructor
  · intro member
    rcases member.resolve_left (SortedSet.not_mem_empty key) with ⟨spot, there, stands⟩
    cases spot with
    | found val => exact absurd there (missing val)
    | absent => exact ⟨there, stands⟩
    | empty => exact stands.elim
  · rintro ⟨there, member⟩
    exact Or.inr ⟨.absent, there, member⟩

theorem mem_vals_setDefault (missing : Missing extractor.prop obj) (key : MojDbKey) :
    key ∈ extractor.vals locale (setDefault name dflt extractor.prop obj) SortedSet.empty ↔
      (Spot.absent ∈ spots extractor.prop obj ∨ Spot.empty ∈ spots extractor.prop obj) ∧
        ∃ val ∈ placed dflt extractor.prop, key ∈ extractor.leafKeys locale val := by
  have read : ∀ (valsOut : KeySet) (spot : Spot) (key : MojDbKey),
      key ∈ readSet dflt extractor locale extractor.prop valsOut spot ↔ key ∈ valsOut ∨
        (match spot with
          | .found val => key ∈ extractor.leafKeys locale val
          | _ => ∃ val ∈ placed dflt extractor.prop, key ∈ extractor.leafKeys locale val) := by
    intro valsOut spot key
    cases spot with
    | found val => rw [readSet, leafVals_eq, SortedSet.mem_putAll, or_comm]
    | absent => rw [readSet, mem_leaves]
    | empty => rw [readSet, mem_leaves]
  rw [vals_eq, handleVal_setDefault, mem_foldl_iff read]
  constructor
  · intro member
    rcases member.resolve_left (SortedSet.not_mem_empty key) with ⟨spot, there, stands⟩
    cases spot with
    | found val => exact absurd there (missing val)
    | absent => exact ⟨Or.inl there, stands⟩
    | empty => exact ⟨Or.inr there, stands⟩
  · rintro ⟨absent | empty, stands⟩
    · exact Or.inr ⟨.absent, absent, stands⟩
    · exact Or.inr ⟨.empty, empty, stands⟩

end Keys

section AsStored

variable (extractor : MojDbPropExtractor) (locale : MojDbLocale) (dflt : MojObject)

/-- The strings of the default are what collating and breaking them into words makes of them. -/
def SameTexts : Prop :=
  ∀ text, .string text ∈ elements dflt ↔
    ∃ source, .string source ∈ elements dflt ∧ text ∈ extractor.storedTexts locale source

/-- The default is encoded as it would be stored: a wildcard at the end would keep an array whole. -/
def EncodedAsStored : Prop :=
  (extractor.prop.getLast? = some wildcardKey → ∀ vals, dflt ≠ .array vals) ∧
    extractor.SameTexts locale dflt

def NothingStored : Prop :=
  ∀ val ∈ placed dflt extractor.prop, ∃ text, val = .string text ∧ extractor.tokenized = true ∧
    locale.words text = []

variable {extractor locale dflt}

theorem leafKeys_eq_nil_iff (val : MojObject) : extractor.leafKeys locale val = [] ↔
    ∃ text, val = .string text ∧ extractor.tokenized = true ∧ locale.words text = [] := by
  cases val with
  | string text =>
    rw [leafKeys, storedTexts, List.map_eq_nil_iff, List.map_eq_nil_iff]
    cases extractor.tokenized <;> simp
  | _ => simp [leafKeys]

theorem mem_leafKeys_string {text : MojString} {key : MojDbKey} :
    key ∈ extractor.leafKeys locale (.string text) ↔
      ∃ tok ∈ extractor.storedTexts locale text, key = MojObjectWriter.value (.string tok) := by
  rw [leafKeys, List.mem_map]
  constructor
  · rintro ⟨tok, there, rfl⟩
    exact ⟨tok, there, rfl⟩
  · rintro ⟨tok, there, rfl⟩
    exact ⟨tok, there, rfl⟩

theorem leafKeys_plain {val : MojObject} (plain : ∀ text, val ≠ .string text) :
    extractor.leafKeys locale val = [MojObjectWriter.value val] := by
  cases val with
  | string text => exact absurd rfl (plain text)
  | _ => rfl

theorem codes_eq_leafKeys_iff (vals : List MojObject) :
    (∀ key : MojDbKey, (∃ val ∈ vals, key = MojObjectWriter.value val) ↔
      ∃ val ∈ vals, key ∈ extractor.leafKeys locale val) ↔
    ∀ text, .string text ∈ vals ↔
      ∃ source, .string source ∈ vals ∧ text ∈ extractor.storedTexts locale source := by
  constructor
  · intro same text
    constructor
    · intro there
      rcases (same _).mp ⟨.string text, there, rfl⟩ with ⟨val, member, stored⟩
      by_cases isString : ∃ source, val = .string source
      · rcases isString with ⟨source, rfl⟩
        rcases mem_leafKeys_string.mp stored with ⟨tok, made, equal⟩
        cases MojObjectWriter.value_injective equal
        exact ⟨source, member, made⟩
      · have plain : ∀ source, val ≠ .string source := fun source is => isString ⟨source, is⟩
        rw [leafKeys_plain plain, List.mem_singleton] at stored
        exact absurd (MojObjectWriter.value_injective stored).symm (plain text)
    · rintro ⟨source, there, made⟩
      have stored := mem_leafKeys_string.mpr ⟨text, made, rfl⟩
      rcases (same _).mpr ⟨.string source, there, stored⟩ with ⟨val, member, equal⟩
      rw [MojObjectWriter.value_injective equal]
      exact member
  · intro same key
    constructor
    · rintro ⟨val, there, rfl⟩
      by_cases isString : ∃ text, val = .string text
      · rcases isString with ⟨text, rfl⟩
        rcases (same text).mp there with ⟨source, member, made⟩
        exact ⟨.string source, member, mem_leafKeys_string.mpr ⟨text, made, rfl⟩⟩
      · refine ⟨val, there, ?_⟩
        rw [leafKeys_plain fun text is => isString ⟨text, is⟩]
        exact List.mem_singleton_self _
    · rintro ⟨val, there, stored⟩
      by_cases isString : ∃ text, val = .string text
      · rcases isString with ⟨source, rfl⟩
        rcases mem_leafKeys_string.mp stored with ⟨tok, made, rfl⟩
        exact ⟨.string tok, (same tok).mpr ⟨source, there, made⟩, rfl⟩
      · rw [leafKeys_plain fun text is => isString ⟨text, is⟩, List.mem_singleton] at stored
        exact ⟨val, there, stored⟩

theorem mem_default_iff (given : extractor.defaultVal = some dflt) (key : MojDbKey) :
    key ∈ extractor.default ↔ ∃ val ∈ elements dflt, key = MojObjectWriter.value val := by
  unfold default
  rw [given]
  simp only [List.mem_map, MojDbKey.assign, MojDbKey.collated]
  constructor
  · rintro ⟨val, there, rfl⟩
    exact ⟨val, there, rfl⟩
  · rintro ⟨val, there, rfl⟩
    exact ⟨val, there, rfl⟩

theorem default_eq_stored_iff (given : extractor.defaultVal = some dflt) :
    (∀ key, key ∈ extractor.default ↔
      ∃ val ∈ placed dflt extractor.prop, key ∈ extractor.leafKeys locale val) ↔
    extractor.EncodedAsStored locale dflt := by
  simp only [mem_default_iff given]
  unfold EncodedAsStored SameTexts
  rw [← codes_eq_leafKeys_iff]
  by_cases whole : extractor.prop.getLast? = some wildcardKey ∧ ∃ vals, dflt = .array vals
  · rcases whole with ⟨wild, vals, rfl⟩
    constructor
    · intro same
      -- the array would be stored under its own code, and no value is one of its own elements
      have kept : placed (.array vals) extractor.prop = [.array vals] := by
        unfold placed
        rw [if_pos wild]
      rcases (same (MojObjectWriter.value (.array vals))).mpr
        ⟨.array vals, by rw [kept]; exact List.mem_singleton_self _, List.mem_singleton_self _⟩ with
        ⟨val, member, equal⟩
      have inside : val ∈ vals := member
      rw [← MojObjectWriter.value_injective equal] at inside
      have smaller := List.sizeOf_lt_of_mem inside
      rw [MojObject.array.sizeOf_spec] at smaller
      omega
    · intro both
      exact absurd rfl (both.1 wild vals)
  · have apart : placed dflt extractor.prop = elements dflt := by
      unfold placed
      split
      · rename_i wild
        cases dflt with
        | array vals => exact absurd ⟨wild, vals, rfl⟩ whole
        | _ => rfl
      · rfl
    rw [apart]
    apply Iff.symm
    apply and_iff_right
    intro wild vals isArray
    exact whole ⟨wild, vals, isArray⟩

end AsStored

/-- A default is extracted like a stored value just if it is encoded as it would be stored; where no
named component is absent it is not extracted, and then just if it would not be stored either. -/
theorem default_like_stored_iff (extractor : MojDbPropExtractor) (locale : MojDbLocale)
    (dflt : MojObject) (given : extractor.defaultVal = some dflt) (name : MojString)
    (obj : MojObject) (missing : Missing extractor.prop obj) :
    extractor.vals locale obj SortedSet.empty =
        extractor.vals locale (setDefault name dflt extractor.prop obj) SortedSet.empty ↔
      (Spot.absent ∈ spots extractor.prop obj → extractor.EncodedAsStored locale dflt) ∧
        (Spot.absent ∉ spots extractor.prop obj → Spot.empty ∈ spots extractor.prop obj →
          extractor.NothingStored locale dflt) := by
  have keys : extractor.vals locale obj SortedSet.empty =
      extractor.vals locale (setDefault name dflt extractor.prop obj) SortedSet.empty ↔
      ∀ key, Spot.absent ∈ spots extractor.prop obj ∧ key ∈ extractor.default ↔
        (Spot.absent ∈ spots extractor.prop obj ∨ Spot.empty ∈ spots extractor.prop obj) ∧
          ∃ val ∈ placed dflt extractor.prop, key ∈ extractor.leafKeys locale val := by
    rw [SortedSet.ext_iff]
    apply forall_congr'
    intro key
    rw [mem_vals_missing missing, mem_vals_setDefault missing]
  rw [keys]
  by_cases absent : Spot.absent ∈ spots extractor.prop obj
  · simp only [absent, true_and, true_or, true_implies, not_true, false_implies, and_true]
    exact default_eq_stored_iff given
  · simp only [absent, false_and, false_or, false_implies, not_false_iff, true_implies, true_and]
    constructor
    · intro nothing empty val there
      apply (leafKeys_eq_nil_iff val).mp
      apply List.eq_nil_iff_forall_not_mem.mpr
      intro key stored
      exact (nothing key).mpr ⟨empty, val, there, stored⟩
    · intro nothing key
      constructor
      · intro no
        exact no.elim
      · rintro ⟨empty, val, there, stored⟩
        rw [(leafKeys_eq_nil_iff val).mpr (nothing empty val there)] at stored
        cases stored

/-- A locale whose collation and words both begin with a mark. -/
def markedLocale : MojDbLocale where
  collator := fun _ => ⟨fun text => chars ['s'] ++ text⟩
  words := fun text => [chars ['w'] ++ text]
  json := fun _ => []

def sampleExtractor (dflt : MojObject) : MojDbPropExtractor where
  name := chars ['a', '.', 'b']
  collation := .primary
  defaultVal := some dflt
  tokenized := true
  path_ne_nil := path_a_b

theorem missing_sample (dflt : MojObject) : Missing (sampleExtractor dflt).prop (.object []) := by
  intro val there
  cases List.mem_singleton.mp there

theorem default_like_stored_sample :
    (sampleExtractor (.array [.int 5, .bool true])).vals markedLocale (.object []) SortedSet.empty =
      (sampleExtractor (.array [.int 5, .bool true])).vals markedLocale
        (.object [(chars ['a'], .object [(chars ['b'], .array [.int 5, .bool true])])])
        SortedSet.empty := by
  have same := default_like_stored_iff (sampleExtractor (.array [.int 5, .bool true])) markedLocale
    (.array [.int 5, .bool true]) rfl [] (.object []) (missing_sample _)
  apply same.mpr
  refine ⟨?_, fun present => absurd (List.mem_singleton_self _) present⟩
  intro _
  refine ⟨fun wild => absurd wild (by decide), ?_⟩
  intro text
  constructor
  · intro there
    simp [elements] at there
  · rintro ⟨source, there, _⟩
    simp [elements] at there

/-- A string is a default as it stands, and is stored by its words and their collation. -/
theorem default_string_raw : ¬ ∀ (extractor : MojDbPropExtractor) (locale : MojDbLocale)
    (dflt : MojObject), extractor.defaultVal = some dflt → ∀ name obj, Missing extractor.prop obj →
    extractor.vals locale obj SortedSet.empty =
      extractor.vals locale (setDefault name dflt extractor.prop obj) SortedSet.empty := by
  intro all
  have same := all (sampleExtractor (.string (chars ['x']))) markedLocale (.string (chars ['x'])) rfl
    [] (.object []) (missing_sample _)
  exact absurd (congrArg SortedSet.elems same) (by decide +kernel)

end Db8.Db.MojDbPropExtractor
