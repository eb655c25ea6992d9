import Db8.Db.Index
import Db8.Steps

/-!
# The locale of an index

An index keeps the name of its locale for the plans of queries, and every extractor has opened its
tokenizer and its collator for a locale. A change of the locale reaches an extractor only by way of
its collation: one that breaks words without collating, or is included in one that does not collate,
stays with the locale it was configured with. What a rebuilt index holds is what the query over its
kind finds once its own keys are dropped.
-/

set_option autoImplicit false

namespace Db8.Db.IndexLocale

open Db8.Bytes
open Db8.Core

section Extractors

/-- A `MojDbPropExtractor` with the locales its tokenizer and its collator were opened for. -/
structure OpenedProp where
  extractor : MojDbPropExtractor
  tokenizer : Option MojString
  collator : Option MojString
  tokenizes : tokenizer.isSome = extractor.tokenized
  collates : collator.isSome = decide (extractor.collation ≠ .invalid)

namespace OpenedProp

/-- `fromObjectImpl`, as far as the locale goes; an included extractor shares the tokenizer of the
defaults, which are configured with the same locale. -/
def configure (locale : MojString) (extractor : MojDbPropExtractor) : OpenedProp where
  extractor := extractor
  tokenizer := if extractor.tokenized then some locale else none
  collator := if extractor.collation ≠ .invalid then some locale else none
  tokenizes := by cases extractor.tokenized <;> rfl
  collates := by by_cases collated : extractor.collation = .invalid <;> simp [collated]

def updateLocale (locale : MojString) (prop : OpenedProp) : OpenedProp :=
  if collated : prop.extractor.collation ≠ .invalid then
    { prop with
      tokenizer := prop.tokenizer.map fun _ => locale
      collator := some locale
      tokenizes := by rw [Option.isSome_map, prop.tokenizes]
      collates := by simp [collated] }
  else prop

def opened (prop : OpenedProp) : List MojString := prop.tokenizer.toList ++ prop.collator.toList

def platform (icu : MojString → MojDbLocale) (prop : OpenedProp) : MojDbLocale where
  collator := (icu (prop.collator.getD [])).collator
  words := (icu (prop.tokenizer.getD [])).words
  json := (icu []).json

def vals (icu : MojString → MojDbLocale) (prop : OpenedProp) (obj : MojObject) (valsOut : KeySet) :
    KeySet :=
  prop.extractor.vals (prop.platform icu) obj valsOut

end OpenedProp

inductive OpenedExtractor where
  | prop (part : OpenedProp)
  | multi (name : MojString) (collation : MojDbCollationStrength) (extractors : List OpenedProp)

namespace OpenedExtractor

def configure (locale : MojString) : MojDbExtractor → OpenedExtractor
  | .prop extractor => .prop (OpenedProp.configure locale extractor)
  | .multi name collation extractors =>
    .multi name collation (extractors.map (OpenedProp.configure locale))

def definition : OpenedExtractor → MojDbExtractor
  | .prop part => .prop part.extractor
  | .multi name collation extractors =>
    .multi name collation (extractors.map OpenedProp.extractor)

def collation (extractor : OpenedExtractor) : MojDbCollationStrength := extractor.definition.collation

def updateLocale (locale : MojString) : OpenedExtractor → OpenedExtractor
  | .prop part => .prop (part.updateLocale locale)
  | .multi name collation extractors =>
    .multi name collation (extractors.map (OpenedProp.updateLocale locale))

def parts : OpenedExtractor → List OpenedProp
  | .prop part => [part]
  | .multi _ _ extractors => extractors

def vals (icu : MojString → MojDbLocale) (extractor : OpenedExtractor) (obj : MojObject) : KeySet :=
  extractor.parts.foldl (fun valsOut part => part.vals icu obj valsOut) SortedSet.empty

end OpenedExtractor

end Extractors

section Index

/-- An open index with its extractors as they are; `definition` is what it was configured with. -/
structure OpenedIndex where
  definition : MojDbIndex
  locale : MojString
  props : List OpenedExtractor
  defined : props.map OpenedExtractor.definition = definition.props

/-- What an index finds around it: what is opened for the name of a locale, the objects of its kind,
the id of the index a query over the kind without clauses goes through, and which object a key of
that index leads to. -/
structure Surroundings where
  icu : MojString → MojDbLocale
  objs : List MojObject
  answering : MojObject
  leads : MojDbKey → MojObject → Bool

namespace Surroundings

/-- The objects a query over the kind finds through the stored keys. -/
def find (around : Surroundings) (stored : KeySet) : List MojObject :=
  around.objs.filter fun obj => stored.elems.any fun key =>
    decide (MojDbKey.assign around.answering none <+: key) && around.leads key obj

end Surroundings

namespace OpenedIndex

variable (icu : MojString → MojDbLocale) (index : OpenedIndex)

def getKeys (obj : MojObject) : KeySet :=
  MojDbKeyBuilder.keys (index.definition.idSet :: index.props.map fun prop => prop.vals icu obj)

/-- The locale `MojDbQueryPlan::init` takes over, for its collators and its tokenizer. -/
def planLocale : MojString := index.locale

def planned : MojDbIndex := { index.definition with locale := icu index.planLocale }

def haveCollate : Bool := index.props.any fun prop => decide (prop.collation ≠ .invalid)

/-- `update` of a new object. -/
def insert (stored : KeySet) (obj : MojObject) : KeySet :=
  if index.definition.includeObj (some obj) then stored.putAll (index.getKeys icu obj).elems
  else stored

/-- `MojDbSandwichIndex::drop`: all indexes of the shard have their keys in one database. -/
def drop (stored : KeySet) : KeySet :=
  stored.keep fun key => decide (¬ MojDbKey.assign index.definition.id none <+: key)

def build (around : Surroundings) (stored : KeySet) : KeySet :=
  (around.find stored).foldl (index.insert around.icu) stored

end OpenedIndex

theorem definition_updateLocale (locale : MojString) (extractor : OpenedExtractor) :
    (extractor.updateLocale locale).definition = extractor.definition := by
  have kept : ∀ prop : OpenedProp, (prop.updateLocale locale).extractor = prop.extractor := by
    intro prop
    unfold OpenedProp.updateLocale
    split <;> rfl
  cases extractor with
  | prop part => exact congrArg MojDbExtractor.prop (kept part)
  | multi name collation extractors =>
    simp only [OpenedExtractor.updateLocale, OpenedExtractor.definition, List.map_map]
    apply congrArg (MojDbExtractor.multi name collation)
    apply List.map_congr_left
    intro prop _
    exact kept prop

/-- The step of `updateLocale` that an extractor is skipped by which has no collation itself. -/
def relocate (locale : MojString) (extractor : OpenedExtractor) : OpenedExtractor :=
  if extractor.collation ≠ .invalid then extractor.updateLocale locale else extractor

theorem definition_relocate (locale : MojString) (extractor : OpenedExtractor) :
    (relocate locale extractor).definition = extractor.definition := by
  unfold relocate
  split
  · exact definition_updateLocale locale extractor
  · rfl

namespace OpenedIndex

def relocated (locale : MojString) (index : OpenedIndex) : OpenedIndex where
  definition := index.definition
  locale := locale
  props := index.props.map (relocate locale)
  defined := by
    rw [← index.defined, List.map_map]
    apply List.map_congr_left
    intro extractor _
    exact definition_relocate locale extractor

/-- `updateLocale`: the index with its stored keys, rebuilt where some property collates. -/
def updateLocale (around : Surroundings) (locale : MojString) (index : OpenedIndex)
    (stored : KeySet) : OpenedIndex × KeySet :=
  let updated := index.relocated locale
  (updated, if index.haveCollate then updated.build around (index.drop stored) else stored)

def configure (locale : MojString) (definition : MojDbIndex) : OpenedIndex where
  definition := definition
  locale := locale
  props := definition.props.map (OpenedExtractor.configure locale)
  defined := by
    rw [List.map_map]
    conv_rhs => rw [← List.map_id definition.props]
    apply List.map_congr_left
    intro extractor _
    cases extractor with
    | prop extractor => rfl
    | multi name collation extractors =>
      apply congrArg (MojDbExtractor.multi name collation)
      rw [List.map_map]
      exact List.map_id' extractors

end OpenedIndex

end Index

section Requests

/-- The index in its database: the locale the database has stored, and the stored keys of the shard. -/
structure System where
  dbLocale : MojString
  index : OpenedIndex
  stored : KeySet

def opened (definition : MojDbIndex) (locale : MojString) (stored : KeySet) : System :=
  ⟨locale, OpenedIndex.configure locale definition, stored⟩

/-- A call of `MojDb::updateLocale`; it fails where the platform, the store or another index does. -/
structure Request where
  locale : MojString
  fails : Bool

/-- A failed request is aborted and the kinds are opened again with the locale that is stored. -/
def request (around : Surroundings) (req : Request) (sys : System) : System :=
  if req.fails then
    { sys with index := OpenedIndex.configure sys.dbLocale sys.index.definition }
  else if sys.dbLocale ≠ req.locale then
    let updated := sys.index.updateLocale around req.locale sys.stored
    ⟨req.locale, updated.1, updated.2⟩
  else sys

def step (around : Surroundings) (req : Request) (sys : System) : Option System :=
  some (request around req sys)

/-- The index as plans see it after a change to a locale. -/
def plannedAt (around : Surroundings) (sys : System) (locale : MojString) : MojDbIndex :=
  { sys.index.definition with locale := around.icu locale }

/-- The stored keys of the index are those of its objects, as extracted with the locale. -/
def Built (around : Surroundings) (sys : System) (locale : MojString) : Prop :=
  ∀ key, MojDbKey.assign sys.index.definition.id none <+: key →
    (key ∈ sys.stored ↔ ∃ obj ∈ around.objs, sys.index.definition.includeObj (some obj) = true ∧
      key ∈ (plannedAt around sys locale).getKeys obj)

/-- Tokenizers, collators, stored keys and plans have the locale of the index. -/
structure Agrees (around : Surroundings) (sys : System) : Prop where
  extractors : ∀ extractor ∈ sys.index.props, ∀ part ∈ extractor.parts, ∀ locale ∈ part.opened,
    locale = sys.index.locale
  keys : Built around sys sys.index.locale
  plan : sys.index.planned around.icu = plannedAt around sys sys.index.locale

def partsOf : MojDbExtractor → List MojDbPropExtractor
  | .prop extractor => [extractor]
  | .multi _ _ extractors => extractors

def Follows (definition : MojDbIndex) : Prop :=
  ∀ extractor ∈ definition.props, ∀ part ∈ partsOf extractor,
    part.tokenized = true ∨ part.collation ≠ .invalid →
      extractor.collation ≠ .invalid ∧ part.collation ≠ .invalid

/-- Where the index is rebuilt, the query over the kind goes through another index and finds, for
every key that has to be stored, an object that has it. -/
def Refilled (around : Surroundings) (sys : System) (locale : MojString) : Prop :=
  sys.index.haveCollate = true → ∀ obj ∈ around.objs,
    sys.index.definition.includeObj (some obj) = true →
    ∀ key ∈ (plannedAt around sys locale).getKeys obj,
      MojDbKey.assign around.answering none ≠ MojDbKey.assign sys.index.definition.id none ∧
      ∃ found ∈ around.find sys.stored, sys.index.definition.includeObj (some found) = true ∧
        key ∈ (plannedAt around sys locale).getKeys found

/-- The request fails or changes nothing, or the index follows the change. -/
def Meets (around : Surroundings) (req : Request) (sys : System) : Prop :=
  req.fails = false → sys.dbLocale ≠ req.locale →
    Follows sys.index.definition ∧ Refilled around sys req.locale

end Requests

section Extraction

theorem leafVals_congr {extractor : MojDbPropExtractor} {one other : MojDbLocale}
    (words : extractor.tokenized = true → one.words = other.words)
    (collators : extractor.collation ≠ .invalid →
      one.collator extractor.collation = other.collator extractor.collation) :
    extractor.leafVals one = extractor.leafVals other := by
  have coll : one.collatorOf extractor.collation = other.collatorOf extractor.collation := by
    unfold MojDbLocale.collatorOf
    split
    · rfl
    · rename_i collated
      rw [collators collated]
  funext valsOut val
  unfold MojDbPropExtractor.leafVals
  rw [coll]
  split
  · rename_i tokenized
    unfold MojDbLocale.tokenize
    rw [words tokenized]
  · rfl

theorem valsImpl_congr {extractor : MojDbPropExtractor} {one other : MojDbLocale}
    (leaves : extractor.leafVals one = extractor.leafVals other) (path : List MojString) :
    extractor.valsImpl one path = extractor.valsImpl other path := by
  induction path with
  | nil => rfl
  | cons propKey rest ih =>
    funext obj valsOut
    rw [MojDbPropExtractor.valsImpl, MojDbPropExtractor.valsImpl, leaves, ih]

variable {icu : MojString → MojDbLocale} {locale : MojString}

theorem vals_part {part : OpenedProp} (agrees : ∀ other ∈ part.opened, other = locale) :
    part.vals icu = part.extractor.vals (icu locale) := by
  have leaves : part.extractor.leafVals (part.platform icu) =
      part.extractor.leafVals (icu locale) := by
    apply leafVals_congr
    · intro tokenized
      rcases Option.isSome_iff_exists.mp (part.tokenizes.trans tokenized) with ⟨other, opened⟩
      have same : other = locale := agrees other (by simp [OpenedProp.opened, opened])
      simp [OpenedProp.platform, opened, same]
    · intro collated
      rcases Option.isSome_iff_exists.mp (part.collates.trans (decide_eq_true collated)) with
        ⟨other, opened⟩
      have same : other = locale := agrees other (by simp [OpenedProp.opened, opened])
      simp [OpenedProp.platform, opened, same]
  funext obj valsOut
  unfold OpenedProp.vals MojDbPropExtractor.vals
  rw [valsImpl_congr leaves]

theorem vals_parts (parts : List OpenedProp)
    (agrees : ∀ part ∈ parts, ∀ other ∈ part.opened, other = locale) (obj : MojObject)
    (valsOut : KeySet) :
    parts.foldl (fun valsOut part => part.vals icu obj valsOut) valsOut =
      (parts.map OpenedProp.extractor).foldl
        (fun valsOut part => part.vals (icu locale) obj valsOut) valsOut := by
  induction parts generalizing valsOut with
  | nil => rfl
  | cons part parts ih =>
    rw [List.map_cons, List.foldl_cons, List.foldl_cons, vals_part (agrees part List.mem_cons_self)]
    exact ih (fun other member => agrees other (List.mem_cons_of_mem _ member)) _

theorem vals_extractor {extractor : OpenedExtractor}
    (agrees : ∀ part ∈ extractor.parts, ∀ other ∈ part.opened, other = locale) (obj : MojObject) :
    extractor.vals icu obj = extractor.definition.vals (icu locale) obj := by
  cases extractor with
  | prop part => exact vals_parts [part] agrees obj SortedSet.empty
  | multi name collation extractors => exact vals_parts extractors agrees obj SortedSet.empty

/-- An index whose extractors have all been opened for one locale is the index of that locale. -/
theorem getKeys_agrees {index : OpenedIndex}
    (agrees : ∀ extractor ∈ index.props, ∀ part ∈ extractor.parts, ∀ other ∈ part.opened,
      other = locale) (obj : MojObject) :
    index.getKeys icu obj = { index.definition with locale := icu locale }.getKeys obj := by
  unfold OpenedIndex.getKeys MojDbIndex.getKeys MojDbIndex.vals
  apply congrArg (fun vals => MojDbKeyBuilder.keys (index.definition.idSet :: vals))
  rw [← index.defined, List.map_map]
  apply List.map_congr_left
  intro extractor there
  exact vals_extractor (agrees extractor there) obj

end Extraction

section Locales

theorem mem_opened_updateLocale {prop : OpenedProp} {locale other : MojString}
    (collated : prop.extractor.collation ≠ .invalid)
    (there : other ∈ (prop.updateLocale locale).opened) : other = locale := by
  unfold OpenedProp.updateLocale at there
  rw [dif_pos collated] at there
  unfold OpenedProp.opened at there
  rcases List.mem_append.mp there with tokenizer | collator
  · rcases Option.map_eq_some_iff.mp (Option.mem_toList.mp tokenizer) with ⟨_, _, same⟩
    exact same.symm
  · exact (Option.some.inj (Option.mem_toList.mp collator)).symm

theorem opened_ne_nil_iff (prop : OpenedProp) : prop.opened ≠ [] ↔
    prop.extractor.tokenized = true ∨ prop.extractor.collation ≠ .invalid := by
  have tokenizes := prop.tokenizes
  have collates := prop.collates
  unfold OpenedProp.opened
  cases tokenizer : prop.tokenizer with
  | none =>
    rw [tokenizer] at tokenizes
    cases collator : prop.collator with
    | none =>
      rw [collator] at collates
      simpa [← tokenizes] using collates
    | some other =>
      rw [collator] at collates
      have collated : prop.extractor.collation ≠ .invalid := of_decide_eq_true collates.symm
      simp [collated]
  | some other =>
    rw [tokenizer] at tokenizes
    simp [← tokenizes]

theorem opened_configure {extractor : MojDbPropExtractor} {locale other : MojString}
    (there : other ∈ (OpenedProp.configure locale extractor).opened) : other = locale := by
  have only : ∀ {inUse : Prop} [Decidable inUse],
      other ∈ (if inUse then some locale else none).toList → other = locale := by
    intro inUse _ opened
    rw [Option.mem_toList] at opened
    split at opened
    · exact (Option.some.inj opened).symm
    · cases opened
  rcases List.mem_append.mp there with tokenizer | collator
  · exact only tokenizer
  · exact only collator

theorem configure_agrees (definition : MojDbIndex) (locale : MojString) :
    ∀ extractor ∈ (OpenedIndex.configure locale definition).props, ∀ part ∈ extractor.parts,
      ∀ other ∈ part.opened, other = locale := by
  intro extractor there part included other opened
  rcases List.mem_map.mp there with ⟨source, _, rfl⟩
  cases source with
  | prop source =>
    cases List.mem_singleton.mp included
    exact opened_configure opened
  | multi name collation sources =>
    rcases List.mem_map.mp included with ⟨source, _, rfl⟩
    exact opened_configure opened

theorem parts_definition (extractor : OpenedExtractor) :
    partsOf extractor.definition = extractor.parts.map OpenedProp.extractor := by
  cases extractor with
  | prop part => rfl
  | multi name collation extractors => rfl

theorem parts_updateLocale (locale : MojString) (extractor : OpenedExtractor) :
    (extractor.updateLocale locale).parts = extractor.parts.map (OpenedProp.updateLocale locale) := by
  cases extractor with
  | prop part => rfl
  | multi name collation extractors => rfl

theorem mem_parts_relocate {locale : MojString} {extractor : OpenedExtractor} {part : OpenedProp} :
    part ∈ (relocate locale extractor).parts ↔ ∃ source ∈ extractor.parts,
      part = if extractor.collation ≠ .invalid then source.updateLocale locale else source := by
  unfold relocate
  by_cases collated : extractor.collation ≠ .invalid
  · rw [if_pos collated, parts_updateLocale, List.mem_map]
    simp only [if_pos collated]
    constructor
    · rintro ⟨source, there, rfl⟩
      exact ⟨source, there, rfl⟩
    · rintro ⟨source, there, rfl⟩
      exact ⟨source, there, rfl⟩
  · simp only [if_neg collated]
    constructor
    · intro there
      exact ⟨part, there, rfl⟩
    · rintro ⟨source, there, rfl⟩
      exact there

theorem follows_iff (index : OpenedIndex) : Follows index.definition ↔
    ∀ extractor ∈ index.props, ∀ part ∈ extractor.parts, part.opened ≠ [] →
      extractor.collation ≠ .invalid ∧ part.extractor.collation ≠ .invalid := by
  unfold Follows
  rw [← index.defined]
  constructor
  · intro follows extractor there part included inUse
    have within : part.extractor ∈ partsOf extractor.definition := by
      rw [parts_definition]
      exact List.mem_map_of_mem included
    exact follows extractor.definition (List.mem_map_of_mem there) part.extractor within
      ((opened_ne_nil_iff part).mp inUse)
  · intro reaches definition there source within inUse
    rcases List.mem_map.mp there with ⟨extractor, member, rfl⟩
    rw [parts_definition] at within
    rcases List.mem_map.mp within with ⟨part, included, rfl⟩
    exact reaches extractor member part included ((opened_ne_nil_iff part).mpr inUse)

/-- After a change to another locale all extractors have it just if the index follows. -/
theorem relocated_agrees_iff {index : OpenedIndex} {locale : MojString}
    (before : ∀ extractor ∈ index.props, ∀ part ∈ extractor.parts, ∀ other ∈ part.opened,
      other = index.locale) (changed : index.locale ≠ locale) :
    (∀ extractor ∈ (index.relocated locale).props, ∀ part ∈ extractor.parts,
      ∀ other ∈ part.opened, other = locale) ↔ Follows index.definition := by
  rw [follows_iff]
  constructor
  · intro agrees extractor there part included inUse
    rcases List.exists_mem_of_ne_nil _ inUse with ⟨other, opened⟩
    have old := before extractor there part included other opened
    have reached := agrees (relocate locale extractor) (List.mem_map_of_mem there) _
      (mem_parts_relocate.mpr ⟨part, included, rfl⟩) other
    constructor
    · intro plain
      apply changed
      rw [← old]
      apply reached
      rwa [if_neg (not_not_intro plain)]
    · intro plain
      apply changed
      rw [← old]
      apply reached
      have kept : part.updateLocale locale = part := by
        unfold OpenedProp.updateLocale
        rw [dif_neg (not_not_intro plain)]
      rwa [kept, ite_self]
  · intro reaches extractor there part included other opened
    rcases List.mem_map.mp there with ⟨source, member, rfl⟩
    rcases mem_parts_relocate.mp included with ⟨origin, within, rfl⟩
    by_cases inUse : origin.opened = []
    · -- nothing was open, and a change of the locale opens nothing
      have unused := (opened_ne_nil_iff origin).not.mp (not_not_intro inUse)
      have plain : ¬ origin.extractor.collation ≠ .invalid := fun collated => unused (Or.inr collated)
      have kept : origin.updateLocale locale = origin := by
        unfold OpenedProp.updateLocale
        rw [dif_neg plain]
      rw [kept, ite_self, inUse] at opened
      cases opened
    · rcases reaches source member origin within inUse with ⟨outer, inner⟩
      rw [if_pos outer] at opened
      exact mem_opened_updateLocale inner opened

end Locales

section Keys

theorem mem_insertAll {icu : MojString → MojDbLocale} {index : OpenedIndex} (objs : List MojObject)
    (stored : KeySet) (key : MojDbKey) :
    key ∈ objs.foldl (index.insert icu) stored ↔ key ∈ stored ∨ ∃ obj ∈ objs,
      index.definition.includeObj (some obj) = true ∧ key ∈ index.getKeys icu obj := by
  induction objs generalizing stored with
  | nil => simp
  | cons obj objs ih =>
    have one : key ∈ index.insert icu stored obj ↔ key ∈ stored ∨
        index.definition.includeObj (some obj) = true ∧ key ∈ index.getKeys icu obj := by
      unfold OpenedIndex.insert
      by_cases included : index.definition.includeObj (some obj) = true
      · rw [if_pos included, SortedSet.mem_putAll, SortedSet.mem_def (index.getKeys icu obj)]
        simp [included, or_comm]
      · simp [included]
    rw [List.foldl_cons, ih, one, or_assoc]
    apply or_congr_right
    simp only [List.mem_cons, exists_eq_or_imp]

theorem prefix_getKeys {index : MojDbIndex} {obj : MojObject} {key : MojDbKey}
    (member : key ∈ index.getKeys obj) : MojDbKey.assign index.id none <+: key := by
  rcases (index.mem_getKeys obj key).mp member with ⟨parts, _, rfl⟩
  exact List.prefix_append _ _

theorem codes_eq_of_starts {one other : MojObject} {key : MojDbKey}
    (left : MojDbKey.assign one none <+: key) (right : MojDbKey.assign other none <+: key) :
    MojDbKey.assign one none = MojDbKey.assign other none := by
  rcases List.prefix_or_prefix_of_prefix left right with shorter | longer
  · exact MojObjectWriter.codes_prefixFree _ (MojDbKey.assign_mem_codes _ _) _
      (MojDbKey.assign_mem_codes _ _) shorter
  · exact (MojObjectWriter.codes_prefixFree _ (MojDbKey.assign_mem_codes _ _) _
      (MojDbKey.assign_mem_codes _ _) longer).symm

/-- With the keys of an index dropped, a query finds what it found before, unless it goes through
that index. -/
theorem mem_find_drop {around : Surroundings} {index : OpenedIndex} {stored : KeySet}
    {obj : MojObject} : obj ∈ around.find (index.drop stored) ↔
      MojDbKey.assign around.answering none ≠ MojDbKey.assign index.definition.id none ∧
        obj ∈ around.find stored := by
  unfold Surroundings.find
  simp only [List.mem_filter, List.any_eq_true, Bool.and_eq_true, decide_eq_true_eq,
    ← SortedSet.mem_def]
  constructor
  · rintro ⟨there, key, kept, starts, leads⟩
    rcases (SortedSet.mem_keep _ _ _).mp kept with ⟨before, outside⟩
    refine ⟨?_, there, key, before, starts, leads⟩
    intro same
    rw [same] at starts
    exact of_decide_eq_true outside starts
  · rintro ⟨apart, there, key, before, starts, leads⟩
    refine ⟨there, key, (SortedSet.mem_keep _ _ _).mpr ⟨before, ?_⟩, starts, leads⟩
    apply decide_eq_true
    intro own
    exact apart (codes_eq_of_starts starts own)

theorem mem_build {around : Surroundings} {index updated : OpenedIndex} {stored : KeySet}
    (same : updated.definition = index.definition) {key : MojDbKey}
    (own : MojDbKey.assign index.definition.id none <+: key) :
    key ∈ updated.build around (index.drop stored) ↔
      MojDbKey.assign around.answering none ≠ MojDbKey.assign index.definition.id none ∧
        ∃ obj ∈ around.find stored, index.definition.includeObj (some obj) = true ∧
          key ∈ updated.getKeys around.icu obj := by
  unfold OpenedIndex.build
  rw [mem_insertAll, same]
  have dropped : key ∉ index.drop stored := by
    intro kept
    exact of_decide_eq_true ((SortedSet.mem_keep _ _ _).mp kept).2 own
  constructor
  · intro held
    rcases held.resolve_left dropped with ⟨obj, found, included, extracted⟩
    rcases mem_find_drop.mp found with ⟨apart, before⟩
    exact ⟨apart, obj, before, included, extracted⟩
  · rintro ⟨apart, obj, before, included, extracted⟩
    exact Or.inr ⟨obj, mem_find_drop.mpr ⟨apart, before⟩, included, extracted⟩

end Keys

section Steps

variable {around : Surroundings} {sys : System} {req : Request}

theorem located_request (located : sys.dbLocale = sys.index.locale) :
    (request around req sys).dbLocale = (request around req sys).index.locale := by
  unfold request
  split
  · rfl
  · split
    · rfl
    · exact located

/-- The keys a rebuilt index holds are those of its objects just if the rebuild finds them. -/
theorem built_iff_refilled {updated : OpenedIndex} {locale : MojString}
    (same : updated.definition = sys.index.definition)
    (extracts : ∀ obj, updated.getKeys around.icu obj = (plannedAt around sys locale).getKeys obj)
    (collates : sys.index.haveCollate = true) :
    Built around ⟨locale, updated, updated.build around (sys.index.drop sys.stored)⟩ locale ↔
      Refilled around sys locale := by
  have planned : plannedAt around ⟨locale, updated, updated.build around (sys.index.drop sys.stored)⟩
      locale = plannedAt around sys locale := by
    unfold plannedAt
    rw [same]
  unfold Built Refilled
  rw [planned]
  simp only [same]
  constructor
  · intro built _ obj there included key extracted
    have own : MojDbKey.assign sys.index.definition.id none <+: key :=
      @prefix_getKeys (plannedAt around sys locale) obj key extracted
    have held := (built key own).mpr ⟨obj, there, included, extracted⟩
    rcases (mem_build same own).mp held with ⟨apart, found, before, foundIncluded, foundExtracted⟩
    rw [extracts] at foundExtracted
    exact ⟨apart, found, before, foundIncluded, foundExtracted⟩
  · intro refilled key own
    rw [mem_build same own]
    constructor
    · rintro ⟨_, found, before, included, extracted⟩
      rw [extracts] at extracted
      exact ⟨found, (List.mem_filter.mp before).1, included, extracted⟩
    · rintro ⟨obj, there, included, extracted⟩
      rcases refilled collates obj there included key extracted with
        ⟨apart, found, before, foundIncluded, foundExtracted⟩
      rw [← extracts] at foundExtracted
      exact ⟨apart, found, before, foundIncluded, foundExtracted⟩

theorem opened_of_plain (plain : ¬ sys.index.haveCollate = true)
    (follows : Follows sys.index.definition) :
    ∀ extractor ∈ sys.index.props, ∀ part ∈ extractor.parts, part.opened = [] := by
  intro extractor there part included
  apply Classical.byContradiction
  intro inUse
  apply plain
  have outer := ((follows_iff sys.index).mp follows extractor there part included inUse).1
  exact List.any_eq_true.mpr ⟨extractor, there, decide_eq_true outer⟩

theorem getKeys_of_plain (plain : ¬ sys.index.haveCollate = true)
    (follows : Follows sys.index.definition) (one other : MojString) (obj : MojObject) :
    (plannedAt around sys one).getKeys obj = (plannedAt around sys other).getKeys obj := by
  have unused := opened_of_plain plain follows
  have agrees : ∀ locale, ∀ extractor ∈ sys.index.props, ∀ part ∈ extractor.parts,
      ∀ name ∈ part.opened, name = locale := by
    intro locale extractor there part included name opened
    rw [unused extractor there part included] at opened
    cases opened
  exact (getKeys_agrees (agrees one) obj).symm.trans (getKeys_agrees (agrees other) obj)

/-- A change of the locale keeps index and plans together just if the index follows it. -/
theorem agrees_updateLocale (located : sys.dbLocale = sys.index.locale) (agrees : Agrees around sys)
    {locale : MojString} (changed : sys.dbLocale ≠ locale) :
    Agrees around ⟨locale, (sys.index.updateLocale around locale sys.stored).1,
        (sys.index.updateLocale around locale sys.stored).2⟩ ↔
      Follows sys.index.definition ∧ Refilled around sys locale := by
  have reaches := relocated_agrees_iff agrees.extractors (located ▸ changed)
  have keysIff : Follows sys.index.definition →
      (Built around ⟨locale, (sys.index.updateLocale around locale sys.stored).1,
        (sys.index.updateLocale around locale sys.stored).2⟩ locale ↔ Refilled around sys locale) := by
    intro follows
    unfold OpenedIndex.updateLocale
    by_cases collates : sys.index.haveCollate = true
    · simp only [if_pos collates]
      exact built_iff_refilled rfl (getKeys_agrees (reaches.mpr follows)) collates
    · simp only [if_neg collates]
      constructor
      · intro _ collated
        exact absurd collated collates
      · intro _ key own
        rw [agrees.keys key own]
        apply exists_congr
        intro obj
        rw [getKeys_of_plain collates follows sys.index.locale locale]
        rfl
  constructor
  · intro after
    have follows := reaches.mp after.extractors
    exact ⟨follows, (keysIff follows).mp after.keys⟩
  · rintro ⟨follows, refilled⟩
    exact ⟨reaches.mpr follows, (keysIff follows).mpr refilled, rfl⟩

/-- A request leaves index and plans together just if its condition holds. -/
theorem agrees_request (located : sys.dbLocale = sys.index.locale) (agrees : Agrees around sys) :
    Agrees around (request around req sys) ↔ Meets around req sys := by
  unfold request Meets
  by_cases fails : req.fails = true
  · rw [if_pos fails]
    constructor
    · intro _ succeeds
      rw [fails] at succeeds
      cases succeeds
    · intro _
      refine ⟨configure_agrees _ _, ?_, rfl⟩
      have keys := agrees.keys
      rw [← located] at keys
      exact keys
  · rw [if_neg fails]
    have succeeds : req.fails = false := Bool.eq_false_of_not_eq_true fails
    by_cases changed : sys.dbLocale ≠ req.locale
    · rw [if_pos changed]
      exact (agrees_updateLocale located agrees changed).trans
        ⟨fun meets _ _ => meets, fun meets => meets succeeds changed⟩
    · rw [if_neg changed]
      exact ⟨fun _ _ different => absurd different changed, fun _ => agrees⟩

end Steps

/-- Over any requests, index and plans are together after each of them just if every one that
commits another locale meets an index that follows it. -/
theorem locales_agree_iff (around : Surroundings) (definition : MojDbIndex) (locale : MojString)
    (stored : KeySet) (requests : List Request)
    (built : Built around (opened definition locale stored) locale) :
    (∀ front last, front <+: requests →
      Steps.run (step around) front (opened definition locale stored) = some last →
      Agrees around last) ↔
      Steps.Throughout (step around) (Meets around) requests (opened definition locale stored) := by
  have first : Agrees around (opened definition locale stored) :=
    ⟨configure_agrees _ _, built, rfl⟩
  have survives : ∀ req sys next, sys.dbLocale = sys.index.locale ∧ Agrees around sys →
      step around req sys = some next →
      (next.dbLocale = next.index.locale ∧ Agrees around next ↔ Meets around req sys) := by
    rintro req sys next ⟨located, agrees⟩ stepped
    cases stepped
    exact (and_iff_right (located_request located)).trans (agrees_request located agrees)
  have total : ∀ req sys, ∃ next, step around req sys = some next := fun req sys => ⟨_, rfl⟩
  rw [← Steps.holds_throughout_iff total survives requests ⟨rfl, first⟩]
  constructor
  · intro after front last starts ran
    refine ⟨?_, after front last starts ran⟩
    apply @Steps.run_keeps _ _ _ (fun sys : System => sys.dbLocale = sys.index.locale) _ _ _ _ _ ran
    · intro req sys next located stepped
      cases stepped
      exact located_request located
    · rfl
  · intro after front last starts ran
    exact (after front last starts ran).2

section Samples

def textKey : MojString := chars "text".toList

def textIndex (collation : MojDbCollationStrength) : MojDbIndex where
  id := .int 5
  locale := ⟨fun _ => ⟨fun text => text⟩, fun text => [text], fun _ => []⟩
  sortKey := [textKey]
  props := [.prop ⟨textKey, collation, none, true, by decide⟩, idProp]
  includeDeleted := false
  ready := true
  distinctNames := (by decide : [textKey, idKey].Nodup)
  hasId := (by decide : idKey ∈ [textKey, idKey])
  delFront := fun deleted => by cases deleted

def textObject : MojObject :=
  .object [(idKey, .string (chars ['a'])), (textKey, .string (chars ['x']))]

/-- A platform that marks every word and every sort key with the locale, and a store with the object
under the key of another index. -/
def sampleAround : Surroundings where
  icu := fun locale => ⟨fun _ => ⟨fun text => locale ++ text⟩, fun text => [locale ++ text], fun _ => []⟩
  objs := [textObject]
  answering := .int 1
  leads := fun _ _ => true

def english : MojString := chars ['e', 'n']

def german : MojString := chars ['d', 'e']

def sampleStored (collation : MojDbCollationStrength) : KeySet :=
  (OpenedIndex.configure english (textIndex collation)).insert sampleAround.icu
    (SortedSet.single (MojDbKey.assign (.int 1) none)) textObject

theorem built_sample (collation : MojDbCollationStrength) :
    Built sampleAround (opened (textIndex collation) english (sampleStored collation)) english := by
  intro key own
  have other : key ∉ SortedSet.single (MojDbKey.assign (.int 1) none) := by
    intro same
    rw [(SortedSet.mem_single _ _).mp same] at own
    have apart : ¬ MojDbKey.assign (.int 5) none <+: MojDbKey.assign (.int 1) none := by
      decide +kernel
    exact apart own
  have inserted := @mem_insertAll sampleAround.icu
    (OpenedIndex.configure english (textIndex collation)) [textObject]
    (SortedSet.single (MojDbKey.assign (.int 1) none)) key
  rw [or_iff_right other] at inserted
  apply inserted.trans
  apply exists_congr
  intro obj
  rw [getKeys_agrees (configure_agrees (textIndex collation) english)]
  rfl

/-- An index that collates is rebuilt with the new locale. -/
theorem locales_agree_sample : Agrees sampleAround (request sampleAround ⟨german, false⟩
    (opened (textIndex .primary) english (sampleStored .primary))) := by
  have follows : Follows (textIndex .primary) := by
    intro extractor there part included inUse
    rcases List.mem_cons.mp there with rfl | rest
    · cases List.mem_singleton.mp included
      exact ⟨by decide, by decide⟩
    · cases List.mem_singleton.mp rest
      cases List.mem_singleton.mp included
      exact absurd inUse (by decide)
  have refilled : Refilled sampleAround
      (opened (textIndex .primary) english (sampleStored .primary)) german := by
    intro _ obj there included key extracted
    cases List.mem_singleton.mp there
    exact ⟨by decide +kernel, textObject, by decide +kernel, included, extracted⟩
  have after := (locales_agree_iff sampleAround (textIndex .primary) english (sampleStored .primary)
    [⟨german, false⟩] (built_sample .primary)).mpr ⟨fun _ _ => ⟨follows, refilled⟩, fun _ _ => trivial⟩
  exact after [⟨german, false⟩] _ (List.prefix_refl _) rfl

/-- An index that breaks words without collating stays with the locale it was configured with, and
it holds a key that plans with the new locale do not look for. -/
theorem locale_left_behind :
    (¬ ∀ around definition locale stored requests,
      Built around (opened definition locale stored) locale →
      ∀ front last, front <+: requests →
        Steps.run (step around) front (opened definition locale stored) = some last →
        Agrees around last) ∧
      ∃ key ∈ (request sampleAround ⟨german, false⟩
          (opened (textIndex .invalid) english (sampleStored .invalid))).stored,
        MojDbKey.assign (.int 5) none <+: key ∧
          key ∉ (plannedAt sampleAround (opened (textIndex .invalid) english SortedSet.empty)
            german).getKeys textObject := by
  refine ⟨?_, by decide +kernel⟩
  intro all
  have agrees := all sampleAround (textIndex .invalid) english (sampleStored .invalid)
    [⟨german, false⟩] (built_sample .invalid) [⟨german, false⟩] _ (List.prefix_refl _) rfl
  have located := agrees.extractors _ List.mem_cons_self _ List.mem_cons_self english
    (by decide)
  exact absurd located (by decide)

end Samples

end Db8.Db.IndexLocale
