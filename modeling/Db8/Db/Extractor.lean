import Db8.Db.Key

/-!
# Extractors

What an index reads off an object for one of its properties: `MojDbPropExtractor` follows a dotted
path, acting on the elements of an array and on every property under a wildcard, and falls back to
its default where the path breaks off; `MojDbMultiExtractor` joins several of them. Collation and
word breaking are the platform's, and come with the locale of the index.
-/

set_option autoImplicit false

namespace Db8.Db

open Db8.Bytes
open Db8.Core

inductive MojDbCollationStrength where
  | invalid
  | primary
  | secondary
  | tertiary
  | quaternary
  | identical
deriving DecidableEq, Repr

/-- What is opened for a locale: a collator for each strength, the words of a text, and the text
`stringValue` makes of an object that is not a string. -/
structure MojDbLocale where
  collator : MojDbCollationStrength → MojDbTextCollator
  words : MojString → List MojString
  json : MojObject → MojString

namespace MojDbLocale

def collatorOf (locale : MojDbLocale) (strength : MojDbCollationStrength) :
    Option MojDbTextCollator :=
  if strength = .invalid then none else some (locale.collator strength)

def stringValue (locale : MojDbLocale) : MojObject → MojString
  | .string val => val
  | obj => locale.json obj

/-- `MojDbTextTokenizer::tokenize`, adding to the keys already there. -/
def tokenize (locale : MojDbLocale) (text : MojString) (coll : Option MojDbTextCollator)
    (keysOut : KeySet) : KeySet :=
  keysOut.putAll ((locale.words text).map fun tok => MojDbKey.assign (.string tok) coll)

theorem mem_tokenize (locale : MojDbLocale) (text : MojString)
    (coll : Option MojDbTextCollator) (keysOut : KeySet) (key : MojDbKey)
    (member : key ∈ locale.tokenize text coll keysOut) :
    key ∈ MojObjectWriter.codes ∨ key ∈ keysOut := by
  rcases (SortedSet.mem_putAll _ _ _).mp member with fresh | kept
  · obtain ⟨tok, _, rfl⟩ := List.mem_map.mp fresh
    exact Or.inl (MojDbKey.assign_mem_codes _ _)
  · exact Or.inr kept

end MojDbLocale

/-- `MojString::split`: empty components are dropped. -/
def split (sep : MojChar) : MojString → MojString → List MojString
  | current, [] => if current = [] then [] else [current]
  | current, c :: rest =>
    if c = sep then (if current = [] then [] else [current]) ++ split sep [] rest
    else split sep (current ++ [c]) rest

theorem separator_ne_zero : (46 : Byte) ≠ 0 := by decide

def propComponentSeparator : MojChar := ⟨46, separator_ne_zero⟩

theorem path_a : split propComponentSeparator [] (chars ['a']) ≠ [] := by decide

theorem path_a_b : split propComponentSeparator [] (chars ['a', '.', 'b']) ≠ [] := by decide

def wildcardKey : MojString := chars ['*']

structure MojDbPropExtractor where
  name : MojString
  collation : MojDbCollationStrength
  /-- The configured default, an array standing for several values. -/
  defaultVal : Option MojObject
  tokenized : Bool
  /-- The path is not empty, as `valsImpl` asserts. -/
  path_ne_nil : split propComponentSeparator [] name ≠ []

namespace MojDbPropExtractor

def prop (extractor : MojDbPropExtractor) : List MojString :=
  split propComponentSeparator [] extractor.name

def elements : MojObject → List MojObject
  | .array vals => vals
  | val => [val]

def default (extractor : MojDbPropExtractor) : List MojDbKey :=
  match extractor.defaultVal with
  | none => []
  | some val => (elements val).map fun elem => MojDbKey.assign elem none

/-- `handleVal` at the end of the path. -/
def leafVals (extractor : MojDbPropExtractor) (locale : MojDbLocale) (valsOut : KeySet)
    (val : MojObject) : KeySet :=
  let coll := locale.collatorOf extractor.collation
  match extractor.tokenized, val with
  | true, .string text => locale.tokenize text coll valsOut
  | _, val => valsOut.put (MojDbKey.assign val coll)

/-- `valsImpl` from the component at the head of the path on. -/
def valsImpl (extractor : MojDbPropExtractor) (locale : MojDbLocale) :
    List MojString → MojObject → KeySet → KeySet
  | [], _, valsOut => valsOut
  | propKey :: rest, obj, valsOut =>
    let handleVal : KeySet → MojObject → KeySet := fun valsOut val =>
      match rest with
      | [] => extractor.leafVals locale valsOut val
      | _ :: _ => valsImpl extractor locale rest val valsOut
    if propKey = wildcardKey then
      (obj.map.map Prod.snd).foldl handleVal valsOut
    else
      match obj.get propKey with
      | none => valsOut.putAll extractor.default
      | some val => (elements val).foldl handleVal valsOut

def vals (extractor : MojDbPropExtractor) (locale : MojDbLocale) (obj : MojObject)
    (valsOut : KeySet) : KeySet :=
  extractor.valsImpl locale extractor.prop obj valsOut

variable (extractor : MojDbPropExtractor)

theorem mem_leafVals (locale : MojDbLocale) (valsOut : KeySet) (val : MojObject) (key : MojDbKey)
    (member : key ∈ extractor.leafVals locale valsOut val) :
    key ∈ MojObjectWriter.codes ∨ key ∈ valsOut := by
  unfold leafVals at member
  split at member
  · exact locale.mem_tokenize _ _ _ _ member
  · rcases (SortedSet.mem_put _ _ _).mp member with rfl | kept
    · exact Or.inl (MojDbKey.assign_mem_codes _ _)
    · exact Or.inr kept

theorem mem_default (key : MojDbKey)
    (member : key ∈ extractor.default) : key ∈ MojObjectWriter.codes := by
  unfold default at member
  split at member
  · exact absurd member List.not_mem_nil
  · obtain ⟨elem, _, rfl⟩ := List.mem_map.mp member
    exact MojDbKey.assign_mem_codes _ _

theorem mem_foldl_codes {handleVal : KeySet → MojObject → KeySet}
    (adds : ∀ valsOut val key, key ∈ handleVal valsOut val →
      key ∈ MojObjectWriter.codes ∨ key ∈ valsOut)
    (objs : List MojObject) (valsOut : KeySet) (key : MojDbKey)
    (member : key ∈ objs.foldl handleVal valsOut) :
    key ∈ MojObjectWriter.codes ∨ key ∈ valsOut := by
  induction objs generalizing valsOut with
  | nil => exact Or.inr member
  | cons obj objs ih =>
    rcases ih (handleVal valsOut obj) member with code | kept
    · exact Or.inl code
    · exact adds valsOut obj key kept

theorem mem_valsImpl (locale : MojDbLocale) (path : List MojString) (obj : MojObject)
    (valsOut : KeySet) (key : MojDbKey) (member : key ∈ extractor.valsImpl locale path obj valsOut) :
    key ∈ MojObjectWriter.codes ∨ key ∈ valsOut := by
  induction path generalizing obj valsOut key with
  | nil => exact Or.inr member
  | cons propKey rest ih =>
    have adds : ∀ (valsOut : KeySet) (val : MojObject) (key : MojDbKey),
        key ∈ (match rest with
          | [] => extractor.leafVals locale valsOut val
          | _ :: _ => valsImpl extractor locale rest val valsOut) →
        key ∈ MojObjectWriter.codes ∨ key ∈ valsOut := by
      intro valsOut val key member
      cases rest with
      | nil => exact extractor.mem_leafVals locale valsOut val key member
      | cons next rest => exact ih val valsOut key member
    rw [valsImpl] at member
    split_ifs at member
    · exact mem_foldl_codes adds _ valsOut key member
    · split at member
      · rcases (SortedSet.mem_putAll _ _ _).mp member with fresh | kept
        · exact Or.inl (extractor.mem_default key fresh)
        · exact Or.inr kept
      · exact mem_foldl_codes adds _ valsOut key member

end MojDbPropExtractor

inductive MojDbExtractor where
  | prop (extractor : MojDbPropExtractor)
  | multi (name : MojString) (collation : MojDbCollationStrength)
      (extractors : List MojDbPropExtractor)

namespace MojDbExtractor

def name : MojDbExtractor → MojString
  | .prop extractor => extractor.name
  | .multi name _ _ => name

def collation : MojDbExtractor → MojDbCollationStrength
  | .prop extractor => extractor.collation
  | .multi _ collation _ => collation

def vals (extractor : MojDbExtractor) (locale : MojDbLocale) (obj : MojObject) : KeySet :=
  match extractor with
  | .prop extractor => extractor.vals locale obj SortedSet.empty
  | .multi _ _ extractors =>
    extractors.foldl (fun valsOut part => part.vals locale obj valsOut) SortedSet.empty

/-- Whatever an extractor reads off an object is the code of some value. -/
theorem vals_subset_codes (extractor : MojDbExtractor) (locale : MojDbLocale) (obj : MojObject)
    (key : MojDbKey) (member : key ∈ extractor.vals locale obj) :
    key ∈ MojObjectWriter.codes := by
  cases extractor with
  | prop extractor =>
    exact (extractor.mem_valsImpl locale extractor.prop obj SortedSet.empty key member).resolve_right
      (SortedSet.not_mem_empty key)
  | multi name collation extractors =>
    have joined : ∀ (parts : List MojDbPropExtractor) (valsOut : KeySet),
        key ∈ parts.foldl (fun valsOut part => part.vals locale obj valsOut) valsOut →
        key ∈ MojObjectWriter.codes ∨ key ∈ valsOut := by
      intro parts
      induction parts with
      | nil => exact fun _ kept => Or.inr kept
      | cons part parts ih =>
        intro valsOut member
        rcases ih _ member with code | kept
        · exact Or.inl code
        · exact part.mem_valsImpl locale part.prop obj valsOut key kept
    exact (joined extractors SortedSet.empty member).resolve_right (SortedSet.not_mem_empty key)

end MojDbExtractor

end Db8.Db
