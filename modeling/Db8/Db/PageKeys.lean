import Db8.Db.Paging

/-!
# The keys of a page

The keys of a database shared by indexes of different ids are prefix-free, so the key a page starts
at separates what was met from what is still to be met: the page behind a key holds the keys of its
page that are met after it.
-/

set_option autoImplicit false

namespace Db8.Db

open Db8.Bytes
open Db8.Core

namespace MojDbQueryPlan

instance (page : MojDbKey) (desc : Bool) (key : MojDbKey) : Decidable (OnPage page desc key) :=
  inferInstanceAs (Decidable (_ ∨ _))

end MojDbQueryPlan

/-- The stored keys of a database shared by indexes with different ids. -/
structure KeysOf (indexes : List MojDbIndex) (keys : KeySet) : Prop where
  spelled : ∀ key ∈ keys, ∃ index ∈ indexes, ∃ parts, index.Spells parts key
  ids : (indexes.map MojDbIndex.id).Nodup

namespace KeysOf

variable {indexes : List MojDbIndex} {keys : KeySet}

theorem eq_of_starts (stored : KeysOf indexes keys) {left right : MojDbKey} (leftIn : left ∈ keys)
    (rightIn : right ∈ keys) (starts : left <+: right) : left = right := by
  rcases stored.spelled left leftIn with ⟨first, firstIn, leftParts, leftSpells⟩
  rcases stored.spelled right rightIn with ⟨second, secondIn, rightParts, rightSpells⟩
  rw [leftSpells.key, rightSpells.key] at starts
  have free := MojObjectWriter.codes_prefixFree
  rcases free.append_prefix_append (MojDbKey.assign_mem_codes _ _) (MojDbKey.assign_mem_codes _ _)
    starts with ⟨sameId, tails⟩
  have same : first = second :=
    List.inj_on_of_nodup_map stored.ids firstIn secondIn (MojObjectWriter.value_injective sameId)
  have lengths : leftParts.length = rightParts.length := by
    rw [leftSpells.length, rightSpells.length, same]
  have words := free.words leftParts.length leftParts.flatten ⟨leftParts, rfl, leftSpells.codes, rfl⟩
    rightParts.flatten ⟨rightParts, lengths.symm, rightSpells.codes, rfl⟩ tails
  rw [leftSpells.key, rightSpells.key, words, sameId]

theorem successor_ne_nil (stored : KeysOf indexes keys) {key : MojDbKey} (member : key ∈ keys) :
    successor key ≠ [] := by
  rcases stored.spelled key member with ⟨index, _, parts, spells⟩
  rw [spells.key]
  apply @MojDbQueryPlan.word_successor_ne_nil 0
  exact mem_words_one (MojDbKey.assign_mem_codes _ _)

theorem ne_nil (stored : KeysOf indexes keys) {key : MojDbKey} (member : key ∈ keys) :
    key ≠ [] := by
  intro empty
  apply stored.successor_ne_nil member
  rw [empty, successor_nil]

end KeysOf

namespace MojDbIsamQuery

open MojDbQueryPlan

instance (desc : Bool) (left right : MojDbKey) : Decidable (Met desc left right) :=
  inferInstanceAs (Decidable (if desc then right < left else left < right))

/-- The stored keys in some ranges, on a page, in scan order. -/
def pageKeys (store : MojDbIndexStore) (desc : Bool) (raw : List MojDbKeyRange) (page : MojDbKey) :
    List MojDbKey :=
  (Cursor.line desc store.keys.elems).filter fun key =>
    decide ((∃ range ∈ raw, range.contains key) ∧ OnPage page desc key)

theorem covered_keys (store : MojDbIndexStore) (plan : MojDbQueryPlan) :
    (covered store plan).map Prod.fst =
      (Cursor.line plan.query.desc store.keys.elems).filter fun key =>
        decide (∃ range ∈ plan.ranges, range.contains key) := by
  rw [covered, List.map_filterMap, ← List.filterMap_eq_filter]
  congr 1
  funext key
  unfold label
  rw [Option.map_map, Option.guard]
  cases found : plan.ranges.find? fun range => decide (range.contains key) with
  | none =>
    have outside : ¬ ∃ range ∈ plan.ranges, range.contains key := by
      intro inside
      rcases inside with ⟨range, member, contained⟩
      exact absurd (decide_eq_true contained) (List.find?_eq_none.mp found range member)
    simp [outside]
  | some range =>
    have contained := List.find?_some found
    have inside : ∃ range ∈ plan.ranges, range.contains key :=
      ⟨range, List.mem_of_find?_eq_some found, of_decide_eq_true contained⟩
    simp [inside]

section Pages

variable {store : MojDbIndexStore} {indexes : List MojDbIndex} {desc : Bool}
  {raw : List MojDbKeyRange} {page : MojDbKey}

theorem pageKeys_met (store : MojDbIndexStore) (desc : Bool) (raw : List MojDbKeyRange)
    (page : MojDbKey) : (pageKeys store desc raw page).Pairwise (Met desc) :=
  (line_met desc store.keys).filter _

theorem mem_pageKeys {key : MojDbKey} : key ∈ pageKeys store desc raw page ↔
    key ∈ store.keys ∧ (∃ range ∈ raw, range.contains key) ∧ OnPage page desc key := by
  unfold pageKeys
  rw [List.mem_filter, mem_line, decide_eq_true_eq, SortedSet.mem_def]

/-- The page behind a stored key holds the keys that are met after it. -/
theorem onPage_pageKey (stored : KeysOf indexes store.keys) {key other : MojDbKey}
    (keyIn : key ∈ store.keys) (otherIn : other ∈ store.keys) :
    OnPage (if desc then key else MojDbKey.increment key) desc other ↔ Met desc key other := by
  unfold OnPage Met
  cases desc with
  | true => simp [stored.ne_nil keyIn]
  | false =>
    have bounded := stored.successor_ne_nil keyIn
    simp only [Bool.false_eq_true, if_false, MojDbKey.increment, bounded, false_or]
    have behind := below_successor_iff key other
    rw [below_iff_lt bounded] at behind
    rw [← not_lt, behind, not_or, not_lt]
    constructor
    · intro beyond
      apply lt_of_le_of_ne beyond.1
      intro same
      exact beyond.2 (same ▸ List.prefix_refl key)
    · intro before
      refine ⟨before.le, ?_⟩
      intro starts
      exact absurd (stored.eq_of_starts keyIn otherIn starts) before.ne

theorem onPage_of_met {key other : MojDbKey} (onPage : OnPage page desc key)
    (met : Met desc key other) : OnPage page desc other := by
  unfold OnPage at onPage ⊢
  unfold Met at met
  rcases onPage with noPage | onPage
  · exact Or.inl noPage
  · right
    split_ifs at met onPage ⊢
    · exact met.trans onPage
    · exact onPage.trans met.le

theorem pageKeys_next (stored : KeysOf indexes store.keys) {before behind : List MojDbKey}
    {key : MojDbKey} (split : pageKeys store desc raw page = before ++ key :: behind) :
    pageKeys store desc raw (if desc then key else MojDbKey.increment key) = behind := by
  have whole := pageKeys_met store desc raw page
  rw [split] at whole
  rcases List.pairwise_append.mp whole with ⟨_, fromKey, across⟩
  rcases List.pairwise_cons.mp fromKey with ⟨afterKey, _⟩
  have keyOn : key ∈ pageKeys store desc raw page := by
    rw [split]
    exact List.mem_append_right _ List.mem_cons_self
  have keyIn := mem_pageKeys.mp keyOn
  have narrowed : pageKeys store desc raw (if desc then key else MojDbKey.increment key) =
      (pageKeys store desc raw page).filter fun other => decide (Met desc key other) := by
    unfold pageKeys
    rw [List.filter_filter]
    apply List.filter_congr
    intro other member
    have otherIn : other ∈ store.keys := mem_line.mp member
    rw [Bool.eq_iff_iff, Bool.and_eq_true, decide_eq_true_eq, decide_eq_true_eq, decide_eq_true_eq,
      onPage_pageKey stored keyIn.1 otherIn]
    constructor
    · intro next
      exact ⟨next.2, next.1, onPage_of_met keyIn.2.2 next.2⟩
    · intro next
      exact ⟨next.2.1, next.1⟩
  rw [narrowed, split, List.filter_append, List.filter_cons]
  have irreflexive : ¬ Met desc key key := by
    unfold Met
    split_ifs <;> exact lt_irrefl key
  have noneBefore : (before.filter fun other => decide (Met desc key other)) = [] := by
    rw [List.filter_eq_nil_iff]
    intro other member met
    have earlier := across other member key List.mem_cons_self
    rw [decide_eq_true_eq] at met
    unfold Met at earlier met
    split_ifs at earlier met <;> exact lt_asymm earlier met
  have allBehind : (behind.filter fun other => decide (Met desc key other)) = behind := by
    rw [List.filter_eq_self]
    intro other member
    exact decide_eq_true (afterKey other member)
  rw [noneBefore, allBehind, if_neg (by simpa using irreflexive), List.nil_append]

end Pages

end MojDbIsamQuery

end Db8.Db
