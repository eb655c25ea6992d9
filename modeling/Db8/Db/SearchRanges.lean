import Db8.Db.PlanExact

/-!
# The ranges of a search

A search clause is multiplied out like any other: every word with every combination of the values in
front of it. The words are the innermost, so the number of a range modulo the number of words tells
the word it was made for. No range of a search is dropped, because none of the words that are left
starts another.
-/

set_option autoImplicit false

namespace Db8.Db

open Db8.Bytes
open Db8.Core

namespace MojDbQueryPlan

open WhereClause

def searchWords (locale : MojDbLocale) (clause : WhereClause) : KeySet :=
  locale.tokenize ((clause.lowerVal.map locale.stringValue).getD [])
    (locale.collatorOf clause.collation) SortedSet.empty

def keptWords (locale : MojDbLocale) (clause : WhereClause) : KeySet :=
  pushSearch locale clause.lowerVal (locale.collatorOf clause.collation)

section Words

def IsText (code : MojDbKey) : Prop := ∃ text, code = MojObjectWriter.value (.string text)

theorem assign_isText (text : MojString) (coll : Option MojDbTextCollator) :
    IsText (MojDbKey.assign (.string text) coll) := by
  cases coll with
  | none => exact ⟨text, rfl⟩
  | some coll => exact ⟨coll.sortKey text, rfl⟩

variable {locale : MojDbLocale} {clause : WhereClause}

theorem searchWords_isText {code : MojDbKey}
    (member : code ∈ searchWords locale clause) : IsText code := by
  rcases (SortedSet.mem_putAll _ _ _).mp member with word | none
  · rcases List.mem_map.mp word with ⟨text, _, rfl⟩
    exact assign_isText text _
  · exact absurd none (SortedSet.not_mem_empty code)

theorem keptWords_subset {code : MojDbKey}
    (member : code ∈ keptWords locale clause) : code ∈ searchWords locale clause :=
  (dropPrefixes_sublist _).subset member

theorem keptWords_codes : ∀ code ∈ keptWords locale clause, code ∈ MojObjectWriter.codes :=
  pushSearch_codes _ _ _

theorem dropTerminator_string (text : MojString) :
    dropTerminator (MojObjectWriter.value (.string text)) =
      4 :: MojObjectWriter.charBytes text := by
  have shape : MojObjectWriter.value (.string text) =
      (4 :: MojObjectWriter.charBytes text) ++ [0] := by
    rw [MojObjectWriter.value, MojObjectWriter.stringValue]
  rw [dropTerminator, shape, List.getLast?_append_of_ne_nil _ (by simp),
    List.dropLast_append_of_ne_nil (by simp)]
  simp

theorem stringPrefixOf_iff {word other : MojDbKey} (wordText : IsText word)
    (otherText : IsText other) : MojDbKey.stringPrefixOf word other ↔ Starts word other := by
  rcases wordText with ⟨text, rfl⟩
  rcases otherText with ⟨otherText, rfl⟩
  have stem : (MojObjectWriter.value (.string text)).dropLast =
      4 :: MojObjectWriter.charBytes text := by
    rw [MojObjectWriter.value, MojObjectWriter.stringValue, List.dropLast_concat]
  unfold MojDbKey.stringPrefixOf Starts
  rw [stem, dropTerminator_string]
  constructor
  · intro both
    exact both.2
  · intro starts
    apply And.intro _ starts
    have shorter := starts.length_le
    simp only [MojObjectWriter.value, MojObjectWriter.stringValue, List.length_cons,
      List.length_append] at shorter ⊢
    have texts := ((starts_string_iff text otherText).mp
      (by rw [Starts, dropTerminator_string]; exact starts)).length_le
    simp only [MojObjectWriter.charBytes, List.length_map]
    omega

theorem starts_trans {word other part : MojDbKey} (wordText : IsText word)
    (otherText : IsText other) (first : Starts word other) (second : Starts other part) :
    Starts word part := by
  rcases wordText with ⟨text, rfl⟩
  rcases otherText with ⟨otherText, rfl⟩
  have texts := (starts_string_iff text otherText).mp first
  rw [Starts, dropTerminator_string] at second ⊢
  have longer : (4 :: MojObjectWriter.charBytes text) <+:
      (4 :: MojObjectWriter.charBytes otherText) :=
    (List.prefix_cons_inj 4).mpr (texts.map Subtype.val)
  exact longer.trans second

theorem starts_between {word next later : MojDbKey} (first : word < next) (second : next < later)
    (starts : Starts word later) : Starts word next := by
  have inside := (below_successor_iff (dropTerminator word) later).mpr (Or.inr starts)
  have nextInside : Below next (successor (dropTerminator word)) := by
    by_cases bounded : successor (dropTerminator word) = []
    · rw [bounded]
      exact Or.inl rfl
    · rw [below_iff_lt bounded] at inside ⊢
      exact second.trans inside
  rcases (below_successor_iff _ _).mp nextInside with before | starts
  · have stem := le_of_starts (dropTerminator_stem word).starts
    exact absurd (before.trans_le stem) (not_lt.mpr first.le)
  · exact starts

theorem dropPrefixes_separate {words : List MojDbKey} (texts : ∀ word ∈ words, IsText word)
    (sorted : words.Pairwise (· < ·)) :
    (dropPrefixes words).Pairwise fun word later => ¬ Starts word later := by
  induction words with
  | nil => exact List.Pairwise.nil
  | cons word words ih =>
    cases words with
    | nil => exact List.pairwise_singleton _ _
    | cons next words =>
      rcases List.pairwise_cons.mp sorted with ⟨below, rest⟩
      have tail := ih (fun other member => texts other (List.mem_cons_of_mem _ member)) rest
      rw [dropPrefixes]
      split_ifs with starts
      · exact tail
      · apply List.pairwise_cons.mpr
        apply And.intro _ tail
        intro later laterIn reaches
        rw [stringPrefixOf_iff (texts word List.mem_cons_self)
          (texts next (List.mem_cons_of_mem _ List.mem_cons_self))] at starts
        rcases List.mem_cons.mp ((dropPrefixes_sublist _).subset laterIn) with rfl | behind
        · exact starts reaches
        · exact starts (starts_between (below next List.mem_cons_self)
            ((List.pairwise_cons.mp rest).1 later behind) reaches)

theorem dropPrefixes_covers {words : List MojDbKey} (texts : ∀ word ∈ words, IsText word)
    {word : MojDbKey} (member : word ∈ words) : ∃ kept ∈ dropPrefixes words, Starts word kept := by
  induction words generalizing word with
  | nil => exact absurd member List.not_mem_nil
  | cons first words ih =>
    have tailTexts : ∀ other ∈ words, IsText other :=
      fun other otherIn => texts other (List.mem_cons_of_mem _ otherIn)
    have itself : Starts first first := (dropTerminator_stem first).starts
    cases words with
    | nil =>
      rw [List.mem_singleton.mp member]
      exact ⟨first, List.mem_cons_self, itself⟩
    | cons next words =>
      rw [dropPrefixes]
      rcases List.mem_cons.mp member with rfl | behind
      · split_ifs with starts
        · rcases ih tailTexts List.mem_cons_self with ⟨kept, keptIn, reaches⟩
          have nextText := tailTexts next List.mem_cons_self
          have wordText := texts word List.mem_cons_self
          rw [stringPrefixOf_iff wordText nextText] at starts
          exact ⟨kept, keptIn, starts_trans wordText nextText starts reaches⟩
        · exact ⟨word, List.mem_cons_self, itself⟩
      · rcases ih tailTexts behind with ⟨kept, keptIn, reaches⟩
        split_ifs
        · exact ⟨kept, keptIn, reaches⟩
        · exact ⟨kept, List.mem_cons_of_mem _ keptIn, reaches⟩

/-- All words start a value exactly when each of the kept ones starts it or another value does. -/
theorem forall_kept_iff (locale : MojDbLocale) (clause : WhereClause)
    (indexed : MojDbKey → Prop) :
    (∀ word ∈ keptWords locale clause, ∃ code, indexed code ∧ Starts word code) ↔
      ∀ word ∈ searchWords locale clause, ∃ code, indexed code ∧ Starts word code := by
  constructor
  · intro kept word member
    rcases dropPrefixes_covers (fun other otherIn => searchWords_isText otherIn) member with
      ⟨longer, longerIn, starts⟩
    rcases kept longer longerIn with ⟨code, here, reaches⟩
    exact ⟨code, here, starts_trans (searchWords_isText member)
      (searchWords_isText (keptWords_subset longerIn)) starts reaches⟩
  · intro every word member
    exact every word (keptWords_subset member)

theorem keptWords_ne_nil
    (some : (searchWords locale clause).elems ≠ []) : (keptWords locale clause).elems ≠ [] := by
  rcases List.exists_mem_of_ne_nil _ some with ⟨word, member⟩
  rcases dropPrefixes_covers (fun other otherIn => searchWords_isText otherIn) member with
    ⟨kept, keptIn, _⟩
  exact List.ne_nil_of_mem keptIn

end Words

section Ranges

/-- The ranges of the words behind one combination of the values in front of them. -/
def wordRanges (words : List MojDbKey) (front : MojDbKey) : List MojDbKeyRange :=
  words.mapIdx fun place word =>
    ⟨front ++ word, successor (front ++ dropTerminator word), place⟩

/-- With words in the last set, the keys of a builder come front by front. -/
theorem keys_concat {stack : List KeySet} (started : stack ≠ []) (codeSets : CodeSets stack)
    (words : KeySet) : (MojDbKeyBuilder.keys (stack ++ [words])).elems =
      (MojDbKeyBuilder.keys stack).elems.flatMap fun front => words.elems.map (front ++ ·) := by
  have free := MojObjectWriter.codes_prefixFree.words stack.length
  apply SortedSet.list_eq_of_mem_iff (SortedSet.sorted _)
  · rw [List.pairwise_flatMap]
    constructor
    · intro front _
      rw [List.pairwise_map]
      exact words.sorted.imp fun below => (append_lt_append_left_iff _ _ _).mpr below
    · refine (MojDbKeyBuilder.keys stack).sorted.imp_of_mem ?_
      intro left right leftIn rightIn below first firstIn second secondIn
      rcases List.mem_map.mp firstIn with ⟨word, _, rfl⟩
      rcases List.mem_map.mp secondIn with ⟨other, _, rfl⟩
      rw [free.append_lt_append_iff (keys_words codeSets left leftIn)
        (keys_words codeSets right rightIn)]
      exact Or.inl below
  · intro key
    rw [← SortedSet.mem_def, mem_keys_concat started, List.mem_flatMap]
    simp only [List.mem_map, eq_comm]
    rfl

variable {clause : WhereClause}

theorem boundsFromKeys_search (search : clause.lowerOp = .search)
    (openAbove : clause.upperOp = .none) {key : MojDbKey} (nonempty : key ≠ [])
    (index groupCount : Nat) : boundsFromKeys key key key index groupCount (some clause) =
      .ok [⟨key, successor (dropTerminator key), index % groupCount⟩] := by
  simp [boundsFromKeys, upperBound, search, openAbove, mojAssert, bind, Except.bind,
    MojDbKey.increment, nonempty]

theorem boundsFromKeySets_search (search : clause.lowerOp = .search)
    (openAbove : clause.upperOp = .none) (groupCount : Nat) {keys : List MojDbKey}
    (nonempty : ∀ key ∈ keys, key ≠ []) (start : Nat) :
    boundsFromKeySets groupCount (some clause) start keys keys keys =
      .ok (keys.mapIdx fun place key =>
        ⟨key, successor (dropTerminator key), (start + place) % groupCount⟩) := by
  induction keys generalizing start with
  | nil => rfl
  | cons key keys ih =>
    have later := ih (fun other member => nonempty other (List.mem_cons_of_mem _ member))
      (start + 1)
    have shifted : (fun place (other : MojDbKey) => (⟨other, successor (dropTerminator other),
        (start + 1 + place) % groupCount⟩ : MojDbKeyRange)) = fun place other =>
        ⟨other, successor (dropTerminator other), (start + (place + 1)) % groupCount⟩ := by
      funext place other
      rw [Nat.add_assoc, Nat.add_comm 1]
    rw [shifted] at later
    rw [boundsFromKeySets, boundsFromKeys_search search openAbove
      (nonempty key List.mem_cons_self), later, List.mapIdx_cons]
    rfl

theorem mapIdx_fronts {words fronts : List MojDbKey} (codes : ∀ word ∈ words, word ≠ [])
    {start : Nat} (whole : words.length ∣ start) :
    ((fronts.flatMap fun front => words.map (front ++ ·)).mapIdx fun place key =>
      (⟨key, successor (dropTerminator key), (start + place) % words.length⟩ : MojDbKeyRange)) =
      fronts.flatMap (wordRanges words) := by
  induction fronts generalizing start with
  | nil => rfl
  | cons front fronts ih =>
    have later := @ih (start + words.length) (Nat.dvd_add whole (Nat.dvd_refl _))
    rw [List.flatMap_cons, List.flatMap_cons, List.mapIdx_append]
    congr 1
    · rw [wordRanges]
      apply List.ext_getElem
      · simp
      · intro place inLeft inRight
        have within : place < words.length := by simpa using inRight
        have small : (start + place) % words.length = place := by
          rw [Nat.add_mod, Nat.mod_eq_zero_of_dvd whole, Nat.zero_add, Nat.mod_mod,
            Nat.mod_eq_of_lt within]
        simp only [List.getElem_mapIdx, List.getElem_map, small,
          dropTerminator_append front (codes _ (List.getElem_mem within))]
    · rw [← later, List.length_map]
      congr 1
      funext place key
      rw [Nat.add_assoc, Nat.add_comm place]

/-- A range behind which the next word begins is never a place for that word. -/
theorem stems_precede {left right leftStem rightStem : MojDbKey} (below : left < right)
    (leftIs : StemOf leftStem left) (rightIs : StemOf rightStem right)
    (rightBounded : successor rightStem ≠ []) (separate : ¬ leftStem <+: right)
    (leftGroup rightGroup : Nat) : MojDbKeyRange.Precedes ⟨left, successor leftStem, leftGroup⟩
      ⟨right, successor rightStem, rightGroup⟩ := by
  have gap := (successor_le_of_separate ((le_of_starts leftIs.starts).trans_lt below) separate).2
  have inside := (below_successor_iff rightStem right).mpr (Or.inr rightIs.starts)
  constructor
  · exact gap
  · exact below.le
  · exact gap.trans ((below_iff_lt rightBounded right).mp inside).le

theorem foldl_pushRange_self {raw kept : List MojDbKeyRange}
    (bounded : ∀ range ∈ raw, range.upperKey ≠ []) (keptBounded : ∀ range ∈ kept, range.upperKey ≠ [])
    (ordered : (kept ++ raw).Pairwise MojDbKeyRange.Precedes) :
    raw.foldl pushRange kept = kept ++ raw := by
  induction raw generalizing kept with
  | nil => rw [List.append_nil, List.foldl_nil]
  | cons range raw ih =>
    have here := bounded range List.mem_cons_self
    have pushed : pushRange kept range = kept ++ [range] := by
      unfold pushRange
      cases last : kept.getLast? with
      | none =>
        rw [List.getLast?_eq_none_iff] at last
        rw [last]
        rfl
      | some back =>
        have backIn := List.mem_of_getLast? last
        have front := (List.pairwise_append.mp ordered).2.2 back backIn range List.mem_cons_self
        apply if_neg
        intro encloses
        have inside := ((MojDbKeyRange.contains_iff _ _).mp encloses.1).2
        rw [below_iff_lt (keptBounded back backIn)] at inside
        exact absurd front.apart (not_le.mpr inside)
    rw [List.foldl_cons, pushed, ih, List.append_assoc, List.singleton_append]
    · exact fun other member => bounded other (List.mem_cons_of_mem _ member)
    · intro other member
      rcases List.mem_append.mp member with old | new
      · exact keptBounded other old
      · rw [List.mem_singleton.mp new]
        exact here
    · rwa [List.append_assoc, List.singleton_append]

theorem foldl_addRange_self {query : MojDbQuery} (noPage : query.page = [])
    {raw : List MojDbKeyRange} (bounded : ∀ range ∈ raw, range.upperKey ≠ [])
    (ordered : raw.Pairwise MojDbKeyRange.Precedes) : raw.foldl (addRange query) [] = raw := by
  have unclipped : raw.filterMap (clipToPage query.page query.desc) = raw := by
    rw [noPage]
    exact List.filterMap_some
  rw [foldl_addRange, unclipped, foldl_pushRange_self bounded (by simp) (by simpa using ordered)]
  rfl

variable {index : MojDbIndex} {query : MojDbQuery} {eqs : List (MojString × WhereClause)}
  {last : MojString × WhereClause} {rest : List MojString}

/-- The ranges of a search: for each combination of the values in front, one for each word. -/
def searchRanges (index : MojDbIndex) (eqs : List (MojString × WhereClause))
    (clause : WhereClause) : List MojDbKeyRange :=
  (MojDbKeyBuilder.keys (frontSets index eqs)).elems.flatMap
    (wordRanges (keptWords index.locale clause).elems)

theorem front_word {front : MojDbKey} (member : front ∈ MojDbKeyBuilder.keys (frontSets index eqs)) :
    front ∈ Words MojObjectWriter.codes (eqs.length + 1) := by
  have word := keys_words (codeSets_front index eqs) front member
  rwa [frontSets, List.length_cons, List.length_map] at word

theorem mem_searchRanges (range : MojDbKeyRange) :
    range ∈ searchRanges index eqs clause ↔
      ∃ front ∈ MojDbKeyBuilder.keys (frontSets index eqs),
        ∃ place, ∃ word, (keptWords index.locale clause).elems[place]? = some word ∧
          range = ⟨front ++ word, successor (front ++ dropTerminator word), place⟩ := by
  rw [searchRanges, List.mem_flatMap]
  apply exists_congr
  intro front
  apply and_congr_right
  intro _
  rw [wordRanges, List.mem_mapIdx]
  constructor
  · rintro ⟨place, within, rfl⟩
    exact ⟨place, _, List.getElem?_eq_getElem within, rfl⟩
  · rintro ⟨place, word, there, rfl⟩
    rcases List.getElem?_eq_some_iff.mp there with ⟨within, rfl⟩
    exact ⟨place, within, rfl⟩

theorem searchRanges_bounded : ∀ range ∈ searchRanges index eqs clause, range.upperKey ≠ [] := by
  intro range member
  rcases (mem_searchRanges range).mp member with ⟨front, frontIn, place, word, _, rfl⟩
  exact word_successor_ne_nil (front_word frontIn) _

theorem searchRanges_ordered : (searchRanges index eqs clause).Pairwise MojDbKeyRange.Precedes := by
  have free := MojObjectWriter.codes_prefixFree.words (eqs.length + 1)
  have nonempty : ∀ word ∈ keptWords index.locale clause, word ≠ [] :=
    fun word member => code_ne_nil (keptWords_codes word member)
  have stem : ∀ (front : MojDbKey), ∀ word ∈ keptWords index.locale clause,
      StemOf (front ++ dropTerminator word) (front ++ word) := by
    intro front word member
    rw [← dropTerminator_append front (nonempty word member)]
    exact dropTerminator_stem _
  unfold searchRanges
  rw [List.pairwise_flatMap]
  constructor
  · intro front frontIn
    rw [wordRanges, List.pairwise_iff_getElem]
    intro left right inLeft inRight below
    simp only [List.getElem_mapIdx]
    rw [List.length_mapIdx] at inLeft inRight
    have sorted := List.pairwise_iff_getElem.mp (keptWords index.locale clause).sorted left right
      inLeft inRight below
    have separate := List.pairwise_iff_getElem.mp (dropPrefixes_separate
      (fun word (member : word ∈ (searchWords index.locale clause).elems) =>
        searchWords_isText member) (searchWords index.locale clause).sorted) left right
      inLeft inRight below
    apply stems_precede
    · exact (append_lt_append_left_iff _ _ _).mpr sorted
    · exact stem front _ (List.getElem_mem inLeft)
    · exact stem front _ (List.getElem_mem inRight)
    · exact word_successor_ne_nil (front_word frontIn) _
    · rw [List.prefix_append_right_inj]
      exact separate
  · refine (MojDbKeyBuilder.keys (frontSets index eqs)).sorted.imp_of_mem ?_
    intro left right leftIn rightIn below first firstIn second secondIn
    rcases List.mem_mapIdx.mp firstIn with ⟨leftPlace, leftWithin, rfl⟩
    rcases List.mem_mapIdx.mp secondIn with ⟨rightPlace, rightWithin, rfl⟩
    apply stems_precede
    · rw [free.append_lt_append_iff (front_word leftIn) (front_word rightIn)]
      exact Or.inl below
    · exact stem left _ (List.getElem_mem leftWithin)
    · exact stem right _ (List.getElem_mem rightWithin)
    · exact word_successor_ne_nil (front_word rightIn) _
    · intro starts
      exact below.ne (free.append_prefix_append (front_word leftIn) (front_word rightIn) starts).1

/-- The plan of a search on an index whose properties its clauses lie over. -/
theorem buildRanges_search (answered : Answered index query (eqs ++ [last]) rest)
    (search : last.2.lowerOp = .search) (noPage : query.page = []) :
    buildRanges query index = .ok ⟨query, searchRanges index eqs last.2,
      (keptWords index.locale last.2).elems.length, 0⟩ := by
  have accepted := answered.accepted last (List.mem_append_right _ (List.mem_singleton.mpr rfl))
  have openAbove := accepted_eq_openAbove accepted (Or.inr (Or.inr search))
  have started : frontSets index eqs ≠ [] := List.cons_ne_nil _ _
  have nonempty : ∀ word ∈ (keptWords index.locale last.2).elems, word ≠ [] :=
    fun word member => code_ne_nil (keptWords_codes word member)
  rcases buildRanges_eq answered with ⟨before, built⟩
  have pushed : pushClause index.locale
      ⟨frontSets index eqs, frontSets index eqs, SortedSet.empty, before, 0⟩ last.2 =
      ⟨frontSets index eqs ++ [keptWords index.locale last.2],
        frontSets index eqs ++ [keptWords index.locale last.2], SortedSet.empty, some last.2,
        (keptWords index.locale last.2).elems.length⟩ := by
    rw [pushClause, if_pos search]
    rfl
  have keysNonempty : ∀ key ∈ (MojDbKeyBuilder.keys
      (frontSets index eqs ++ [keptWords index.locale last.2])).elems, key ≠ [] := by
    intro key member
    rw [← SortedSet.mem_def, mem_keys_concat started] at member
    rcases member with ⟨front, _, word, wordIn, rfl⟩
    exact List.append_ne_nil_of_right_ne_nil _ (code_ne_nil (keptWords_codes word wordIn))
  have raw := boundsFromKeySets_search search openAbove
    (keptWords index.locale last.2).elems.length keysNonempty 0
  rw [keys_concat started (codeSets_front index eqs),
    mapIdx_fronts nonempty (Nat.dvd_zero _), ← keys_concat started (codeSets_front index eqs)] at raw
  have ranges := rangesFromKeySets_ok query rfl rfl raw
  rw [← searchRanges, foldl_addRange_self noPage searchRanges_bounded searchRanges_ordered]
    at ranges
  rw [built, pushed]
  simp only [rangesFromBuilders, SortedSet.elems_empty, if_true, ranges, bind, Except.bind]

/-- A key lies in a range of a word when its values answer the clauses in front and the word starts
the one behind them. -/
theorem exists_searchRange_iff (answered : Answered index query (eqs ++ [last]) rest)
    {parts : List MojDbKey} {key : MojDbKey} (spells : index.Spells parts key) (place : Nat) :
    (∃ range ∈ searchRanges index eqs last.2, range.contains key ∧ range.group = place) ↔
      List.Forall₂ (fun entry part => entry.2.Holds index.locale part) eqs
          (parts.take eqs.length) ∧
        ∃ word, (keptWords index.locale last.2).elems[place]? = some word ∧
          ∃ part, parts[eqs.length]? = some part ∧ Starts word part := by
  have enough : eqs.length < parts.length := by
    have names := congrArg List.length answered.names
    simp only [MojDbIndex.names, propNames, List.length_map, List.length_append,
      List.length_singleton] at names
    rw [spells.length]
    omega
  have eqsAccepted : ∀ entry ∈ eqs, entry.2.Accepted := fun entry member =>
    answered.accepted entry (List.mem_append_left _ member)
  have eqsEq : ∀ entry ∈ eqs, entry.2.lowerOp = .eq := fun entry member =>
    answered.equalities entry (by simpa using member)
  have code := spells.codes _ (List.getElem_mem enough)
  have frontCodes : ∀ part ∈ parts.take eqs.length, part ∈ MojObjectWriter.codes :=
    fun part member => spells.codes part (List.mem_of_mem_take member)
  rcases spells.split enough with ⟨word, keyEq⟩
  have inside : ∀ (front other : MojDbKey) (number : Nat),
      front ∈ MojDbKeyBuilder.keys (frontSets index eqs) →
      other ∈ keptWords index.locale last.2 →
      (MojDbKeyRange.contains ⟨front ++ other, successor (front ++ dropTerminator other), number⟩
        key ↔ front = MojDbKey.assign index.id none ++ (parts.take eqs.length).flatten ∧
          Starts other parts[eqs.length]) := by
    intro front other number frontIn otherIn
    rw [keyEq, contains_stem_range (front_word frontIn) word (dropTerminator_stem other)
      (keptWords_codes other otherIn) code]
    rfl
  rw [← mem_keys_front index eqsAccepted eqsEq (List.length_take_of_le enough.le) frontCodes]
  constructor
  · rintro ⟨range, member, contained, group⟩
    rcases (mem_searchRanges range).mp member with ⟨front, frontIn, number, other, there, rfl⟩
    rcases (inside front other number frontIn (List.mem_of_getElem? there)).mp contained with
      ⟨rfl, starts⟩
    cases group
    exact ⟨frontIn, other, there, _, List.getElem?_eq_getElem enough, starts⟩
  · rintro ⟨frontIn, other, there, part, here, starts⟩
    rw [List.getElem?_eq_getElem enough] at here
    cases here
    apply Exists.intro ⟨_ ++ other, successor (_ ++ dropTerminator other), place⟩
    constructor
    · exact (mem_searchRanges _).mpr ⟨_, frontIn, place, other, there, rfl⟩
    · constructor
      · exact (inside _ other place frontIn (List.mem_of_getElem? there)).mpr ⟨rfl, starts⟩
      · rfl

theorem searchRange_own {range : MojDbKeyRange} {key : MojDbKey}
    (member : range ∈ searchRanges index eqs clause) (inside : range.contains key) :
    MojDbKey.assign index.id none <+: key := by
  rcases (mem_searchRanges range).mp member with ⟨front, frontIn, place, word, there, rfl⟩
  have nonempty := code_ne_nil (keptWords_codes word (List.mem_of_getElem? there))
  have own : MojDbKey.assign index.id none <+: front := by
    rw [frontSets, MojDbKeyBuilder.mem_keys_iff, MojDbKeyBuilder.mem_product_cons] at frontIn
    rcases frontIn with ⟨id, idIn, tail, _, rfl⟩
    rw [(SortedSet.mem_single _ _).mp idIn]
    exact List.prefix_append _ _
  rw [MojDbKeyRange.contains_iff, below_successor_iff] at inside
  rcases inside.2 with below | starts
  · have lower : front ++ dropTerminator word ≤ front ++ word :=
      (append_le_append_left_iff _ _ _).mpr (le_of_starts (dropTerminator_stem word).starts)
    exact absurd (below.trans_le lower) (not_lt.mpr inside.1)
  · exact own.trans ((List.prefix_append _ _).trans starts)

end Ranges

end MojDbQueryPlan

end Db8.Db
