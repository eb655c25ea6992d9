import Db8.Core.FilterRuns
import Db8.Core.Projection
import Db8.Db.Extractor
import Db8.Db.StoredRoundTrip

/-!
# Selected properties of stored objects

A find with a select clause puts a filter between a stored item and what is built of it. An item visits
its header before the other properties, so the filter has left all names behind that come before the
revision's when the others are visited.
-/

set_option autoImplicit false

namespace Db8.Db

open Db8.Bytes
open Db8.Core
open MojDb
open MojObject (Sorted)

/-- The select set of a query, none of whose paths goes on from another. -/
structure SelectSet where
  props : SortedSet MojString
  nonempty : props.elems ≠ []
  path_ne_nil : ∀ prop ∈ props.elems, split propComponentSeparator [] prop ≠ []
  separate : Diverging (props.elems.map (split propComponentSeparator []))

namespace SelectSet

def paths (select : SelectSet) : List (List MojString) :=
  select.props.elems.map (split propComponentSeparator [])

end SelectSet

/-- `visit` of a storage item. -/
def visitItem (registry : KindRegistry) (tokenSet : MojString → Except MojErr MojTokenSet)
    (id : MojObject) (bytes : ByteString) : Except MojErr (List VisitorCall) := do
  let (header, reader) ← MojDbObjectHeader.read id registry bytes
  let set ← tokenSet (header.kindId.getD [])
  let calls ← MojItemReader.read set ⟨reader.bytes, reader.stack, true⟩
  .ok (header.visits ++ calls)

/-- The calls that get through the filter of a select set, which is there unless the set is empty. -/
def selectCalls (selectProps : SortedSet MojString) (calls : List VisitorCall) :
    Except MojErr (List VisitorCall) :=
  if selectProps = SortedSet.empty then .ok calls
  else do
    let root := Node.init (selectProps.elems.map (split propComponentSeparator []))
    let (_, calls) ← (MojObjectFilter.setVisitor root).visits calls
    .ok calls

/-- `MojDbCursor::get` for the next item: `visitObject` with a builder. -/
def getSelected (selectProps : SortedSet MojString) (registry : KindRegistry)
    (tokenSet : MojString → Except MojErr MojTokenSet) (id : MojObject) (bytes : ByteString) :
    Except MojErr (Option MojObject) := do
  let calls ← visitItem registry tokenSet id bytes
  let calls ← selectCalls selectProps calls
  let builder ← calls.foldlM MojObjectBuilder.visit MojObjectBuilder.empty
  .ok builder.obj

/-- The projection of an object on some paths, empty if it has none of them. -/
def projectObject (paths : List (List MojString)) (obj : MojObject) : MojObject :=
  .object (MojObject.projectProps paths obj.map)

/-- The names that are met although the header is visited first. -/
def metBehindHeader (name : MojString) : Bool :=
  name = idKey ∨ name = kindKey ∨ name = revKey ∨ revKey.map Subtype.val < name.map Subtype.val

/-- Nothing of the projection of an object is behind a greater name, the header's among them. -/
def unmissedStored (paths : List (List MojString)) (obj : MojObject) : Bool :=
  obj.map.all fun prop =>
    (!(MojObject.project (below prop.1 paths) prop.2).isSome ||
      (metBehindHeader prop.1 && clear paths prop.1)) &&
    MojObject.unmissed (below prop.1 paths) prop.2

section Header

variable {nodes : List Node}

theorem advance_behind {name later : MojString}
    (before : name.map Subtype.val < later.map Subtype.val) (nodes : List Node) :
    Node.advance name (Node.advance later nodes) = Node.advance later nodes := by
  induction nodes with
  | nil => rfl
  | cons node nodes ih =>
    rw [advance_cons later]
    split_ifs with passed
    · exact ih
    · rw [advance_cons name, if_neg fun less => passed (lt_trans less before)]

theorem advance_head {later : MojString} {nodes others : List Node} {node : Node}
    (found : Node.advance later nodes = node :: others) :
    ¬ node.propName.map Subtype.val < later.map Subtype.val := by
  induction nodes with
  | nil => cases found
  | cons first nodes ih =>
    rw [advance_cons] at found
    split_ifs at found with passed
    · exact ih found
    · cases found
      exact passed

theorem walkOne_behind {name later : MojString}
    (before : name.map Subtype.val < later.map Subtype.val) (nodes : List Node) (val : MojObject) :
    Node.walkOne (Node.advance later nodes) name val = none := by
  unfold Node.walkOne
  rw [advance_behind before]
  cases found : Node.advance later nodes with
  | nil => rfl
  | cons node others =>
    apply if_pos
    rintro rfl
    exact advance_head found before

theorem walk_append (nodes : List Node) (front back : List (MojString × MojObject)) :
    Node.walk nodes (front ++ back) = Node.walk nodes front ++
      Node.walk (front.foldl (fun nodes prop => Node.advance prop.1 nodes) nodes) back := by
  induction front generalizing nodes with
  | nil => rfl
  | cons head front ih =>
    rcases head with ⟨name, val⟩
    rw [List.cons_append, walk_cons, walk_cons, ih, List.foldl_cons]
    cases Node.walkOne nodes name val with
    | none => rfl
    | some kept => rfl

def storedOne (nodes : List Node) (name : MojString) (val : MojObject) : Option MojObject :=
  if metBehindHeader name then Node.walkOne nodes name val else none

def headerProps (id : MojObject) (kindId : MojString) (rev : MojInt64) :
    List (MojString × MojObject) :=
  [(idKey, id), (kindKey, .string kindId), (revKey, .int rev)]

theorem header_order : idKey.map Subtype.val < kindKey.map Subtype.val ∧
    kindKey.map Subtype.val < revKey.map Subtype.val ∧
    delKey.map Subtype.val < revKey.map Subtype.val := by
  decide

theorem sorted_headerProps (id : MojObject) (kindId : MojString) (rev : MojInt64) :
    Sorted (headerProps id kindId rev) := by
  have order := header_order
  apply MojObject.sorted_cons.mpr
  refine ⟨?_, MojObject.sorted_cons.mpr ⟨?_, List.pairwise_singleton _ _⟩⟩
  · simp only [List.forall_mem_cons, List.not_mem_nil, false_implies, implies_true, and_true]
    exact ⟨order.1, lt_trans order.1 order.2.1⟩
  · simp only [List.forall_mem_cons, List.not_mem_nil, false_implies, implies_true, and_true]
    exact order.2.1

theorem walkOne_header (nodes : List Node) {name : MojString} (val : MojObject)
    (apart : name ≠ idKey ∧ name ≠ kindKey ∧ name ≠ revKey) :
    Node.walkOne (Node.advance revKey nodes) name val = storedOne nodes name val := by
  unfold storedOne
  by_cases above : revKey.map Subtype.val < name.map Subtype.val
  · have met : metBehindHeader name = true := decide_eq_true (Or.inr (Or.inr (Or.inr above)))
    rw [walkOne_advance above, if_pos met]
  · have unmet : ¬ metBehindHeader name = true := by
      intro met
      rcases of_decide_eq_true met with is | is | is | is
      · exact apart.1 is
      · exact apart.2.1 is
      · exact apart.2.2 is
      · exact above is
    rw [walkOne_behind (MojObject.names_lt_or apart.2.2.symm above), if_neg unmet]

theorem walk_stored (nodes : List Node) (id : MojObject) (kindId : MojString) (rev : MojInt64)
    (del : Bool) {body : List (MojString × MojObject)} (sorted : Sorted body)
    (apart : ∀ prop ∈ body, prop.1 ≠ idKey ∧ prop.1 ≠ kindKey ∧ prop.1 ≠ revKey) :
    Node.walk nodes (MojDbObjectHeader.props ⟨id, some kindId, rev, del⟩ ++ body) =
      (headerProps id kindId rev ++ body).filterMap fun prop =>
        (storedOne nodes prop.1 prop.2).map (Prod.mk prop.1) := by
  rcases header_order with ⟨idKind, kindRev, delRev⟩
  have split : MojDbObjectHeader.props ⟨id, some kindId, rev, del⟩ ++ body =
      headerProps id kindId rev ++ ((if del then [(delKey, .bool true)] else []) ++ body) :=
    List.append_assoc _ _ _
  have left : (headerProps id kindId rev).foldl (fun nodes prop => Node.advance prop.1 nodes) nodes =
      Node.advance revKey nodes := by
    change Node.advance revKey (Node.advance kindKey (Node.advance idKey nodes)) = _
    rw [advance_advance idKind, advance_advance kindRev]
  have flagged : Node.walk (Node.advance revKey nodes)
      ((if del then [(delKey, .bool true)] else []) ++ body) =
        Node.walk (Node.advance revKey nodes) body := by
    cases del with
    | false => rfl
    | true =>
      rw [if_pos rfl, List.singleton_append, walk_cons, walkOne_behind delRev,
        advance_behind delRev]
  have front : (headerProps id kindId rev).filterMap
      (fun prop => (Node.walkOne nodes prop.1 prop.2).map (Prod.mk prop.1)) =
        (headerProps id kindId rev).filterMap fun prop =>
          (storedOne nodes prop.1 prop.2).map (Prod.mk prop.1) := by
    apply List.filterMap_congr
    intro prop there
    have met : metBehindHeader prop.1 = true := by
      unfold headerProps at there
      rcases List.mem_cons.mp there with rfl | there
      · rfl
      · rcases List.mem_cons.mp there with rfl | there
        · rfl
        · rw [List.mem_singleton.mp there]
          rfl
    rw [storedOne, if_pos met]
  have back : body.filterMap (fun prop =>
      (Node.walkOne (Node.advance revKey nodes) prop.1 prop.2).map (Prod.mk prop.1)) =
        body.filterMap fun prop => (storedOne nodes prop.1 prop.2).map (Prod.mk prop.1) := by
    apply List.filterMap_congr
    intro prop there
    rw [walkOne_header nodes prop.2 (apart prop there)]
  rw [split, walk_append, left, flagged, walk_sorted nodes (sorted_headerProps id kindId rev),
    walk_sorted _ sorted, List.filterMap_append, front, back]

theorem header_perm {obj : MojObject} (wellFormed : obj.WellFormed) {id : MojObject}
    {kindId : MojString} {rev : MojInt64} (own : obj.get idKey = some id)
    (kind : obj.get kindKey = some (.string kindId)) (revision : obj.get revKey = some (.int rev))
    {body : List (MojString × MojObject)}
    (rest : ((obj.del idKey).del kindKey).del revKey = .object body) :
    Sorted obj.map ∧ Sorted body ∧
      (∀ prop ∈ body, prop.1 ≠ idKey ∧ prop.1 ≠ kindKey ∧ prop.1 ≠ revKey) ∧
      (headerProps id kindId rev ++ body).Perm obj.map := by
  cases obj with
  | object props =>
    rw [MojObject.WellFormed] at wellFormed
    cases rest
    have bodyIff : ∀ prop, prop ∈ ((props.filter fun prop => decide (prop.1 ≠ idKey)).filter
        fun prop => decide (prop.1 ≠ kindKey)).filter (fun prop => decide (prop.1 ≠ revKey)) ↔
        prop ∈ props ∧ prop.1 ≠ idKey ∧ prop.1 ≠ kindKey ∧ prop.1 ≠ revKey := by
      intro prop
      simp only [List.mem_filter, decide_eq_true_eq, and_assoc]
    have sorted : Sorted props := wellFormed.1
    have bodySorted := MojObject.sorted_filter (MojObject.sorted_filter (MojObject.sorted_filter sorted
      (fun prop => decide (prop.1 ≠ idKey))) (fun prop => decide (prop.1 ≠ kindKey)))
      (fun prop => decide (prop.1 ≠ revKey))
    refine ⟨sorted, bodySorted, fun prop there => ((bodyIff prop).mp there).2, ?_⟩
    have nodup : ∀ {list : List (MojString × MojObject)}, Sorted list → list.Nodup :=
      fun sorted => List.Nodup.of_map _ (MojObject.sorted_names_nodup sorted)
    have names := MojObject.sorted_names_nodup sorted
    have header : ∀ prop, prop ∈ headerProps id kindId rev ↔
        prop ∈ props ∧ ¬ (prop.1 ≠ idKey ∧ prop.1 ≠ kindKey ∧ prop.1 ≠ revKey) := by
      rintro ⟨name, val⟩
      unfold headerProps
      simp only [List.mem_cons, List.not_mem_nil, or_false, Prod.mk.injEq]
      constructor
      · rintro (⟨rfl, rfl⟩ | ⟨rfl, rfl⟩ | ⟨rfl, rfl⟩)
        · exact ⟨MojObject.mem_of_find own, fun others => others.1 rfl⟩
        · exact ⟨MojObject.mem_of_find kind, fun others => others.2.1 rfl⟩
        · exact ⟨MojObject.mem_of_find revision, fun others => others.2.2 rfl⟩
      · rintro ⟨there, notOthers⟩
        have found : (MojObject.object props).get name = some val := MojObject.find_of_mem sorted there
        by_cases isId : name = idKey
        · rw [isId, own] at found
          exact Or.inl ⟨isId, (Option.some.inj found).symm⟩
        · by_cases isKind : name = kindKey
          · rw [isKind, kind] at found
            exact Or.inr (Or.inl ⟨isKind, (Option.some.inj found).symm⟩)
          · by_cases isRev : name = revKey
            · rw [isRev, revision] at found
              exact Or.inr (Or.inr ⟨isRev, (Option.some.inj found).symm⟩)
            · exact absurd ⟨isId, isKind, isRev⟩ notOthers
    apply (List.perm_ext_iff_of_nodup _ (nodup sorted)).mpr
    · intro prop
      rw [List.mem_append, bodyIff, header, ← and_or_left, or_comm, and_iff_left (em _)]
    · rw [List.nodup_append]
      refine ⟨nodup (sorted_headerProps id kindId rev), nodup bodySorted, ?_⟩
      intro one front other back same
      exact ((header one).mp front).2 ((bodyIff one).mp (same ▸ back)).2
  | _ => cases own

end Header

section Selecting

theorem storedOne_keeps {paths : List (List MojString)} {nodes : List Node}
    (represents : Represents nodes paths) {props : List (MojString × MojObject)}
    (wellFormed : MojObject.WellFormedProps props) :
    ∀ prop ∈ props, Keeps (storedOne nodes prop.1 prop.2)
      (MojObject.project (below prop.1 paths) prop.2)
      (((!(MojObject.project (below prop.1 paths) prop.2).isSome ||
        (metBehindHeader prop.1 && clear paths prop.1)) &&
          MojObject.unmissed (below prop.1 paths) prop.2) = true) := by
  intro prop there
  rcases walkOne_keeps props wellFormed represents prop there with ⟨fewer, same⟩
  have condition : ((!(MojObject.project (below prop.1 paths) prop.2).isSome ||
      (metBehindHeader prop.1 && clear paths prop.1)) &&
        MojObject.unmissed (below prop.1 paths) prop.2) = true ↔
      (MojObject.project (below prop.1 paths) prop.2 ≠ none →
        metBehindHeader prop.1 = true ∧ clear paths prop.1 = true) ∧
        MojObject.unmissed (below prop.1 paths) prop.2 = true := by
    rw [Bool.and_eq_true, Bool.or_eq_true, Bool.not_eq_true', Option.isSome_eq_false_iff,
      Option.isNone_iff_eq_none, Bool.and_eq_true, or_iff_not_imp_left]
  rw [condition, storedOne]
  by_cases met : metBehindHeader prop.1 = true
  · rw [if_pos met]
    refine ⟨fewer, same.trans ?_⟩
    simp only [met, true_and]
  · rw [if_neg met]
    refine ⟨fun _ => rfl, ?_, ?_⟩
    · intro nothing
      exact ⟨fun present => absurd nothing.symm present, unmissed_of_none _ _ nothing.symm⟩
    · rintro ⟨meets, _⟩
      by_contra present
      exact met (meets (Ne.symm present)).1

/-- What is found of an object whose calls are those of a header and the other properties. -/
theorem getSelected_calls (select : SelectSet) {registry : KindRegistry}
    {tokenSet : MojString → Except MojErr MojTokenSet} {id : MojObject} {bytes : ByteString}
    {obj : MojObject} (wellFormed : obj.WellFormed) (counted : obj.Counted) {kindId : MojString}
    {rev : MojInt64} (own : obj.get idKey = some id) (kind : obj.get kindKey = some (.string kindId))
    (revision : obj.get revKey = some (.int rev)) {body : List (MojString × MojObject)}
    (rest : ((obj.del idKey).del kindKey).del revKey = .object body) {del : Bool}
    (visited : visitItem registry tokenSet id bytes =
      .ok (MojDbObjectHeader.visits ⟨id, some kindId, rev, del⟩ ++ MojObject.visitsProps body)) :
    getSelected select.props registry tokenSet id bytes =
      .ok (some (.object (obj.map.filterMap fun prop =>
        (storedOne (Node.init select.paths).children prop.1 prop.2).map (Prod.mk prop.1)))) := by
  rcases header_perm wellFormed own kind revision rest with ⟨sorted, bodySorted, apart, perm⟩
  have members : ∀ prop ∈ MojDbObjectHeader.props ⟨id, some kindId, rev, del⟩ ++ body,
      prop ∈ obj.map ∨ prop.2 = .bool true := by
    intro prop there
    rcases List.mem_append.mp there with header | inBody
    · rcases List.mem_append.mp header with front | flag
      · exact Or.inl (perm.mem_iff.mp (List.mem_append_left body front))
      · split_ifs at flag
        · exact Or.inr (congrArg Prod.snd (List.mem_singleton.mp flag))
        · cases flag
    · exact Or.inl (perm.mem_iff.mp (List.mem_append_right _ inBody))
  have inside : ∀ prop ∈ obj.map, prop.2.WellFormed ∧ prop.2.Counted := by
    cases obj with
    | object props =>
      rw [MojObject.WellFormed, MojObject.wellFormedProps_iff] at wellFormed
      rw [MojObject.Counted, MojObject.countedProps_iff] at counted
      exact fun prop there => ⟨wellFormed.2 prop there, counted.2 prop there⟩
    | _ => cases own
  have allCounted : MojObject.CountedProps (MojDbObjectHeader.props ⟨id, some kindId, rev, del⟩ ++ body) := by
    rw [MojObject.countedProps_iff]
    intro prop there
    rcases members prop there with own | flag
    · exact (inside prop own).2
    · rw [flag]
      trivial
  have allFormed : MojObject.WellFormedProps
      (MojDbObjectHeader.props ⟨id, some kindId, rev, del⟩ ++ body) := by
    rw [MojObject.wellFormedProps_iff]
    intro prop there
    rcases members prop there with own | flag
    · exact (inside prop own).1
    · rw [flag]
      trivial
  have filtered := MojObjectFilter.visits_setVisitor (Node.init select.paths) _ allCounted
  have keptFormed := walk_wellFormed (Node.init select.paths).children _ allFormed
  have walked := walk_stored (Node.init select.paths).children id kindId rev del bodySorted apart
  have built := MojObjectBuilder.foldlM_object _ keptFormed
  rw [walked, MojObjectBuilder.putAll_perm (sorted_keep sorted _) (perm.filterMap _)] at built
  have calls : MojDbObjectHeader.visits ⟨id, some kindId, rev, del⟩ ++ MojObject.visitsProps body =
      .beginObject :: MojObject.visitsProps
        (MojDbObjectHeader.props ⟨id, some kindId, rev, del⟩ ++ body) := by
    rw [MojDbObjectHeader.visits_eq, MojObjectBuilder.visitsProps_eq]
  have notEmpty : ¬ select.props = SortedSet.empty := fun same =>
    select.nonempty (congrArg SortedSet.elems same)
  have through : selectCalls select.props (MojDbObjectHeader.visits ⟨id, some kindId, rev, del⟩ ++
      MojObject.visitsProps body) =
        .ok (.beginObject :: MojObject.visitsProps (Node.walk (Node.init select.paths).children
          (MojDbObjectHeader.props ⟨id, some kindId, rev, del⟩ ++ body))) := by
    rw [calls, selectCalls, if_neg notEmpty]
    change ((MojObjectFilter.setVisitor (Node.init select.paths)).visits _ >>= fun _ => _) = _
    rw [filtered]
    rfl
  unfold getSelected
  rw [visited]
  change (selectCalls select.props _ >>= fun calls => _) = _
  rw [through]
  change ((.beginObject :: MojObject.visitsProps (Node.walk _ _)).foldlM MojObjectBuilder.visit
    MojObjectBuilder.empty >>= fun builder => _) = _
  rw [MojObjectBuilder.visitsProps_eq, walked, built]
  rfl

end Selecting

/-- A find with a select set gives the projection of a stored object just if nothing of it is behind a
greater name. -/
theorem select_projects_iff (select : SelectSet) (events : List TokenEvent) (state : MojDbKindState)
    (opened : (TokenSystem.closed.run events).state = some state)
    (registry later : KindRegistry)
    (kept : ∀ kind token, registry.tokenFromId kind = .ok token → later.tokenFromId kind = .ok token)
    (obj : DefinedObject) (counted : obj.val.Counted) (id : MojObject) (rev : MojInt64)
    (own : obj.val.get idKey = some id) (revision : obj.val.get revKey = some (.int rev))
    (turns : List TokenTurn) (bytes : ByteString) (after : TokenWorld)
    (stored : storedBytes registry id obj.val
      ⟨state.tokenSet, state, (TokenSystem.closed.run events).store, turns⟩ = .ok bytes after)
    (moreEvents : List TokenEvent) (last : MojDbKindState)
    (reopened : ((⟨after.store, some after.state, [], []⟩ : TokenSystem).run moreEvents).state =
      some last)
    (tokenSet : MojString → Except MojErr MojTokenSet)
    (taken : ∀ kind, obj.val.get kindKey = some (.string kind) → tokenSet kind = .ok last.tokenSet) :
    getSelected select.props later tokenSet id bytes =
        .ok (some (projectObject select.paths obj.val)) ↔
      unmissedStored select.paths obj.val = true := by
  rcases stored_read events state opened registry later kept obj id rev own revision turns bytes after
    stored moreEvents last reopened with ⟨kindId, props, body, kind, rest, header, read⟩
  have visited : visitItem later tokenSet id bytes =
      .ok (MojDbObjectHeader.visits ⟨id, some kindId, rev, deleted obj.val⟩ ++
        MojObject.visitsProps props) := by
    unfold visitItem
    rw [header]
    change (tokenSet kindId >>= fun set => MojItemReader.read set ⟨body, [], true⟩ >>= _) = _
    rw [taken kindId kind]
    change (MojItemReader.read last.tokenSet ⟨body, [], true⟩ >>= fun calls => _) = _
    rw [read]
    rfl
  rw [getSelected_calls select obj.property counted own kind revision rest visited]
  have represents := represents_init select.separate fun path there => by
    rcases List.mem_map.mp there with ⟨prop, inside, rfl⟩
    exact select.path_ne_nil prop inside
  have wellFormed : MojObject.WellFormedProps obj.val.map := by
    rcases obj with ⟨obj, wellFormed⟩
    cases obj with
    | object props =>
      rw [MojObject.WellFormed] at wellFormed
      exact wellFormed.2
    | _ => cases own
  have each := storedOne_keeps represents wellFormed
  unfold projectObject unmissedStored
  rw [Except.ok.injEq, Option.some.injEq, MojObject.object.injEq, projectProps_eq, List.all_eq_true,
    filterMap_eq_iff]
  · apply forall₂_congr
    intro prop there
    rw [(Option.map_injective (Prod.mk_right_injective prop.1)).eq_iff]
    exact (each prop there).2
  · intro prop there nothing
    rw [Option.map_eq_none_iff] at nothing ⊢
    exact (each prop there).1 nothing

/-- A note with a property whose name comes before those of the header and one behind. -/
def titledNote : DefinedObject :=
  ⟨.object [(chars "Title".toList, .int 1), (idKey, .string (chars "a".toList)),
      (kindKey, .string (chars "Note:1".toList)), (revKey, .int 3), (chars "title".toList, .int 2)], by
    simp only [MojObject.WellFormed, MojObject.WellFormedProps, and_true]
    decide⟩

def oneProp (prop : MojString) (some : split propComponentSeparator [] prop ≠ []) : SelectSet where
  props := ⟨[prop], List.pairwise_singleton _ _⟩
  nonempty := List.cons_ne_nil _ _
  path_ne_nil _ there := List.mem_singleton.mp there ▸ some
  separate := List.pairwise_singleton _ _

def noteWorld : TokenWorld := ⟨⟨[], []⟩, ⟨[], [], 32, none⟩, none, []⟩

theorem titledNote_stored : ∃ bytes after, storedBytes noteRegistry (.string (chars "a".toList))
    titledNote.val noteWorld = .ok bytes after := by
  cases stored : storedBytes noteRegistry (.string (chars "a".toList)) titledNote.val noteWorld with
  | ok bytes after => exact ⟨bytes, after, rfl⟩
  | error err after =>
    have succeeds : (match storedBytes noteRegistry (.string (chars "a".toList)) titledNote.val
        noteWorld with
      | .ok _ _ => true
      | .error _ _ => false) = true := by decide +kernel
    rw [stored] at succeeds
    cases succeeds

theorem titledNote_counted : titledNote.val.Counted := by
  simp only [titledNote, MojObject.Counted, MojObject.CountedProps, and_true]
  decide

theorem select_projects_note : ∃ bytes after,
    storedBytes noteRegistry (.string (chars "a".toList)) titledNote.val noteWorld = .ok bytes after ∧
    getSelected (oneProp (chars "title".toList) (by decide)).props noteRegistry
        (fun _ => .ok after.state.tokenSet) (.string (chars "a".toList)) bytes =
      .ok (some (projectObject (oneProp (chars "title".toList) (by decide)).paths titledNote.val)) := by
  rcases titledNote_stored with ⟨bytes, after, stored⟩
  exact ⟨bytes, after, stored, (select_projects_iff (oneProp (chars "title".toList) (by decide))
    [.init [] .done] ⟨[], [], 32, none⟩ rfl noteRegistry noteRegistry (fun _ _ known => known)
    titledNote titledNote_counted (.string (chars "a".toList)) 3 (by decide +kernel)
    (by decide +kernel) [] bytes after stored [] after.state rfl _ fun _ _ => rfl).mpr
    (by decide +kernel)⟩

/-- The name that comes before the header's is not found. -/
theorem select_misses_title : ¬ ∀ (select : SelectSet) (obj : DefinedObject) (id : MojObject)
    (bytes : ByteString) (after : TokenWorld),
    storedBytes noteRegistry id obj.val noteWorld = .ok bytes after →
      getSelected select.props noteRegistry (fun _ => .ok after.state.tokenSet) id bytes =
        .ok (some (projectObject select.paths obj.val)) := by
  intro all
  rcases titledNote_stored with ⟨bytes, after, stored⟩
  have found := all (oneProp (chars "Title".toList) (by decide)) titledNote
    (.string (chars "a".toList)) bytes after stored
  have empty : (match storedBytes noteRegistry (.string (chars "a".toList)) titledNote.val
      noteWorld with
    | .ok bytes after => decide (getSelected (oneProp (chars "Title".toList) (by decide)).props
        noteRegistry (fun _ => .ok after.state.tokenSet) (.string (chars "a".toList)) bytes =
          .ok (some (.object [])))
    | .error _ _ => false) = true := by decide +kernel
  rw [stored] at empty
  rw [of_decide_eq_true empty] at found
  exact absurd found (by decide +kernel)

end Db8.Db
