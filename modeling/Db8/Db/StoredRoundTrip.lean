import Db8.Db.StoredRead

/-!
# The round trip of a stored object

An object that `putObj` has stored is read back as it was: under the id it is kept by, with its kind,
its revision and whatever stands under `_del`, while the kind has been given any more tokens and the
database was opened again any number of times.
-/

set_option autoImplicit false

namespace Db8.Db

open Db8.Bytes
open Db8.Core

namespace MojDbObjectHeader

open MojDb

theorem nextVal_scalar {obj : MojObject} (notObject : obj.type ≠ .object)
    (notArray : obj.type ≠ .array) (held : Option MojObject) (name : MojString)
    (rest : ByteString) : nextVal ⟨held, [], name⟩ ⟨MojObjectWriter.value obj ++ rest, []⟩ =
      .ok (⟨some obj, [], name⟩, ⟨rest, []⟩) := by
  rcases MojObjectWriter.value_marker obj with ⟨marker, body, shape, _⟩
  have read := MojObjectReader.nextValue_scalar shape notObject notArray rest []
  have wellFormed : obj.WellFormed := by
    cases obj with
    | object props => exact absurd rfl notObject
    | array vals => exact absurd rfl notArray
    | _ => trivial
  have built := MojObjectBuilder.foldlM_visits obj wellFormed ⟨held, [], name⟩
  have first : MojObjectReader.next ⟨MojObjectWriter.value obj ++ rest, []⟩ =
      .ok (⟨rest, []⟩, obj.visits) := by
    rw [shape]
    exact read
  rw [nextVal, first]
  change (obj.visits.foldlM MojObjectBuilder.visit ⟨held, [], name⟩ >>= fun builder => _) = _
  rw [built]
  rfl

theorem skipUnknown_end (count : Nat) (rest : ByteString) (stack : List MojObjectReader.State) :
    skipUnknown count ⟨markerHeaderEnd :: rest, stack⟩ = .ok ⟨markerHeaderEnd :: rest, stack⟩ := by
  cases count with
  | zero => rfl
  | succ count => exact if_pos rfl

theorem read_write {header : MojDbObjectHeader} {registry later : KindRegistry}
    {kindId : MojString} {token : MojInt64} (kind : header.kindId = some kindId)
    (known : registry.tokenFromId kindId = .ok token) (kept : later.tokenFromId kindId = .ok token)
    {front : ByteString} (wrote : header.write registry = .ok front) (body : ByteString) :
    read header.id later (front ++ body) = .ok (header, ⟨body, []⟩) := by
  rcases header with ⟨id, headerKind, rev, del⟩
  cases kind
  simp only [write, known, bind, Except.bind, Except.ok.injEq] at wrote
  subst wrote
  have scalar : ∀ (val : MojInt64) (held : Option MojObject) (name : MojString) (rest : ByteString),
      nextVal ⟨held, [], name⟩ ⟨MojObjectWriter.intValue val ++ rest, []⟩ =
        .ok (⟨some (.int val), [], name⟩, ⟨rest, []⟩) := by
    intro val held name rest
    have read := @nextVal_scalar (.int val) (by simp [MojObject.type]) (by simp [MojObject.type])
      held name rest
    rwa [MojObjectWriter.value] at read
  have flag : ∀ (held : Option MojObject) (name : MojString) (rest : ByteString),
      nextVal ⟨held, [], name⟩ ⟨6 :: rest, []⟩ = .ok (⟨some (.bool true), [], name⟩, ⟨rest, []⟩) :=
    fun held name rest => @nextVal_scalar (.bool true) (by simp [MojObject.type])
      (by simp [MojObject.type]) held name rest
  have kindTok := KindRegistry.idFromToken_of_tokenFromId kept
  simp only [List.cons_append, List.append_assoc, List.nil_append, read]
  cases del with
  | false =>
    simp only [Bool.false_eq_true, if_false, List.nil_append]
    rw [if_neg (by simp), MojObjectBuilder.empty, scalar]
    simp only [bind, Except.bind, Option.map_some, Option.getD_some, MojObject.intValue, kindTok]
    rw [scalar]
    simp only [Option.map_some, Option.getD_some, MojObject.intValue]
    rw [show peeksEnd ⟨markerHeaderEnd :: body, []⟩ = true from rfl, if_pos rfl]
    simp only [skipUnknown_end]
  | true =>
    simp only [if_true, MojObjectWriter.boolValue, List.cons_append, List.nil_append]
    rw [if_neg (by simp), MojObjectBuilder.empty, scalar]
    simp only [bind, Except.bind, Option.map_some, Option.getD_some, MojObject.intValue, kindTok]
    rw [scalar]
    simp only [Option.map_some, Option.getD_some, MojObject.intValue]
    rw [show peeksEnd ⟨6 :: markerHeaderEnd :: body, []⟩ = false from rfl,
      if_neg (by simp), flag]
    simp only [Option.map_some, Option.getD_some, MojObject.boolValue, skipUnknown_end]

end MojDbObjectHeader

namespace MojDbObjectHeader

open MojDb

def props (header : MojDbObjectHeader) : List (MojString × MojObject) :=
  [(idKey, header.id), (kindKey, .string (header.kindId.getD [])), (revKey, .int header.rev)] ++
    if header.del then [(delKey, .bool true)] else []

theorem visits_eq (header : MojDbObjectHeader) (rest : List (MojString × MojObject)) :
    header.visits ++ MojObject.visitsProps rest =
      .beginObject :: (MojObjectBuilder.propCalls (header.props ++ rest) ++ [.endObject]) := by
  rw [MojObjectBuilder.visitsProps_eq]
  simp only [visits, props, MojObjectBuilder.propCalls]
  split_ifs <;> simp [MojObject.visits]

end MojDbObjectHeader

/-! ### Storing -/

open MojDb in
theorem storedBytes_ok {registry : KindRegistry} {id obj : MojObject} {world after : TokenWorld}
    {bytes : ByteString} (stored : storedBytes registry id obj world = .ok bytes after) :
    ∃ kindId rev token front body,
      obj.get kindKey = some (.string kindId) ∧ obj.get revKey = some rev ∧
      registry.tokenFromId kindId = .ok token ∧
      MojDbObjectHeader.write ⟨id, some kindId, rev.intValue, deleted obj⟩ registry = .ok front ∧
      MojTokenWriter.value (((obj.del idKey).del kindKey).del revKey) world = .ok body after ∧
      bytes = front ++ body := by
  have idKind : idKey ≠ kindKey := by decide
  have idRev : idKey ≠ revKey := by decide
  have kindRev : kindKey ≠ revKey := by decide
  have idDel : idKey ≠ delKey := by decide
  have kindDel : kindKey ≠ delKey := by decide
  have revDel : revKey ≠ delKey := by decide
  have kept : deleted (((obj.del idKey).del kindKey).del revKey) = deleted obj := by
    simp [deleted, idDel, kindDel, revDel]
  simp only [storedBytes] at stored
  split at stored
  · cases stored
  · rename_i header rest extracted
    split at stored
    · cases stored
    · rename_i front wrote
      split at stored
      · cases stored
      · rename_i body last written
        cases stored
        rcases except_bind_ok extracted with ⟨_, _, taken⟩
        simp only [MojObject.get_del, idKind, if_false] at taken
        cases kindFound : obj.get kindKey with
        | none => simp [kindFound] at taken
        | some kind =>
          simp only [kindFound, kindRev, idRev, if_false] at taken
          cases revFound : obj.get revKey with
          | none => simp [revFound] at taken
          | some rev =>
            simp only [revFound, Except.ok.injEq, Prod.mk.injEq, kept] at taken
            rcases taken with ⟨rfl, rfl⟩
            cases kind with
            | string kindId =>
              rcases except_bind_ok wrote with ⟨token, known, _⟩
              exact ⟨kindId, rev, token, front, body, rfl, rfl, known, wrote, written, rfl⟩
            | _ => cases wrote

open MojDb in
theorem find_header (header : MojDbObjectHeader) (key : MojString) :
    MojObject.find (MojObjectBuilder.putAll header.props []) key =
      if revKey = key then some (.int header.rev)
      else if kindKey = key then some (.string (header.kindId.getD []))
      else if idKey = key then some header.id
      else if delKey = key ∧ header.del = true then some (.bool true) else none := by
  have apart : delKey ≠ idKey ∧ delKey ≠ kindKey ∧ delKey ≠ revKey := by decide
  rcases apart with ⟨notId, notKind, notRev⟩
  unfold MojDbObjectHeader.props MojObjectBuilder.putAll
  cases header.del with
  | false => simp [MojObject.find_putProp]
  | true =>
    by_cases isDel : delKey = key
    · subst isDel
      simp [MojObject.find_putProp, Ne.symm notId, Ne.symm notKind, Ne.symm notRev]
    · simp [MojObject.find_putProp, isDel]

open MojDb in
theorem putAll_header {obj : MojObject} (wellFormed : obj.WellFormed) {id : MojObject}
    {kindId : MojString} {rev : MojInt64} (own : obj.get idKey = some id)
    (kind : obj.get kindKey = some (.string kindId)) (revision : obj.get revKey = some (.int rev)) :
    ∃ body, ((obj.del idKey).del kindKey).del revKey = .object body ∧
      (∀ prop ∈ (MojDbObjectHeader.props ⟨id, some kindId, rev, deleted obj⟩) ++ body,
        prop.2.WellFormed) ∧
      MojObject.object (MojObjectBuilder.putAll
        ((MojDbObjectHeader.props ⟨id, some kindId, rev, deleted obj⟩) ++ body) []) = obj := by
  cases obj with
  | object props =>
    rw [MojObject.WellFormed, MojObject.wellFormedProps_iff] at wellFormed
    rcases wellFormed with ⟨sorted, vals⟩
    have idVal : id.WellFormed := vals _ (MojObject.mem_of_find own)
    have bodySorted := MojObject.sorted_filter (MojObject.sorted_filter (MojObject.sorted_filter
      sorted (fun prop => decide (prop.1 ≠ idKey))) (fun prop => decide (prop.1 ≠ kindKey)))
      (fun prop => decide (prop.1 ≠ revKey))
    apply Exists.intro
    apply And.intro rfl
    constructor
    · intro prop member
      rcases List.mem_append.mp member with header | body
      · unfold MojDbObjectHeader.props at header
        rcases List.mem_append.mp header with front | flag
        · rcases List.mem_cons.mp front with rfl | front
          · exact idVal
          · rcases List.mem_cons.mp front with rfl | front
            · trivial
            · rw [List.mem_singleton.mp front]
              trivial
        · split_ifs at flag
          · rw [List.mem_singleton.mp flag]
            trivial
          · cases flag
      · exact vals prop (List.mem_of_mem_filter (List.mem_of_mem_filter
          (List.mem_of_mem_filter body)))
    · congr 1
      apply MojObject.eq_of_find_eq (MojObjectBuilder.sorted_putAll _ MojObject.sorted_nil) sorted
      intro key
      rw [MojObjectBuilder.putAll, List.foldl_append]
      change MojObject.find (MojObjectBuilder.putAll _ (MojObjectBuilder.putAll _ [])) key = _
      rw [MojObjectBuilder.find_putAll bodySorted, find_header]
      change (((((MojObject.object props).del idKey).del kindKey).del revKey).get key).or _ =
        (MojObject.object props).get key
      simp only [MojObject.get_del]
      by_cases isRev : revKey = key
      · rw [if_pos isRev, if_pos isRev, ← isRev, revision]
        rfl
      · rw [if_neg isRev, if_neg isRev]
        by_cases isKind : kindKey = key
        · rw [if_pos isKind, if_pos isKind, ← isKind, kind]
          rfl
        · rw [if_neg isKind, if_neg isKind]
          by_cases isId : idKey = key
          · rw [if_pos isId, if_pos isId, ← isId, own]
            rfl
          · rw [if_neg isId, if_neg isId]
            by_cases isDel : delKey = key ∧ deleted (.object props) = true
            · rcases isDel with ⟨rfl, flagged⟩
              cases found : (MojObject.object props).get delKey with
              | none => simp [deleted, found] at flagged
              | some val => rfl
            · rw [if_neg isDel, Option.or_none]
  | _ => cases own

open MojDb in
/-- The header and the properties of a stored object are read back with any later state of its kind's
tokens. -/
theorem stored_read (events : List TokenEvent) (state : MojDbKindState)
    (opened : (TokenSystem.closed.run events).state = some state)
    (registry later : KindRegistry)
    (kept : ∀ kind token, registry.tokenFromId kind = .ok token → later.tokenFromId kind = .ok token)
    (obj : DefinedObject) (id : MojObject) (rev : MojInt64) (own : obj.val.get idKey = some id)
    (revision : obj.val.get revKey = some (.int rev))
    (turns : List TokenTurn) (bytes : ByteString) (after : TokenWorld)
    (stored : storedBytes registry id obj.val
      ⟨state.tokenSet, state, (TokenSystem.closed.run events).store, turns⟩ = .ok bytes after)
    (moreEvents : List TokenEvent) (last : MojDbKindState)
    (reopened : ((⟨after.store, some after.state, [], []⟩ : TokenSystem).run moreEvents).state =
      some last) :
    ∃ kindId props body, obj.val.get kindKey = some (.string kindId) ∧
      ((obj.val.del idKey).del kindKey).del revKey = .object props ∧
      MojDbObjectHeader.read id later bytes =
        .ok (⟨id, some kindId, rev, deleted obj.val⟩, ⟨body, []⟩) ∧
      MojItemReader.read last.tokenSet ⟨body, [], true⟩ = .ok (MojObject.visitsProps props) := by
  rcases TokenSystem.kept_closed.run events with ⟨words, _, words_kept⟩
  have holds := words_kept.state state opened
  have writing : MojTokenWriter.Writing words
      ⟨state.tokenSet, state, (TokenSystem.closed.run events).store, turns⟩ :=
    ⟨holds, words_kept.store, words, List.prefix_refl words, MojTokenSet.copies_tokenSet holds⟩
  rcases storedBytes_ok stored with
    ⟨kindId, found, token, front, body, kind, foundRev, known, wrote, written, rfl⟩
  rw [revision] at foundRev
  cases foundRev
  rcases putAll_header obj.property own kind revision with ⟨props, rest, _, _⟩
  rw [rest] at written
  rcases MojTokenWriter.value_ok _ writing written with ⟨more, _, still, encodes⟩
  have now : TokenSystem.Kept more ⟨after.store, some after.state, [], []⟩ :=
    ⟨still.store, fun _ same => Option.some.inj same ▸ still.state⟩
  rcases now.run moreEvents with ⟨final, further, ended⟩
  have copies := MojTokenSet.copies_tokenSet (ended.state last reopened)
  exact ⟨kindId, props, body, kind, rest,
    MojDbObjectHeader.read_write rfl known (kept kindId token known) wrote body,
    MojItemReader.read_body further copies encodes⟩

open MojDb in
/-- An object stored with any state of its kind's tokens is read back with any later one. -/
theorem stored_object_round_trip (events : List TokenEvent) (state : MojDbKindState)
    (opened : (TokenSystem.closed.run events).state = some state)
    (registry later : KindRegistry)
    (kept : ∀ kind token, registry.tokenFromId kind = .ok token → later.tokenFromId kind = .ok token)
    (obj : DefinedObject) (id : MojObject) (rev : MojInt64) (own : obj.val.get idKey = some id)
    (revision : obj.val.get revKey = some (.int rev))
    (turns : List TokenTurn) (bytes : ByteString) (after : TokenWorld)
    (stored : storedBytes registry id obj.val
      ⟨state.tokenSet, state, (TokenSystem.closed.run events).store, turns⟩ = .ok bytes after)
    (moreEvents : List TokenEvent) (last : MojDbKindState)
    (reopened : ((⟨after.store, some after.state, [], []⟩ : TokenSystem).run moreEvents).state =
      some last)
    (tokenSet : MojString → Except MojErr MojTokenSet)
    (taken : ∀ kind, obj.val.get kindKey = some (.string kind) → tokenSet kind = .ok last.tokenSet) :
    toObject later tokenSet id bytes = .ok (some obj.val) := by
  rcases stored_read events state opened registry later kept obj id rev own revision turns bytes after
    stored moreEvents last reopened with ⟨kindId, props, body, kind, rest, header, read⟩
  rcases putAll_header obj.property own kind revision with ⟨others, same, wellFormed, whole⟩
  rw [rest, MojObject.object.injEq] at same
  rw [← same] at wellFormed whole
  have built := MojObjectBuilder.foldlM_object _ wellFormed
  rw [whole] at built
  unfold toObject
  rw [header]
  change (tokenSet kindId >>= fun set => MojItemReader.read set ⟨body, [], true⟩ >>= _) = _
  rw [taken kindId kind]
  change (MojItemReader.read last.tokenSet ⟨body, [], true⟩ >>= fun calls => _) = _
  rw [read]
  change ((MojDbObjectHeader.visits _ ++ MojObject.visitsProps props).foldlM
    MojObjectBuilder.visit MojObjectBuilder.empty >>= fun builder => _) = _
  rw [MojDbObjectHeader.visits_eq]
  exact congrArg (fun result => result >>= fun builder => .ok builder.obj) built

/-- A deleted note with a title, in the order of its property names. -/
def deletedNote : DefinedObject :=
  ⟨.object [(delKey, .int 1), (idKey, .string (chars "a".toList)),
      (MojDb.kindKey, .string (chars "Note:1".toList)), (revKey, .int 3),
      (chars "title".toList, .string (chars "title".toList))], by
    simp only [MojObject.WellFormed, MojObject.WellFormedProps, and_true]
    decide⟩

def noteRegistry : KindRegistry :=
  KindRegistry.empty.createKind (chars "Note:1".toList) 7 (by simp [KindRegistry.empty])

/-- While the note is written its title is asked for by another set first. -/
theorem stored_object_round_trip_note : ∃ bytes after,
    storedBytes noteRegistry (.string (chars "a".toList)) deletedNote.val
      ⟨⟨[], []⟩, ⟨[], [], 32, none⟩, none, [⟨[(chars "title".toList, .done)], .done⟩]⟩ =
        .ok bytes after ∧
    toObject noteRegistry (fun _ => .ok after.state.tokenSet) (.string (chars "a".toList)) bytes =
      .ok (some deletedNote.val) := by
  cases stored : storedBytes noteRegistry (.string (chars "a".toList)) deletedNote.val
      ⟨⟨[], []⟩, ⟨[], [], 32, none⟩, none, [⟨[(chars "title".toList, .done)], .done⟩]⟩ with
  | ok bytes after =>
    exact ⟨bytes, after, rfl, stored_object_round_trip [.init [] .done] ⟨[], [], 32, none⟩ rfl
      noteRegistry noteRegistry (fun _ _ known => known) deletedNote (.string (chars "a".toList)) 3
      (by decide +kernel) (by decide +kernel) _ bytes after stored [] after.state rfl _
      fun _ _ => rfl⟩
  | error err after =>
    have succeeds : (match storedBytes noteRegistry (.string (chars "a".toList)) deletedNote.val
        ⟨⟨[], []⟩, ⟨[], [], 32, none⟩, none, [⟨[(chars "title".toList, .done)], .done⟩]⟩ with
      | .ok _ _ => true
      | .error _ _ => false) = true := by decide +kernel
    rw [stored] at succeeds
    cases succeeds

end Db8.Db
