import Db8.Db.Access
import Db8.Graph.Visit

/-!
# How objects reach the indexes

`update` of the kind engine leads an object that is put, changed or deleted to the indexes of its
kind and of all supers of it, each of them once. All indexes share one set of keys.
-/

set_option autoImplicit false

namespace Db8.Db.MojDbKindEngine

open Db8.Bytes
open Db8.Core
open Db8.Graph

structure Database where
  objDb : SortedMap MojString MojObject
  rev : MojInt64
  keys : KeySet

/-- `getKind` for an object; no kind has the text of another value for its name. -/
def kindOf (kinds : KindMap) (obj : MojObject) : Except MojErr MojDbKind :=
  match obj.get MojDb.kindKey with
  | none => .error .dbKindNotSpecified
  | some (.string id) => getKind kinds id
  | some _ => .error .dbKindNotRegistered

/-- `m_indexes` of a kind; none for a kind that is not registered. -/
def indexesOf (kinds : KindMap) (id : MojString) : List MojDbIndex :=
  ((kinds.find id).map MojDbKind.indexes).getD []

def updateOwnIndexes (indexes : List MojDbIndex) (newObj oldObj : Option MojObject)
    (keys : KeySet) : KeySet :=
  indexes.foldl (fun keys index => (index.update newObj oldObj keys).stored) keys

/-- `updateIndexes` of a kind; `kindVec` is what the walk has seen. -/
def updateIndexes (kinds : KindMap) (newObj oldObj : Option MojObject) (id : MojString)
    (keys : KeySet) : KeySet :=
  (visit (supersOf kinds)
    (fun kind keys => updateOwnIndexes (indexesOf kinds kind) newObj oldObj keys)
    (kinds.kinds.length + 1) id ([], keys)).2

/-- `update` of the kind engine, as far as the indexes go. -/
def update (kinds : KindMap) (newObj oldObj : Option MojObject) (keys : KeySet) :
    Except MojErr KeySet :=
  match newObj, oldObj with
  | none, none => .ok keys
  | some obj, none => do
    let kind ← kindOf kinds obj
    .ok (updateIndexes kinds (some obj) none kind.id keys)
  | none, some old => do
    let kind ← kindOf kinds old
    .ok (updateIndexes kinds none (some old) kind.id keys)
  | some obj, some old => do
    let oldKind ← kindOf kinds old
    let newKind ← kindOf kinds obj
    if oldKind.id ≠ newKind.id then
      .ok (updateIndexes kinds (some obj) none newKind.id
        (updateIndexes kinds none (some old) oldKind.id keys))
    else .ok (updateIndexes kinds (some obj) (some old) newKind.id keys)

theorem updateIndexes_walk (kinds : KindMap) (newObj oldObj : Option MojObject) (id : MojString)
    (keys : KeySet) :
    ∃ walk : List MojString, updateIndexes kinds newObj oldObj id keys =
        walk.foldl (fun keys kind => updateOwnIndexes (indexesOf kinds kind) newObj oldObj keys)
          keys ∧
      walk.Nodup ∧ ∀ other, other ∈ walk ↔ Reaches (supersOf kinds) id other := by
  have enough : kinds.ids.length < kinds.kinds.length + 1 := by
    unfold KindMap.ids
    rw [List.length_map]
    exact Nat.lt_succ_self _
  exact visit_reaches _ (fun _ linked => registered_of_supersOf linked) enough id keys

def Keyed (kinds : KindMap) (obj : Option MojObject) (key : MojDbKey) : Prop :=
  ∃ id, ∃ index ∈ indexesOf kinds id, key ∈ index.contribution obj

structure Exchanged (kinds : KindMap) (newObj oldObj : Option MojObject) (before after : KeySet) :
    Prop where
  gained : ∀ key ∈ after, key ∈ before ∨ Keyed kinds newObj key
  lost : ∀ key ∈ before, key ∈ after ∨ Keyed kinds oldObj key

namespace Exchanged

variable {kinds : KindMap} {newObj oldObj : Option MojObject}

theorem refl (keys : KeySet) : Exchanged kinds newObj oldObj keys keys where
  gained _ member := Or.inl member
  lost _ member := Or.inl member

theorem trans {first second third : KeySet} (early : Exchanged kinds newObj oldObj first second)
    (late : Exchanged kinds newObj oldObj second third) :
    Exchanged kinds newObj oldObj first third where
  gained key member := by
    rcases late.gained key member with old | new
    · exact early.gained key old
    · exact Or.inr new
  lost key member := by
    rcases early.lost key member with kept | gone
    · exact late.lost key kept
    · exact Or.inr gone

theorem update_index {id : MojString} {index : MojDbIndex} (own : index ∈ indexesOf kinds id)
    (keys : KeySet) :
    Exchanged kinds newObj oldObj keys (index.update newObj oldObj keys).stored := by
  have spec : ∀ key, (key ∈ (index.update newObj oldObj keys).stored →
      key ∈ keys ∨ key ∈ index.contribution newObj) ∧
      (key ∈ keys → key ∈ (index.update newObj oldObj keys).stored ∨
        key ∈ index.contribution oldObj) := by
    intro key
    unfold MojDbIndex.update MojDbIndex.contribution
    cases newObj with
    | none =>
      cases oldObj with
      | none => simp [MojDbIndex.includeObj_none]
      | some old =>
        by_cases includeOld : index.includeObj (some old)
        · simp only [MojDbIndex.includeObj_none, includeOld, if_true, SortedSet.mem_delAll,
            ← SortedSet.mem_def]
          tauto
        · simp [MojDbIndex.includeObj_none, includeOld]
    | some obj =>
      by_cases includeNew : index.includeObj (some obj)
      · cases oldObj with
        | none =>
          simp only [MojDbIndex.includeObj_none, includeNew, if_true, SortedSet.mem_putAll,
            ← SortedSet.mem_def]
          tauto
        | some old =>
          by_cases includeOld : index.includeObj (some old)
          · simp only [includeNew, includeOld, if_true, SortedSet.mem_delAll,
              SortedSet.mem_putAll, ← SortedSet.mem_def, SortedSet.mem_diff]
            tauto
          · simp only [includeNew, includeOld, if_true, SortedSet.mem_putAll,
              ← SortedSet.mem_def]
            tauto
      · cases oldObj with
        | none => simp [MojDbIndex.includeObj_none, includeNew]
        | some old =>
          by_cases includeOld : index.includeObj (some old)
          · simp only [includeNew, includeOld, if_true, SortedSet.mem_delAll,
              ← SortedSet.mem_def]
            tauto
          · simp [includeNew, includeOld]
  constructor
  · intro key member
    exact ((spec key).1 member).imp_right fun new => ⟨id, index, own, new⟩
  · intro key member
    exact ((spec key).2 member).imp_right fun old => ⟨id, index, own, old⟩

theorem updateOwnIndexes {id : MojString} (indexes : List MojDbIndex)
    (own : ∀ index ∈ indexes, index ∈ indexesOf kinds id) (keys : KeySet) :
    Exchanged kinds newObj oldObj keys (updateOwnIndexes indexes newObj oldObj keys) := by
  unfold MojDbKindEngine.updateOwnIndexes
  induction indexes generalizing keys with
  | nil => exact refl keys
  | cons index rest ih =>
    apply trans (update_index (own index List.mem_cons_self) keys)
    exact ih (fun other member => own other (List.mem_cons_of_mem index member)) _

theorem updateIndexes (id : MojString) (keys : KeySet) :
    Exchanged kinds newObj oldObj keys (updateIndexes kinds newObj oldObj id keys) := by
  rcases updateIndexes_walk kinds newObj oldObj id keys with ⟨walk, same, -⟩
  rw [same]
  clear same
  induction walk generalizing keys with
  | nil => exact refl keys
  | cons kind rest ih =>
    apply trans _ (ih _)
    exact updateOwnIndexes (indexesOf kinds kind) (fun _ member => member) keys

theorem widen {fewerNew fewerOld : Option MojObject} {before after : KeySet}
    (exchanged : Exchanged kinds fewerNew fewerOld before after)
    (news : ∀ key, Keyed kinds fewerNew key → Keyed kinds newObj key)
    (olds : ∀ key, Keyed kinds fewerOld key → Keyed kinds oldObj key) :
    Exchanged kinds newObj oldObj before after where
  gained key member := (exchanged.gained key member).imp_right (news key)
  lost key member := (exchanged.lost key member).imp_right (olds key)

end Exchanged

theorem not_keyed_none (kinds : KindMap) (key : MojDbKey) : ¬ Keyed kinds none key := by
  intro keyed
  rcases keyed with ⟨_, _, _, none⟩
  exact absurd none (SortedSet.not_mem_empty key)

theorem exchanged_update {kinds : KindMap} {newObj oldObj : Option MojObject}
    {before after : KeySet} (success : update kinds newObj oldObj before = .ok after) :
    Exchanged kinds newObj oldObj before after := by
  have vacuous : ∀ obj key, Keyed kinds none key → Keyed kinds obj key :=
    fun _ key none => absurd none (not_keyed_none kinds key)
  cases newObj with
  | none =>
    cases oldObj with
    | none =>
      rw [update, Except.ok.injEq] at success
      rw [← success]
      exact Exchanged.refl before
    | some old =>
      rw [update] at success
      rcases except_bind_ok success with ⟨kind, _, same⟩
      rw [← Except.ok.inj same]
      exact Exchanged.updateIndexes kind.id before
  | some obj =>
    cases oldObj with
    | none =>
      rw [update] at success
      rcases except_bind_ok success with ⟨kind, _, same⟩
      rw [← Except.ok.inj same]
      exact Exchanged.updateIndexes kind.id before
    | some old =>
      rw [update] at success
      rcases except_bind_ok success with ⟨oldKind, _, rest⟩
      rcases except_bind_ok rest with ⟨newKind, _, same⟩
      by_cases moved : oldKind.id ≠ newKind.id
      · rw [if_pos moved, Except.ok.injEq] at same
        rw [← same]
        apply Exchanged.trans
        · exact (Exchanged.updateIndexes oldKind.id before).widen (vacuous _) fun _ keyed => keyed
        · exact (Exchanged.updateIndexes newKind.id _).widen (fun _ keyed => keyed) (vacuous _)
      · rw [if_neg moved, Except.ok.injEq] at same
        rw [← same]
        exact Exchanged.updateIndexes newKind.id before

end Db8.Db.MojDbKindEngine
