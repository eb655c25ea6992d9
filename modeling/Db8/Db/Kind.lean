import Db8.Bytes.SortedMap
import Db8.Db.Index

/-!
# Kinds

`MojDbKind` and the kind engine's map of kinds. A kind points at its supers; a pointer is the id of
the kind it leads to. `addSuper` refuses a super that extends the kind, so the pointers never lead
back to where they started and a walk up the supers ends within as many steps as there are kinds.
-/

set_option autoImplicit false

namespace Db8.Db

open Db8.Bytes
open Db8.Core

structure MojDbKind where
  id : MojString
  owner : MojString
  /-- The ids under `extends`, whether or not the kinds are there. -/
  superIds : List MojString
  supers : List MojString
  indexes : List MojDbIndex

namespace MojDbKindEngine

def rootKindId : MojString := chars "Object:1".toList

def kindKindId : MojString := chars "Kind:1".toList

def permissionId : MojString := chars "Permission:1".toList

def quotaId : MojString := chars "Quota:1".toList

def adminOwner : MojString := chars "com.palm.admin".toList

structure KindMap where
  map : SortedMap MojString MojDbKind
  registered : ∀ entry ∈ map.entries, entry.2.id = entry.1

namespace KindMap

def empty : KindMap := ⟨SortedMap.empty, by simp⟩

def put (kinds : KindMap) (kind : MojDbKind) : KindMap where
  map := kinds.map.put kind.id kind
  registered entry member := by
    rcases SortedMap.mem_entries_put member with new | old
    · rw [new]
    · exact kinds.registered entry old

def find (kinds : KindMap) (id : MojString) : Option MojDbKind := kinds.map.find id

def kinds (kinds : KindMap) : List MojDbKind := kinds.map.entries.map Prod.snd

def ids (kinds : KindMap) : List MojString := kinds.kinds.map MojDbKind.id

variable (kinds : KindMap)

theorem find_put (kind : MojDbKind) (id : MojString) :
    (kinds.put kind).find id = if kind.id = id then some kind else kinds.find id :=
  SortedMap.find_put kinds.map kind.id id kind

theorem find_id {kinds : KindMap} {id : MojString} {kind : MojDbKind}
    (found : kinds.find id = some kind) : kind.id = id :=
  kinds.registered (id, kind) ((kinds.map.find_eq_some_iff id kind).mp found)

theorem ids_eq_keys : kinds.ids = kinds.map.keys := by
  unfold ids KindMap.kinds SortedMap.keys
  rw [List.map_map]
  exact List.map_congr_left kinds.registered

theorem ids_nodup : kinds.ids.Nodup := by
  rw [ids_eq_keys]
  exact kinds.map.keys_nodup

theorem mem_kinds_iff (kind : MojDbKind) : kind ∈ kinds.kinds ↔ kinds.find kind.id = some kind := by
  unfold find
  rw [SortedMap.find_eq_some_iff]
  constructor
  · intro member
    rcases List.mem_map.mp member with ⟨entry, inside, same⟩
    rw [← same, kinds.registered entry inside]
    exact inside
  · intro member
    exact List.mem_map_of_mem (f := Prod.snd) member

end KindMap

def getKind (kinds : KindMap) (id : MojString) : Except MojErr MojDbKind :=
  match kinds.find id with
  | some kind => .ok kind
  | none => .error .dbKindNotRegistered

theorem getKind_ok_iff (kinds : KindMap) (id : MojString) (kind : MojDbKind) :
    getKind kinds id = .ok kind ↔ kinds.find id = some kind := by
  unfold getKind
  cases kinds.find id <;> simp

end MojDbKindEngine

end Db8.Db
