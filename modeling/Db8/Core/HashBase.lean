import Db8.Heap.Chains
import Mathlib.Logic.Function.Basic

/-!
# Hash tables

The nodes of a `MojHashBase` are in two lists each: the one of their bucket, and the one that is
iterated over, in which a node knows what leads to it. A node has a place for as long as it is in the
table. A loop is given more turns than it needs, and going to a node that is not there, or failing an
assertion, has no value.
-/

set_option autoImplicit false

namespace Db8.Core.MojHashBase

open Db8.Heap

variable {κ ν : Type}

/-- `m_iterRef` leads to `m_begin` or to the `m_iterNext` of a node. -/
structure Node (κ ν : Type) where
  key : κ
  val : ν
  bucketNext : Option Nat
  iterNext : Option Nat
  iterRef : Option Place

structure Impl (κ ν : Type) where
  nodes : Nat → Option (Node κ ν)
  next : Nat
  buckets : Nat → Option Nat
  begin : Option Nat
  numBuckets : Nat
  size : Nat

def fillFactor : Nat := 2

def initialSize : Nat := 8

namespace Impl

section Operations

def new : Impl κ ν := ⟨fun _ => none, 0, fun _ => none, none, 0, 0⟩

def modify (impl : Impl κ ν) (ref : Nat) (change : Node κ ν → Node κ ν) : Option (Impl κ ν) :=
  (impl.nodes ref).map fun node =>
    { impl with nodes := Function.update impl.nodes ref (some (change node)) }

/-- `Bucket::insert`, at the head of the list. -/
def insert (impl : Impl κ ν) (idx ref : Nat) : Option (Impl κ ν) := do
  let node ← impl.nodes ref
  if node.bucketNext.isSome then none
  else do
    let impl ← impl.modify ref fun node => { node with bucketNext := impl.buckets idx }
    some { impl with buckets := Function.update impl.buckets idx (some ref) }

/-- What `nodePtr` points to, the head of the bucket or the link of a node. -/
def load (impl : Impl κ ν) (idx : Nat) : Place → Option (Option Nat)
  | .begin => some (impl.buckets idx)
  | .after ref => (impl.nodes ref).map Node.bucketNext

def store (impl : Impl κ ν) (idx : Nat) (next : Option Nat) : Place → Option (Impl κ ν)
  | .begin => some { impl with buckets := Function.update impl.buckets idx next }
  | .after ref => impl.modify ref fun node => { node with bucketNext := next }

/-- The loop of `Bucket::remove`. -/
def removeLoop (idx ref : Nat) : Nat → Place → Impl κ ν → Option (Impl κ ν)
  | 0, _, _ => none
  | turns + 1, nodePtr, impl => do
    match ← impl.load idx nodePtr with
    | none => some impl
    | some found =>
      if found = ref then do
        let node ← impl.nodes ref
        let impl ← impl.store idx node.bucketNext nodePtr
        impl.modify ref fun node => { node with bucketNext := none }
      else do
        let later ← impl.load idx (.after found)
        if later.isNone then none else removeLoop idx ref turns (.after found) impl

def remove (impl : Impl κ ν) (idx ref : Nat) : Option (Impl κ ν) :=
  if (impl.buckets idx).isNone then none else removeLoop idx ref (impl.size + 1) .begin impl

/-- `*iterRef = next`. -/
def storeIter (impl : Impl κ ν) (next : Option Nat) : Place → Option (Impl κ ν)
  | .begin => some { impl with begin := next }
  | .after ref => impl.modify ref fun node => { node with iterNext := next }

def setIterRef (impl : Impl κ ν) (iterRef : Option Place) : Option Nat → Option (Impl κ ν)
  | none => some impl
  | some ref => impl.modify ref fun node => { node with iterRef := iterRef }

/-- `Impl::put`, of a new node with this key and value. -/
def put (impl : Impl κ ν) (idx : Nat) (key : κ) (val : ν) : Option (Impl κ ν) :=
  if idx < impl.numBuckets then do
    let ref := impl.next
    let node : Node κ ν := ⟨key, val, none, none, none⟩
    let impl ← insert { impl with
      nodes := Function.update impl.nodes ref (some node)
      next := ref + 1 } idx ref
    let impl ← impl.setIterRef (some (.after ref)) impl.begin
    let impl ← impl.modify ref fun node =>
      { node with iterNext := impl.begin, iterRef := some .begin }
    some { impl with begin := some ref, size := impl.size + 1 }
  else none

variable (hash : κ → Nat)

def bucketForKey (key : κ) (numBuckets : Nat) : Nat := hash key % numBuckets

def findLoop [DecidableEq κ] (impl : Impl κ ν) (key : κ) : Nat → Option Nat → Option (Option Nat)
  | 0, _ => none
  | _ + 1, none => some none
  | turns + 1, some ref => do
    let node ← impl.nodes ref
    if node.key = key then some (some ref) else findLoop impl key turns node.bucketNext

/-- The node with a key, and its bucket; that is left zero where the table is empty. -/
def find [DecidableEq κ] (impl : Impl κ ν) (key : κ) : Option (Option Nat × Nat) :=
  if impl.size = 0 then some (none, 0)
  else
    let idx := bucketForKey hash key impl.numBuckets
    (impl.findLoop key (impl.size + 1) (impl.buckets idx)).map fun found => (found, idx)

/-- The part of `del` that has found the node. -/
def unlink (impl : Impl κ ν) (idx ref : Nat) : Option (Impl κ ν) := do
  let impl ← impl.remove idx ref
  let node ← impl.nodes ref
  let iterRef ← node.iterRef
  let impl ← impl.storeIter node.iterNext iterRef
  let impl ← impl.setIterRef node.iterRef node.iterNext
  some { impl with nodes := Function.update impl.nodes ref none, size := impl.size - 1 }

def reallocLoop (numBuckets : Nat) : Nat → Option Nat → Impl κ ν → Option (Impl κ ν)
  | 0, _, _ => none
  | _ + 1, none, impl => some impl
  | turns + 1, some ref, impl => do
    let impl ← impl.modify ref fun node => { node with bucketNext := none }
    let node ← impl.nodes ref
    let impl ← impl.insert (bucketForKey hash node.key numBuckets) ref
    reallocLoop numBuckets turns node.iterNext impl

def realloc (impl : Impl κ ν) (numBuckets : Nat) : Option (Impl κ ν) :=
  reallocLoop hash numBuckets (impl.size + 1) impl.begin
    { impl with buckets := fun _ => none, numBuckets := numBuckets }

def cloneLoop (source : Impl κ ν) : Nat → Option Nat → Impl κ ν → Option (Impl κ ν)
  | 0, _, _ => none
  | _ + 1, none, impl => some impl
  | turns + 1, some ref, impl => do
    let node ← source.nodes ref
    let impl ← impl.put (bucketForKey hash node.key impl.numBuckets) node.key node.val
    cloneLoop source turns node.iterNext impl

def clone (impl : Impl κ ν) : Option (Impl κ ν) :=
  cloneLoop hash impl (impl.size + 1) impl.begin { new with numBuckets := impl.numBuckets }

def deleteNodeList : Nat → Option Nat → Impl κ ν → Option (Impl κ ν)
  | 0, _, _ => none
  | _ + 1, none, impl => some impl
  | turns + 1, some ref, impl => do
    let node ← impl.nodes ref
    deleteNodeList turns node.iterNext { impl with nodes := Function.update impl.nodes ref none }

def equalsLoop [DecidableEq κ] [DecidableEq ν] (impl other : Impl κ ν) :
    Nat → Option Nat → Option Bool
  | 0, _ => none
  | _ + 1, none => some true
  | turns + 1, some ref => do
    let node ← impl.nodes ref
    match ← other.find hash node.key with
    | (none, _) => some false
    | (some found, _) => do
      let otherNode ← other.nodes found
      if node.key = otherNode.key ∧ node.val = otherNode.val then
        equalsLoop impl other turns node.iterNext
      else some false

/-- The keys and values met from `begin()` on. -/
def entriesLoop (impl : Impl κ ν) : Nat → Option Nat → Option (List (κ × ν))
  | 0, _ => none
  | _ + 1, none => some []
  | turns + 1, some ref => do
    let node ← impl.nodes ref
    let rest ← impl.entriesLoop turns node.iterNext
    some ((node.key, node.val) :: rest)

end Operations

end Impl

end Db8.Core.MojHashBase
