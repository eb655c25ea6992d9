import Db8.Core.HashBase
import Mathlib.Data.List.Perm.Subperm

/-!
# The lists of a hash table

What holds of the nodes of a table and their links, and that every operation keeps it: each node is
in the chain of the bucket that its hash says, and all nodes are in one list that is iterated over.
-/

set_option autoImplicit false

namespace Db8.Core.MojHashBase.Impl

open Db8.Heap

variable {κ ν : Type}

def entry (impl : Impl κ ν) (ref : Nat) : Option (κ × ν) :=
  (impl.nodes ref).map fun node => (node.key, node.val)

def bucketLink (impl : Impl κ ν) (ref : Nat) : Option (Option Nat) :=
  (impl.nodes ref).map Node.bucketNext

def iterLink (impl : Impl κ ν) (ref : Nat) : Option (Option Nat) :=
  (impl.nodes ref).map Node.iterNext

def backLink (impl : Impl κ ν) (ref : Nat) : Option (Option Place) :=
  (impl.nodes ref).map Node.iterRef

structure Listed (impl : Impl κ ν) (order : List Nat) : Prop where
  iter : Chain impl.iterLink impl.begin order
  back : Backed impl.backLink .begin order
  live : ∀ ref, impl.entry ref ≠ none ↔ ref ∈ order
  size : impl.size = order.length
  fresh : ∀ ref, impl.next ≤ ref → impl.entry ref = none
  keys : ∀ one two first second, impl.entry one = some first → impl.entry two = some second →
    first.1 = second.1 → one = two

structure Bucket (hash : κ → Nat) (impl : Impl κ ν) (idx : Nat) (refs : List Nat) : Prop where
  chain : Chain impl.bucketLink (impl.buckets idx) refs
  mem : ∀ ref, ref ∈ refs ↔
    ∃ entry, impl.entry ref = some entry ∧ bucketForKey hash entry.1 impl.numBuckets = idx

structure Linked (hash : κ → Nat) (impl : Impl κ ν) (order : List Nat) : Prop where
  listed : Listed impl order
  positive : 0 < impl.numBuckets
  buckets : ∀ idx < impl.numBuckets, ∃ refs, Bucket hash impl idx refs

def Has (impl : Impl κ ν) (entry : κ × ν) : Prop := ∃ ref, impl.entry ref = some entry

def Holds (impl : Impl κ ν) (map : κ → Option ν) : Prop :=
  ∀ key val, map key = some val ↔ impl.Has (key, val)

variable {hash : κ → Nat} {impl : Impl κ ν} {order : List Nat}

theorem node_of_entry {ref : Nat} {entry : κ × ν} (found : impl.entry ref = some entry) :
    ∃ node, impl.nodes ref = some node ∧ node.key = entry.1 ∧ node.val = entry.2 := by
  rcases Option.map_eq_some_iff.mp found with ⟨node, there, rfl⟩
  exact ⟨node, there, rfl, rfl⟩

theorem entry_of_node {ref : Nat} {node : Node κ ν} (there : impl.nodes ref = some node) :
    impl.entry ref = some (node.key, node.val) := by
  rw [entry, there]
  rfl

theorem Listed.mem (listed : Listed impl order) {ref : Nat} {entry : κ × ν}
    (there : impl.entry ref = some entry) : ref ∈ order :=
  (listed.live ref).mp (by rw [there]; exact Option.some_ne_none entry)

theorem Listed.node (listed : Listed impl order) {ref : Nat} (member : ref ∈ order) :
    ∃ node, impl.nodes ref = some node := by
  rcases Option.ne_none_iff_exists'.mp ((listed.live ref).mpr member) with ⟨entry, found⟩
  rcases node_of_entry found with ⟨node, there, -⟩
  exact ⟨node, there⟩

theorem Linked.length_le (linked : Linked hash impl order) {idx : Nat} {chain : List Nat}
    (bucket : Bucket hash impl idx chain) : chain.length ≤ impl.size := by
  rw [linked.listed.size]
  apply List.Subperm.length_le
  apply List.subperm_of_subset bucket.chain.nodup
  intro ref member
  rcases (bucket.mem ref).mp member with ⟨entry, there, -⟩
  exact linked.listed.mem there

theorem Linked.bucketForKey_lt (linked : Linked hash impl order) (key : κ) :
    bucketForKey hash key impl.numBuckets < impl.numBuckets :=
  Nat.mod_lt _ linked.positive

section Find

variable [DecidableEq κ]

theorem findLoop_spec {start : Option Nat} {refs : List Nat} (key : κ)
    (chain : Chain impl.bucketLink start refs) {turns : Nat} (enough : refs.length < turns) :
    ∃ found, impl.findLoop key turns start = some found ∧
      (∀ ref ∈ found, ∃ val, impl.entry ref = some (key, val)) ∧
      (found = none → ∀ ref ∈ refs, ∀ entry ∈ impl.entry ref, entry.1 ≠ key) := by
  induction chain generalizing turns with
  | nil =>
    cases turns with
    | zero => exact absurd enough (Nat.not_lt_zero _)
    | succ turns =>
      exact ⟨none, rfl, fun ref member => absurd member (Option.not_mem_none ref),
        fun _ _ member => absurd member List.not_mem_nil⟩
  | @cons ref next rest linked chain ih =>
    cases turns with
    | zero => exact absurd enough (Nat.not_lt_zero _)
    | succ turns =>
      rcases Option.map_eq_some_iff.mp linked with ⟨node, there, rfl⟩
      rw [findLoop, there, Option.bind_eq_bind, Option.bind_some]
      split_ifs with same
      · refine ⟨some ref, rfl, ?_, fun none_ => absurd none_ (Option.some_ne_none ref)⟩
        intro other found
        cases found
        exact ⟨node.val, by rw [entry_of_node there, same]⟩
      · rcases ih (Nat.lt_of_succ_lt_succ enough) with ⟨found, looked, hit, miss⟩
        refine ⟨found, looked, hit, ?_⟩
        intro nothing other member entry found
        rcases List.mem_cons.mp member with rfl | later
        · rw [entry_of_node there] at found
          cases found
          exact same
        · exact miss nothing other later entry found

/-- A key is found just if it is there; the bucket is the key's, except in an empty table. -/
theorem Linked.find (linked : Linked hash impl order) (key : κ) :
    ∃ found idx, impl.find hash key = some (found, idx) ∧
      (impl.size ≠ 0 → idx = bucketForKey hash key impl.numBuckets) ∧
      (∀ ref ∈ found, ∃ val, impl.entry ref = some (key, val)) ∧
      (found = none → ∀ ref entry, impl.entry ref = some entry → entry.1 ≠ key) := by
  rw [Impl.find]
  split_ifs with empty
  · refine ⟨none, 0, rfl, fun more => absurd empty more,
      fun ref member => absurd member (Option.not_mem_none ref), ?_⟩
    intro _ ref entry there
    have member := linked.listed.mem there
    rw [List.length_eq_zero_iff.mp (linked.listed.size.symm.trans empty)] at member
    cases member
  · rcases linked.buckets _ (linked.bucketForKey_lt key) with ⟨chain, bucket⟩
    rcases findLoop_spec key bucket.chain (Nat.lt_succ_of_le (linked.length_le bucket)) with
      ⟨found, looked, hit, miss⟩
    dsimp only
    rw [looked]
    refine ⟨found, _, rfl, fun _ => rfl, hit, ?_⟩
    intro nothing ref entry there same
    have member : ref ∈ chain := (bucket.mem ref).mpr ⟨entry, there, by rw [same]⟩
    exact miss nothing ref member entry there same

end Find

section Put

def ledAnew (impl : Impl κ ν) (ref : Nat) (node : Node κ ν) : Node κ ν :=
  if impl.begin = some ref then { node with iterRef := some (.after impl.next) } else node

def added (impl : Impl κ ν) (idx : Nat) (key : κ) (val : ν) : Impl κ ν where
  nodes ref :=
    if ref = impl.next then some ⟨key, val, impl.buckets idx, impl.begin, some .begin⟩
    else (impl.nodes ref).map (impl.ledAnew ref)
  next := impl.next + 1
  buckets := Function.update impl.buckets idx (some impl.next)
  begin := some impl.next
  numBuckets := impl.numBuckets
  size := impl.size + 1

theorem put_eq (fresh : impl.nodes impl.next = none)
    (begins : ∀ first ∈ impl.begin, ∃ node, impl.nodes first = some node) {idx : Nat}
    (inside : idx < impl.numBuckets) (key : κ) (val : ν) :
    impl.put idx key val = some (impl.added idx key val) := by
  have others : ∀ first ∈ impl.begin, first ≠ impl.next := by
    rintro first begins_ rfl
    rcases begins _ begins_ with ⟨node, there⟩
    rw [fresh] at there
    cases there
  rw [put, if_pos inside]
  rcases first_ : impl.begin with _ | first
  · simp only [insert, modify, setIterRef, added, Function.update_self, Option.bind_eq_bind, Option.bind_some,
      Option.isSome_none, Bool.false_eq_true, if_false, Option.map_some, first_,
      Function.update_idem]
    congr 2
    funext ref
    rw [Function.update_apply]
    by_cases same : ref = impl.next
    · rw [if_pos same, if_pos same]
    · rw [if_neg same, if_neg same]
      rcases impl.nodes ref with _ | node
      · rfl
      · rw [Option.map_some, ledAnew, first_, if_neg (by exact fun impossible => by cases impossible)]
  · have apart := others first first_
    rcases begins first first_ with ⟨node, there⟩
    simp only [insert, modify, setIterRef, added, Function.update_self, Option.bind_eq_bind, Option.bind_some,
      Option.isSome_none, Bool.false_eq_true, if_false, Option.map_some, first_,
      Function.update_idem, Function.update_of_ne apart, Function.update_of_ne apart.symm, there]
    congr 2
    funext ref
    rw [Function.update_apply, Function.update_apply, Function.update_apply]
    by_cases same : ref = impl.next
    · rw [if_pos same, if_pos same]
    · rw [if_neg same, if_neg same, if_neg same]
      by_cases here : ref = first
      · rw [if_pos here, here, there, Option.map_some, ledAnew, if_pos first_]
      · rw [if_neg here]
        rcases impl.nodes ref with _ | node
        · rfl
        · rw [Option.map_some, ledAnew, first_, if_neg fun again => here (Option.some.inj again).symm]

variable {idx : Nat} {key : κ} {val : ν}

theorem key_ledAnew (ref : Nat) (node : Node κ ν) : (impl.ledAnew ref node).key = node.key ∧
    (impl.ledAnew ref node).val = node.val ∧
    (impl.ledAnew ref node).bucketNext = node.bucketNext ∧
    (impl.ledAnew ref node).iterNext = node.iterNext := by
  rw [ledAnew]
  split_ifs <;> exact ⟨rfl, rfl, rfl, rfl⟩

theorem entry_added (ref : Nat) : (impl.added idx key val).entry ref =
    if ref = impl.next then some (key, val) else impl.entry ref := by
  unfold entry added
  dsimp only
  split_ifs
  · rfl
  · rw [Option.map_map]
    congr 1
    funext node
    rw [Function.comp_apply, (key_ledAnew ref node).1, (key_ledAnew ref node).2.1]

theorem bucketLink_added (ref : Nat) : (impl.added idx key val).bucketLink ref =
    if ref = impl.next then some (impl.buckets idx) else impl.bucketLink ref := by
  unfold bucketLink added
  dsimp only
  split_ifs
  · rfl
  · rw [Option.map_map]
    congr 1
    funext node
    rw [Function.comp_apply, (key_ledAnew ref node).2.2.1]

theorem iterLink_added (ref : Nat) : (impl.added idx key val).iterLink ref =
    if ref = impl.next then some impl.begin else impl.iterLink ref := by
  unfold iterLink added
  dsimp only
  split_ifs
  · rfl
  · rw [Option.map_map]
    congr 1
    funext node
    rw [Function.comp_apply, (key_ledAnew ref node).2.2.2]

theorem backLink_added (ref : Nat) : (impl.added idx key val).backLink ref =
    if ref = impl.next then some (some .begin)
    else if impl.begin = some ref then (impl.backLink ref).map fun _ => some (.after impl.next)
    else impl.backLink ref := by
  unfold backLink added
  dsimp only
  split_ifs with new first
  · rfl
  · rw [Option.map_map, Option.map_map]
    congr 1
    funext node
    rw [Function.comp_apply, ledAnew, if_pos first]
    rfl
  · rw [Option.map_map]
    congr 1
    funext node
    rw [Function.comp_apply, ledAnew, if_neg first]

theorem Listed.added (listed : Listed impl order)
    (absent : ∀ ref entry, impl.entry ref = some entry → entry.1 ≠ key) :
    Listed (impl.added idx key val) (impl.next :: order) := by
  have fresh := listed.fresh impl.next (Nat.le_refl _)
  have apart : ∀ ref ∈ order, ref ≠ impl.next := by
    rintro ref member rfl
    exact (listed.live _).mpr member fresh
  refine ⟨?_, ⟨?_, ?_⟩, ?_, ?_, ?_, ?_⟩
  · refine .cons (by rw [iterLink_added, if_pos rfl]) (listed.iter.congr ?_)
    intro ref member
    rw [iterLink_added, if_neg (apart ref member)]
  · rw [backLink_added, if_pos rfl]
  · have back := listed.back
    have iter := listed.iter
    rcases order with _ | ⟨first, rest⟩
    · trivial
    · have begins : impl.begin = some first := iter.start_eq
      refine ⟨?_, back.2.congr ?_⟩
      · rw [backLink_added, if_neg (apart first List.mem_cons_self), if_pos begins, back.1]
        rfl
      · intro ref member
        have later : first ≠ ref := by
          rintro rfl
          exact (List.nodup_cons.mp iter.nodup).1 member
        rw [backLink_added, if_neg (apart ref (List.mem_cons_of_mem first member)), begins,
          if_neg fun same => later (Option.some.inj same)]
  · intro ref
    rw [entry_added, List.mem_cons]
    split_ifs with new
    · exact ⟨fun _ => .inl new, fun _ => Option.some_ne_none _⟩
    · rw [listed.live ref, or_iff_right new]
  · exact congrArg Nat.succ listed.size
  · intro ref beyond
    have later : impl.next < ref := beyond
    rw [entry_added, if_neg (Nat.ne_of_gt later)]
    exact listed.fresh ref (Nat.le_of_lt later)
  · intro one two first second oneThere twoThere same
    rw [entry_added] at oneThere twoThere
    split_ifs at oneThere twoThere with oneNew twoNew twoNew
    · rw [oneNew, twoNew]
    · cases oneThere
      exact absurd same.symm (absent two second twoThere)
    · cases twoThere
      exact absurd same (absent one first oneThere)
    · exact listed.keys one two first second oneThere twoThere same

theorem Bucket.added {chain : List Nat} {at_ : Nat} (bucket : Bucket hash impl at_ chain)
    (fresh : impl.entry impl.next = none) (idxIs : idx = bucketForKey hash key impl.numBuckets) :
    ∃ chain, Bucket hash (impl.added idx key val) at_ chain := by
  have apart : ∀ ref ∈ chain, ref ≠ impl.next := by
    rintro ref member rfl
    rcases (bucket.mem _).mp member with ⟨entry, there, -⟩
    rw [fresh] at there
    cases there
  have stays : Chain (impl.added idx key val).bucketLink (impl.buckets at_) chain := by
    apply bucket.chain.congr
    intro ref member
    rw [bucketLink_added, if_neg (apart ref member)]
  by_cases here : at_ = idx
  · subst here
    refine ⟨impl.next :: chain, ?_, ?_⟩
    · have head : (impl.added at_ key val).buckets at_ = some impl.next := Function.update_self _ _ _
      rw [head]
      exact .cons (by rw [bucketLink_added, if_pos rfl]) stays
    · intro ref
      rw [entry_added, List.mem_cons]
      split_ifs with new
      · exact ⟨fun _ => ⟨(key, val), rfl, idxIs.symm⟩, fun _ => .inl new⟩
      · rw [or_iff_right new]
        exact bucket.mem ref
  · refine ⟨chain, ?_, ?_⟩
    · have head : (impl.added idx key val).buckets at_ = impl.buckets at_ :=
        Function.update_of_ne here _ _
      rw [head]
      exact stays
    · intro ref
      rw [entry_added]
      split_ifs with new
      · constructor
        · intro member
          exact absurd new (apart ref member)
        · rintro ⟨entry, same, there⟩
          cases same
          exact absurd (there.symm.trans idxIs.symm) here
      · exact bucket.mem ref

theorem Linked.put (linked : Linked hash impl order)
    (absent : ∀ ref entry, impl.entry ref = some entry → entry.1 ≠ key) (val : ν) :
    impl.put (bucketForKey hash key impl.numBuckets) key val =
        some (impl.added (bucketForKey hash key impl.numBuckets) key val) ∧
      Linked hash (impl.added (bucketForKey hash key impl.numBuckets) key val)
        (impl.next :: order) := by
  have listed := linked.listed
  have fresh := listed.fresh impl.next (Nat.le_refl _)
  refine ⟨put_eq (Option.map_eq_none_iff.mp fresh) ?_ (linked.bucketForKey_lt key) key val,
    listed.added absent, linked.positive, ?_⟩
  · intro first begins
    have member : first ∈ order := by
      apply List.mem_of_mem_head?
      rw [← listed.iter.start_eq]
      exact begins
    exact listed.node member
  · intro at_ inside
    rcases linked.buckets at_ inside with ⟨chain, bucket⟩
    exact bucket.added fresh rfl

end Put

section Congruence

variable {other : Impl κ ν}

structure Alike (impl other : Impl κ ν) : Prop where
  iterLink : other.iterLink = impl.iterLink
  backLink : other.backLink = impl.backLink
  next : other.next = impl.next
  begin : other.begin = impl.begin
  size : other.size = impl.size

theorem Alike.refl (impl : Impl κ ν) : Alike impl impl := ⟨rfl, rfl, rfl, rfl, rfl⟩

theorem Alike.trans {further : Impl κ ν} (one : Alike impl other) (two : Alike other further) :
    Alike impl further :=
  ⟨two.iterLink.trans one.iterLink, two.backLink.trans one.backLink, two.next.trans one.next,
    two.begin.trans one.begin, two.size.trans one.size⟩

theorem Listed.alike (listed : Listed impl order) (alike : Alike impl other)
    (entries : other.entry = impl.entry) : Listed other order := by
  refine ⟨?_, ?_, ?_, ?_, ?_, ?_⟩
  · rw [alike.iterLink, alike.begin]
    exact listed.iter
  · rw [alike.backLink]
    exact listed.back
  · rw [entries]
    exact listed.live
  · rw [alike.size]
    exact listed.size
  · rw [alike.next, entries]
    exact listed.fresh
  · rw [entries]
    exact listed.keys

end Congruence

section Modify

variable {ref : Nat} {node : Node κ ν} {change : Node κ ν → Node κ ν}

def changed (impl : Impl κ ν) (ref : Nat) (node : Node κ ν) : Impl κ ν :=
  { impl with nodes := Function.update impl.nodes ref (some node) }

theorem modify_eq (there : impl.nodes ref = some node) :
    impl.modify ref change = some (impl.changed ref (change node)) := by
  rw [modify, there]
  rfl

theorem map_changed {α : Type} (part : Node κ ν → α) {before after : Node κ ν}
    (there : impl.nodes ref = some before) (same : part after = part before) (other : Nat) :
    ((impl.changed ref after).nodes other).map part = (impl.nodes other).map part := by
  unfold changed
  dsimp only
  rw [Function.update_apply]
  split_ifs with here
  · rw [here, there, Option.map_some, Option.map_some, same]
  · rfl

theorem map_changed_self {α : Type} (part : Node κ ν → α) (after : Node κ ν) :
    ((impl.changed ref after).nodes ref).map part = some (part after) := by
  unfold changed
  dsimp only
  rw [Function.update_self]
  rfl

theorem map_changed_of_ne {α : Type} (part : Node κ ν → α) (after : Node κ ν) {other : Nat}
    (apart : other ≠ ref) :
    ((impl.changed ref after).nodes other).map part = (impl.nodes other).map part := by
  unfold changed
  dsimp only
  rw [Function.update_of_ne apart]

end Modify

section Remove

structure Kept (impl other : Impl κ ν) (idx : Nat) : Prop where
  alike : Alike impl other
  entries : other.entry = impl.entry
  numBuckets : other.numBuckets = impl.numBuckets
  buckets : ∀ far, far ≠ idx → other.buckets far = impl.buckets far

theorem kept_changed {ref : Nat} {node : Node κ ν} (there : impl.nodes ref = some node)
    (next : Option Nat) (idx : Nat) :
    Kept impl (impl.changed ref { node with bucketNext := next }) idx :=
  ⟨⟨funext (map_changed Node.iterNext there rfl), funext (map_changed Node.iterRef there rfl), rfl,
    rfl, rfl⟩, funext (map_changed _ there rfl), rfl, fun _ _ => rfl⟩

theorem Kept.trans {other further : Impl κ ν} {idx : Nat} (one : Kept impl other idx)
    (two : Kept other further idx) : Kept impl further idx :=
  ⟨one.alike.trans two.alike, two.entries.trans one.entries,
    two.numBuckets.trans one.numBuckets,
    fun far apart => (two.buckets far apart).trans (one.buckets far apart)⟩

theorem store_spec {idx : Nat} {nodePtr : Place} {start : Option Nat}
    (loaded : impl.load idx nodePtr = some start) (next : Option Nat) :
    ∃ other, impl.store idx next nodePtr = some other ∧ Kept impl other idx ∧
      other.load idx nodePtr = some next ∧
      (∀ far, nodePtr ≠ .after far → other.nodes far = impl.nodes far) ∧
      (nodePtr ≠ .begin → other.buckets = impl.buckets) := by
  cases nodePtr with
  | begin =>
    refine ⟨{ impl with buckets := Function.update impl.buckets idx next }, rfl,
      ⟨⟨rfl, rfl, rfl, rfl, rfl⟩, rfl, rfl, ?_⟩, ?_, fun _ _ => rfl, fun no => absurd rfl no⟩
    · intro far apart
      exact Function.update_of_ne apart _ _
    · exact congrArg some (Function.update_self _ _ _)
  | after before =>
    rcases Option.map_eq_some_iff.mp loaded with ⟨node, there, -⟩
    refine ⟨impl.changed before { node with bucketNext := next }, modify_eq there,
      kept_changed there next idx, map_changed_self Node.bucketNext _, ?_, fun _ => rfl⟩
    intro far apart
    exact Function.update_of_ne (fun same => apart (congrArg Place.after same.symm)) _ _

theorem load_changed {idx ref : Nat} {node : Node κ ν} {nodePtr : Place}
    (apart : nodePtr ≠ .after ref) : (impl.changed ref node).load idx nodePtr = impl.load idx nodePtr := by
  cases nodePtr with
  | begin => rfl
  | after before => exact map_changed_of_ne _ _ fun same => apart (congrArg Place.after same)

theorem removeLoop_spec {idx ref : Nat} {refs : List Nat} {turns : Nat} (nodePtr : Place)
    {start : Option Nat} (loaded : impl.load idx nodePtr = some start)
    (chain : Chain impl.bucketLink start refs) (member : ref ∈ refs) (enough : refs.length < turns)
    (before : ∀ far ∈ refs, nodePtr ≠ .after far) :
    ∃ other rest, removeLoop idx ref turns nodePtr impl = some other ∧ Kept impl other idx ∧
      other.load idx nodePtr = some rest ∧ Chain other.bucketLink rest (refs.erase ref) ∧
      (∀ far, far ∉ refs → nodePtr ≠ .after far → other.nodes far = impl.nodes far) ∧
      (nodePtr ≠ .begin → other.buckets = impl.buckets) := by
  induction chain generalizing turns nodePtr with
  | nil => cases member
  | @cons found next rest linked chain ih =>
    cases turns with
    | zero => exact absurd enough (Nat.not_lt_zero _)
    | succ turns =>
      have distinct := (Chain.cons linked chain).nodup
      rcases Option.map_eq_some_iff.mp linked with ⟨node, there, nextIs⟩
      rw [removeLoop, loaded, Option.bind_eq_bind, Option.bind_some]
      dsimp only
      split_ifs with same
      · subst same
        rcases store_spec loaded node.bucketNext with ⟨stored, done, kept, loads, nodes, buckets⟩
        have still : stored.nodes found = some node := by
          rw [nodes found (before found List.mem_cons_self), there]
        have apart : ∀ far ∈ rest, far ≠ found := by
          rintro far later rfl
          exact (List.nodup_cons.mp distinct).1 later
        refine ⟨stored.changed found { node with bucketNext := none }, next, ?_,
          kept.trans (kept_changed still none idx), ?_, ?_, ?_, buckets⟩
        · rw [there, Option.bind_eq_bind, Option.bind_some, done, Option.bind_eq_bind,
            Option.bind_some]
          exact modify_eq still
        · rw [load_changed (before found List.mem_cons_self), loads, nextIs]
        · rw [List.erase_cons_head]
          apply chain.congr
          intro far later
          rw [bucketLink, map_changed_of_ne _ _ (apart far later),
            nodes far (before far (List.mem_cons_of_mem found later))]
          rfl
        · intro far outside notPtr
          have far_ : far ≠ found := fun same => outside (same ▸ List.mem_cons_self)
          exact (Function.update_of_ne far_ _ _).trans (nodes far notPtr)
      · have later : ref ∈ rest := (List.mem_cons.mp member).resolve_left (Ne.symm same)
        have apart : ∀ far ∈ rest, Place.after found ≠ .after far := by
          rintro far more again
          cases again
          exact (List.nodup_cons.mp distinct).1 more
        have link : impl.load idx (.after found) = some next := linked
        rcases ih (.after found) link later
          (Nat.lt_of_succ_lt_succ enough) apart with
          ⟨other, start, done, kept, loads, rests, nodes, buckets⟩
        have more : next.isNone = false := by
          cases chain with
          | nil => cases later
          | cons _ _ => rfl
        refine ⟨other, some found, ?_, kept, ?_, ?_, ?_, ?_⟩
        · rw [link, Option.bind_some, more, if_neg Bool.false_ne_true]
          exact done
        · rw [← loaded]
          cases nodePtr with
          | begin => exact congrArg some (congrFun (buckets Place.noConfusion) idx)
          | after ptr =>
            have outside : ptr ∉ found :: rest := fun inside => before ptr inside rfl
            rw [List.mem_cons, not_or] at outside
            have unchanged := nodes ptr outside.2 fun again => outside.1 (by cases again; rfl)
            exact congrArg (Option.map Node.bucketNext) unchanged
        · rw [List.erase_cons_tail (by rw [beq_iff_eq]; exact same)]
          exact .cons loads rests
        · intro far outside notPtr
          rw [List.mem_cons, not_or] at outside
          exact nodes far outside.2 fun again => outside.1 (by cases again; rfl)
        · intro _
          exact buckets Place.noConfusion

structure Relinked (impl other : Impl κ ν) : Prop where
  entries : other.entry = impl.entry
  bucketLink : other.bucketLink = impl.bucketLink
  buckets : other.buckets = impl.buckets
  numBuckets : other.numBuckets = impl.numBuckets
  next : other.next = impl.next
  size : other.size = impl.size

theorem Relinked.trans {other further : Impl κ ν} (one : Relinked impl other)
    (two : Relinked other further) : Relinked impl further :=
  ⟨two.entries.trans one.entries, two.bucketLink.trans one.bucketLink, two.buckets.trans one.buckets,
    two.numBuckets.trans one.numBuckets, two.next.trans one.next, two.size.trans one.size⟩

theorem storeIter_spec (next : Option Nat) (place : Place)
    (there : ∀ ref, place = .after ref → ∃ node, impl.nodes ref = some node) :
    ∃ other, impl.storeIter next place = some other ∧ Relinked impl other ∧
      other.begin = (if place = .begin then next else impl.begin) ∧
      other.backLink = impl.backLink ∧
      ∀ far, other.iterLink far = if place = .after far then some next else impl.iterLink far := by
  cases place with
  | begin => exact ⟨_, rfl, ⟨rfl, rfl, rfl, rfl, rfl, rfl⟩, rfl, rfl, fun _ => rfl⟩
  | after ref =>
    rcases there ref rfl with ⟨node, found⟩
    refine ⟨_, modify_eq found, ⟨funext (map_changed _ found rfl), funext (map_changed _ found rfl),
      rfl, rfl, rfl, rfl⟩, rfl, funext (map_changed _ found rfl), ?_⟩
    intro far
    split_ifs with here
    · cases here
      exact map_changed_self _ _
    · exact map_changed_of_ne _ _ fun same => here (congrArg Place.after same.symm)

theorem setIterRef_spec (iterRef : Option Place) (next : Option Nat)
    (there : ∀ ref ∈ next, ∃ node, impl.nodes ref = some node) :
    ∃ other, impl.setIterRef iterRef next = some other ∧ Relinked impl other ∧
      other.begin = impl.begin ∧ other.iterLink = impl.iterLink ∧
      ∀ far, other.backLink far = if next = some far then some iterRef else impl.backLink far := by
  cases next with
  | none => exact ⟨_, rfl, ⟨rfl, rfl, rfl, rfl, rfl, rfl⟩, rfl, rfl, fun _ => rfl⟩
  | some ref =>
    rcases there ref rfl with ⟨node, found⟩
    refine ⟨_, modify_eq found, ⟨funext (map_changed _ found rfl), funext (map_changed _ found rfl),
      rfl, rfl, rfl, rfl⟩, rfl, funext (map_changed _ found rfl), ?_⟩
    intro far
    split_ifs with here
    · cases here
      exact map_changed_self _ _
    · exact map_changed_of_ne _ _ fun same => here (congrArg some same.symm)

/-- The table without a node that is in no list any more. -/
def without (impl : Impl κ ν) (ref : Nat) : Impl κ ν :=
  { impl with nodes := Function.update impl.nodes ref none, size := impl.size - 1 }

theorem map_without {α : Type} (part : Node κ ν → α) (ref far : Nat) :
    ((impl.without ref).nodes far).map part =
      if far = ref then none else (impl.nodes far).map part := by
  unfold without
  dsimp only
  rw [Function.update_apply]
  split_ifs <;> rfl

/-- What leads to a node is made to lead past it, and what comes after it to know that. -/
theorem Listed.relink {front back : List Nat} {ref : Nat} {node : Node κ ν}
    (listed : Listed impl (front ++ ref :: back)) (there : impl.nodes ref = some node) :
    ∃ place led last, node.iterRef = some place ∧
      impl.storeIter node.iterNext place = some led ∧
      led.setIterRef node.iterRef node.iterNext = some last ∧ Relinked impl last ∧
      Listed (last.without ref) (front ++ back) := by
  have ledBy : node.iterRef = some (Place.begin.past front) := by
    have at_ := listed.back.at_ref
    rw [backLink, there] at at_
    exact Option.some.inj at_
  rcases listed.iter.after with ⟨next, linkedTo, nextChain⟩
  have nextIs : node.iterNext = next := by
    rw [iterLink, there] at linkedTo
    exact Option.some.inj linkedTo
  rw [nextIs]
  have beforeThere : ∀ before, Place.begin.past front = .after before →
      ∃ node, impl.nodes before = some node := by
    intro before past
    have inFront := List.mem_of_getLast? (Place.past_after past)
    exact listed.node (List.mem_append_left _ inFront)
  rcases storeIter_spec next (Place.begin.past front) beforeThere with
    ⟨led, stored, relinked, begins, backSame, iters⟩
  have afterThere : ∀ after ∈ next, ∃ node, led.nodes after = some node := by
    intro after isNext
    have inBack : after ∈ back := by
      apply List.mem_of_mem_head?
      rw [← nextChain.start_eq]
      exact isNext
    rcases listed.node (List.mem_append_right front (List.mem_cons_of_mem ref inBack)) with
      ⟨node, nodeThere⟩
    have entry := entry_of_node nodeThere
    rw [← relinked.entries] at entry
    rcases node_of_entry entry with ⟨node, nodeThere, -⟩
    exact ⟨node, nodeThere⟩
  rcases setIterRef_spec node.iterRef next afterThere with
    ⟨last, set, relinkedLast, beginSame, iterSame, backs⟩
  have all := relinked.trans relinkedLast
  have distinct := listed.iter.nodup
  have apart : ∀ far ∈ front ++ back, far ≠ ref := by
    rintro far member rfl
    exact (List.nodup_middle.mp distinct |> List.nodup_cons.mp).1 member
  have entries : ∀ far, (last.without ref).entry far = if far = ref then none else impl.entry far := by
    intro far
    rw [← all.entries]
    exact map_without _ ref far
  have iterLinks : ∀ far ∈ front ++ back, (last.without ref).iterLink far =
      if Place.begin.past front = .after far then some next else impl.iterLink far := by
    intro far member
    rw [← iters, ← iterSame]
    exact (map_without _ ref far).trans (if_neg (apart far member))
  have backLinks : ∀ far ∈ front ++ back, (last.without ref).backLink far =
      if next = some far then some node.iterRef else impl.backLink far := by
    intro far member
    rw [← backSame, ← backs]
    exact (map_without _ ref far).trans (if_neg (apart far member))
  have disjoint := (List.nodup_append.mp distinct).2.2
  have members : ∀ far, far ∈ front ++ back ↔ far ≠ ref ∧ far ∈ front ++ ref :: back := by
    intro far
    rw [List.mem_append, List.mem_append, List.mem_cons]
    constructor
    · intro member
      exact ⟨apart far (List.mem_append.mpr member), member.imp_right .inr⟩
    · rintro ⟨notRef, member⟩
      exact member.imp_right fun rest => rest.resolve_left notRef
  refine ⟨_, led, last, ledBy, stored, set, all, ?_, ?_, ?_, ?_, ?_, ?_⟩
  · have start : (last.without ref).begin = if front = [] then next else impl.begin := by
      by_cases first : front = []
      · rw [if_pos first]
        exact beginSame.trans (begins.trans (if_pos (Place.past_begin.mpr first)))
      · rw [if_neg first]
        exact beginSame.trans (begins.trans (if_neg fun no => first (Place.past_begin.mp no)))
    rw [start]
    refine listed.iter.remove linkedTo ?_ ?_
    · intro before past
      have inFront := List.mem_of_getLast? (Place.past_after past)
      rw [iterLinks before (List.mem_append_left back inFront), if_pos past]
    · intro far member
      have inside : far ∈ front ++ back := by
        rcases List.mem_append.mp member with inFront | inBack
        · exact List.mem_append_left back (List.dropLast_subset front inFront)
        · exact List.mem_append_right front inBack
      rw [iterLinks far inside, if_neg]
      intro past
      have isLast := Place.past_after past
      rcases List.mem_append.mp member with inFront | inBack
      · have parts := List.dropLast_append_getLast? far isLast
        have again := (List.nodup_append.mp distinct).1
        rw [← parts] at again
        exact (List.nodup_append.mp again).2.2 far inFront far List.mem_cons_self rfl
      · exact disjoint far (List.mem_of_getLast? isLast) far (List.mem_cons_of_mem ref inBack) rfl
  · refine listed.back.remove ?_ ?_
    · intro after isHead
      have isNext : next = some after := nextChain.start_eq.trans isHead
      rw [backLinks after (List.mem_append_right front (List.mem_of_mem_head? isHead)),
        if_pos isNext, ledBy]
    · intro far member
      have inside : far ∈ front ++ back := by
        rcases List.mem_append.mp member with inFront | inBack
        · exact List.mem_append_left back inFront
        · exact List.mem_append_right front (List.mem_of_mem_tail inBack)
      rw [backLinks far inside, if_neg]
      intro isNext
      have isHead : back.head? = some far := nextChain.start_eq.symm.trans isNext
      rcases List.mem_append.mp member with inFront | inBack
      · exact disjoint far inFront far
          (List.mem_cons_of_mem ref (List.mem_of_mem_head? isHead)) rfl
      · cases back with
        | nil => cases inBack
        | cons head tail =>
          cases isHead
          exact (List.nodup_cons.mp nextChain.nodup).1 inBack
  · intro far
    rw [entries, members]
    split_ifs with here
    · exact ⟨fun no => absurd rfl no, fun no => absurd here no.1⟩
    · rw [listed.live far, and_iff_right here]
  · have size : (last.without ref).size = impl.size - 1 := congrArg (· - 1) all.size
    rw [size, listed.size, List.length_append, List.length_append, List.length_cons]
    rfl
  · intro far beyond
    rw [entries]
    split_ifs
    · rfl
    · exact listed.fresh far (Nat.le_trans (Nat.le_of_eq all.next.symm) beyond)
  · intro one two first second oneThere twoThere same
    rw [entries] at oneThere twoThere
    split_ifs at oneThere twoThere
    exact listed.keys one two first second oneThere twoThere same

theorem Linked.unlink (linked : Linked hash impl order) {ref : Nat} {key : κ} {val : ν}
    (found : impl.entry ref = some (key, val)) :
    ∃ other order, impl.unlink (bucketForKey hash key impl.numBuckets) ref = some other ∧
      Linked hash other order ∧
      ∀ far, other.entry far = if far = ref then none else impl.entry far := by
  have listed := linked.listed
  rcases linked.buckets _ (linked.bucketForKey_lt key) with ⟨refs, bucket⟩
  have member : ref ∈ refs := (bucket.mem ref).mpr ⟨_, found, rfl⟩
  have heads : (impl.buckets (bucketForKey hash key impl.numBuckets)).isNone = false := by
    rw [bucket.chain.start_eq]
    cases refs with
    | nil => cases member
    | cons _ _ => rfl
  rcases removeLoop_spec .begin rfl bucket.chain member
    (Nat.lt_succ_of_le (linked.length_le bucket)) (fun _ _ => Place.noConfusion) with
    ⟨cut, rest, removed, kept, loads, chain, nodes, -⟩
  have cutListed : Listed cut order := listed.alike kept.alike kept.entries
  rcases List.append_of_mem (listed.mem found) with ⟨front, back, rfl⟩
  rcases cutListed.node (List.mem_append_right front List.mem_cons_self) with ⟨node, there⟩
  rcases cutListed.relink there with ⟨place, led, last, ledBy, stored, set, all, lastListed⟩
  have entries : ∀ far, (last.without ref).entry far = if far = ref then none else impl.entry far := by
    intro far
    rw [← kept.entries, ← all.entries]
    exact map_without _ ref far
  have numBuckets : (last.without ref).numBuckets = impl.numBuckets :=
    all.numBuckets.trans kept.numBuckets
  refine ⟨last.without ref, front ++ back, ?_, ⟨lastListed, ?_, ?_⟩, entries⟩
  · rw [Impl.unlink, remove, heads, if_neg Bool.false_ne_true, removed]
    dsimp only [Option.bind_eq_bind, Option.bind_some]
    rw [there]
    dsimp only [Option.bind_some]
    rw [ledBy]
    dsimp only [Option.bind_some]
    rw [stored]
    dsimp only [Option.bind_some]
    rw [← ledBy, set]
    rfl
  · rw [numBuckets]
    exact linked.positive
  · intro at_ inside
    rw [numBuckets] at inside
    have heads : (last.without ref).buckets at_ = cut.buckets at_ := congrFun all.buckets at_
    have links : ∀ far, far ≠ ref → (last.without ref).bucketLink far = cut.bucketLink far := by
      intro far apart
      rw [← all.bucketLink]
      exact (map_without _ ref far).trans (if_neg apart)
    by_cases here : at_ = bucketForKey hash key impl.numBuckets
    · subst here
      have distinct := bucket.chain.nodup
      refine ⟨refs.erase ref, ?_, ?_⟩
      · rw [heads, Option.some.inj loads]
        apply chain.congr
        intro far member
        exact links far ((List.Nodup.mem_erase_iff distinct).mp member).1
      · intro far
        rw [List.Nodup.mem_erase_iff distinct, entries, numBuckets, bucket.mem]
        split_ifs with isRef
        · constructor
          · intro no
            exact absurd isRef no.1
          · rintro ⟨entry, impossible, -⟩
            cases impossible
        · rw [and_iff_right isRef]
    · rcases linked.buckets at_ inside with ⟨others, otherBucket⟩
      have elsewhere : ∀ far ∈ others, far ∉ refs := by
        intro far inOther inRefs
        rcases (otherBucket.mem far).mp inOther with ⟨entry, there, hashed⟩
        rcases (bucket.mem far).mp inRefs with ⟨again, thereAgain, hashedAgain⟩
        rw [there] at thereAgain
        cases thereAgain
        exact here (hashed.symm.trans hashedAgain)
      have notRef : ∀ far ∈ others, far ≠ ref := by
        rintro far inOther rfl
        exact elsewhere far inOther member
      refine ⟨others, ?_, ?_⟩
      · rw [heads, kept.buckets at_ here]
        apply otherBucket.chain.congr
        intro far inOther
        rw [links far (notRef far inOther), bucketLink,
          nodes far (elsewhere far inOther) Place.noConfusion]
        rfl
      · intro far
        rw [entries, numBuckets, otherBucket.mem]
        split_ifs with isRef
        · constructor
          · rintro ⟨entry, there, hashed⟩
            exact absurd isRef (notRef far ((otherBucket.mem far).mpr ⟨entry, there, hashed⟩))
          · rintro ⟨entry, impossible, -⟩
            cases impossible
        · exact Iff.rfl

end Remove

section Realloc

def Partly (hash : κ → Nat) (impl : Impl κ ν) (done : Nat → Prop) : Prop :=
  ∀ idx < impl.numBuckets, ∃ refs, Chain impl.bucketLink (impl.buckets idx) refs ∧
    ∀ ref, ref ∈ refs ↔ done ref ∧
      ∃ entry, impl.entry ref = some entry ∧ bucketForKey hash entry.1 impl.numBuckets = idx

def inserted (impl : Impl κ ν) (idx ref : Nat) (node : Node κ ν) : Impl κ ν :=
  { impl.changed ref { node with bucketNext := impl.buckets idx } with
    buckets := Function.update impl.buckets idx (some ref) }

variable {node : Node κ ν}

theorem insert_eq (idx : Nat) {ref : Nat} (there : impl.nodes ref = some node)
    (unlinked : node.bucketNext = none) :
    impl.insert idx ref = some (impl.inserted idx ref node) := by
  rw [insert, there, Option.bind_eq_bind, Option.bind_some, unlinked, modify_eq there]
  rfl

theorem alike_inserted (idx : Nat) {ref : Nat} (there : impl.nodes ref = some node) :
    Alike impl (impl.inserted idx ref node) ∧ (impl.inserted idx ref node).entry = impl.entry :=
  ⟨⟨funext (map_changed _ there rfl), funext (map_changed _ there rfl), rfl, rfl, rfl⟩,
    funext (map_changed _ there rfl)⟩

theorem Partly.inserted {done : Nat → Prop} (partly : Partly hash impl done) {ref : Nat}
    (there : impl.nodes ref = some node) (more : ¬done ref) :
    Partly hash (impl.inserted (bucketForKey hash node.key impl.numBuckets) ref node)
      (fun far => done far ∨ far = ref) := by
  let idx := bucketForKey hash node.key impl.numBuckets
  have entries : (impl.inserted idx ref node).entry = impl.entry := funext (map_changed _ there rfl)
  intro at_ inside
  rcases partly at_ inside with ⟨refs, chain, members⟩
  have notRef : ∀ far ∈ refs, far ≠ ref := by
    rintro far member rfl
    exact more ((members far).mp member).1
  have stays : Chain (impl.inserted idx ref node).bucketLink (impl.buckets at_) refs := by
    apply chain.congr
    intro far member
    exact map_changed_of_ne _ _ (notRef far member)
  by_cases here : at_ = idx
  · subst here
    refine ⟨ref :: refs, ?_, ?_⟩
    · have head : (impl.inserted idx ref node).buckets idx = some ref := Function.update_self _ _ _
      rw [head]
      exact .cons (map_changed_self _ _) stays
    · intro far
      rw [List.mem_cons, members, entries]
      constructor
      · rintro (rfl | ⟨isDone, found⟩)
        · exact ⟨.inr rfl, _, entry_of_node there, rfl⟩
        · exact ⟨.inl isDone, found⟩
      · rintro ⟨isDone | isRef, found⟩
        · exact .inr ⟨isDone, found⟩
        · exact .inl isRef
  · refine ⟨refs, ?_, ?_⟩
    · have head : (impl.inserted idx ref node).buckets at_ = impl.buckets at_ :=
        Function.update_of_ne here _ _
      rw [head]
      exact stays
    · intro far
      rw [members, entries]
      constructor
      · rintro ⟨isDone, found⟩
        exact ⟨.inl isDone, found⟩
      · rintro ⟨isDone | rfl, found⟩
        · exact ⟨isDone, found⟩
        · rcases found with ⟨entry, same, hashed⟩
          rw [entry_of_node there] at same
          cases same
          exact absurd hashed.symm here

theorem Partly.changed {done : Nat → Prop} (partly : Partly hash impl done) {ref : Nat}
    (there : impl.nodes ref = some node) (more : ¬done ref) (next : Option Nat) :
    Partly hash (impl.changed ref { node with bucketNext := next }) done := by
  have entries : (impl.changed ref { node with bucketNext := next }).entry = impl.entry :=
    funext (map_changed _ there rfl)
  intro at_ inside
  rcases partly at_ inside with ⟨refs, chain, members⟩
  refine ⟨refs, chain.congr ?_, ?_⟩
  · intro far member
    refine map_changed_of_ne _ _ ?_
    rintro rfl
    exact more ((members far).mp member).1
  · intro far
    rw [members, entries]
    rfl

theorem reallocLoop_spec {rest : List Nat} {start : Option Nat} {turns : Nat} {done : Nat → Prop}
    (chain : Chain impl.iterLink start rest) (enough : rest.length < turns)
    (more : ∀ ref ∈ rest, ¬done ref) (partly : Partly hash impl done) :
    ∃ other, reallocLoop hash impl.numBuckets turns start impl = some other ∧ Alike impl other ∧
      other.entry = impl.entry ∧ other.numBuckets = impl.numBuckets ∧
      Partly hash other (fun ref => done ref ∨ ref ∈ rest) := by
  induction rest generalizing impl start turns done with
  | nil =>
    cases turns with
    | zero => exact absurd enough (Nat.not_lt_zero _)
    | succ turns =>
      cases chain
      refine ⟨impl, rfl, Alike.refl impl, rfl, rfl, ?_⟩
      simpa only [List.not_mem_nil, or_false] using partly
  | cons ref rest ih =>
    cases turns with
    | zero => exact absurd enough (Nat.not_lt_zero _)
    | succ turns =>
      have distinct := List.nodup_cons.mp chain.nodup
      cases chain with
      | @cons _ next _ linked chain =>
        rcases Option.map_eq_some_iff.mp linked with ⟨node, there, rfl⟩
        have notDone := more ref List.mem_cons_self
        let cleared : Node κ ν := { node with bucketNext := none }
        have there_ : (impl.changed ref cleared).nodes ref = some cleared :=
          Function.update_self _ _ _
        have here := (partly.changed there notDone none).inserted there_ notDone
        let idx := bucketForKey hash node.key impl.numBuckets
        let moved := (impl.changed ref cleared).inserted idx ref cleared
        have kept := kept_changed there none idx
        have placed := alike_inserted idx there_
        have alike : Alike impl moved := kept.alike.trans placed.1
        have entries : moved.entry = impl.entry := placed.2.trans kept.entries
        have movedChain : Chain moved.iterLink node.iterNext rest := by
          rw [alike.iterLink]
          exact chain
        have moreLater : ∀ far ∈ rest, ¬(done far ∨ far = ref) := by
          rintro far later (isDone | rfl)
          · exact more far (List.mem_cons_of_mem ref later) isDone
          · exact distinct.1 later
        rcases ih movedChain (Nat.lt_of_succ_lt_succ enough) moreLater here with
          ⟨other, looped, otherAlike, otherEntries, otherBuckets, otherPartly⟩
        refine ⟨other, ?_, alike.trans otherAlike, otherEntries.trans entries, otherBuckets, ?_⟩
        · rw [reallocLoop, modify_eq there]
          dsimp only [Option.bind_eq_bind, Option.bind_some]
          rw [there_]
          dsimp only [Option.bind_some]
          have inserts := insert_eq idx there_ rfl
          rw [inserts]
          exact looped
        · simpa only [List.mem_cons, or_assoc] using otherPartly

theorem Listed.realloc (hash : κ → Nat) (listed : Listed impl order) {numBuckets : Nat} (positive : 0 < numBuckets) :
    ∃ other, impl.realloc hash numBuckets = some other ∧ Linked hash other order ∧
      other.entry = impl.entry ∧ other.numBuckets = numBuckets ∧ other.size = impl.size := by
  let bare : Impl κ ν := { impl with buckets := fun _ => none, numBuckets := numBuckets }
  have none_ : Partly hash bare fun _ => False := by
    intro idx _
    refine ⟨[], .nil, ?_⟩
    intro ref
    rw [false_and]
    exact ⟨fun member => absurd member List.not_mem_nil, False.elim⟩
  have iter : Chain bare.iterLink impl.begin order := listed.iter
  rcases reallocLoop_spec iter (Nat.lt_succ_of_le (Nat.le_of_eq listed.size.symm)) (fun _ _ => id) none_ with
    ⟨other, looped, alike, entries, buckets, partly⟩
  refine ⟨other, looped, ⟨listed.alike ⟨alike.iterLink, alike.backLink, alike.next, alike.begin,
    alike.size⟩ entries, buckets ▸ positive, ?_⟩, entries, buckets, alike.size⟩
  intro idx inside
  rcases partly idx inside with ⟨refs, chain, members⟩
  refine ⟨refs, chain, ?_⟩
  intro ref
  rw [members]
  constructor
  · exact And.right
  · rintro ⟨entry, there, hashed⟩
    refine ⟨.inr ?_, entry, there, hashed⟩
    rw [entries] at there
    exact listed.mem there

end Realloc

section Whole

theorem linked_new (hash : κ → Nat) {numBuckets : Nat} (positive : 0 < numBuckets) :
    Linked hash { (new : Impl κ ν) with numBuckets := numBuckets } [] := by
  refine ⟨⟨.nil, trivial, ?_, rfl, fun _ _ => rfl, ?_⟩, positive, fun _ _ => ⟨[], .nil, ?_⟩⟩
  · intro ref
    exact ⟨fun no => absurd rfl no, fun member => absurd member List.not_mem_nil⟩
  · intro one two first second impossible
    cases impossible
  · intro ref
    constructor
    · intro member
      cases member
    · rintro ⟨entry, impossible, -⟩
      cases impossible

theorem listed_new : Listed (new : Impl κ ν) [] :=
  (linked_new (fun _ => 0) Nat.one_pos).listed.alike ⟨rfl, rfl, rfl, rfl, rfl⟩ rfl

theorem has_added {idx : Nat} {key : κ} {val : ν} (fresh : impl.entry impl.next = none)
    (entry : κ × ν) : (impl.added idx key val).Has entry ↔ entry = (key, val) ∨ impl.Has entry := by
  constructor
  · rintro ⟨ref, found⟩
    rw [entry_added] at found
    split_ifs at found
    · cases found
      exact .inl rfl
    · exact .inr ⟨ref, found⟩
  · rintro (rfl | ⟨ref, found⟩)
    · exact ⟨impl.next, by rw [entry_added, if_pos rfl]⟩
    · refine ⟨ref, ?_⟩
      rw [entry_added, if_neg]
      · exact found
      · rintro rfl
        rw [fresh] at found
        cases found

theorem cloneLoop_spec {source : Impl κ ν} {rest : List Nat} {start : Option Nat} {turns : Nat}
    (chain : Chain source.iterLink start rest) (enough : rest.length < turns)
    (linked : Linked hash impl order)
    (keys : ∀ one two first second, source.entry one = some first → source.entry two = some second →
      first.1 = second.1 → one = two)
    (absent : ∀ ref ∈ rest, ∀ entry other, source.entry ref = some entry → impl.Has other →
      other.1 ≠ entry.1) :
    ∃ other others, cloneLoop hash source turns start impl = some other ∧ Linked hash other others ∧
      other.numBuckets = impl.numBuckets ∧
      ∀ entry, other.Has entry ↔ impl.Has entry ∨ ∃ ref ∈ rest, source.entry ref = some entry := by
  induction rest generalizing impl start turns order with
  | nil =>
    cases turns with
    | zero => exact absurd enough (Nat.not_lt_zero _)
    | succ turns =>
      cases chain
      refine ⟨impl, order, rfl, linked, rfl, ?_⟩
      intro entry
      constructor
      · exact .inl
      · rintro (has | ⟨ref, member, -⟩)
        · exact has
        · cases member
  | cons ref rest ih =>
    cases turns with
    | zero => exact absurd enough (Nat.not_lt_zero _)
    | succ turns =>
      have distinct := List.nodup_cons.mp chain.nodup
      cases chain with
      | @cons _ next _ link chain =>
        rcases Option.map_eq_some_iff.mp link with ⟨node, there, rfl⟩
        have entry := entry_of_node there
        have fresh := linked.listed.fresh impl.next (Nat.le_refl _)
        have absentHere : ∀ far other, impl.entry far = some other → other.1 ≠ node.key :=
          fun far other found => absent ref List.mem_cons_self _ other entry ⟨far, found⟩
        rcases linked.put absentHere node.val with ⟨put, putLinked⟩
        have absentLater : ∀ far ∈ rest, ∀ first other, source.entry far = some first →
            (impl.added (bucketForKey hash node.key impl.numBuckets) node.key node.val).Has other →
            other.1 ≠ first.1 := by
          intro far later first other found has same
          rcases (has_added fresh other).mp has with rfl | old
          · have twice := keys ref far _ _ entry found same
            exact distinct.1 (twice ▸ later)
          · exact absent far (List.mem_cons_of_mem ref later) first other found old same
        rcases ih chain (Nat.lt_of_succ_lt_succ enough) putLinked absentLater with
          ⟨other, others, looped, otherLinked, buckets, has⟩
        refine ⟨other, others, ?_, otherLinked, buckets, ?_⟩
        · rw [cloneLoop, there]
          dsimp only [Option.bind_eq_bind, Option.bind_some]
          rw [put]
          exact looped
        · intro tested
          rw [has, has_added fresh, List.exists_mem_cons_iff, entry, Option.some.injEq]
          constructor
          · rintro ((rfl | old) | later)
            · exact .inr (.inl rfl)
            · exact .inl old
            · exact .inr (.inr later)
          · rintro (old | (rfl | later))
            · exact .inl (.inr old)
            · exact .inl (.inl rfl)
            · exact .inr later

theorem Linked.clone (linked : Linked hash impl order) :
    ∃ other others, impl.clone hash = some other ∧ Linked hash other others ∧
      ∀ entry, other.Has entry ↔ impl.Has entry := by
  have listed := linked.listed
  rcases cloneLoop_spec listed.iter (Nat.lt_succ_of_le (Nat.le_of_eq listed.size.symm))
    (linked_new hash linked.positive) listed.keys
    (by rintro ref member entry other found ⟨far, impossible⟩; cases impossible) with
    ⟨other, others, cloned, otherLinked, -, has⟩
  refine ⟨other, others, cloned, otherLinked, ?_⟩
  intro entry
  rw [has]
  constructor
  · rintro (⟨far, impossible⟩ | ⟨ref, -, found⟩)
    · cases impossible
    · exact ⟨ref, found⟩
  · rintro ⟨ref, found⟩
    exact .inr ⟨ref, listed.mem found, found⟩

theorem deleteNodeList_spec {rest : List Nat} {start : Option Nat} {turns : Nat}
    (chain : Chain impl.iterLink start rest) (enough : rest.length < turns) :
    ∃ other, deleteNodeList turns start impl = some other := by
  induction rest generalizing impl start turns with
  | nil =>
    cases turns with
    | zero => exact absurd enough (Nat.not_lt_zero _)
    | succ turns =>
      cases chain
      exact ⟨impl, rfl⟩
  | cons ref rest ih =>
    cases turns with
    | zero => exact absurd enough (Nat.not_lt_zero _)
    | succ turns =>
      have distinct := List.nodup_cons.mp chain.nodup
      cases chain with
      | @cons _ next _ link chain =>
        rcases Option.map_eq_some_iff.mp link with ⟨node, there, rfl⟩
        rw [deleteNodeList, there, Option.bind_eq_bind, Option.bind_some]
        refine ih (chain.congr ?_) (Nat.lt_of_succ_lt_succ enough)
        intro far later
        have apart : far ≠ ref := by
          rintro rfl
          exact distinct.1 later
        exact congrArg (Option.map Node.iterNext) (Function.update_of_ne apart _ _)

end Whole

section Values

theorem Linked.setVal (linked : Linked hash impl order) {ref : Nat} {node : Node κ ν}
    (there : impl.nodes ref = some node) (val : ν) :
    Linked hash (impl.changed ref { node with val := val }) order ∧
      ∀ entry, (impl.changed ref { node with val := val }).Has entry ↔
        entry = (node.key, val) ∨ entry.1 ≠ node.key ∧ impl.Has entry := by
  have listed := linked.listed
  have entries : ∀ far, (impl.changed ref { node with val := val }).entry far =
      if far = ref then some (node.key, val) else impl.entry far := by
    intro far
    split_ifs with here
    · rw [here]
      exact map_changed_self _ _
    · exact map_changed_of_ne _ _ here
  have keys : ∀ far first, (impl.changed ref { node with val := val }).entry far = some first →
      ∃ second, impl.entry far = some second ∧ second.1 = first.1 := by
    intro far first found
    rw [entries] at found
    split_ifs at found with here
    · cases found
      exact ⟨(node.key, node.val), by rw [here]; exact entry_of_node there, rfl⟩
    · exact ⟨first, found, rfl⟩
  have keysBack : ∀ far second, impl.entry far = some second →
      ∃ first, (impl.changed ref { node with val := val }).entry far = some first ∧
        second.1 = first.1 := by
    intro far second found
    rw [entries]
    split_ifs with here
    · rw [here, entry_of_node there] at found
      cases found
      exact ⟨_, rfl, rfl⟩
    · exact ⟨second, found, rfl⟩
  have iterLinks : (impl.changed ref { node with val := val }).iterLink = impl.iterLink :=
    funext (map_changed _ there rfl)
  have backLinks : (impl.changed ref { node with val := val }).backLink = impl.backLink :=
    funext (map_changed _ there rfl)
  have bucketLinks : (impl.changed ref { node with val := val }).bucketLink = impl.bucketLink :=
    funext (map_changed _ there rfl)
  refine ⟨⟨⟨?_, ?_, ?_, listed.size, ?_, ?_⟩, linked.positive, ?_⟩, ?_⟩
  · rw [iterLinks]
    exact listed.iter
  · rw [backLinks]
    exact listed.back
  · intro far
    rw [← listed.live, entries]
    split_ifs with here
    · rw [here, entry_of_node there]
      exact ⟨fun _ => Option.some_ne_none _, fun _ => Option.some_ne_none _⟩
    · exact Iff.rfl
  · intro far beyond
    rw [entries, if_neg]
    · exact listed.fresh far beyond
    · rintro rfl
      have none_ := listed.fresh far beyond
      rw [entry_of_node there] at none_
      cases none_
  · intro one two first second oneThere twoThere same
    rcases keys one first oneThere with ⟨before, beforeThere, beforeKey⟩
    rcases keys two second twoThere with ⟨after, afterThere, afterKey⟩
    exact listed.keys one two before after beforeThere afterThere
      (beforeKey.trans (same.trans afterKey.symm))
  · intro idx inside
    rcases linked.buckets idx inside with ⟨refs, bucket⟩
    refine ⟨refs, ?_, ?_⟩
    · rw [bucketLinks]
      exact bucket.chain
    · intro far
      rw [bucket.mem]
      constructor
      · rintro ⟨entry, found, hashed⟩
        rcases keysBack far entry found with ⟨first, foundFirst, same⟩
        exact ⟨first, foundFirst, by rw [← same]; exact hashed⟩
      · rintro ⟨entry, found, hashed⟩
        rcases keys far entry found with ⟨second, foundSecond, same⟩
        exact ⟨second, foundSecond, by rw [same]; exact hashed⟩
  · intro entry
    constructor
    · rintro ⟨far, found⟩
      rw [entries] at found
      split_ifs at found with here
      · cases found
        exact .inl rfl
      · refine .inr ⟨?_, far, found⟩
        intro same
        exact here (listed.keys far ref _ _ found (entry_of_node there) same)
    · rintro (rfl | ⟨apart, far, found⟩)
      · exact ⟨ref, by rw [entries, if_pos rfl]⟩
      · refine ⟨far, ?_⟩
        rw [entries, if_neg]
        · exact found
        · rintro rfl
          rw [entry_of_node there] at found
          cases found
          exact apart rfl

def entries (impl : Impl κ ν) (order : List Nat) : List (κ × ν) := order.filterMap impl.entry

theorem Listed.mem_entries (listed : Listed impl order) (entry : κ × ν) :
    entry ∈ impl.entries order ↔ impl.Has entry := by
  rw [entries, List.mem_filterMap]
  constructor
  · rintro ⟨ref, -, found⟩
    exact ⟨ref, found⟩
  · rintro ⟨ref, found⟩
    exact ⟨ref, listed.mem found, found⟩

theorem Listed.nodup_entries (listed : Listed impl order) : (impl.entries order).Nodup := by
  apply List.Nodup.filterMap _ listed.iter.nodup
  intro one two entry oneThere twoThere
  exact listed.keys one two entry entry oneThere twoThere rfl

theorem Listed.nodup_keys (listed : Listed impl order) :
    ((impl.entries order).map Prod.fst).Nodup := by
  apply List.Nodup.map_on _ listed.nodup_entries
  intro first firstThere second secondThere same
  rcases (listed.mem_entries first).mp firstThere with ⟨one, oneThere⟩
  rcases (listed.mem_entries second).mp secondThere with ⟨two, twoThere⟩
  have twice := listed.keys one two first second oneThere twoThere same
  rw [twice, twoThere] at oneThere
  exact (Option.some.inj oneThere).symm

theorem length_filterMap {α β : Type} {f : α → Option β} {xs : List α}
    (all : ∀ x ∈ xs, f x ≠ none) : (xs.filterMap f).length = xs.length := by
  induction xs with
  | nil => rfl
  | cons x xs ih =>
    rcases Option.ne_none_iff_exists'.mp (all x List.mem_cons_self) with ⟨y, found⟩
    rw [List.filterMap_cons_some found, List.length_cons, List.length_cons,
      ih fun other member => all other (List.mem_cons_of_mem x member)]

theorem Listed.length_entries (listed : Listed impl order) :
    (impl.entries order).length = impl.size := by
  rw [listed.size]
  exact length_filterMap fun ref member => (listed.live ref).mpr member

theorem Listed.has_of_size {other : Impl κ ν} {others : List Nat} (listed : Listed impl order)
    (otherListed : Listed other others) (sizes : impl.size = other.size)
    (all : ∀ entry, impl.Has entry → other.Has entry) (entry : κ × ν) (has : other.Has entry) :
    impl.Has entry := by
  have subset : impl.entries order ⊆ other.entries others := by
    intro found member
    exact (otherListed.mem_entries found).mpr (all found ((listed.mem_entries found).mp member))
  have perm := (List.subperm_of_subset listed.nodup_entries subset).perm_of_length_le
    (Nat.le_of_eq (by rw [listed.length_entries, otherListed.length_entries, sizes]))
  exact (listed.mem_entries entry).mp (perm.mem_iff.mpr ((otherListed.mem_entries entry).mpr has))

theorem entriesLoop_spec {rest : List Nat} {start : Option Nat} {turns : Nat}
    (chain : Chain impl.iterLink start rest) (enough : rest.length < turns) :
    impl.entriesLoop turns start = some (impl.entries rest) := by
  induction rest generalizing start turns with
  | nil =>
    cases turns with
    | zero => exact absurd enough (Nat.not_lt_zero _)
    | succ turns =>
      cases chain
      rfl
  | cons ref rest ih =>
    cases turns with
    | zero => exact absurd enough (Nat.not_lt_zero _)
    | succ turns =>
      cases chain with
      | @cons _ next _ link chain =>
        rcases Option.map_eq_some_iff.mp link with ⟨node, there, rfl⟩
        rw [entriesLoop, there, Option.bind_eq_bind, Option.bind_some,
          ih chain (Nat.lt_of_succ_lt_succ enough)]
        have head : impl.entries (ref :: rest) = (node.key, node.val) :: impl.entries rest :=
          List.filterMap_cons_some (entry_of_node there)
        rw [head]
        rfl

variable [DecidableEq κ] [DecidableEq ν]

theorem equalsLoop_spec {other : Impl κ ν} {others : List Nat} (otherLinked : Linked hash other others)
    {rest : List Nat} {start : Option Nat} {turns : Nat} (chain : Chain impl.iterLink start rest)
    (enough : rest.length < turns) :
    ∃ same, equalsLoop hash impl other turns start = some same ∧
      (same = true ↔ ∀ ref ∈ rest, ∀ entry ∈ impl.entry ref, other.Has entry) := by
  induction rest generalizing start turns with
  | nil =>
    cases turns with
    | zero => exact absurd enough (Nat.not_lt_zero _)
    | succ turns =>
      cases chain
      exact ⟨true, rfl, fun _ _ member => absurd member List.not_mem_nil, fun _ => rfl⟩
  | cons ref rest ih =>
    cases turns with
    | zero => exact absurd enough (Nat.not_lt_zero _)
    | succ turns =>
      cases chain with
      | @cons _ next _ link chain =>
        rcases Option.map_eq_some_iff.mp link with ⟨node, there, rfl⟩
        rcases otherLinked.find node.key with ⟨found, idx, looked, -, hit, miss⟩
        have entry := entry_of_node there
        rw [equalsLoop, there]
        dsimp only [Option.bind_eq_bind, Option.bind_some]
        rw [looked]
        dsimp only [Option.bind_some]
        cases found with
        | none =>
          refine ⟨false, rfl, fun no => absurd no Bool.false_ne_true, ?_⟩
          intro all
          rcases all ref List.mem_cons_self _ entry with ⟨far, has⟩
          exact absurd rfl (miss rfl far _ has)
        | some far =>
          rcases hit far rfl with ⟨val, has⟩
          rcases node_of_entry has with ⟨otherNode, otherThere, keyIs, valIs⟩
          dsimp only
          rw [otherThere, Option.bind_some]
          split_ifs with agree
          · rcases ih chain (Nat.lt_of_succ_lt_succ enough) with ⟨same, looped, iff⟩
            refine ⟨same, looped, iff.trans ?_⟩
            constructor
            · intro all tested member first found
              rcases List.mem_cons.mp member with rfl | later
              · rw [entry] at found
                cases found
                exact ⟨far, by rw [has, agree.2, valIs]⟩
              · exact all tested later first found
            · intro all tested member
              exact all tested (List.mem_cons_of_mem ref member)
          · refine ⟨false, rfl, fun no => absurd no Bool.false_ne_true, ?_⟩
            intro all
            rcases all ref List.mem_cons_self _ entry with ⟨place, again⟩
            have twice := otherLinked.listed.keys place far _ _ again has rfl
            rw [twice, has] at again
            cases again
            exact absurd ⟨keyIs.symm, valIs.symm⟩ agree

end Values

end Db8.Core.MojHashBase.Impl
