import Db8.Bytes.SortedSet
import Db8.Core.Object

/-!
# Index keys

Keys, key ranges and the key builder of `MojDbKey.cpp`. The builder walks its stack of value sets
with one iterator for each property; the walk is kept step by step, and shown to produce exactly
the concatenations of one value from every set.
-/

set_option autoImplicit false

namespace Db8.Db

open Db8.Bytes
open Db8.Core

abbrev MojDbKey := ByteString

abbrev KeySet := SortedSet MojDbKey

/-- The sort keys of a text collator are NUL-terminated, so their bodies are strings themselves. -/
structure MojDbTextCollator where
  sortKey : MojString → MojString

namespace MojDbKey

/-- The object whose bytes a value is stored under: strings are replaced by their sort key. -/
def collated (coll : Option MojDbTextCollator) (obj : MojObject) : MojObject :=
  match coll, obj with
  | some coll, .string text => .string (coll.sortKey text)
  | _, obj => obj

def assign (obj : MojObject) (coll : Option MojDbTextCollator) : MojDbKey :=
  MojObjectWriter.value (collated coll obj)

def increment (key : MojDbKey) : MojDbKey := successor key

/-- Comparison up to the string terminator of `key`. -/
def stringPrefixOf (key other : MojDbKey) : Prop :=
  key.length ≤ other.length ∧ key.dropLast <+: other

instance (key other : MojDbKey) : Decidable (stringPrefixOf key other) :=
  inferInstanceAs (Decidable (_ ∧ _))

theorem assign_mem_codes (obj : MojObject) (coll : Option MojDbTextCollator) :
    assign obj coll ∈ MojObjectWriter.codes :=
  ⟨collated coll obj, rfl⟩

end MojDbKey

structure MojDbKeyRange where
  lowerKey : MojDbKey
  upperKey : MojDbKey
  group : Nat
deriving DecidableEq

namespace MojDbKeyRange

def contains (range : MojDbKeyRange) (key : MojDbKey) : Prop :=
  (range.lowerKey = [] ∨ range.lowerKey ≤ key) ∧ Below key range.upperKey

instance (range : MojDbKeyRange) (key : MojDbKey) : Decidable (range.contains key) :=
  inferInstanceAs (Decidable (_ ∧ _))

def containsRange (outer inner : MojDbKeyRange) : Prop :=
  outer.contains inner.lowerKey ∧ (outer.upperKey = [] ∨ inner.upperKey ≤ outer.upperKey)

instance (outer inner : MojDbKeyRange) : Decidable (outer.containsRange inner) :=
  inferInstanceAs (Decidable (_ ∧ _))

/-- The empty key is the least one, so an open lower bound needs no case of its own. -/
theorem contains_iff (range : MojDbKeyRange) (key : MojDbKey) :
    range.contains key ↔ range.lowerKey ≤ key ∧ Below key range.upperKey := by
  unfold contains
  constructor
  · rintro ⟨open_ | above, below⟩
    · rw [open_]
      exact ⟨not_lt.mp (List.not_lt_nil key), below⟩
    · exact ⟨above, below⟩
  · rintro ⟨above, below⟩
    exact ⟨Or.inr above, below⟩

end MojDbKeyRange

namespace MojDbKeyBuilder

structure PropRec where
  vals : KeySet
  /-- What the iterator has left to visit. -/
  iter : List MojDbKey

def PropRec.reset (rec : PropRec) : PropRec := { rec with iter := rec.vals.elems }

def PropRec.ofVals (vals : KeySet) : PropRec := ⟨vals, vals.elems⟩

/-- The loop of `keys`: the records before `pos` (nearest first), at it and after it. -/
structure Walk where
  before : List PropRec
  pos : PropRec
  after : List PropRec
  keysOut : KeySet

def currentKey (before : List PropRec) : MojDbKey :=
  (before.reverse.map (fun rec => rec.iter.headD [])).flatten

def step (walk : Walk) : Option Walk :=
  match walk.pos.iter with
  | [] =>
    match walk.before with
    | [] => none
    | up :: before =>
      some { walk with
        before := before
        pos := { up with iter := up.iter.tail }
        after := walk.pos.reset :: walk.after }
  | _ :: rest =>
    match walk.after with
    | [] =>
      some { walk with
        pos := { walk.pos with iter := rest }
        keysOut := walk.keysOut.put (currentKey (walk.pos :: walk.before)) }
    | down :: after =>
      some { walk with before := walk.pos :: walk.before, pos := down, after := after }

def loop : Nat → Walk → KeySet
  | 0, walk => walk.keysOut
  | fuel + 1, walk =>
    match step walk with
    | none => walk.keysOut
    | some next => loop fuel next

/-- Steps taken for one value of a record, given the records below it. -/
def cost : List PropRec → Nat
  | [] => 1
  | down :: after => down.vals.elems.length * cost after + 2

def keys (stack : List KeySet) : KeySet :=
  match stack.map PropRec.ofVals with
  | [] => SortedSet.empty
  | pos :: after => loop (pos.iter.length * cost after + 1) ⟨[], pos, after, SortedSet.empty⟩

def product : List KeySet → List MojDbKey
  | [] => [[]]
  | vals :: rest => vals.elems.flatMap fun val => (product rest).map (val ++ ·)

theorem mem_product_nil (key : MojDbKey) : key ∈ product [] ↔ key = [] := List.mem_singleton

theorem mem_product_cons (vals : KeySet) (rest : List KeySet) (key : MojDbKey) :
    key ∈ product (vals :: rest) ↔ ∃ val ∈ vals, ∃ tail ∈ product rest, key = val ++ tail := by
  simp only [product, List.mem_flatMap, List.mem_map, eq_comm]
  rfl

theorem mem_product_iff (stack : List KeySet) (key : MojDbKey) :
    key ∈ product stack ↔
      ∃ parts, List.Forall₂ (fun part vals => part ∈ vals) parts stack ∧ key = parts.flatten := by
  induction stack generalizing key with
  | nil => simp [mem_product_nil]
  | cons vals rest ih =>
    rw [mem_product_cons]
    constructor
    · rintro ⟨val, valIn, tail, tailIn, rfl⟩
      obtain ⟨parts, members, rfl⟩ := (ih tail).mp tailIn
      exact ⟨val :: parts, List.Forall₂.cons valIn members, rfl⟩
    · rintro ⟨parts, members, rfl⟩
      cases members with
      | @cons val _ parts _ valIn members =>
        exact ⟨val, valIn, parts.flatten, (ih _).mpr ⟨parts, members, rfl⟩, rfl⟩

/-- The values still to come at one record, combined with everything above and below it. -/
def pending (before : List PropRec) (iter : List MojDbKey) (after : List PropRec) :
    List MojDbKey :=
  iter.flatMap fun val =>
    (product (after.map PropRec.vals)).map (currentKey before ++ val ++ ·)

theorem currentKey_cons (before : List PropRec) (rec : PropRec) :
    currentKey (rec :: before) = currentKey before ++ rec.iter.headD [] := by
  simp [currentKey]

theorem pending_push (before : List PropRec) (pos down : PropRec) (after : List PropRec)
    (val : MojDbKey) (rest : List MojDbKey) (current : pos.iter = val :: rest) :
    pending before [val] (down :: after) =
      pending (pos :: before) down.vals.elems after := by
  simp [pending, currentKey_cons, current, product, List.map_flatMap,
    List.append_assoc, Function.comp_def]

theorem putAll_append (set : KeySet) (left right : List MojDbKey) :
    set.putAll (left ++ right) = (set.putAll left).putAll right := by
  simp [SortedSet.putAll]

/-- The walk after some turns of the loop, none of them the last. -/
def turns : Nat → Walk → Option Walk
  | 0, walk => some walk
  | count + 1, walk => (step walk).bind (turns count)

theorem turns_add (first second : Nat) (walk : Walk) :
    turns (first + second) walk = (turns first walk).bind (turns second) := by
  induction first generalizing walk with
  | zero => rw [Nat.zero_add, turns, Option.bind_some]
  | succ first ih =>
    rw [Nat.add_right_comm, turns, turns, Option.bind_assoc]
    exact congrArg (Option.bind (step walk)) (funext ih)

theorem loop_of_turns {count : Nat} {walk next : Walk} (turned : turns count walk = some next)
    (extra : Nat) : loop (count + extra) walk = loop extra next := by
  induction count generalizing walk with
  | zero =>
    cases turned
    rw [Nat.zero_add]
  | succ count ih =>
    rcases Option.bind_eq_some_iff.mp turned with ⟨middle, stepped, rest⟩
    rw [Nat.add_right_comm, loop, stepped]
    exact ih rest

/-- Running one record's iterator to its end puts exactly its pending keys. -/
theorem turns_exhaust (after : List PropRec) (fresh : ∀ rec ∈ after, rec.iter = rec.vals.elems)
    (before : List PropRec) (pos : PropRec) (keysOut : KeySet) :
    turns (pos.iter.length * cost after) ⟨before, pos, after, keysOut⟩ =
      some ⟨before, { pos with iter := [] }, after,
        keysOut.putAll (pending before pos.iter after)⟩ := by
  induction after generalizing before pos keysOut with
  | nil =>
    rcases pos with ⟨vals, iter⟩
    induction iter generalizing keysOut with
    | nil => simp [turns, pending, SortedSet.putAll]
    | cons val rest ih =>
      have emitted := ih (keysOut.put (currentKey before ++ val))
      simp only [cost, Nat.mul_one, List.length_cons] at emitted ⊢
      rw [turns]
      simp only [step, currentKey_cons, List.headD_cons, Option.bind_some]
      rw [emitted]
      simp [pending, SortedSet.putAll, product]
  | cons down after ih =>
    have downFresh : down.iter = down.vals.elems := fresh down List.mem_cons_self
    have afterFresh : ∀ rec ∈ after, rec.iter = rec.vals.elems := by
      intro rec member
      exact fresh rec (List.mem_cons_of_mem down member)
    have whole : down.reset = down := by rw [PropRec.reset, ← downFresh]
    rcases pos with ⟨vals, iter⟩
    induction iter generalizing keysOut with
    | nil => simp [turns, pending, SortedSet.putAll]
    | cons val rest ihIter =>
      have inner := ih afterFresh (⟨vals, val :: rest⟩ :: before) down keysOut
      have outer := ihIter (keysOut.putAll (pending before [val] (down :: after)))
      have total : (val :: rest).length * cost (down :: after) =
          (down.iter.length * cost after + (rest.length * cost (down :: after) + 1)) + 1 := by
        rw [downFresh, List.length_cons, Nat.succ_mul, cost]
        omega
      have resets : ({ down with iter := [] } : PropRec).reset = down := whole
      simp only at outer inner ⊢
      rw [total, turns]
      simp only [step, Option.bind_some]
      rw [turns_add, inner, Option.bind_some, turns]
      simp only [step, Option.bind_some, List.tail_cons]
      rw [resets, downFresh, ← pending_push before ⟨vals, val :: rest⟩ down after val rest rfl,
        outer, ← putAll_append]
      congr 3
      simp [pending]

theorem loop_exhausts (after : List PropRec) (fresh : ∀ rec ∈ after, rec.iter = rec.vals.elems)
    (before : List PropRec) (pos : PropRec) (keysOut : KeySet) (extra : Nat) :
    loop (pos.iter.length * cost after + extra) ⟨before, pos, after, keysOut⟩ =
      loop extra ⟨before, { pos with iter := [] }, after,
        keysOut.putAll (pending before pos.iter after)⟩ :=
  loop_of_turns (turns_exhaust after fresh before pos keysOut) extra

theorem mem_keys_iff (vals : KeySet) (rest : List KeySet) (key : MojDbKey) :
    key ∈ keys (vals :: rest) ↔ key ∈ product (vals :: rest) := by
  have fresh : ∀ rec ∈ rest.map PropRec.ofVals, rec.iter = rec.vals.elems := by
    intro rec member
    obtain ⟨other, _, rfl⟩ := List.mem_map.mp member
    rfl
  have run := loop_exhausts (rest.map PropRec.ofVals) fresh [] (PropRec.ofVals vals)
    SortedSet.empty 1
  have restVals : (rest.map PropRec.ofVals).map PropRec.vals = rest := by
    rw [List.map_map]
    exact List.map_id rest
  simp only [keys, List.map_cons]
  rw [run, loop]
  simp only [step, SortedSet.mem_putAll, SortedSet.not_mem_empty, or_false]
  rw [pending, restVals]
  simp [product, currentKey, PropRec.ofVals]

theorem keys_nil : keys [] = SortedSet.empty := rfl

end MojDbKeyBuilder

end Db8.Db
