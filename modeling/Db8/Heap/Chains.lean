import Mathlib.Data.List.Nodup

/-!
# Chains of nodes

Linked nodes, each at its place in a memory and with the place of the next one. A chain from a place
on is the list of the places that are met; there is at most one, and it meets none twice. Where each
node also knows what leads to it, it can be taken out without going through the chain.
-/

set_option autoImplicit false

namespace Db8.Heap

inductive Chain (link : Nat → Option (Option Nat)) : Option Nat → List Nat → Prop
  | nil : Chain link none []
  | cons {ref : Nat} {next : Option Nat} {rest : List Nat} (linked : link ref = some next)
      (chain : Chain link next rest) : Chain link (some ref) (ref :: rest)

namespace Chain

variable {link other : Nat → Option (Option Nat)} {start : Option Nat} {refs : List Nat}

theorem congr (chain : Chain link start refs) (same : ∀ ref ∈ refs, other ref = link ref) :
    Chain other start refs := by
  induction chain with
  | nil => exact .nil
  | @cons ref next rest linked _ ih =>
    exact .cons ((same ref List.mem_cons_self).trans linked)
      (ih fun further member => same further (List.mem_cons_of_mem ref member))

theorem start_eq (chain : Chain link start refs) : start = refs.head? := by
  cases chain <;> rfl

theorem unique {others : List Nat} (one : Chain link start refs) (two : Chain link start others) :
    refs = others := by
  induction one generalizing others with
  | nil =>
    cases two
    rfl
  | cons linked _ ih =>
    cases two with
    | cons again rest =>
      rw [linked] at again
      cases again
      rw [ih rest]

theorem suffix (chain : Chain link start refs) {ref : Nat} (member : ref ∈ refs) :
    ∃ front back, refs = front ++ ref :: back ∧ Chain link (some ref) (ref :: back) := by
  induction chain with
  | nil => cases member
  | @cons first next rest linked chain ih =>
    rcases List.mem_cons.mp member with rfl | later
    · exact ⟨[], rest, rfl, .cons linked chain⟩
    · rcases ih later with ⟨front, back, rfl, found⟩
      exact ⟨first :: front, back, rfl, found⟩

theorem after {front back : List Nat} {ref : Nat} (chain : Chain link start (front ++ ref :: back)) :
    ∃ next, link ref = some next ∧ Chain link next back := by
  induction front generalizing start with
  | nil =>
    cases chain with
    | cons linked chain => exact ⟨_, linked, chain⟩
  | cons first front ih =>
    cases chain with
    | cons _ chain => exact ih chain

theorem nodup (chain : Chain link start refs) : refs.Nodup := by
  induction chain with
  | nil => exact List.nodup_nil
  | @cons ref next rest linked chain ih =>
    refine List.nodup_cons.mpr ⟨?_, ih⟩
    intro again
    rcases chain.suffix again with ⟨front, back, same, found⟩
    have twice := found.unique (.cons linked chain)
    have lengths := congrArg List.length same
    rw [← List.cons.inj twice |>.2, List.length_append, List.length_cons] at lengths
    omega

end Chain

/-- What leads to a node: the begin of the chain, or the link of another node. -/
inductive Place where
  | begin
  | after (ref : Nat)
deriving DecidableEq

def Backed (back : Nat → Option (Option Place)) : Place → List Nat → Prop
  | _, [] => True
  | place, ref :: rest => back ref = some (some place) ∧ Backed back (.after ref) rest

def Place.past (place : Place) (front : List Nat) : Place :=
  front.getLast?.elim place Place.after

theorem Place.past_cons (place : Place) (ref : Nat) (front : List Nat) :
    place.past (ref :: front) = (Place.after ref).past front := by
  unfold Place.past
  cases front with
  | nil => rfl
  | cons next front => rw [List.getLast?_cons_cons]; rw [List.getLast?_eq_some_getLast (List.cons_ne_nil next front)]; rfl

theorem Place.past_begin {front : List Nat} : Place.begin.past front = .begin ↔ front = [] := by
  unfold Place.past
  rcases last : front.getLast? with _ | ref
  · exact ⟨fun _ => List.getLast?_eq_none_iff.mp last, fun _ => rfl⟩
  · constructor
    · intro impossible
      cases impossible
    · rintro rfl
      cases last

theorem Place.past_after {front : List Nat} {ref : Nat} (past : Place.begin.past front = .after ref) :
    front.getLast? = some ref := by
  unfold Place.past at past
  rcases last : front.getLast? with _ | other
  · rw [last] at past
    cases past
  · rw [last] at past
    cases past
    rfl

namespace Backed

variable {back other : Nat → Option (Option Place)} {place : Place}

theorem congr {refs : List Nat} (backed : Backed back place refs)
    (same : ∀ ref ∈ refs, other ref = back ref) : Backed other place refs := by
  induction refs generalizing place with
  | nil => trivial
  | cons ref rest ih =>
    exact ⟨(same ref List.mem_cons_self).trans backed.1,
      ih backed.2 fun further member => same further (List.mem_cons_of_mem ref member)⟩

theorem at_ref {front rest : List Nat} {ref : Nat} (backed : Backed back place (front ++ ref :: rest)) :
    back ref = some (some (place.past front)) := by
  induction front generalizing place with
  | nil => exact backed.1
  | cons first front ih =>
    rw [Place.past_cons]
    exact ih backed.2

theorem remove {front rest : List Nat} {ref : Nat} (backed : Backed back place (front ++ ref :: rest))
    (next : ∀ after ∈ rest.head?, other after = some (some (place.past front)))
    (same : ∀ far ∈ front ++ rest.tail, other far = back far) :
    Backed other place (front ++ rest) := by
  induction front generalizing place with
  | nil =>
    cases rest with
    | nil => trivial
    | cons after rest => exact ⟨next after rfl, backed.2.2.congr same⟩
  | cons first front ih =>
    rw [Place.past_cons] at next
    exact ⟨(same first List.mem_cons_self).trans backed.1,
      ih backed.2 next fun far member => same far (List.mem_cons_of_mem first member)⟩

end Backed

theorem Chain.remove {link other : Nat → Option (Option Nat)} {start next : Option Nat}
    {front rest : List Nat} {ref : Nat} (chain : Chain link start (front ++ ref :: rest))
    (linked : link ref = some next)
    (skips : ∀ before, Place.begin.past front = .after before → other before = some next)
    (same : ∀ far ∈ front.dropLast ++ rest, other far = link far) :
    Chain other (if front = [] then next else start) (front ++ rest) := by
  induction front generalizing start with
  | nil =>
    cases chain with
    | cons again chain =>
      rw [linked] at again
      cases again
      exact chain.congr same
  | cons first front ih =>
    rw [if_neg (List.cons_ne_nil first front)]
    cases chain with
    | @cons _ following _ found chain =>
      rw [Place.past_cons] at skips
      cases front with
      | nil =>
        have rest := ih chain (fun before impossible => by cases impossible) same
        rw [if_pos rfl] at rest
        exact .cons (skips first rfl) rest
      | cons second front =>
        have further := ih chain (by rw [Place.past_cons] at skips ⊢; exact skips)
          (fun far member => same far (List.mem_cons_of_mem first member))
        rw [if_neg (List.cons_ne_nil second front)] at further
        exact .cons ((same first List.mem_cons_self).trans found) further

end Db8.Heap
