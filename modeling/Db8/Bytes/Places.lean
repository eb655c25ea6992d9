import Db8.Bytes.SortedMap
import Mathlib.Order.WithBot

/-!
# Cursors over a sorted map that changes under them

A place is in front of all keys, at a key, or behind them all. A direction is a truth value, true for
the ascending one, and every fact is stated once for both. A cursor stands at a place and keeps it
while entries come and go, so it may stand at a key that the map has no longer.
-/

set_option autoImplicit false

namespace Db8.Bytes

inductive Place (κ : Type*)
  | start
  | on (key : κ)
  | stop

namespace Place

variable {κ : Type*}

def rank : Place κ → WithBot (WithTop κ)
  | .start => ⊥
  | .on key => ((key : WithTop κ) : WithBot (WithTop κ))
  | .stop => ((⊤ : WithTop κ) : WithBot (WithTop κ))

theorem rank_injective : Function.Injective (rank : Place κ → WithBot (WithTop κ)) := by
  intro left right same
  cases left with
  | start => cases right <;> first | rfl | exact absurd same WithBot.bot_ne_coe
  | on left => cases right <;> simp_all [rank]
  | stop => cases right <;> first | rfl | exact absurd same WithBot.coe_ne_bot | simp_all [rank]

def key? : Place κ → Option κ
  | .on key => some key
  | _ => none

def tail (fwd : Bool) : Place κ := if fwd then .stop else .start

def head (fwd : Bool) : Place κ := tail !fwd

@[simp] theorem key?_tail (fwd : Bool) : (tail fwd : Place κ).key? = none := by cases fwd <;> rfl

variable (fwd : Bool)

theorem on_ne_tail (key : κ) : Place.on key ≠ tail fwd := by
  cases fwd <;> simp [tail]

theorem on_ne_head (key : κ) : Place.on key ≠ head fwd := on_ne_tail (!fwd) key

theorem tail_ne_head : (tail fwd : Place κ) ≠ head fwd := by
  cases fwd <;> simp [tail, head]

@[simp] theorem head_not (fwd : Bool) : (head !fwd : Place κ) = tail fwd := by
  rw [head, Bool.not_not]

@[simp] theorem tail_not (fwd : Bool) : (tail !fwd : Place κ) = head fwd := rfl

theorem exists_key {fwd : Bool} {place : Place κ} (begun : place ≠ head fwd)
    (going : place ≠ tail fwd) : ∃ key, place = .on key := by
  cases place with
  | on key => exact ⟨key, rfl⟩
  | start => cases fwd <;> simp_all [head, tail]
  | stop => cases fwd <;> simp_all [head, tail]

variable [LinearOrder κ]

instance : LinearOrder (Place κ) := LinearOrder.lift' rank rank_injective

theorem le_def (left right : Place κ) : left ≤ right ↔ left.rank ≤ right.rank := Iff.rfl

@[simp] theorem on_le_on (left right : κ) : Place.on left ≤ .on right ↔ left ≤ right := by
  simp [le_def, rank]

@[simp] theorem on_lt_on (left right : κ) : Place.on left < .on right ↔ left < right := by
  rw [← not_le, on_le_on, not_le]

@[simp] theorem start_le (place : Place κ) : .start ≤ place := by
  simp [le_def, rank]

@[simp] theorem le_stop (place : Place κ) : place ≤ .stop := by
  cases place <;> simp [le_def, rank]

def Upto : Bool → Place κ → Place κ → Prop
  | true, left, right => left ≤ right
  | false, left, right => right ≤ left

def Past : Bool → Place κ → Place κ → Prop
  | true, left, right => left < right
  | false, left, right => right < left

instance : (fwd : Bool) → (left right : Place κ) → Decidable (Upto fwd left right)
  | true, left, right => inferInstanceAs (Decidable (left ≤ right))
  | false, left, right => inferInstanceAs (Decidable (right ≤ left))

instance : (fwd : Bool) → (left right : Place κ) → Decidable (Past fwd left right)
  | true, left, right => inferInstanceAs (Decidable (left < right))
  | false, left, right => inferInstanceAs (Decidable (right < left))

section Directed

variable {fwd : Bool} {first second third : Place κ}

@[simp] theorem upto_refl (fwd : Bool) (place : Place κ) : Upto fwd place place := by
  cases fwd <;> exact le_refl place

theorem Upto.trans (near : Upto fwd first second) (far : Upto fwd second third) :
    Upto fwd first third := by
  cases fwd
  · exact le_trans far near
  · exact le_trans near far

theorem Upto.past (near : Upto fwd first second) (far : Past fwd second third) :
    Past fwd first third := by
  cases fwd
  · exact lt_of_lt_of_le far near
  · exact lt_of_le_of_lt near far

theorem Past.of_upto (near : Past fwd first second) (far : Upto fwd second third) :
    Past fwd first third := by
  cases fwd
  · exact lt_of_le_of_lt far near
  · exact lt_of_lt_of_le near far

theorem Past.upto (near : Past fwd first second) : Upto fwd first second := by
  cases fwd <;> exact le_of_lt near

theorem not_past : ¬ Past fwd first second ↔ Upto fwd second first := by
  cases fwd <;> exact not_lt

theorem not_upto : ¬ Upto fwd first second ↔ Past fwd second first := by
  cases fwd <;> exact not_le

theorem not_past_self (fwd : Bool) (place : Place κ) : ¬ Past fwd place place :=
  not_past.mpr (upto_refl fwd place)

theorem Past.ne (near : Past fwd first second) : first ≠ second := by
  rintro rfl
  exact not_past_self fwd first near

theorem Upto.antisymm (near : Upto fwd first second) (far : Upto fwd second first) :
    first = second := by
  cases fwd
  · exact le_antisymm far near
  · exact le_antisymm near far

theorem Upto.past_of_ne (near : Upto fwd first second) (other : first ≠ second) :
    Past fwd first second :=
  not_upto.mp fun far => other (near.antisymm far)

theorem upto_not : Upto (!fwd) first second ↔ Upto fwd second first := by
  cases fwd <;> exact Iff.rfl

theorem past_not : Past (!fwd) first second ↔ Past fwd second first := by
  cases fwd <;> exact Iff.rfl

theorem upto_tail (fwd : Bool) (place : Place κ) : Upto fwd place (tail fwd) := by
  cases fwd
  · exact start_le place
  · exact le_stop place

theorem eq_tail_of_upto {place : Place κ} (reached : Upto fwd (tail fwd) place) : place = tail fwd :=
  (upto_tail fwd place).antisymm reached

theorem head_upto (fwd : Bool) (place : Place κ) : Upto fwd (head fwd) place :=
  upto_not.mp (upto_tail (!fwd) place)

theorem head_past (place : Place κ) (begun : place ≠ head fwd) : Past fwd (head fwd) place :=
  (head_upto fwd place).past_of_ne (Ne.symm begun)

theorem not_tail_past (fwd : Bool) (place : Place κ) : ¬ Past fwd (tail fwd) place :=
  not_past.mpr (upto_tail fwd place)

theorem past_or_upto (fwd : Bool) (left right : Place κ) :
    Past fwd left right ∨ Upto fwd right left := by
  rw [← not_past]
  exact em _

end Directed

structure Nearest (fwd : Bool) (among : κ → Prop) (place : Place κ) : Prop where
  stands : ∀ key, place = .on key → among key
  reached : place ≠ head fwd
  least : ∀ key, among key → Upto fwd place (.on key)

namespace Nearest

variable {fwd : Bool} {among fewer : κ → Prop} {place other : Place κ}

theorem upto (nearest : Nearest fwd among place) (beyond : Nearest fwd among other) :
    Upto fwd place other := by
  by_cases ended : other = tail fwd
  · rw [ended]
    exact upto_tail fwd place
  · rcases exists_key beyond.reached ended with ⟨key, rfl⟩
    exact nearest.least key (beyond.stands key rfl)

theorem unique (nearest : Nearest fwd among place) (same : Nearest fwd among other) :
    place = other :=
  (nearest.upto same).antisymm (same.upto nearest)

theorem narrow (nearest : Nearest fwd among place) (within : ∀ key, fewer key → among key)
    (stays : ∀ key, place = .on key → fewer key) : Nearest fwd fewer place :=
  ⟨stays, nearest.reached, fun key member => nearest.least key (within key member)⟩

theorem of_iff (nearest : Nearest fwd among place) (same : ∀ key, fewer key ↔ among key) :
    Nearest fwd fewer place :=
  nearest.narrow (fun key => (same key).mp) fun key at_ => (same key).mpr (nearest.stands key at_)

end Nearest

def line (fwd : Bool) (keys : List κ) : List κ := if fwd then keys else keys.reverse

omit [LinearOrder κ] in
@[simp] theorem mem_line (fwd : Bool) (keys : List κ) (key : κ) : key ∈ line fwd keys ↔ key ∈ keys := by
  cases fwd <;> simp [line]

theorem line_sorted {keys : List κ} (sorted : keys.Pairwise (· < ·)) :
    (line fwd keys).Pairwise fun near far => Upto fwd (.on near) (.on far) := by
  cases fwd
  · apply List.pairwise_reverse.mpr
    exact sorted.imp fun below => (on_le_on _ _).mpr below.le
  · exact sorted.imp fun below => (on_le_on _ _).mpr below.le

def nearest (fwd : Bool) (keys : List κ) (passes : κ → Bool) : Place κ :=
  match (line fwd keys).find? passes with
  | some key => .on key
  | none => tail fwd

theorem nearest_spec {keys : List κ} (sorted : keys.Pairwise (· < ·)) (passes : κ → Bool) :
    Nearest fwd (fun key => key ∈ keys ∧ passes key = true) (nearest fwd keys passes) := by
  unfold nearest
  cases found : (line fwd keys).find? passes with
  | none =>
    have missing := List.find?_eq_none.mp found
    constructor
    · intro key same
      exact absurd same.symm (on_ne_tail fwd key)
    · exact tail_ne_head fwd
    · rintro key ⟨member, passing⟩
      exact absurd passing (missing key ((mem_line fwd keys key).mpr member))
  | some first =>
    rcases List.find?_eq_some_iff_append.mp found with ⟨passing, front, back, split, failing⟩
    have order := line_sorted fwd sorted
    rw [split] at order
    constructor
    · rintro key ⟨⟩
      exact ⟨(mem_line fwd keys first).mp (List.mem_of_find?_eq_some found), passing⟩
    · exact on_ne_head fwd first
    · rintro key ⟨member, holds⟩
      rw [← mem_line fwd, split] at member
      rcases List.mem_append.mp member with before | rest
      · exact absurd holds (by simpa using failing key before)
      · rcases List.mem_cons.mp rest with rfl | behind
        · exact upto_refl fwd _
        · exact (List.pairwise_cons.mp (List.pairwise_append.mp order).2.1).1 key behind

def advance (fwd : Bool) (keys : List κ) (place : Place κ) : Option (Place κ) :=
  if place = tail fwd then none
  else some (nearest fwd keys fun key => decide (Past fwd place (.on key)))

theorem advance_spec {fwd : Bool} {keys : List κ} (sorted : keys.Pairwise (· < ·))
    {place : Place κ} (going : place ≠ tail fwd) :
    ∃ next, advance fwd keys place = some next ∧
      Nearest fwd (fun key => key ∈ keys ∧ Past fwd place (.on key)) next := by
  refine ⟨_, if_neg going, ?_⟩
  simpa using nearest_spec fwd sorted fun key => decide (Past fwd place (.on key))

end Place

structure MapCursor (κ ν : Type*) [LinearOrder κ] where
  view : SortedMap κ ν
  pos : Place κ

namespace MapCursor

variable {κ ν : Type*} [LinearOrder κ]

def entry (cursor : MapCursor κ ν) : Option (κ × ν) :=
  cursor.pos.key?.bind fun key => (cursor.view.find key).map fun val => (key, val)

def front (fwd : Bool) (cursor : MapCursor κ ν) : MapCursor κ ν :=
  { cursor with pos := Place.nearest fwd cursor.view.keys fun _ => true }

def seek (bound : κ) (cursor : MapCursor κ ν) : MapCursor κ ν :=
  { cursor with pos := Place.nearest true cursor.view.keys fun key => decide (bound ≤ key) }

def move (fwd : Bool) (cursor : MapCursor κ ν) : Option (MapCursor κ ν) :=
  (Place.advance fwd cursor.view.keys cursor.pos).map fun pos => { cursor with pos := pos }

theorem move_spec (fwd : Bool) (cursor : MapCursor κ ν) (going : cursor.pos ≠ Place.tail fwd) :
    ∃ pos, cursor.move fwd = some ⟨cursor.view, pos⟩ ∧ Place.Nearest fwd
      (fun key => key ∈ cursor.view.keys ∧ Place.Past fwd cursor.pos (.on key)) pos := by
  rcases Place.advance_spec cursor.view.keys_sorted going with ⟨pos, advanced, nearest⟩
  refine ⟨pos, ?_, nearest⟩
  rw [move, advanced]
  rfl

/-- What is read from a cursor that goes in one direction as far as it can. -/
def walk (fwd : Bool) : Nat → MapCursor κ ν → List (κ × ν)
  | 0, _ => []
  | fuel + 1, cursor =>
    match cursor.entry with
    | none => []
    | some entry =>
      entry ::
        match cursor.move fwd with
        | none => []
        | some next => walk fwd fuel next

def placeOf (fwd : Bool) : List (κ × ν) → Place κ
  | [] => Place.tail fwd
  | entry :: _ => .on entry.1

theorem line_entries_sorted (fwd : Bool) (view : SortedMap κ ν) :
    (Place.line fwd view.entries).Pairwise fun near far =>
      Place.Past fwd (.on near.1) (.on far.1) := by
  have sorted := List.pairwise_map.mp view.sorted
  cases fwd
  · exact List.pairwise_reverse.mpr (sorted.imp fun below => (Place.on_lt_on _ _).mpr below)
  · exact sorted.imp fun below => (Place.on_lt_on _ _).mpr below

theorem nearest_placeOf {fwd : Bool} {view : SortedMap κ ν} {front rest : List (κ × ν)}
    (split : Place.line fwd view.entries = front ++ rest) {among : κ → Prop}
    (passed : ∀ entry ∈ front, ¬ among entry.1) (within : ∀ entry ∈ rest, among entry.1) :
    Place.Nearest fwd (fun key => key ∈ view.keys ∧ among key) (placeOf fwd rest) := by
  have sorted := line_entries_sorted fwd view
  rw [split] at sorted
  have member : ∀ key, key ∈ view.keys ↔ ∃ entry ∈ front ++ rest, entry.1 = key := by
    intro key
    rw [← split]
    simp [SortedMap.keys]
  constructor
  · intro key same
    cases rest with
    | nil => exact absurd same.symm (Place.on_ne_tail fwd key)
    | cons entry rest =>
      cases same
      exact ⟨(member _).mpr ⟨entry, by simp, rfl⟩, within entry List.mem_cons_self⟩
  · cases rest with
    | nil => exact Place.tail_ne_head fwd
    | cons entry rest => exact Place.on_ne_head fwd entry.1
  · rintro key ⟨stored, inside⟩
    rcases (member key).mp stored with ⟨entry, listed, rfl⟩
    rcases List.mem_append.mp listed with before | listed
    · exact absurd inside (passed entry before)
    · cases rest with
      | nil => cases listed
      | cons first rest =>
        rcases List.mem_cons.mp listed with rfl | behind
        · exact Place.upto_refl fwd _
        · have order := (List.pairwise_append.mp sorted).2.1
          exact ((List.pairwise_cons.mp order).1 entry behind).upto

/-- A cursor at the first of some last entries reads them all, one after another. -/
theorem walk_rest {fwd : Bool} (fuel : Nat) {cursor : MapCursor κ ν} {front rest : List (κ × ν)}
    (split : Place.line fwd cursor.view.entries = front ++ rest)
    (here : cursor.pos = placeOf fwd rest) (enough : rest.length ≤ fuel) :
    cursor.walk fwd fuel = rest := by
  induction fuel generalizing cursor front rest with
  | zero =>
    rw [List.length_eq_zero_iff.mp (Nat.le_zero.mp enough)]
    rfl
  | succ fuel ih =>
    cases rest with
    | nil =>
      have unread : cursor.entry = none := by
        rw [entry, here, placeOf, Place.key?_tail, Option.bind_none]
      rw [walk, unread]
    | cons first rest =>
      have listed : first ∈ cursor.view.entries := by
        rw [← Place.mem_line fwd, split]
        simp
      have read : cursor.entry = some first := by
        rw [entry, here, placeOf, Place.key?, Option.bind_some,
          (cursor.view.find_eq_some_iff first.1 first.2).mpr listed]
        rfl
      have order := line_entries_sorted fwd cursor.view
      rw [split, List.pairwise_append] at order
      rcases cursor.move_spec fwd (here ▸ Place.on_ne_tail fwd first.1) with
        ⟨pos, moved, nearest⟩
      have next : Place.Nearest fwd (fun key => key ∈ cursor.view.keys ∧
          Place.Past fwd cursor.pos (.on key)) (placeOf fwd rest) := by
        rw [here]
        apply nearest_placeOf (split.trans (List.append_cons front first rest))
        · intro entry before
          rw [placeOf, Place.not_past]
          rcases List.mem_append.mp before with before | same
          · exact (order.2.2 entry before first List.mem_cons_self).upto
          · rw [List.mem_singleton.mp same]
            exact Place.upto_refl fwd _
        · exact fun entry behind => (List.pairwise_cons.mp order.2.1).1 entry behind
      have goesOn : walk fwd fuel ⟨cursor.view, pos⟩ = rest :=
        ih (split.trans (List.append_cons front first rest)) (nearest.unique next)
          (Nat.le_of_succ_le_succ enough)
      rw [walk, read, moved]
      exact congrArg _ goesOn

theorem walk_front {fwd : Bool} {fuel : Nat} (cursor : MapCursor κ ν)
    (enough : cursor.view.entries.length ≤ fuel) :
    (cursor.front fwd).walk fwd fuel = Place.line fwd cursor.view.entries := by
  apply walk_rest fuel (List.nil_append _).symm
  · have first := Place.nearest_spec fwd cursor.view.keys_sorted fun _ => true
    exact first.unique (nearest_placeOf (List.nil_append _).symm (by simp) (by simp))
  · cases fwd <;> simpa [Place.line, front] using enough

def put (key : κ) (val : ν) (cursor : MapCursor κ ν) : MapCursor κ ν :=
  { cursor with view := cursor.view.put key val }

def del (key : κ) (cursor : MapCursor κ ν) : MapCursor κ ν :=
  { cursor with view := cursor.view.del key }

end MapCursor

end Db8.Bytes
