import Db8.Core.PropMap
import Db8.Db.Revisions

/-!
# Ids of the objects within arrays

`MojDb::assignIds` walks the properties of an object, the elements of an array that stands in a
property, and the objects among both. The ids it puts come from the sequence, each once, and nothing
else changes. It does not walk an array that is itself an element of an array.
-/

set_option autoImplicit false

namespace Db8.Db.MojDb

open Db8.Bytes
open Db8.Core

section Relation

mutual

/-- A value with ids put into objects that are elements of its arrays and had none, the new ids
listed in the order of the places they are put at. -/
inductive Filled : MojObject → List MojString → MojObject → Prop
  | array {vals outs : List MojObject} {ids : List MojString} :
      FilledVals vals ids outs → Filled (.array vals) ids (.array outs)
  | object {props outs : List (MojString × MojObject)} {ids : List MojString} :
      FilledProps props ids outs → Filled (.object props) ids (.object outs)
  | same (val : MojObject) : Filled val [] val

inductive FilledProps :
    List (MojString × MojObject) → List MojString → List (MojString × MojObject) → Prop
  | nil : FilledProps [] [] []
  | cons {name : MojString} {val out : MojObject} {rest outs : List (MojString × MojObject)}
      {front back : List MojString} :
      Filled val front out → FilledProps rest back outs →
        FilledProps ((name, val) :: rest) (front ++ back) ((name, out) :: outs)

inductive FilledVals : List MojObject → List MojString → List MojObject → Prop
  | nil : FilledVals [] [] []
  | named {props outProps : List (MojString × MojObject)} {rest outs : List MojObject}
      {front back : List MojString} :
      (MojObject.find props idKey).isSome = true → FilledProps props front outProps →
        FilledVals rest back outs →
        FilledVals (.object props :: rest) (front ++ back) (.object outProps :: outs)
  | given {props outProps : List (MojString × MojObject)} {rest outs : List MojObject}
      {id : MojString} {front back : List MojString} :
      MojObject.find props idKey = none → FilledProps props front outProps →
        FilledVals rest back outs →
        FilledVals (.object props :: rest) (id :: front ++ back)
          (.object (MojObject.putProp idKey (.string id) outProps) :: outs)
  | other {val out : MojObject} {rest outs : List MojObject} {front back : List MojString} :
      (∀ props, val ≠ .object props) → Filled val front out → FilledVals rest back outs →
        FilledVals (val :: rest) (front ++ back) (out :: outs)

end

end Relation

section Conditions

mutual

/-- Every object that is an element of an array anywhere in the value has an id. -/
def numbered : MojObject → Bool
  | .array vals => numberedVals vals
  | .object props => numberedProps props
  | _ => true

def numberedProps : List (MojString × MojObject) → Bool
  | [] => true
  | (_, val) :: rest => numbered val && numberedProps rest

def numberedVals : List MojObject → Bool
  | [] => true
  | .object props :: rest =>
    (MojObject.find props idKey).isSome && numberedProps props && numberedVals rest
  | val :: rest => numbered val && numberedVals rest

end

mutual

/-- In every array that is an element of an array the objects have their ids already. -/
def nestedNumbered : MojObject → Bool
  | .array vals => nestedNumberedVals vals
  | .object props => nestedNumberedProps props
  | _ => true

def nestedNumberedProps : List (MojString × MojObject) → Bool
  | [] => true
  | (_, val) :: rest => nestedNumbered val && nestedNumberedProps rest

def nestedNumberedVals : List MojObject → Bool
  | [] => true
  | .array vals :: rest => numberedVals vals && nestedNumberedVals rest
  | val :: rest => nestedNumbered val && nestedNumberedVals rest

end

end Conditions

section Names

theorem idString_eq (id : Nat) :
    idString id = if id < 16 then chars [Nat.digitChar id]
      else idString (id / 16) ++ chars [Nat.digitChar (id % 16)] := by
  unfold idString
  rw [Nat.toDigits_eq_if (by decide)]
  split_ifs
  · rfl
  · exact List.filterMap_append

theorem chars_digit_length {digit : Nat} (small : digit < 16) :
    (chars [Nat.digitChar digit]).length = 1 := by
  have all : ∀ one : Fin 16, (chars [Nat.digitChar one.val]).length = 1 := by decide
  exact all ⟨digit, small⟩

theorem chars_digit_injective {left right : Nat} (leftSmall : left < 16) (rightSmall : right < 16)
    (same : chars [Nat.digitChar left] = chars [Nat.digitChar right]) : left = right := by
  have all : ∀ one other : Fin 16,
      chars [Nat.digitChar one.val] = chars [Nat.digitChar other.val] → one = other := by
    decide
  exact congrArg Fin.val (all ⟨left, leftSmall⟩ ⟨right, rightSmall⟩ same)

theorem idString_length_pos (id : Nat) : 0 < (idString id).length := by
  rw [idString_eq]
  split_ifs with small
  · rw [chars_digit_length small]
    exact Nat.one_pos
  · rw [List.length_append, chars_digit_length (Nat.mod_lt id (by decide))]
    exact Nat.succ_pos _

theorem idString_injective : Function.Injective idString := by
  intro left
  induction left using Nat.strong_induction_on with
  | _ left ih =>
    intro right same
    have leftLast := chars_digit_length (Nat.mod_lt left (by decide : 0 < 16))
    have rightLast := chars_digit_length (Nat.mod_lt right (by decide : 0 < 16))
    rw [idString_eq left, idString_eq right] at same
    split_ifs at same with leftSmall rightSmall rightSmall
    · exact chars_digit_injective leftSmall rightSmall same
    · have lengths := congrArg List.length same
      have more := idString_length_pos (right / 16)
      rw [List.length_append, chars_digit_length leftSmall, rightLast] at lengths
      omega
    · have lengths := congrArg List.length same
      have more := idString_length_pos (left / 16)
      rw [List.length_append, chars_digit_length rightSmall, leftLast] at lengths
      omega
    · rcases List.append_inj' same (leftLast.trans rightLast.symm) with ⟨fronts, lasts⟩
      have quotients := ih (left / 16) (by omega) fronts
      have digits := chars_digit_injective (Nat.mod_lt left (by decide))
        (Nat.mod_lt right (by decide)) lasts
      omega

end Names

section Hands

structure Hands (ids : Ids) (new : List Nat) (after : Ids) : Prop where
  handed : after.handed = ids.handed ++ new
  rising : new.Pairwise (· < ·)
  above : ∀ earlier ∈ ids.handed, ∀ val ∈ new, earlier < val
  fresh : Fresh after

theorem Hands.none {ids : Ids} (fresh : Fresh ids) : Hands ids [] ids where
  handed := (List.append_nil ids.handed).symm
  rising := List.Pairwise.nil
  above _ _ _ member := absurd member List.not_mem_nil
  fresh := fresh

theorem Hands.trans {ids middle after : Ids} {front back : List Nat}
    (first : Hands ids front middle) (second : Hands middle back after) :
    Hands ids (front ++ back) after where
  handed := by rw [second.handed, first.handed, List.append_assoc]
  rising := by
    refine List.pairwise_append.mpr ⟨first.rising, second.rising, ?_⟩
    intro one oneIn
    apply second.above one
    rw [first.handed]
    exact List.mem_append_right ids.handed oneIn
  above := by
    intro earlier early val member
    rcases List.mem_append.mp member with inFront | inBack
    · exact first.above earlier early val inFront
    · apply second.above earlier _ val inBack
      rw [first.handed]
      exact List.mem_append_left front early
  fresh := second.fresh

theorem nextId_hands {ids after : Ids} {val : Nat} (fresh : Fresh ids)
    (taken : nextId ids = .ok val after) : Hands ids [val] after := by
  have above := nextId_ok fresh taken
  refine ⟨?_, List.pairwise_singleton _ _, ?_, above.2.2.1⟩
  · unfold nextId at taken
    cases open_ : ids.world.seq with
    | none => simp [open_] at taken
    | some seq =>
      simp only [open_] at taken
      cases got : (DbEngine.MojDbStorageSeq.get seq ids.world.stored (ids.failures.head?.getD .none)).2 with
      | error err => simp [got] at taken
      | ok next =>
        simp only [got, EStateM.Result.ok.injEq] at taken
        rcases taken with ⟨rfl, rfl⟩
        rfl
  · intro earlier early other member
    rw [List.mem_singleton.mp member]
    exact above.1 earlier early

end Hands

section Filling

theorem assignElement_eq (props : List (MojString × MojObject)) :
    assignElement props =
      if (MojObject.find props idKey).isSome then assignProps props
      else do
        let id ← nextId
        let props ← assignProps props
        return MojObject.putProp idKey (.string (idString id)) props := by
  cases props with
  | nil =>
    rw [assignElement, assignProps, if_neg (by simp)]
    simp only [pure_bind]
  | cons head rest =>
    rcases head with ⟨name, val⟩
    rw [assignElement]
    split_ifs
    · rw [assignProps]
    · rw [assignProps]
      simp only [bind_assoc, pure_bind]

theorem assignProps_names (props : List (MojString × MojObject)) {ids after : Ids}
    {outs : List (MojString × MojObject)} (ran : assignProps props ids = .ok outs after)
    (key : MojString) : (MojObject.find outs key).isSome = (MojObject.find props key).isSome := by
  induction props generalizing ids outs with
  | nil =>
    rw [assignProps] at ran
    cases ran
    rfl
  | cons head rest ih =>
    rcases head with ⟨name, val⟩
    rw [assignProps] at ran
    rcases taking_bind_ok ran with ⟨out, middle, first, ran⟩
    rcases taking_bind_ok ran with ⟨others, late, last, ran⟩
    cases ran
    rw [MojObject.find_cons, MojObject.find_cons]
    split_ifs
    · rfl
    · exact ih last

mutual

theorem assignVal_filled (val : MojObject) {ids after : Ids} {out : MojObject} (fresh : Fresh ids)
    (ran : assignVal val ids = .ok out after) :
    ∃ new, Hands ids new after ∧ Filled val (new.map idString) out := by
  cases val with
  | array vals =>
    rw [assignVal] at ran
    rcases taking_bind_ok ran with ⟨outs, middle, first, ran⟩
    cases ran
    rcases assignVals_filled vals fresh first with ⟨new, hands, filled⟩
    exact ⟨new, hands, .array filled⟩
  | object props =>
    rw [assignVal] at ran
    rcases taking_bind_ok ran with ⟨outs, middle, first, ran⟩
    cases ran
    rcases assignProps_filled props fresh first with ⟨new, hands, filled⟩
    exact ⟨new, hands, .object filled⟩
  | _ =>
    rw [assignVal] at ran
    cases ran
    exact ⟨[], Hands.none fresh, .same _⟩

theorem assignProps_filled (props : List (MojString × MojObject)) {ids after : Ids}
    {outs : List (MojString × MojObject)} (fresh : Fresh ids)
    (ran : assignProps props ids = .ok outs after) :
    ∃ new, Hands ids new after ∧ FilledProps props (new.map idString) outs := by
  cases props with
  | nil =>
    rw [assignProps] at ran
    cases ran
    exact ⟨[], Hands.none fresh, .nil⟩
  | cons head rest =>
    rcases head with ⟨name, val⟩
    rw [assignProps] at ran
    rcases taking_bind_ok ran with ⟨out, middle, first, ran⟩
    rcases taking_bind_ok ran with ⟨others, late, last, ran⟩
    cases ran
    rcases assignVal_filled val fresh first with ⟨front, frontHands, frontFilled⟩
    rcases assignProps_filled rest frontHands.fresh last with ⟨back, backHands, backFilled⟩
    refine ⟨front ++ back, frontHands.trans backHands, ?_⟩
    rw [List.map_append]
    exact .cons frontFilled backFilled

theorem assignVals_filled (vals : List MojObject) {ids after : Ids} {outs : List MojObject}
    (fresh : Fresh ids) (ran : assignVals vals ids = .ok outs after) :
    ∃ new, Hands ids new after ∧ FilledVals vals (new.map idString) outs := by
  cases vals with
  | nil =>
    rw [assignVals] at ran
    cases ran
    exact ⟨[], Hands.none fresh, .nil⟩
  | cons val rest =>
    cases val with
    | object props =>
      rw [assignVals] at ran
      rcases taking_bind_ok ran with ⟨outProps, middle, first, ran⟩
      rcases taking_bind_ok ran with ⟨others, late, last, ran⟩
      cases ran
      rw [assignElement_eq] at first
      split_ifs at first with named
      · rcases assignProps_filled props fresh first with ⟨front, frontHands, frontFilled⟩
        rcases assignVals_filled rest frontHands.fresh last with ⟨back, backHands, backFilled⟩
        refine ⟨front ++ back, frontHands.trans backHands, ?_⟩
        rw [List.map_append]
        exact .named named frontFilled backFilled
      · rcases taking_bind_ok first with ⟨id, taken, nextTaken, first⟩
        rcases taking_bind_ok first with ⟨walked, walkedIds, first, put⟩
        cases put
        have idHands := nextId_hands fresh nextTaken
        rcases assignProps_filled props idHands.fresh first with
          ⟨front, frontHands, frontFilled⟩
        have both := idHands.trans frontHands
        rcases assignVals_filled rest both.fresh last with ⟨back, backHands, backFilled⟩
        refine ⟨[id] ++ front ++ back, both.trans backHands, ?_⟩
        rw [List.map_append, List.map_append]
        exact .given (Option.not_isSome_iff_eq_none.mp named) frontFilled backFilled
    | _ =>
      rw [assignVals] at ran
      · rcases taking_bind_ok ran with ⟨others, late, last, ran⟩
        cases ran
        rcases assignVals_filled rest fresh last with ⟨back, backHands, backFilled⟩
        refine ⟨back, backHands, .other ?_ (.same _) backFilled⟩
        intro props impossible
        cases impossible
      · nofun

end

end Filling

section Numbering

theorem isSome_find_putProp (key : MojString) (val : MojObject)
    (props : List (MojString × MojObject)) :
    (MojObject.find (MojObject.putProp key val props) key).isSome = true := by
  rw [MojObject.find_putProp, if_pos rfl]
  rfl

theorem numberedProps_putProp {key id : MojString} {props : List (MojString × MojObject)}
    (absent : MojObject.find props key = none) :
    numberedProps (MojObject.putProp key (.string id) props) = numberedProps props := by
  induction props with
  | nil => rfl
  | cons head props ih =>
    rcases head with ⟨name, other⟩
    rw [MojObject.find_cons] at absent
    split_ifs at absent with same
    rw [MojObject.putProp, if_neg same]
    split_ifs
    · rw [numberedProps, numberedProps, ih absent]
    · rfl

theorem numberedVals_cons {val : MojObject} (plain : ∀ props, val ≠ .object props)
    (rest : List MojObject) : numberedVals (val :: rest) = (numbered val && numberedVals rest) := by
  cases val with
  | object props => exact absurd rfl (plain props)
  | _ => rfl

mutual

/-- A walked value has all its ids just if the arrays within arrays had theirs. -/
theorem numbered_assignVal (val : MojObject) {ids after : Ids} {out : MojObject}
    (ran : assignVal val ids = .ok out after) : numbered out = nestedNumbered val := by
  cases val with
  | array vals =>
    rw [assignVal] at ran
    rcases taking_bind_ok ran with ⟨outs, middle, first, ran⟩
    cases ran
    exact numberedVals_assignVals vals first
  | object props =>
    rw [assignVal] at ran
    rcases taking_bind_ok ran with ⟨outs, middle, first, ran⟩
    cases ran
    exact numberedProps_assignProps props first
  | _ =>
    rw [assignVal] at ran
    cases ran
    rfl

theorem numberedProps_assignProps (props : List (MojString × MojObject)) {ids after : Ids}
    {outs : List (MojString × MojObject)} (ran : assignProps props ids = .ok outs after) :
    numberedProps outs = nestedNumberedProps props := by
  cases props with
  | nil =>
    rw [assignProps] at ran
    cases ran
    rfl
  | cons head rest =>
    rcases head with ⟨name, val⟩
    rw [assignProps] at ran
    rcases taking_bind_ok ran with ⟨out, middle, first, ran⟩
    rcases taking_bind_ok ran with ⟨others, late, last, ran⟩
    cases ran
    rw [numberedProps, nestedNumberedProps, numbered_assignVal val first,
      numberedProps_assignProps rest last]

theorem numberedVals_assignVals (vals : List MojObject) {ids after : Ids} {outs : List MojObject}
    (ran : assignVals vals ids = .ok outs after) :
    numberedVals outs = nestedNumberedVals vals := by
  cases vals with
  | nil =>
    rw [assignVals] at ran
    cases ran
    rfl
  | cons val rest =>
    cases val with
    | object props =>
      rw [assignVals] at ran
      rcases taking_bind_ok ran with ⟨outProps, middle, first, ran⟩
      rcases taking_bind_ok ran with ⟨others, late, last, ran⟩
      cases ran
      have rests := numberedVals_assignVals rest last
      rw [assignElement_eq] at first
      split_ifs at first with named
      · have walked := numberedProps_assignProps props first
        have kept := (assignProps_names props first idKey).trans named
        rw [numberedVals, kept, walked, rests, Bool.true_and]
        rfl
      · rcases taking_bind_ok first with ⟨id, taken, nextTaken, first⟩
        rcases taking_bind_ok first with ⟨walkedProps, walkedIds, first, put⟩
        cases put
        have walked := numberedProps_assignProps props first
        have absent : MojObject.find walkedProps idKey = none := by
          rw [← Option.not_isSome_iff_eq_none, assignProps_names props first idKey]
          exact named
        rw [numberedVals, isSome_find_putProp, numberedProps_putProp absent, walked, rests,
          Bool.true_and]
        rfl
    | array inner =>
      rw [assignVals] at ran
      · rcases taking_bind_ok ran with ⟨others, late, last, ran⟩
        cases ran
        rw [numberedVals_cons (fun _ impossible => by cases impossible), numberedVals_assignVals rest last]
        rfl
      · nofun
    | _ =>
      rw [assignVals] at ran
      · rcases taking_bind_ok ran with ⟨others, late, last, ran⟩
        cases ran
        rw [numberedVals_cons (fun _ impossible => by cases impossible), numberedVals_assignVals rest last]
        rfl
      · nofun

end

end Numbering

section Again

/-- A walk over the value changes nothing and takes no value from the sequence. -/
def Settled (val : MojObject) : Prop := ∀ ids, assignVal val ids = .ok val ids

theorem settled_string (text : MojString) : Settled (.string text) := by
  intro ids
  rw [assignVal]
  rfl

theorem assignProps_settled {props : List (MojString × MojObject)}
    (each : ∀ prop ∈ props, Settled prop.2) (ids : Ids) :
    assignProps props ids = .ok props ids := by
  induction props with
  | nil =>
    rw [assignProps]
    rfl
  | cons head rest ih =>
    rcases head with ⟨name, val⟩
    have first : assignVal val ids = .ok val ids := each (name, val) List.mem_cons_self ids
    rw [assignProps, taking_bind, first]
    simp only []
    rw [taking_bind, ih (fun prop member => each prop (List.mem_cons_of_mem _ member))]
    rfl

def SettledVals (vals : List MojObject) : Prop := ∀ ids, assignVals vals ids = .ok vals ids

theorem SettledVals.named {props : List (MojString × MojObject)} {rest : List MojObject}
    (named : (MojObject.find props idKey).isSome = true) (each : ∀ prop ∈ props, Settled prop.2)
    (others : SettledVals rest) : SettledVals (.object props :: rest) := by
  intro ids
  rw [assignVals, taking_bind, assignElement_eq, if_pos named, assignProps_settled each]
  simp only []
  rw [taking_bind, others]
  rfl

theorem SettledVals.other {val : MojObject} {rest : List MojObject}
    (plain : ∀ props, val ≠ .object props) (others : SettledVals rest) :
    SettledVals (val :: rest) := by
  intro ids
  rw [assignVals]
  · rw [taking_bind, others]
    rfl
  · intro props same
    exact plain props same

mutual

theorem settled_assignVal (val : MojObject) {ids after : Ids} {out : MojObject}
    (ran : assignVal val ids = .ok out after) : Settled out := by
  cases val with
  | array vals =>
    rw [assignVal] at ran
    rcases taking_bind_ok ran with ⟨outs, middle, first, ran⟩
    cases ran
    intro others
    rw [assignVal, taking_bind, settled_assignVals vals first]
    rfl
  | object props =>
    rw [assignVal] at ran
    rcases taking_bind_ok ran with ⟨outs, middle, first, ran⟩
    cases ran
    intro others
    rw [assignVal, taking_bind, assignProps_settled (settled_assignProps props first)]
    rfl
  | _ =>
    rw [assignVal] at ran
    cases ran
    intro others
    rw [assignVal]
    rfl

theorem settled_assignProps (props : List (MojString × MojObject)) {ids after : Ids}
    {outs : List (MojString × MojObject)} (ran : assignProps props ids = .ok outs after) :
    ∀ prop ∈ outs, Settled prop.2 := by
  cases props with
  | nil =>
    rw [assignProps] at ran
    cases ran
    exact fun _ member => absurd member List.not_mem_nil
  | cons head rest =>
    rcases head with ⟨name, val⟩
    rw [assignProps] at ran
    rcases taking_bind_ok ran with ⟨out, middle, first, ran⟩
    rcases taking_bind_ok ran with ⟨others, late, last, ran⟩
    cases ran
    intro prop member
    rcases List.mem_cons.mp member with rfl | member
    · exact settled_assignVal val first
    · exact settled_assignProps rest last prop member

theorem settled_assignVals (vals : List MojObject) {ids after : Ids} {outs : List MojObject}
    (ran : assignVals vals ids = .ok outs after) : SettledVals outs := by
  cases vals with
  | nil =>
    rw [assignVals] at ran
    cases ran
    intro others
    rw [assignVals]
    rfl
  | cons val rest =>
    cases val with
    | object props =>
      rw [assignVals] at ran
      rcases taking_bind_ok ran with ⟨outProps, middle, first, ran⟩
      rcases taking_bind_ok ran with ⟨others, late, last, ran⟩
      cases ran
      have rests := settled_assignVals rest last
      rw [assignElement_eq] at first
      split_ifs at first with named
      · apply SettledVals.named _ (settled_assignProps props first) rests
        exact (assignProps_names props first idKey).trans named
      · rcases taking_bind_ok first with ⟨id, taken, nextTaken, first⟩
        rcases taking_bind_ok first with ⟨walkedProps, walkedIds, first, put⟩
        cases put
        apply SettledVals.named (isSome_find_putProp _ _ _) _ rests
        intro prop member
        rcases MojObject.mem_putProp member with rfl | kept
        · exact settled_string _
        · exact settled_assignProps props first prop kept
    | _ =>
      rw [assignVals] at ran
      · rcases taking_bind_ok ran with ⟨others, late, last, ran⟩
        cases ran
        exact SettledVals.other (fun _ impossible => by cases impossible)
          (settled_assignVals rest last)
      · nofun

end

end Again

section Result

open Db8.DbEngine.MojDbStorageSeq

/-- What the sequence came to through some events, with all it handed out on the way. -/
def Ids.reached (stored : Option Nat) (events : List Event) (failures : List (Option MojErr)) : Ids :=
  ⟨(run ⟨none, stored⟩ events).1, failures, (run ⟨none, stored⟩ events).2⟩

theorem fresh_reached (stored : Option Nat) (events : List Event)
    (failures : List (Option MojErr)) : Fresh (Ids.reached stored events failures) := by
  rcases run_ahead (ahead_closed (Nat.zero_le (stored.getD 0))) events with
    ⟨next, -, ahead, -, between⟩
  exact ⟨next, ahead, fun val member => (between val member).2⟩

structure SubObjectLaw (obj out : MojObject) (before after : Ids) : Prop where
  everyElement : numbered out = true
  onlyIds : ∃ new, after.handed = before.handed ++ new ∧ Filled obj (new.map idString) out ∧
    ((before.handed ++ new).map idString).Nodup
  again : ∀ ids, assignIds out ids = .ok out ids

/-- Whatever the state of the sequence, an object is left with an id on every element that is an
object just if the arrays that are elements of arrays had their ids. -/
theorem assignIds_numbers_iff (props : List (MojString × MojObject)) (stored : Option Nat)
    (events : List Event) (failures : List (Option MojErr)) {out : MojObject} {after : Ids}
    (ran : assignIds (.object props) (Ids.reached stored events failures) = .ok out after) :
    SubObjectLaw (.object props) out (Ids.reached stored events failures) after ↔
      nestedNumbered (.object props) = true := by
  rcases taking_bind_ok ran with ⟨outs, middle, walked, done⟩
  cases done
  have same := numberedProps_assignProps props walked
  constructor
  · intro law
    exact same.symm.trans law.everyElement
  · intro nested
    rcases assignProps_filled props (fresh_reached stored events failures) walked with
      ⟨new, hands, filled⟩
    refine ⟨same.trans nested, ⟨new, hands.handed, .object filled, ?_⟩, ?_⟩
    · apply List.Nodup.map idString_injective
      apply List.Pairwise.imp ne_of_lt
      exact List.pairwise_append.mpr
        ⟨(values_unique stored events).1, hands.rising, hands.above⟩
    · intro ids
      rw [assignIds, taking_bind, assignProps_settled (settled_assignProps props walked)]
      rfl

/-- An array of an object without an id and one whose own id and nested array are there. -/
def listed : List (MojString × MojObject) :=
  [(chars "a".toList, .array [.object [],
    .object [(idKey, .string (chars "x".toList)),
      (chars "c".toList, .array [.array [.object [(idKey, .int 5)]]])]])]

theorem assignIds_numbers_listed :
    ∃ out after, SubObjectLaw (.object listed) out (Ids.reached none [.reopen] []) after :=
  ⟨_, _, (assignIds_numbers_iff listed none [.reopen] [] rfl).mpr (by decide)⟩

/-- An object in an array in an array gets no id. -/
theorem nested_array_lacks_id :
    ¬ ∀ (props : List (MojString × MojObject)) (out : MojObject) (after : Ids),
      assignIds (.object props) (Ids.reached none [.reopen] []) = .ok out after →
        numbered out = true := by
  intro all
  have law := all [(chars "a".toList, .array [.array [.object []]])] _ _ rfl
  exact absurd law (by decide)

end Result

end Db8.Db.MojDb
