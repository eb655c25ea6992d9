import Db8.Db.PageKeys

/-!
# Serving pages

A run on the keys that are not ghosts: hits, each with an item or an error. A page serves hits until
the limit is reached, passing over duplicates of the one before, and the page behind it starts with
the hit after the last one served.
-/

set_option autoImplicit false

namespace Db8.Db

open Db8.Bytes
open Db8.Core

namespace MojDbIsamQuery

abbrev Hit := MojDbKey × Except MojErr MojDbStorageItem

namespace Feed

def hit (feed : Feed) (key : MojDbKey) : Option Hit :=
  match feed.look key with
  | .ok none => none
  | .ok (some item) => some (key, .ok item)
  | .error err => if err = .internalIndexOnFind then none else some (key, .error err)

def hits (feed : Feed) (keys : List MojDbKey) : List Hit := keys.filterMap feed.hit

variable {feed : Feed}

theorem hit_key {key : MojDbKey} {found : Hit} (hit : feed.hit key = some found) :
    found.1 = key := by
  unfold Feed.hit at hit
  split at hit
  · cases hit
  · rw [← Option.some.inj hit]
  · split_ifs at hit
    rw [← Option.some.inj hit]

theorem hits_cons (feed : Feed) (key : MojDbKey) (keys : List MojDbKey) :
    feed.hits (key :: keys) = (feed.hit key).toList ++ feed.hits keys := by
  unfold hits
  rw [List.filterMap_cons]
  cases feed.hit key <;> rfl

theorem hits_split {keys : List MojDbKey} {front back : List Hit} {found : Hit}
    (split : feed.hits keys = front ++ found :: back) :
    ∃ before behind, keys = before ++ found.1 :: behind ∧ feed.hits behind = back := by
  unfold hits at split
  rcases List.filterMap_eq_append_iff.mp split with ⟨first, second, keysEq, _, secondHits⟩
  rcases List.filterMap_eq_cons_iff.mp secondHits with ⟨none, key, behind, secondEq, _, hit, rest⟩
  refine ⟨first ++ none, behind, ?_, rest⟩
  rw [keysEq, secondEq, hit_key hit, List.append_assoc]

end Feed

def collect : List Hit → Except MojErr (List MojDbStorageItem)
  | [] => .ok []
  | (_, .error err) :: _ => .error err
  | (_, .ok item) :: rest => (collect rest).map (item :: ·)

theorem collect_append (front back : List Hit) :
    collect (front ++ back) =
      (collect front).bind fun items => (collect back).map (items ++ ·) := by
  induction front with
  | nil =>
    rw [List.nil_append, collect]
    cases collect back <;> rfl
  | cons found front ih =>
    rcases found with ⟨key, result⟩
    cases result with
    | error err => rfl
    | ok item =>
      rw [List.cons_append, collect, collect, ih]
      cases collect front with
      | error err => rfl
      | ok items => cases collect back <;> rfl

theorem collect_length {found : List Hit} {items : List MojDbStorageItem}
    (collected : collect found = .ok items) : items.length = found.length := by
  induction found generalizing items with
  | nil =>
    rw [collect, Except.ok.injEq] at collected
    rw [← collected]
    rfl
  | cons hit found ih =>
    rcases hit with ⟨key, result⟩
    cases result with
    | error err => cases collected
    | ok item =>
      rw [collect] at collected
      cases rest : collect found with
      | error err => simp [rest, Except.map] at collected
      | ok others =>
        simp only [rest, Except.map, Except.ok.injEq] at collected
        rw [← collected, List.length_cons, List.length_cons, ih rest]

namespace Feed

variable {feed : Feed}

theorem items_eq_collect (keys : List MojDbKey) : feed.items keys = collect (feed.hits keys) := by
  induction keys with
  | nil => rfl
  | cons key keys ih =>
    rw [items, hits_cons, hit, ih]
    cases feed.look key with
    | error err =>
      simp only
      split_ifs <;> rfl
    | ok item => cases item <;> rfl

structure Served where
  delivered : List Hit
  rest : List Hit

/-- Hits are delivered unless they repeat the one before, as long as there is room. -/
def serve (feed : Feed) : Nat → Option MojObject → List Hit → Except MojErr Served
  | 0, _, found => .ok ⟨[], found⟩
  | _ + 1, _, [] => .ok ⟨[], []⟩
  | room + 1, last, hit :: found =>
    match hit.2 with
    | .error err => .error err
    | .ok item =>
      match feed.accept last item.obj with
      | .error err => .error err
      | .ok false => feed.serve (room + 1) last found
      | .ok true => (feed.serve room (feed.keep last item.obj) found).map fun later =>
        ⟨hit :: later.delivered, later.rest⟩

/-- Page after page, with nothing kept from one page to the next. -/
def serveAll (feed : Feed) : Nat → List Hit → Except MojErr (List Hit)
  | 0, _ => .error (.assertFailed "there are finitely many pages")
  | pages + 1, found => do
    let page ← feed.serve feed.limit none found
    if feed.limit ≤ page.delivered.length then do
      let later ← feed.serveAll pages page.rest
      .ok (page.delivered ++ later)
    else .ok page.delivered

def endKeyAfter (feed : Feed) (tally : Tally) (delivered : List Hit) : MojDbKey :=
  match delivered.getLast? with
  | none => tally.endKey
  | some hit =>
    if feed.limit ≤ tally.count + delivered.length then feed.pageKey hit.1 else tally.endKey

def Serves (feed : Feed) (tally : Tally)
    (read : Tally × Except MojErr (List MojDbStorageItem)) : Except MojErr Served → Prop
  | .error err => read.2 = .error err
  | .ok page => read.2 = collect page.delivered ∧
      read.1.count = tally.count + page.delivered.length ∧
      read.1.endKey = feed.endKeyAfter tally page.delivered

theorem endKeyAfter_cons (tally : Tally) (last : Option MojObject) (hit : Hit)
    (delivered : List Hit) :
    feed.endKeyAfter (feed.counted { tally with last := last } hit.1) delivered =
      feed.endKeyAfter tally (hit :: delivered) := by
  unfold endKeyAfter counted
  cases delivered with
  | nil => simp
  | cons other delivered =>
    rw [List.getLast?_cons_cons]
    cases ends : (other :: delivered).getLast? with
    | none => simp at ends
    | some final =>
      simp only [List.length_cons]
      split_ifs <;> first | rfl | omega

theorem fetchAll_serves (included : ∀ key, feed.look key ≠ .ok none) (keys : List MojDbKey)
    (tally : Tally) :
    feed.Serves tally (feed.fetchAll keys tally)
      (feed.serve (feed.limit - tally.count) tally.last (feed.hits keys)) := by
  induction keys generalizing tally with
  | nil =>
    cases feed.limit - tally.count with
    | zero => exact ⟨rfl, rfl, rfl⟩
    | succ room => exact ⟨rfl, rfl, rfl⟩
  | cons key keys ih =>
    by_cases stopped : feed.limit ≤ tally.count
    · rw [fetchAll_stopped feed _ stopped, Nat.sub_eq_zero_of_le stopped, serve]
      exact ⟨rfl, rfl, rfl⟩
    · have room : feed.limit - tally.count = feed.limit - (tally.count + 1) + 1 := by omega
      rw [fetchAll, if_neg stopped, receive, hits_cons, hit]
      cases looked : feed.look key with
      | error err =>
        simp only
        split_ifs with ghost
        · exact ih tally
        · rw [room]
          rfl
      | ok item =>
        cases item with
        | none => exact absurd looked (included key)
        | some item =>
          simp only [Option.toList_some, List.singleton_append]
          rw [room, serve]
          simp only
          cases accepted : feed.accept tally.last item.obj with
          | error err =>
            simp only [accept_error accepted, if_false]
            rfl
          | ok fresh =>
            cases fresh with
            | false =>
              have later := ih tally
              rw [room] at later
              exact later
            | true =>
              have later := ih (feed.counted (feed.kept tally item.obj) key)
              have counts : (feed.counted (feed.kept tally item.obj) key).count =
                  tally.count + 1 := rfl
              have keeps : (feed.counted (feed.kept tally item.obj) key).last =
                  feed.keep tally.last item.obj := rfl
              rw [counts, keeps] at later
              simp only
              cases served : feed.serve (feed.limit - (tally.count + 1))
                  (feed.keep tally.last item.obj) (feed.hits keys) with
              | error err =>
                rw [served] at later
                simp only [Serves] at later
                simp only [Except.map, Serves, later]
              | ok page =>
                rw [served] at later
                rcases later with ⟨items, count, endKey⟩
                refine ⟨?_, ?_, ?_⟩
                · simp only [items, collect]
                · simp only [count, counts, List.length_cons]
                  omega
                · simp only [endKey]
                  exact endKeyAfter_cons tally _ (key, .ok item) page.delivered

end Feed

end MojDbIsamQuery

end Db8.Db
