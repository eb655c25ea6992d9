import Mathlib.Data.List.Basic
import Mathlib.Data.List.Chain
import Mathlib.Data.Nat.ModEq

/-!
# Runs of equal values

Reading a list in pages, where a value is left out when it repeats the one before it on the same
page. What is read is free of repetitions exactly when no value comes back after another and no run
of a value goes on behind the end of a page.
-/

set_option autoImplicit false

namespace Db8.Bytes

variable {α : Type*} [DecidableEq α]

/-- The values of a list with the number of times each follows itself. -/
def runs : List α → List (α × Nat)
  | [] => []
  | head :: tail =>
    match runs tail with
    | [] => [(head, 1)]
    | (val, count) :: others =>
      if head = val then (val, count + 1) :: others else (head, 1) :: (val, count) :: others

def readPage : Nat → Option α → List α → List α × List α
  | 0, _, vals => ([], vals)
  | _ + 1, _, [] => ([], [])
  | room + 1, last, head :: tail =>
    if last = some head then readPage (room + 1) last tail
    else (head :: (readPage room (some head) tail).1, (readPage room (some head) tail).2)

/-- All pages, with room for `spare` values on this one behind the next value read. -/
def readPages (limit : Nat) : Nat → Option α → List α → List α
  | _, _, [] => []
  | spare, last, head :: tail =>
    if last = some head then readPages limit spare last tail
    else if spare = 0 then head :: readPages limit (limit - 1) none tail
    else head :: readPages limit (spare - 1) (some head) tail

theorem readPages_eq (limit spare : Nat) (last : Option α) (vals : List α) :
    readPages limit spare last vals =
      (readPage (spare + 1) last vals).1 ++
        if (readPage (spare + 1) last vals).1.length = spare + 1 then
          readPages limit (limit - 1) none (readPage (spare + 1) last vals).2
        else [] := by
  induction vals generalizing spare last with
  | nil => simp [readPages, readPage]
  | cons head tail ih =>
    rw [readPages, readPage]
    by_cases same : last = some head
    · rw [if_pos same, if_pos same]
      exact ih spare last
    · rw [if_neg same, if_neg same]
      cases spare with
      | zero => simp [readPage]
      | succ spare =>
        simp only [Nat.succ_ne_zero, if_false, Nat.succ_sub_one, List.cons_append,
          List.length_cons, Nat.add_right_cancel_iff]
        rw [← ih spare (some head)]

structure Alternating (runs : List (α × Nat)) : Prop where
  apart : runs.IsChain fun left right => left.1 ≠ right.1
  nonempty : ∀ run ∈ runs, run.2 ≠ 0

omit [DecidableEq α] in
theorem Alternating.tail {run : α × Nat} {rest : List (α × Nat)}
    (alternating : Alternating (run :: rest)) : Alternating rest :=
  ⟨alternating.apart.tail, fun other member =>
    alternating.nonempty other (List.mem_cons_of_mem _ member)⟩

omit [DecidableEq α] in
theorem Alternating.differs {run : α × Nat} {rest : List (α × Nat)}
    (alternating : Alternating (run :: rest)) :
    ∀ other, rest.head? = some other → some run.1 ≠ some other.1 := by
  intro other head same
  cases rest with
  | nil => cases head
  | cons next rest =>
    have apart := alternating.apart
    rw [List.isChain_cons_cons] at apart
    rw [List.head?_cons, Option.some.injEq] at head
    rw [← head, Option.some.injEq] at same
    exact apart.1 same

theorem runs_alternating (vals : List α) : Alternating (runs vals) ∧
    vals = (runs vals).flatMap fun run => List.replicate run.2 run.1 := by
  induction vals with
  | nil => exact ⟨⟨List.IsChain.nil, by simp [runs]⟩, rfl⟩
  | cons head tail ih =>
    rcases ih with ⟨alternating, whole⟩
    rw [runs]
    cases split : runs tail with
    | nil =>
      rw [split] at whole
      rw [whole]
      exact ⟨⟨List.IsChain.singleton _, by simp⟩, by simp⟩
    | cons run others =>
      rcases run with ⟨val, count⟩
      rw [split] at alternating whole
      simp only
      split_ifs with same
      · refine ⟨⟨?_, ?_⟩, ?_⟩
        · have apart := alternating.apart
          cases others with
          | nil => exact List.IsChain.singleton _
          | cons other others =>
            rw [List.isChain_cons_cons] at apart ⊢
            exact apart
        · intro run member
          rcases List.mem_cons.mp member with first | later
          · rw [first]
            exact Nat.succ_ne_zero count
          · exact alternating.nonempty run (List.mem_cons_of_mem _ later)
        · rw [whole, same]
          simp [List.replicate_succ]
      · refine ⟨⟨?_, ?_⟩, ?_⟩
        · rw [List.isChain_cons_cons]
          exact ⟨same, alternating.apart⟩
        · intro run member
          rcases List.mem_cons.mp member with first | later
          · rw [first]
            exact Nat.one_ne_zero
          · exact alternating.nonempty run later
        · rw [whole]
          simp

theorem readPages_skip (limit spare : Nat) (val : α) (count : Nat) (rest : List α) :
    readPages limit spare (some val) (List.replicate count val ++ rest) =
      readPages limit spare (some val) rest := by
  induction count with
  | zero => rfl
  | succ count ih =>
    rw [List.replicate_succ, List.cons_append, readPages, if_pos rfl]
    exact ih

def Aligned (limit : Nat) : Nat → List (α × Nat) → Prop
  | _, [] => True
  | 0, run :: rest => run.2 = 1 ∧ Aligned limit (limit - 1) rest
  | spare + 1, _ :: rest => Aligned limit spare rest

omit [DecidableEq α] in
theorem aligned_iff {limit spare : Nat} (inside : spare < limit) (list : List (α × Nat)) :
    Aligned limit spare list ↔
      ∀ place run, list[place]? = some run → place ≡ spare [MOD limit] → run.2 = 1 := by
  induction list generalizing spare with
  | nil => simp [Aligned]
  | cons run rest ih =>
    have later : ∀ next, (next + 1 ≡ spare [MOD limit]) → next < limit →
        (spare = next + 1 ∨ spare = 0 ∧ next = limit - 1) := by
      intro next same nextIn
      rcases Nat.lt_or_ge (next + 1) limit with fits | full
      · have modded : (next + 1) % limit = spare % limit := same
        rw [Nat.mod_eq_of_lt fits, Nat.mod_eq_of_lt inside] at modded
        exact Or.inl modded.symm
      · have whole : next + 1 = limit := by omega
        rw [whole] at same
        have zero : spare = 0 := by
          have modded : limit % limit = spare % limit := same
          rw [Nat.mod_self, Nat.mod_eq_of_lt inside] at modded
          exact modded.symm
        exact Or.inr ⟨zero, by omega⟩
    cases spare with
    | zero =>
      rw [Aligned, ih (by omega)]
      constructor
      · intro aligned place other found same
        cases place with
        | zero =>
          rw [List.getElem?_cons_zero, Option.some.injEq] at found
          rw [← found]
          exact aligned.1
        | succ place =>
          rw [List.getElem?_cons_succ] at found
          apply aligned.2 place other found
          have step : place + 1 ≡ limit - 1 + 1 [MOD limit] := by
            rw [Nat.sub_add_cancel inside]
            exact same.trans (Nat.mod_self limit).symm
          exact Nat.ModEq.add_right_cancel' 1 step
      · intro aligned
        refine ⟨aligned 0 run rfl rfl, ?_⟩
        intro place other found same
        apply aligned (place + 1) other found
        have step : place + 1 ≡ limit - 1 + 1 [MOD limit] := same.add_right 1
        rw [Nat.sub_add_cancel inside] at step
        exact step.trans (Nat.mod_self limit)
    | succ spare =>
      rw [Aligned, ih (by omega)]
      constructor
      · intro aligned place other found same
        cases place with
        | zero =>
          have modded : 0 % limit = (spare + 1) % limit := same
          rw [Nat.zero_mod, Nat.mod_eq_of_lt inside] at modded
          omega
        | succ place =>
          exact aligned place other found (Nat.ModEq.add_right_cancel' 1 same)
      · intro aligned place other found same
        exact aligned (place + 1) other found (same.add_right 1)

theorem readPages_aligned (limit : Nat) {list : List (α × Nat)} (alternating : Alternating list)
    {spare : Nat} {last : Option α} (aligned : Aligned limit spare list)
    (fresh : ∀ run, list.head? = some run → last ≠ some run.1) :
    readPages limit spare last (list.flatMap fun run => List.replicate run.2 run.1) =
      list.map Prod.fst := by
  induction list generalizing spare last with
  | nil => rfl
  | cons run rest ih =>
    rcases run with ⟨val, count⟩
    have tail := alternating.tail
    have differs := alternating.differs
    cases count with
    | zero => exact absurd rfl (alternating.nonempty (val, 0) List.mem_cons_self)
    | succ count =>
      rw [List.flatMap_cons, List.replicate_succ, List.cons_append, readPages,
        if_neg (fresh (val, count + 1) rfl), List.map_cons]
      cases spare with
      | zero =>
        rcases aligned with ⟨one, further⟩
        have none : count = 0 := Nat.succ.inj one
        rw [none, List.replicate_zero, List.nil_append, if_pos rfl, ih tail further (by simp)]
      | succ spare =>
        rw [if_neg (Nat.succ_ne_zero spare), Nat.succ_sub_one, readPages_skip,
          ih tail aligned differs]

theorem aligned_of_nodup (limit : Nat) {list : List (α × Nat)} (alternating : Alternating list)
    {spare : Nat} {last : Option α} (fresh : ∀ run, list.head? = some run → last ≠ some run.1)
    (nodup : (readPages limit spare last
      (list.flatMap fun run => List.replicate run.2 run.1)).Nodup) : Aligned limit spare list := by
  induction list generalizing spare last with
  | nil => exact True.intro
  | cons run rest ih =>
    rcases run with ⟨val, count⟩
    have tail := alternating.tail
    have differs := alternating.differs
    cases count with
    | zero => exact absurd rfl (alternating.nonempty (val, 0) List.mem_cons_self)
    | succ count =>
      rw [List.flatMap_cons, List.replicate_succ, List.cons_append, readPages,
        if_neg (fresh (val, count + 1) rfl)] at nodup
      cases spare with
      | zero =>
        rw [if_pos rfl, List.nodup_cons] at nodup
        cases count with
        | zero => exact ⟨rfl, ih tail (by simp) nodup.2⟩
        | succ count =>
          have again : val ∈ readPages limit (limit - 1) none
              (List.replicate (count + 1) val ++
                rest.flatMap fun run => List.replicate run.2 run.1) := by
            rw [List.replicate_succ, List.cons_append, readPages, if_neg (by simp)]
            split_ifs <;> exact List.mem_cons_self
          exact absurd again nodup.1
      | succ spare =>
        rw [if_neg (Nat.succ_ne_zero spare), Nat.succ_sub_one, readPages_skip,
          List.nodup_cons] at nodup
        exact ih tail differs nodup.2

/-- What is read is free of repetitions if and only if no value comes back and pages end with their
runs. -/
theorem readPages_nodup_iff {limit : Nat} (positive : 1 ≤ limit) (vals : List α) :
    (readPages limit (limit - 1) none vals).Nodup ↔
      ((runs vals).map Prod.fst).Nodup ∧
        ∀ place run, (runs vals)[place]? = some run → limit ∣ place + 1 → run.2 = 1 := by
  rcases runs_alternating vals with ⟨alternating, whole⟩
  have inside : limit - 1 < limit := by omega
  have boundary : ∀ place, place ≡ limit - 1 [MOD limit] ↔ limit ∣ place + 1 := by
    intro place
    rw [← Nat.modEq_zero_iff_dvd]
    constructor
    · intro same
      have step := same.add_right 1
      rw [Nat.sub_add_cancel positive] at step
      exact step.trans (Nat.mod_self limit)
    · intro same
      apply Nat.ModEq.add_right_cancel' 1
      rw [Nat.sub_add_cancel positive]
      exact same.trans (Nat.mod_self limit).symm
  have places : Aligned limit (limit - 1) (runs vals) ↔
      ∀ place run, (runs vals)[place]? = some run → limit ∣ place + 1 → run.2 = 1 := by
    rw [aligned_iff inside]
    simp only [boundary]
  rw [← places]
  constructor
  · intro nodup
    rw [whole] at nodup
    have aligned := aligned_of_nodup limit alternating (by simp) nodup
    rw [readPages_aligned limit alternating aligned (by simp)] at nodup
    exact ⟨nodup, aligned⟩
  · intro condition
    have read := readPages_aligned limit alternating condition.2 (by simp : ∀ run,
      (runs vals).head? = some run → none ≠ some run.1)
    rw [← whole] at read
    rw [read]
    exact condition.1

theorem mem_readPages (limit spare : Nat) (last : Option α) (vals : List α) (val : α) :
    val ∈ vals → val ∈ readPages limit spare last vals ∨ last = some val := by
  induction vals generalizing spare last with
  | nil => exact fun absent => absurd absent List.not_mem_nil
  | cons head tail ih =>
    intro member
    rw [readPages]
    by_cases same : last = some head
    · rw [if_pos same]
      rcases List.mem_cons.mp member with here | later
      · exact Or.inr (here ▸ same)
      · exact ih spare last later
    · rw [if_neg same]
      left
      rcases List.mem_cons.mp member with here | later
      · rw [here]
        split_ifs <;> exact List.mem_cons_self
      · split_ifs
        · rcases ih (limit - 1) none later with read | nothing
          · exact List.mem_cons_of_mem _ read
          · cases nothing
        · rcases ih (spare - 1) (some head) later with read | kept
          · exact List.mem_cons_of_mem _ read
          · rw [← Option.some.inj kept]
            exact List.mem_cons_self

theorem readPages_subset (limit spare : Nat) (last : Option α) (vals : List α) :
    readPages limit spare last vals ⊆ vals := by
  induction vals generalizing spare last with
  | nil => exact List.Subset.refl []
  | cons head tail ih =>
    rw [readPages]
    by_cases same : last = some head
    · rw [if_pos same]
      exact List.subset_cons_of_subset head (ih spare last)
    · rw [if_neg same]
      split_ifs
      · exact List.cons_subset_cons head (ih (limit - 1) none)
      · exact List.cons_subset_cons head (ih (spare - 1) (some head))

end Db8.Bytes
