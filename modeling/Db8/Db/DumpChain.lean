import Db8.Db.Dump

/-!
# Chains of backups

A backup whose response says that there is more is followed by another one from its incremental key.
What is due from a key is written by a chain that comes to its end. It comes to its end, and writes
nothing twice, as long as no kind is listed twice and every backup of it either gets done, or has
only deleted objects left, or is cut among the live objects behind the revisions of all the kinds it
has written: when the cut falls among the deleted objects, the response keeps the revision that the
backup started from.
-/

set_option autoImplicit false

namespace Db8.Db.MojDb

open Db8.Bytes
open Db8.Core
open MojObjectWriter

section Chain

variable (spell : JsonToken → ByteString) (maxBytes : Nat) (store : BackupStore)

/-- The files of a chain from a key to the first response without `hasMore`. -/
inductive Chain : Option IncrementalKey → List (List MojObject) → Prop where
  | last (key : Option IncrementalKey) (state : Dumping)
      (dumped : dump spell maxBytes store key = .ok state)
      (done : state.response.hasMore = false) : Chain key [state.written]
  | more (key : Option IncrementalKey) (state : Dumping) (files : List (List MojObject))
      (dumped : dump spell maxBytes store key = .ok state)
      (more : state.response.hasMore = true)
      (later : Chain (some state.response.incrementalKey) files) :
      Chain key (state.written :: files)

inductive Reaches (key : Option IncrementalKey) : Option IncrementalKey → Prop where
  | start : Reaches key key
  | more (later : Option IncrementalKey) (state : Dumping) (reached : Reaches key later)
      (dumped : dump spell maxBytes store later = .ok state)
      (more : state.response.hasMore = true) :
      Reaches key (some state.response.incrementalKey)

def dueObjs (key : Option IncrementalKey) : List MojObject :=
  dueKinds store (startRev key) ++ dueLive store (startRev key) ++
    dueDeleted store (startDeletedRev key)

/-- The chain comes to its end, with everything written and nothing twice. -/
def CompleteChain (key : Option IncrementalKey) : Prop :=
  ∃ files, Chain spell maxBytes store key files ∧ (∀ obj ∈ dueObjs store key, obj ∈ files.flatten) ∧
    files.flatten.Nodup

/-- The next backup writes everything; or only deleted objects are left; or it is cut among the live
objects, and for every kind it writes there is a live one as new as the kind that still fits. -/
def GoesOn (key : Option IncrementalKey) : Prop :=
  let kinds := dueKinds store (startRev key)
  let objs := dueLive store (startRev key)
  Fits maxBytes (size spell (dueObjs store key)) ∨ kinds = [] ∧ objs = [] ∨
    ¬Fits maxBytes (size spell (kinds ++ objs)) ∧
      ∀ kind ∈ kinds, ∃ front obj back, objs = front ++ obj :: back ∧ revOf kind ≤ revOf obj ∧
        Fits maxBytes (size spell (kinds ++ front ++ [obj]))

theorem startRev_some (rev deletedRev : Int) :
    startRev (some ⟨some rev, some deletedRev⟩) = rev := rfl

theorem startDeletedRev_some (rev deletedRev : Int) :
    startDeletedRev (some ⟨some rev, some deletedRev⟩) = deletedRev := rfl

theorem lastRev_concat (curRev : Option Int) (objs : List MojObject) (obj : MojObject) :
    lastRev curRev (objs ++ [obj]) = some (revOf obj) := by
  simp [lastRev]

theorem backupQuery_later (incDel : Bool) (rev later : Int) (above : rev ≤ later) :
    backupQuery store incDel later =
      (backupQuery store incDel rev).filter fun obj => decide (later < revOf obj) := by
  unfold backupQuery
  rw [List.filter_filter]
  apply List.filter_congr
  intro obj _
  by_cases newer : later < revOf obj
  · have newer' : rev < revOf obj := by omega
    simp [newer, newer']
  · simp [newer]

theorem dueLive_later (rev later : Int) (above : rev ≤ later) :
    dueLive store later = (dueLive store rev).filter fun obj => decide (later < revOf obj) := by
  unfold dueLive
  rw [backupQuery_later store false rev later above, List.filter_filter, List.filter_filter]
  apply List.filter_congr
  intro obj _
  rw [Bool.and_comm]

theorem dueKinds_later (rev later : Int) (above : rev ≤ later) :
    dueKinds store later = (dueKinds store rev).filter fun kind => decide (later < revOf kind) := by
  unfold dueKinds
  rw [List.filter_filter]
  apply List.filter_congr
  intro kind _
  unfold due
  by_cases newer : later < revOf kind
  · have newer' : rev < revOf kind := by omega
    simp [newer, newer']
  · simp [newer]

theorem ordered_query (incDel : Bool) (rev : Int) :
    (backupQuery store incDel rev).Pairwise fun left right => revOf left < revOf right :=
  store.ordered.sublist List.filter_sublist

theorem above_query (incDel : Bool) (rev : Int) :
    ∀ obj ∈ backupQuery store incDel rev, rev < revOf obj := by
  intro obj member
  have passed := (List.mem_filter.mp member).2
  simp only [Bool.and_eq_true, decide_eq_true_eq] at passed
  exact passed.2

theorem newer_than_last (objs front back : List MojObject) (obj : MojObject) (rev : Int)
    (ordered : objs.Pairwise fun left right => revOf left < revOf right)
    (above : ∀ obj ∈ objs, rev < revOf obj) (split : objs = front ++ obj :: back) :
    rev ≤ (lastRev none front).getD rev ∧
      objs.filter (fun other => decide ((lastRev none front).getD rev < revOf other)) =
        obj :: back := by
  subst split
  rcases List.eq_nil_or_concat front with rfl | ⟨first, last, rfl⟩
  · refine ⟨le_refl rev, ?_⟩
    rw [List.nil_append, List.filter_eq_self]
    intro other member
    exact decide_eq_true (above other member)
  · rw [List.concat_eq_append] at *
    rw [lastRev_concat, Option.getD_some]
    refine ⟨(above last (by simp)).le, ?_⟩
    rw [List.filter_append]
    have apart := List.pairwise_append.mp ordered
    have front : (first ++ [last]).filter (fun other => decide (revOf last < revOf other)) = [] := by
      rw [List.filter_eq_nil_iff]
      intro other member newer
      have newer := of_decide_eq_true newer
      rcases List.mem_append.mp member with earlier | same
      · have older := (List.pairwise_append.mp apart.1).2.2 other earlier last List.mem_cons_self
        omega
      · rw [List.mem_singleton] at same
        subst same
        omega
    have back : (obj :: back).filter (fun other => decide (revOf last < revOf other)) =
        obj :: back := by
      rw [List.filter_eq_self]
      intro other member
      exact decide_eq_true (apart.2.2 last (by simp) other member)
    rw [front, back, List.nil_append]

theorem first_unfit (bytes : Nat) (objs : List MojObject) (start : Fits maxBytes bytes)
    (full : ¬Fits maxBytes (bytes + size spell objs)) :
    ∃ front obj back, objs = front ++ obj :: back ∧ Fits maxBytes (bytes + size spell front) ∧
      ¬Fits maxBytes (bytes + size spell front + (dumpText spell obj).length) := by
  induction objs generalizing bytes with
  | nil => exact absurd start full
  | cons obj objs ih =>
    by_cases here : Fits maxBytes (bytes + (dumpText spell obj).length)
    · rw [size_cons, ← Nat.add_assoc] at full
      rcases ih _ here full with ⟨front, cut, back, split, fits, full⟩
      refine ⟨obj :: front, cut, back, by rw [split, List.cons_append], ?_, ?_⟩
      · rw [size_cons, ← Nat.add_assoc]
        exact fits
      · rw [size_cons, ← Nat.add_assoc]
        exact full
    · exact ⟨[], obj, objs, rfl, start, here⟩

/-- A file that is cut among the live or among the deleted objects. -/
inductive Cut (key : Option IncrementalKey) (state : Dumping) : Prop where
  | live (front back : List MojObject) (obj : MojObject)
      (split : dueLive store (startRev key) = front ++ obj :: back)
      (fits : Fits maxBytes (size spell (dueKinds store (startRev key) ++ front)))
      (full : ¬Fits maxBytes (size spell (dueKinds store (startRev key) ++ front ++ [obj])))
      (written : state.written = dueKinds store (startRev key) ++ front)
      (response : state.response = ⟨⟨some ((lastRev none front).getD (startRev key)),
        some (startDeletedRev key)⟩, true⟩)
  | deleted (front back : List MojObject) (obj : MojObject)
      (split : dueDeleted store (startDeletedRev key) = front ++ obj :: back)
      (fits : Fits maxBytes
        (size spell (dueKinds store (startRev key) ++ dueLive store (startRev key))))
      (full : ¬Fits maxBytes (size spell
        (dueKinds store (startRev key) ++ dueLive store (startRev key) ++ front ++ [obj])))
      (written : state.written =
        dueKinds store (startRev key) ++ dueLive store (startRev key) ++ front)
      (response : state.response = ⟨⟨some (startRev key),
        some ((lastRev none front).getD (startDeletedRev key))⟩, true⟩)

variable (key : Option IncrementalKey)

theorem dump_ends :
    ¬Fits maxBytes (size spell (dueKinds store (startRev key))) ∧
        dump spell maxBytes store key = .error .dbBackupFull ∨
      ∃ state, dump spell maxBytes store key = .ok state ∧
        (Fits maxBytes (size spell (dueObjs store key)) ∧ state.response.hasMore = false ∧
            state.written = dueObjs store key ∨
          ¬Fits maxBytes (size spell (dueObjs store key)) ∧ state.response.hasMore = true ∧
            Cut spell maxBytes store key state) := by
  by_cases kinds : Fits maxBytes (size spell (dueKinds store (startRev key)))
  · refine .inr ?_
    by_cases live : Fits maxBytes (size spell (dueKinds store (startRev key)) +
        size spell (dueLive store (startRev key)))
    · by_cases all : Fits maxBytes (size spell (dueKinds store (startRev key)) +
          size spell (dueLive store (startRev key)) +
          size spell (dueDeleted store (startDeletedRev key)))
      · rcases dump_all spell maxBytes store key all with ⟨state, dumped, ended, written⟩
        refine ⟨state, dumped, .inl ⟨?_, ended, written⟩⟩
        simpa only [dueObjs, size_append] using all
      · rcases first_unfit spell maxBytes _ _ live all with ⟨front, obj, back, split, fits, full⟩
        rcases dump_deleted_cut spell maxBytes store key front back obj split fits full with
          ⟨state, dumped, written, response⟩
        refine ⟨state, dumped, .inr ⟨?_, by rw [response], ?_⟩⟩
        · simpa only [dueObjs, size_append] using all
        · apply Cut.deleted front back obj split _ _ written response
          · simpa only [size_append] using live
          · simpa only [size_append, size_cons, size_nil, Nat.add_zero] using full
    · rcases first_unfit spell maxBytes _ _ kinds live with ⟨front, obj, back, split, fits, full⟩
      rcases dump_live_cut spell maxBytes store key front back obj split fits full with
        ⟨state, dumped, written, response⟩
      refine ⟨state, dumped, .inr ⟨?_, by rw [response], ?_⟩⟩
      · intro all
        rw [dueObjs, size_append, size_append] at all
        exact live all.part
      · apply Cut.live front back obj split _ _ written response
        · simpa only [size_append] using fits
        · simpa only [size_append, size_cons, size_nil, Nat.add_zero] using full
  · exact .inl ⟨kinds, dump_kinds_full spell maxBytes store key kinds⟩

theorem dump_done (state : Dumping) (dumped : dump spell maxBytes store key = .ok state)
    (ended : state.response.hasMore = false) :
    Fits maxBytes (size spell (dueObjs store key)) ∧ state.written = dueObjs store key := by
  rcases dump_ends spell maxBytes store key with ⟨_, failed⟩ | ⟨other, same, ends⟩
  · rw [failed] at dumped
    cases dumped
  · rw [same, Except.ok.injEq] at dumped
    subst dumped
    rcases ends with ⟨fits, _, written⟩ | ⟨_, more, _⟩
    · exact ⟨fits, written⟩
    · rw [ended] at more
      cases more

theorem dump_cut (state : Dumping) (dumped : dump spell maxBytes store key = .ok state)
    (more : state.response.hasMore = true) :
    ¬Fits maxBytes (size spell (dueObjs store key)) ∧ Cut spell maxBytes store key state := by
  rcases dump_ends spell maxBytes store key with ⟨_, failed⟩ | ⟨other, same, ends⟩
  · rw [failed] at dumped
    cases dumped
  · rw [same, Except.ok.injEq] at dumped
    subst dumped
    rcases ends with ⟨_, ended, _⟩ | ⟨full, _, cut⟩
    · rw [ended] at more
      cases more
    · exact ⟨full, cut⟩

theorem due_liveCut (front back : List MojObject) (obj : MojObject)
    (split : dueLive store (startRev key) = front ++ obj :: back) :
    dueObjs store (some ⟨some ((lastRev none front).getD (startRev key)),
        some (startDeletedRev key)⟩) =
      (dueKinds store (startRev key)).filter (fun kind =>
          decide ((lastRev none front).getD (startRev key) < revOf kind)) ++
        obj :: back ++ dueDeleted store (startDeletedRev key) := by
  have newer := newer_than_last (dueLive store (startRev key)) front back obj (startRev key)
    ((ordered_query store false _).sublist List.filter_sublist)
    (fun other member => above_query store false _ other (List.mem_filter.mp member).1) split
  unfold dueObjs
  rw [startRev_some, startDeletedRev_some, dueKinds_later store _ _ newer.1,
    dueLive_later store _ _ newer.1, newer.2]

theorem due_deletedCut (front back : List MojObject) (obj : MojObject)
    (split : dueDeleted store (startDeletedRev key) = front ++ obj :: back) :
    dueObjs store (some ⟨some (startRev key),
        some ((lastRev none front).getD (startDeletedRev key))⟩) =
      dueKinds store (startRev key) ++ dueLive store (startRev key) ++ obj :: back := by
  have newer := newer_than_last (dueDeleted store (startDeletedRev key)) front back obj
    (startDeletedRev key) (ordered_query store true _) (above_query store true _) split
  unfold dueObjs
  rw [startRev_some, startDeletedRev_some, dueDeleted,
    backupQuery_later store true _ _ newer.1, ← dueDeleted, newer.2]

theorem cut_covers (state : Dumping) (cut : Cut spell maxBytes store key state) :
    ∀ obj ∈ dueObjs store key,
      obj ∈ state.written ∨ obj ∈ dueObjs store (some state.response.incrementalKey) := by
  intro obj due
  cases cut with
  | live front back cut split fits full written response =>
    rw [response, due_liveCut store key front back cut split, written]
    rw [dueObjs, split] at due
    simp only [List.append_assoc, List.mem_append, List.cons_append] at due ⊢
    rcases due with kind | written | rest
    · exact .inl (.inl kind)
    · exact .inl (.inr written)
    · exact .inr (.inr rest)
  | deleted front back cut split fits full written response =>
    rw [response, due_deletedCut store key front back cut split, written]
    rw [dueObjs, split] at due
    simp only [List.append_assoc, List.mem_append] at due ⊢
    rcases due with kind | live | written | rest
    · exact .inl (.inl kind)
    · exact .inl (.inr (.inl live))
    · exact .inl (.inr (.inr written))
    · exact .inr (.inr (.inr rest))

theorem chain_covers (files : List (List MojObject)) (chain : Chain spell maxBytes store key files) :
    ∀ obj ∈ dueObjs store key, obj ∈ files.flatten := by
  induction chain with
  | last key state dumped ended =>
    intro obj due
    rw [List.flatten_singleton, (dump_done spell maxBytes store key state dumped ended).2]
    exact due
  | more key state files dumped more later ih =>
    intro obj due
    have cut := (dump_cut spell maxBytes store key state dumped more).2
    rw [List.flatten_cons, List.mem_append]
    rcases cut_covers spell maxBytes store key state cut obj due with written | left
    · exact .inl written
    · exact .inr (ih obj left)

theorem objs_nodup : store.objs.Nodup := by
  apply store.ordered.imp
  intro left right older same
  subst same
  exact lt_irrefl _ older

theorem mem_query (incDel : Bool) (rev : Int) (obj : MojObject)
    (member : obj ∈ backupQuery store incDel rev) :
    obj ∈ store.objs ∧ indexedFlag delKey obj = .bool incDel := by
  have found := List.mem_filter.mp member
  simp only [Bool.and_eq_true, decide_eq_true_eq] at found
  exact ⟨found.1, found.2.1.1⟩

theorem deleted_of_flag (obj : MojObject) (flag : indexedFlag delKey obj = .bool true) :
    deleted obj = true := by
  unfold indexedFlag at flag
  unfold deleted
  cases known : obj.get delKey with
  | none =>
    rw [known] at flag
    cases flag
  | some val =>
    rw [known, Option.getD_some] at flag
    rw [flag]
    rfl

theorem due_nodup (once : (dueKinds store (startRev key)).Nodup) : (dueObjs store key).Nodup := by
  have query (incDel : Bool) (rev : Int) : (backupQuery store incDel rev).Nodup :=
    (objs_nodup store).sublist List.filter_sublist
  have kindOf (kind : MojObject) (member : kind ∈ dueKinds store (startRev key)) :=
    store.kindsStored kind (List.mem_filter.mp member).1
  unfold dueObjs
  rw [List.nodup_append, List.nodup_append]
  refine ⟨⟨once, (query false _).sublist List.filter_sublist, ?_⟩, query true _, ?_⟩
  · rintro kind member _ live rfl
    have passed := (List.mem_filter.mp live).2
    simp [shown, (kindOf kind member).2.1] at passed
  · rintro obj member _ gone rfl
    have flag := (mem_query store true _ obj gone).2
    rcases List.mem_append.mp member with kind | live
    · have undeleted := (kindOf obj kind).2.2
      rw [deleted_of_flag obj flag] at undeleted
      cases undeleted
    · have unflagged := (mem_query store false _ obj (List.mem_filter.mp live).1).2
      rw [flag] at unflagged
      cases unflagged

/-- A complete chain writes nothing that the next backup finds due again. -/
theorem complete_next (state : Dumping) (complete : CompleteChain spell maxBytes store key)
    (dumped : dump spell maxBytes store key = .ok state) (more : state.response.hasMore = true) :
    CompleteChain spell maxBytes store (some state.response.incrementalKey) ∧
      ∀ obj ∈ state.written, obj ∉ dueObjs store (some state.response.incrementalKey) := by
  rcases complete with ⟨files, chain, _, nodup⟩
  cases chain with
  | last _ other same ended =>
    rw [dumped, Except.ok.injEq] at same
    subst same
    rw [ended] at more
    cases more
  | more _ other files same _ later =>
    rw [dumped, Except.ok.injEq] at same
    subst same
    have covers := chain_covers spell maxBytes store _ files later
    rw [List.flatten_cons, List.nodup_append] at nodup
    refine ⟨⟨files, later, covers, nodup.2.1⟩, ?_⟩
    intro obj written again
    exact nodup.2.2 obj written obj (covers obj again) rfl

theorem goesOn_of_complete
    (complete : CompleteChain spell maxBytes store key) : GoesOn spell maxBytes store key := by
  rcases dump_ends spell maxBytes store key with ⟨_, failed⟩ | ⟨state, dumped, ends⟩
  · rcases complete with ⟨files, chain, _⟩
    cases chain with
    | last _ state same ended =>
      rw [failed] at same
      cases same
    | more _ state files same more later =>
      rw [failed] at same
      cases same
  rcases ends with ⟨fits, _⟩ | ⟨_, more, cut⟩
  · exact .inl fits
  have apart := (complete_next spell maxBytes store key state complete dumped more).2
  cases cut with
  | live front back cut split fits full written response =>
    rw [response, due_liveCut store key front back cut split, written] at apart
    refine .inr (.inr ⟨?_, ?_⟩)
    · intro fits
      rw [split, size_append, size_append, size_cons] at fits
      apply full
      rw [size_append, size_append, size_cons, size_nil, Nat.add_zero]
      refine Fits.part (?_ : Fits maxBytes (_ + size spell back))
      simpa only [Nat.add_assoc] using fits
    · intro kind member
      have older : ¬(lastRev none front).getD (startRev key) < revOf kind := by
        intro newer
        exact apart kind (by simp [member]) (by simp [member, newer])
      have newer : startRev key < revOf kind := by
        have passed := (List.mem_filter.mp member).2
        simp only [due, Bool.and_eq_true, decide_eq_true_eq] at passed
        exact passed.2
      rcases List.eq_nil_or_concat front with rfl | ⟨first, last, rfl⟩
      · exact absurd newer older
      · rw [List.concat_eq_append] at *
        rw [lastRev_concat, Option.getD_some, not_lt] at older
        refine ⟨first, last, cut :: back, ?_, older, ?_⟩
        · rw [split, List.append_assoc, List.singleton_append]
        · rw [List.append_assoc]
          exact fits
  | deleted front back cut split fits full written response =>
    refine .inr (.inl ?_)
    rw [response, due_deletedCut store key front back cut split, written] at apart
    constructor
    · rw [List.eq_nil_iff_forall_not_mem]
      intro kind member
      exact apart kind (by simp [member]) (by simp [member])
    · rw [List.eq_nil_iff_forall_not_mem]
      intro obj member
      exact apart obj (by simp [member]) (by simp [member])

theorem Reaches.trans {spell : JsonToken → ByteString} {maxBytes : Nat} {store : BackupStore}
    {key between later : Option IncrementalKey} (first : Reaches spell maxBytes store key between)
    (second : Reaches spell maxBytes store between later) :
    Reaches spell maxBytes store key later := by
  induction second with
  | start => exact first
  | more later state _ dumped more ih => exact .more later state ih dumped more

theorem le_lastRev (objs : List MojObject) (obj : MojObject) (rev : Int)
    (ordered : objs.Pairwise fun left right => revOf left < revOf right) (member : obj ∈ objs) :
    revOf obj ≤ (lastRev none objs).getD rev := by
  rcases List.eq_nil_or_concat objs with rfl | ⟨first, last, rfl⟩
  · cases member
  · rw [List.concat_eq_append] at *
    rw [lastRev_concat, Option.getD_some]
    rcases List.mem_append.mp member with earlier | same
    · exact ((List.pairwise_append.mp ordered).2.2 obj earlier last List.mem_cons_self).le
    · rw [List.mem_singleton] at same
      rw [same]

theorem in_front_of_cut (kinds front back front' back' : List MojObject) (cut obj : MojObject)
    (split : front ++ cut :: back = front' ++ obj :: back')
    (full : ¬Fits maxBytes (size spell (kinds ++ front ++ [cut])))
    (fits : Fits maxBytes (size spell (kinds ++ front' ++ [obj]))) : obj ∈ front := by
  rcases List.append_eq_append_iff.mp split with ⟨between, longer, rest⟩ | ⟨between, longer, rest⟩
  · exfalso
    apply full
    cases between with
    | nil =>
      rw [List.nil_append, List.cons.injEq] at rest
      rw [List.append_nil] at longer
      rw [rest.1, ← longer]
      exact fits
    | cons first between =>
      rw [List.cons_append, List.cons.injEq] at rest
      rw [longer, ← rest.1] at fits
      refine Fits.part (?_ : Fits maxBytes (_ + (size spell between + size spell [obj])))
      simp only [size_append, size_cons, size_nil] at fits ⊢
      simpa only [Nat.add_assoc, Nat.add_zero] using fits
  · cases between with
    | nil =>
      rw [List.nil_append, List.cons.injEq] at rest
      rw [List.append_nil] at longer
      rw [← rest.1, longer] at full
      exact absurd fits full
    | cons first between =>
      rw [List.cons_append, List.cons.injEq] at rest
      rw [longer, rest.1]
      simp

/-- Behind a cut at which a chain goes on fewer objects are due, and none that was written. -/
theorem cut_goesOn (state : Dumping)
    (admits : ∀ obj ∈ store.objs, Fits maxBytes (dumpText spell obj).length)
    (cut : Cut spell maxBytes store key state)
    (full : ¬Fits maxBytes (size spell (dueObjs store key)))
    (goesOn : GoesOn spell maxBytes store key) :
    state.written ≠ [] ∧
      state.written ++ dueObjs store (some state.response.incrementalKey) = dueObjs store key := by
  have single (rev : Int) (incDel : Bool) (obj : MojObject)
      (member : obj ∈ backupQuery store incDel rev) : Fits maxBytes (size spell [obj]) := by
    have fits := admits obj (mem_query store incDel rev obj member).1
    simpa [size] using fits
  rcases goesOn with all | ⟨noKinds, noLive⟩ | ⟨full, kinds⟩
  · exact absurd all full
  · cases cut with
    | live front back obj split => simp [noLive] at split
    | deleted front back obj split fits full written response =>
      have here : Fits maxBytes (size spell [obj]) := by
        apply single (startDeletedRev key) true
        rw [← dueDeleted, split]
        simp
      rw [response, due_deletedCut store key front back obj split, written]
      rw [dueObjs, split]
      simp only [noKinds, noLive, List.nil_append] at full ⊢
      refine ⟨?_, trivial⟩
      rintro rfl
      exact full here
  · cases cut with
    | live front back obj split fits full written response =>
      have here : Fits maxBytes (size spell [obj]) := by
        have member : obj ∈ dueLive store (startRev key) := by
          rw [split]
          simp
        exact single (startRev key) false obj (List.mem_filter.mp member).1
      have ordered : front.Pairwise fun left right => revOf left < revOf right := by
        have all := (ordered_query store false (startRev key)).sublist
          (List.filter_sublist (p := shown true))
        rw [← dueLive, split] at all
        exact (List.pairwise_append.mp all).1
      have noneLeft : (dueKinds store (startRev key)).filter (fun kind =>
          decide ((lastRev none front).getD (startRev key) < revOf kind)) = [] := by
        rw [List.filter_eq_nil_iff]
        intro kind member newer
        rcases kinds kind member with ⟨front', obj', back', split', older, fits'⟩
        have inFront := in_front_of_cut spell maxBytes (dueKinds store (startRev key)) front back
          front' back' obj obj' (split.symm.trans split') full fits'
        have last := le_lastRev front obj' (startRev key) ordered inFront
        have newer := of_decide_eq_true newer
        omega
      rw [response, due_liveCut store key front back obj split, written, noneLeft]
      rw [dueObjs, split]
      refine ⟨?_, by simp⟩
      intro empty
      rw [List.append_eq_nil_iff] at empty
      rw [empty.1, empty.2] at full
      exact full here
    | deleted front back obj split fits => exact absurd fits full

/-- As long as every backup of it goes on, a chain comes to its end and writes what is due once. -/
theorem chain_of_goesOn (count : Nat) (key : Option IncrementalKey)
    (admits : ∀ obj ∈ store.objs, Fits maxBytes (dumpText spell obj).length)
    (bound : (dueObjs store key).length < count)
    (goesOn : ∀ later, Reaches spell maxBytes store key later → GoesOn spell maxBytes store later) :
    ∃ files, Chain spell maxBytes store key files ∧ files.flatten = dueObjs store key := by
  induction count generalizing key with
  | zero => omega
  | succ count ih =>
    have here := goesOn key .start
    rcases dump_ends spell maxBytes store key with ⟨refused, _⟩ | ⟨state, dumped, ends⟩
    · exfalso
      apply refused
      rcases here with all | ⟨noKinds, _⟩ | ⟨_, kinds⟩
      · rw [dueObjs, size_append, size_append] at all
        exact all.part.part
      · rw [noKinds]
        exact fits_zero maxBytes
      · cases known : dueKinds store (startRev key) with
        | nil => exact fits_zero maxBytes
        | cons kind rest =>
          rcases kinds kind (known ▸ List.mem_cons_self) with ⟨front, obj, back, _, _, fits⟩
          rw [size_append, size_append, known] at fits
          exact fits.part.part
    · rcases ends with ⟨_, ended, written⟩ | ⟨full, more, cut⟩
      · exact ⟨[state.written], .last key state dumped ended, by simp [written]⟩
      · rcases cut_goesOn spell maxBytes store key state admits cut full here with
          ⟨some, rest⟩
        have fewer : (dueObjs store (Option.some state.response.incrementalKey)).length < count := by
          have lengths := congrArg List.length rest
          rw [List.length_append] at lengths
          have positive := List.length_pos_of_ne_nil some
          omega
        have next : Reaches spell maxBytes store key (Option.some state.response.incrementalKey) :=
          .more key state .start dumped more
        rcases ih _ fewer (fun later reached => goesOn later (next.trans reached)) with
          ⟨files, chain, all⟩
        refine ⟨state.written :: files, .more key state files dumped more chain, ?_⟩
        rw [List.flatten_cons, all, rest]

theorem kinds_once (complete : CompleteChain spell maxBytes store key) :
    (dueKinds store (startRev key)).Nodup := by
  rcases complete with ⟨files, chain, _, nodup⟩
  cases chain with
  | last _ state dumped ended =>
    rw [List.flatten_singleton, (dump_done spell maxBytes store key state dumped ended).2, dueObjs,
      List.nodup_append, List.nodup_append] at nodup
    exact nodup.1.1
  | more _ state files dumped more _ =>
    rw [List.flatten_cons, List.nodup_append] at nodup
    have once := nodup.1
    cases (dump_cut spell maxBytes store key state dumped more).2 with
    | live front back obj split fits full written response =>
      rw [written, List.nodup_append] at once
      exact once.1
    | deleted front back obj split fits full written response =>
      rw [written, List.nodup_append, List.nodup_append] at once
      exact once.1.1

/-- A chain comes to its end with everything written and nothing twice if and only if no kind that is
due is listed twice and every backup of the chain goes on. -/
theorem complete_chain_iff (key : Option IncrementalKey)
    (admits : ∀ obj ∈ store.objs, Fits maxBytes (dumpText spell obj).length) :
    CompleteChain spell maxBytes store key ↔ (dueKinds store (startRev key)).Nodup ∧
      ∀ later, Reaches spell maxBytes store key later → GoesOn spell maxBytes store later := by
  constructor
  · intro complete
    refine ⟨kinds_once spell maxBytes store key complete, ?_⟩
    intro later reached
    have completeLater : CompleteChain spell maxBytes store later := by
      induction reached with
      | start => exact complete
      | more later state _ dumped more ih =>
        exact (complete_next spell maxBytes store later state ih dumped more).1
    exact goesOn_of_complete spell maxBytes store later completeLater
  · rintro ⟨once, goesOn⟩
    rcases chain_of_goesOn spell maxBytes store _ key admits (Nat.lt_succ_self _) goesOn with
      ⟨files, chain, all⟩
    refine ⟨files, chain, ?_, ?_⟩
    · rw [all]
      exact fun obj member => member
    · rw [all]
      exact due_nodup store key once

end Chain

section Instances

def plainSpell : JsonToken → ByteString
  | .openObject => [123]
  | .closeObject => [125]
  | .openArray => [91]
  | .closeArray => [93]
  | .comma => [44]
  | .colon => [58]
  | .null => charBytes (chars "null".toList)
  | .bool val => charBytes (chars (if val then "true" else "false").toList)
  | .string val => 34 :: charBytes val ++ [34]
  | .int _ | .decimal _ => [48]

def syncedObj (rev : MojInt64) : MojObject :=
  .object [(kindKey, .string (chars "A:1".toList)), (revKey, .int rev), (syncKey, .bool true)]

/-- A live object and a deleted one, for files that hold either of them. -/
def stuckStore : BackupStore where
  kinds := []
  objs := [syncedObj 1, (syncedObj 2).put delKey (.bool true)]
  ordered := by decide +kernel
  complete := by decide +kernel
  kindsStored := by simp

def syncedKind (rev : MojInt64) : MojObject :=
  .object [(kindKey, .string kindKindId), (revKey, .int rev), (kindSyncKey, .bool true)]

def noteObj (rev : MojInt64) : MojObject :=
  (syncedObj rev).put (chars "note".toList) (.string (chars "page two".toList))

def filledStore : BackupStore where
  kinds := [syncedKind 1]
  objs := [syncedKind 1, syncedObj 2, noteObj 3, noteObj 4, (syncedObj 5).put delKey (.bool true)]
  ordered := by decide +kernel
  complete := by decide +kernel
  kindsStored := by decide +kernel

def doubledStore : BackupStore where
  kinds := [syncedKind 1, syncedKind 1]
  objs := [syncedKind 1]
  ordered := by decide +kernel
  complete := by decide +kernel
  kindsStored := by decide +kernel

theorem dumped_of {spell : JsonToken → ByteString} {maxBytes : Nat} {store : BackupStore}
    {key : Option IncrementalKey} {written : List MojObject} {response : BackupResponse}
    (dumped : (dump spell maxBytes store key).toOption.map
      (fun state => (state.written, state.response)) = some (written, response)) :
    ∃ state, dump spell maxBytes store key = .ok state ∧ state.written = written ∧
      state.response = response := by
  cases known : dump spell maxBytes store key with
  | error err =>
    rw [known] at dumped
    cases dumped
  | ok state =>
    rw [known] at dumped
    injection dumped with same
    injection same with same_written same_response
    exact ⟨state, rfl, same_written, same_response⟩

theorem filledStore_first : ∃ state, dump plainSpell 90 filledStore none = .ok state ∧
    state.written = [syncedKind 1, syncedObj 2] ∧ state.response = ⟨⟨some 2, some (-1)⟩, true⟩ :=
  dumped_of (by decide +kernel)

theorem filledStore_second :
    ∃ state, dump plainSpell 90 filledStore (some ⟨some 2, some (-1)⟩) = .ok state ∧
      state.written = [noteObj 3] ∧ state.response = ⟨⟨some 3, some (-1)⟩, true⟩ :=
  dumped_of (by decide +kernel)

theorem filledStore_third :
    ∃ state, dump plainSpell 90 filledStore (some ⟨some 3, some (-1)⟩) = .ok state ∧
      state.written = [noteObj 4, (syncedObj 5).put delKey (.bool true)] ∧
      state.response = ⟨⟨some 4, some 5⟩, false⟩ :=
  dumped_of (by decide +kernel)

theorem filledStore_reaches (later : Option IncrementalKey)
    (reached : Reaches plainSpell 90 filledStore none later) :
    later = none ∨ later = some ⟨some 2, some (-1)⟩ ∨ later = some ⟨some 3, some (-1)⟩ := by
  induction reached with
  | start => exact .inl rfl
  | more later state _ dumped more ih =>
    rcases ih with rfl | rfl | rfl
    · rcases filledStore_first with ⟨other, same, _, response⟩
      rw [dumped, Except.ok.injEq] at same
      rw [same, response]
      exact .inr (.inl rfl)
    · rcases filledStore_second with ⟨other, same, _, response⟩
      rw [dumped, Except.ok.injEq] at same
      rw [same, response]
      exact .inr (.inr rfl)
    · rcases filledStore_third with ⟨other, same, _, response⟩
      rw [dumped, Except.ok.injEq] at same
      rw [same, response] at more
      cases more

/-- Three files: the first is cut behind the kind and the oldest object, the second behind the next
one, and the third holds the rest. -/
theorem filledStore_chain :
    CompleteChain plainSpell 90 filledStore none ∧
      Chain plainSpell 90 filledStore none [[syncedKind 1, syncedObj 2], [noteObj 3],
        [noteObj 4, (syncedObj 5).put delKey (.bool true)]] := by
  constructor
  · refine (complete_chain_iff plainSpell 90 filledStore none (by decide +kernel)).mpr
      ⟨by decide +kernel, ?_⟩
    intro later reached
    rcases filledStore_reaches later reached with rfl | rfl | rfl
    · refine .inr (.inr ⟨by decide +kernel, ?_⟩)
      have kinds : dueKinds filledStore (startRev none) = [syncedKind 1] := by decide +kernel
      intro kind member
      rw [kinds, List.mem_singleton] at member
      subst member
      exact ⟨[], syncedObj 2, [noteObj 3, noteObj 4], by decide +kernel⟩
    · refine .inr (.inr ⟨by decide +kernel, ?_⟩)
      have kinds : dueKinds filledStore (startRev (some ⟨some 2, some (-1)⟩)) = [] := by
        decide +kernel
      intro kind member
      rw [kinds] at member
      cases member
    · exact .inl (by decide +kernel)
  · rcases filledStore_first with ⟨first, dumped, written, response⟩
    rcases filledStore_second with ⟨second, dumped', written', response'⟩
    rcases filledStore_third with ⟨third, dumped'', written'', response''⟩
    rw [← written, ← written', ← written'']
    refine .more none first _ dumped (by rw [response]) ?_
    rw [response]
    refine .more _ second _ dumped' (by rw [response']) ?_
    rw [response']
    exact .last _ third dumped'' (by rw [response''])

/-- Every backup writes the live object of the one store once more and comes back with the key it was
given; the kind that is listed twice is in the file twice. -/
theorem stuckStore_incomplete :
    ((∀ obj ∈ stuckStore.objs, Fits 60 (dumpText plainSpell obj).length) ∧
        ¬CompleteChain plainSpell 60 stuckStore none) ∧
      (∀ obj ∈ doubledStore.objs, Fits 0 (dumpText plainSpell obj).length) ∧
        ¬CompleteChain plainSpell 0 doubledStore none := by
  refine ⟨⟨by decide +kernel, ?_⟩, by decide +kernel, ?_⟩
  · intro complete
    rcases goesOn_of_complete plainSpell 60 stuckStore none complete with
      all | ⟨_, noLive⟩ | ⟨full, _⟩
    · revert all
      decide +kernel
    · revert noLive
      decide +kernel
    · revert full
      decide +kernel
  · intro complete
    have once := kinds_once plainSpell 0 doubledStore none complete
    revert once
    decide +kernel

end Instances

end Db8.Db.MojDb
