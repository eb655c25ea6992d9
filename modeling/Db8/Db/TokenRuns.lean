import Db8.Db.KindState

/-!
# Runs over the tokens of a kind

Sets of one kind are taken and asked in any order, with writes that fail and with the kind opened
again from its record. A call that the shared state answers without adding the word empties the
table of the set that asked; in every run without such a call each token given out can be read by
its set, by every set taken later and from the record, and stands for one string.
-/

set_option autoImplicit false

namespace Db8.Db

open Db8.Bytes
open Db8.Core

/-- A token given out: to which set, as long as it lives, how many sets were taken before, and what
for. -/
structure ReturnedToken where
  holder : Option Nat
  before : Nat
  token : Nat
  str : MojString
deriving DecidableEq

structure TokenSystem where
  store : Option ByteString
  state : Option MojDbKindState
  sets : List MojTokenSet
  returned : List ReturnedToken

inductive TokenEvent where
  | init (strings : List MojString) (write : TokenWrite)
  | tokenSet
  | tokenFromString (set : Nat) (str : MojString) (add : Bool) (write : TokenWrite)

namespace TokenSystem

def closed : TokenSystem := ⟨none, none, [], []⟩

def forget (returned : ReturnedToken) : ReturnedToken :=
  { returned with holder := none, before := 0 }

def step (sys : TokenSystem) : TokenEvent → TokenSystem
  | .init strings write =>
    let returned := sys.returned.map forget
    match MojDbKindState.initTokens strings write sys.store with
    | (.error _, store) => ⟨store, none, [], returned⟩
    | (.ok state, store) => ⟨store, some state, [], returned⟩
  | .tokenSet =>
    match sys.state with
    | none => sys
    | some state => { sys with sets := sys.sets ++ [state.tokenSet] }
  | .tokenFromString i str add write =>
    match sys.state, sys.sets[i]? with
    | some state, some set =>
      match set.tokenFromString str add write state sys.store with
      | (.error _, set, state, store) =>
        ⟨store, some state, sys.sets.set i set, sys.returned⟩
      | (.ok token, set, state, store) =>
        ⟨store, some state, sys.sets.set i set,
          if token = invalidToken then sys.returned
          else sys.returned ++ [⟨some i, sys.sets.length, token, str⟩]⟩
    | _, _ => sys

def run (sys : TokenSystem) (events : List TokenEvent) : TokenSystem := events.foldl step sys

/-- Every token given out is read back as its string, and stands for no other. -/
structure Readable (sys : TokenSystem) : Prop where
  own : ∀ returned ∈ sys.returned, ∀ i, returned.holder = some i →
    ∃ set, sys.sets[i]? = some set ∧ set.stringFromToken returned.token = .ok returned.str
  later : ∀ returned ∈ sys.returned, ∀ i set, returned.before ≤ i → sys.sets[i]? = some set →
    set.stringFromToken returned.token = .ok returned.str
  stored : ∀ returned ∈ sys.returned, ∀ strings, ∃ state store,
    MojDbKindState.initTokens strings .done sys.store = (.ok state, store) ∧
      state.tokenSet.stringFromToken returned.token = .ok returned.str
  unique : ∀ returned ∈ sys.returned, ∀ other ∈ sys.returned, returned.token = other.token →
    returned.str = other.str

/-- The call is not one that the shared state answers without adding the word: the word stands in
the set's own copy, or it is new to the kind and there is a token left for it. -/
def Spared (sys : TokenSystem) : TokenEvent → Prop
  | .tokenFromString i str true _ => ∀ state ∈ sys.state, ∀ set ∈ sys.sets[i]?,
      MojObject.find set.obj str ≠ none ∨
        MojObject.find state.tokensObj str = none ∧ state.nextToken < 255
  | _ => True

instance (sys : TokenSystem) : DecidablePred (Spared sys)
  | .init _ _ => isTrue trivial
  | .tokenSet => isTrue trivial
  | .tokenFromString _ _ false _ => isTrue trivial
  | .tokenFromString i str true _ =>
    inferInstanceAs (Decidable (∀ state ∈ sys.state, ∀ set ∈ sys.sets[i]?,
      MojObject.find set.obj str ≠ none ∨
        MojObject.find state.tokensObj str = none ∧ state.nextToken < 255))

def SparedRun : TokenSystem → List TokenEvent → Prop
  | _, [] => True
  | sys, event :: events => Spared sys event ∧ SparedRun (sys.step event) events

instance decidableSparedRun : (sys : TokenSystem) → DecidablePred (SparedRun sys)
  | _, [] => isTrue trivial
  | sys, event :: events =>
    have := decidableSparedRun (sys.step event) events
    inferInstanceAs (Decidable (Spared sys event ∧ SparedRun (sys.step event) events))

/-! ### The words behind a run -/

/-- The set's copy was taken when the word in some place was there. -/
def Knows (words : List MojString) (place : Nat) (set : MojTokenSet) : Prop :=
  ∃ part, part <+: words ∧ set.Copies part ∧ place < part.length

structure Explained (words : List MojString) (sys : TokenSystem) : Prop where
  store : MojDbKindState.Recorded words sys.store
  state : ∀ state, sys.state = some state → state.Holds words
  sets : ∀ set ∈ sys.sets, ∃ part, part <+: words ∧ set.Copies part
  returned : ∀ returned ∈ sys.returned, ∃ place, words[place]? = some returned.str ∧
    returned.token = tokenStartMarker + place ∧
    (∀ i, returned.holder = some i → i < sys.sets.length) ∧
    ∀ i set, sys.sets[i]? = some set → returned.holder = some i ∨ returned.before ≤ i →
      Knows words place set

variable {str : MojString}

theorem word_of_front {part words : List MojString} (front : part <+: words) {place : Nat}
    (word : part[place]? = some str) : words[place]? = some str := by
  rcases front with ⟨rest, rfl⟩
  rw [List.getElem?_append_left (List.getElem?_eq_some_iff.mp word).1, word]

variable {set : MojTokenSet}

theorem Knows.mono {words more : List MojString} {place : Nat} (knows : Knows words place set)
    (front : words <+: more) : Knows more place set := by
  rcases knows with ⟨part, inside, copies, bound⟩
  exact ⟨part, inside.trans front, copies, bound⟩

variable {words : List MojString}

theorem Knows.stringFromToken {place : Nat} (knows : Knows words place set)
    (word : words[place]? = some str) :
    set.stringFromToken (tokenStartMarker + place) = .ok str := by
  rcases knows with ⟨part, ⟨rest, rfl⟩, copies, bound⟩
  rw [List.getElem?_append_left bound] at word
  exact copies.stringFromToken word

theorem knows_of_copies {place : Nat} (copies : set.Copies words) (word : words[place]? = some str) :
    Knows words place set :=
  ⟨words, List.prefix_refl words, copies, (List.getElem?_eq_some_iff.mp word).1⟩

variable {sys : TokenSystem}

theorem Explained.readable (explained : Explained words sys) : Readable sys where
  own := by
    intro returned member i holder
    rcases explained.returned returned member with ⟨place, word, token, alive, known⟩
    have there := List.getElem?_eq_getElem (alive i holder)
    rw [token]
    exact ⟨_, there, (known i _ there (Or.inl holder)).stringFromToken word⟩
  later := by
    intro returned member i set after there
    rcases explained.returned returned member with ⟨place, word, token, _, known⟩
    rw [token]
    exact (known i set there (Or.inr after)).stringFromToken word
  stored := by
    intro returned member strings
    rcases explained.returned returned member with ⟨place, word, token, _, _⟩
    rcases explained.store.initTokens strings .done with
      ⟨more, state, store, opened, holds, _⟩ | ⟨failed, _⟩
    · have kept := word_of_front (List.prefix_append words more) word
      rw [token]
      exact ⟨state, store, opened, (MojTokenSet.copies_tokenSet holds).stringFromToken kept⟩
    · exact absurd rfl failed
  unique := by
    intro returned member other otherMember same
    rcases explained.returned returned member with ⟨place, word, token, _, _⟩
    rcases explained.returned other otherMember with ⟨otherPlace, otherWord, otherToken, _, _⟩
    have places : place = otherPlace := by omega
    rw [places, otherWord] at word
    exact (Option.some.inj word).symm

theorem explained_closed : Explained [] closed where
  store := rfl
  state := by simp [closed]
  sets := by simp [closed]
  returned := by simp [closed]

theorem Explained.init (explained : Explained words sys) (strings : List MojString)
    (write : TokenWrite) : ∃ more, Explained more (sys.step (.init strings write)) := by
  have forgotten : ∀ {more : List MojString}, words <+: more →
      ∀ returned ∈ sys.returned.map forget, ∃ place,
        more[place]? = some returned.str ∧ returned.token = tokenStartMarker + place ∧
        (∀ i, returned.holder = some i → i < ([] : List MojTokenSet).length) ∧
        ∀ i set, ([] : List MojTokenSet)[i]? = some set →
          returned.holder = some i ∨ returned.before ≤ i → Knows more place set := by
    intro more front returned member
    rcases List.mem_map.mp member with ⟨earlier, inside, rfl⟩
    rcases explained.returned earlier inside with ⟨place, word, token, _, _⟩
    exact ⟨place, word_of_front front word, token, by simp [forget], by simp⟩
  rcases explained.store.initTokens strings write with
    ⟨more, state, store, opened, holds, recorded⟩ | ⟨_, err, refused⟩
  · apply Exists.intro (words ++ more)
    simp only [step, opened]
    exact ⟨recorded, fun _ same => Option.some.inj same ▸ holds, by simp,
      forgotten (List.prefix_append words more)⟩
  · apply Exists.intro words
    simp only [step, refused]
    exact ⟨explained.store, by simp, by simp, forgotten (List.prefix_refl words)⟩

theorem Explained.tokenSet
    (explained : Explained words sys) : Explained words (sys.step .tokenSet) := by
  cases opened : sys.state with
  | none => simpa only [step, opened] using explained
  | some state =>
    have copies := MojTokenSet.copies_tokenSet (explained.state state opened)
    simp only [step, opened]
    constructor
    · exact explained.store
    · exact fun other same => explained.state other (opened.trans same)
    · intro set member
      rcases List.mem_append.mp member with old | new
      · exact explained.sets set old
      · rw [List.mem_singleton.mp new]
        exact ⟨words, List.prefix_refl words, copies⟩
    · intro returned member
      rcases explained.returned returned member with ⟨place, word, token, alive, known⟩
      apply Exists.intro place
      apply And.intro word
      apply And.intro token
      constructor
      · intro i holder
        have bound := alive i holder
        rw [List.length_append]
        omega
      · intro i set there entitled
        rcases Nat.lt_or_ge i sys.sets.length with old | new
        · rw [List.getElem?_append_left old] at there
          exact known i set there entitled
        · rw [List.getElem?_append_right new] at there
          have last := List.mem_singleton.mp (List.mem_of_getElem? there)
          rw [last]
          exact knows_of_copies copies word

/-- A set is replaced by one that knows at least as much, while the words of the kind grow. -/
theorem Explained.replaceSet {words more : List MojString} (explained : Explained words sys)
    (front : words <+: more) {i : Nat} {set after : MojTokenSet} (there : sys.sets[i]? = some set)
    {part : List MojString} (inside : part <+: more) (copies : after.Copies part)
    (grows : ∀ place, Knows words place set → Knows more place after) {store : Option ByteString}
    {state : MojDbKindState} (recorded : MojDbKindState.Recorded more store)
    (holds : state.Holds more) :
    Explained more ⟨store, some state, sys.sets.set i after, sys.returned⟩ where
  store := recorded
  state := by
    intro other same
    cases same
    exact holds
  sets := by
    intro other member
    rcases List.mem_or_eq_of_mem_set member with old | new
    · rcases explained.sets other old with ⟨kept, prior, copied⟩
      exact ⟨kept, prior.trans front, copied⟩
    · rw [new]
      exact ⟨part, inside, copies⟩
  returned := by
    intro returned member
    rcases explained.returned returned member with ⟨place, word, token, alive, known⟩
    apply Exists.intro place
    apply And.intro (word_of_front front word)
    apply And.intro token
    constructor
    · intro j holder
      rw [List.length_set]
      exact alive j holder
    · intro j other otherThere entitled
      by_cases same : i = j
      · subst same
        rw [List.getElem?_set_self (List.getElem?_eq_some_iff.mp there).1] at otherThere
        cases otherThere
        exact grows place (known i set there entitled)
      · rw [List.getElem?_set_ne same] at otherThere
        exact (known j other otherThere entitled).mono front

theorem Explained.giveOut (explained : Explained words sys) {i place : Nat}
    (there : sys.sets[i]? = some set) (word : words[place]? = some str)
    (knows : Knows words place set) : Explained words { sys with returned :=
      sys.returned ++ [⟨some i, sys.sets.length, tokenStartMarker + place, str⟩] } where
  store := explained.store
  state := explained.state
  sets := explained.sets
  returned := by
    intro returned member
    rcases List.mem_append.mp member with old | new
    · exact explained.returned returned old
    · rw [List.mem_singleton.mp new]
      apply Exists.intro place
      apply And.intro word
      apply And.intro rfl
      constructor
      · intro j holder
        cases holder
        exact (List.getElem?_eq_some_iff.mp there).1
      · intro j other otherThere entitled
        rcases entitled with holder | after
        · cases holder
          rw [there] at otherThere
          cases otherThere
          exact knows
        · have bound := (List.getElem?_eq_some_iff.mp otherThere).1
          change sys.sets.length ≤ j at after
          change j < sys.sets.length at bound
          omega

theorem Explained.tokenFromString (explained : Explained words sys) (i : Nat) (str : MojString)
    (add : Bool) (write : TokenWrite) (spared : Spared sys (.tokenFromString i str add write)) :
    ∃ more, Explained more (sys.step (.tokenFromString i str add write)) := by
  cases opened : sys.state with
  | none => exact ⟨words, by simpa only [step, opened] using explained⟩
  | some state =>
    cases there : sys.sets[i]? with
    | none => exact ⟨words, by simpa only [step, opened, there] using explained⟩
    | some set =>
      have holds := explained.state state opened
      rcases explained.sets set (List.mem_of_getElem? there) with ⟨part, inside, copies⟩
      have unchanged : Explained words
          ⟨sys.store, some state, sys.sets.set i set, sys.returned⟩ :=
        explained.replaceSet (List.prefix_refl words) there inside copies (fun _ => id)
          explained.store holds
      have again : (sys.sets.set i set)[i]? = some set :=
        List.getElem?_set_self (List.getElem?_eq_some_iff.mp there).1
      by_cases own : str ∈ part
      · rcases List.getElem?_of_mem own with ⟨place, word⟩
        have kept := word_of_front inside word
        have given := unchanged.giveOut again kept
          ⟨part, inside, copies, (List.getElem?_eq_some_iff.mp word).1⟩
        have valid : tokenStartMarker + place ≠ invalidToken := by
          unfold tokenStartMarker invalidToken
          omega
        simp only [step, opened, there, copies.tokenFromString word, valid, if_false]
        rw [List.length_set] at given
        exact ⟨words, given⟩
      · have missing := copies.names.getToken_none own
        cases add with
        | false =>
          simp only [step, opened, there, MojTokenSet.tokenFromString, missing,
            Bool.false_eq_true, if_false, if_true]
          exact ⟨words, unchanged⟩
        | true =>
          rcases spared state opened set there with known | ⟨fresh, next⟩
          · exact absurd (copies.names.find_none own) known
          · have unknown : str ∉ words := by
              intro member
              rcases List.getElem?_of_mem member with ⟨place, word⟩
              rw [holds.names.placed word] at fresh
              cases fresh
            have room : words.length < 223 := by
              rw [holds.next] at next
              unfold tokenStartMarker at next
              omega
            rcases holds.addProp_new unknown room write sys.store with
              ⟨after, added, grown⟩ | ⟨_, err, after, refused, same⟩
            · have last : (words ++ [str])[words.length]? = some str :=
                List.getElem?_concat_length
              have taken := MojTokenSet.copies_tokenSet grown
              have knows := knows_of_copies taken last
              have recorded : MojDbKindState.Recorded (words ++ [str])
                  (some (MojDbKindState.record after.tokensObj)) :=
                ⟨after.tokensObj, grown.names, rfl⟩
              have replaced : Explained (words ++ [str]) ⟨_, some after,
                  sys.sets.set i after.tokenSet, sys.returned⟩ :=
                explained.replaceSet (List.prefix_append words [str]) there
                  (List.prefix_refl _) taken (fun place known => by
                    rcases known with ⟨front, within, _, bound⟩
                    have length := within.length_le
                    exact ⟨_, List.prefix_refl _, taken, by
                      rw [List.length_append]
                      omega⟩)
                  recorded grown
              have now : (sys.sets.set i after.tokenSet)[i]? = some after.tokenSet :=
                List.getElem?_set_self (List.getElem?_eq_some_iff.mp there).1
              have given := replaced.giveOut now last knows
              have valid : tokenStartMarker + words.length ≠ invalidToken := by
                unfold tokenStartMarker invalidToken
                omega
              simp only [step, opened, there, MojTokenSet.tokenFromString, missing, added,
                valid, if_true, if_false]
              rw [List.length_set] at given
              exact ⟨words ++ [str], given⟩
            · simp only [step, opened, there, MojTokenSet.tokenFromString, missing, refused,
                if_true]
              exact ⟨words, explained.replaceSet (List.prefix_refl words) there inside copies
                (fun _ => id) explained.store same⟩

theorem Explained.step (explained : Explained words sys) {event : TokenEvent}
    (spared : Spared sys event) : ∃ more, Explained more (sys.step event) := by
  cases event with
  | init strings write => exact explained.init strings write
  | tokenSet => exact ⟨words, explained.tokenSet⟩
  | tokenFromString i str add write => exact explained.tokenFromString i str add write spared

theorem Explained.run (explained : Explained words sys) {events : List TokenEvent}
    (spared : SparedRun sys events) : ∃ more, Explained more (sys.run events) := by
  induction events generalizing words sys with
  | nil => exact ⟨words, explained⟩
  | cons event events ih =>
    rcases explained.step spared.1 with ⟨more, next⟩
    exact ih next spared.2

/-- In every run without a call that the shared state answers from what it has, every token given
out stays readable. -/
theorem tokens_stay_readable (events : List TokenEvent) (spared : SparedRun closed events) :
    Readable (closed.run events) := by
  rcases explained_closed.run spared with ⟨words, explained⟩
  exact explained.readable

/-- Two sets taken before the first word: the second one to ask cannot read what it is told. -/
def lateAsker : List TokenEvent :=
  [.init [] .done, .tokenSet, .tokenSet,
    .tokenFromString 0 (chars "x".toList) true .done,
    .tokenFromString 1 (chars "x".toList) true .done]

theorem lateAsker_unreadable : ¬ Readable (closed.run lateAsker) := by
  intro readable
  have given : (closed.run lateAsker).returned[1]? =
      some ⟨some 1, 2, 32, chars "x".toList⟩ := by decide +kernel
  have lost : ((closed.run lateAsker).sets[1]?).map (fun set => set.stringFromToken 32) =
      some (.error .dbInvalidToken) := by decide +kernel
  rcases readable.own _ (List.mem_of_getElem? given) 1 rfl with ⟨set, there, read⟩
  rw [there, Option.map_some, read] at lost
  cases lost

/-- Two sets ask for words that are new to the kind, a write fails, and a third set is taken. -/
def askers : List TokenEvent :=
  [.init [chars "v".toList] .done, .tokenSet, .tokenSet,
    .tokenFromString 0 (chars "x".toList) true .done,
    .tokenFromString 1 (chars "y".toList) true .done,
    .tokenFromString 0 (chars "z".toList) true (.refused .dbDeadlock),
    .tokenSet, .tokenFromString 2 (chars "x".toList) true .done,
    .tokenFromString 0 (chars "v".toList) false .done]

theorem tokens_stay_readable_askers : Readable (closed.run askers) := by
  apply tokens_stay_readable
  decide +kernel

end TokenSystem

end Db8.Db
