import Db8.Core.Convert
import Db8.Core.PropMap

/-!
# The tokens of a kind

`MojDbKindState` keeps the property names and strings of a kind that are stored as one byte, in
memory and in a record of their own, and hands copies of the table to `MojTokenSet`s. A set asks its
copy first and the shared state behind it, which answers in four ways: known already, added now, not
written, no token left.
-/

set_option autoImplicit false

namespace Db8.Db

open Db8.Bytes
open Db8.Core

def tokenStartMarker : Nat := 32

def invalidToken : Nat := 0

/-- How the transaction that writes the record ends: committed, refused by the database, or not
committed after the new record was read back. -/
inductive TokenWrite where
  | done
  | refused (err : MojErr)
  | lost (err : MojErr)

structure MojDbKindState where
  tokensObj : List (MojString × MojObject)
  tokenVec : List MojString
  nextToken : Nat
  oldTokensItem : Option ByteString

structure MojTokenSet where
  tokenVec : List MojString
  obj : List (MojString × MojObject)

namespace MojDbKindState

def tokensKey : MojString := chars "tokens".toList

/-- `MojObject::get` of an unsigned number. -/
def getToken (props : List (MojString × MojObject)) (key : MojString) :
    Except MojErr (Option Nat) :=
  match MojObject.find props key with
  | none => .ok none
  | some val =>
    let number := val.intValue.toInt
    if 0 ≤ number ∧ number ≤ 0xFFFFFFFF then .ok (some number.toNat)
    else .error (.valueOutOfRange (key.map Subtype.val))

def recordObj : Option ByteString → Except MojErr MojObject
  | none => .ok (.object [])
  | some bytes => do
    let obj ← MojObject.fromBytes bytes
    .ok (obj.getD (.object []))

/-- `writeObj` in a transaction of its own: what becomes of the item kept and of the record. -/
def writeTokens (write : TokenWrite) (tokensObj : List (MojString × MojObject))
    (old store : Option ByteString) :
    Except MojErr Unit × Option ByteString × Option ByteString :=
  match recordObj old with
  | .error err => (.error err, old, store)
  | .ok obj =>
    let buf := (obj.put tokensKey (.object tokensObj)).toBytes
    match write with
    | .done => (.ok (), old <|> some buf, some buf)
    | .refused err => (.error err, old, store)
    | .lost err => (.error err, old <|> some buf, store)

/-- What `addPropImpl` gives back. -/
structure Added where
  token : Nat
  vec : List MojString
  obj : List (MojString × MojObject)

def addPropImpl (propName : MojString) (write : Option TokenWrite) (state : MojDbKindState)
    (store : Option ByteString) :
    Except MojErr Added × MojDbKindState × Option ByteString :=
  match getToken state.tokensObj propName with
  | .error err => (.error err, state, store)
  | .ok (some token) =>
    match mojAssert (decide (token ≤ 255)) "token <= MojUInt8Max" with
    | .error err => (.error err, state, store)
    | .ok () => (.ok ⟨token, [], []⟩, state, store)
  | .ok none =>
    if state.nextToken < 255 then
      let obj := MojObject.putProp propName (.int (BitVec.ofNat 64 state.nextToken)) state.tokensObj
      let tokenVec := state.tokenVec ++ [propName]
      match write with
      | none =>
        (.ok ⟨state.nextToken, tokenVec, obj⟩,
          ⟨obj, tokenVec, state.nextToken + 1, state.oldTokensItem⟩, store)
      | some write =>
        match writeTokens write obj state.oldTokensItem store with
        | (.error err, old, store) => (.error err, { state with oldTokensItem := old }, store)
        | (.ok (), old, store) =>
          (.ok ⟨state.nextToken, tokenVec, obj⟩, ⟨obj, tokenVec, state.nextToken + 1, old⟩,
            store)
    else (.ok ⟨invalidToken, [], []⟩, state, store)

/-- The loop of `initTokens` over the properties of the record. -/
def placeTokens : List (MojString × MojObject) → List MojString → Nat →
    Except MojErr (List MojString × Nat)
  | [], tokenVec, maxToken => .ok (tokenVec, maxToken)
  | (key, val) :: props, tokenVec, maxToken =>
    let value := val.intValue.toInt
    let idx := (value - tokenStartMarker).toNat
    if value < tokenStartMarker ∨ 255 ≤ value ∨ tokenVec.length ≤ idx then
      .error .dbInvalidToken
    else placeTokens props (tokenVec.set idx key) (max maxToken value.toNat)

/-- `initTokens` up to the record's own tokens. -/
def loadTokens (store : Option ByteString) : Except MojErr MojDbKindState := do
  let obj ← recordObj store
  let tokensObj := ((obj.get tokensKey).getD (.object [])).map
  let (tokenVec, maxToken) ← placeTokens tokensObj (List.replicate tokensObj.length []) 0
  .ok ⟨tokensObj, tokenVec, if 0 < maxToken then maxToken + 1 else tokenStartMarker, store⟩

def addStrings : List MojString → MojDbKindState → Bool → Except MojErr (MojDbKindState × Bool)
  | [], state, updated => .ok (state, updated)
  | str :: strings, state, updated =>
    if (MojObject.find state.tokensObj str).isSome then addStrings strings state updated
    else do
      let (added, state, _) := addPropImpl str none state none
      let _ ← added
      addStrings strings state true

/-- `initTokens`, with the record it leaves. -/
def initTokens (strings : List MojString) (write : TokenWrite) (store : Option ByteString) :
    Except MojErr MojDbKindState × Option ByteString :=
  match loadTokens store >>= fun state => addStrings strings state false with
  | .error err => (.error err, store)
  | .ok (state, false) => (.ok state, store)
  | .ok (state, true) =>
    match writeTokens write state.tokensObj state.oldTokensItem store with
    | (.error err, _, store) => (.error err, store)
    | (.ok (), old, store) => (.ok { state with oldTokensItem := old }, store)

/-- `MojTokenSet::init`. -/
def tokenSet (state : MojDbKindState) : MojTokenSet := ⟨state.tokenVec, state.tokensObj⟩

end MojDbKindState

namespace MojTokenSet

def tokenFromString (set : MojTokenSet) (str : MojString) (add : Bool) (write : TokenWrite)
    (state : MojDbKindState) (store : Option ByteString) :
    Except MojErr Nat × MojTokenSet × MojDbKindState × Option ByteString :=
  match MojDbKindState.getToken set.obj str with
  | .error err => (.error err, set, state, store)
  | .ok (some token) =>
    match mojAssert (decide (token ≤ 255 ∧ token ≠ invalidToken))
        "token <= MojUInt8Max && token != InvalidToken" with
    | .error err => (.error err, set, state, store)
    | .ok () => (.ok token, set, state, store)
  | .ok none =>
    if add then
      match state.addPropImpl str (some write) store with
      | (.error err, state, store) => (.error err, set, state, store)
      | (.ok added, state, store) => (.ok added.token, ⟨added.vec, added.obj⟩, state, store)
    else (.ok invalidToken, set, state, store)

def stringFromToken (set : MojTokenSet) (token : Nat) : Except MojErr MojString :=
  match set.tokenVec[token - tokenStartMarker]? with
  | some str => if token < tokenStartMarker then .error .dbInvalidToken else .ok str
  | none => .error .dbInvalidToken

end MojTokenSet

/-! ### The table as a list of words -/

namespace MojDbKindState

def tokenVal (place : Nat) : MojObject := .int (BitVec.ofNat 64 (tokenStartMarker + place))

/-- A map that sends each of some words to its place, and nothing else to anything. -/
structure Names (words : List MojString) (props : List (MojString × MojObject)) : Prop where
  sorted : MojObject.Sorted props
  length : props.length = words.length
  fits : words.length ≤ 223
  placed : ∀ {str : MojString} {place : Nat}, words[place]? = some str →
    MojObject.find props str = some (tokenVal place)
  known : ∀ {str : MojString} {val : MojObject}, MojObject.find props str = some val →
    ∃ place : Nat, words[place]? = some str

/-- The record of a kind: none yet, or its tokens under their key. -/
def record (tokensObj : List (MojString × MojObject)) : ByteString :=
  (MojObject.object [(tokensKey, .object tokensObj)]).toBytes

def Recorded (words : List MojString) : Option ByteString → Prop
  | none => words = []
  | some bytes => ∃ tokensObj, Names words tokensObj ∧ bytes = record tokensObj

/-- A state in memory that knows some words, whatever record it read last. -/
structure Holds (words : List MojString) (state : MojDbKindState) : Prop where
  names : Names words state.tokensObj
  vec : state.tokenVec = words
  next : state.nextToken = tokenStartMarker + words.length
  old : ∃ earlier, Recorded earlier state.oldTokensItem

theorem intValue_tokenVal {place : Nat} (small : place < 223) :
    (tokenVal place).intValue.toInt = tokenStartMarker + place := by
  unfold tokenVal tokenStartMarker MojObject.intValue
  rw [BitVec.toInt_eq_toNat_of_lt] <;> rw [BitVec.toNat_ofNat] <;> omega

theorem names_nil : Names [] [] where
  sorted := MojObject.sorted_nil
  length := rfl
  fits := Nat.zero_le _
  placed := by simp
  known := by simp

variable {words : List MojString}

theorem lt_of_word {str : MojString} {place : Nat}
    (word : words[place]? = some str) : place < words.length :=
  (List.getElem?_eq_some_iff.mp word).1

section Words

variable {words : List MojString} {props : List (MojString × MojObject)} (names : Names words props)
include names

variable {str : MojString}

theorem Names.place_unique {place other : Nat} (word : words[place]? = some str)
    (again : words[other]? = some str) : place = other := by
  have fits := names.fits
  have first := lt_of_word word
  have second := lt_of_word again
  have vals : tokenVal place = tokenVal other :=
    Option.some.inj ((names.placed word).symm.trans (names.placed again))
  have numbers := congrArg (fun val => val.intValue.toInt) vals
  rw [intValue_tokenVal (by omega), intValue_tokenVal (by omega)] at numbers
  omega

theorem Names.getToken_word {place : Nat} (word : words[place]? = some str) :
    getToken props str = .ok (some (tokenStartMarker + place)) := by
  have fits := names.fits
  have inside := lt_of_word word
  have number := intValue_tokenVal (show place < 223 by omega)
  rw [getToken, names.placed word]
  simp only
  rw [number, if_pos (by unfold tokenStartMarker; omega)]
  rfl

theorem Names.getToken_none (unknown : str ∉ words) : getToken props str = .ok none := by
  rw [getToken]
  cases found : MojObject.find props str with
  | none => rfl
  | some val =>
    rcases names.known found with ⟨place, word⟩
    exact absurd (List.mem_of_getElem? word) unknown

theorem Names.find_none (unknown : str ∉ words) : MojObject.find props str = none := by
  cases found : MojObject.find props str with
  | none => rfl
  | some val =>
    rcases names.known found with ⟨place, word⟩
    exact absurd (List.mem_of_getElem? word) unknown

theorem Names.append (unknown : str ∉ words) (room : words.length < 223) :
    Names (words ++ [str]) (MojObject.putProp str (tokenVal words.length) props) where
  sorted := MojObject.sorted_putProp names.sorted str _
  length := by
    rw [MojObject.length_putProp (names.find_none unknown), names.length, List.length_append,
      List.length_singleton]
  fits := by
    rw [List.length_append, List.length_singleton]
    omega
  placed := by
    intro other place word
    rw [MojObject.find_putProp]
    rcases Nat.lt_or_ge place words.length with old | new
    · rw [List.getElem?_append_left old] at word
      have apart : str ≠ other := fun same => unknown (same ▸ List.mem_of_getElem? word)
      rw [if_neg apart, names.placed word]
    · rw [List.getElem?_append_right new] at word
      rcases List.getElem?_eq_some_iff.mp word with ⟨bound, last⟩
      rw [List.length_singleton] at bound
      rw [List.getElem_singleton] at last
      have here : place = words.length := by omega
      rw [if_pos last, here]
  known := by
    intro other val found
    rw [MojObject.find_putProp] at found
    split_ifs at found with same
    · exact ⟨words.length, by rw [← same, List.getElem?_concat_length]⟩
    · rcases names.known found with ⟨place, word⟩
      exact ⟨place, by rw [List.getElem?_append_left (lt_of_word word), word]⟩

theorem Names.wellFormed : (MojObject.object [(tokensKey, .object props)]).WellFormed := by
  have vals : MojObject.WellFormedProps props := by
    rw [MojObject.wellFormedProps_iff]
    rintro ⟨str, val⟩ member
    have found := MojObject.find_of_mem names.sorted member
    rcases names.known found with ⟨place, word⟩
    rw [names.placed word] at found
    cases found
    trivial
  simp only [MojObject.WellFormed, MojObject.WellFormedProps, List.map_cons, List.map_nil,
    List.pairwise_singleton, true_and, and_true]
  exact ⟨names.sorted, vals⟩

theorem Names.recordObj_record :
    recordObj (some (record props)) = .ok (.object [(tokensKey, .object props)]) := by
  have read := MojObject.fromBytes_toBytes ⟨_, names.wellFormed⟩
  rw [recordObj, record, read]
  rfl

/-- The loop over the record puts every word of it in its place and finds the greatest token. -/
theorem Names.placeTokens (rest : List (MojString × MojObject)) (subset : ∀ prop ∈ rest, prop ∈ props)
    (vec : List MojString) (length : vec.length = words.length) (maxToken : Nat) :
    ∃ filled top, MojDbKindState.placeTokens rest vec maxToken = .ok (filled, top) ∧
      filled.length = words.length ∧
      (∀ (place : Nat) (str : MojString), words[place]? = some str →
        filled[place]? = some str ∨
          filled[place]? = vec[place]? ∧ ∀ prop ∈ rest, prop.1 ≠ str) ∧
      maxToken ≤ top ∧
      (∀ prop ∈ rest, ∀ place : Nat, words[place]? = some prop.1 → tokenStartMarker + place ≤ top) ∧
      (top = maxToken ∨ ∃ place, place < words.length ∧ top = tokenStartMarker + place) := by
  induction rest generalizing vec maxToken with
  | nil =>
    exact ⟨vec, maxToken, rfl, length, fun place str word => Or.inr ⟨rfl, by simp⟩, le_refl _,
      by simp, Or.inl rfl⟩
  | cons head rest ih =>
    rcases head with ⟨key, val⟩
    have found := MojObject.find_of_mem names.sorted (subset _ List.mem_cons_self)
    rcases names.known found with ⟨place, word⟩
    rw [names.placed word] at found
    cases found
    have fits := names.fits
    have inside := lt_of_word word
    have number := intValue_tokenVal (show place < 223 by omega)
    have idx : ((tokenVal place).intValue.toInt - tokenStartMarker).toNat = place := by omega
    have value : (tokenVal place).intValue.toInt.toNat = tokenStartMarker + place := by omega
    rcases ih (fun prop member => subset prop (List.mem_cons_of_mem _ member)) (vec.set place key)
      (by rw [List.length_set, length]) (max maxToken (tokenStartMarker + place)) with
      ⟨filled, top, run, filledLength, filledAt, above, covers, reached⟩
    have start : tokenStartMarker = 32 := rfl
    apply Exists.intro filled
    apply Exists.intro top
    constructor
    · rw [MojDbKindState.placeTokens]
      rw [idx, value, if_neg (by omega), run]
    constructor
    · exact filledLength
    constructor
    · intro other str otherWord
      rcases filledAt other str otherWord with done | ⟨kept, absent⟩
      · exact Or.inl done
      · by_cases same : other = place
        · rw [same] at otherWord kept ⊢
          rw [word] at otherWord
          cases otherWord
          rw [List.getElem?_set_self (by omega)] at kept
          exact Or.inl kept
        · rw [List.getElem?_set_ne (Ne.symm same)] at kept
          apply Or.inr
          apply And.intro kept
          intro prop member
          rcases List.mem_cons.mp member with rfl | later
          · intro equal
            exact same (names.place_unique otherWord (equal ▸ word))
          · exact absent prop later
    constructor
    · omega
    constructor
    · intro prop member other otherWord
      rcases List.mem_cons.mp member with rfl | later
      · have here := names.place_unique word otherWord
        omega
      · exact covers prop later other otherWord
    · rcases reached with start | other
      · rcases Nat.le_total maxToken (tokenStartMarker + place) with less | more
        · exact Or.inr ⟨place, inside, by omega⟩
        · exact Or.inl (by omega)
      · exact Or.inr other

end Words

variable {old : Option ByteString}

theorem Recorded.obj {earlier : List MojString} (recorded : Recorded earlier old) :
    ∃ obj, recordObj old = .ok obj ∧ ∀ props, (obj.put tokensKey (.object props)).toBytes =
      record props := by
  cases old with
  | none => exact ⟨.object [], rfl, fun props => rfl⟩
  | some bytes =>
    rcases recorded with ⟨kept, names, rfl⟩
    apply Exists.intro (.object [(tokensKey, .object kept)])
    apply And.intro names.recordObj_record
    intro props
    rw [record, MojObject.put, MojObject.map, MojObject.putProp, if_pos rfl]

theorem recorded_orElse {earlier words : List MojString} {props : List (MojString × MojObject)}
    (names : Names words props) (recorded : Recorded earlier old) :
    ∃ last, Recorded last (old <|> some (record props)) := by
  cases old with
  | none => exact ⟨words, props, names, rfl⟩
  | some bytes => exact ⟨earlier, recorded⟩

theorem writeTokens_cases {earlier words : List MojString} {props : List (MojString × MojObject)}
    (names : Names words props) (recorded : Recorded earlier old) (write : TokenWrite)
    (store : Option ByteString) :
    ∃ kept, (∃ last, Recorded last kept) ∧
      ((writeTokens write props old store = (.ok (), kept, some (record props))) ∨
        (write ≠ .done ∧ ∃ err, writeTokens write props old store = (.error err, kept, store))) := by
  rcases recorded.obj with ⟨obj, read, bytes⟩
  have kept := recorded_orElse names recorded
  unfold writeTokens
  rw [read]
  simp only [bytes]
  cases write with
  | done => exact ⟨_, kept, Or.inl rfl⟩
  | refused err => exact ⟨old, ⟨earlier, recorded⟩, Or.inr ⟨by simp, err, rfl⟩⟩
  | lost err => exact ⟨_, kept, Or.inr ⟨by simp, err, rfl⟩⟩

section Adding

variable {words : List MojString} {state : MojDbKindState} (holds : Holds words state)
include holds

variable {str : MojString}

theorem Holds.addProp_known {place : Nat} (word : words[place]? = some str)
    (write : Option TokenWrite) (store : Option ByteString) :
    addPropImpl str write state store = (.ok ⟨tokenStartMarker + place, [], []⟩, state, store) := by
  have fits := holds.names.fits
  have inside := lt_of_word word
  have byte : tokenStartMarker + place ≤ 255 := by
    unfold tokenStartMarker
    omega
  simp only [addPropImpl, holds.names.getToken_word word, mojAssert, byte, decide_true, if_true]

theorem Holds.addProp_full (unknown : str ∉ words) (full : words.length = 223)
    (write : Option TokenWrite) (store : Option ByteString) :
    addPropImpl str write state store = (.ok ⟨invalidToken, [], []⟩, state, store) := by
  have next : ¬ state.nextToken < 255 := by
    rw [holds.next, full]
    decide
  simp only [addPropImpl, holds.names.getToken_none unknown, next, if_false]

theorem Holds.grow (unknown : str ∉ words) (room : words.length < 223) {old : Option ByteString}
    (recorded : ∃ last, Recorded last old) :
    Holds (words ++ [str]) ⟨MojObject.putProp str (.int (BitVec.ofNat 64 state.nextToken))
      state.tokensObj, state.tokenVec ++ [str], state.nextToken + 1, old⟩ where
  names := by
    have names := holds.names.append unknown room
    rw [tokenVal, ← holds.next] at names
    exact names
  vec := by rw [holds.vec]
  next := by
    rw [holds.next, List.length_append, List.length_singleton]
    rfl
  old := recorded

/-- A new word while there are tokens left is added, or refused with the tokens as they were. -/
theorem Holds.addProp_new (unknown : str ∉ words) (room : words.length < 223) (write : TokenWrite)
    (store : Option ByteString) :
    (∃ after, addPropImpl str (some write) state store =
        (.ok ⟨tokenStartMarker + words.length, after.tokenVec, after.tokensObj⟩, after,
          some (record after.tokensObj)) ∧ Holds (words ++ [str]) after) ∨
      (write ≠ .done ∧ ∃ err after, addPropImpl str (some write) state store =
        (.error err, after, store) ∧ Holds words after) := by
  have next : state.nextToken < 255 := by
    rw [holds.next]
    unfold tokenStartMarker
    omega
  rcases holds.old with ⟨earlier, recorded⟩
  have grown := (holds.grow unknown room ⟨earlier, recorded⟩).names
  rcases writeTokens_cases grown recorded write store with ⟨kept, last, wrote | ⟨failed, err, wrote⟩⟩
  · left
    apply Exists.intro ⟨MojObject.putProp str (.int (BitVec.ofNat 64 state.nextToken))
      state.tokensObj, state.tokenVec ++ [str], state.nextToken + 1, kept⟩
    constructor
    · simp only [addPropImpl, holds.names.getToken_none unknown, next, if_true, wrote]
      rw [← holds.next]
    · exact holds.grow unknown room last
  · right
    apply And.intro failed
    apply Exists.intro err
    apply Exists.intro { state with oldTokensItem := kept }
    constructor
    · simp only [addPropImpl, holds.names.getToken_none unknown, next, if_true, wrote]
    · exact ⟨holds.names, holds.vec, holds.next, last⟩

theorem Holds.addProp_unwritten (unknown : str ∉ words) (room : words.length < 223)
    (store : Option ByteString) :
    ∃ added after, addPropImpl str none state store = (.ok added, after, store) ∧
      Holds (words ++ [str]) after := by
  have next : state.nextToken < 255 := by
    rw [holds.next]
    unfold tokenStartMarker
    omega
  apply Exists.intro
  apply Exists.intro
  constructor
  · simp only [addPropImpl, holds.names.getToken_none unknown, next, if_true]
    rfl
  · exact holds.grow unknown room holds.old

end Adding

theorem Recorded.loadTokens {store : Option ByteString} (recorded : Recorded words store) :
    ∃ state, MojDbKindState.loadTokens store = .ok state ∧ Holds words state := by
  cases store with
  | none =>
    have empty : words = [] := recorded
    subst empty
    exact ⟨⟨[], [], tokenStartMarker, none⟩, rfl, names_nil, rfl, rfl, [], rfl⟩
  | some bytes =>
    rcases recorded with ⟨props, names, rfl⟩
    have length : (List.replicate props.length ([] : MojString)).length = words.length := by
      rw [List.length_replicate, names.length]
    rcases names.placeTokens props (fun _ member => member) _ length 0 with
      ⟨filled, top, run, filledLength, filledAt, _, covers, reached⟩
    have member : ∀ {place : Nat} {str : MojString}, words[place]? = some str →
        (str, tokenVal place) ∈ props :=
      fun word => MojObject.mem_of_find (names.placed word)
    have vec : filled = words := by
      apply List.ext_getElem? 
      intro place
      cases word : words[place]? with
      | none =>
        rw [List.getElem?_eq_none_iff] at word ⊢
        omega
      | some str =>
        rcases filledAt place str word with done | ⟨_, absent⟩
        · exact done
        · exact absurd rfl (absent _ (member word))
    have next : (if 0 < top then top + 1 else tokenStartMarker) =
        tokenStartMarker + words.length := by
      have start : tokenStartMarker = 32 := rfl
      rcases Nat.eq_zero_or_pos words.length with none | some
      · rcases reached with zero | ⟨place, inside, _⟩
        · rw [zero, if_neg (lt_irrefl 0)]
          omega
        · omega
      · have last := List.getElem?_eq_getElem (show words.length - 1 < words.length by omega)
        have covered := covers _ (member last) _ last
        rcases reached with zero | ⟨place, inside, at_place⟩
        · omega
        · rw [if_pos (by omega)]
          omega
    apply Exists.intro ⟨props, filled, if 0 < top then top + 1 else tokenStartMarker,
      some (record props)⟩
    constructor
    · have found : (MojObject.object [(tokensKey, .object props)]).get tokensKey =
          some (.object props) := by
        rw [MojObject.get, MojObject.map, MojObject.find_cons, if_pos rfl]
      unfold MojDbKindState.loadTokens
      rw [names.recordObj_record]
      change (MojDbKindState.placeTokens ((MojObject.get _ tokensKey).getD _).map _ 0 >>=
        fun placed => _) = _
      rw [found]
      change (MojDbKindState.placeTokens props (List.replicate props.length []) 0 >>=
        fun placed => _) = _
      rw [run]
      rfl
    · exact ⟨names, vec, next, words, props, names, rfl⟩

theorem Holds.addStrings {state : MojDbKindState} (holds : Holds words state)
    (strings : List MojString) (updated : Bool) :
    ∃ more after changed, MojDbKindState.addStrings strings state updated = .ok (after, changed) ∧
      Holds (words ++ more) after ∧ (more ≠ [] → changed = true) ∧
      (updated = true → changed = true) := by
  induction strings generalizing words state updated with
  | nil =>
    apply Exists.intro []
    rw [List.append_nil]
    exact ⟨state, updated, rfl, holds, fun some => absurd rfl some, id⟩
  | cons str strings ih =>
    by_cases member : str ∈ words
    · rcases List.getElem?_of_mem member with ⟨place, word⟩
      have known : (MojObject.find state.tokensObj str).isSome = true := by
        rw [holds.names.placed word]
        rfl
      rw [MojDbKindState.addStrings, if_pos known]
      exact ih holds updated
    · have unknown : ¬ (MojObject.find state.tokensObj str).isSome = true := by
        simp [holds.names.find_none member]
      rw [MojDbKindState.addStrings, if_neg unknown]
      rcases Nat.lt_or_ge words.length 223 with room | full
      · rcases holds.addProp_unwritten member room none with ⟨added, after, ran, grown⟩
        rcases ih grown true with ⟨more, last, changed, run, held, _, kept⟩
        rw [ran]
        apply Exists.intro (str :: more)
        rw [← List.append_cons] at held
        exact ⟨last, changed, run, held, fun _ => kept rfl, fun _ => kept rfl⟩
      · have fits := holds.names.fits
        rw [holds.addProp_full member (by omega)]
        rcases ih holds true with ⟨more, last, changed, run, held, _, kept⟩
        exact ⟨more, last, changed, run, held, fun _ => kept rfl, fun _ => kept rfl⟩

/-- Opening a kind leaves its record with the words of the state, or fails and leaves the record. -/
theorem Recorded.initTokens {store : Option ByteString} (recorded : Recorded words store)
    (strings : List MojString) (write : TokenWrite) :
    (∃ more state after, MojDbKindState.initTokens strings write store = (.ok state, after) ∧
        Holds (words ++ more) state ∧ Recorded (words ++ more) after) ∨
      (write ≠ .done ∧ ∃ err, MojDbKindState.initTokens strings write store = (.error err, store)) := by
  rcases recorded.loadTokens with ⟨loaded, load, holds⟩
  rcases holds.addStrings strings false with ⟨more, state, changed, add, held, fresh, _⟩
  have both : (MojDbKindState.loadTokens store >>= fun state =>
      MojDbKindState.addStrings strings state false) = .ok (state, changed) := by
    rw [load]
    exact add
  unfold MojDbKindState.initTokens
  rw [both]
  cases changed with
  | false =>
    have none : more = [] := by
      by_contra some
      exact absurd (fresh some) (by simp)
    subst none
    rw [List.append_nil] at held
    left
    apply Exists.intro []
    rw [List.append_nil]
    exact ⟨state, store, rfl, held, recorded⟩
  | true =>
    rcases held.old with ⟨earlier, old⟩
    rcases writeTokens_cases held.names old write store with
      ⟨kept, last, wrote | ⟨failed, err, wrote⟩⟩
    · left
      apply Exists.intro more
      simp only [wrote]
      exact ⟨_, _, rfl, ⟨held.names, held.vec, held.next, last⟩, _, held.names, rfl⟩
    · right
      apply And.intro failed
      simp only [wrote]
      exact ⟨err, rfl⟩

end MojDbKindState

namespace MojTokenSet

structure Copies (words : List MojString) (set : MojTokenSet) : Prop where
  vec : set.tokenVec = words
  names : MojDbKindState.Names words set.obj

theorem Copies.stringFromToken {words : List MojString} {set : MojTokenSet}
    (copies : Copies words set) {str : MojString} {place : Nat} (word : words[place]? = some str) :
    set.stringFromToken (tokenStartMarker + place) = .ok str := by
  rw [MojTokenSet.stringFromToken, copies.vec, Nat.add_sub_cancel_left, word]
  exact if_neg (by omega)

theorem copies_tokenSet {words : List MojString} {state : MojDbKindState}
    (holds : MojDbKindState.Holds words state) : Copies words state.tokenSet :=
  ⟨holds.vec, holds.names⟩

/-- A word of the set's own copy gets its token without the shared state. -/
theorem Copies.tokenFromString {words : List MojString} {set : MojTokenSet}
    (copies : Copies words set) {str : MojString} {place : Nat} (word : words[place]? = some str)
    (add : Bool) (write : TokenWrite) (state : MojDbKindState) (store : Option ByteString) :
    set.tokenFromString str add write state store =
      (.ok (tokenStartMarker + place), set, state, store) := by
  have fits := copies.names.fits
  have inside := MojDbKindState.lt_of_word word
  have byte : tokenStartMarker + place ≤ 255 ∧ tokenStartMarker + place ≠ invalidToken := by
    unfold tokenStartMarker invalidToken
    omega
  simp only [MojTokenSet.tokenFromString, copies.names.getToken_word word, mojAssert, byte,
    decide_true, if_true, ne_eq, not_false_eq_true, and_self]

end MojTokenSet

end Db8.Db
