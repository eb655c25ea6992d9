import Db8.Db.ObjectHeader

/-!
# Reading back what is stored

The bytes of an object stand for it with the words its kind has when they are written, and with any
more words that come later: a place once taken is kept. Reading them with such a table makes the
calls of the object, and the builder puts the four properties of the header back among the others.
-/

set_option autoImplicit false

namespace Db8.Db

open Db8.Bytes
open Db8.Core

/-! ### The words of a kind over any run -/

namespace TokenSystem

structure Kept (words : List MojString) (sys : TokenSystem) : Prop where
  store : MojDbKindState.Recorded words sys.store
  state : ∀ state, sys.state = some state → state.Holds words

end TokenSystem

namespace MojDbKindState

open MojTokenSet

/-- Whatever is asked for, the words of a kind stay where they are; the table given back is that of
some first words, maybe of none. -/
theorem Holds.addProp {words : List MojString} {state : MojDbKindState} (holds : Holds words state)
    {store : Option ByteString} (recorded : Recorded words store) (str : MojString)
    (write : TokenWrite) : ∃ result after kept more,
      addPropImpl str (some write) state store = (result, after, kept) ∧ words <+: more ∧
      Holds more after ∧ Recorded more kept ∧ ∀ added, result = .ok added →
        (∃ part, part <+: more ∧ Copies part ⟨added.vec, added.obj⟩) ∧
        (added.token = invalidToken ∨
          ∃ place, more[place]? = some str ∧ added.token = tokenStartMarker + place) := by
  have nothing : ∃ part, part <+: words ∧ Copies part ⟨[], []⟩ :=
    ⟨[], List.nil_prefix, rfl, names_nil⟩
  by_cases member : str ∈ words
  · rcases List.getElem?_of_mem member with ⟨place, word⟩
    refine ⟨_, state, store, words, holds.addProp_known word (some write) store,
      List.prefix_refl words, holds, recorded, ?_⟩
    intro added ended
    cases ended
    exact ⟨nothing, Or.inr ⟨place, word, rfl⟩⟩
  · rcases Nat.lt_or_ge words.length 223 with room | full
    · rcases holds.addProp_new member room write store with
        ⟨after, added, grown⟩ | ⟨_, err, after, refused, same⟩
      · refine ⟨_, after, _, words ++ [str], added, List.prefix_append words [str], grown,
          ⟨after.tokensObj, grown.names, rfl⟩, ?_⟩
        intro given ended
        cases ended
        constructor
        · exact ⟨_, List.prefix_refl _, copies_tokenSet grown⟩
        · exact Or.inr ⟨words.length, List.getElem?_concat_length, rfl⟩
      · refine ⟨_, after, store, words, refused, List.prefix_refl words, same, recorded, ?_⟩
        intro given ended
        cases ended
    · have fits := holds.names.fits
      refine ⟨_, state, store, words, holds.addProp_full member (by omega) (some write) store,
        List.prefix_refl words, holds, recorded, ?_⟩
      intro added ended
      cases ended
      exact ⟨nothing, Or.inl rfl⟩

end MojDbKindState

namespace TokenSystem

theorem Kept.step {words : List MojString} {sys : TokenSystem} (kept : Kept words sys)
    (event : TokenEvent) : ∃ more, words <+: more ∧ Kept more (sys.step event) := by
  cases event with
  | init strings write =>
    rcases kept.store.initTokens strings write with
      ⟨more, state, store, opened, holds, recorded⟩ | ⟨_, err, refused⟩
    · apply Exists.intro (words ++ more)
      apply And.intro (List.prefix_append words more)
      simp only [TokenSystem.step, opened]
      exact ⟨recorded, fun _ same => Option.some.inj same ▸ holds⟩
    · apply Exists.intro words
      apply And.intro (List.prefix_refl words)
      simp only [TokenSystem.step, refused]
      exact ⟨kept.store, by simp⟩
  | tokenSet =>
    apply Exists.intro words
    apply And.intro (List.prefix_refl words)
    cases opened : sys.state with
    | none => simpa only [TokenSystem.step, opened] using kept
    | some state =>
      simp only [TokenSystem.step, opened]
      exact ⟨kept.store, fun other same => kept.state other (opened.trans same)⟩
  | tokenFromString i str add write =>
    cases opened : sys.state with
    | none =>
      exact ⟨words, List.prefix_refl words, by simpa only [TokenSystem.step, opened] using kept⟩
    | some state =>
      cases there : sys.sets[i]? with
      | none =>
        refine ⟨words, List.prefix_refl words, ?_⟩
        simpa only [TokenSystem.step, opened, there] using kept
      | some set =>
        have holds := kept.state state opened
        have asked : ∃ result set' state' store' more,
            set.tokenFromString str add write state sys.store =
              (result, set', state', store') ∧ words <+: more ∧ state'.Holds more ∧
              MojDbKindState.Recorded more store' := by
          have same : words <+: words := List.prefix_refl words
          rcases holds.addProp kept.store str write with
            ⟨result, after, store, more, ran, front, grown, recorded, _⟩
          unfold MojTokenSet.tokenFromString
          split
          · exact ⟨_, _, _, _, words, rfl, same, holds, kept.store⟩
          · split <;> exact ⟨_, _, _, _, words, rfl, same, holds, kept.store⟩
          · split
            · rw [ran]
              cases result <;> exact ⟨_, _, _, _, more, rfl, front, grown, recorded⟩
            · exact ⟨_, _, _, _, words, rfl, same, holds, kept.store⟩
        rcases asked with ⟨result, after, state', store', more, ran, front, grown, recorded⟩
        refine ⟨more, front, ?_⟩
        simp only [TokenSystem.step, opened, there, ran]
        cases result <;>
          exact ⟨recorded, fun _ same => Option.some.inj same ▸ grown⟩

theorem Kept.run {words : List MojString} {sys : TokenSystem} (kept : Kept words sys)
    (events : List TokenEvent) : ∃ more, words <+: more ∧ Kept more (sys.run events) := by
  induction events generalizing words sys with
  | nil => exact ⟨words, List.prefix_refl words, kept⟩
  | cons event events ih =>
    rcases kept.step event with ⟨more, front, next⟩
    rcases ih next with ⟨last, further, ended⟩
    exact ⟨last, front.trans further, ended⟩

theorem kept_closed : Kept [] closed := ⟨rfl, by simp [closed]⟩

end TokenSystem

/-! ### Bytes that stand for an object -/

/-- A string stands for itself, or a byte for the word in its place. -/
def EncodesString (words : List MojString) (val : MojString) (bytes : ByteString) : Prop :=
  bytes = MojObjectWriter.stringValue (MojObjectWriter.charBytes val) ∨
    ∃ place, words[place]? = some val ∧ place < 223 ∧
      bytes = [Fin.ofNat 256 (tokenStartMarker + place)]

mutual

def Encodes (words : List MojString) : MojObject → ByteString → Prop
  | .object props, bytes => ∃ rest, bytes = 2 :: rest ∧ EncodesProps words props rest
  | .array vals, bytes => ∃ rest, bytes = 3 :: rest ∧ EncodesVals words vals rest
  | .string val, bytes => EncodesString words val bytes
  | .null, bytes => bytes = MojObjectWriter.value .null
  | .bool val, bytes => bytes = MojObjectWriter.value (.bool val)
  | .decimal rep, bytes => bytes = MojObjectWriter.value (.decimal rep)
  | .int val, bytes => bytes = MojObjectWriter.value (.int val)

def EncodesProps (words : List MojString) : List (MojString × MojObject) → ByteString → Prop
  | [], bytes => bytes = [0]
  | (name, val) :: props, bytes => ∃ nameBytes valBytes rest,
      bytes = nameBytes ++ (valBytes ++ rest) ∧ EncodesString words name nameBytes ∧
      Encodes words val valBytes ∧ EncodesProps words props rest

def EncodesVals (words : List MojString) : List MojObject → ByteString → Prop
  | [], bytes => bytes = [0]
  | val :: vals, bytes => ∃ valBytes rest, bytes = valBytes ++ rest ∧
      Encodes words val valBytes ∧ EncodesVals words vals rest

end

theorem EncodesString.mono {words more : List MojString} (front : words <+: more) {val : MojString}
    {bytes : ByteString} (encodes : EncodesString words val bytes) :
    EncodesString more val bytes := by
  rcases encodes with plain | ⟨place, word, small, byte⟩
  · exact Or.inl plain
  · exact Or.inr ⟨place, TokenSystem.word_of_front front word, small, byte⟩

mutual

theorem Encodes.mono {words more : List MojString} (front : words <+: more) (obj : MojObject)
    {bytes : ByteString} (encodes : Encodes words obj bytes) : Encodes more obj bytes := by
  match obj with
  | .null | .bool _ | .decimal _ | .int _ => exact encodes
  | .string val => exact EncodesString.mono front encodes
  | .object props =>
    rcases encodes with ⟨rest, shape, inside⟩
    exact ⟨rest, shape, EncodesProps.mono front props inside⟩
  | .array vals =>
    rcases encodes with ⟨rest, shape, inside⟩
    exact ⟨rest, shape, EncodesVals.mono front vals inside⟩

theorem EncodesProps.mono {words more : List MojString} (front : words <+: more)
    (props : List (MojString × MojObject)) {bytes : ByteString}
    (encodes : EncodesProps words props bytes) : EncodesProps more props bytes := by
  match props with
  | [] => exact encodes
  | (name, val) :: props =>
    rcases encodes with ⟨nameBytes, valBytes, rest, shape, named, valued, others⟩
    exact ⟨nameBytes, valBytes, rest, shape, named.mono front, Encodes.mono front val valued,
      EncodesProps.mono front props others⟩

theorem EncodesVals.mono {words more : List MojString} (front : words <+: more)
    (vals : List MojObject) {bytes : ByteString} (encodes : EncodesVals words vals bytes) :
    EncodesVals more vals bytes := by
  match vals with
  | [] => exact encodes
  | val :: vals =>
    rcases encodes with ⟨valBytes, rest, shape, valued, others⟩
    exact ⟨valBytes, rest, shape, Encodes.mono front val valued,
      EncodesVals.mono front vals others⟩

end

/-! ### What the writer leaves -/

namespace MojTokenWriter

/-- The writer's set has a copy of some first words of the kind. -/
structure Writing (words : List MojString) (world : TokenWorld) : Prop where
  state : world.state.Holds words
  store : MojDbKindState.Recorded words world.store
  set : ∃ part, part <+: words ∧ world.set.Copies part

theorem writing_bind_ok {α β : Type} {first : TokenWriting α} {next : α → TokenWriting β}
    {world after : TokenWorld} {out : β} (ran : (first >>= next) world = .ok out after) :
    ∃ val middle, first world = .ok val middle ∧ next val middle = .ok out after := by
  change EStateM.bind first next world = _ at ran
  unfold EStateM.bind at ran
  split at ran
  · rename_i val middle done
    exact ⟨val, middle, done, ran⟩
  · cases ran

theorem addOthers_kept (others : List (MojString × TokenWrite)) {words : List MojString}
    {state : MojDbKindState} (holds : state.Holds words) {store : Option ByteString}
    (recorded : MojDbKindState.Recorded words store) : ∃ more, words <+: more ∧
      (addOthers others state store).1.Holds more ∧
      MojDbKindState.Recorded more (addOthers others state store).2 := by
  induction others generalizing words state store with
  | nil => exact ⟨words, List.prefix_refl words, holds, recorded⟩
  | cons head others ih =>
    rcases head with ⟨str, write⟩
    rcases holds.addProp recorded str write with
      ⟨result, after, kept, more, ran, front, grown, stored, _⟩
    rcases ih grown stored with ⟨last, further, ended⟩
    rw [addOthers, ran]
    exact ⟨last, front.trans further, ended⟩

theorem writeString_ok {words : List MojString} {world after : TokenWorld}
    (writing : Writing words world) {val : MojString} {addToken : Bool} {bytes : ByteString}
    (wrote : writeString val addToken world = .ok bytes after) :
    ∃ more, words <+: more ∧ Writing more after ∧ EncodesString more val bytes := by
  rcases addOthers_kept (world.turns.head?.getD ⟨[], .done⟩).others writing.state writing.store with
    ⟨middle, front, holds, recorded⟩
  rcases writing.set with ⟨part, inside, copies⟩
  have within := inside.trans front
  unfold writeString at wrote
  simp only at wrote
  by_cases own : val ∈ part
  · rcases List.getElem?_of_mem own with ⟨place, word⟩
    have kept := TokenSystem.word_of_front within word
    have small : place < 223 := lt_of_lt_of_le (MojDbKindState.lt_of_word kept) holds.names.fits
    have valid : tokenStartMarker + place ≠ invalidToken := by
      unfold tokenStartMarker invalidToken
      omega
    rw [copies.tokenFromString word] at wrote
    simp only [valid, ne_eq, not_false_eq_true, if_true] at wrote
    cases wrote
    exact ⟨middle, front, ⟨holds, recorded, part, within, copies⟩, Or.inr ⟨place, kept, small, rfl⟩⟩
  · have missing := copies.names.getToken_none own
    unfold MojTokenSet.tokenFromString at wrote
    rw [missing] at wrote
    cases addToken with
    | false =>
      simp only [Bool.false_eq_true, if_false] at wrote
      cases wrote
      exact ⟨middle, front, ⟨holds, recorded, part, within, copies⟩, Or.inl rfl⟩
    | true =>
      rcases holds.addProp recorded val (world.turns.head?.getD ⟨[], .done⟩).write with
        ⟨result, state, store, more, ran, further, grown, stored, given⟩
      simp only [if_true, ran] at wrote
      cases result with
      | error err => cases wrote
      | ok added =>
        rcases given added rfl with ⟨⟨table, first, copied⟩, token⟩
        cases wrote
        refine ⟨more, front.trans further, ⟨grown, stored, table, first, copied⟩, ?_⟩
        rcases token with none | ⟨place, word, token⟩
        · exact Or.inl (if_neg (by rw [none]; simp))
        · have small : place < 223 :=
            lt_of_lt_of_le (MojDbKindState.lt_of_word word) grown.names.fits
          have valid : added.token ≠ invalidToken := by
            rw [token]
            unfold tokenStartMarker invalidToken
            omega
          exact Or.inr ⟨place, word, small, by rw [if_pos valid, token]⟩

mutual

theorem value_ok (obj : MojObject) {words : List MojString} {world after : TokenWorld}
    (writing : Writing words world) {bytes : ByteString}
    (wrote : value obj world = .ok bytes after) :
    ∃ more, words <+: more ∧ Writing more after ∧ Encodes more obj bytes := by
  match obj with
  | .null | .bool _ | .decimal _ | .int _ =>
    cases wrote
    exact ⟨words, List.prefix_refl words, writing, rfl⟩
  | .string val => exact writeString_ok writing wrote
  | .object props =>
    rw [value] at wrote
    rcases writing_bind_ok wrote with ⟨rest, middle, inside, ended⟩
    cases ended
    rcases propsValue_ok props writing inside with ⟨more, front, still, encodes⟩
    exact ⟨more, front, still, rest, rfl, encodes⟩
  | .array vals =>
    rw [value] at wrote
    rcases writing_bind_ok wrote with ⟨rest, middle, inside, ended⟩
    cases ended
    rcases valsValue_ok vals writing inside with ⟨more, front, still, encodes⟩
    exact ⟨more, front, still, rest, rfl, encodes⟩

theorem propsValue_ok (props : List (MojString × MojObject)) {words : List MojString}
    {world after : TokenWorld} (writing : Writing words world) {bytes : ByteString}
    (wrote : propsValue props world = .ok bytes after) :
    ∃ more, words <+: more ∧ Writing more after ∧ EncodesProps more props bytes := by
  match props with
  | [] =>
    cases wrote
    exact ⟨words, List.prefix_refl words, writing, rfl⟩
  | (name, val) :: props =>
    rw [propsValue] at wrote
    rcases writing_bind_ok wrote with ⟨nameBytes, named, nameWrote, wrote⟩
    rcases writing_bind_ok wrote with ⟨valBytes, valued, valWrote, wrote⟩
    rcases writing_bind_ok wrote with ⟨rest, others, restWrote, ended⟩
    cases ended
    rcases writeString_ok writing nameWrote with ⟨first, front, writing, nameEncodes⟩
    rcases value_ok val writing valWrote with ⟨second, further, writing, valEncodes⟩
    rcases propsValue_ok props writing restWrote with ⟨last, final, writing, restEncodes⟩
    exact ⟨last, front.trans (further.trans final), writing, nameBytes, valBytes, rest, rfl,
      nameEncodes.mono (further.trans final), valEncodes.mono final, restEncodes⟩

theorem valsValue_ok (vals : List MojObject) {words : List MojString} {world after : TokenWorld}
    (writing : Writing words world) {bytes : ByteString}
    (wrote : valsValue vals world = .ok bytes after) :
    ∃ more, words <+: more ∧ Writing more after ∧ EncodesVals more vals bytes := by
  match vals with
  | [] =>
    cases wrote
    exact ⟨words, List.prefix_refl words, writing, rfl⟩
  | val :: vals =>
    rw [valsValue] at wrote
    rcases writing_bind_ok wrote with ⟨valBytes, valued, valWrote, wrote⟩
    rcases writing_bind_ok wrote with ⟨rest, others, restWrote, ended⟩
    cases ended
    rcases value_ok val writing valWrote with ⟨first, front, writing, valEncodes⟩
    rcases valsValue_ok vals writing restWrote with ⟨last, final, writing, restEncodes⟩
    exact ⟨last, front.trans final, writing, valBytes, rest, rfl, valEncodes.mono final,
      restEncodes⟩

end

end MojTokenWriter

end Db8.Db
