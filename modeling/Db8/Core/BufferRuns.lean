import Db8.Core.Buffer
import Db8.Steps

/-!
# Buffers as queues of bytes

What calls on any number of buffers report, against queues of bytes under the same calls. While the
read position is at the begin of the first chunk, and chunks are neither consolidated nor handed out
one at a time, each buffer is such a queue. Consolidating leaves the position null, handing out the
only chunk leaves it in that chunk, and what reads whole chunks does not see it at all.
-/

set_option autoImplicit false

namespace Db8.Core.MojBuffer

open Db8.Bytes

section Calls

structure World where
  buffers : Nat → MojBuffer
  heap : Heap

inductive Call where
  | writeByte (place : Nat) (byte : Byte)
  | write (place : Nat) (data : ByteString)
  | advance (place : Nat) (size : Nat)
  | data (place : Nat)
  | toByteVec (place : Nat)
  | iovec (place : Nat) (vecSize : Nat)
  | release (place : Nat)
  | clear (place : Nat)
  | assign (place source : Nat)

inductive Report where
  | nothing
  | bytes (bytes : Option ByteString)
  | vectors (vectors : Option (List ByteString))
  | chunk (chunk : Option Chunk)

def World.set (world : World) (place : Nat) (changed : MojBuffer × Heap) : World :=
  ⟨Function.update world.buffers place changed.1, changed.2⟩

/-- `operator=`: the list takes the chunks unless it is the same list, then the read position is
taken and left null. -/
def World.assign (world : World) (place source : Nat) : World :=
  if place = source then
    world.set place ({ world.buffers place with readPos := none }, world.heap)
  else (world.set place (world.buffers source, world.heap)).set source (new, world.heap)

def call (world : World) : Call → Option (World × Report)
  | .writeByte place byte =>
    some (world.set place ((world.buffers place).writeByte world.heap byte), .nothing)
  | .write place data =>
    some (world.set place ((world.buffers place).write world.heap data), .nothing)
  | .advance place size =>
    ((world.buffers place).advance size).map fun buf => (world.set place (buf, world.heap), .nothing)
  | .data place =>
    let got := (world.buffers place).data world.heap
    some (world.set place got.2, .bytes (some got.1))
  | .toByteVec place => some (world, .bytes (world.buffers place).toByteVec)
  | .iovec place vecSize => some (world, .vectors ((world.buffers place).iovec vecSize))
  | .release place =>
    let got := (world.buffers place).release world.heap
    some (world.set place got.2, .chunk got.1)
  | .clear place => some (world.set place ((world.buffers place).clear, world.heap), .nothing)
  | .assign place source => some (world.assign place source, .nothing)

end Calls

section Queues

abbrev Queues := Nat → ByteString

def serve (queues : Queues) : Call → Queues
  | .writeByte place byte => Function.update queues place (queues place ++ [byte])
  | .write place data => Function.update queues place (queues place ++ data)
  | .advance place size => Function.update queues place ((queues place).drop size)
  | .release place => Function.update queues place []
  | .clear place => Function.update queues place []
  | .assign place source =>
    if place = source then queues
    else Function.update (Function.update queues place (queues source)) source []
  | _ => queues

def Allowed (queues : Queues) : Call → Prop
  | .advance place size => size ≤ (queues place).length
  | _ => True

instance (queues : Queues) : (op : Call) → Decidable (Allowed queues op)
  | .advance place size => inferInstanceAs (Decidable (size ≤ (queues place).length))
  | .writeByte _ _ => isTrue trivial
  | .write _ _ => isTrue trivial
  | .data _ => isTrue trivial
  | .toByteVec _ => isTrue trivial
  | .iovec _ _ => isTrue trivial
  | .release _ => isTrue trivial
  | .clear _ => isTrue trivial
  | .assign _ _ => isTrue trivial

def Enough (buf : MojBuffer) (vecSize : Nat) : Prop :=
  ∀ more, vecSize ≤ more → buf.iovec more = buf.iovec vecSize

def Right (world : World) (queues : Queues) : Call → Report → Prop
  | .data place, report => report = .bytes (some (queues place))
  | .toByteVec place, report => report = .bytes (some (queues place))
  | .iovec place vecSize, report =>
    Enough (world.buffers place) vecSize →
      ∃ vectors, report = .vectors (some vectors) ∧ vectors.flatten = queues place
  | _, _ => True

def EmptyRight (world : World) (queues : Queues) : Prop :=
  ∀ place, (world.buffers place).empty = true ↔ queues place = []

/-- Every call of the run comes to its end and reports its queue, and at every moment the buffers
are empty just where the queues are. -/
def Behaves : List Call → World → Queues → Prop
  | [], world, queues => EmptyRight world queues
  | op :: ops, world, queues =>
    EmptyRight world queues ∧
      (Allowed queues op → ∃ next report, call world op = some (next, report) ∧
        Right world queues op report ∧ Behaves ops next (serve queues op))

end Queues

section Condition

def AtStart (buf : MojBuffer) : Prop :=
  ∀ chunk ∈ buf.chunks.head?, buf.readPos = some ⟨chunk.address, 0⟩

instance (buf : MojBuffer) : Decidable (AtStart buf) :=
  match chunks : buf.chunks.head? with
  | none => isTrue (by rw [AtStart, chunks]; exact fun _ impossible => by cases impossible)
  | some chunk =>
    decidable_of_iff (buf.readPos = some ⟨chunk.address, 0⟩) (by
      rw [AtStart, chunks]
      simp)

/-- Nothing consumed is read again, nothing is consolidated except to be released, the only chunk
is not released, and no chunks are assigned to where they are. -/
def Keeps (world : World) : Call → Prop
  | .data place => (world.buffers place).chunks.length ≤ 1 ∧ AtStart (world.buffers place)
  | .toByteVec place => AtStart (world.buffers place)
  | .release place => (world.buffers place).chunks.length ≠ 1
  | .assign place source => place = source → (world.buffers place).chunks = []
  | _ => True

instance (world : World) : (op : Call) → Decidable (Keeps world op)
  | .data place =>
    inferInstanceAs (Decidable ((world.buffers place).chunks.length ≤ 1 ∧
      AtStart (world.buffers place)))
  | .toByteVec place => inferInstanceAs (Decidable (AtStart (world.buffers place)))
  | .release place => inferInstanceAs (Decidable ((world.buffers place).chunks.length ≠ 1))
  | .assign place source =>
    inferInstanceAs (Decidable (place = source → (world.buffers place).chunks = []))
  | .writeByte _ _ => isTrue trivial
  | .write _ _ => isTrue trivial
  | .advance _ _ => isTrue trivial
  | .iovec _ _ => isTrue trivial
  | .clear _ => isTrue trivial

def KeepsThroughout : List Call → World → Queues → Prop
  | [], _, _ => True
  | op :: ops, world, queues =>
    Allowed queues op → Keeps world op ∧
      ∀ next report, call world op = some (next, report) →
        KeepsThroughout ops next (serve queues op)

instance decidableKeepsThroughout : (ops : List Call) → (world : World) → (queues : Queues) →
    Decidable (KeepsThroughout ops world queues)
  | [], _, _ => isTrue trivial
  | op :: ops, world, queues =>
    match called : call world op with
    | none =>
      decidable_of_iff (Allowed queues op → Keeps world op) (by simp [KeepsThroughout, called])
    | some (next, report) =>
      have := decidableKeepsThroughout ops next (serve queues op)
      decidable_of_iff (Allowed queues op → Keeps world op ∧
        KeepsThroughout ops next (serve queues op)) (by simp [KeepsThroughout, called])

end Condition

section Contents

inductive Holds : MojBuffer → ByteString → Prop
  | nothing : Holds new []
  | reading {first : Chunk} {rest : List Chunk} {offset : Nat} :
      offset ≤ first.dataSize → (∀ chunk ∈ rest, chunk.bytes ≠ []) →
        Holds ⟨first :: rest, some ⟨first.address, offset⟩⟩
          (first.bytes.drop offset ++ (rest.map Chunk.bytes).flatten)

theorem flatten_eq_nil {rest : List Chunk} (others : ∀ chunk ∈ rest, chunk.bytes ≠ []) :
    (rest.map Chunk.bytes).flatten = [] ↔ rest = [] := by
  cases rest with
  | nil => simp
  | cons chunk rest =>
    have there := others chunk List.mem_cons_self
    simp [there]

theorem fromReadPos_eq {first : Chunk} {offset : Nat} (inside : offset ≤ first.dataSize) :
    fromReadPos (some ⟨first.address, offset⟩) first = some (first.bytes.drop offset) := by
  simp [fromReadPos, inside]

variable {buf : MojBuffer} {queue : ByteString}

theorem Holds.empty_iff (holds : Holds buf queue) : buf.empty = true ↔ queue = [] := by
  cases holds with
  | nothing => simp [MojBuffer.empty, new]
  | @reading first rest offset inside others =>
    rw [List.append_eq_nil_iff, List.drop_eq_nil_iff, flatten_eq_nil others]
    cases rest with
    | nil =>
      simp only [MojBuffer.empty, beq_iff_eq, Position.mk.injEq, true_and, and_true]
      exact ⟨fun same => same.ge, fun above => le_antisymm inside above⟩
    | cons second rest => simp [MojBuffer.empty]

theorem iovecRest_flatten (rest : List Chunk) {vecSize : Nat} (enough : rest.length ≤ vecSize) :
    (iovecRest vecSize rest).flatten = (rest.map Chunk.bytes).flatten := by
  induction rest generalizing vecSize with
  | nil => cases vecSize <;> rfl
  | cons chunk rest ih =>
    cases vecSize with
    | zero => cases enough
    | succ vecSize =>
      have fits : rest.length ≤ vecSize := Nat.le_of_succ_le_succ enough
      rw [iovecRest]
      split_ifs with nothing
      · rw [ih (Nat.le_succ_of_le fits), List.map_cons, nothing, List.flatten_cons,
          List.nil_append]
      · rw [List.flatten_cons, ih fits, List.map_cons, List.flatten_cons]

theorem Holds.iovec (holds : Holds buf queue) {vecSize : Nat} (enough : Enough buf vecSize) :
    ∃ vectors, buf.iovec vecSize = some vectors ∧ vectors.flatten = queue := by
  rw [← enough (vecSize + (buf.chunks.length + 1)) (Nat.le_add_right _ _)]
  cases holds with
  | nothing => exact ⟨[], by simp [MojBuffer.iovec, new], rfl⟩
  | @reading first rest offset inside others =>
    rw [← Nat.add_assoc]
    simp only [List.length_cons, MojBuffer.iovec, fromReadPos_eq inside, Option.map_some]
    refine ⟨_, rfl, ?_⟩
    split_ifs with nothing
    · rw [nothing, List.nil_append, iovecRest_flatten rest (by omega)]
    · rw [List.flatten_cons, iovecRest_flatten rest (by omega)]

theorem Holds.advance (holds : Holds buf queue) {size : Nat} (there : size ≤ queue.length) :
    ∃ next, buf.advance size = some next ∧ Holds next (queue.drop size) := by
  cases holds with
  | nothing =>
    obtain rfl := Nat.le_zero.mp there
    exact ⟨new, rfl, .nothing⟩
  | @reading first rest offset inside others =>
    unfold MojBuffer.advance
    induction rest generalizing first offset size with
    | nil =>
      cases size with
      | zero => exact ⟨_, rfl, .reading inside others⟩
      | succ size =>
        rw [List.map_nil, List.flatten_nil, List.append_nil, List.length_drop] at there
        have whole : min (size + 1) (first.dataSize - offset) = size + 1 := by
          rw [Chunk.dataSize]
          omega
        refine ⟨⟨[first], some ⟨first.address, offset + (size + 1)⟩⟩, ?_, ?_⟩
        · simp [advanceOver, inside, whole]
        · rw [List.map_nil, List.flatten_nil, List.append_nil, List.drop_drop]
          have after : Holds ⟨[first], some ⟨first.address, offset + (size + 1)⟩⟩ _ :=
            .reading (by rw [Chunk.dataSize]; omega) others
          simpa using after
    | cons second rest ih =>
      cases size with
      | zero => exact ⟨_, rfl, .reading inside others⟩
      | succ size =>
        by_cases within : size + 1 ≤ first.dataSize - offset
        · refine ⟨⟨first :: second :: rest, some ⟨first.address, offset + (size + 1)⟩⟩, ?_, ?_⟩
          · simp [advanceOver, inside, Nat.min_eq_left within]
          · rw [List.drop_append_of_le_length (by rw [List.length_drop]; exact within),
              List.drop_drop]
            exact .reading (by omega) others
        · have shorter : first.dataSize - offset ≠ size + 1 := by omega
          have cut : min (size + 1) (first.dataSize - offset) = first.dataSize - offset := by
            omega
          have rests : ∀ chunk ∈ rest, chunk.bytes ≠ [] :=
            fun chunk member => others chunk (List.mem_cons_of_mem second member)
          have size_eq : (first.bytes.drop offset).length = first.dataSize - offset := by
            rw [List.length_drop, Chunk.dataSize]
          have back : size + 1 - (first.dataSize - offset) ≤
              (second.bytes.drop 0 ++ (rest.map Chunk.bytes).flatten).length := by
            rw [List.length_append, size_eq, List.map_cons, List.flatten_cons] at there
            rw [List.drop_zero]
            omega
          rcases ih (Nat.zero_le second.dataSize) rests back with ⟨next, advanced, after⟩
          refine ⟨next, ?_, ?_⟩
          · rw [advanceOver]
            simp only [inside, and_self, if_true, cut]
            rw [if_neg shorter]
            exact advanced
          · rw [List.drop_append, List.drop_of_length_le (by omega), size_eq, List.map_cons,
              List.flatten_cons, List.nil_append]
            rwa [List.drop_zero] at after

theorem Holds.toByteVec (holds : Holds buf queue) :
    buf.toByteVec = some queue ↔ AtStart buf := by
  cases holds with
  | nothing => simp [MojBuffer.toByteVec, AtStart, new]
  | @reading first rest offset inside others =>
    have lengths : (first.bytes.drop offset).length = first.dataSize ↔ offset = 0 := by
      rw [List.length_drop, Chunk.dataSize] at *
      omega
    simp only [MojBuffer.toByteVec, readWhole, fromReadPos_eq inside, Option.bind_some, AtStart,
      List.head?_cons, Option.mem_some_iff, forall_eq', Option.some.injEq, Position.mk.injEq,
      true_and]
    rw [← lengths]
    split_ifs with whole
    · simp [whole]
    · simpa using whole

theorem Holds.clear (holds : Holds buf queue) : Holds buf.clear [] := by
  cases holds with
  | nothing => exact .nothing
  | reading => exact .nothing

theorem Holds.unset (holds : Holds buf queue) (nothing : buf.chunks = []) :
    Holds { buf with readPos := Option.none } queue := by
  cases holds with
  | nothing => exact .nothing
  | reading => cases nothing

section Writing

theorem Holds.writeBack (holds : Holds buf queue) (chunked : buf.chunks ≠ []) (data : ByteString) :
    Holds (buf.writeBack data) (queue ++ data) := by
  cases holds with
  | nothing => exact absurd rfl chunked
  | @reading first rest offset inside others =>
    rcases List.eq_nil_or_concat rest with rfl | ⟨middle, last, rfl⟩
    · have within : offset ≤ (first.write data).dataSize := by
        simp only [Chunk.write, Chunk.dataSize, List.length_append] at *
        omega
      have after := Holds.reading within others
      simp only [Chunk.write, List.map_nil, List.flatten_nil, List.append_nil] at after ⊢
      rw [List.drop_append_of_le_length inside] at after
      exact after
    · have lastThere := others last (by simp)
      have after := @Holds.reading first (middle ++ [last.write data]) offset inside (by
        intro chunk member
        rcases List.mem_append.mp member with early | late
        · exact others chunk (by simp [early])
        · rw [List.mem_singleton.mp late]
          simp [Chunk.write, lastThere])
      have chunks : first :: middle.concat last = (first :: middle) ++ [last] := by simp
      simp only [MojBuffer.writeBack, chunks, List.getLast?_append, List.getLast?_singleton,
        Option.some_or, List.dropLast_concat]
      simpa [Chunk.write] using after

theorem Holds.grow (holds : Holds buf queue) (chunk : Chunk) (filled : chunk.bytes ≠ []) :
    Holds ⟨buf.chunks ++ [chunk], buf.readPos.or (some ⟨chunk.address, 0⟩)⟩
      (queue ++ chunk.bytes) := by
  cases holds with
  | nothing =>
    have after := @Holds.reading chunk [] 0 (Nat.zero_le chunk.dataSize) (by simp)
    simpa [new] using after
  | @reading first rest offset inside others =>
    have after := @Holds.reading first (rest ++ [chunk]) offset inside (by
      intro other member
      rcases List.mem_append.mp member with early | late
      · exact others other early
      · rw [List.mem_singleton.mp late]
        exact filled)
    simpa using after

theorem room_writeableChunk (buf : MojBuffer) (heap : Heap) {requestedSize : Nat}
    (some_ : 0 < requestedSize) : 0 < (buf.writeableChunk heap requestedSize).1.room := by
  have alloc : 0 < max requestedSize heap.leastSize := lt_of_lt_of_le some_ (Nat.le_max_left _ _)
  unfold writeableChunk
  cases back : buf.chunks.getLast? with
  | none => simpa [room, allocChunk, Chunk.freeSpace] using alloc
  | some chunk =>
    simp only []
    split_ifs with free
    · simpa [room, back] using free
    · simpa [room, allocChunk, Chunk.freeSpace] using alloc

theorem Holds.writeTurn (holds : Holds buf queue) (heap : Heap) (requestedSize : Nat)
    {data : ByteString} (some_ : data ≠ []) :
    Holds ((buf.writeableChunk heap requestedSize).1.writeBack data) (queue ++ data) := by
  have grown : ∀ address size,
      Holds (MojBuffer.writeBack ⟨buf.chunks ++ [⟨address, size, []⟩],
        buf.readPos.or (some ⟨address, 0⟩)⟩ data) (queue ++ data) := by
    intro address size
    have after := holds.grow ⟨address, size, data⟩ some_
    simpa [MojBuffer.writeBack, Chunk.write] using after
  unfold writeableChunk
  cases back : buf.chunks.getLast? with
  | none => exact grown _ _
  | some chunk =>
    simp only []
    split_ifs
    · apply holds.writeBack
      intro nothing
      rw [nothing] at back
      cases back
    · exact grown _ _

theorem Holds.write (holds : Holds buf queue) (heap : Heap) (data : ByteString) :
    Holds (buf.write heap data).1 (queue ++ data) := by
  have loops : ∀ turns (buf : MojBuffer) (heap : Heap) (queue data : ByteString),
      data.length ≤ turns → Holds buf queue → Holds (writeLoop turns buf heap data).1 (queue ++ data) := by
    intro turns
    induction turns with
    | zero =>
      intro buf heap queue data few holds
      rw [List.length_eq_zero_iff.mp (Nat.le_zero.mp few), List.append_nil]
      exact holds
    | succ turns ih =>
      intro buf heap queue data few holds
      rw [writeLoop]
      split_ifs with nothing
      · rw [nothing, List.append_nil]
        exact holds
      · have some_ : 0 < data.length := List.length_pos_of_ne_nil nothing
        have room := room_writeableChunk buf heap some_
        have count : 0 < min data.length (buf.writeableChunk heap data.length).1.room :=
          lt_min some_ room
        have taken : data.take (min data.length (buf.writeableChunk heap data.length).1.room) ≠ [] := by
          rw [Ne, List.take_eq_nil_iff]
          rintro (none_ | none_)
          · omega
          · exact nothing none_
        have turn := holds.writeTurn heap data.length taken
        have rest := ih _ (buf.writeableChunk heap data.length).2 _
          (data.drop (min data.length (buf.writeableChunk heap data.length).1.room))
          (by rw [List.length_drop]; omega) turn
        rw [List.append_assoc, List.take_append_drop] at rest
        exact rest
  exact loops data.length buf heap queue data (Nat.le_refl _) holds

theorem Holds.writeByte (holds : Holds buf queue) (heap : Heap) (byte : Byte) :
    Holds (buf.writeByte heap byte).1 (queue ++ [byte]) :=
  holds.writeTurn heap 1 (List.cons_ne_nil byte [])

end Writing

section Consolidating

theorem consolidate_few {buf : MojBuffer} (few : buf.chunks.length ≤ 1) (heap : Heap) :
    buf.consolidate heap = (buf, heap) := by
  rw [consolidate, if_neg (Nat.not_lt.mpr few)]

theorem consolidate_many (buf : MojBuffer) (many : 1 < buf.chunks.length) (heap : Heap) :
    ∃ chunk, chunk.bytes = (buf.chunks.map Chunk.bytes).flatten ∧
      (buf.consolidate heap).1 = ⟨[chunk], none⟩ := by
  rw [consolidate, if_pos many]
  cases chunks : buf.chunks with
  | nil =>
    rw [chunks] at many
    cases many
  | cons first rest =>
    refine ⟨(allocChunk heap ((first :: rest).map Chunk.dataSize).sum).1.write
      ((first :: rest).map Chunk.bytes).flatten, rfl, ?_⟩
    simp only [MojBuffer.clear, chunks, List.nil_append]

/-- `data` reports the bytes, and leaves a buffer that is empty when there are none, just where
nothing of the only chunk is consumed. -/
theorem Holds.data_iff (holds : Holds buf queue) (heap : Heap) :
    ((buf.data heap).1 = queue ∧ ((buf.data heap).2.1.empty = true ↔ queue = [])) ↔
      buf.chunks.length ≤ 1 ∧ AtStart buf := by
  cases holds with
  | nothing => simp [MojBuffer.data, consolidate, new, MojBuffer.empty, AtStart]
  | @reading first rest offset inside others =>
    cases rest with
    | nil =>
      have lengths : first.bytes = first.bytes.drop offset ↔ offset = 0 := by
        constructor
        · intro same
          have size := congrArg List.length same
          rw [List.length_drop] at size
          rw [Chunk.dataSize] at inside
          omega
        · intro start
          rw [start, List.drop_zero]
      have same := (@Holds.reading first [] offset inside (by simp)).empty_iff
      simp only [List.map_nil, List.flatten_nil, List.append_nil] at same
      simp [MojBuffer.data, consolidate, AtStart, lengths, same]
    | cons second rest =>
      have many : 1 < (first :: second :: rest).length := by simp
      rcases consolidate_many ⟨first :: second :: rest, some ⟨first.address, offset⟩⟩ many heap with
        ⟨chunk, -, after⟩
      have secondThere := others second List.mem_cons_self
      simp [MojBuffer.data, after, MojBuffer.empty, secondThere]

theorem data_kept {buf : MojBuffer} (few : buf.chunks.length ≤ 1) (heap : Heap) :
    (buf.data heap).2 = (buf, heap) := by
  simp only [MojBuffer.data, consolidate_few few]
  split <;> rfl

/-- A buffer is seen to be empty after `release` unless it gave its only chunk. -/
theorem Holds.release_iff (holds : Holds buf queue) (heap : Heap) :
    (buf.release heap).2.1.empty = true ↔ buf.chunks.length ≠ 1 := by
  cases holds with
  | nothing => simp [MojBuffer.release, consolidate, new, MojBuffer.empty]
  | @reading first rest offset inside others =>
    cases rest with
    | nil => simp [MojBuffer.release, consolidate, MojBuffer.empty]
    | cons second rest =>
      have many : 1 < (first :: second :: rest).length := by simp
      rcases consolidate_many ⟨first :: second :: rest, some ⟨first.address, offset⟩⟩ many heap with
        ⟨chunk, -, after⟩
      simp [MojBuffer.release, after, MojBuffer.empty]

theorem Holds.release (holds : Holds buf queue) (heap : Heap) (several : buf.chunks.length ≠ 1) :
    Holds (buf.release heap).2.1 [] := by
  cases holds with
  | nothing => exact .nothing
  | @reading first rest offset inside others =>
    cases rest with
    | nil => exact absurd rfl several
    | cons second rest =>
      have many : 1 < (first :: second :: rest).length := by simp
      rcases consolidate_many ⟨first :: second :: rest, some ⟨first.address, offset⟩⟩ many heap with
        ⟨chunk, -, after⟩
      have emptied : (MojBuffer.release ⟨first :: second :: rest, some ⟨first.address, offset⟩⟩
          heap).2.1 = new := by
        simp [MojBuffer.release, after, new]
      rw [emptied]
      exact .nothing

end Consolidating

end Contents

section Runs

def Stands (world : World) (queues : Queues) : Prop :=
  ∀ place, Holds (world.buffers place) (queues place)

variable {world : World} {queues : Queues}

theorem Stands.emptyRight (stands : Stands world queues) : EmptyRight world queues :=
  fun place => (stands place).empty_iff

theorem Stands.set (stands : Stands world queues) (place : Nat) (changed : MojBuffer × Heap)
    {queue : ByteString} (holds : Holds changed.1 queue) :
    Stands (world.set place changed) (Function.update queues place queue) := by
  intro other
  simp only [World.set, Function.update_apply]
  split_ifs
  · exact holds
  · exact stands other

theorem Stands.set_same (stands : Stands world queues) (place : Nat) {changed : MojBuffer × Heap}
    (holds : Holds changed.1 (queues place)) : Stands (world.set place changed) queues := by
  have after := stands.set place changed holds
  rwa [Function.update_eq_self] at after

theorem Stands.assign (stands : Stands world queues) {place source : Nat}
    (kept : place = source → (world.buffers place).chunks = []) :
    Stands (world.assign place source) (serve queues (.assign place source)) := by
  change Stands _ (if place = source then queues
    else Function.update (Function.update queues place (queues source)) source [])
  unfold World.assign
  split_ifs with same
  · apply stands.set_same
    exact (stands place).unset (kept same)
  · have first := stands.set place (world.buffers source, world.heap) (stands source)
    exact first.set source (new, world.heap) .nothing

/-- A call that meets the condition is answered from the queue, and the buffers stay in order. -/
theorem Stands.step (stands : Stands world queues) {op : Call} (allowed : Allowed queues op)
    (keeps : Keeps world op) :
    ∃ next report, call world op = some (next, report) ∧ Right world queues op report ∧
      Stands next (serve queues op) := by
  cases op with
  | writeByte place byte =>
    exact ⟨_, _, rfl, trivial, stands.set place _ ((stands place).writeByte world.heap byte)⟩
  | write place data =>
    exact ⟨_, _, rfl, trivial, stands.set place _ ((stands place).write world.heap data)⟩
  | advance place size =>
    rcases (stands place).advance allowed with ⟨buf, advanced, holds⟩
    refine ⟨world.set place (buf, world.heap), .nothing, ?_, trivial, stands.set place _ holds⟩
    rw [call, advanced, Option.map_some]
  | data place =>
    have right := ((stands place).data_iff world.heap).mpr keeps
    have same := data_kept keeps.1 world.heap
    refine ⟨_, _, rfl, ?_, ?_⟩
    · exact congrArg (fun bytes => Report.bytes (some bytes)) right.1
    · apply stands.set_same
      rw [same]
      exact stands place
  | toByteVec place =>
    refine ⟨_, _, rfl, ?_, stands⟩
    exact congrArg Report.bytes ((stands place).toByteVec.mpr keeps)
  | iovec place vecSize =>
    refine ⟨_, _, rfl, ?_, stands⟩
    intro enough
    rcases (stands place).iovec enough with ⟨vectors, got, whole⟩
    exact ⟨vectors, congrArg Report.vectors got, whole⟩
  | release place =>
    exact ⟨_, _, rfl, trivial, stands.set place _ ((stands place).release world.heap keeps)⟩
  | clear place =>
    have cleared := stands.set place ((world.buffers place).clear, world.heap)
      (stands place).clear
    exact ⟨_, _, rfl, trivial, cleared⟩
  | assign place source => exact ⟨_, _, rfl, trivial, stands.assign keeps⟩

/-- A call that does not meet the condition reports something else, or leaves a buffer that is taken
to be empty, or not, when it is the other way. -/
theorem Stands.breaks (stands : Stands world queues) {op : Call}
    (other : ∀ place, op ≠ .assign place place) (fails : ¬ Keeps world op) {next : World}
    {report : Report} (called : call world op = some (next, report))
    (right : Right world queues op report) : ¬ EmptyRight next (serve queues op) := by
  intro empty
  cases op with
  | writeByte place byte => exact fails trivial
  | write place data => exact fails trivial
  | advance place size => exact fails trivial
  | data place =>
    cases called
    apply fails
    apply ((stands place).data_iff world.heap).mp
    have reported := Report.bytes.inj right
    refine ⟨Option.some.inj reported, ?_⟩
    have here := empty place
    simpa [World.set, serve] using here
  | toByteVec place =>
    cases called
    exact fails ((stands place).toByteVec.mp (Report.bytes.inj right))
  | iovec place vecSize => exact fails trivial
  | release place =>
    cases called
    apply fails
    apply ((stands place).release_iff world.heap).mp
    have here := empty place
    simp only [World.set, serve, Function.update_self, iff_true] at here
    exact here
  | clear place => exact fails trivial
  | assign place source =>
    apply fails
    intro same
    exact absurd (congrArg (Call.assign place) same.symm) (other place)

theorem Stands.behaves (stands : Stands world queues) (ops : List Call)
    (keeps : KeepsThroughout ops world queues) : Behaves ops world queues := by
  induction ops generalizing world queues with
  | nil => exact stands.emptyRight
  | cons op ops ih =>
    refine ⟨stands.emptyRight, ?_⟩
    intro allowed
    rcases keeps allowed with ⟨here, later⟩
    rcases stands.step allowed here with ⟨next, report, called, right, after⟩
    exact ⟨next, report, called, right, ih after (later next report called)⟩

theorem Behaves.emptyRight {ops : List Call} (behaves : Behaves ops world queues) :
    EmptyRight world queues := by
  cases ops with
  | nil => exact behaves
  | cons op ops => exact behaves.1

theorem Stands.keeps (stands : Stands world queues) (ops : List Call)
    (others : ∀ place, Call.assign place place ∉ ops) (behaves : Behaves ops world queues) :
    KeepsThroughout ops world queues := by
  induction ops generalizing world queues with
  | nil => trivial
  | cons op ops ih =>
    intro allowed
    rcases behaves.2 allowed with ⟨next, report, called, right, later⟩
    have here : Keeps world op := by
      by_contra fails
      apply stands.breaks _ fails called right later.emptyRight
      intro place same
      exact others place (same ▸ List.mem_cons_self)
    refine ⟨here, ?_⟩
    intro other told again
    rw [called] at again
    cases again
    rcases stands.step allowed here with ⟨_, _, same, _, after⟩
    rw [called] at same
    cases same
    apply ih after _ later
    intro place member
    exact others place (List.mem_cons_of_mem op member)

def World.start (leastSize : Nat) : World := ⟨fun _ => new, ⟨0, leastSize⟩⟩

/-- A run whose calls meet the condition serves queues of bytes; and, unless a buffer is assigned to
itself, only such a run does. -/
theorem queues_served (ops : List Call) (leastSize : Nat) :
    (KeepsThroughout ops (World.start leastSize) (fun _ => []) →
      Behaves ops (World.start leastSize) fun _ => []) ∧
    ((∀ place, Call.assign place place ∉ ops) →
      Behaves ops (World.start leastSize) (fun _ => []) →
      KeepsThroughout ops (World.start leastSize) fun _ => []) := by
  have stands : Stands (World.start leastSize) fun _ => [] := fun _ => .nothing
  exact ⟨stands.behaves ops, stands.keeps ops⟩

/-- A byte written, more of them, and all reported and taken over by another buffer. -/
theorem queues_served_once :
    Behaves [.writeByte 0 1, .write 0 [2, 3], .data 0, .toByteVec 0, .assign 1 0, .iovec 1 1, .clear 1]
      (World.start 4056) fun _ => [] :=
  (queues_served _ 4056).1 (by decide +kernel)

/-- Of two bytes written one is consumed, and `data` reports both. -/
theorem consumed_byte_reported :
    ¬ ∀ (ops : List Call) (leastSize : Nat), Behaves ops (World.start leastSize) fun _ => [] := by
  intro all
  rcases all [.write 0 [1, 2], .advance 0 1, .data 0] 4056 with ⟨_, written⟩
  rcases written trivial with ⟨_, _, ⟨⟩, _, _, advanced⟩
  rcases advanced (by decide) with ⟨_, _, ⟨⟩, _, _, reported⟩
  rcases reported trivial with ⟨_, _, ⟨⟩, right, _⟩
  exact absurd (Option.some.inj (Report.bytes.inj right)) (by decide)

end Runs

end Db8.Core.MojBuffer
