import Db8.Bytes.Lex

/-!
# Chunked buffers

`MojBuffer`: a list of chunks with one read position, a pointer into the first of them. Chunks are
told apart by where they were allocated, so that a position left behind in a chunk the buffer no
longer has is seen as such. A read through such a position, or past the end of a chunk's data, has
no value.
-/

set_option autoImplicit false

namespace Db8.Core

open Db8.Bytes

/-- A chunk's place, the size of its memory, and what is written from its begin on. -/
structure Chunk where
  address : Nat
  size : Nat
  bytes : ByteString
deriving DecidableEq

namespace Chunk

def dataSize (chunk : Chunk) : Nat := chunk.bytes.length

def freeSpace (chunk : Chunk) : Nat := chunk.size - chunk.bytes.length

def write (chunk : Chunk) (data : ByteString) : Chunk := { chunk with bytes := chunk.bytes ++ data }

end Chunk

structure Position where
  address : Nat
  offset : Nat
deriving DecidableEq

structure MojBuffer where
  chunks : List Chunk
  readPos : Option Position
deriving DecidableEq

/-- What the heap gives out: the address of the next chunk, and the least size of one the buffer
asks for, `ChunkSize - sizeof(Chunk)`. -/
structure Heap where
  next : Nat
  leastSize : Nat
deriving DecidableEq

namespace MojBuffer

def new : MojBuffer := ⟨[], none⟩

def empty (buf : MojBuffer) : Bool :=
  match buf.readPos, buf.chunks with
  | none, _ => true
  | some pos, [chunk] => pos == ⟨chunk.address, chunk.dataSize⟩
  | some _, _ => false

/-- The data of the first chunk from the read position on, as long as that is in the chunk. -/
def fromReadPos (readPos : Option Position) (chunk : Chunk) : Option ByteString :=
  match readPos with
  | none => none
  | some pos =>
    if pos.address = chunk.address ∧ pos.offset ≤ chunk.dataSize then
      some (chunk.bytes.drop pos.offset)
    else none

def iovecRest : Nat → List Chunk → List ByteString
  | 0, _ => []
  | _, [] => []
  | vecSize + 1, chunk :: rest =>
    if chunk.bytes = [] then iovecRest (vecSize + 1) rest
    else chunk.bytes :: iovecRest vecSize rest

def iovec (buf : MojBuffer) (vecSize : Nat) : Option (List ByteString) :=
  match vecSize, buf.chunks with
  | 0, _ => some []
  | _, [] => some []
  | vecSize + 1, first :: rest =>
    (fromReadPos buf.readPos first).map fun bytes =>
      if bytes = [] then iovecRest (vecSize + 1) rest else bytes :: iovecRest vecSize rest

/-- As many bytes as the first chunk has, from the read position on. -/
def readWhole (readPos : Option Position) (chunk : Chunk) : Option ByteString :=
  (fromReadPos readPos chunk).bind fun bytes =>
    if bytes.length = chunk.dataSize then some bytes else none

def toByteVec (buf : MojBuffer) : Option ByteString :=
  match buf.chunks with
  | [] => some []
  | first :: rest =>
    (readWhole buf.readPos first).map fun bytes => bytes ++ (rest.map Chunk.bytes).flatten

/-- `pop`: the first chunk is deleted. -/
def pop (buf : MojBuffer) : MojBuffer :=
  match buf.chunks.tail with
  | [] => ⟨[], none⟩
  | first :: rest => ⟨first :: rest, some ⟨first.address, 0⟩⟩

/-- `clear` pops until no chunk is left. -/
def clear (buf : MojBuffer) : MojBuffer :=
  match buf.chunks with
  | [] => buf
  | _ :: _ => ⟨[], none⟩

def allocChunk (heap : Heap) (size : Nat) : Chunk × Heap :=
  (⟨heap.next, size, []⟩, { heap with next := heap.next + 1 })

/-- `writeableChunk`: the buffer with a chunk at its back that has room. -/
def writeableChunk (buf : MojBuffer) (heap : Heap) (requestedSize : Nat) : MojBuffer × Heap :=
  let alloc :=
    let allocated := allocChunk heap (max requestedSize heap.leastSize)
    ({ chunks := buf.chunks ++ [allocated.1],
       readPos := buf.readPos.or (some ⟨allocated.1.address, 0⟩) }, allocated.2)
  match buf.chunks.getLast? with
  | none => alloc
  | some back => if 0 < back.freeSpace then (buf, heap) else alloc

def writeBack (buf : MojBuffer) (data : ByteString) : MojBuffer :=
  match buf.chunks.getLast? with
  | none => buf
  | some back => { buf with chunks := buf.chunks.dropLast ++ [back.write data] }

def room (buf : MojBuffer) : Nat :=
  match buf.chunks.getLast? with
  | none => 0
  | some back => back.freeSpace

/-- The loop of `write`, which writes at least one byte in a turn. -/
def writeLoop : Nat → MojBuffer → Heap → ByteString → MojBuffer × Heap
  | 0, buf, heap, _ => (buf, heap)
  | turns + 1, buf, heap, data =>
    if data = [] then (buf, heap)
    else
      let ready := writeableChunk buf heap data.length
      let count := min data.length ready.1.room
      writeLoop turns (ready.1.writeBack (data.take count)) ready.2 (data.drop count)

def write (buf : MojBuffer) (heap : Heap) (data : ByteString) : MojBuffer × Heap :=
  writeLoop data.length buf heap data

def writeByte (buf : MojBuffer) (heap : Heap) (byte : Byte) : MojBuffer × Heap :=
  let ready := writeableChunk buf heap 1
  (ready.1.writeBack [byte], ready.2)

/-- `consolidate`: more than one chunk are copied into one. -/
def consolidate (buf : MojBuffer) (heap : Heap) : MojBuffer × Heap :=
  if 1 < buf.chunks.length then
    let allocated := allocChunk heap (buf.chunks.map Chunk.dataSize).sum
    let chunk := allocated.1.write (buf.chunks.map Chunk.bytes).flatten
    ({ buf.clear with chunks := buf.clear.chunks ++ [chunk] }, allocated.2)
  else (buf, heap)

/-- `data`: the data of the one chunk there is after `consolidate`. -/
def data (buf : MojBuffer) (heap : Heap) : ByteString × MojBuffer × Heap :=
  let whole := buf.consolidate heap
  match whole.1.chunks with
  | [chunk] => (chunk.bytes, whole)
  | _ => ([], whole)

/-- `release`: the chunk is taken off the list, and nothing else is done. -/
def release (buf : MojBuffer) (heap : Heap) : Option Chunk × MojBuffer × Heap :=
  let whole := buf.consolidate heap
  (whole.1.chunks.head?, { whole.1 with chunks := whole.1.chunks.tail }, whole.2)

/-- `advance` over the chunks; there is nothing to go on with when a chunk is missing or the read
position is not in it. -/
def advanceOver : List Chunk → Option Position → Nat → Option MojBuffer
  | chunks, readPos, 0 => some ⟨chunks, readPos⟩
  | [], _, _ + 1 => none
  | chunk :: rest, readPos, size + 1 =>
    match readPos with
    | none => none
    | some pos =>
      if pos.address = chunk.address ∧ pos.offset ≤ chunk.dataSize then
        let count := min (size + 1) (chunk.dataSize - pos.offset)
        if count = size + 1 then
          some ⟨chunk :: rest, some { pos with offset := pos.offset + count }⟩
        else
          match rest with
          | [] => none
          | next :: rest =>
            advanceOver (next :: rest) (some ⟨next.address, 0⟩) (size + 1 - count)
      else none

def advance (buf : MojBuffer) (size : Nat) : Option MojBuffer :=
  advanceOver buf.chunks buf.readPos size

end MojBuffer

end Db8.Core
