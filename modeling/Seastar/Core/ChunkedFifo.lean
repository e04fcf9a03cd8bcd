import Seastar.Core.Fault
import Seastar.Lib.Ring
import Seastar.Lib.Run

/-!
`chunked_fifo` of `core/chunked_fifo.hh`: a queue in a list of chunks, each a ring of
items with offsets of 32 bits. There is no count of the elements: `size` is computed
from the number of chunks and the offsets of the first and the last of them. Chunks
that are popped empty, and those reserved, wait in a second list.
-/

namespace Seastar

open Lib

variable {T : Type}

/-- `chunked_fifo::chunk`; an item that is not occupied is uninitialized. -/
structure Chunk (T : Type) where
  items : Nat → Option T := fun _ => none
  begin : UInt32 := 0
  end_ : UInt32 := 0

/-- `class chunked_fifo`. The chunks are listed from `_front_chunk` to `_back_chunk`. -/
structure ChunkedFifo (T : Type) (itemsPerChunk : UInt64) where
  chunks : List (Chunk T) := []
  nchunks : UInt64 := 0
  freeChunks : List (Chunk T) := []
  nfreeChunks : UInt64 := 0
  /-- history: how often a chunk was asked of the allocator -/
  allocations : Nat := 0

namespace ChunkedFifo

variable {itemsPerChunk : UInt64}

/-- `mask`. -/
def mask (itemsPerChunk idx : UInt64) : UInt64 := idx &&& (itemsPerChunk - 1)

/-- The slot of an offset in a chunk. -/
def slot (itemsPerChunk : UInt64) (offset : UInt32) : Nat :=
  (mask itemsPerChunk offset.toUInt64).toNat

/-- `empty`. -/
def empty (f : ChunkedFifo T itemsPerChunk) : Bool := f.chunks.isEmpty

/-- `size`; the offsets are subtracted and added in 32 bits. -/
def size (f : ChunkedFifo T itemsPerChunk) : UInt64 :=
  match f.chunks with
  | [] => 0
  | [front] => (front.end_ - front.begin).toUInt64
  | front :: back :: rest =>
    let back := rest.getLastD back
    (front.end_ - front.begin + back.end_ - back.begin).toUInt64 + (f.nchunks - 2) * itemsPerChunk

/-- An item that is read. -/
def item (itemsPerChunk : UInt64) (c : Chunk T) (offset : UInt32) : Except Fault T :=
  match c.items (slot itemsPerChunk offset) with
  | some x => .ok x
  | none => .error .noObject

/-- `front`. -/
def front (f : ChunkedFifo T itemsPerChunk) : Except Fault T :=
  match f.chunks with
  | [] => .error .emptyQueue
  | c :: _ => item itemsPerChunk c c.begin

/-- `back`. -/
def back (f : ChunkedFifo T itemsPerChunk) : Except Fault T :=
  match f.chunks.getLast? with
  | none => .error .emptyQueue
  | some c => item itemsPerChunk c (c.end_ - 1)

/-- A chunk is `itemsPerChunk` bytes at least, and all of them have addresses of 64 bits. -/
def noSpace (f : ChunkedFifo T itemsPerChunk) : Bool :=
  2 ^ 64 ≤ (f.chunks.length + f.freeChunks.length + 1) * itemsPerChunk.toNat

/-- `back_chunk_new`; `new chunk` may throw. Tells whether it did. -/
def backChunkNew (fails : Bool) (f : ChunkedFifo T itemsPerChunk) :
    Bool × ChunkedFifo T itemsPerChunk :=
  match f.freeChunks with
  | c :: rest =>
    (false, { f with
      chunks := f.chunks ++ [{ c with begin := 0, end_ := 0 }]
      nchunks := f.nchunks + 1
      freeChunks := rest
      nfreeChunks := f.nfreeChunks - 1 })
  | [] =>
    if fails || f.noSpace then (true, { f with allocations := f.allocations + 1 })
    else
      (false, { f with
        chunks := f.chunks ++ [{}]
        nchunks := f.nchunks + 1
        allocations := f.allocations + 1 })

/-- `ensure_room_back`. -/
def ensureRoomBack (fails : Bool) (f : ChunkedFifo T itemsPerChunk) :
    Bool × ChunkedFifo T itemsPerChunk :=
  match f.chunks.getLast? with
  | none => f.backChunkNew fails
  | some back =>
    if (back.end_ - back.begin).toUInt64 = itemsPerChunk then f.backChunkNew fails else (false, f)

/-- `undo_room_back`. -/
def undoRoomBack (f : ChunkedFifo T itemsPerChunk) : ChunkedFifo T itemsPerChunk :=
  match f.chunks.getLast? with
  | none => f
  | some back =>
    if back.begin = back.end_ then
      let nchunks := f.nchunks - 1
      { f with chunks := if nchunks = 0 then [] else f.chunks.dropLast, nchunks }
    else f

/-- An item that is constructed at the end of a chunk. -/
def constructBack (itemsPerChunk : UInt64) (x : T) (c : Chunk T) : Chunk T :=
  { c with
    items := Function.update c.items (slot itemsPerChunk c.end_) (some x)
    end_ := c.end_ + 1 }

/-- `emplace_back`, and `push_back`; without a value the constructor throws. Tells whether an
exception was thrown. -/
def emplaceBack (fails : Bool) (x : Option T) (f : ChunkedFifo T itemsPerChunk) :
    Bool × ChunkedFifo T itemsPerChunk :=
  match f.ensureRoomBack fails with
  | (true, f) => (true, f)
  | (false, f) =>
    match x with
    | none => (true, f.undoRoomBack)
    | some x =>
      let back := f.chunks.getLast?.map (constructBack itemsPerChunk x)
      (false, { f with chunks := f.chunks.dropLast ++ back.toList })

/-- `save_free_chunks`. -/
def saveFreeChunks : UInt64 := 1

/-- `front_chunk_delete`, of the chunk that was popped empty. -/
def frontChunkDelete (c : Chunk T) (f : ChunkedFifo T itemsPerChunk) :
    ChunkedFifo T itemsPerChunk :=
  if f.nfreeChunks < saveFreeChunks then
    { f with
      chunks := f.chunks.tail
      nchunks := f.nchunks - 1
      freeChunks := c :: f.freeChunks
      nfreeChunks := f.nfreeChunks + 1 }
  else { f with chunks := f.chunks.tail, nchunks := f.nchunks - 1 }

/-- `pop_front`. -/
def popFront (f : ChunkedFifo T itemsPerChunk) : Except Fault (ChunkedFifo T itemsPerChunk) :=
  match f.chunks with
  | [] => .error .emptyQueue
  | c :: rest => do
    let _ ← item itemsPerChunk c c.begin
    let c := { c with
      items := Function.update c.items (slot itemsPerChunk c.begin) none
      begin := c.begin + 1 }
    if c.begin = c.end_ then .ok (f.frontChunkDelete c) else .ok { f with chunks := c :: rest }

/-- How often `pop_front` can be called before the chunks are gone. -/
def pops (chunks : List (Chunk T)) : Nat :=
  (chunks.map fun c => if c.begin = c.end_ then 2 ^ 32 else (c.end_ - c.begin).toNat).sum

/-- The loop of `clear`. -/
def popAll : Nat → ChunkedFifo T itemsPerChunk → Except Fault (ChunkedFifo T itemsPerChunk)
  | 0, f => .ok f
  | fuel + 1, f =>
    if f.empty then .ok f
    else do
      let f ← f.popFront
      popAll fuel f

/-- `clear`. -/
def clear (f : ChunkedFifo T itemsPerChunk) : Except Fault (ChunkedFifo T itemsPerChunk) :=
  popAll (pops f.chunks) f

/-- `shrink_to_fit`. -/
def shrinkToFit (f : ChunkedFifo T itemsPerChunk) : ChunkedFifo T itemsPerChunk :=
  { f with freeChunks := [], nfreeChunks := 0 }

/-- The move constructor: the new fifo and what is left of the old one. -/
def move (f : ChunkedFifo T itemsPerChunk) :
    ChunkedFifo T itemsPerChunk × ChunkedFifo T itemsPerChunk := (f, {})

/-- The number of chunks that `reserve` sets out to allocate. -/
def neededChunks (n : UInt64) (f : ChunkedFifo T itemsPerChunk) : UInt64 :=
  let need := n - f.size
  let need :=
    match f.chunks.getLast? with
    | none => need
    | some back => need - (itemsPerChunk - (back.end_ - back.begin).toUInt64)
  let needed := (need + itemsPerChunk - 1) / itemsPerChunk
  if needed ≤ f.nfreeChunks then 0 else needed - f.nfreeChunks

/-- The loop of `reserve`, while the allocator has `available` chunks. -/
def allocateFree : Nat → Nat → ChunkedFifo T itemsPerChunk → Bool × ChunkedFifo T itemsPerChunk
  | 0, _, f => (false, f)
  | _ + 1, 0, f => (true, { f with allocations := f.allocations + 1 })
  | needed + 1, available + 1, f =>
    if f.noSpace then (true, { f with allocations := f.allocations + 1 })
    else
      allocateFree needed available { f with
        freeChunks := {} :: f.freeChunks
        nfreeChunks := f.nfreeChunks + 1
        allocations := f.allocations + 1 }

/-- `reserve`; tells whether an exception was thrown. -/
def reserve (available : Nat) (n : UInt64) (f : ChunkedFifo T itemsPerChunk) :
    Bool × ChunkedFifo T itemsPerChunk :=
  allocateFree (f.neededChunks n).toNat available f

end ChunkedFifo

end Seastar
