import Seastar.Core.Fault
import Seastar.Lib.Fragments
import Seastar.Lib.Run

/-!
The memory streams of `core/simple-stream.hh`. A simple stream runs over one piece of
memory, a fragmented one over the pieces that an iterator yields; a substream is a stream
of its own over the same memory.
-/

namespace Seastar

open Lib

/-- The buffers that there are. -/
abbrev Buffers := List (List UInt8)

/-- A pointer into a buffer. -/
structure Place where
  buffer : Nat := 0
  offset : Nat := 0
  deriving DecidableEq, Repr

/-- `std::copy_n` to a place. -/
def Buffers.copyTo (mem : Buffers) (p : Place) (bs : List UInt8) : Except Fault Buffers :=
  if bs.isEmpty then .ok mem
  else
    match mem[p.buffer]? with
    | none => .error .writePast
    | some b =>
      if p.offset + bs.length ≤ b.length then
        .ok (mem.set p.buffer (Fragments.overwrite b p.offset bs))
      else .error .writePast

/-- `std::copy_n` from a place. -/
def Buffers.copyFrom (mem : Buffers) (p : Place) (n : Nat) : Except Fault (List UInt8) :=
  if n = 0 then .ok []
  else
    match mem[p.buffer]? with
    | none => .error .readPast
    | some b => if p.offset + n ≤ b.length then .ok ((b.drop p.offset).take n) else .error .readPast

/-- `simple_memory_output_stream`, and `memory_input_stream::simple`. The default is the null
pointer, with a size of 0. -/
structure SimpleStream where
  p : Place := {}
  size : Nat := 0
  deriving DecidableEq, Repr

namespace SimpleStream

/-- `skip`; the exception is that of an output or of an input stream. -/
def skip (fault : Fault) (n : Nat) (s : SimpleStream) : Except Fault SimpleStream :=
  if s.size < n then .error fault
  else .ok { p := { s.p with offset := s.p.offset + n }, size := s.size - n }

/-- `write_substream` and `read_substream`, with what is left of the stream. -/
def substream (fault : Fault) (n : Nat) (s : SimpleStream) :
    Except Fault (SimpleStream × SimpleStream) :=
  if s.size < n then .error fault
  else do
    let rest ← s.skip fault n
    .ok ({ p := s.p, size := n }, rest)

/-- `write`. -/
def write (fault : Fault) (bs : List UInt8) (mem : Buffers) (s : SimpleStream) :
    Except Fault (Buffers × SimpleStream) :=
  if s.size < bs.length then .error fault
  else do
    let mem ← Buffers.copyTo mem s.p bs
    let s ← s.skip fault bs.length
    .ok (mem, s)

/-- `read`. -/
def read (fault : Fault) (n : Nat) (mem : Buffers) (s : SimpleStream) :
    Except Fault (List UInt8 × SimpleStream) :=
  if s.size < n then .error fault
  else do
    let bs ← Buffers.copyFrom mem s.p n
    let s ← s.skip fault n
    .ok (bs, s)

end SimpleStream

/-- `fragmented_memory_output_stream`, and `memory_input_stream::fragmented`, with the fragments
from `_it` on. -/
structure FragmentedStream where
  it : List SimpleStream
  current : SimpleStream := {}
  size : Nat
  deriving DecidableEq, Repr

namespace FragmentedStream

/-- The fragment that the loop goes on with: the next one when the current one is used up. -/
def nextFragment (current : SimpleStream) (it : List SimpleStream) :
    Except Fault (SimpleStream × List SimpleStream) :=
  if current.size = 0 then
    match it with
    | [] => .error .outOfBounds
    | fragment :: it => .ok (fragment, it)
  else .ok (current, it)

/-- The loop of `for_each_fragment`: the substreams that its function is called with, and then
`_current` and `_it`. With a round for each fragment and two more, it ends or runs out of them. -/
def loop (fault : Fault) : Nat → Nat → SimpleStream → List SimpleStream →
    Except Fault (List SimpleStream × SimpleStream × List SimpleStream)
  | 0, _, _, _ => .error .outOfBounds
  | rounds + 1, size, current, it =>
    if size = 0 then .ok ([], current, it)
    else do
      let (current, it) ← nextFragment current it
      let thisSize := min current.size size
      let (part, current) ← current.substream fault thisSize
      let (parts, current, it) ← loop fault rounds (size - thisSize) current it
      .ok (part :: parts, current, it)

/-- `for_each_fragment`. -/
def forEachFragment (fault : Fault) (size : Nat) (s : FragmentedStream) :
    Except Fault (List SimpleStream × FragmentedStream) :=
  if s.size < size then .error fault
  else do
    let (parts, current, it) ← loop fault (s.it.length + 2) size s.current s.it
    .ok (parts, { it, current, size := s.size - size })

/-- `skip`. -/
def skip (fault : Fault) (n : Nat) (s : FragmentedStream) : Except Fault FragmentedStream := do
  let (_, s) ← s.forEachFragment fault n
  .ok s

/-- The function of `write`, called for each part. -/
def copyToParts : Buffers → List SimpleStream → List UInt8 → Except Fault Buffers
  | mem, [], _ => .ok mem
  | mem, part :: parts, bs => do
    let mem ← Buffers.copyTo mem part.p (bs.take part.size)
    copyToParts mem parts (bs.drop part.size)

/-- `write`. -/
def write (fault : Fault) (bs : List UInt8) (mem : Buffers) (s : FragmentedStream) :
    Except Fault (Buffers × FragmentedStream) := do
  let (parts, s) ← s.forEachFragment fault bs.length
  let mem ← copyToParts mem parts bs
  .ok (mem, s)

/-- The function of `read`, called for each part. -/
def copyFromParts (mem : Buffers) : List SimpleStream → Except Fault (List UInt8)
  | [] => .ok []
  | part :: parts => do
    let bs ← Buffers.copyFrom mem part.p part.size
    let rest ← copyFromParts mem parts
    .ok (bs ++ rest)

/-- `read`. -/
def read (fault : Fault) (n : Nat) (mem : Buffers) (s : FragmentedStream) :
    Except Fault (List UInt8 × FragmentedStream) := do
  let (parts, s) ← s.forEachFragment fault n
  let bs ← copyFromParts mem parts
  .ok (bs, s)

end FragmentedStream

/-- `memory_output_stream`, and `memory_input_stream`. -/
inductive MemoryStream
  | simple (s : SimpleStream)
  | fragmented (s : FragmentedStream)
  deriving DecidableEq, Repr

/-- Whether a stream is for output or for input. -/
inductive StreamKind
  | output
  | input
  deriving DecidableEq, Repr

/-- The exceptions of `std::out_of_range`: "serialization buffer overflow" and "deserialization
buffer underflow". -/
def StreamKind.outOfRange : StreamKind → Fault
  | output => .bufferOverflow
  | input => .bufferUnderflow

namespace MemoryStream

/-- `size`. -/
def size : MemoryStream → Nat
  | simple s => s.size
  | fragmented s => s.size

/-- `skip`. -/
def skip (kind : StreamKind) (n : Nat) : MemoryStream → Except Fault MemoryStream
  | simple s => (s.skip kind.outOfRange n).map simple
  | fragmented s => (s.skip kind.outOfRange n).map fragmented

/-- `write`. -/
def write (kind : StreamKind) (bs : List UInt8) (mem : Buffers) :
    MemoryStream → Except Fault (Buffers × MemoryStream)
  | simple s => (s.write kind.outOfRange bs mem).map fun r => (r.1, simple r.2)
  | fragmented s => (s.write kind.outOfRange bs mem).map fun r => (r.1, fragmented r.2)

/-- `read`. -/
def read (kind : StreamKind) (n : Nat) (mem : Buffers) :
    MemoryStream → Except Fault (List UInt8 × MemoryStream)
  | simple s => (s.read kind.outOfRange n mem).map fun r => (r.1, simple r.2)
  | fragmented s => (s.read kind.outOfRange n mem).map fun r => (r.1, fragmented r.2)

/-- `write_substream` and `read_substream`, with what is left of the stream. A substream of an
output stream is simple when the current fragment is enough. -/
def substream (kind : StreamKind) (n : Nat) :
    MemoryStream → Except Fault (MemoryStream × MemoryStream)
  | simple s => (s.substream kind.outOfRange n).map fun r => (simple r.1, simple r.2)
  | fragmented s =>
    if s.size < n then .error kind.outOfRange
    else if kind = .output ∧ n ≤ s.current.size then do
      let (sub, current) ← s.current.substream kind.outOfRange n
      .ok (simple sub, fragmented { s with current, size := s.size - n })
    else do
      let rest ← s.skip kind.outOfRange n
      .ok (fragmented { s with size := n }, fragmented rest)

end MemoryStream

/-- `measuring_output_stream`. -/
structure MeasuringStream where
  size : UInt64 := 0
  deriving DecidableEq, Repr

/-- `write` of a number of bytes. -/
def MeasuringStream.write (n : UInt64) (s : MeasuringStream) : MeasuringStream :=
  { size := s.size + n }

/-! ## Streams in use -/

namespace MemoryStreams

/-- A call of a stream. -/
inductive Call
  | skip (n : Nat)
  | write (bs : List UInt8)
  | read (n : Nat)
  | substream (n : Nat)
  deriving DecidableEq, Repr

/-- A stream, its substreams in the order in which they were made, and what the calls returned:
bytes, or nothing when `std::out_of_range` was thrown. -/
structure State where
  mem : Buffers
  streams : List MemoryStream
  results : List (Option (List UInt8)) := []
  deriving DecidableEq, Repr

/-- A call: the bytes it returns, the memory, the stream, and the substream it makes. -/
def call (kind : StreamKind) (mem : Buffers) (s : MemoryStream) :
    Call → Except Fault (List UInt8 × Buffers × MemoryStream × Option MemoryStream)
  | .skip n => (s.skip kind n).map fun s => ([], mem, s, none)
  | .write bs => (s.write kind bs mem).map fun r => ([], r.1, r.2, none)
  | .read n => (s.read kind n mem).map fun r => (r.1, mem, r.2, none)
  | .substream n => (s.substream kind n).map fun r => ([], mem, r.2, some r.1)

/-- A call of one of the streams. An exception leaves everything as it was. -/
def step (kind : StreamKind) (st : State) (c : Nat × Call) : Except Fault State :=
  match st.streams[c.1]? with
  | none => .error .outOfBounds
  | some s =>
    match call kind st.mem s c.2 with
    | .ok (bs, mem, s, sub) =>
      .ok {
        mem
        streams := st.streams.set c.1 s ++ sub.toList
        results := st.results ++ [some bs] }
    | .error e =>
      if e = kind.outOfRange then .ok { st with results := st.results ++ [none] } else .error e

/-- The streams after the calls, oldest first. -/
def run (kind : StreamKind) : State → List (Nat × Call) → Except Fault State := Run.run (step kind)

/-- The calls are of streams that are there, and are those of their class. -/
def Valid (kind : StreamKind) (st : State) : Nat × Call → Prop
  | (i, .write _) => i < st.streams.length ∧ kind = .output
  | (i, .read _) => i < st.streams.length ∧ kind = .input
  | (i, _) => i < st.streams.length

instance (kind : StreamKind) (st : State) (c : Nat × Call) : Decidable (Valid kind st c) := by
  unfold Valid
  split <;> infer_instance

/-- The fragments of a memory, each a buffer of its own. -/
def fragments (mem : Buffers) : List SimpleStream :=
  mem.mapIdx fun i b => { p := { buffer := i }, size := b.length }

/-- A fragmented stream over a memory. -/
def fragmented (mem : Buffers) (size : Nat) : State :=
  { mem, streams := [.fragmented { it := fragments mem, size }] }

/-- The simple stream over the concatenated memory. -/
def simple (mem : Buffers) (size : Nat) : State :=
  { mem := [mem.flatten], streams := [.simple { size }] }

end MemoryStreams

end Seastar
