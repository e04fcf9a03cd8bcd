import Seastar.Lib.Fragments
import Seastar.Lib.Run
import Seastar.Net.Packet

/-!
`packet::impl` of `net/packet.hh` with the memory its fragments point to: the array
`_data` inside the impl, which takes the headers, and buffers outside of it. The
operations act on a pool of packets, since packets share buffers. Buffers are only
added; when they are freed is what the deleters are about.
-/

namespace Seastar.Net.PacketImpl

open Lib

def internalDataSize : Nat := 112

def defaultNrFrags : Nat := 4

/-- The buffers outside of the impls, each known by its place. -/
abbrev Mem := List Bytes

/-- What a `base` points into: `_data` of the impl, or a buffer. -/
inductive Loc
  | data
  | buf (i : Nat)
  deriving DecidableEq, Repr

/-- `struct fragment`: `base` is `off` bytes behind the start of `loc`. -/
structure Fragment where
  loc : Loc
  off : Nat
  size : Nat
  deriving DecidableEq, Repr

/-- `packet::impl`. -/
structure Impl where
  len : UInt32 := 0
  frags : List Fragment := []
  allocatedFrags : Nat
  data : Bytes := List.replicate internalDataSize 0
  headroom : Nat := internalDataSize
  deriving DecidableEq, Repr

/-- The bytes of a fragment. -/
def Fragment.bytes (mem : Mem) (data : Bytes) (f : Fragment) : Bytes :=
  match f.loc with
  | .data => (data.drop f.off).take f.size
  | .buf i => ((mem.getD i []).drop f.off).take f.size

namespace Impl

/-- The byte string of a packet. -/
def bytes (mem : Mem) (p : Impl) : Bytes := (p.frags.map (Fragment.bytes mem p.data)).flatten

/-- `using_internal_data`. -/
def usingInternalData (p : Impl) : Bool :=
  match p.frags with
  | f :: _ => f.loc = .data && f.off < internalDataSize
  | [] => false

/-- `impl::allocate`. The `operator new` asserts that the fragments can be counted in 16 bits. -/
def allocate (nrFrags : Nat) : Except Fault Impl :=
  if max nrFrags defaultNrFrags < 2 ^ 16 then
    .ok { allocatedFrags := max nrFrags defaultNrFrags }
  else .error .assertFailed

/-- `std::copy` to `_data + off`. -/
def writeData (off : Nat) (bs : Bytes) (p : Impl) : Except Fault Impl :=
  if off + bs.length ≤ internalDataSize then
    .ok { p with data := Fragments.overwrite p.data off bs }
  else .error .writePast

/-- `copy_internal_fragment_to`. -/
def copyInternalFragmentTo (p n : Impl) : Except Fault Impl :=
  match p.frags with
  | f :: fs =>
    if p.usingInternalData then
      writeData p.headroom (f.bytes [] p.data)
        { n with frags := { f with off := p.headroom } :: fs }
    else .ok n
  | [] => .ok n

/-- `impl::copy`. -/
def copy (nr : Nat) (p : Impl) : Except Fault Impl := do
  let n ← allocate nr
  p.copyInternalFragmentTo { n with len := p.len, frags := p.frags, headroom := p.headroom }

/-- `allocate_if_needed`. -/
def allocateIfNeeded (extraFrags : Nat) (p : Impl) : Except Fault Impl :=
  if p.frags.length + extraFrags ≤ p.allocatedFrags then .ok p
  else p.copy (max (p.frags.length + extraFrags) (2 * p.frags.length))

/-- `unuse_internal_data`. -/
def unuseInternalData (mem : Mem) (p : Impl) : Impl × Mem :=
  match p.frags with
  | f :: fs =>
    if p.usingInternalData then
      ({ p with frags := ⟨.buf mem.length, 0, f.size⟩ :: fs, headroom := internalDataSize },
        mem ++ [f.bytes mem p.data])
    else (p, mem)
  | [] => (p, mem)

/-! ## Constructors -/

/-- `impl(fragment)`: copy data into a packet. -/
def ofFragment (mem : Mem) (bs : Bytes) : Impl × Mem :=
  if bs.length ≤ internalDataSize then
    ({ len := UInt32.ofNat bs.length
       frags := [⟨.data, internalDataSize - bs.length, bs.length⟩]
       allocatedFrags := defaultNrFrags
       data := Fragments.overwrite (List.replicate internalDataSize 0)
         (internalDataSize - bs.length) bs
       headroom := internalDataSize - bs.length }, mem)
  else
    ({ len := UInt32.ofNat bs.length, frags := [⟨.buf mem.length, 0, bs.length⟩]
       allocatedFrags := defaultNrFrags }, mem ++ [bs])

/-- Fragments that are the buffers from the place `i` on. -/
def wholeBuffers : Nat → List Bytes → List Fragment
  | _, [] => []
  | i, b :: bs => ⟨.buf i, 0, b.length⟩ :: wholeBuffers (i + 1) bs

/-- `packet(std::vector<fragment>, deleter)`, for fragments that are buffers of the caller. -/
def ofFrags (mem : Mem) (fs : List Bytes) : Except Fault (Impl × Mem) := do
  let p ← allocate fs.length
  .ok ({ p with len := UInt32.ofNat (fragsLen fs), frags := wholeBuffers mem.length fs }, mem ++ fs)

/-- `packet(packet&&, fragment)`, which copies the fragment, and `packet(packet&&, fragment,
deleter)`, which takes a buffer of the caller. -/
def appendFragment (mem : Mem) (bs : Bytes) (p : Impl) : Except Fault (Impl × Mem) := do
  let p ← p.allocateIfNeeded 1
  .ok ({ p with
      len := p.len + UInt32.ofNat bs.length
      frags := p.frags ++ [⟨.buf mem.length, 0, bs.length⟩] }, mem ++ [bs])

/-! ## In front -/

/-- The first part of `allocate_headroom`: the first fragment is in `_data`, if only at its end. -/
def useInternalData (p : Impl) : Except Fault Impl :=
  if p.usingInternalData then .ok p
  else do
    let p ← p.allocateIfNeeded 1
    .ok { p with frags := ⟨.data, internalDataSize, 0⟩ :: p.frags }

/-- The rest of it. A base in front of `_data` points to memory of others. -/
def takeHeadroom (size : Nat) (p : Impl) : Except Fault Impl :=
  match p.frags with
  | f :: fs =>
    if size ≤ f.off then
      .ok { p with
        headroom := p.headroom - size
        frags := { f with off := f.off - size, size := f.size + size } :: fs }
    else .error .outOfBounds
  | [] => .error .outOfBounds

/-- `allocate_headroom`; `none` is false. -/
def allocateHeadroom (size : Nat) (p : Impl) : Except Fault (Option Impl) :=
  if size ≤ p.headroom then do
    let p ← useInternalData { p with len := p.len + UInt32.ofNat size }
    let p ← p.takeHeadroom size
    .ok (some p)
  else .ok none

/-- Write `bs` where the first fragment, which is in `_data`, begins. -/
def writeFront (bs : Bytes) (p : Impl) : Except Fault Impl :=
  match p.frags with
  | f :: _ => p.writeData f.off bs
  | [] => .error .outOfBounds

/-- A new buffer in front of the fragments. -/
def pushFront (mem : Mem) (bs : Bytes) (p : Impl) : Except Fault (Impl × Mem) := do
  let p ← p.allocateIfNeeded 1
  .ok ({ p with
      len := p.len + UInt32.ofNat bs.length
      frags := ⟨.buf mem.length, 0, bs.length⟩ :: p.frags }, mem ++ [bs])

/-- `packet(fragment, packet&&)`. -/
def prependFragment (mem : Mem) (bs : Bytes) (p : Impl) : Except Fault (Impl × Mem) := do
  match ← p.allocateHeadroom bs.length with
  | some p =>
    let p ← p.writeFront bs
    .ok (p, mem)
  | none =>
    let (p, mem) := p.unuseInternalData mem
    p.pushFront mem bs

/-- `prepend_uninitialized_header`, and `bs` is what the caller writes there. -/
def prependHeader (mem : Mem) (bs : Bytes) (p : Impl) : Except Fault (Impl × Mem) := do
  match ← p.allocateHeadroom bs.length with
  | some p =>
    let p ← p.writeFront bs
    .ok (p, mem)
  | none =>
    let (p, mem) := p.unuseInternalData mem
    -- after `unuse_internal_data` there may be space
    match ← p.allocateHeadroom bs.length with
    | some p =>
      let p ← p.writeFront bs
      .ok (p, mem)
    | none => p.pushFront mem bs

/-! ## Append and trim -/

/-- `append`; `q` is moved. -/
def append (mem : Mem) (p q : Impl) : Except Fault (Impl × Mem) := do
  if p.len = 0 then .ok (q, mem)
  else
    let p ← p.allocateIfNeeded q.frags.length
    let (q, mem) := q.unuseInternalData mem
    .ok ({ p with len := p.len + q.len, frags := p.frags ++ q.frags }, mem)

/-- Skip whole fragments, as `trim_front`, `trim_back` (from the last) and `share` do: what is left
of `n`, and the fragments. -/
def dropWhole : Nat → List Fragment → Nat × List Fragment
  | n, [] => (n, [])
  | n, f :: fs => if n ≠ 0 ∧ f.size ≤ n then dropWhole (n - f.size) fs else (n, f :: fs)

/-- `trim_front`. -/
def trimFront (howMuch : Nat) (p : Impl) : Except Fault Impl :=
  if howMuch ≤ p.len.toNat then
    let (left, frags) := dropWhole howMuch p.frags
    let p : Impl := { p with len := p.len - UInt32.ofNat howMuch, frags := frags }
    let p := if p.usingInternalData then p else { p with headroom := internalDataSize }
    match frags with
    | f :: fs =>
      if left = 0 then .ok p
      else
        .ok { p with
          headroom := if p.usingInternalData then p.headroom + left else p.headroom
          frags := { f with off := f.off + left, size := f.size - left } :: fs }
    | [] => .ok p
  else .error .trimTooLong

/-- `trim_back`. -/
def trimBack (howMuch : Nat) (p : Impl) : Except Fault Impl :=
  if howMuch ≤ p.len.toNat then
    let (left, back) := dropWhole howMuch p.frags.reverse
    let p : Impl := { p with len := p.len - UInt32.ofNat howMuch, frags := back.reverse }
    match back with
    | f :: fs =>
      if left = 0 then .ok p
      else
        let p : Impl := { p with frags := ({ f with size := f.size - left } :: fs).reverse }
        .ok (if fs.isEmpty && p.usingInternalData then { p with headroom := p.headroom + left }
          else p)
    | [] => .ok p
  else .error .trimTooLong

/-! ## Linearize and share -/

/-- The copy loop of `linearize`: the bytes of the leading fragments until `desired` of them are
there, and the other fragments. -/
def gather (mem : Mem) (data : Bytes) : Nat → List Fragment → Bytes × List Fragment
  | 0, fs => ([], fs)
  | _ + 1, [] => ([], [])
  | n + 1, f :: fs =>
    (f.bytes mem data ++ (gather mem data (n + 1 - f.size) fs).1,
      (gather mem data (n + 1 - f.size) fs).2)

/-- `linearize(at_frag, desired_size)`. When no fragment is collapsed, one more needs its place. -/
def linearizeAt (mem : Mem) (atFrag desired : Nat) (p : Impl) : Except Fault (Impl × Mem) :=
  let (p, mem) := p.unuseInternalData mem
  let (bs, rest) := gather mem p.data desired (p.frags.drop atFrag)
  let frags := p.frags.take atFrag ++ ⟨.buf mem.length, 0, bs.length⟩ :: rest
  if frags.length ≤ p.allocatedFrags then .ok ({ p with frags := frags }, mem ++ [bs])
  else .error .writePast

/-- The skip loop of `get_header`: a fragment and the offset in it. -/
def locate : Nat → List Fragment → Option (Nat × Nat)
  | _, [] => none
  | n, f :: fs =>
    if f.size ≤ n then (locate (n - f.size) fs).map fun r => (r.1 + 1, r.2) else some (0, n)

/-- `get_header`: the pointer, as a fragment and an offset, and the packet after it. -/
def getHeader (mem : Mem) (offset size : Nat) (p : Impl) :
    Except Fault (Option (Nat × Nat) × Impl × Mem) := do
  if offset + size > p.len.toNat then .ok (none, p, mem)
  else
    match locate offset p.frags with
    | none => .ok (none, p, mem)
    | some (i, off) =>
      if off + size > (p.frags.getD i ⟨.data, 0, 0⟩).size then
        let r ← p.linearizeAt mem i (off + size)
        .ok (some (i, off), r)
      else .ok (some (i, off), p, mem)

/-- The second loop of `share`. -/
def collect : Nat → Nat → List Fragment → Option (List Fragment)
  | _, 0, _ => some []
  | _, _ + 1, [] => none
  | off, n + 1, f :: fs =>
    let size := min (n + 1) (f.size - off)
    (collect 0 (n + 1 - size) fs).map fun gs => { f with off := f.off + off, size := size } :: gs

/-- The new packet of `share` takes its fragments. The loop runs past them when there are not as many
bytes, or more are asked for than `_len` can count. -/
def takePart (off len : Nat) (frags : List Fragment) (n : Impl) : Except Fault Impl :=
  if len < 2 ^ 32 then
    match collect off len frags with
    | some gs => .ok { n with len := UInt32.ofNat len, frags := gs }
    | none => .error .shareTooLong
  else .error .shareTooLong

/-- `share(offset, len)`: the new packet, and this one after it. -/
def share (mem : Mem) (offset len : Nat) (p : Impl) : Except Fault (Impl × Impl × Mem) := do
  let (p, mem) := p.unuseInternalData mem
  let n ← allocate 1
  let n ← n.allocateIfNeeded p.frags.length
  match dropWhole offset p.frags with
  | (_ + 1, []) => .error .shareTooLong
  | (off, frags) => do
    let n ← n.takePart off len frags
    .ok (n, p, mem)

/-- `reserve`. -/
def reserve (nFrags : Nat) (p : Impl) : Except Fault Impl :=
  if p.frags.length < nFrags then p.allocateIfNeeded (nFrags - p.frags.length) else .ok p

end Impl

/-! ## Packets -/

/-- The buffers and the packets there are; a packet that was moved away has no impl. -/
structure Pool where
  mem : Mem := []
  packets : List (Option Impl) := []
  deriving DecidableEq, Repr

/-- An operation on the packets of a pool, which are named by their places. -/
inductive Op
  | empty (nrFrags : Nat)
  | ofFragment (bs : Bytes)
  | ofFrags (fs : List Bytes)
  | appendFragment (i : Nat) (bs : Bytes)
  | prependFragment (i : Nat) (bs : Bytes)
  | prependHeader (i : Nat) (bs : Bytes)
  /-- `packets[i].append(std::move(packets[j]))` -/
  | append (i j : Nat)
  | trimFront (i howMuch : Nat)
  | trimBack (i howMuch : Nat)
  | getHeader (i offset size : Nat)
  | linearize (i : Nat)
  | share (i offset len : Nat)
  | reserve (i nFrags : Nat)
  /-- the packet that `free_on_cpu` returns takes the place of the one it is called for -/
  | freeOnCpu (i : Nat)
  | reset (i : Nat)

namespace Pool

/-- The impl of a packet. -/
def get (s : Pool) (i : Nat) : Except Fault Impl :=
  match s.packets[i]? with
  | some (some p) => .ok p
  | _ => .error .movedPacket

/-- The impl of a packet has changed, and buffers were added. -/
def put (s : Pool) (i : Nat) (r : Impl × Mem) : Pool := ⟨r.2, s.packets.set i (some r.1)⟩

/-- There is a new packet. -/
def add (s : Pool) (r : Impl × Mem) : Pool := ⟨r.2, s.packets ++ [some r.1]⟩

/-- One operation. -/
def step (s : Pool) : Op → Except Fault Pool
  | .empty nrFrags => do
    let p ← Impl.allocate nrFrags
    .ok (s.add (p, s.mem))
  | .ofFragment bs => .ok (s.add (Impl.ofFragment s.mem bs))
  | .ofFrags fs => do
    let r ← Impl.ofFrags s.mem fs
    .ok (s.add r)
  | .appendFragment i bs => do
    let p ← s.get i
    let r ← p.appendFragment s.mem bs
    .ok (s.put i r)
  | .prependFragment i bs => do
    let p ← s.get i
    let r ← p.prependFragment s.mem bs
    .ok (s.put i r)
  | .prependHeader i bs => do
    let p ← s.get i
    let r ← p.prependHeader s.mem bs
    .ok (s.put i r)
  | .append i j => do
    let p ← s.get i
    let q ← ({ s with packets := s.packets.set i none } : Pool).get j
    let r ← p.append s.mem q
    .ok (({ s with packets := s.packets.set j none } : Pool).put i r)
  | .trimFront i howMuch => do
    let p ← s.get i
    let q ← p.trimFront howMuch
    .ok (s.put i (q, s.mem))
  | .trimBack i howMuch => do
    let p ← s.get i
    let q ← p.trimBack howMuch
    .ok (s.put i (q, s.mem))
  | .getHeader i offset size => do
    let p ← s.get i
    let (_, r) ← p.getHeader s.mem offset size
    .ok (s.put i r)
  | .linearize i => do
    let p ← s.get i
    let r ← p.linearizeAt s.mem 0 p.len.toNat
    .ok (s.put i r)
  | .share i offset len => do
    let p ← s.get i
    let (n, r) ← p.share s.mem offset len
    .ok ((s.put i r).add (n, r.2))
  | .reserve i nFrags => do
    let p ← s.get i
    let q ← p.reserve nFrags
    .ok (s.put i (q, s.mem))
  | .freeOnCpu i => do
    let p ← s.get i
    let q ← p.copy p.frags.length
    .ok (s.put i (q, s.mem))
  | .reset i => .ok { s with packets := s.packets.set i none }

/-- The pool after the operations. -/
def run : Pool → List Op → Except Fault Pool := Run.run step

/-- Every operation of the run meets `P` in the pool it finds. -/
def Along (P : Pool → Op → Prop) : Pool → List Op → Prop := Run.Along step P

instance (P : Pool → Op → Prop) [∀ s o, Decidable (P s o)] (s : Pool) (os : List Op) :
    Decidable (Along P s os) := inferInstanceAs (Decidable (Run.Along step P s os))

end Pool

end Seastar.Net.PacketImpl
