import Mathlib.Algebra.Group.Nat.Defs
import Mathlib.Data.List.Chain
import Seastar.Lib.Run

/-!
`vring` of `net/virtio.cc`: descriptors that are free or linked to buffer chains, and the two rings
in which the heads of chains go to the device and come back. The rings are in memory that the device
reads and writes too; their indices have 16 bits.
-/

namespace Seastar.Net.Virtio

open Lib

/-- A power of two that a virtqueue can have for its size. -/
structure RingSize where
  log : Nat
  log_le : log ≤ 15

/-- `struct buffer`. -/
structure Buffer where
  addr : UInt64
  len : UInt32
  writeable : Bool
  deriving DecidableEq, Repr

/-- A `BufferChain`. History: how many chains were posted before it. -/
structure Chain where
  number : Nat
  buffers : List Buffer
  deriving DecidableEq, Repr

/-- `class desc`. -/
structure Desc where
  paddr : UInt64 := 0
  len : UInt32 := 0
  hasNext : Bool := false
  writeable : Bool := false
  next : UInt16 := 0
  deriving DecidableEq, Repr

/-- `struct used_elem`. -/
structure UsedElem where
  id : UInt32 := 0
  len : UInt32 := 0
  deriving DecidableEq, Repr

/-- What stops the driver. -/
inductive Stop
  /-- the assertion of `allocate_desc` -/
  | noFreeDesc
  /-- the assertion of `txq::post` that it need not wait -/
  | mustWait
  /-- the assertion of `complete_buffer` that a packet has buffers -/
  | noBuffers
  /-- a buffer chain that was moved away is completed -/
  | noChain
  deriving DecidableEq, Repr

/-- `class vring`. -/
structure Vring where
  config : RingSize
  bufferChains : Nat → Option Chain := fun _ => none
  descs : Nat → Desc := fun _ => {}
  /-- `_avail._shared->_ring` -/
  availRing : Nat → UInt16 := fun _ => 0
  /-- `_avail._shared->_idx` -/
  availIdx : UInt16 := 0
  /-- `_avail._head` -/
  head : UInt16 := 0
  /-- `_used._shared->_used_elements` -/
  usedElements : Nat → UsedElem := fun _ => {}
  /-- `_used._shared->_idx` -/
  usedIdx : UInt16 := 0
  /-- `_used._tail` -/
  tail : UInt16 := 0
  freeHead : Option Nat := none
  freeLast : Option Nat := none
  /-- history: the number of chains posted -/
  posted : Nat := 0
  /-- history: the chains handed to their completion, with the lengths -/
  completed : List (Nat × UInt32) := []

namespace Vring

/-- `size`. -/
def size (r : Vring) : Nat := 2 ^ r.config.log

/-- `masked`. -/
def masked (idx : UInt16) (r : Vring) : Nat := idx.toNat &&& (r.size - 1)

/-- A descriptor is written. -/
def setDesc (n : Nat) (d : Desc) (r : Vring) : Vring :=
  { r with descs := Function.update r.descs n d }

/-- `setup`, of a ring in zeroed memory, but for the signal of the semaphore. -/
def setup (config : RingSize) : Vring where
  config
  descs i := if i < 2 ^ config.log then { next := UInt16.ofNat (i + 1) } else {}
  freeHead := some 0
  freeLast := some (2 ^ config.log - 1)

/-- `allocate_desc`. -/
def allocateDesc (r : Vring) : Except Stop (Nat × Vring) :=
  match r.freeHead with
  | none => .error .noFreeDesc
  | some desc =>
    if some desc = r.freeLast then .ok (desc, { r with freeLast := none, freeHead := none })
    else .ok (desc, { r with freeHead := some (r.descs desc).next.toNat })

/-- The inner loop of `post`, from the descriptor that `prev` points to, if that is not
`pseudo_head`: `pseudo_head._next`. -/
def link : List Buffer → Option Nat → UInt16 → Vring → Except Stop (UInt16 × Vring)
  | [], _, head, r => .ok (head, r)
  | b :: bs, prev, head, r => do
    let (idx, r) ← r.allocateDesc
    let (head, r) := match prev with
      | none => (UInt16.ofNat idx, r)
      | some p => (head, r.setDesc p { r.descs p with hasNext := true, next := UInt16.ofNat idx })
    let r := r.setDesc idx { r.descs idx with
      paddr := b.addr, len := b.len, hasNext := false, writeable := b.writeable }
    link bs (some idx) head r

/-- `post`, of one chain. -/
def postChain (bs : List Buffer) (r : Vring) : Except Stop Vring := do
  let (descHead, r) ← link bs none 0 r
  .ok { r with
    bufferChains := Function.update r.bufferChains descHead.toNat (some ⟨r.posted, bs⟩)
    availRing := Function.update r.availRing (r.masked r.head) descHead
    head := r.head + 1
    posted := r.posted + 1 }

/-- The loop of `post`. -/
def postLoop : List (List Buffer) → Vring → Except Stop Vring
  | [], r => .ok r
  | bs :: rest, r => do
    let r ← r.postChain bs
    postLoop rest r

/-- `post`. -/
def post (chains : List (List Buffer)) (r : Vring) : Except Stop Vring := do
  let r ← postLoop chains r
  .ok { r with availIdx := r.head }

/-- The end of the chain at a descriptor. -/
def chainEnd (descs : Nat → Desc) : Nat → Nat → Nat
  | 0, id => id
  | k + 1, id => if (descs id).hasNext then chainEnd descs k (descs id).next.toNat else id

/-- The descriptors of a chain go to the end of the free list. -/
def free (id : Nat) (r : Vring) : Vring :=
  let r := match r.freeLast with
    | some last => r.setDesc last { r.descs last with next := UInt16.ofNat id }
    | none => { r with freeHead := some id }
  { r with freeLast := some (chainEnd r.descs r.size id) }

/-- The loop of `do_complete`, with what the completion does to its own state. -/
def completeLoop {σ : Type} (complete : Chain → UInt32 → σ → Except Stop σ) (usedHead : UInt16) :
    Nat → σ → Vring → Except Stop (σ × Vring)
  | 0, s, r => .ok (s, r)
  | k + 1, s, r =>
    if usedHead = r.tail then .ok (s, r)
    else
      let ue := r.usedElements (r.masked r.tail)
      let r := { r with tail := r.tail + 1 }
      match r.bufferChains ue.id.toNat with
      | none => .error .noChain
      | some bc => do
        let r := { r with
          bufferChains := Function.update r.bufferChains ue.id.toNat none
          completed := r.completed ++ [(bc.number, ue.len)] }
        let s ← complete bc ue.len s
        completeLoop complete usedHead k s (r.free ue.id.toNat)

/-- `do_complete`. -/
def doComplete {σ : Type} (complete : Chain → UInt32 → σ → Except Stop σ) (s : σ) (r : Vring) :
    Except Stop (σ × Vring) :=
  completeLoop complete r.usedIdx (r.usedIdx - r.tail).toNat s r

/-! ## What the descriptors are linked to -/

/-- The descriptors from `_free_head` to `_free_last`. -/
def freeWalk (descs : Nat → Desc) (freeLast : Option Nat) : Nat → Nat → List Nat
  | 0, _ => []
  | k + 1, id =>
    if some id = freeLast then [id]
    else id :: freeWalk descs freeLast k (descs id).next.toNat

/-- The free list. -/
def freeList (r : Vring) : List Nat :=
  match r.freeHead with
  | none => []
  | some id => freeWalk r.descs r.freeLast r.size id

/-- The descriptors that are linked from one on. -/
def chainWalk (descs : Nat → Desc) : Nat → Nat → List Nat
  | 0, _ => []
  | k + 1, id =>
    if (descs id).hasNext then id :: chainWalk descs k (descs id).next.toNat else [id]

/-- The heads of the chains that were posted and are not completed. -/
def heads (r : Vring) : List Nat :=
  (List.range r.size).filter fun id => (r.bufferChains id).isSome

/-- The descriptors of these chains. -/
def outstanding (r : Vring) : List Nat := r.heads.flatMap (chainWalk r.descs r.size)

end Vring

/-- The device: it takes the heads of chains from one ring, in turn, and puts them in the other one
in any order. A chain is named by how many it took before. -/
structure Device where
  /-- the next entry of `_avail._shared->_ring` to read -/
  idx : UInt16 := 0
  /-- the chains it has, with their heads -/
  held : List (Nat × UInt16) := []
  /-- history: the number of chains taken -/
  taken : Nat := 0
  /-- history: the chains returned, with the lengths -/
  reported : List (Nat × UInt32) := []
  deriving DecidableEq, Repr

/-- The device takes a chain, if there is one. -/
def Device.take (r : Vring) (d : Device) : Device :=
  if d.idx = r.availIdx then d
  else { d with
    idx := d.idx + 1
    held := d.held ++ [(d.taken, r.availRing (r.masked d.idx))]
    taken := d.taken + 1 }

/-- The device returns the chain at a place of those it has, if there is one. -/
def Device.give (i : Nat) (len : UInt32) (r : Vring) (d : Device) : Vring × Device :=
  match d.held[i]? with
  | none => (r, d)
  | some (number, head) =>
    ({ r with
      usedElements := Function.update r.usedElements (r.masked r.usedIdx)
        ⟨head.toUInt32, len⟩
      usedIdx := r.usedIdx + 1 },
    { d with held := d.held.eraseIdx i, reported := d.reported ++ [(number, len)] })

end Seastar.Net.Virtio
