import Seastar.Core.Semaphore
import Seastar.Net.Virtio.Vring

/-!
The queues of `net/virtio.cc` on their rings: `txq` sends packets, one chain of buffers for each,
and `rxq` keeps the device supplied with single buffers. A semaphore counts the descriptors that may
be posted.
-/

namespace Seastar.Net.Virtio

open Lib

/-- `current` of the semaphore. -/
def current (s : Semaphore) : Nat := s.count.toNat

/-- `_available_descriptors` of a new ring. -/
def initial (config : RingSize) : Semaphore := (Semaphore.init 0).signal (2 ^ config.log)

/-! ## `txq` -/

/-- `struct fragment`. -/
structure Fragment where
  base : UInt64
  size : UInt64
  deriving DecidableEq, Repr

/-- A packet to send, as far as a header is put before it. -/
structure TxPacket where
  frags : List Fragment
  headroom : UInt64
  /-- `using_internal_data`, of a packet that has fragments -/
  usingInternalData : Bool
  /-- the end of the internal data -/
  internalEnd : UInt64
  /-- the memory that is allocated for the header, and for the internal data -/
  header : UInt64
  copy : UInt64
  deriving DecidableEq, Repr

/-- `fragment_to_buffer`. -/
def fragmentToBuffer (f : Fragment) : Buffer := ⟨f.base, f.size.toUInt32, false⟩

/-- `packet(fragment, packet&&)`: the fragments. -/
def TxPacket.prepend (size : UInt64) (p : TxPacket) : List Fragment :=
  if size ≤ p.headroom then
    match p.usingInternalData, p.frags with
    | true, f :: fs => ⟨f.base - size, f.size + size⟩ :: fs
    | _, fs => ⟨p.internalEnd - size, size⟩ :: fs
  else
    match p.usingInternalData, p.frags with
    | true, f :: fs => ⟨p.header, size⟩ :: ⟨p.copy, f.size⟩ :: fs
    | _, fs => ⟨p.header, size⟩ :: fs

/-- `class txq`. -/
structure Txq where
  ring : Vring
  dev : Device := {}
  available : Semaphore

/-- The loop of `txq::post`: the chains to post, and the packets left. -/
def Txq.pack (headerLen : UInt64) :
    List TxPacket → Semaphore → Except Stop (List (List Buffer) × List TxPacket × Semaphore)
  | [], s => .ok ([], [], s)
  | p :: pb, s =>
    if p.frags.length + 1 ≤ current s then
      let q := p.prepend headerLen
      if s.mayProceed q.length then do
        let (chains, pb, s) ← pack headerLen pb (s.wait false q.length)
        .ok (q.map fragmentToBuffer :: chains, pb, s)
      else .error .mustWait
    else .ok ([], p :: pb, s)

/-- `txq::post`. -/
def Txq.post (headerLen : UInt64) (pb : List TxPacket) (q : Txq) : Except Stop Txq := do
  let (chains, _, available) ← pack headerLen pb q.available
  let ring ← q.ring.post chains
  .ok { q with ring, available }

/-- `txq::complete`. -/
def txComplete (bc : Chain) (_ : UInt32) (available : Semaphore) : Except Stop Semaphore :=
  .ok (available.signal bc.buffers.length)

/-- The poller of the ring. -/
def Txq.poll (q : Txq) : Except Stop Txq := do
  let (available, ring) ← q.ring.doComplete txComplete q.available
  .ok { q with ring, available }

/-! ## `rxq` -/

/-- What `complete_buffer` works on. A buffer is named by its chain. -/
structure Received where
  available : Semaphore
  remainingBuffers : UInt32 := 0
  fragments : List (Nat × UInt64) := []
  /-- `num_buffers` of the header in a buffer, as the device left it -/
  numBuffers : Nat → UInt16 := fun _ => 0
  /-- history: the packets received -/
  packets : List (List (Nat × UInt64)) := []

/-- Where the loop over `prepare_buffers` is. -/
inductive Fiber
  | start
  /-- after the call of `wait` with this number -/
  | waiting (pr : Nat)
  deriving DecidableEq, Repr

/-- `class rxq`. -/
structure Rxq where
  ring : Vring
  dev : Device := {}
  received : Received
  fiber : Fiber := .start

/-- `complete_buffer`. -/
def completeBuffer (headerLen : UInt64) (bc : Chain) (len : UInt32) (q : Received) :
    Except Stop Received := do
  let q ← if q.remainingBuffers = 0 then
      if q.numBuffers bc.number = 0 then .error .noBuffers
      else .ok ({ q with
        remainingBuffers := (q.numBuffers bc.number).toUInt32
        fragments := [] }, len.toUInt64 - headerLen)
    else .ok (q, len.toUInt64)
  let (q, fragLen) := q
  let q := { q with
    fragments := q.fragments ++ [(bc.number, fragLen)]
    remainingBuffers := q.remainingBuffers - 1 }
  if q.remainingBuffers = 0 then
    .ok { q with
      packets := q.packets ++ [q.fragments]
      available := q.available.signal q.fragments.length }
  else .ok q

/-- The poller of the ring. -/
def Rxq.poll (headerLen : UInt64) (q : Rxq) : Except Stop Rxq := do
  let (received, ring) ← q.ring.doComplete (completeBuffer headerLen) q.received
  .ok { q with ring, received }

/-- `prepare_buffers`, up to the continuation. -/
def Rxq.prepareBuffers (q : Rxq) : Rxq :=
  match q.fiber with
  | .start => { q with
      fiber := .waiting q.received.available.calls
      received := { q.received with available := q.received.available.wait false 1 } }
  | .waiting _ => q

/-- The continuation, if it is ready, with the memory that is allocated for the buffers. -/
def Rxq.postBuffers (mem : Nat → UInt64) (q : Rxq) : Except Stop Rxq :=
  match q.fiber with
  | .start => .ok q
  | .waiting pr =>
    if pr ∈ q.received.available.granted.map Waiter.pr then do
      let opportunistic := current q.received.available
      let (more, available) := q.received.available.tryWait opportunistic
      let count := if more then 1 + opportunistic else 1
      let ring ← q.ring.post ((List.range count).map fun i => [⟨mem i, 4096, true⟩])
      .ok { q with ring, received := { q.received with available }, fiber := .start }
    else .ok q

/-! ## `qp` -/

/-- `class qp`. -/
structure Qp where
  headerLen : UInt64
  tx : Txq
  rx : Rxq

/-- What the driver and the device do. -/
inductive Event
  | send (pb : List TxPacket)
  | pollTx
  | prepareBuffers
  | postBuffers (mem : Nat → UInt64)
  | pollRx
  | takeTx
  | giveTx (i : Nat) (len : UInt32)
  | takeRx
  /-- a buffer comes back with `num_buffers` of a header in it -/
  | giveRx (i : Nat) (len : UInt32) (numBuffers : UInt16)

namespace Qp

/-- `qp`, with rings of these sizes. -/
def init (headerLen : UInt64) (tx rx : RingSize) : Qp where
  headerLen
  tx := { ring := .setup tx, available := initial tx }
  rx := { ring := .setup rx, received := { available := initial rx } }

def step (q : Qp) : Event → Except Stop Qp
  | .send pb => do
    let tx ← q.tx.post q.headerLen pb
    .ok { q with tx }
  | .pollTx => do
    let tx ← q.tx.poll
    .ok { q with tx }
  | .prepareBuffers => .ok { q with rx := q.rx.prepareBuffers }
  | .postBuffers mem => do
    let rx ← q.rx.postBuffers mem
    .ok { q with rx }
  | .pollRx => do
    let rx ← q.rx.poll q.headerLen
    .ok { q with rx }
  | .takeTx => .ok { q with tx := { q.tx with dev := q.tx.dev.take q.tx.ring } }
  | .giveTx i len =>
    let (ring, dev) := q.tx.dev.give i len q.tx.ring
    .ok { q with tx := { q.tx with ring, dev } }
  | .takeRx => .ok { q with rx := { q.rx with dev := q.rx.dev.take q.rx.ring } }
  | .giveRx i len numBuffers =>
    let written := match q.rx.dev.held[i]? with
      | none => q.rx.received.numBuffers
      | some (number, _) => Function.update q.rx.received.numBuffers number numBuffers
    let (ring, dev) := q.rx.dev.give i len q.rx.ring
    .ok { q with rx := { q.rx with
      ring, dev
      received := { q.rx.received with numBuffers := written } } }

end Qp

end Seastar.Net.Virtio
