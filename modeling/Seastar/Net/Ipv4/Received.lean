import Seastar.Lib.Assoc
import Seastar.Net.FlowSteering
import Seastar.Net.PacketImpl

/-!
`ipv4::handle_received_packet` of `net/ip.cc` and the fragments that wait for the rest of
their datagram: they are merged by `frag::merge`, counted in `_frag_mem`, and dropped when
the datagram is complete, after `_frag_timeout`, or when there are too many.
-/

namespace Seastar.Net

open Lib

/-- `struct ip_hdr` after `ntoh`, with the fields that a receiver reads. -/
structure ReceivedIpHdr where
  ihl : Nat
  len : UInt16
  id : UInt16
  frag : UInt16
  ipProto : UInt8
  srcIp : UInt32
  dstIp : UInt32
  deriving DecidableEq, Repr

namespace ReceivedIpHdr

def read (p : Bytes) : ReceivedIpHdr where
  ihl := (p.getD 0 0).toNat % 16
  len := readBe16 p 2
  id := readBe16 p 4
  frag := readBe16 p 6
  ipProto := p.getD 9 0
  srcIp := readBe32 p 12
  dstIp := readBe32 p 16

/-- `ip_hdr_len`. -/
def hdrLen (h : ReceivedIpHdr) : Nat := h.ihl * 4

/-- `ip_hdr::mf`. -/
def mf (h : ReceivedIpHdr) : Bool := h.frag &&& ((1 : UInt16) <<< 13) ≠ 0

/-- `ip_hdr::offset`. -/
def offset (h : ReceivedIpHdr) : UInt16 := h.frag <<< 3

end ReceivedIpHdr

namespace Ipv4

def ipPacketLenMax : Nat := 65535

/-- `_frag_timeout`, in seconds. -/
def fragTimeoutSeconds : Int := 30

def fragLowThresh : UInt32 := 3 * 1024 * 1024

def fragHighThresh : UInt32 := 4 * 1024 * 1024

/-- What `ipv4` runs on. -/
structure Platform where
  netif : Interface
  cpu : Nat
  hwAddress : Bytes
  rxCsumOffload : Bool
  /-- `_packet_filter`: whether it takes a packet; it does not change one that it leaves -/
  packetFilter : Option (Packet → ReceivedIpHdr → Bool)
  /-- `sizeof(packet::impl)` -/
  sizeofImpl : Nat
  /-- the impl holds `_data` -/
  le_sizeofImpl : PacketImpl.internalDataSize ≤ sizeofImpl
  sizeofImpl_lt : sizeofImpl < 2 ^ 16

/-- `packet::memory`. -/
def Platform.memory (c : Platform) (p : Packet) : UInt32 := UInt32.ofNat (p.len + c.sizeofImpl)

/-- `struct ipv4_frag_id`. -/
structure FragId where
  srcIp : UInt32
  dstIp : UInt32
  identification : UInt16
  protocol : UInt8
  deriving DecidableEq, Repr

/-- The key of the datagram that a fragment is of. -/
def FragId.of (h : ReceivedIpHdr) : FragId := ⟨h.srcIp, h.dstIp, h.id, h.ipProto⟩

/-- `struct ipv4::frag`. -/
structure Frag where
  header : Packet := .empty
  data : List (UInt32 × Packet) := []
  rxTime : Int := 0
  memSize : UInt32 := 0
  lastFragReceived : Bool := false
  deriving DecidableEq

namespace Frag

/-- The marks of an entry when a fragment comes, the first of them or another. -/
def arrived (now : Int) (h : ReceivedIpHdr) (f : Frag) : Frag :=
  { f with
    lastFragReceived := f.lastFragReceived || !h.mf
    rxTime := if f.memSize = 0 then now else f.rxTime }

/-- The IP header is taken from the first fragment. -/
def storeHeader (h : ReceivedIpHdr) (offset : UInt16) (p : Packet) (f : Frag) :
    Except Fault Packet :=
  if offset = 0 then p.share 0 h.hdrLen else .ok f.header

/-- `frag::merge`; the second result is the `added_size`. -/
def merge (c : Platform) (h : ReceivedIpHdr) (offset : UInt16) (p : Packet) (f : Frag) :
    Except Fault (Frag × UInt32) := do
  let header ← f.storeHeader h offset p
  -- store the IP payload
  let p ← p.trimFront h.hdrLen
  let data ← PacketMerger.merge offset.toUInt32 p f.data
  let memSize := data.foldl (fun m x => m + c.memory x.2) (c.memory header)
  .ok ({ f with header := header, data := data, memSize := memSize }, memSize - f.memSize)

/-- `frag::is_complete`, which reads the first entry of the map. -/
def isComplete (f : Frag) : Except Fault Bool :=
  match f.data with
  | [] => .error .noObject
  | (offset, _) :: rest => .ok (f.lastFragReceived && rest.isEmpty && offset == 0)

/-- `get_assembled_packet`, where `ipData` is the payload. -/
def getAssembledPacket (src dst : Bytes) (ipData : Packet) (f : Frag) : Except Fault Packet :=
  let eh := dst ++ src ++ writeBe16 0x0800
  let pkt := ((Packet.ofFrags [eh]).append f.header).append ipData
  match pkt.getHeader ethHdrLen ipHdrLen with
  | none => .error .nullHeader
  | some iph =>
    let len := UInt16.ofNat (iph.p.len - ethHdrLen)
    let bs := Fragments.overwrite iph.p.bytes (ethHdrLen + 2) (writeBe16 len)
    .ok (Packet.ofFrags [Fragments.overwrite bs (ethHdrLen + 6) (writeBe16 0)])

end Frag

/-- Where a datagram goes. -/
inductive Delivered
  | received (l4 : L4) (p : Packet) (src dst : UInt32)
  | forward (cpu : Nat) (p : Packet)

end Ipv4

open Ipv4

/-- `class ipv4`, without what it sends. -/
structure Ipv4 where
  hostAddress : UInt32 := 0
  frags : List (FragId × Frag) := []
  fragsAge : List FragId := []
  fragMem : UInt32 := 0
  /-- when `_frag_timer` expires -/
  fragTimer : Option Int := none
  deriving DecidableEq

namespace Ipv4

/-- `_frags[frag_id]`, which makes an entry where there is none. -/
def index (id : FragId) (frags : List (FragId × Frag)) : Frag × List (FragId × Frag) :=
  match frags.lookup id with
  | some f => (f, frags)
  | none => ({}, frags ++ [(id, {})])

/-- `frag_drop`. -/
def fragDrop (id : FragId) (droppedSize : UInt32) (s : Ipv4) : Ipv4 :=
  { s with frags := Assoc.erase id s.frags, fragMem := s.fragMem - droppedSize }

/-- The loop of `frag_limit_mem`, which drops the oldest first. -/
def evict (drop : UInt32) : List FragId → Ipv4 → Ipv4
  | [], s => { s with fragsAge := [] }
  | id :: age, s =>
    if drop = 0 then { s with fragsAge := id :: age }
    else
      let (f, frags) := index id s.frags
      evict (drop - min drop f.memSize) age (fragDrop id f.memSize { s with frags := frags })

/-- `frag_limit_mem`. -/
def fragLimitMem (s : Ipv4) : Ipv4 :=
  if s.fragMem ≤ fragHighThresh then s else evict (s.fragMem - fragLowThresh) s.fragsAge s

/-- The loop of `frag_timeout`. -/
def expire (now : Int) : List FragId → Ipv4 → Ipv4
  | [], s => { s with fragsAge := [] }
  | id :: age, s =>
    let (f, frags) := index id s.frags
    if now > f.rxTime + fragTimeoutSeconds then
      expire now age (fragDrop id f.memSize { s with frags := frags })
    else { s with frags := frags, fragsAge := id :: age }

/-- `frag_timeout`. -/
def fragTimeout (now : Int) (s : Ipv4) : Ipv4 :=
  if s.frags.isEmpty then s
  else
    let s := expire now s.fragsAge s
    if s.frags.isEmpty then { s with fragMem := 0 }
    else { s with fragTimer := some (now + fragTimeoutSeconds) }

/-- What becomes of a packet before its fragments are looked at. -/
inductive Accepted
  | dropped
  | fragment (h : ReceivedIpHdr) (p : Packet)
  | whole (h : ReceivedIpHdr) (p : Packet)

/-- The sum over the header is wrong. -/
def badCsum (c : Platform) (reassembled : Bool) (mem : Bytes) : Except Fault Bool :=
  if !c.rxCsumOffload && !reassembled then do
    let csum ← Checksummer.sum {} (mem.take ipHdrLen)
    .ok (csum.get ≠ 0)
  else .ok false

/-- The first part of `handle_received_packet`. -/
def accept (c : Platform) (hostAddress : UInt32) (reassembled : Bool) (p : Packet) :
    Except Fault Accepted := do
  match p.getHeader 0 ipHdrLen with
  | none => .ok .dropped
  | some iph =>
    if ← badCsum c reassembled iph.mem then .ok .dropped
    else
      let h := ReceivedIpHdr.read iph.mem
      -- less than the IP total length
      if iph.p.len < h.len.toNat then .ok .dropped
      else
        -- trim extra data beyond the IP total length
        let p ← iph.p.trimBack (iph.p.len - h.len.toNat)
        if ipPacketLenMax < h.offset.toNat + p.len then .ok .dropped
        else if c.packetFilter.any fun handle => handle p h then .ok .dropped
        else if h.dstIp ≠ hostAddress then .ok .dropped
        else if h.mf || h.offset ≠ 0 then .ok (.fragment h p)
        else .ok (.whole h p)

/-- A complete datagram is handed on, on this CPU or the one its connection hashes to; `src` is
the Ethernet address it came from. -/
def deliver (c : Platform) (src : Bytes) (h : ReceivedIpHdr) (f : Frag) :
    Except Fault (Option Delivered) :=
  match f.data with
  | [] => .error .noObject
  | (_, ipData) :: _ =>
    match c.netif.l4 h.ipProto with
    | none => .ok none
    | some l4 =>
      let hashData := ForwardHash.pushBack32 (hton32 h.dstIp) (.pushBack32 (hton32 h.srcIp) [])
      let fw := l4.forward hashData ipData 0
      if fw.ok then
        let cpuId := c.netif.dev.hash2cpu (toeplitzHash c.netif.dev.rssKey fw.data)
        if cpuId = c.cpu then .ok (some (.received l4 fw.p h.srcIp h.dstIp))
        else do
          let pkt ← f.getAssembledPacket src c.hwAddress fw.p
          .ok (some (.forward cpuId pkt))
      else .ok none

/-- The fragment branch of `handle_received_packet`. -/
def receiveFragment (c : Platform) (now : Int) (src : Bytes) (h : ReceivedIpHdr) (p : Packet)
    (s : Ipv4) : Except Fault (Ipv4 × Option Delivered) := do
  let s := s.fragLimitMem
  let id := FragId.of h
  let (f, frags) := index id s.frags
  -- a newly created entry
  let fragsAge := if f.memSize = 0 then s.fragsAge ++ [id] else s.fragsAge
  let (f, addedSize) ← (f.arrived now h).merge c h h.offset p
  let s := { s with
    frags := Assoc.set id f frags, fragsAge := fragsAge, fragMem := s.fragMem + addedSize }
  if ← f.isComplete then
    let out ← deliver c src h f
    let s := s.fragDrop id f.memSize
    .ok ({ s with fragsAge := s.fragsAge.filter (· ≠ id) }, out)
  else if s.fragTimer.isNone then
    .ok ({ s with fragTimer := some (now + fragTimeoutSeconds) }, none)
  else .ok (s, none)

/-- `handle_received_packet`. -/
def handleReceivedPacket (c : Platform) (now : Int) (reassembled : Bool) (p : Packet)
    (src : Bytes) (s : Ipv4) : Except Fault (Ipv4 × Option Delivered) := do
  match ← accept c s.hostAddress reassembled p with
  | .dropped => .ok (s, none)
  | .fragment h p => receiveFragment c now src h p s
  | .whole h p =>
    match c.netif.l4 h.ipProto with
    | none => .ok (s, none)
    | some l4 =>
      let p ← p.trimFront h.hdrLen
      .ok (s, some (.received l4 p h.srcIp h.dstIp))

/-- What happens to `ipv4`. -/
inductive Event
  | received (now : Int) (reassembled : Bool) (p : Packet) (src : Bytes)
  /-- the time is `now`; `_frag_timer` expires when it is due -/
  | clock (now : Int)
  | setHostAddress (ip : UInt32)

/-- One event. -/
def step (c : Platform) (s : Ipv4) : Event → Except Fault Ipv4
  | .received now reassembled p src => do
    let (s, _) ← s.handleReceivedPacket c now reassembled p src
    .ok s
  | .clock now =>
    if s.fragTimer.any (· ≤ now) then .ok (fragTimeout now { s with fragTimer := none }) else .ok s
  | .setHostAddress ip => .ok { s with hostAddress := ip }

/-- The state after the events. -/
def run (c : Platform) : Ipv4 → List Event → Except Fault Ipv4 := Run.run (step c)

end Ipv4

end Seastar.Net
