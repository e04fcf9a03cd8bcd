import Seastar.Lib.LittleEndian
import Seastar.Net.Tcp.Header

/-!
How a received frame finds its CPU: `interface::dispatch_packet` of `net/net.cc` with the `forward`
functions of `net/arp.cc`, `net/ip.cc`, `net/tcp.hh` and `net/udp.cc`, `toeplitz_hash`, and the
redirection table of a queue. Host integers are little endian.
-/

namespace Seastar.Net

open Lib

/-! ## The hash -/

/-- `class forward_hash`: the bytes pushed so far. -/
abbrev ForwardHash := Bytes

namespace ForwardHash

/-- `push_back(uint8_t)`. -/
def pushBack8 (b : UInt8) (data : ForwardHash) : ForwardHash := data ++ [b]

/-- `push_back(uint16_t)`. -/
def pushBack16 (b : UInt16) (data : ForwardHash) : ForwardHash :=
  pushBack8 (b >>> 8).toUInt8 (pushBack8 b.toUInt8 data)

/-- `push_back(uint32_t)`. -/
def pushBack32 (b : UInt32) (data : ForwardHash) : ForwardHash :=
  pushBack16 (b >>> 16).toUInt16 (pushBack16 b.toUInt16 data)

end ForwardHash

/-- Bit `b` of a byte, from the most significant one. -/
def keyBit (x : UInt8) (b : Nat) : Bool := x &&& (1 <<< (7 - UInt8.ofNat b)) ≠ 0

/-- A round of the inner loop of `toeplitz_hash`: the hash and the window of the key. -/
def toeplitzBit (key : Bytes) (i : Nat) (x : UInt8) (s : UInt32 × UInt32) (b : Nat) :
    UInt32 × UInt32 :=
  let (hash, v) := s
  let hash := if keyBit x b then hash ^^^ v else hash
  let v := v <<< 1
  let v := if i + 4 < key.length ∧ keyBit (key.getD (i + 4) 0) b then v ||| 1 else v
  (hash, v)

/-- `toeplitz_hash`. -/
def toeplitzHash (key : Bytes) (data : ForwardHash) : UInt32 :=
  (data.zipIdx.foldl (fun s x => (List.range 8).foldl (toeplitzBit key x.2 x.1) s)
    (0, readBe32 key 0)).1

/-! ## The layers -/

/-- A number of two bytes as it lies in memory. -/
def readRaw16 (p : Bytes) (i : Nat) : UInt16 :=
  UInt16.ofNat (LittleEndian.decode [p.getD i 0, p.getD (i + 1) 0])

/-- A number of four bytes as it lies in memory. -/
def readRaw32 (p : Bytes) (i : Nat) : UInt32 :=
  UInt32.ofNat (LittleEndian.decode [p.getD i 0, p.getD (i + 1) 0, p.getD (i + 2) 0,
    p.getD (i + 3) 0])

/-- What a `forward` function returns, with the packet it may have linearized. -/
structure Forwarded where
  ok : Bool
  data : ForwardHash
  p : Packet

/-- The protocols over IPv4. -/
inductive L4
  | tcp
  | udp
  | icmp
  deriving DecidableEq, Repr

/-- `sizeof(udp_hdr)`. -/
def udpHdrLen : Nat := 8

/-- `tcp::forward`, `ipv4_udp::forward` and the `ip_protocol::forward` of `ipv4_icmp`. -/
def L4.forward (l4 : L4) (data : ForwardHash) (p : Packet) (off : Nat) : Forwarded :=
  match l4 with
  | .tcp =>
    match p.getHeader off Tcp.tcpHdrLen with
    | some th => ⟨true, data ++ [th.mem.getD 0 0, th.mem.getD 1 0, th.mem.getD 2 0, th.mem.getD 3 0],
        th.p⟩
    | none => ⟨true, data, p⟩
  | .udp =>
    match p.getHeader off udpHdrLen with
    | some uh => ⟨true, .pushBack16 (readRaw16 uh.mem 2) (.pushBack16 (readRaw16 uh.mem 0) data), uh.p⟩
    | none => ⟨true, data, p⟩
  | .icmp => ⟨true, data, p⟩

/-- `sizeof(ip_hdr)`. -/
def ipHdrLen : Nat := 20

/-- The fields of `ip_hdr` that `ipv4::forward` reads. -/
structure IpHdr where
  frag : UInt16
  ipProto : UInt8
  /-- as it lies in memory -/
  srcIp : UInt32
  /-- as it lies in memory -/
  dstIp : UInt32
  deriving DecidableEq, Repr

def IpHdr.read (p : Bytes) : IpHdr where
  frag := readBe16 p 6
  ipProto := p.getD 9 0
  srcIp := readRaw32 p 12
  dstIp := readRaw32 p 16

/-- `ip_hdr::mf`. -/
def IpHdr.mf (h : IpHdr) : Bool := h.frag &&& ((1 : UInt16) <<< 13) ≠ 0

/-- `ip_hdr::offset`. -/
def IpHdr.offset (h : IpHdr) : UInt16 := h.frag <<< 3

/-- `ipv4::forward`. -/
def ipv4Forward (l4s : UInt8 → Option L4) (data : ForwardHash) (p : Packet) (off : Nat) :
    Except Fault Forwarded :=
  match p.getHeader off ipHdrLen with
  | none => .error .nullHeader
  | some iph =>
    let h := IpHdr.read iph.mem
    let data := ForwardHash.pushBack32 h.dstIp (.pushBack32 h.srcIp data)
    match l4s h.ipProto with
    | some l4 =>
      if h.mf = false ∧ h.offset = 0 then
        let fw := l4.forward data iph.p (off + ipHdrLen)
        .ok { fw with ok := true }
      else .ok ⟨true, data, iph.p⟩
    | none => .ok ⟨true, data, iph.p⟩

/-- `arp_hdr::size()`, which is `sizeof(arp_hdr)`. -/
def arpHdrLen : Nat := 4

/-- `arp::forward`: a registered protocol has the `arp_for_protocol::forward` that returns false. -/
def arpForward (data : ForwardHash) (p : Packet) (off : Nat) : Except Fault Forwarded :=
  match p.getHeader off arpHdrLen with
  | none => .error .nullHeader
  | some ah => .ok ⟨false, data, ah.p⟩

/-- The protocols over Ethernet. -/
inductive L3
  | ipv4
  | arp
  deriving DecidableEq, Repr

/-! ## The device -/

/-- `class device`, with the tables of its queues. -/
structure Device where
  rssKey : Bytes
  hwQueuesCount : UInt16
  /-- `hash2qid`, which devices override -/
  hash2qid : UInt32 → Nat
  rssTableBits : Nat
  /-- `_sw_reta` of the queue of a CPU -/
  swReta : Nat → Option (Fin 128 → UInt8)

/-- `device::hash2qid`. -/
def Device.defaultHash2qid (hwQueuesCount : UInt16) (hash : UInt32) : Nat :=
  hash.toNat % hwQueuesCount.toNat

/-- The entry of a redirection table for a hash. -/
def Device.entry (dev : Device) (reta : Fin 128 → UInt8) (hash : UInt32) : Nat :=
  (reta ⟨hash.toNat / 2 ^ dev.rssTableBits % 128, Nat.mod_lt _ (by decide)⟩).toNat

/-- `device::forward_dst`; the hash is computed when the queue has a table. -/
def Device.forwardDst (dev : Device) (srcCpuid : Nat) (p : Packet)
    (hashfn : Except Fault (UInt32 × Packet)) : Except Fault (Nat × Packet) :=
  match dev.swReta srcCpuid with
  | none => .ok (srcCpuid, p)
  | some reta => do
    let (hash, p) ← hashfn
    .ok (dev.entry reta hash, p)

/-- `device::hash2cpu`. -/
def Device.hash2cpu (dev : Device) (hash : UInt32) : Nat :=
  match dev.swReta (dev.hash2qid hash) with
  | none => dev.hash2qid hash
  | some reta => dev.entry reta hash

/-- `class interface`, with what the protocols have registered. -/
structure Interface where
  dev : Device
  /-- `_proto_map` -/
  protoMap : UInt16 → Option L3
  /-- `_l4` of `ipv4` -/
  l4 : UInt8 → Option L4

/-- The protocols that `ipv4` and `arp` register. -/
def registeredL3 (ethProto : UInt16) : Option L3 :=
  if ethProto = 0x0800 then some .ipv4 else if ethProto = 0x0806 then some .arp else none

/-- The protocols that `ipv4` has from its constructor. -/
def registeredL4 (ipProto : UInt8) : Option L4 :=
  if ipProto = 6 then some .tcp
  else if ipProto = 1 then some .icmp
  else if ipProto = 17 then some .udp
  else none

/-- `default_rsskey_40bytes`. -/
def defaultRsskey40bytes : Bytes := [
  0xd1, 0x81, 0xc6, 0x2c, 0xf7, 0xf4, 0xdb, 0x5b,
  0x19, 0x83, 0xa2, 0xfc, 0x94, 0x3e, 0x1a, 0xdb,
  0xd9, 0x38, 0x9e, 0x6b, 0xd1, 0x03, 0x9c, 0x2c,
  0xa7, 0x44, 0x99, 0xad, 0x59, 0x3d, 0x56, 0xd9,
  0xf3, 0x25, 0x3c, 0x06, 0x2a, 0xdc, 0x1f, 0xfc]

/-- A device with one hardware queue, on CPU 0, whose table has the CPUs below `cpus` in turn. -/
def Device.oneQueue (cpus : Nat) : Device where
  rssKey := defaultRsskey40bytes
  hwQueuesCount := 1
  hash2qid := Device.defaultHash2qid 1
  rssTableBits := 0
  swReta cpu := if cpu = 0 then some fun k => UInt8.ofNat (k % cpus) else none

/-- `sizeof(eth_hdr)`. -/
def ethHdrLen : Nat := 14

/-- The `forward` of a registered protocol. -/
def Interface.l3Forward (i : Interface) (l3 : L3) (p : Packet) : Except Fault Forwarded :=
  match l3 with
  | .ipv4 => ipv4Forward i.l4 [] p ethHdrLen
  | .arp => arpForward [] p ethHdrLen

/-- The hash of a packet: that of the device, or that of its headers. -/
def Interface.hash (i : Interface) (l3 : L3) (p : Packet) (rssHash : Option UInt32) :
    Except Fault (UInt32 × Packet) :=
  match rssHash with
  | some hwrss => .ok (hwrss, p)
  | none => do
    let fw ← i.l3Forward l3 p
    .ok (if fw.ok then toeplitzHash i.dev.rssKey fw.data else 0, fw.p)

/-- What becomes of a frame. -/
inductive Dispatched
  | ignored
  | forwarded (cpu : Nat) (p : Packet)
  | received (l3 : L3) (p : Packet) (srcMac : Bytes)
  /-- the receiver is not ready -/
  | dropped

/-- `interface::dispatch_packet` on a CPU. -/
def Interface.dispatchPacket (i : Interface) (cpu : Nat) (ready : Bool) (p : Packet)
    (rssHash : Option UInt32) : Except Fault Dispatched :=
  match p.getHeader 0 ethHdrLen with
  | none => .ok .ignored
  | some eh =>
    match i.protoMap (readBe16 eh.mem 12) with
    | none => .ok .ignored
    | some l3 => do
      let (fw, p) ← i.dev.forwardDst cpu eh.p (i.hash l3 eh.p rssHash)
      if fw ≠ cpu then .ok (.forwarded fw p)
      else
        let p ← p.trimFront ethHdrLen
        .ok (if ready then .received l3 p ((eh.mem.drop 6).take 6) else .dropped)

/-- The CPU a frame is steered to. -/
def Dispatched.cpu (here : Nat) : Dispatched → Option Nat
  | .ignored => none
  | .forwarded cpu _ => some cpu
  | .received _ _ _ => some here
  | .dropped => some here

/-! ## Short frames -/

theorem getD_of_isPre {mem bs : Bytes} (h : mem <+: bs) {i : Nat} (hi : i < mem.length) :
    mem.getD i 0 = bs.getD i 0 := by
  obtain ⟨rest, rfl⟩ := h
  rw [List.getD_eq_getElem?_getD, List.getD_eq_getElem?_getD, List.getElem?_append_left hi]

theorem readBe16_of_isPre {mem bs : Bytes} (h : mem <+: bs) {i : Nat} (hi : i + 1 < mem.length) :
    readBe16 mem i = readBe16 bs i := by
  rw [readBe16, readBe16, getD_of_isPre h (by omega), getD_of_isPre h hi]

theorem len_of_bytes {p q : Packet} (h : p.bytes = q.bytes) : p.len = q.len := by
  rw [← Packet.length_bytes, h, Packet.length_bytes]

theorem L4.forward_bytes (l4 : L4) (data : ForwardHash) (p : Packet) (off : Nat) :
    (l4.forward data p off).p.bytes = p.bytes := by
  cases l4 with
  | tcp =>
    rw [L4.forward]
    cases h : p.getHeader off Tcp.tcpHdrLen with
    | none => rfl
    | some th => exact (Packet.getHeader_spec h).1
  | udp =>
    rw [L4.forward]
    cases h : p.getHeader off udpHdrLen with
    | none => rfl
    | some uh => exact (Packet.getHeader_spec h).1
  | icmp => rfl

/-- A `forward` keeps the bytes of the packet. -/
theorem Interface.l3Forward_bytes {i : Interface} {l3 : L3} {p : Packet} {fw : Forwarded}
    (h : i.l3Forward l3 p = .ok fw) : fw.p.bytes = p.bytes := by
  cases l3 with
  | ipv4 =>
    rw [Interface.l3Forward, ipv4Forward] at h
    cases hip : p.getHeader ethHdrLen ipHdrLen with
    | none =>
      rw [hip] at h
      cases h
    | some iph =>
      have hbytes := (Packet.getHeader_spec hip).1
      rw [hip] at h
      dsimp only at h
      split at h
      · split at h
        · obtain rfl := Except.ok.inj h
          exact (L4.forward_bytes _ _ _ _).trans hbytes
        · obtain rfl := Except.ok.inj h
          exact hbytes
      · obtain rfl := Except.ok.inj h
        exact hbytes
  | arp =>
    rw [Interface.l3Forward, arpForward] at h
    cases harp : p.getHeader ethHdrLen arpHdrLen with
    | none =>
      rw [harp] at h
      cases h
    | some ah =>
      rw [harp] at h
      obtain rfl := Except.ok.inj h
      exact (Packet.getHeader_spec harp).1

theorem Interface.hash_bytes {i : Interface} {l3 : L3} {p : Packet} {rssHash : Option UInt32}
    {r : UInt32 × Packet} (h : i.hash l3 p rssHash = .ok r) : r.2.bytes = p.bytes := by
  cases rssHash with
  | some hwrss =>
    obtain rfl := Except.ok.inj h
    rfl
  | none =>
    rw [Interface.hash] at h
    obtain ⟨fw, hfw, h⟩ := bind_ok.mp h
    obtain rfl := Except.ok.inj h
    exact l3Forward_bytes hfw

/-- A frame with an Ethernet header of a registered protocol goes where the table says. -/
theorem Interface.dispatchPacket_eq {i : Interface} {cpu : Nat} {ready : Bool} {p : Packet}
    {rssHash : Option UInt32} {reta : Fin 128 → UInt8} {eh : Packet.Header} {l3 : L3}
    {r : UInt32 × Packet} (hreta : i.dev.swReta cpu = some reta)
    (heh : p.getHeader 0 ethHdrLen = some eh) (hl3 : i.protoMap (readBe16 eh.mem 12) = some l3)
    (hr : i.hash l3 eh.p rssHash = .ok r) :
    ∃ d, i.dispatchPacket cpu ready p rssHash = .ok d ∧ d.cpu cpu = some (i.dev.entry reta r.1) := by
  obtain ⟨hbytes, hlen, -, -⟩ := Packet.getHeader_spec heh
  have hle : ethHdrLen ≤ r.2.len := by
    rw [len_of_bytes (Interface.hash_bytes hr), len_of_bytes hbytes]
    omega
  obtain ⟨q, hq, -, -⟩ := Packet.trimFront_ok hle
  rw [Interface.dispatchPacket, heh]
  simp only [hl3, Device.forwardDst, hreta, hr, ok_bind]
  split
  · exact ⟨_, rfl, rfl⟩
  · rename_i heq
    rw [hq, ok_bind, Decidable.not_not.mp heq]
    refine ⟨_, rfl, ?_⟩
    cases ready with
    | true => rfl
    | false => rfl

end Seastar.Net
