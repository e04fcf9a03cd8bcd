import Seastar.Net.Steering

/-!
The two computations of the hash of a TCP connection: `l4connid::hash` of `net/ip.hh`, by which
`tcp::connect` chooses a port, and the hash of the bytes of a segment, by which the CPU of a queue
steers it.
-/

namespace Seastar.Net

open Lib

/-! ## Numbers in memory -/

/-- `hton(uint16_t)`. -/
def hton16 (x : UInt16) : UInt16 := readRaw16 (writeBe16 x) 0

/-- `hton(uint32_t)`. -/
def hton32 (x : UInt32) : UInt32 := readRaw32 (writeBe32 x) 0

theorem pushBack16_decode (a b : UInt8) (data : ForwardHash) :
    ForwardHash.pushBack16 (.ofNat (LittleEndian.decode [a, b])) data = data ++ [a, b] := by
  have ha := a.toNat_lt
  have hb := b.toNat_lt
  simp only [ForwardHash.pushBack16, ForwardHash.pushBack8, List.append_assoc, List.singleton_append,
    LittleEndian.decode]
  congr 2
  · rw [← UInt8.toNat_inj]
    simp
  · congr 1
    rw [← UInt8.toNat_inj]
    simp [Nat.shiftRight_eq_div_pow]
    omega

theorem pushBack32_decode (a b c d : UInt8) (data : ForwardHash) :
    ForwardHash.pushBack32 (.ofNat (LittleEndian.decode [a, b, c, d])) data =
      data ++ [a, b, c, d] := by
  have ha := a.toNat_lt
  have hb := b.toNat_lt
  have hc := c.toNat_lt
  have hd := d.toNat_lt
  have hlow : (UInt32.ofNat (LittleEndian.decode [a, b, c, d])).toUInt16 =
      .ofNat (LittleEndian.decode [a, b]) := by
    rw [← UInt16.toNat_inj]
    simp [LittleEndian.decode]
    omega
  have hhigh : (UInt32.ofNat (LittleEndian.decode [a, b, c, d]) >>> 16).toUInt16 =
      .ofNat (LittleEndian.decode [c, d]) := by
    rw [← UInt16.toNat_inj]
    simp [LittleEndian.decode, Nat.shiftRight_eq_div_pow]
    omega
  rw [ForwardHash.pushBack32, hlow, hhigh, pushBack16_decode, pushBack16_decode, List.append_assoc]
  rfl

theorem pushBack16_hton (x : UInt16) (data : ForwardHash) :
    ForwardHash.pushBack16 (hton16 x) data = data ++ writeBe16 x :=
  pushBack16_decode _ _ data

theorem pushBack32_hton (x : UInt32) (data : ForwardHash) :
    ForwardHash.pushBack32 (hton32 x) data = data ++ writeBe32 x :=
  pushBack32_decode _ _ _ _ data

theorem writeBe16_beNat (a b : UInt8) : writeBe16 (.ofNat (beNat [a, b])) = [a, b] := by
  have ha := a.toNat_lt
  have hb := b.toNat_lt
  simp only [writeBe16, beNat, List.foldl_cons, List.foldl_nil]
  congr 2
  · rw [← UInt8.toNat_inj]
    simp [Nat.shiftRight_eq_div_pow]
    omega
  · rw [← UInt8.toNat_inj]
    simp

theorem writeBe32_beNat (a b c d : UInt8) :
    writeBe32 (.ofNat (beNat [a, b, c, d])) = [a, b, c, d] := by
  have ha := a.toNat_lt
  have hb := b.toNat_lt
  have hc := c.toNat_lt
  have hd := d.toNat_lt
  simp only [writeBe32, beNat, List.foldl_cons, List.foldl_nil]
  refine congrArg₂ _ ?_ (congrArg₂ _ ?_ (congrArg₂ _ ?_ (congrArg₂ _ ?_ rfl)))
  · rw [← UInt8.toNat_inj]
    simp [Nat.shiftRight_eq_div_pow]
    omega
  · rw [← UInt8.toNat_inj]
    simp [Nat.shiftRight_eq_div_pow]
    omega
  · rw [← UInt8.toNat_inj]
    simp [Nat.shiftRight_eq_div_pow]
    omega
  · rw [← UInt8.toNat_inj]
    simp

/-! ## Connections -/

/-- `struct l4connid`, in host order. -/
structure L4connid where
  localIp : UInt32
  foreignIp : UInt32
  localPort : UInt16
  foreignPort : UInt16
  deriving DecidableEq, Repr

/-- `l4connid::hash`. -/
def L4connid.hash (id : L4connid) (rssKey : Bytes) : UInt32 :=
  toeplitzHash rssKey (.pushBack16 (hton16 id.localPort) (.pushBack16 (hton16 id.foreignPort)
    (.pushBack32 (hton32 id.localIp) (.pushBack32 (hton32 id.foreignIp) []))))

/-- The condition of the loop of `tcp::connect` on a CPU: another port is tried. -/
def Device.retries (dev : Device) (cpu : Nat) (tcbs : List L4connid) (id : L4connid) : Bool :=
  1 < dev.hwQueuesCount && (dev.hash2cpu (id.hash dev.rssKey) ≠ cpu || id ∈ tcbs)

/-- `tcp::connect` up to the new `tcb`, when the ports of `_port_dist` are these. -/
def Device.connect (dev : Device) (cpu : Nat) (srcIp dstIp : UInt32) (dstPort : UInt16) :
    List UInt16 → List L4connid → Option (L4connid × List L4connid)
  | [], _ => none
  | srcPort :: ports, tcbs =>
    let id : L4connid := ⟨srcIp, dstIp, srcPort, dstPort⟩
    if dev.retries cpu tcbs id then dev.connect cpu srcIp dstIp dstPort ports tcbs
    else some (id, id :: tcbs)

/-- With several hardware queues the hash of a new connection is for its CPU. -/
theorem Device.connect_hash {dev : Device} {cpu : Nat} {srcIp dstIp : UInt32} {dstPort : UInt16}
    {ports : List UInt16} {tcbs tcbs' : List L4connid} {id : L4connid}
    (h : dev.connect cpu srcIp dstIp dstPort ports tcbs = some (id, tcbs'))
    (hqueues : 1 < dev.hwQueuesCount) : dev.hash2cpu (id.hash dev.rssKey) = cpu := by
  induction ports with
  | nil => cases h
  | cons srcPort ports ih =>
    rw [Device.connect] at h
    split at h
    · exact ih h
    · rename_i hretries
      obtain ⟨rfl, -⟩ := Prod.mk.inj (Option.some.inj h)
      by_contra hne
      exact hretries (by simp [Device.retries, hqueues, hne])

/-! ## Segments -/

/-- Where the fields of IPv4 and TCP are in a frame whose IPv4 header has `ihl` words. -/
structure SegmentOf (id : L4connid) (ihl : Nat) (bs : Bytes) : Prop where
  ethProto : readBe16 bs 12 = 0x0800
  version : bs.getD 14 0 = UInt8.ofNat (4 * 16 + ihl)
  ihl_ge : 5 ≤ ihl
  ihl_le : ihl ≤ 15
  length : ethHdrLen + 4 * ihl + Tcp.tcpHdrLen ≤ bs.length
  unfragmented : readBe16 bs 20 &&& 0x3fff = 0
  ipProto : bs.getD 23 0 = 6
  srcIp : readBe32 bs 26 = id.foreignIp
  dstIp : readBe32 bs 30 = id.localIp
  srcPort : readBe16 bs (ethHdrLen + 4 * ihl) = id.foreignPort
  dstPort : readBe16 bs (ethHdrLen + 4 * ihl + 2) = id.localPort

/-- The bytes that a range of four denotes. -/
def four (bs : Bytes) (i : Nat) : Bytes :=
  [bs.getD i 0, bs.getD (i + 1) 0, bs.getD (i + 2) 0, bs.getD (i + 3) 0]

/-- The hash of a frame: both addresses, and the four bytes that follow the fixed part of the IPv4
header. -/
def flowHash (rssKey bs : Bytes) : UInt32 :=
  toeplitzHash rssKey (four bs 26 ++ four bs 30 ++ four bs 34)

theorem L4connid.hash_eq (id : L4connid) (rssKey : Bytes) :
    id.hash rssKey = toeplitzHash rssKey (writeBe32 id.foreignIp ++ writeBe32 id.localIp ++
      (writeBe16 id.foreignPort ++ writeBe16 id.localPort)) := by
  rw [L4connid.hash, pushBack32_hton, pushBack32_hton, pushBack16_hton, pushBack16_hton,
    List.nil_append]
  simp only [List.append_assoc]

/-- Without options the hash of a segment is that of its connection. -/
theorem SegmentOf.flowHash_eq {id : L4connid} {bs : Bytes} (h : SegmentOf id 5 bs) (rssKey : Bytes) :
    flowHash rssKey bs = id.hash rssKey := by
  rw [L4connid.hash_eq, ← h.srcIp, ← h.dstIp, ← h.srcPort, ← h.dstPort]
  simp only [readBe32, readBe16, writeBe32_beNat, writeBe16_beNat]
  rfl

theorem getD_drop (bs : Bytes) (n i : Nat) : (bs.drop n).getD i 0 = bs.getD (n + i) 0 := by
  simp only [List.getD_eq_getElem?_getD, List.getElem?_drop]

/-- Four bytes of a header are four bytes of the frame. -/
theorem Packet.getHeader_four {p : Packet} {offset size : Nat} {h : Header}
    (hh : p.getHeader offset size = some h) {i : Nat} (hi : i + 4 ≤ size) :
    four h.mem i = four p.bytes (offset + i) := by
  obtain ⟨-, -, hmem, hpre⟩ := getHeader_spec hh
  have hget : ∀ k, i + k < size → h.mem.getD (i + k) 0 = p.bytes.getD (offset + i + k) 0 := by
    intro k hk
    rw [getD_of_isPre hpre (Nat.lt_of_lt_of_le hk hmem), getD_drop, Nat.add_assoc]
  rw [four, four, ← hget 1 (by omega), ← hget 2 (by omega), ← hget 3 (by omega)]
  congr 1
  exact hget 0 (by omega)

theorem mf_offset_of_mask {frag : UInt16} (h : frag &&& 0x3fff = 0) :
    frag &&& ((1 : UInt16) <<< 13) = 0 ∧ frag <<< 3 = 0 := by
  constructor
  · have hmask : (0x3fff : UInt16) &&& ((1 : UInt16) <<< 13) = (1 : UInt16) <<< 13 := by decide
    rw [← hmask, ← UInt16.and_assoc, h, UInt16.zero_and]
  · have hmod := congrArg UInt16.toNat h
    have hand : frag.toNat &&& (2 ^ 14 - 1) = frag.toNat % 2 ^ 14 :=
      Nat.and_two_pow_sub_one_eq_mod _ _
    simp at hmod hand
    rw [hand] at hmod
    rw [← UInt16.toNat_inj]
    simp [Nat.shiftLeft_eq]
    omega

theorem Packet.getHeader_some {p : Packet} {offset size : Nat} (hpos : 0 < size)
    (hle : offset + size ≤ p.len) : ∃ h, p.getHeader offset size = some h := by
  cases hh : p.getHeader offset size with
  | none =>
    have hlt := (p.getHeader_eq_none offset size hpos).mp hh
    omega
  | some h => exact ⟨h, rfl⟩

theorem SegmentOf.le_len {id : L4connid} {ihl : Nat} {p : Packet} (h : SegmentOf id ihl p.bytes) :
    ethHdrLen + ipHdrLen + Tcp.tcpHdrLen ≤ p.len := by
  have hlen := h.length
  have hihl := h.ihl_ge
  rw [Packet.length_bytes] at hlen
  simp only [ethHdrLen, ipHdrLen, Tcp.tcpHdrLen] at hlen ⊢
  omega

/-- What `ipv4::forward` reads of the header of a segment. -/
theorem SegmentOf.header {id : L4connid} {ihl : Nat} {p : Packet} (h : SegmentOf id ihl p.bytes)
    {iph : Packet.Header} (hiph : p.getHeader ethHdrLen ipHdrLen = some iph) :
    (IpHdr.read iph.mem).ipProto = 6 ∧ (IpHdr.read iph.mem).mf = false ∧
      (IpHdr.read iph.mem).offset = 0 := by
  obtain ⟨-, -, hmem, hpre⟩ := Packet.getHeader_spec hiph
  have hget : ∀ k < ipHdrLen, iph.mem.getD k 0 = p.bytes.getD (ethHdrLen + k) 0 := by
    intro k hk
    rw [getD_of_isPre hpre (Nat.lt_of_lt_of_le hk hmem), getD_drop]
  have hfrag : (IpHdr.read iph.mem).frag = readBe16 p.bytes 20 := by
    show readBe16 iph.mem 6 = _
    rw [readBe16, readBe16, hget 6 (by decide), hget 7 (by decide)]
    rfl
  obtain ⟨hmf, hoffset⟩ := mf_offset_of_mask h.unfragmented
  refine ⟨(hget 9 (by decide)).trans h.ipProto, ?_, ?_⟩
  · rw [IpHdr.mf, hfrag, hmf]
    rfl
  · rw [IpHdr.offset, hfrag, hoffset]

/-- The hash of a segment is that of its addresses and of the four bytes where the ports are in a
header without options. -/
theorem SegmentOf.hash_eq {id : L4connid} {ihl : Nat} {p : Packet} (h : SegmentOf id ihl p.bytes)
    {i : Interface} (hl4 : i.l4 6 = some .tcp) :
    ∃ q, i.hash .ipv4 p none = .ok (flowHash i.dev.rssKey p.bytes, q) := by
  have hlen := h.le_len
  have hip : ethHdrLen + ipHdrLen ≤ p.len := Nat.le_trans (Nat.le_add_right _ _) hlen
  obtain ⟨iph, hiph⟩ := Packet.getHeader_some (by decide) hip
  obtain ⟨hbytes, -⟩ := Packet.getHeader_spec hiph
  rw [← len_of_bytes hbytes] at hlen
  obtain ⟨th, hth⟩ := Packet.getHeader_some (by decide) hlen
  obtain ⟨hproto, hmf, hoffset⟩ := h.header hiph
  have hdata : ForwardHash.pushBack32 (IpHdr.read iph.mem).dstIp
      (.pushBack32 (IpHdr.read iph.mem).srcIp []) = four p.bytes 26 ++ four p.bytes 30 := by
    have hsrc : four iph.mem 12 = four p.bytes 26 := Packet.getHeader_four hiph (by decide)
    have hdst : four iph.mem 16 = four p.bytes 30 := Packet.getHeader_four hiph (by decide)
    rw [← hsrc, ← hdst]
    exact (pushBack32_decode _ _ _ _ _).trans (congrArg (· ++ _) (pushBack32_decode _ _ _ _ _))
  have hports : four th.mem 0 = four p.bytes 34 := by
    rw [Packet.getHeader_four hth (by decide), hbytes]
    rfl
  refine ⟨th.p, ?_⟩
  rw [Interface.hash, Interface.l3Forward, ipv4Forward, hiph]
  simp only [hproto, hl4, hmf, hoffset, hdata, L4.forward, hth, ok_bind, and_self, if_true]
  rw [flowHash, ← hports]
  rfl

/-- The CPU for a segment on the queue of a CPU. -/
def Device.steer (dev : Device) (cpu : Nat) (hash : UInt32) : Nat :=
  match dev.swReta cpu with
  | none => cpu
  | some reta => dev.entry reta hash

theorem SegmentOf.dispatch {id : L4connid} {ihl : Nat} {p : Packet} (h : SegmentOf id ihl p.bytes)
    {i : Interface} (hl3 : i.protoMap 0x0800 = some .ipv4) (hl4 : i.l4 6 = some .tcp) (cpu : Nat)
    (ready : Bool) (rssHash : Option UInt32) :
    ∃ d, i.dispatchPacket cpu ready p rssHash = .ok d ∧
      d.cpu cpu = some (i.dev.steer cpu (rssHash.getD (flowHash i.dev.rssKey p.bytes))) := by
  have hlen := h.le_len
  have heth : 0 + ethHdrLen ≤ p.len := Nat.le_trans (by decide) hlen
  obtain ⟨eh, heh⟩ := Packet.getHeader_some (by decide) heth
  obtain ⟨hbytes, -, hmem, hpre⟩ := Packet.getHeader_spec heh
  have hproto : i.protoMap (readBe16 eh.mem 12) = some .ipv4 := by
    rw [readBe16_of_isPre hpre (Nat.lt_of_lt_of_le (by decide) hmem)]
    exact (congrArg i.protoMap h.ethProto).trans hl3
  have hhash : ∃ q, i.hash .ipv4 eh.p rssHash =
      .ok (rssHash.getD (flowHash i.dev.rssKey p.bytes), q) := by
    cases rssHash with
    | some hwrss => exact ⟨eh.p, rfl⟩
    | none =>
      rw [← hbytes] at h ⊢
      exact h.hash_eq hl4
  obtain ⟨q, hq⟩ := hhash
  cases hreta : i.dev.swReta cpu with
  | some reta =>
    rw [Device.steer, hreta]
    exact Interface.dispatchPacket_eq hreta heh hproto hq
  | none =>
    rw [← len_of_bytes hbytes, Nat.zero_add] at heth
    obtain ⟨t, ht, -, -⟩ := Packet.trimFront_ok heth
    rw [Device.steer, hreta, Interface.dispatchPacket, heh]
    simp only [hproto, Device.forwardDst, hreta, ok_bind, ne_eq, not_true_eq_false, if_false]
    rw [ht, ok_bind]
    refine ⟨_, rfl, ?_⟩
    cases ready with
    | true => rfl
    | false => rfl

/-- On the hardware queue of the hash the table says what `hash2cpu` says. -/
theorem Device.steer_hash2qid (dev : Device) (hash : UInt32) :
    dev.steer (dev.hash2qid hash) hash = dev.hash2cpu hash := rfl

/-- The hash of the packet bytes is the hash of the connection. -/
def SameHash (rssKey : Bytes) (id : L4connid) (ihl : Nat) (bs : Bytes) : Prop :=
  ihl = 5 ∨ toeplitzHash rssKey (four bs 26 ++ four bs 30 ++ four bs 34) = id.hash rssKey

/-- A segment that arrives at the hardware queue of its connection is hashed like the connection and
steered to the CPU that opened it exactly when nothing stands between the fixed part of the IPv4
header and the ports that hashes differently, and the port was chosen for the CPU. -/
theorem dispatchPacket_connection (i : Interface) (hl3 : i.protoMap 0x0800 = some .ipv4)
    (hl4 : i.l4 6 = some .tcp) (cpu : Nat) (srcIp dstIp : UInt32) (dstPort : UInt16)
    (ports : List UInt16) (tcbs tcbs' : List L4connid) (id : L4connid)
    (hconnect : i.dev.connect cpu srcIp dstIp dstPort ports tcbs = some (id, tcbs')) (ihl : Nat)
    (p : Packet) (hp : SegmentOf id ihl p.bytes) (rssHash : Option UInt32)
    (hrss : ∀ hwrss ∈ rssHash, hwrss = id.hash i.dev.rssKey) (ready : Bool) :
    let hash := id.hash i.dev.rssKey
    let queue := i.dev.hash2qid hash
    ((∃ q, i.hash .ipv4 p rssHash = .ok (hash, q)) ∧
        ∃ d, i.dispatchPacket queue ready p rssHash = .ok d ∧ d.cpu queue = some cpu) ↔
      (rssHash.isSome ∨ SameHash i.dev.rssKey id ihl p.bytes) ∧
        (1 < i.dev.hwQueuesCount ∨ i.dev.hash2cpu hash = cpu) := by
  intro hash queue
  obtain ⟨d, hd, hcpu⟩ := hp.dispatch hl3 hl4 queue ready rssHash
  have hsteer : i.dev.steer queue hash = i.dev.hash2cpu hash := i.dev.steer_hash2qid hash
  have hown : (1 < i.dev.hwQueuesCount ∨ i.dev.hash2cpu hash = cpu) ↔ i.dev.hash2cpu hash = cpu :=
    or_iff_right_of_imp fun hqueues => Device.connect_hash hconnect hqueues
  have hsame : (∃ q, i.hash .ipv4 p rssHash = .ok (hash, q)) ↔
      rssHash.getD (flowHash i.dev.rssKey p.bytes) = hash := by
    cases rssHash with
    | some hwrss =>
      refine iff_of_true ⟨p, ?_⟩ (hrss hwrss rfl)
      rw [Interface.hash, hrss hwrss rfl]
    | none =>
      obtain ⟨q, hq⟩ := hp.hash_eq hl4
      rw [hq]
      constructor
      · rintro ⟨q', hq'⟩
        exact (Prod.mk.inj (Except.ok.inj hq')).1
      · rintro heq
        exact ⟨q, congrArg (fun h => Except.ok (h, q)) heq⟩
  have hbytes : rssHash.getD (flowHash i.dev.rssKey p.bytes) = hash ↔
      rssHash.isSome ∨ SameHash i.dev.rssKey id ihl p.bytes := by
    cases rssHash with
    | some hwrss => exact iff_of_true (hrss hwrss rfl) (Or.inl rfl)
    | none =>
      refine Iff.trans ?_ (or_iff_right (by decide)).symm
      refine (or_iff_right_of_imp ?_).symm
      rintro rfl
      exact hp.flowHash_eq _
  rw [hown, hsame, ← hbytes]
  refine and_congr_right fun hhash => ?_
  rw [hhash, hsteer] at hcpu
  constructor
  · rintro ⟨d', hd', hcpu'⟩
    obtain rfl := Except.ok.inj (hd.symm.trans hd')
    exact Option.some.inj (hcpu.symm.trans hcpu')
  · rintro rfl
    exact ⟨d, hd, hcpu⟩

/-- A device with two hardware queues and four CPUs. -/
def Device.twoQueues : Device where
  rssKey := defaultRsskey40bytes
  hwQueuesCount := 2
  hash2qid := Device.defaultHash2qid 2
  rssTableBits := 1
  swReta cpu := if cpu < 2 then some fun k => UInt8.ofNat (cpu + k % 2 * 2) else none

/-- The frame of a segment of a connection without data. -/
def segmentFrame (id : L4connid) (options : Bytes) : Bytes :=
  List.replicate 12 0 ++ [0x08, 0x00] ++
    [UInt8.ofNat (0x45 + options.length / 4), 0, 0, UInt8.ofNat (40 + options.length), 0, 0, 0, 0,
      64, 6, 0, 0] ++
    writeBe32 id.foreignIp ++ writeBe32 id.localIp ++ options ++
    writeBe16 id.foreignPort ++ writeBe16 id.localPort ++ List.replicate 16 0

/-- The first port is for another CPU, the second one is taken. -/
theorem dispatchPacket_second_port :
    let i : Interface := ⟨.twoQueues, registeredL3, registeredL4⟩
    let id : L4connid := ⟨0x0a000001, 0x0a000002, 41953, 80⟩
    let p := Packet.ofFrags [segmentFrame id []]
    let hash := id.hash i.dev.rssKey
    let queue := i.dev.hash2qid hash
    (∃ q, i.hash .ipv4 p none = .ok (hash, q)) ∧
      ∃ d, i.dispatchPacket queue true p none = .ok d ∧ d.cpu queue = some 0 := by
  intro i id p hash queue
  refine (dispatchPacket_connection i rfl rfl 0 0x0a000001 0x0a000002 80 [41952, 41953] [] [id] id
    (by decide +kernel) 5 p ?_ none (fun _ hmem => by cases hmem) true).mpr ?_
  · exact ⟨by decide +kernel, by decide +kernel, by decide, by decide, by decide +kernel,
      by decide +kernel, by decide +kernel, by decide +kernel, by decide +kernel,
      by decide +kernel, by decide +kernel⟩
  · exact ⟨Or.inr (Or.inl rfl), Or.inl (by decide)⟩

/-- A segment with one word of options goes to CPU 1 instead of CPU 3, and with one hardware queue
the first port is taken although its segments go to CPU 1 instead of CPU 0. -/
theorem dispatchPacket_other_cpu :
    (let i : Interface := ⟨.twoQueues, registeredL3, registeredL4⟩
      let id : L4connid := ⟨0x0a000001, 0x0a000002, 41954, 80⟩
      let bs := segmentFrame id [1, 1, 1, 1]
      i.dev.connect 3 0x0a000001 0x0a000002 80 [41954] [] = some (id, [id]) ∧ SegmentOf id 6 bs ∧
        i.dev.hash2qid (id.hash i.dev.rssKey) = 1 ∧
        ∃ d, i.dispatchPacket 1 true (.ofFrags [bs]) none = .ok d ∧ d.cpu 1 = some 1) ∧
    (let i : Interface := ⟨.oneQueue 2, registeredL3, registeredL4⟩
      let id : L4connid := ⟨0x0a000001, 0x0a000002, 41952, 80⟩
      let bs := segmentFrame id []
      i.dev.connect 0 0x0a000001 0x0a000002 80 [41952] [] = some (id, [id]) ∧ SegmentOf id 5 bs ∧
        i.dev.hash2qid (id.hash i.dev.rssKey) = 0 ∧
        ∃ d, i.dispatchPacket 0 true (.ofFrags [bs]) none = .ok d ∧ d.cpu 0 = some 1) := by
  constructor
  · intro i id bs
    have hseg : SegmentOf id 6 (Packet.ofFrags [bs]).bytes :=
      ⟨by decide +kernel, by decide +kernel, by decide, by decide, by decide +kernel,
        by decide +kernel, by decide +kernel, by decide +kernel, by decide +kernel,
        by decide +kernel, by decide +kernel⟩
    obtain ⟨d, hd, hcpu⟩ := hseg.dispatch (i := i) rfl rfl 1 true none
    refine ⟨by decide +kernel, hseg, by decide +kernel, d, hd, hcpu.trans ?_⟩
    decide +kernel
  · intro i id bs
    have hseg : SegmentOf id 5 (Packet.ofFrags [bs]).bytes :=
      ⟨by decide +kernel, by decide +kernel, by decide, by decide, by decide +kernel,
        by decide +kernel, by decide +kernel, by decide +kernel, by decide +kernel,
        by decide +kernel, by decide +kernel⟩
    obtain ⟨d, hd, hcpu⟩ := hseg.dispatch (i := i) rfl rfl 0 true none
    refine ⟨by decide +kernel, hseg, by decide +kernel, d, hd, hcpu.trans ?_⟩
    decide +kernel

end Seastar.Net
