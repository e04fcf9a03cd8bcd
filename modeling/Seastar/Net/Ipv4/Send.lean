import Seastar.Net.ChecksumPieces
import Seastar.Net.Ipv4.FragmentMemory
import Seastar.Net.Tcp.Reassembly

/-!
`ipv4::send` of `net/ip.cc`, and what `handle_received_packet` makes of the packets elsewhere: a
datagram sent in fragments is put together again, in whatever order they come in.
-/

namespace Seastar.Net.Ipv4

open Lib Lib.Segment

/-- What the packets of one datagram share: the arguments of `send`, and what it reads. -/
structure Outgoing where
  hw : HwFeatures
  hostAddress : UInt32
  dstIp : UInt32
  protoNum : UInt8

namespace Outgoing

/-- The payload of each packet but the last. -/
def unit (o : Outgoing) : Nat := o.hw.mtu.toNat - 20

/-- `ipv4::needs_frag`. -/
def needsFrag (o : Outgoing) (p : Packet) : Bool :=
  if p.len + ipHdrLen ≤ o.hw.mtu.toNat then false
  else !((o.protoNum = 6 && o.hw.txTso) || (o.protoNum = 17 && o.hw.txUfo))

/-- The header that `send_pkt` prepends, as it goes out. -/
def hdr (o : Outgoing) (len frag csum : UInt16) : Bytes :=
  [0x45, 0] ++ writeBe16 len ++ writeBe16 0 ++ writeBe16 frag ++ [64, o.protoNum] ++
    writeBe16 csum ++ writeBe32 o.hostAddress ++ writeBe32 o.dstIp

/-- The field `frag` of `send_pkt`. -/
def fragField (needsFrag : Bool) (remaining offset : UInt16) : UInt16 :=
  if needsFrag then ((if 0 < remaining then 1 else 0 : UInt16) <<< 13) ||| offset / 8 else 0

/-- `send_pkt`. -/
def sendPkt (o : Outgoing) (needsFrag : Bool) (pkt : Packet) (remaining offset : UInt16) :
    Except Fault Packet := do
  let len := UInt16.ofNat (ipHdrLen + pkt.len)
  let frag := fragField needsFrag remaining offset
  if o.hw.txCsumIpOffload then .ok ((Packet.ofFrags [o.hdr len frag 0]).append pkt)
  else
    let csum ← Checksummer.sum {} (o.hdr len frag 0)
    .ok ((Packet.ofFrags [o.hdr len frag csum.get]).append pkt)

/-- The loop of `send`, in at most `fuel` rounds. -/
def sendLoop (o : Outgoing) (p : Packet) :
    Nat → UInt16 → UInt16 → Except Fault (Option (List Packet))
  | 0, _, _ => .ok none
  | fuel + 1, remaining, offset =>
    if remaining = 0 then .ok (some [])
    else do
      let canSend := min (o.hw.mtu - 20) remaining
      let pkt ← p.share offset.toNat canSend.toNat
      let pkt ← o.sendPkt true pkt (remaining - canSend) offset
      let rest ← sendLoop o p fuel (remaining - canSend) (offset + canSend)
      .ok (rest.map (pkt :: ·))

/-- `ipv4::send`: the packets that go to `_packetq`. -/
def send (o : Outgoing) (fuel : Nat) (p : Packet) : Except Fault (Option (List Packet)) :=
  if o.needsFrag p then o.sendLoop p fuel (.ofNat p.len) 0
  else do
    let pkt ← o.sendPkt false p 0 0
    .ok (some [pkt])

end Outgoing

/-! ## The header -/

variable {o : Outgoing} {c : Platform} {p q w : Packet} {len frag csum : UInt16}

theorem readBe16_writeBe16 (x : UInt16) :
    UInt16.ofNat (beNat [(x >>> 8).toUInt8, x.toUInt8]) = x := by
  simp only [beNat, List.foldl_cons, List.foldl_nil, Nat.zero_mul, Nat.zero_add]
  rw [Checksummer.toNat_writeBe16, UInt16.ofNat_toNat]

theorem readBe32_writeBe32 (x : UInt32) : UInt32.ofNat (beNat [(x >>> 24).toUInt8,
    (x >>> 16).toUInt8, (x >>> 8).toUInt8, x.toUInt8]) = x := by
  have hlt := x.toNat_lt
  rw [← UInt32.toNat_inj]
  simp [beNat, Nat.shiftRight_eq_div_pow]
  omega

/-- A receiver reads what was written. -/
theorem read_hdr (rest : Bytes) : ReceivedIpHdr.read (o.hdr len frag csum ++ rest) =
    ⟨5, len, 0, frag, o.protoNum, o.hostAddress, o.dstIp⟩ := by
  simp only [ReceivedIpHdr.read, ReceivedIpHdr.mk.injEq]
  exact ⟨by simp [Outgoing.hdr], readBe16_writeBe16 len, readBe16_writeBe16 0,
    readBe16_writeBe16 frag, rfl,
    readBe32_writeBe32 o.hostAddress, readBe32_writeBe32 o.dstIp⟩

theorem length_hdr : (o.hdr len frag csum).length = 20 := rfl

/-- The flag is above the bits of the offset. -/
theorem toNat_fragField (remaining offset : UInt16) :
    (Outgoing.fragField true remaining offset).toNat =
      2 ^ 13 * (if 0 < remaining then 1 else 0) + offset.toNat / 8 := by
  have hlt := offset.toNat_lt
  rw [Nat.two_pow_add_eq_or_of_lt (by omega : offset.toNat / 8 < 2 ^ 13), Outgoing.fragField,
    if_pos rfl, UInt16.toNat_or, UInt16.toNat_div]
  split
  · rfl
  · rfl

theorem fragField_offset {remaining offset : UInt16} (h : 8 ∣ offset.toNat) :
    Outgoing.fragField true remaining offset <<< 3 = offset := by
  have hlt := offset.toNat_lt
  rw [← UInt16.toNat_inj, UInt16.toNat_shiftLeft, toNat_fragField]
  simp only [Nat.shiftLeft_eq]
  split
  · simp
    omega
  · simp
    omega

theorem fragField_mf {remaining offset : UInt16} :
    Outgoing.fragField true remaining offset &&& (1 : UInt16) <<< 13 ≠ 0 ↔ 0 < remaining := by
  have hlt := offset.toNat_lt
  rw [ne_eq, ← UInt16.toNat_inj, UInt16.toNat_and, toNat_fragField]
  rw [show ((1 : UInt16) <<< 13).toNat = 2 ^ 13 from rfl, Nat.and_two_pow]
  split
  · rename_i h
    rw [Nat.mul_one, Nat.testBit_two_pow_add_eq, Nat.testBit_lt_two_pow (by omega)]
    simp [h]
  · rename_i h
    rw [Nat.mul_zero, Nat.zero_add, Nat.testBit_lt_two_pow (by omega)]
    simp [h]

/-- A packet as it goes out: a header, and the bytes of `pkt`. -/
theorem sendPkt_spec (needsFrag : Bool) (pkt : Packet) (remaining offset : UInt16) :
    ∃ w csum, o.sendPkt needsFrag pkt remaining offset = .ok w ∧
      w.bytes = o.hdr (.ofNat (20 + pkt.len)) (Outgoing.fragField needsFrag remaining offset) csum ++
        pkt.bytes := by
  unfold Outgoing.sendPkt
  cases o.hw.txCsumIpOffload with
  | true => exact ⟨_, 0, rfl, by simp [ipHdrLen]⟩
  | false => exact ⟨_, _, rfl, by simp [ipHdrLen]; rfl⟩

/-- The receiver takes a packet of a datagram for it, whatever padding there is behind it. -/
theorem accept_sent (hfilter : c.packetFilter = none) (hrx : c.rxCsumOffload = true)
    {data pad : Bytes} (hq : q.bytes = o.hdr (.ofNat (20 + data.length)) frag csum ++ data ++ pad)
    (hlen : (frag <<< 3).toNat + (20 + data.length) ≤ 65535) :
    ∃ h r, h = ⟨5, .ofNat (20 + data.length), 0, frag, o.protoNum, o.hostAddress, o.dstIp⟩ ∧
      r.bytes = o.hdr (.ofNat (20 + data.length)) frag csum ++ data ∧
      accept c o.dstIp false q =
        .ok (if h.mf || h.offset ≠ 0 then .fragment h r else .whole h r) := by
  have hqlen : q.len = 20 + data.length + pad.length := by
    rw [← Packet.length_bytes, hq, List.length_append, List.length_append, length_hdr]
  unfold accept
  cases hiph : q.getHeader 0 ipHdrLen with
  | none =>
    have := (q.getHeader_eq_none 0 ipHdrLen (by decide)).mp hiph
    simp only [ipHdrLen] at this
    omega
  | some iph =>
    obtain ⟨hbytes, -, hmem, hpre⟩ := Packet.getHeader_spec hiph
    rw [List.drop_zero, hq, List.append_assoc] at hpre
    obtain ⟨rest, hrest⟩ := List.prefix_of_prefix_length_le (List.prefix_append _ _) hpre
      (by rw [length_hdr]; exact hmem)
    have hbad : badCsum c false iph.mem = .ok false := by simp [badCsum, hrx]
    have hlt : (UInt16.ofNat (20 + data.length)).toNat = 20 + data.length := by
      rw [UInt16.toNat_ofNat']
      omega
    have hplen : iph.p.len = q.len := len_of_bytes hbytes
    obtain ⟨r, hr, hrb, hrl⟩ := Packet.trimBack_ok (p := iph.p)
      (n := iph.p.len - (20 + data.length)) (Nat.sub_le _ _)
    refine ⟨_, r, rfl, ?_, ?_⟩
    · rw [hrb, hbytes, hq]
      apply List.take_left'
      rw [List.length_append, length_hdr]
      omega
    · rw [← hrest] at hbad
      have hoff : (ReceivedIpHdr.offset
          ⟨5, .ofNat (20 + data.length), 0, frag, o.protoNum, o.hostAddress, o.dstIp⟩).toNat + r.len
          ≤ ipPacketLenMax := by
        simp only [ReceivedIpHdr.offset, ipPacketLenMax]
        omega
      simp only [← hrest, hbad, ok_bind, read_hdr, hlt, hr, hfilter, Option.any_none,
        Bool.false_eq_true, if_false, ne_eq, not_true_eq_false]
      rw [if_neg (by omega), if_neg (Nat.not_lt.mpr hoff)]
      split
      · rfl
      · rfl

/-! ## The packets -/

/-- The `i`-th part of the payload. -/
def part (o : Outgoing) (p : Packet) (i : Nat) : Bytes := (p.bytes.drop (i * o.unit)).take o.unit

/-- A datagram goes out in fragments, in units of 8 bytes, to a host without a packet filter,
whose device checks the sums. -/
structure Fragmented (c : Platform) (o : Outgoing) (p : Packet) : Prop where
  needsFrag : o.needsFrag p = true
  mtu : 28 ≤ o.hw.mtu.toNat
  aligned : 8 ∣ o.unit
  fits : p.len + 20 ≤ 65535
  filter : c.packetFilter = none
  rxCsum : c.rxCsumOffload = true

variable {i : Nat}

theorem length_part : (part o p i).length = min o.unit (p.len - i * o.unit) := by
  simp [part]

theorem Fragmented.unit_pos (hf : Fragmented c o p) : 0 < o.unit := by
  have := hf.mtu
  rw [Outgoing.unit]
  omega

/-- The key of the datagram. -/
def Outgoing.fragId (o : Outgoing) : FragId := ⟨o.hostAddress, o.dstIp, 0, o.protoNum⟩

/-- Part `i` of the payload as `handle_received_packet` takes it. -/
structure Takes (o : Outgoing) (p : Packet) (i : Nat) (h : ReceivedIpHdr) (r : Packet) : Prop where
  lt : i * o.unit < p.len
  id : FragId.of h = o.fragId
  hdrLen : h.hdrLen = 20
  offset : h.offset.toNat = i * o.unit
  mf : h.mf = true ↔ (i + 1) * o.unit < p.len
  len : r.len = 20 + (part o p i).length
  bytes : r.bytes.drop 20 = part o p i

/-- Packet `w` brings part `i`, whatever padding there is behind it. -/
def Brings (c : Platform) (o : Outgoing) (p : Packet) (i : Nat) (w : Packet) : Prop :=
  ∀ q : Packet, w.bytes <+: q.bytes →
    ∃ h r, accept c o.dstIp false q = .ok (.fragment h r) ∧ Takes o p i h r

theorem brings_of_bytes (hf : Fragmented c o p) {remaining offset : UInt16}
    (hlt : i * o.unit < p.len) (hoff : offset.toNat = i * o.unit)
    (hleft : remaining.toNat = p.len - (i + 1) * o.unit)
    (hw : w.bytes = o.hdr (.ofNat (20 + (part o p i).length))
      (Outgoing.fragField true remaining offset) csum ++ part o p i) : Brings c o p i w := by
  rintro q ⟨pad, hpad⟩
  have hlen : (part o p i).length = min o.unit (p.len - i * o.unit) := length_part
  have hfits := hf.fits
  have hoffset : Outgoing.fragField true remaining offset <<< 3 = offset :=
    fragField_offset (by rw [hoff]; exact Dvd.dvd.mul_left hf.aligned i)
  rw [hw] at hpad
  obtain ⟨h, r, rfl, hr, haccept⟩ := accept_sent hf.filter hf.rxCsum hpad.symm
    (by rw [hoffset, hoff]; omega)
  have hmf : Outgoing.fragField true remaining offset &&& (1 : UInt16) <<< 13 ≠ 0 ↔
      (i + 1) * o.unit < p.len := by
    rw [fragField_mf, UInt16.lt_iff_toNat_lt, hleft]
    exact Nat.sub_pos_iff_lt
  have hrlen : r.len = 20 + (part o p i).length := by
    rw [← Packet.length_bytes, hr, List.length_append, length_hdr]
  refine ⟨_, r, haccept.trans (congrArg Except.ok (if_pos ?_)), hlt, rfl, rfl,
    (congrArg UInt16.toNat hoffset).trans hoff,
    by rw [ReceivedIpHdr.mf, decide_eq_true_eq]; exact hmf, hrlen, ?_⟩
  · have hneeds := hf.needsFrag
    have hmtu := hf.mtu
    rw [Bool.or_eq_true, ReceivedIpHdr.mf, decide_eq_true_eq, decide_eq_true_eq,
      ReceivedIpHdr.offset, hoffset, hmf, ne_eq, ← UInt16.toNat_inj, hoff]
    -- one packet would do if the first were the last
    have hmore : o.unit < p.len := by
      unfold Outgoing.needsFrag at hneeds
      split at hneeds
      · cases hneeds
      · rename_i hle
        simp only [ipHdrLen] at hle
        rw [Outgoing.unit]
        omega
    rcases Nat.eq_zero_or_pos i with rfl | h0
    · left
      omega
    · right
      rw [UInt16.toNat_zero]
      exact Nat.mul_ne_zero (by omega) hf.unit_pos.ne'
  · rw [hr]
    exact List.drop_left' length_hdr

theorem toNat_min (a b : UInt16) : (min a b).toNat = min a.toNat b.toNat := by
  show (if a ≤ b then a else b).toNat = _
  rw [Nat.min_def]
  simp only [UInt16.le_iff_toNat_le]
  split
  · rfl
  · rfl

/-- The loop goes on from the part after those that were sent. -/
theorem sendLoop_spec (hf : Fragmented c o p) (fuel i : Nat) (remaining offset : UInt16)
    (hfuel : p.len - i * o.unit < fuel) (hremaining : remaining.toNat = p.len - i * o.unit)
    (hoffset : 0 < remaining.toNat → offset.toNat = i * o.unit) :
    ∃ ws, o.sendLoop p fuel remaining offset = .ok (some ws) ∧
      (∀ k, k < ws.length ↔ (i + k) * o.unit < p.len) ∧
      ∀ k w, ws[k]? = some w → Brings c o p (i + k) w := by
  have hfits := hf.fits
  have hpos := hf.unit_pos
  have hunit : (o.hw.mtu - 20).toNat = o.unit := by
    have := hf.mtu
    rw [UInt16.toNat_sub_of_le _ _ (UInt16.le_iff_toNat_le.mpr (by simp; omega)), Outgoing.unit]
    rfl
  induction fuel generalizing i remaining offset with
  | zero => exact absurd hfuel (Nat.not_lt_zero _)
  | succ fuel ih =>
    have hsucc : (i + 1) * o.unit = i * o.unit + o.unit := Nat.succ_mul i o.unit
    by_cases h0 : remaining = 0
    · rw [h0, UInt16.toNat_zero] at hremaining
      refine ⟨[], by rw [Outgoing.sendLoop, if_pos h0], fun k => ?_, by simp⟩
      have hle : i * o.unit ≤ (i + k) * o.unit := Nat.mul_le_mul_right o.unit (Nat.le_add_right i k)
      simp only [List.length_nil]
      omega
    · have hrem : 0 < remaining.toNat := by
        rw [Nat.pos_iff_ne_zero, ne_eq, ← UInt16.toNat_zero, UInt16.toNat_inj]
        exact h0
      have hoff := hoffset hrem
      have hpart : (part o p i).length = min o.unit (p.len - i * o.unit) := length_part
      obtain ⟨canSend, hdef⟩ : ∃ n, n = min (o.hw.mtu - 20) remaining := ⟨_, rfl⟩
      have hcan : canSend.toNat = (part o p i).length := by
        rw [hdef, toNat_min, hunit, hremaining, hpart]
      have hleft : (remaining - canSend).toNat = p.len - (i + 1) * o.unit := by
        rw [UInt16.toNat_sub_of_le _ _ (UInt16.le_iff_toNat_le.mpr (by omega)), hcan]
        omega
      have hnext : 0 < (remaining - canSend).toNat → (offset + canSend).toNat = (i + 1) * o.unit := by
        intro hmore
        rw [UInt16.toNat_add, hoff, hcan]
        omega
      obtain ⟨pkt, hpkt⟩ := (p.share_isOk_iff (i * o.unit) (part o p i).length).mpr (by omega)
      have hbytes : pkt.bytes = part o p i := by
        rw [Packet.share_spec hpkt, hpart, part]
        by_cases hle : o.unit ≤ p.len - i * o.unit
        · rw [min_eq_left hle]
        · rw [min_eq_right (by omega), List.take_of_length_le (by simp),
            List.take_of_length_le (by simp; omega)]
      obtain ⟨w, csum, hw, hwb⟩ := sendPkt_spec (o := o) true pkt (remaining - canSend) offset
      obtain ⟨ws, hws, hlength, hparts⟩ := ih (i + 1) _ _ (by omega) hleft hnext
      refine ⟨w :: ws, ?_, fun k => ?_, fun k v hv => ?_⟩
      · rw [Outgoing.sendLoop, if_neg h0]
        simp only [← hdef, hoff, hcan, hpkt, ok_bind, hw, hws]
        rfl
      · cases k with
        | zero =>
          show 0 < ws.length + 1 ↔ i * o.unit < p.len
          omega
        | succ k =>
          rw [List.length_cons, Nat.succ_lt_succ_iff, hlength, Nat.add_assoc, Nat.add_comm 1 k]
      · cases k with
        | zero =>
          obtain rfl := Option.some.inj hv
          rw [← Packet.length_bytes, hbytes] at hwb
          rw [Nat.add_zero]
          exact brings_of_bytes hf (by omega) hoff hleft hwb
        | succ k =>
          rw [Nat.add_comm k 1, ← Nat.add_assoc]
          exact hparts k v hv

/-! ## A receiver -/

/-- An entry of `_frags` has taken the parts `R`. -/
structure Gathered (o : Outgoing) (p : Packet) (R : List Nat) (f : Frag) : Prop where
  merged : PacketMerger.Merged UInt32.ofNat 0 p.len (fun x => p.bytes.getD x 0) f.data
    fun x => x < p.len ∧ x / o.unit ∈ R
  last : f.lastFragReceived = true ↔ ∃ i ∈ R, p.len ≤ (i + 1) * o.unit

variable {R : List Nat} {f g : Frag} {h : ReceivedIpHdr} {r : Packet}

theorem Gathered.nil : Gathered o p [] {} where
  merged := by simpa using PacketMerger.Merged.nil
  last := by simp

theorem Gathered.merge (hg : Gathered o p R f) (hf : Fragmented c o p) (ht : Takes o p i h r)
    (now : Int) :
    ∃ x, (f.arrived now h).merge c h h.offset r = .ok x ∧ Gathered o p (i :: R) x.1 := by
  have hfits := hf.fits
  have hpos := hf.unit_pos
  have hlt := ht.lt
  have hlen := ht.len
  have hpart : (part o p i).length = min o.unit (p.len - i * o.unit) := length_part
  have hoff : h.offset.toUInt32 = UInt32.ofNat (i * o.unit) := by
    rw [← UInt32.toNat_inj]
    simp [ht.offset]
    omega
  obtain ⟨r', hr', hrb, hrl⟩ := Packet.trimFront_ok (p := r) (n := 20) (by omega)
  have hslice : r'.bytes = slice (fun x => p.bytes.getD x 0) (i * o.unit) r'.len := by
    rw [hrb, ht.bytes, hrl, hlen, hpart, Nat.add_sub_cancel_left, part]
    have hle : i * o.unit + min o.unit (p.len - i * o.unit) ≤ p.bytes.length := by
      rw [Packet.length_bytes]
      omega
    rw [show (fun x => p.bytes.getD x 0) = Tcp.Tcb.byteAt p.bytes from rfl,
      Tcp.Tcb.slice_byteAt hle, ← hpart, part, List.take_eq_take_iff]
    simp
  have hwindow := OffsetWindow.uint32.mono (Nat.le_refl 0) (by omega : p.len ≤ 2 ^ 32 - 1)
  have hend : i * o.unit + r'.len ≤ p.len := by omega
  obtain ⟨out, hout, segs, hreads, hsep, hcov⟩ :=
    PacketMerger.merge_spec hwindow hg.merged (Nat.zero_le (i * o.unit)) hend hslice
  have hheader : ∃ header, f.storeHeader h h.offset r = .ok header := by
    unfold Frag.storeHeader
    split
    · exact (r.share_isOk_iff 0 h.hdrLen).mpr (by rw [ht.hdrLen]; omega)
    · exact ⟨f.header, rfl⟩
  obtain ⟨header, hstore⟩ := hheader
  have hdiv : ∀ x, x < p.len → (x / o.unit = i ↔ i * o.unit ≤ x ∧ x < i * o.unit + r'.len) := by
    intro x hx
    rw [Nat.div_eq_iff (by omega)]
    have := Nat.succ_mul i o.unit
    omega
  have hrun : ∃ x, (f.arrived now h).merge c h h.offset r = .ok x ∧ x.1.data = out ∧
      x.1.lastFragReceived = (f.lastFragReceived || !h.mf) := by
    simp only [Frag.merge, ht.hdrLen, hr', ok_bind]
    rw [show (f.arrived now h).storeHeader h h.offset r = .ok header from hstore, ok_bind, hoff]
    rw [show (f.arrived now h).data = f.data from rfl, hout]
    exact ⟨_, rfl, rfl, rfl⟩
  obtain ⟨x, hx, rfl, hlast⟩ := hrun
  refine ⟨x, hx, ⟨segs, hreads, hsep, fun x => ?_⟩, ?_⟩
  · simp only [hcov, List.mem_cons]
    constructor
    · rintro (⟨hx, hmem⟩ | hx)
      · exact ⟨hx, .inr hmem⟩
      · exact ⟨by omega, .inl ((hdiv x (by omega)).mpr hx)⟩
    · rintro ⟨hx, heq | hmem⟩
      · exact .inr ((hdiv x hx).mp heq)
      · exact .inl ⟨hx, hmem⟩
  · have hmf : (!h.mf) = true ↔ p.len ≤ (i + 1) * o.unit := by
      rw [Bool.not_eq_true', ← Bool.not_eq_true, ht.mf, Nat.not_lt]
    rw [hlast, Bool.or_eq_true, hg.last, hmf, List.exists_mem_cons_iff]
    exact or_comm

/-- The entry is complete when all parts are there, and then it holds the payload. -/
theorem Gathered.isComplete_iff (hg : Gathered o p R f) (hf : Fragmented c o p)
    (hR : ∀ i ∈ R, i * o.unit < p.len) (hne : R ≠ []) :
    ∃ b, f.isComplete = .ok b ∧ (b = true ↔ ∀ i, i * o.unit < p.len → i ∈ R) ∧
      (b = true → ∃ q, f.data = [(0, q)] ∧ q.bytes = p.bytes) := by
  have hfits := hf.fits
  have hu := hf.unit_pos
  obtain ⟨segs, hreads, hsep, hcov⟩ := hg.merged
  have hcov : ∀ x, Covered segs x ↔ x < p.len ∧ x / o.unit ∈ R := hcov
  obtain ⟨k, hk⟩ := List.exists_mem_of_ne_nil R hne
  have hklt := hR k hk
  have hcover : ∀ i, i * o.unit < p.len → (Covered segs (i * o.unit) ↔ i ∈ R) := by
    intro i hi
    rw [hcov, Nat.mul_div_cancel i hu]
    exact and_iff_right hi
  cases hsegs : segs with
  | nil =>
    have := (hcover k hklt).mpr hk
    rw [hsegs] at this
    exact absurd this (covered_nil _)
  | cons s ss =>
    cases hdata : f.data with
    | nil =>
      have := hreads.entries
      rw [hdata, hsegs] at this
      cases this
    | cons e rest =>
      subst hsegs
      rw [hdata] at hreads
      obtain ⟨⟨hentry, ⟨-, hstop⟩, hholds⟩, htail⟩ := PacketMerger.reads_cons.mp hreads
      have hempty : rest = [] ↔ ss = [] := by
        rw [← List.length_eq_zero_iff, htail.entries.length_eq, List.length_eq_zero_iff]
      have hbeg : e.1 = 0 ↔ s.beg = 0 := by
        have hle := s.beg_le_stop
        rw [hentry.1, ← UInt32.toNat_inj, UInt32.toNat_ofNat', UInt32.toNat_zero,
          Nat.mod_eq_of_lt (by omega)]
      have hall : (∀ i, i * o.unit < p.len → i ∈ R) ↔
          (f.lastFragReceived = true ∧ ss = []) ∧ s.beg = 0 := by
        rw [hg.last]
        constructor
        · intro h
          have hafter := (List.pairwise_cons.mp hsep).1
          -- what lies beyond the first segment is separated from it
          have hfirst : ∀ x, x < p.len → x ≤ s.stop → s.beg ≤ x ∧ x < s.stop := by
            intro x hx hle
            obtain ⟨t, ht, htx⟩ := (hcov x).mpr
              ⟨hx, h _ (Nat.lt_of_le_of_lt (Nat.div_mul_le_self x o.unit) hx)⟩
            rcases List.mem_cons.mp ht with rfl | ht
            · exact htx
            · have := hafter t ht
              omega
          have hzero := hfirst 0 (by omega) (Nat.zero_le _)
          have hlen : p.len ≤ s.stop := Nat.le_of_not_lt fun hlt =>
            Nat.lt_irrefl _ (hfirst s.stop hlt (Nat.le_refl _)).2
          refine ⟨⟨⟨(p.len - 1) / o.unit, h _ ?_, ?_⟩, ?_⟩, by omega⟩
          · have := Nat.div_mul_le_self (p.len - 1) o.unit
            omega
          · have := Nat.lt_div_mul_add (a := p.len - 1) hu
            rw [Nat.succ_mul]
            omega
          · apply List.eq_nil_iff_forall_not_mem.mpr
            intro v hv
            have hgt := hafter v hv
            have hle := (htail.inside v hv).2
            have := v.beg_le_stop
            omega
        · rintro ⟨⟨⟨j, hj, hlast⟩, rfl⟩, h0⟩ i hi
          have hij := (Nat.mul_lt_mul_right hu).mp (Nat.lt_of_lt_of_le hi hlast)
          have hle := Nat.mul_le_mul_right o.unit (Nat.le_of_lt_succ hij)
          have hcj := (hcover j (hR j hj)).mpr hj
          apply (hcover i hi).mp
          simp only [covered_cons, covered_nil, or_false] at hcj ⊢
          omega
      refine ⟨_, by rw [Frag.isComplete, hdata], ?_, fun hb => ?_⟩
      · rw [hall, Bool.and_eq_true, Bool.and_eq_true, beq_iff_eq, hbeg, List.isEmpty_iff, hempty]
      · rw [Bool.and_eq_true, Bool.and_eq_true, beq_iff_eq, List.isEmpty_iff] at hb
        obtain ⟨⟨hlast, rfl⟩, h0⟩ := hb
        have hlastCovered := (hcov (p.len - 1)).mpr ⟨by omega, hall.mpr ⟨⟨hlast, hempty.mp rfl⟩,
          hbeg.mp h0⟩ _ (by have := Nat.div_mul_le_self (p.len - 1) o.unit; omega)⟩
        rw [hempty.mp rfl, covered_cons] at hlastCovered
        have hlen := (hlastCovered.resolve_right (covered_nil _)).2
        have hs0 := hbeg.mp h0
        have hdlen : s.data.length = p.len := by
          rw [stop] at hlen hstop
          omega
        refine ⟨e.2, by rw [← h0], ?_⟩
        rw [hentry.2, hholds, hs0, hdlen]
        rw [show (fun x => p.bytes.getD x 0) = Tcp.Tcb.byteAt p.bytes from rfl,
          Tcp.Tcb.slice_byteAt (by simp), List.drop_zero, List.take_of_length_le (by simp)]

/-- A part is missing. -/
def Missing (o : Outgoing) (p : Packet) (R : List Nat) : Prop := ∃ j, j * o.unit < p.len ∧ j ∉ R

/-- The receiver has taken the parts `R`. -/
structure Waits (o : Outgoing) (p : Packet) (R : List Nat) (s : Ipv4) : Prop where
  host : s.hostAddress = o.dstIp
  gathered : Gathered o p R (index o.fragId s.frags).1
  lt : ∀ i ∈ R, i * o.unit < p.len

/-- What `handle_received_packet` comes to when the datagram is complete: its entry is dropped, and
its payload is handed on. -/
def Completes (c : Platform) (o : Outgoing) (p : Packet) (src : Bytes)
    (r : Except Fault (Ipv4 × Option Delivered)) : Prop :=
  ∃ t h f q, f.data = [(0, q)] ∧ q.bytes = p.bytes ∧ t.frags.lookup o.fragId = none ∧
    r = (deliver c src h f >>= fun out => .ok (t, out))

variable {s : Ipv4} {src : Bytes}

theorem index_lookup (id : FragId) (l : List (FragId × Frag)) :
    (index id l).2.lookup id = some (index id l).1 := by
  unfold index
  split
  · assumption
  · rename_i h
    rw [List.lookup_append, h, List.lookup_cons_self]
    rfl

/-- One more part: the datagram is complete when it was the last that was missing. -/
theorem Waits.receive (hs : Waits o p R s) (hf : Fragmented c o p)
    (hroom : s.fragMem ≤ fragHighThresh) (hw : Brings c o p i w) (hq : w.bytes <+: q.bytes)
    (now : Int) :
    (Missing o p (i :: R) → ∃ t, s.handleReceivedPacket c now false q src = .ok (t, none) ∧
      Waits o p (i :: R) t) ∧
    (¬ Missing o p (i :: R) → Completes c o p src (s.handleReceivedPacket c now false q src)) := by
  obtain ⟨h, r, haccept, ht⟩ := hw q hq
  obtain ⟨x, hx, hgx⟩ := hs.gathered.merge hf ht now
  have hR : ∀ j ∈ i :: R, j * o.unit < p.len := List.forall_mem_cons.mpr ⟨ht.lt, hs.lt⟩
  obtain ⟨b, hb, hiff, hdata⟩ := hgx.isComplete_iff hf hR (List.cons_ne_nil _ _)
  have hmissing : Missing o p (i :: R) ↔ b ≠ true := by
    simp only [Missing, ne_eq, hiff, not_forall, exists_prop]
  have hset := Assoc.lookup_set o.fragId o.fragId x.1 (index o.fragId s.frags).2
  rw [if_pos rfl, index_lookup] at hset
  have hhandle : s.handleReceivedPacket c now false q src = s.receiveFragment c now src h r := by
    rw [handleReceivedPacket, hs.host, haccept]
    rfl
  rw [hhandle, hmissing]
  unfold receiveFragment
  rw [fragLimitMem, if_pos hroom, ht.id]
  simp only [hx, ok_bind, hb]
  cases b with
  | true =>
    refine ⟨fun h => absurd rfl h, fun _ => ?_⟩
    obtain ⟨q', hq', hbytes⟩ := hdata rfl
    rw [if_pos rfl]
    have herase : ∀ l : List (FragId × Frag), (Assoc.erase o.fragId l).lookup o.fragId = none :=
      fun l => Assoc.lookup_eq_none.mpr fun e he => of_decide_eq_true (List.mem_filter.mp he).2
    exact ⟨_, h, x.1, q', hq', hbytes, herase _, rfl⟩
  | false =>
    refine ⟨fun _ => ?_, fun h => absurd Bool.false_ne_true h⟩
    have hwaits : ∀ t : Ipv4, t.hostAddress = s.hostAddress →
        t.frags = Assoc.set o.fragId x.1 (index o.fragId s.frags).2 → Waits o p (i :: R) t := by
      intro t hhost hfrags
      refine ⟨hhost.trans hs.host, ?_, hR⟩
      rw [hfrags, index, hset]
      exact hgx
    simp only [Bool.false_eq_true, if_false]
    split
    · exact ⟨_, rfl, hwaits _ rfl rfl⟩
    · exact ⟨_, rfl, hwaits _ rfl rfl⟩

/-- Number `e.1` of the packets `ws` comes in, with what padding there is behind it. -/
def Arrives (ws : List Packet) (e : Nat × Int × Packet) : Prop :=
  ∃ w, ws[e.1]? = some w ∧ w.bytes <+: e.2.2.bytes

/-- The packets come in one after the other. -/
def arrivals (src : Bytes) (es : List (Nat × Int × Packet)) : List Event :=
  es.map fun e => .received e.2.1 false e.2.2 src

/-- As long as a part is missing the receiver waits. -/
theorem Waits.run {ws : List Packet} {es : List (Nat × Int × Packet)} (hs : Waits o p R s)
    (hf : Fragmented c o p) (hws : ∀ k w, ws[k]? = some w → Brings c o p k w)
    (hes : ∀ e ∈ es, Arrives ws e)
    (hroom : Run.Along (step c) (fun s _ => s.fragMem ≤ fragHighThresh) s (arrivals src es))
    (hmiss : Missing o p ((es.map Prod.fst).reverse ++ R)) :
    ∃ t, Ipv4.run c s (arrivals src es) = .ok t ∧ Waits o p ((es.map Prod.fst).reverse ++ R) t := by
  induction es generalizing R s with
  | nil => exact ⟨s, rfl, hs⟩
  | cons e es ih =>
    obtain ⟨⟨w, hw, hpre⟩, hes⟩ := List.forall_mem_cons.mp hes
    rw [List.map_cons, List.reverse_cons, List.append_assoc] at hmiss ⊢
    obtain ⟨j, hj, hjR⟩ := hmiss
    obtain ⟨t, ht, hwaits⟩ := (hs.receive hf hroom.1 (hws _ w hw) hpre e.2.1).1
      ⟨j, hj, fun hmem => hjR (List.mem_append_right _ hmem)⟩
    have hstep : step c s (.received e.2.1 false e.2.2 src) = .ok t := by
      rw [step, ht]
      rfl
    obtain ⟨u, hrun, hu⟩ := ih hwaits hes (hroom.2 t hstep) ⟨j, hj, hjR⟩
    exact ⟨u, Run.run_cons_ok.mpr ⟨t, hstep, hrun⟩, hu⟩

/-- A datagram is sent in fragments, and they come in in any order, some of them more than once, at a
host that does not know the datagram yet: the packet that is the last one missing completes it with
the payload that was sent, and no other packet before it. -/
theorem send_reassembled (hf : Fragmented c o p) :
    ∃ ws, o.send (p.len + 1) p = .ok (some ws) ∧
      ∀ (s : Ipv4) (src : Bytes) (es : List (Nat × Int × Packet)) (e : Nat × Int × Packet),
        s.hostAddress = o.dstIp → s.frags.lookup o.fragId = none → (∀ d ∈ e :: es, Arrives ws d) →
        (∃ j < ws.length, j ∉ es.map Prod.fst) →
        Run.Along (step c) (fun s _ => s.fragMem ≤ fragHighThresh) s (arrivals src (es ++ [e])) →
        ∃ t, Ipv4.run c s (arrivals src es) = .ok t ∧
          ((∃ j < ws.length, j ∉ (e :: es).map Prod.fst) →
            ∃ u, t.handleReceivedPacket c e.2.1 false e.2.2 src = .ok (u, none)) ∧
          (¬ (∃ j < ws.length, j ∉ (e :: es).map Prod.fst) →
            Completes c o p src (t.handleReceivedPacket c e.2.1 false e.2.2 src)) := by
  have hfits := hf.fits
  have hlen : (UInt16.ofNat p.len).toNat = p.len := by
    rw [UInt16.toNat_ofNat']
    omega
  obtain ⟨ws, hws, hlength, hparts⟩ := sendLoop_spec hf (p.len + 1) 0 (.ofNat p.len) 0 (by omega)
    (by omega) (by simp)
  simp only [Nat.zero_add] at hlength hparts
  refine ⟨ws, by rw [Outgoing.send, if_pos hf.needsFrag, hws], ?_⟩
  intro s src es e hhost hnone hes hmiss hroom
  obtain ⟨⟨w, hw, hpre⟩, hes⟩ := List.forall_mem_cons.mp hes
  have hstart : Waits o p [] s := ⟨hhost, by rw [index, hnone]; exact Gathered.nil, by simp⟩
  rw [arrivals, List.map_append, ← arrivals] at hroom
  obtain ⟨t, hrun, ht⟩ := hstart.run hf hparts hes hroom.of_append
    (by simpa [Missing, hlength] using hmiss)
  obtain ⟨hwait, hdone⟩ := ht.receive hf (hroom.of_run hrun).1 (hparts _ w hw) hpre e.2.1
  have hiff : (∃ j < ws.length, j ∉ (e :: es).map Prod.fst) ↔
      Missing o p (e.1 :: ((es.map Prod.fst).reverse ++ [])) := by
    simp [Missing, hlength]
  rw [hiff]
  exact ⟨t, hrun, fun h => (hwait h).imp fun u hu => hu.1, hdone⟩

end Seastar.Net.Ipv4
