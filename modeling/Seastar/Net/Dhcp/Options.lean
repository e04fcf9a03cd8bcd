import Seastar.Net.Checksum

/-!
`parse_options` of `net/dhcp.cc`. The loop reads each option through `get_header`, so it does not
depend on the fragments of the packet and stays in it. It takes every option for one with a length,
also the pad option, which has none: a pad option is right only if another one stands behind it.
-/

namespace Seastar.Net.Dhcp

open Lib

/-! ## The loop -/

namespace OptType

/-- The values of `opt_type` that `parse_options` looks for, and the one it stops at. -/
def subnetMask : UInt8 := 1
def router : UInt8 := 3
def domainNameServers : UInt8 := 6
def interfaceMtu : UInt8 := 26
def broadcastAddress : UInt8 := 28
def leaseTime : UInt8 := 51
def messageType : UInt8 := 53
def dhcpServer : UInt8 := 54
def renewalTime : UInt8 := 58
def rebindingTime : UInt8 := 59
def pad : UInt8 := 0
def endMark : UInt8 := 255

end OptType

/-- `dhcp::lease`; times are in seconds. -/
structure Lease where
  ip : UInt32 := 0
  netmask : UInt32 := 0
  broadcast : UInt32 := 0
  gateway : UInt32 := 0
  dhcpServer : UInt32 := 0
  nameServers : List UInt32 := []
  leaseTime : UInt32 := 0
  renewTime : UInt32 := 0
  rebindTime : UInt32 := 0
  mtu : UInt16 := 0
  deriving DecidableEq, Repr

/-- `ip_info`. -/
structure IpInfo extends Lease where
  type : UInt8 := 0
  deriving DecidableEq, Repr

namespace IpInfo

/-- `set` of an address. -/
def setIp (type : UInt8) (ip : UInt32) (info : IpInfo) : IpInfo :=
  if type = OptType.subnetMask then { info with netmask := ip }
  else if type = OptType.router then { info with gateway := ip }
  else if type = OptType.broadcastAddress then { info with broadcast := ip }
  else if type = OptType.dhcpServer then { info with dhcpServer := ip }
  else if type = OptType.domainNameServers then
    { info with nameServers := info.nameServers ++ [ip] }
  else info

/-- `set` of a time. -/
def setTime (type : UInt8) (s : UInt32) (info : IpInfo) : IpInfo :=
  if type = OptType.leaseTime then { info with leaseTime := s }
  else if type = OptType.renewalTime then { info with renewTime := s }
  else if type = OptType.rebindingTime then { info with rebindTime := s }
  else info

end IpInfo

/-- `n` bytes of what a header pointer points to, from byte `i` on, as a number. -/
def readField (h : Packet.Header) (i n : Nat) : Except Fault Nat :=
  if i + n ≤ h.mem.length then .ok (beNat ((h.mem.drop i).take n)) else .error .readPast

def readByte (h : Packet.Header) (i : Nat) : Except Fault UInt8 :=
  (h.mem[i]?).elim (.error .readPast) .ok

/-- A typed option with a value of `size` bytes behind its type and length, if it is in the packet. -/
def typedOption (p : Packet) (off size : Nat) (info : IpInfo) (set : Nat → IpInfo) :
    Except Fault (Packet × IpInfo) :=
  match p.getHeader off (2 + size) with
  | none => .ok (p, info)
  | some h => do
    let value ← readField h 2 size
    .ok (h.p, set value)

/-- The `switch` over `o->type`. -/
def parseOption (p : Packet) (off : Nat) (type : UInt8) (info : IpInfo) :
    Except Fault (Packet × IpInfo) :=
  if type = OptType.subnetMask ∨ type = OptType.router ∨ type = OptType.broadcastAddress ∨
      type = OptType.dhcpServer ∨ type = OptType.domainNameServers then
    typedOption p off 4 info fun ip => info.setIp type (.ofNat ip)
  else if type = OptType.messageType then
    typedOption p off 1 info fun t => { info with type := .ofNat t }
  else if type = OptType.interfaceMtu then
    typedOption p off 2 info fun mtu => { info with mtu := .ofNat mtu }
  else if type = OptType.leaseTime ∨ type = OptType.renewalTime ∨ type = OptType.rebindingTime then
    typedOption p off 4 info fun s => info.setTime type (.ofNat s)
  else .ok (p, info)

/-- The rounds of `parse_options`; `none` when there are more than it is given. -/
def parseRounds : Nat → Packet → Nat → IpInfo → Except Fault (Option IpInfo)
  | 0, _, _, _ => .ok none
  | rounds + 1, p, off, info =>
    match p.getHeader off 1 with
    | none => .ok (some info)
    | some m => do
      let mark ← readByte m 0
      if mark = OptType.endMark then .ok (some info) else
      match m.p.getHeader off 2 with
      | none => .ok (some info)
      | some o => do
        let type ← readByte o 0
        let (p, info) ← parseOption o.p off type info
        let len ← readByte o 1
        parseRounds rounds p (off + (2 + len.toNat)) info

/-- `parse_options`: no packet takes more rounds than it has bytes, and one to see its end. -/
def parseOptions (p : Packet) (off : Nat) (info : IpInfo) : Except Fault (Option IpInfo) :=
  parseRounds (p.len + 1) p off info

/-! ## The bytes of the packet -/

/-- The known options by their values. -/
inductive Field
  | netmask
  | gateway
  | broadcast
  | dhcpServer
  | nameServer
  | messageType
  | mtu
  | leaseTime
  | renewTime
  | rebindTime
  deriving DecidableEq, Repr

namespace Field

def all : List Field := [netmask, gateway, broadcast, dhcpServer, nameServer, messageType, mtu,
  leaseTime, renewTime, rebindTime]

def type : Field → UInt8
  | netmask => OptType.subnetMask
  | gateway => OptType.router
  | broadcast => OptType.broadcastAddress
  | dhcpServer => OptType.dhcpServer
  | nameServer => OptType.domainNameServers
  | messageType => OptType.messageType
  | mtu => OptType.interfaceMtu
  | leaseTime => OptType.leaseTime
  | renewTime => OptType.renewalTime
  | rebindTime => OptType.rebindingTime

/-- The bytes of the value. -/
def size : Field → Nat
  | messageType => 1
  | mtu => 2
  | _ => 4

/-- The field is recorded as `v`. -/
def record (v : Nat) (info : IpInfo) : Field → IpInfo
  | netmask => { info with netmask := .ofNat v }
  | gateway => { info with gateway := .ofNat v }
  | broadcast => { info with broadcast := .ofNat v }
  | dhcpServer => { info with dhcpServer := .ofNat v }
  | nameServer => { info with nameServers := info.nameServers ++ [.ofNat v] }
  | messageType => { info with type := .ofNat v }
  | mtu => { info with mtu := .ofNat v }
  | leaseTime => { info with leaseTime := .ofNat v }
  | renewTime => { info with renewTime := .ofNat v }
  | rebindTime => { info with rebindTime := .ofNat v }

end Field

/-- The field that an option of the type sets. -/
def fieldOf (type : UInt8) : Option Field := Field.all.find? (·.type = type)

/-- An option of the type, with the bytes behind its length. -/
def recordBytes (type : UInt8) (bs : Bytes) (info : IpInfo) : IpInfo :=
  (fieldOf type).elim info fun f =>
    if f.size ≤ bs.length then f.record (beNat (bs.take f.size)) info else info

/-- `parse_options` on the bytes of the packet. -/
def scan : Bytes → IpInfo → IpInfo
  | [], info => info
  | [_], info => info
  | t :: len :: bs, info =>
    if t = OptType.endMark then info
    else scan (bs.drop len.toNat) (recordBytes t bs info)
termination_by bs => bs.length
decreasing_by
  simp only [List.length_drop, List.length_cons]
  omega

theorem fieldOf_type (f : Field) : fieldOf f.type = some f := by
  cases f <;> decide

theorem type_of_fieldOf {t : UInt8} {f : Field} (h : fieldOf t = some f) : f.type = t := by
  rw [fieldOf] at h
  simpa using List.find?_some h

variable {p p' : Packet} {off size i n : Nat} {info : IpInfo} {t : UInt8} {f : Field}

/-- A header pointer reads the bytes of the packet. -/
theorem getHeader_reads (p : Packet) (off : Nat) {size : Nat} (hsize : 0 < size) :
    p.getHeader off size = none ∧ p.len < off + size ∨
      off + size ≤ p.len ∧ ∃ h, p.getHeader off size = some h ∧ h.p.bytes = p.bytes ∧
        h.p.len = p.len ∧ (∀ i, i < size → readByte h i = .ok (p.bytes.getD (off + i) 0)) ∧
        ∀ i n, i + n ≤ size → readField h i n = .ok (beNat ((p.bytes.drop (off + i)).take n)) := by
  cases hh : p.getHeader off size with
  | none => exact Or.inl ⟨rfl, (p.getHeader_eq_none off size hsize).mp hh⟩
  | some h =>
    obtain ⟨hbytes, hle, hmem, hpre⟩ := Packet.getHeader_spec hh
    have hlen : h.p.len = p.len := by rw [← Packet.length_bytes, hbytes, Packet.length_bytes]
    obtain ⟨rest, hrest⟩ := hpre
    refine Or.inr ⟨hle, h, rfl, hbytes, hlen, fun i hi => ?_, fun i n hin => ?_⟩
    · have hi' : i < h.mem.length := Nat.lt_of_lt_of_le hi hmem
      have hget : (p.bytes.drop off)[i]? = some h.mem[i] := by
        rw [← hrest, List.getElem?_append_left hi', List.getElem?_eq_getElem hi']
      rw [readByte, List.getElem?_eq_getElem hi', Option.elim_some, List.getD_eq_getElem?_getD,
        ← List.getElem?_drop, hget, Option.getD_some]
    · have hin' : i + n ≤ h.mem.length := Nat.le_trans hin hmem
      rw [readField, if_pos hin', ← List.drop_drop, ← hrest,
        List.drop_append_of_le_length (by omega), List.take_append_of_le_length (by
          rw [List.length_drop]
          omega)]

theorem typedOption_ok (p : Packet) (off : Nat) (hsize : 0 < size) (info : IpInfo)
    (set : Nat → IpInfo) :
    ∃ p', p'.bytes = p.bytes ∧ p'.len = p.len ∧ typedOption p off size info set =
      .ok (p', if size ≤ (p.bytes.drop (off + 2)).length
        then set (beNat ((p.bytes.drop (off + 2)).take size)) else info) := by
  rw [typedOption, List.length_drop, Packet.length_bytes]
  have hpos : 0 < 2 + size := by omega
  rcases getHeader_reads p off hpos with ⟨hnone, hlt⟩ |
    ⟨hle, h, hsome, hbytes, hlen, -, hread⟩
  · refine ⟨p, rfl, rfl, ?_⟩
    rw [hnone, if_neg (by omega)]
  · refine ⟨h.p, hbytes, hlen, ?_⟩
    rw [hsome, if_pos (by omega)]
    dsimp only
    rw [hread 2 size (Nat.le_refl _)]
    rfl

/-- The `switch` records the field of the option, if its value is in the packet. -/
theorem parseOption_ok (p : Packet) (off : Nat) (t : UInt8) (info : IpInfo) :
    ∃ p', p'.bytes = p.bytes ∧ p'.len = p.len ∧
      parseOption p off t info = .ok (p', recordBytes t (p.bytes.drop (off + 2)) info) := by
  cases hf : fieldOf t with
  | none =>
    have hne : ∀ f : Field, t ≠ f.type := by
      rintro f rfl
      rw [fieldOf_type] at hf
      cases hf
    refine ⟨p, rfl, rfl, ?_⟩
    rw [recordBytes, hf, parseOption, if_neg, if_neg (show t ≠ OptType.messageType from hne .messageType),
      if_neg (show t ≠ OptType.interfaceMtu from hne .mtu), if_neg]
    · rfl
    · rintro (h | h | h)
      · exact hne .leaseTime h
      · exact hne .renewTime h
      · exact hne .rebindTime h
    · rintro (h | h | h | h | h)
      · exact hne .netmask h
      · exact hne .gateway h
      · exact hne .broadcast h
      · exact hne .dhcpServer h
      · exact hne .nameServer h
  | some f =>
    obtain rfl := type_of_fieldOf hf
    rw [recordBytes, hf]
    cases f <;> exact typedOption_ok p off (by decide) info _

theorem scan_endMark (bs : Bytes) (info : IpInfo) : scan (OptType.endMark :: bs) info = info := by
  cases bs with
  | nil => rw [scan]
  | cons b bs => rw [scan, if_pos rfl]

theorem drop_cons (bs : Bytes) (h : off < bs.length) :
    bs.drop off = bs.getD off 0 :: bs.drop (off + 1) := by
  rw [List.drop_eq_getElem_cons h, List.getD_eq_getElem?_getD, List.getElem?_eq_getElem h,
    Option.getD_some]

/-- In enough rounds the loop comes to the end, whatever the packet holds. -/
theorem parseRounds_eq_scan (hn : p.len < off + n) (h1 : 0 < n) :
    parseRounds n p off info = .ok (some (scan (p.bytes.drop off) info)) := by
  induction n generalizing p off info with
  | zero => exact absurd h1 (Nat.lt_irrefl 0)
  | succ n ih =>
    rw [parseRounds]
    have hlen : (p.bytes.drop off).length = p.len - off := by
      rw [List.length_drop, Packet.length_bytes]
    rcases getHeader_reads p off Nat.one_pos with ⟨hnone, hlt⟩ |
      ⟨hle, m, hsome, hbytes, hmlen, hread, -⟩
    · have hnil : p.bytes.drop off = [] := List.eq_nil_of_length_eq_zero (by omega)
      rw [hnone, hnil, scan]
    · have hoff : off < p.len := by omega
      rw [hsome, drop_cons p.bytes (by rwa [Packet.length_bytes])]
      dsimp only
      rw [hread 0 Nat.one_pos, ok_bind, Nat.add_zero]
      by_cases hend : p.bytes.getD off 0 = OptType.endMark
      · rw [if_pos hend, hend, scan_endMark]
      · rw [if_neg hend]
        rcases getHeader_reads m.p off Nat.two_pos with ⟨hnone, hlt⟩ |
          ⟨hle', o, hsome', hbytes', holen, hread', -⟩
        · have hnil : p.bytes.drop (off + 1) = [] := by
            apply List.eq_nil_of_length_eq_zero
            rw [List.length_drop, Packet.length_bytes]
            omega
          rw [hnone, hnil, scan]
        · have hnext : off + 1 < p.len := by omega
          obtain ⟨p', hp', hplen', hopt⟩ :=
            parseOption_ok o.p off (p.bytes.getD off 0) info
          rw [hsome', drop_cons p.bytes (by rwa [Packet.length_bytes])]
          dsimp only
          rw [hread' 0 Nat.two_pos, hbytes, Nat.add_zero, ok_bind, hopt, ok_bind]
          dsimp only
          rw [hread' 1 (Nat.lt_succ_self 1), hbytes, ok_bind, ih (by omega) (by omega), scan,
            if_neg hend, hp', hbytes', hbytes, List.drop_drop, Nat.add_assoc off 2]

/-- `parse_options` of a packet is the walk over its bytes. -/
theorem parseOptions_eq_scan (p : Packet) (off : Nat) (info : IpInfo) :
    parseOptions p off info = .ok (some (scan (p.bytes.drop off) info)) :=
  parseRounds_eq_scan (by omega) (Nat.succ_pos _)

/-! ## The options of RFC 2132 -/

/-- An option: a pad is a single byte, every other one has a length and that many bytes. -/
inductive Opt
  | pad
  | option (code : UInt8) (data : Bytes) (hcode : code ≠ OptType.pad)
      (hend : code ≠ OptType.endMark) (hlen : data.length < 256)

namespace Opt

def encode : Opt → Bytes
  | pad => [OptType.pad]
  | option code data _ _ _ => code :: .ofNat data.length :: data

/-- The field that the option sets, and its value. -/
def value : Opt → Option (Field × Nat)
  | pad => none
  | option code data _ _ _ => (fieldOf code).map fun f => (f, beNat (data.take f.size))

end Opt

/-- An option area. -/
def area (os : List Opt) : Bytes := os.flatMap Opt.encode ++ [OptType.endMark]

/-- The value of the last option that sets the field. -/
def last (f : Field) (os : List Opt) : Option Nat :=
  (os.filterMap fun o => o.value.bind fun v => if v.1 = f then some v.2 else none).getLast?

/-- The options recorded one after the other. -/
def apply (info : IpInfo) (o : Opt) : IpInfo :=
  o.value.elim info fun v => v.1.record v.2 info

end Seastar.Net.Dhcp
