import Seastar.Net.Checksum
import Seastar.Net.Tcp.Seq

/-!
`tcp_hdr` and `tcp_option` of `net/tcp.hh` and `net/tcp.cc`: reading a header from
the wire, and the options of a SYN.
-/

namespace Seastar.Net

open Lib

/-- `read_be<uint16_t>(p + i)`. -/
def readBe16 (p : Bytes) (i : Nat) : UInt16 :=
  UInt16.ofNat (beNat [p.getD i 0, p.getD (i + 1) 0])

/-- `read_be<uint32_t>(p + i)`. -/
def readBe32 (p : Bytes) (i : Nat) : UInt32 :=
  UInt32.ofNat (beNat [p.getD i 0, p.getD (i + 1) 0, p.getD (i + 2) 0, p.getD (i + 3) 0])

/-- `write_be<uint16_t>`. -/
def writeBe16 (x : UInt16) : Bytes := [(x >>> 8).toUInt8, x.toUInt8]

/-- `write_be<uint32_t>`. -/
def writeBe32 (x : UInt32) : Bytes :=
  [(x >>> 24).toUInt8, (x >>> 16).toUInt8, (x >>> 8).toUInt8, x.toUInt8]

/-- Follow a pointer: byte `i` of the memory it was given for. -/
def readByte (mem : Bytes) (i : Nat) : Except Fault Byte :=
  match mem[i]? with
  | some b => .ok b
  | none => .error .readPast

namespace Tcp

/-- `tcp_hdr::len`. -/
def tcpHdrLen : Nat := 20

/-- `struct tcp_hdr`. -/
structure TcpHdr where
  srcPort : UInt16 := 0
  dstPort : UInt16 := 0
  seq : TcpSeq := ⟨0⟩
  ack : TcpSeq := ⟨0⟩
  dataOffset : Nat := 0
  fFin : Bool := false
  fSyn : Bool := false
  fRst : Bool := false
  fPsh : Bool := false
  fAck : Bool := false
  fUrg : Bool := false
  window : UInt16 := 0
  checksum : UInt16 := 0
  urgent : UInt16 := 0
  deriving DecidableEq, Repr

/-- `uint8_t(th[12]) >> 4`. -/
def dataOffsetOf (p : Bytes) : Nat := (p.getD 12 0).toNat / 16

/-- `tcp_hdr::read`. -/
def TcpHdr.read (p : Bytes) : TcpHdr where
  srcPort := readBe16 p 0
  dstPort := readBe16 p 2
  seq := ⟨readBe32 p 4⟩
  ack := ⟨readBe32 p 8⟩
  dataOffset := dataOffsetOf p
  fFin := (p.getD 13 0).toNat.testBit 0
  fSyn := (p.getD 13 0).toNat.testBit 1
  fRst := (p.getD 13 0).toNat.testBit 2
  fPsh := (p.getD 13 0).toNat.testBit 3
  fAck := (p.getD 13 0).toNat.testBit 4
  fUrg := (p.getD 13 0).toNat.testBit 5
  window := readBe16 p 14
  checksum := readBe16 p 16
  urgent := readBe16 p 18

/-- `struct tcp_option`. `_local_mss` has no initializer in the source. -/
structure TcpOption where
  mssReceived : Bool := false
  winScaleReceived : Bool := false
  timestampsReceived : Bool := false
  sackReceived : Bool := false
  remoteMss : UInt16 := 536
  localMss : UInt16 := 0
  remoteWinScale : UInt8 := 0
  localWinScale : UInt8 := 0
  deriving DecidableEq, Repr

namespace TcpOption

/-- The kinds of `option_kind` that `parse` tells apart. -/
inductive Kind
  | eol | nop | mss | winScale | sack | other
  deriving DecidableEq, Repr

def Kind.ofByte (b : Byte) : Kind :=
  if b = 0 then .eol else if b = 1 then .nop else if b = 2 then .mss
  else if b = 3 then .winScale else if b = 4 then .sack else .other

/-- The loop of `tcp_option::parse`, at position `i` of the option area. `mem` is the
contiguous memory from `opt_start` on and `optLen` the length of the area. Each
turn moves on by at least one byte, so `fuel` is the length of the area. -/
def parseLoop (mem : Bytes) (optLen : Nat) : Nat → Nat → TcpOption → Except Fault TcpOption
  | 0, _, o => .ok o
  | fuel + 1, i, o =>
    if i < optLen then do
      let kind := Kind.ofByte (← readByte mem i)
      match kind with
      | .eol => .ok o
      | .nop => parseLoop mem optLen fuel (i + 1) o
      | _ =>
        -- make sure there is enough room for this option
        let len := (← readByte mem (i + 1)).toNat
        if i + len > optLen then .ok o
        else
          match kind with
          | .mss => do
            let hi ← readByte mem (i + 2)
            let lo ← readByte mem (i + 3)
            parseLoop mem optLen fuel (i + 4)
              { o with mssReceived := true, remoteMss := UInt16.ofNat (beNat [hi, lo]) }
          | .winScale => do
            let shift ← readByte mem (i + 2)
            parseLoop mem optLen fuel (i + 3)
              { o with winScaleReceived := true, remoteWinScale := shift, localWinScale := 7 }
          | .sack => parseLoop mem optLen fuel (i + 2) { o with sackReceived := true }
          | _ => if len = 0 then .ok o else parseLoop mem optLen fuel (i + len) o
    else .ok o

/-- `tcp_option::parse`. -/
def parse (o : TcpOption) (mem : Bytes) (optLen : Nat) : Except Fault TcpOption :=
  parseLoop mem optLen optLen 0 o

/-- `align_up(size, tcp_option::align)`. -/
def alignUp4 (n : Nat) : Nat := (n + 3) / 4 * 4

/-- `tcp_option::get_size`. -/
def getSize (o : TcpOption) (synOn ackOn : Bool) : Nat :=
  let size :=
    if synOn then
      (if o.mssReceived || !ackOn then 4 else 0) + (if o.winScaleReceived || !ackOn then 3 else 0)
    else 0
  if size > 0 then alignUp4 (size + 1) else 0

/-- The options `tcp_option::fill` writes before padding. -/
def fillRaw (o : TcpOption) (synOn ackOn : Bool) : Bytes :=
  if synOn then
    (if o.mssReceived || !ackOn then [2, 4] ++ writeBe16 o.localMss else []) ++
      (if o.winScaleReceived || !ackOn then [3, 3, o.localWinScale] else [])
  else []

/-- `tcp_option::fill`: the options, padded by NOPs to an EOL at a multiple of four,
with its `assert(size == options_size)`. -/
def fill (o : TcpOption) (synOn ackOn : Bool) (optionsSize : Nat) : Except Fault Bytes :=
  let raw := fillRaw o synOn ackOn
  let out :=
    if raw.length > 0 then
      raw ++ List.replicate (alignUp4 (raw.length + 1) - 1 - raw.length) 1 ++ [0]
    else []
  if out.length = optionsSize then .ok out else .error .assertFailed

/-- Parsing can only fail by reading past the memory of the pointer. -/
theorem parseLoop_error {mem : Bytes} {optLen fuel i : Nat} {o : TcpOption} {f : Fault}
    (h : parseLoop mem optLen fuel i o = .error f) : f = .readPast := by
  have hread : ∀ {j : Nat}, readByte mem j = .error f → f = .readPast := by
    intro j h
    unfold readByte at h
    split at h
    · cases h
    · exact (Except.error.inj h).symm
  induction fuel generalizing i o with
  | zero => cases h
  | succ fuel ih =>
    rw [parseLoop] at h
    split at h
    · rcases bind_error.mp h with h | ⟨b, -, h⟩
      · exact hread h
      simp only at h
      split at h
      · cases h
      · exact ih h
      · rcases bind_error.mp h with h | ⟨c, -, h⟩
        · exact hread h
        split at h
        · cases h
        split at h
        · rcases bind_error.mp h with h | ⟨_, -, h⟩
          · exact hread h
          rcases bind_error.mp h with h | ⟨_, -, h⟩
          · exact hread h
          · exact ih h
        · rcases bind_error.mp h with h | ⟨_, -, h⟩
          · exact hread h
          · exact ih h
        · exact ih h
        · split at h
          · cases h
          · exact ih h
    · cases h

theorem length_fillRaw (o : TcpOption) (synOn ackOn : Bool) :
    (fillRaw o synOn ackOn).length =
      if synOn then
        (if o.mssReceived || !ackOn then 4 else 0) + (if o.winScaleReceived || !ackOn then 3 else 0)
      else 0 := by
  cases synOn <;> cases hm : (o.mssReceived || !ackOn) <;> cases hw : (o.winScaleReceived || !ackOn) <;>
    simp [fillRaw, hm, hw, writeBe16]

/-- The assertion in `fill` holds for the size `get_size` computes. -/
theorem fill_getSize (o : TcpOption) (synOn ackOn : Bool) :
    ∃ bs, o.fill synOn ackOn (o.getSize synOn ackOn) = .ok bs := by
  have hl := length_fillRaw o synOn ackOn
  refine ⟨_, if_pos ?_⟩
  simp only [getSize, ← hl, alignUp4]
  split
  · simp only [List.length_append, List.length_replicate, List.length_cons, List.length_nil]
    omega
  · rfl

end TcpOption

end Tcp

end Seastar.Net
