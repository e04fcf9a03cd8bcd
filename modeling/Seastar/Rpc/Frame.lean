import Mathlib.Data.List.Forall2
import Mathlib.Data.List.TakeWhile
import Seastar.IO.InputStream
import Seastar.Rpc.Compressor

/-!
The frames of `rpc/rpc.cc` once a connection is negotiated: requests, responses and stream
frames, each of them a header with the length of the payload and the payload. The sender
marshalls a message into a send buffer; `read_frame` puts it together from the buffers the
input stream delivers.
-/

namespace Seastar.Rpc

open Lib

/-- What `read_frame` returns: fields of the header, and the data unless the stream has ended. -/
inductive Received
  | request (expire : Option UInt64) (type : UInt64) (msgId : Int64) (data : Option RcvBuf)
  | response (msgId : Int64) (data : Option RcvBuf)
  | stream (data : Option RcvBuf)
  deriving DecidableEq

/-- A frame type, as `read_frame` is instantiated with it. -/
structure FrameType where
  Header : Type
  headerSize : Nat
  role : String
  emptyValue : Received
  decodeHeader : Bytes → Except Fault Header
  getSize : Header → UInt32
  makeValue : Header → RcvBuf → Received

/-! ## The frame types -/

/-- The header of a request. -/
structure RequestHeader where
  expire : Option UInt64
  type : UInt64
  msgId : Int64
  size : UInt32

/-- `request_frame::decode_header`, at a position of the buffer. -/
def decodeRequest (ptr : Bytes) (pos : Nat) : Except Fault RequestHeader := do
  let type ← readLe64 ptr pos
  let msgId ← readLeInt64 ptr (pos + 8)
  let size ← readLe32 ptr (pos + 16)
  .ok ⟨none, type, msgId, size⟩

/-- `request_frame`. -/
def requestFrame : FrameType where
  Header := RequestHeader
  headerSize := 20
  role := "server"
  emptyValue := .request none 0 0 none
  decodeHeader ptr := decodeRequest ptr 0
  getSize h := h.size
  makeValue h data := .request h.expire h.type h.msgId (some data)

/-- `request_frame_with_timeout`. -/
def requestFrameWithTimeout : FrameType where
  Header := RequestHeader
  headerSize := 28
  role := requestFrame.role
  emptyValue := requestFrame.emptyValue
  decodeHeader ptr := do
    let h ← decodeRequest ptr 8
    let expire ← readLe64 ptr 0
    .ok { h with expire := some expire }
  getSize h := requestFrame.getSize h
  makeValue h data := requestFrame.makeValue h data

/-- The header of a response. -/
structure ResponseHeader where
  msgId : Int64
  size : UInt32

/-- `response_frame`. -/
def responseFrame : FrameType where
  Header := ResponseHeader
  headerSize := 12
  role := "client"
  emptyValue := .response 0 none
  decodeHeader ptr := do
    let msgId ← readLeInt64 ptr 0
    let size ← readLe32 ptr 8
    .ok ⟨msgId, size⟩
  getSize h := h.size
  makeValue h data := .response h.msgId (some data)

/-- The header of a stream frame. -/
structure StreamHeader where
  size : UInt32
  eos : Bool

/-- `-1U`, the size that stands for the end of a stream. -/
def eosSize : UInt32 := 0xffffffff

/-- `stream_frame`. -/
def streamFrame : FrameType where
  Header := StreamHeader
  headerSize := 4
  role := "stream"
  emptyValue := .stream none
  decodeHeader ptr := do
    let size ← readLe32 ptr 0
    .ok (if size = eosSize then ⟨0, true⟩ else ⟨size, false⟩)
  getSize h := h.size
  makeValue h data := .stream (some (if h.eos then { data with size := eosSize } else data))

/-! ## The receiver -/

/-- The loop of `read_rcv_buf`. -/
def readMore (size : UInt32) (left : Nat) (v : List Bytes) (s : InputStream UInt8) :
    RcvBuf × InputStream UInt8 :=
  let (data, s) := s.readUpTo left
  if data.length = 0 then (⟨size - UInt32.ofNat left, .fragments v⟩, s)
  else if left - data.length = 0 then (⟨size, .fragments (v ++ [data])⟩, s)
  else readMore size (left - data.length) (v ++ [data]) s
termination_by left
decreasing_by omega

/-- `read_rcv_buf`. -/
def readRcvBuf (s : InputStream UInt8) (size : UInt32) : RcvBuf × InputStream UInt8 :=
  let (data, s) := s.readUpTo size.toNat
  if data.length = 0 then ({}, s)
  else if data.length = size.toNat then (⟨size, .one data⟩, s)
  else readMore size (size.toNat - data.length) [data] s

/-- `read_frame`: the value, what is written in the log, and the stream behind the frame. -/
def readFrame (F : FrameType) (s : InputStream UInt8) :
    Except Fault (Received × Option String × InputStream UInt8) :=
  let (header, s) := s.readExactly F.headerSize
  if header.length ≠ F.headerSize then
    .ok (F.emptyValue, if header.length ≠ 0 then
      some s!"unexpected eof on a {F.role} while reading header: expected {F.headerSize} got {header.length}"
      else none, s)
  else do
    let h ← F.decodeHeader header
    let size := F.getSize h
    if size = 0 then .ok (F.makeValue h {}, none, s)
    else
      let (rb, s) := readRcvBuf s size
      if rb.size ≠ size then
        .ok (F.emptyValue,
          some s!"unexpected eof on a {F.role} while reading data: expected {size} got {rb.size}", s)
      else .ok (F.makeValue h rb, none, s)

/-- `as_input_stream` over a packet of the buffers; an empty one is the end of the stream. -/
def asInputStream (bufs : List Bytes) : InputStream UInt8 where
  fd := ⟨bufs.takeWhile (· ≠ []), fun c hc => by simpa using List.mem_takeWhile_imp hc⟩

/-- `read_frame_compressed`. -/
def readFrameCompressed (F : FrameType) (compressor : Option Compressor)
    (s : InputStream UInt8) : Except Fault (Received × Option String × InputStream UInt8) :=
  match compressor with
  | none => readFrame F s
  | some c =>
    let (compressHeader, s) := s.readExactly 4
    if compressHeader.length ≠ 4 then
      .ok (F.emptyValue, if compressHeader.length ≠ 0 then
        some s!"unexpected eof on a {F.role} while reading compression header: expected 4 got {compressHeader.length}"
        else none, s)
    else do
      let size ← readLe32 compressHeader 0
      let (compressedData, s) := readRcvBuf s size
      if compressedData.size ≠ size then
        .ok (F.emptyValue,
          some s!"unexpected eof on a {F.role} while reading compressed data: expected {size} got {compressedData.size}", s)
      else do
        let eb ← c.decompress compressedData
        let (value, log, _) ← readFrame F (asInputStream eb.bufs.toList)
        .ok (value, log, s)

/-! ## The sender -/

/-- `send_helper::send`: the arguments of a call behind its type and message id, with room for
the time that is left. -/
def requestBuf (type : UInt64) (msgId : Int64) (args : List Bytes) : Except Fault SndBuf := do
  let data ← marshall 28 args
  let data ← data.writeFront 8 (le64 type)
  let data ← data.writeFront 16 (le64 msgId.toUInt64)
  data.writeFront 24 (le32 (data.size - 28))

/-- What `send_loop` does to a request: it writes the time that is left, or cuts its field off. -/
def stampRequest (timeoutNegotiated : Bool) (left : UInt64) (d : SndBuf) : Except Fault SndBuf :=
  if timeoutNegotiated then d.writeFront 0 (le64 left) else d.trimFront 8

/-- `server::connection::respond`, with the buffer `reply` marshalls for it. -/
def respond (msgId : Int64) (args : List Bytes) : Except Fault SndBuf := do
  let data ← marshall 12 args
  let data ← data.writeFront 0 (le64 msgId.toUInt64)
  data.writeFront 8 (le32 (data.size - 12))

/-- `sink_impl::operator()`. -/
def sinkData (args : List Bytes) : Except Fault SndBuf := do
  let data ← marshall 4 args
  data.writeFront 0 (le32 (data.size - 4))

/-- `sink_impl::close`. -/
def sinkClose : Except Fault SndBuf := do
  let data ← marshall 4 []
  data.writeFront 0 (le32 eosSize)

/-- The end of a connection that a frame is read by. -/
inductive Role
  | server
  | client
  | stream
  deriving DecidableEq

/-- A message that is given to a connection. The arguments are the writes of the serializer. -/
inductive Message
  | request (left : UInt64) (type : UInt64) (msgId : Int64) (args : List Bytes)
  | response (msgId : Int64) (args : List Bytes)
  | data (args : List Bytes)
  | endOfStream

/-- What the two ends of a connection have negotiated. -/
structure Link where
  timeoutNegotiated : Bool
  compressor : Option Compressor

namespace Link

/-- The frame of a message. -/
def frame (l : Link) : Message → Except Fault SndBuf
  | .request left type msgId args => do
    let d ← requestBuf type msgId args
    stampRequest l.timeoutNegotiated left d
  | .response msgId args => respond msgId args
  | .data args => sinkData args
  | .endOfStream => sinkClose

/-- `connection::compress`. -/
def compress (l : Link) (buf : SndBuf) : Except Fault SndBuf :=
  match l.compressor with
  | none => .ok buf
  | some c => do
    let buf ← c.compress 4 buf
    buf.writeFront 0 (le32 (buf.size - 4))

/-- What goes to the connection for a message. -/
def send (l : Link) (m : Message) : Except Fault SndBuf := do
  let buf ← l.frame m
  l.compress buf

/-- The frame type of `read_request_frame_compressed`, `read_response_frame_compressed` and
`read_stream_frame_compressed`. -/
def frameType (l : Link) : Role → FrameType
  | .server => if l.timeoutNegotiated then requestFrameWithTimeout else requestFrame
  | .client => responseFrame
  | .stream => streamFrame

/-- A frame is read at one end. -/
def receive (l : Link) (r : Role) (s : InputStream UInt8) :
    Except Fault (Received × Option String × InputStream UInt8) :=
  readFrameCompressed (l.frameType r) l.compressor s

/-- Frames are read one after the other. -/
def receiveMany (l : Link) (r : Role) :
    Nat → InputStream UInt8 → Except Fault (List Received × InputStream UInt8)
  | 0, s => .ok ([], s)
  | n + 1, s => do
    let (v, _, s) ← l.receive r s
    let (vs, s) ← l.receiveMany r n s
    .ok (v :: vs, s)

end Link

/-! ## Reading a frame -/

variable {F : FrameType} {s : InputStream UInt8}

/-- A buffer that has `v` already is filled up with `left` bytes of the stream, or it falls short
of its size. -/
def Fills (size : UInt32) (v : Bytes) (left : Nat) (rest : Bytes)
    (r : RcvBuf × InputStream UInt8) : Prop :=
  r.2.EofAtEnd ∧
    if left ≤ rest.length then
      r.1.size = size ∧ r.1.bufs.bytes = v ++ rest.take left ∧ r.2.remaining = rest.drop left
    else r.1.size ≠ size

/-- What has been read counts to what the buffer has. -/
theorem Fills.of_read {size : UInt32} {v data rest : Bytes} {left : Nat}
    {r : RcvBuf × InputStream UInt8} (hd : data.length ≤ left)
    (h : Fills size (v ++ data) (left - data.length) rest r) :
    Fills size v left (data ++ rest) r := by
  obtain ⟨heof, h⟩ := h
  refine ⟨heof, ?_⟩
  by_cases hfull : left - data.length ≤ rest.length
  · rw [if_pos hfull] at h
    rw [if_pos (by rw [List.length_append]; omega)]
    obtain ⟨hsize, hbytes, hrem⟩ := h
    refine ⟨hsize, ?_, ?_⟩
    · rw [hbytes, List.take_append, List.take_of_length_le hd, List.append_assoc]
    · rw [hrem, List.drop_append, List.drop_eq_nil_of_le hd, List.nil_append]
  · rw [if_neg hfull] at h
    rw [if_neg (by rw [List.length_append]; omega)]
    exact h

/-- The loop takes the bytes that are left, or what there is of them. -/
theorem readMore_fills {size : UInt32} {left : Nat} {v : List Bytes} (he : s.EofAtEnd)
    (hleft : 0 < left) (hsize : left ≤ size.toNat) :
    Fills size v.flatten left s.remaining (readMore size left v s) := by
  induction hn : left using Nat.strongRecOn generalizing left v s with
  | ind n ih =>
  subst hn
  obtain ⟨happ, hlen, hnil, heof⟩ := s.readUpTo_eq left he
  rw [readMore]
  generalize s.readUpTo left = r at *
  obtain ⟨data, t⟩ := r
  dsimp only at *
  by_cases hdata : data.length = 0
  · obtain rfl := List.eq_nil_of_length_eq_zero hdata
    have hrem : s.remaining = [] := (hnil rfl).resolve_left (by omega)
    rw [if_pos hdata, hrem]
    refine ⟨heof, ?_⟩
    rw [if_neg (by rw [List.length_nil]; omega)]
    intro h
    have h := congrArg UInt32.toNat h
    have hlt := size.toNat_lt
    have hleft' : (UInt32.ofNat left).toNat = left := by
      rw [UInt32.toNat_ofNat', Nat.mod_eq_of_lt (by omega)]
    rw [UInt32.toNat_sub_of_le _ _ (by rw [UInt32.le_iff_toNat_le, hleft']; exact hsize),
      hleft'] at h
    omega
  rw [if_neg hdata, ← happ]
  by_cases hall : left - data.length = 0
  · rw [if_pos hall]
    apply Fills.of_read hlen
    rw [hall]
    refine ⟨heof, ?_⟩
    simp
  · rw [if_neg hall]
    apply Fills.of_read hlen
    have hmore := ih (left - data.length) (by omega) (v := v ++ [data]) heof
      (by omega) (by omega) rfl
    rwa [List.flatten_append, List.flatten_singleton] at hmore

/-- `read_rcv_buf` takes a payload, or falls short of its size. -/
theorem readRcvBuf_fills (size : UInt32) (he : s.EofAtEnd) :
    Fills size [] size.toNat s.remaining (readRcvBuf s size) := by
  obtain ⟨happ, hlen, hnil, heof⟩ := s.readUpTo_eq size.toNat he
  unfold readRcvBuf
  generalize s.readUpTo size.toNat = r at *
  obtain ⟨data, t⟩ := r
  dsimp only at *
  by_cases hdata : data.length = 0
  · obtain rfl := List.eq_nil_of_length_eq_zero hdata
    rw [if_pos hdata, ← happ]
    refine ⟨heof, ?_⟩
    by_cases h0 : size.toNat = 0
    · rw [if_pos (by omega), h0]
      obtain rfl : size = 0 := UInt32.toNat_inj.mp h0
      exact ⟨rfl, rfl, rfl⟩
    · have hrem : s.remaining = [] := (hnil rfl).resolve_left h0
      rw [if_neg (by rw [happ, hrem, List.length_nil]; omega)]
      exact fun h => h0 (by rw [← h]; rfl)
  rw [if_neg hdata, ← happ]
  apply Fills.of_read hlen
  by_cases hall : data.length = size.toNat
  · rw [if_pos hall, hall, Nat.sub_self]
    refine ⟨heof, ?_⟩
    simp
  · rw [if_neg hall]
    have hmore := readMore_fills (v := [data]) heof
      (show 0 < size.toNat - data.length by omega) (Nat.sub_le _ _)
    rwa [List.flatten_singleton] at hmore

/-- The bytes are a frame: a header and as much payload as it says. -/
structure IsFrame (F : FrameType) (h : F.Header) (payload bs : Bytes) : Prop where
  header : ∃ hdr, bs = hdr ++ payload ∧ hdr.length = F.headerSize ∧ F.decodeHeader hdr = .ok h
  size : (F.getSize h).toNat = payload.length

/-- A frame at the front of the stream is read, and nothing behind it. -/
theorem readFrame_value {h : F.Header} {payload bs rest : Bytes} (hb : IsFrame F h payload bs)
    (he : s.EofAtEnd) (hs : s.remaining = bs ++ rest) :
    ∃ rb t, readFrame F s = .ok (F.makeValue h rb, none, t) ∧ rb.size = F.getSize h ∧
      rb.bufs.bytes = payload ∧ t.remaining = rest ∧ t.EofAtEnd := by
  obtain ⟨⟨hdr, rfl, hlen, hdecode⟩, hsize⟩ := hb
  obtain ⟨hhead, heof⟩ := InputStream.readExactly_eq F.headerSize he
  rw [hs, ← hlen, List.append_assoc, InputStream.exactly_append, hlen] at hhead
  unfold readFrame
  generalize s.readExactly F.headerSize = r at *
  obtain ⟨header, t⟩ := r
  obtain ⟨rfl, ht⟩ := Prod.mk.inj hhead
  dsimp only at *
  rw [if_neg (fun hne => hne hlen), hdecode, ok_bind]
  by_cases h0 : F.getSize h = 0
  · rw [h0] at hsize
    obtain rfl := List.eq_nil_of_length_eq_zero hsize.symm
    rw [if_pos h0]
    exact ⟨_, _, rfl, h0.symm, rfl, ht, heof⟩
  · rw [if_neg h0]
    obtain ⟨heof', hfill⟩ := readRcvBuf_fills (F.getSize h) heof
    rw [ht, hsize, if_pos (by rw [List.length_append]; omega), List.take_left,
      List.drop_left] at hfill
    obtain ⟨hrb, hbytes, hrem⟩ := hfill
    rw [if_neg (fun hne => hne hrb)]
    exact ⟨_, _, rfl, hrb, hbytes, hrem, heof'⟩

/-- A stream that ends inside of a frame gives the empty value. -/
theorem readFrame_short {h : F.Header} {payload bs : Bytes} (hb : IsFrame F h payload bs)
    (he : s.EofAtEnd) (hs : s.remaining <+: bs) (hne : s.remaining ≠ bs) :
    ∃ log t, readFrame F s = .ok (F.emptyValue, log, t) := by
  obtain ⟨⟨hdr, rfl, hlen, hdecode⟩, hsize⟩ := hb
  obtain ⟨hhead, heof⟩ := InputStream.readExactly_eq F.headerSize he
  have hshort : s.remaining.length < (hdr ++ payload).length := by
    apply Nat.lt_of_le_of_ne hs.length_le
    exact fun hl => hne (hs.eq_of_length hl)
  rw [List.length_append] at hshort
  unfold readFrame
  generalize s.readExactly F.headerSize = r at *
  obtain ⟨header, t⟩ := r
  dsimp only at *
  by_cases hcut : F.headerSize ≤ s.remaining.length
  · obtain ⟨rest, hrest⟩ := List.prefix_of_prefix_length_le ⟨payload, rfl⟩ hs (hlen ▸ hcut)
    rw [← hrest, ← hlen, InputStream.exactly_append] at hhead
    obtain ⟨rfl, ht⟩ := Prod.mk.inj hhead
    rw [← hrest, List.length_append] at hshort
    rw [if_neg (fun hne => hne hlen), hdecode, ok_bind]
    by_cases h0 : F.getSize h = 0
    · rw [h0] at hsize
      have hsize : 0 = payload.length := hsize
      omega
    · rw [if_neg h0]
      obtain ⟨heof', hfill⟩ := readRcvBuf_fills (F.getSize h) heof
      rw [ht, if_neg (by omega)] at hfill
      rw [if_pos hfill]
      exact ⟨_, _, rfl⟩
  · rw [InputStream.exactly, if_neg hcut] at hhead
    obtain ⟨rfl, -⟩ := Prod.mk.inj hhead
    rw [if_pos (fun h => hcut (by rw [← h]; exact Nat.zero_le _))]
    exact ⟨_, _, rfl⟩

/-! ## What the sender frames -/

namespace Message

/-- The end the message is for. -/
def role : Message → Role
  | request .. => .server
  | response .. => .client
  | data .. => .stream
  | endOfStream => .stream

/-- The bytes of the arguments. -/
def payload : Message → Bytes
  | request _ _ _ args => args.flatten
  | response _ args => args.flatten
  | data args => args.flatten
  | endOfStream => []

/-- The room `marshall` leaves in front of the arguments. -/
def headSpace : Message → Nat
  | request .. => 28
  | response .. => 12
  | data .. => 4
  | endOfStream => 4

/-- The size fits a `uint32_t`. -/
def Fits (m : Message) : Prop := m.headSpace + m.payload.length < 2 ^ 32

/-- What the message is received as, with its payload in `rb`. -/
def value (l : Link) (rb : RcvBuf) : Message → Received
  | request left type msgId _ =>
    .request (if l.timeoutNegotiated then some left else none) type msgId (some rb)
  | response msgId _ => .response msgId (some rb)
  | data _ => .stream (some rb)
  | endOfStream => .stream (some rb)

/-- The size of the receive buffer. -/
def size : Message → UInt32
  | endOfStream => eosSize
  | m => UInt32.ofNat m.payload.length

/-- The message is received: the fields of its header and its payload. -/
def Delivered (l : Link) (m : Message) (v : Received) : Prop :=
  ∃ rb, v = m.value l rb ∧ rb.size = m.size ∧ rb.bufs.bytes = m.payload

end Message

theorem decodeRequest_eq (pre : Bytes) (type : UInt64) (msgId : Int64) (n : UInt32) :
    decodeRequest (pre ++ (le64 type ++ le64 msgId.toUInt64 ++ le32 n)) pre.length =
      .ok ⟨none, type, msgId, n⟩ := by
  have htype := readLe64_append pre type (le64 msgId.toUInt64 ++ le32 n)
  have hid := readLeInt64_append (pre ++ le64 type) msgId (le32 n)
  have hsize := readLe32_append (pre ++ le64 type ++ le64 msgId.toUInt64) n []
  simp only [List.length_append, length_le64, List.append_assoc, List.append_nil,
    Nat.reduceAdd] at htype hid hsize
  simp only [decodeRequest, List.append_assoc]
  rw [htype, ok_bind, hid, ok_bind, hsize, ok_bind]

/-- The buffer of a request has the header with the room for the time in front of it. -/
theorem requestBuf_headed (type : UInt64) (msgId : Int64) {args : List Bytes}
    (h : 28 + args.flatten.length < 2 ^ 32) : ∃ b, requestBuf type msgId args = .ok b ∧
      b.Headed (List.replicate 8 0 ++ (le64 type ++ le64 msgId.toUInt64 ++
        le32 (UInt32.ofNat args.flatten.length))) args.flatten := by
  obtain ⟨b, hb, hh⟩ := marshall_eq (by decide) h
  have hn := hh.size_sub (n := 28) rfl
  have hsplit : (List.replicate 28 0 : Bytes) =
      List.replicate 8 0 ++ List.replicate 8 0 ++ (List.replicate 8 0 ++ List.replicate 4 0) := rfl
  rw [hsplit] at hh
  obtain ⟨b₁, hb₁, hh₁, hsize₁⟩ := hh.writeFront _ (le64 type) _ (length_le64 _)
  rw [← List.append_assoc] at hh₁
  obtain ⟨b₂, hb₂, hh₂, hsize₂⟩ := hh₁.writeFront _ (le64 msgId.toUInt64) _ (length_le64 _)
  rw [← List.append_nil (_ ++ List.replicate 4 0)] at hh₂
  obtain ⟨b₃, hb₃, hh₃, -⟩ := hh₂.writeFront _ (le32 (b₂.size - 28)) _ (length_le32 _)
  refine ⟨b₃, ?_, ?_⟩
  · rw [requestBuf, hb, ok_bind]
    refine bind_ok.mpr ⟨b₁, hb₁, bind_ok.mpr ⟨b₂, ?_, ?_⟩⟩
    · rw [← hb₂]
      simp
    · rw [← hb₃]
      simp
  · rw [hsize₂, hsize₁, hn] at hh₃
    simpa only [List.append_assoc, List.append_nil] using hh₃

/-- The time that is left is written in front, or its room is cut off. -/
theorem stampRequest_headed {b : SndBuf} {head payload : Bytes}
    (h : b.Headed (List.replicate 8 0 ++ head) payload) (timeoutNegotiated : Bool)
    (left : UInt64) : ∃ b', stampRequest timeoutNegotiated left b = .ok b' ∧
      b'.Headed ((if timeoutNegotiated then le64 left else []) ++ head) payload := by
  cases timeoutNegotiated with
  | false => exact h.trimFront (List.replicate 8 0) (by decide)
  | true =>
    have h : b.Headed ([] ++ List.replicate 8 0 ++ head) payload := h
    obtain ⟨b', hb', hh, -⟩ := h.writeFront _ (le64 left) _ (length_le64 _)
    exact ⟨b', hb', hh⟩

theorem respond_headed (msgId : Int64) {args : List Bytes}
    (h : 12 + args.flatten.length < 2 ^ 32) : ∃ b, respond msgId args = .ok b ∧
      b.Headed (le64 msgId.toUInt64 ++ le32 (UInt32.ofNat args.flatten.length)) args.flatten := by
  obtain ⟨b, hb, hh⟩ := marshall_eq (by decide) h
  have hn := hh.size_sub (n := 12) rfl
  have hsplit : (List.replicate 12 0 : Bytes) =
      [] ++ List.replicate 8 0 ++ List.replicate 4 0 := rfl
  rw [hsplit] at hh
  obtain ⟨b₁, hb₁, hh₁, hsize₁⟩ := hh.writeFront _ (le64 msgId.toUInt64) _ (length_le64 _)
  rw [List.nil_append, ← List.append_nil (_ ++ List.replicate 4 0)] at hh₁
  obtain ⟨b₂, hb₂, hh₂, -⟩ := hh₁.writeFront _ (le32 (b₁.size - 12)) _ (length_le32 _)
  refine ⟨b₂, ?_, ?_⟩
  · rw [respond, hb, ok_bind]
    refine bind_ok.mpr ⟨b₁, hb₁, ?_⟩
    rw [← hb₂]
    simp
  · rwa [hsize₁, hn, List.append_nil] at hh₂

/-- A stream frame is marshalled behind room for its size. -/
theorem marshall_sized (args : List Bytes) (h : 4 + args.flatten.length < 2 ^ 32) :
    ∃ b, marshall 4 args = .ok b ∧ b.size - 4 = UInt32.ofNat args.flatten.length ∧
      ∀ n, ∃ b', b.writeFront 0 (le32 n) = .ok b' ∧ b'.Headed (le32 n) args.flatten := by
  obtain ⟨b, hb, hh⟩ := marshall_eq (by decide) h
  refine ⟨b, hb, hh.size_sub rfl, fun n => ?_⟩
  have hsplit : (List.replicate 4 0 : Bytes) = [] ++ List.replicate 4 0 ++ [] := rfl
  rw [hsplit] at hh
  obtain ⟨b', hb', hh', -⟩ := hh.writeFront _ (le32 n) _ (length_le32 _)
  rw [List.nil_append, List.append_nil] at hh'
  exact ⟨b', hb', hh'⟩

/-- The bytes of a send buffer as a frame. -/
theorem SndBuf.Headed.isFrame {b : SndBuf} {head payload : Bytes} (hb : b.Headed head payload)
    {h : F.Header} (hlen : head.length = F.headerSize) (hdecode : F.decodeHeader head = .ok h)
    (hsize : (F.getSize h).toNat = payload.length) : IsFrame F h payload b.bytes :=
  ⟨⟨head, hb.bytes, hlen, hdecode⟩, hsize⟩

/-- A buffer that is a frame of the message. -/
structure FrameOf (l : Link) (m : Message) (b : SndBuf) : Prop where
  frame : ∃ h, IsFrame (l.frameType m.role) h m.payload b.bytes ∧
    ∀ rb : RcvBuf, rb.size = (l.frameType m.role).getSize h → rb.bufs.bytes = m.payload →
      m.Delivered l ((l.frameType m.role).makeValue h rb)
  size : b.size.toNat = b.bytes.length
  nonempty : b.bytes ≠ []

theorem Link.headerSize_pos (l : Link) (r : Role) : 0 < (l.frameType r).headerSize := by
  obtain ⟨timeoutNegotiated, compressor⟩ := l
  cases r with
  | server => cases timeoutNegotiated <;> exact Nat.succ_pos _
  | client => exact Nat.succ_pos _
  | stream => exact Nat.succ_pos _

theorem SndBuf.Headed.frameOf {l : Link} {m : Message} {b : SndBuf} {head : Bytes}
    (hb : b.Headed head m.payload) {h : (l.frameType m.role).Header}
    (hlen : head.length = (l.frameType m.role).headerSize)
    (hdecode : (l.frameType m.role).decodeHeader head = .ok h)
    (hsize : ((l.frameType m.role).getSize h).toNat = m.payload.length)
    (hvalue : ∀ rb : RcvBuf, rb.size = (l.frameType m.role).getSize h →
      rb.bufs.bytes = m.payload → m.Delivered l ((l.frameType m.role).makeValue h rb)) :
    FrameOf l m b := by
  refine ⟨⟨h, hb.isFrame hlen hdecode hsize, hvalue⟩, ?_, ?_⟩
  · rw [hb.size, hb.bytes, List.length_append]
  · apply List.ne_nil_of_length_pos
    have hpos := l.headerSize_pos m.role
    rw [hb.bytes, List.length_append]
    omega

/-- A message that fits 32 bits is framed. -/
theorem Link.frame_ok (l : Link) {m : Message} (h : m.Fits) :
    ∃ b, l.frame m = .ok b ∧ FrameOf l m b := by
  have hlen : (UInt32.ofNat m.payload.length).toNat = m.payload.length := by
    rw [UInt32.toNat_ofNat', Nat.mod_eq_of_lt (Nat.lt_of_le_of_lt (Nat.le_add_left _ _) h)]
  cases m with
  | request left type msgId args =>
    obtain ⟨b, hb, hh⟩ := requestBuf_headed type msgId h
    obtain ⟨b', hb', hh'⟩ := stampRequest_headed hh l.timeoutNegotiated left
    refine ⟨b', bind_ok.mpr ⟨b, hb, hb'⟩, ?_⟩
    obtain ⟨timeoutNegotiated, compressor⟩ := l
    cases timeoutNegotiated with
    | false =>
      have hdecode := decodeRequest_eq [] type msgId (UInt32.ofNat args.flatten.length)
      exact hh'.frameOf (h := ⟨none, type, msgId, _⟩) rfl hdecode hlen
        (fun rb hsize hbytes => ⟨rb, rfl, hsize, hbytes⟩)
    | true =>
      have hdecode : requestFrameWithTimeout.decodeHeader (le64 left ++ (le64 type ++
          le64 msgId.toUInt64 ++ le32 (UInt32.ofNat args.flatten.length))) =
            .ok (⟨some left, type, msgId, UInt32.ofNat args.flatten.length⟩ : RequestHeader) := by
        have hreq := decodeRequest_eq (le64 left) type msgId (UInt32.ofNat args.flatten.length)
        have hleft := readLe64_append [] left (le64 type ++ le64 msgId.toUInt64 ++
          le32 (UInt32.ofNat args.flatten.length))
        rw [length_le64] at hreq
        refine bind_ok.mpr ⟨_, hreq, bind_ok.mpr ⟨left, hleft, rfl⟩⟩
      exact hh'.frameOf (h := (⟨some left, type, msgId, _⟩ : RequestHeader)) rfl hdecode hlen
        (fun rb hsize hbytes => ⟨rb, rfl, hsize, hbytes⟩)
  | response msgId args =>
    obtain ⟨b, hb, hh⟩ := respond_headed msgId h
    have hdecode : responseFrame.decodeHeader
        (le64 msgId.toUInt64 ++ le32 (UInt32.ofNat args.flatten.length)) =
          .ok (⟨msgId, UInt32.ofNat args.flatten.length⟩ : ResponseHeader) := by
      have hid := readLeInt64_append [] msgId (le32 (UInt32.ofNat args.flatten.length))
      have hsize := readLe32_append (le64 msgId.toUInt64) (UInt32.ofNat args.flatten.length) []
      rw [length_le64, List.append_nil] at hsize
      exact bind_ok.mpr ⟨msgId, hid, bind_ok.mpr ⟨_, hsize, rfl⟩⟩
    exact ⟨b, hb, hh.frameOf (h := (⟨msgId, _⟩ : ResponseHeader)) rfl hdecode hlen
      (fun rb hsize hbytes => ⟨rb, rfl, hsize, hbytes⟩)⟩
  | data args =>
    have hfits : 4 + args.flatten.length < 2 ^ 32 := h
    obtain ⟨b, hb, hsize, hwrite⟩ := marshall_sized args hfits
    obtain ⟨b', hb', hh⟩ := hwrite (UInt32.ofNat args.flatten.length)
    have hne : UInt32.ofNat args.flatten.length ≠ eosSize := by
      intro heos
      have hlen : (UInt32.ofNat args.flatten.length).toNat = args.flatten.length := hlen
      rw [heos] at hlen
      have heos : eosSize.toNat = 4294967295 := rfl
      omega
    have hdecode : streamFrame.decodeHeader (le32 (UInt32.ofNat args.flatten.length)) =
        .ok (⟨UInt32.ofNat args.flatten.length, false⟩ : StreamHeader) := by
      have hread := readLe32_append [] (UInt32.ofNat args.flatten.length) []
      rw [List.append_nil] at hread
      refine bind_ok.mpr ⟨_, hread, ?_⟩
      rw [if_neg hne]
    refine ⟨b', bind_ok.mpr ⟨b, hb, hsize ▸ hb'⟩, ?_⟩
    exact hh.frameOf (h := (⟨_, false⟩ : StreamHeader)) rfl hdecode hlen
      (fun rb hsize hbytes => ⟨rb, rfl, hsize, hbytes⟩)
  | endOfStream =>
    obtain ⟨b, hb, -, hwrite⟩ := marshall_sized [] (by decide)
    obtain ⟨b', hb', hh⟩ := hwrite eosSize
    have hdecode : streamFrame.decodeHeader (le32 eosSize) = .ok (⟨0, true⟩ : StreamHeader) := by
      have hread := readLe32_append [] eosSize []
      rw [List.append_nil] at hread
      refine bind_ok.mpr ⟨_, hread, ?_⟩
      rw [if_pos rfl]
    refine ⟨b', bind_ok.mpr ⟨b, hb, hb'⟩, ?_⟩
    exact hh.frameOf (h := (⟨0, true⟩ : StreamHeader)) rfl hdecode rfl
      (fun rb _ hbytes => ⟨{ rb with size := eosSize }, rfl, rfl, hbytes⟩)

/-- A message that does not fit is refused before anything is sent. -/
theorem Link.frame_full (l : Link) {m : Message} (h : ¬ m.Fits) :
    l.frame m = .error .bufferOverflow := by
  have h : 2 ^ 32 ≤ m.headSpace + m.payload.length := Nat.not_lt.mp h
  cases m with
  | request left type msgId args =>
    have hfull : marshall 28 args = .error .bufferOverflow := marshall_full h
    rw [Link.frame, requestBuf, hfull]
    rfl
  | response msgId args =>
    have hfull : marshall 12 args = .error .bufferOverflow := marshall_full h
    rw [Link.frame, respond, hfull]
    rfl
  | data args =>
    have hfull : marshall 4 args = .error .bufferOverflow := marshall_full h
    rw [Link.frame, sinkData, hfull]
    rfl
  | endOfStream => exact absurd h (by decide)

/-! ## Compressed frames -/

theorem asInputStream_remaining {bufs : List Bytes} (h : [] ∉ bufs) :
    (asInputStream bufs).remaining = bufs.flatten := by
  have hall : bufs.takeWhile (· ≠ []) = bufs := by
    rw [List.takeWhile_eq_self_iff]
    intro b hb
    exact decide_eq_true fun hnil => h (hnil ▸ hb)
  show (bufs.takeWhile (· ≠ [])).flatten = bufs.flatten
  rw [hall]

/-- The compressed frame: its size and what the compressor makes of the frame. -/
theorem compressed {c : Compressor} (hc : c.RoundTrips) {b out : SndBuf}
    (h : c.compress 4 b = .ok out) (hsize : b.size.toNat = b.bytes.length) (hne : b.bytes ≠ []) :
    ∃ payload buf, out.writeFront 0 (le32 (out.size - 4)) = .ok buf ∧
      buf.bytes = le32 (UInt32.ofNat payload.length) ++ payload ∧
      (UInt32.ofNat payload.length).toNat = payload.length ∧
      ∀ rb : RcvBuf, rb.size.toNat = payload.length → rb.bufs.bytes = payload →
        ∃ eb, c.decompress rb = .ok eb ∧ eb.bufs.bytes = b.bytes ∧ [] ∉ eb.bufs.toList := by
  obtain ⟨head, payload, hlen, hh⟩ := hc.headSpace h (by decide) hsize
  have hsub : out.size - 4 = UInt32.ofNat payload.length := hh.size_sub hlen.symm
  have hlt : (UInt32.ofNat payload.length).toNat = payload.length := by
    have htotal := hh.size
    have hout := out.size.toNat_lt
    rw [UInt32.toNat_ofNat', Nat.mod_eq_of_lt (by omega)]
  have hwhole : out.Headed ([] ++ head ++ []) payload := by
    rwa [List.nil_append, List.append_nil]
  obtain ⟨buf, hbuf, hh', -⟩ := hwhole.writeFront _ (le32 (out.size - 4)) _
    ((length_le32 _).trans hlen.symm)
  refine ⟨payload, buf, hbuf, ?_, hlt, hc.inverse h hsize hne (by decide) hlen hh⟩
  rw [hh'.bytes, hsub, List.nil_append, List.append_nil]

/-- A compressed frame at the front of the stream is read, and nothing behind it. -/
theorem readFrameCompressed_value {c : Compressor} {h : F.Header}
    {payload inner compressed rest : Bytes} (hframe : IsFrame F h payload inner)
    (hlen : (UInt32.ofNat compressed.length).toNat = compressed.length)
    (hinv : ∀ rb : RcvBuf, rb.size.toNat = compressed.length → rb.bufs.bytes = compressed →
      ∃ eb, c.decompress rb = .ok eb ∧ eb.bufs.bytes = inner ∧ [] ∉ eb.bufs.toList)
    (he : s.EofAtEnd)
    (hs : s.remaining = le32 (UInt32.ofNat compressed.length) ++ compressed ++ rest) :
    ∃ rb t, readFrameCompressed F (some c) s = .ok (F.makeValue h rb, none, t) ∧
      rb.size = F.getSize h ∧ rb.bufs.bytes = payload ∧ t.remaining = rest ∧ t.EofAtEnd := by
  obtain ⟨hhead, heof⟩ := InputStream.readExactly_eq 4 he
  have hfour := InputStream.exactly_append (le32 (UInt32.ofNat compressed.length))
    (compressed ++ rest)
  have hread := readLe32_append [] (UInt32.ofNat compressed.length) []
  rw [length_le32] at hfour
  rw [List.append_nil] at hread
  rw [hs, List.append_assoc, hfour] at hhead
  simp only [readFrameCompressed]
  generalize s.readExactly 4 = r at *
  obtain ⟨header, t⟩ := r
  obtain ⟨rfl, ht⟩ := Prod.mk.inj hhead
  dsimp only at *
  rw [if_neg (fun hne => hne (length_le32 _))]
  obtain ⟨heof', hfill⟩ := readRcvBuf_fills (UInt32.ofNat compressed.length) heof
  rw [ht, hlen, if_pos (by rw [List.length_append]; omega), List.take_left, List.drop_left]
    at hfill
  obtain ⟨hrb, hbytes, hrem⟩ := hfill
  obtain ⟨eb, heb, hinner, hne⟩ := hinv _ (by rw [hrb, hlen]) hbytes
  have hstream : (asInputStream eb.bufs.toList).remaining = inner ++ [] := by
    rw [asInputStream_remaining hne, List.append_nil]
    exact hinner
  have hstart : (asInputStream eb.bufs.toList).EofAtEnd := by
    intro h
    cases h
  obtain ⟨rb, t', hvalue, hsize, hpayload, -, -⟩ := readFrame_value hframe hstart hstream
  refine ⟨rb, (readRcvBuf t (UInt32.ofNat compressed.length)).2, ?_, hsize, hpayload, hrem, heof'⟩
  refine bind_ok.mpr ⟨_, hread, ?_⟩
  rw [if_neg (fun hne => hne hrb)]
  exact bind_ok.mpr ⟨eb, heb, bind_ok.mpr ⟨_, hvalue, rfl⟩⟩

/-- A stream that ends inside of a compressed frame gives the empty value. -/
theorem readFrameCompressed_short {c : Compressor} {compressed : Bytes}
    (hlen : (UInt32.ofNat compressed.length).toNat = compressed.length) (he : s.EofAtEnd)
    (hs : s.remaining <+: le32 (UInt32.ofNat compressed.length) ++ compressed)
    (hne : s.remaining ≠ le32 (UInt32.ofNat compressed.length) ++ compressed) :
    ∃ log t, readFrameCompressed F (some c) s = .ok (F.emptyValue, log, t) := by
  obtain ⟨hhead, heof⟩ := InputStream.readExactly_eq 4 he
  have hread := readLe32_append [] (UInt32.ofNat compressed.length) []
  rw [List.append_nil] at hread
  have hshort : s.remaining.length <
      (le32 (UInt32.ofNat compressed.length) ++ compressed).length := by
    apply Nat.lt_of_le_of_ne hs.length_le
    exact fun hl => hne (hs.eq_of_length hl)
  rw [List.length_append, length_le32] at hshort
  simp only [readFrameCompressed]
  generalize s.readExactly 4 = r at *
  obtain ⟨header, t⟩ := r
  dsimp only at *
  by_cases hcut : 4 ≤ s.remaining.length
  · obtain ⟨rest, hrest⟩ := List.prefix_of_prefix_length_le ⟨compressed, rfl⟩ hs
      (by rw [length_le32]; exact hcut)
    have hfour := InputStream.exactly_append (le32 (UInt32.ofNat compressed.length)) rest
    rw [length_le32] at hfour
    rw [← hrest, hfour] at hhead
    obtain ⟨rfl, ht⟩ := Prod.mk.inj hhead
    rw [← hrest, List.length_append, length_le32] at hshort
    rw [if_neg (fun hne => hne (length_le32 _))]
    obtain ⟨heof', hfill⟩ := readRcvBuf_fills (UInt32.ofNat compressed.length) heof
    rw [ht, hlen, if_neg (by omega)] at hfill
    have hread : readLe32 (le32 (UInt32.ofNat compressed.length)) 0 = .ok _ := hread
    rw [hread, ok_bind, if_pos hfill]
    exact ⟨_, _, rfl⟩
  · rw [InputStream.exactly, if_neg hcut] at hhead
    obtain ⟨rfl, -⟩ := Prod.mk.inj hhead
    rw [if_pos (by rw [List.length_nil]; decide)]
    exact ⟨_, _, rfl⟩

namespace Link

variable {l : Link} {m : Message} {buf : SndBuf}

/-- A message that is sent has been framed. -/
theorem frame_of_send (hm : l.send m = .ok buf) :
    ∃ b, FrameOf l m b ∧ l.compress b = .ok buf := by
  obtain ⟨b, hb, hsend⟩ := bind_ok.mp hm
  have hfits : m.Fits := by
    by_contra hfull
    rw [l.frame_full hfull] at hb
    cases hb
  obtain ⟨b', hb', hframe⟩ := l.frame_ok hfits
  obtain rfl := Except.ok.inj (hb.symm.trans hb')
  exact ⟨b, hframe, hsend⟩

/-- A message that was sent is received as it is, and the stream behind it is not touched. -/
theorem receive_value (hc : ∀ c, l.compressor = some c → c.RoundTrips)
    (hm : l.send m = .ok buf) (he : s.EofAtEnd) {rest : Bytes}
    (hs : s.remaining = buf.bytes ++ rest) :
    ∃ v t, l.receive m.role s = .ok (v, none, t) ∧ m.Delivered l v ∧ t.remaining = rest ∧
      t.EofAtEnd := by
  obtain ⟨b, ⟨⟨h, hframe, hvalue⟩, hsize, hne⟩, hsend⟩ := frame_of_send hm
  cases hcomp : l.compressor with
  | none =>
    rw [Link.compress, hcomp] at hsend
    obtain rfl := Except.ok.inj hsend
    obtain ⟨rb, t, hread, hrb, hbytes, hrem, heof⟩ := readFrame_value hframe he hs
    refine ⟨_, t, ?_, hvalue rb hrb hbytes, hrem, heof⟩
    rw [receive, hcomp]
    exact hread
  | some c =>
    rw [Link.compress, hcomp] at hsend
    obtain ⟨out, hout, hwrite⟩ := bind_ok.mp hsend
    obtain ⟨data, buf', hbuf', hbytes, hlen, hinv⟩ := compressed (hc c hcomp) hout hsize hne
    obtain rfl := Except.ok.inj (hwrite.symm.trans hbuf')
    rw [hbytes] at hs
    obtain ⟨rb, t, hread, hrb, hpayload, hrem, heof⟩ :=
      readFrameCompressed_value hframe hlen hinv he hs
    refine ⟨_, t, ?_, hvalue rb hrb hpayload, hrem, heof⟩
    rw [receive, hcomp]
    exact hread

/-- When the stream ends inside of a message, the empty value is received. -/
theorem receive_short (hc : ∀ c, l.compressor = some c → c.RoundTrips)
    (hm : l.send m = .ok buf) (he : s.EofAtEnd) (hs : s.remaining <+: buf.bytes)
    (hcut : s.remaining ≠ buf.bytes) :
    ∃ log t, l.receive m.role s = .ok ((l.frameType m.role).emptyValue, log, t) := by
  obtain ⟨b, ⟨⟨h, hframe, -⟩, hsize, hne⟩, hsend⟩ := frame_of_send hm
  cases hcomp : l.compressor with
  | none =>
    rw [Link.compress, hcomp] at hsend
    obtain rfl := Except.ok.inj hsend
    rw [receive, hcomp]
    exact readFrame_short hframe he hs hcut
  | some c =>
    rw [Link.compress, hcomp] at hsend
    obtain ⟨out, hout, hwrite⟩ := bind_ok.mp hsend
    obtain ⟨data, buf', hbuf', hbytes, hlen, hinv⟩ := compressed (hc c hcomp) hout hsize hne
    obtain rfl := Except.ok.inj (hwrite.symm.trans hbuf')
    rw [hbytes] at hs hcut
    rw [receive, hcomp]
    exact readFrameCompressed_short hlen he hs hcut

/-- What is delivered is not the empty value. -/
theorem ne_emptyValue {v : Received} (h : m.Delivered l v) : v ≠ (l.frameType m.role).emptyValue := by
  obtain ⟨rb, rfl, -⟩ := h
  obtain ⟨timeoutNegotiated, compressor⟩ := l
  cases m with
  | request => cases timeoutNegotiated <;> (intro h; cases h)
  | response => intro h; cases h
  | data => intro h; cases h
  | endOfStream => intro h; cases h

/-- Frames that are sent one after the other are read one after the other. -/
theorem receiveMany_value (hc : ∀ c, l.compressor = some c → c.RoundTrips) {r : Role}
    {ms : List Message} {bufs : List SndBuf}
    (hm : List.Forall₂ (fun m b => m.role = r ∧ l.send m = .ok b) ms bufs) (he : s.EofAtEnd)
    {rest : Bytes} (hs : s.remaining = (bufs.map SndBuf.bytes).flatten ++ rest) :
    ∃ vs t, l.receiveMany r ms.length s = .ok (vs, t) ∧
      List.Forall₂ (fun m v => m.Delivered l v ∧ v ≠ (l.frameType r).emptyValue) ms vs ∧
      t.remaining = rest ∧ t.EofAtEnd := by
  induction hm generalizing s with
  | nil => exact ⟨[], s, rfl, .nil, hs, he⟩
  | cons hmb hms ih =>
    obtain ⟨rfl, hsend⟩ := hmb
    rw [List.map_cons, List.flatten_cons, List.append_assoc] at hs
    obtain ⟨v, t, hread, hv, hrem, heof⟩ := receive_value hc hsend he hs
    obtain ⟨vs, t', hreads, hvs, hrem', heof'⟩ := ih heof hrem
    refine ⟨v :: vs, t', ?_, .cons ⟨hv, ne_emptyValue hv⟩ hvs, hrem', heof'⟩
    exact bind_ok.mpr ⟨_, hread, bind_ok.mpr ⟨_, hreads, rfl⟩⟩

/-- The length of a frame. -/
theorem length_frame (h : FrameOf l m buf) :
    buf.bytes.length = (l.frameType m.role).headerSize + m.payload.length := by
  obtain ⟨h, ⟨⟨hdr, hbytes, hlen, -⟩, -⟩, -⟩ := h.frame
  rw [hbytes, List.length_append, hlen]

/-- A message whose size fits 32 bits is framed, any other one is refused. Frames that were sent
are received one after the other in whatever buffers the stream delivers them, each with its
header and its payload; a stream that ends before the next frame is complete gives the empty
value. -/
theorem frames_received (l : Link) (hc : ∀ c, l.compressor = some c → c.RoundTrips) :
    (∀ m : Message,
      (m.Fits → ∃ b, l.frame m = .ok b ∧
        b.bytes.length = (l.frameType m.role).headerSize + m.payload.length) ∧
      (¬ m.Fits → l.send m = .error .bufferOverflow)) ∧
    ∀ (r : Role) (ms : List Message) (bufs : List SndBuf),
      List.Forall₂ (fun m b => m.role = r ∧ l.send m = .ok b) ms bufs →
        ∀ (fd : DataSource UInt8) (rest : Bytes),
          fd.bytes = (bufs.map SndBuf.bytes).flatten ++ rest →
            ∃ vs s, l.receiveMany r ms.length { fd := fd } = .ok (vs, s) ∧
              List.Forall₂ (fun m v => m.Delivered l v ∧ v ≠ (l.frameType r).emptyValue) ms vs ∧
              s.remaining = rest ∧
              ∀ m b, m.role = r → l.send m = .ok b → rest <+: b.bytes → rest ≠ b.bytes →
                ∃ log t, l.receive r s = .ok ((l.frameType r).emptyValue, log, t) := by
  refine ⟨fun m => ⟨fun hm => ?_, fun hm => ?_⟩, fun r ms bufs hms fd rest hfd => ?_⟩
  · obtain ⟨b, hb, hframe⟩ := l.frame_ok hm
    exact ⟨b, hb, length_frame hframe⟩
  · rw [send, l.frame_full hm]
    rfl
  · have hstart : ({ fd := fd } : InputStream UInt8).EofAtEnd := by
      intro h
      cases h
    obtain ⟨vs, t, hread, hvs, hrem, heof⟩ := receiveMany_value hc hms hstart hfd
    refine ⟨vs, t, hread, hvs, hrem, fun m b hr hsend hprefix hne => ?_⟩
    subst hr
    exact receive_short hc hsend heof (hrem.symm ▸ hprefix) (hrem.symm ▸ hne)

/-- A compressed stream frame and the end of the stream, in two buffers, and the first byte of
another frame. -/
theorem frames_received_lz4 : ∃ vs s,
    receiveMany ⟨true, some (lz4Compressor Lz4.literals)⟩ .stream 2 { fd := ⟨[
      [12, 0, 0, 0, 7, 0, 0], [0, 112, 3, 0, 0, 0, 1, 2, 3, 9, 0, 0, 0, 4, 0, 0, 0, 64, 255, 255,
        255, 255, 12]], by decide⟩ } = .ok (vs, s) ∧
      List.Forall₂ (Message.Delivered ⟨true, some (lz4Compressor Lz4.literals)⟩)
        [.data [[1, 2], [3]], .endOfStream] vs ∧ s.remaining = [12] := by
  have hc : ∀ c, some (lz4Compressor Lz4.literals) = some c → c.RoundTrips := by
    intro c h
    obtain rfl := Option.some.inj h
    exact lz4Compressor_roundTrips Lz4.literals_inverse
  obtain ⟨vs, s, hread, hvs, hrem, -⟩ :=
    (frames_received ⟨true, some (lz4Compressor Lz4.literals)⟩ hc).2 .stream
      [.data [[1, 2], [3]], .endOfStream]
      [⟨16, .one [12, 0, 0, 0, 7, 0, 0, 0, 112, 3, 0, 0, 0, 1, 2, 3]⟩,
        ⟨13, .one [9, 0, 0, 0, 4, 0, 0, 0, 64, 255, 255, 255, 255]⟩]
      (.cons ⟨rfl, rfl⟩ (.cons ⟨rfl, rfl⟩ .nil)) ⟨[
        [12, 0, 0, 0, 7, 0, 0], [0, 112, 3, 0, 0, 0, 1, 2, 3, 9, 0, 0, 0, 4, 0, 0, 0, 64, 255, 255,
          255, 255, 12]], by decide⟩ [12] rfl
  exact ⟨vs, s, hread, hvs.imp fun _ _ h => h.1, hrem⟩

/-- A response that is too long is not sent. -/
theorem send_long_response (l : Link) (msgId : Int64) {w : Bytes} (h : 2 ^ 32 ≤ w.length) :
    l.send (.response msgId [w]) = .error .bufferOverflow := by
  have hfull : ¬ (Message.response msgId [w]).Fits := by
    rw [Message.Fits, Message.headSpace, Message.payload, List.flatten_singleton]
    omega
  rw [send, frame_full _ hfull]
  rfl

/-- Four gigabytes of zeroes. -/
theorem response_too_long : send ⟨true, none⟩ (.response 1 [List.replicate (2 ^ 32) 0]) =
    .error .bufferOverflow :=
  send_long_response _ _ (Nat.le_of_eq List.length_replicate.symm)

end Link

end Seastar.Rpc
