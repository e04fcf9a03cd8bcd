import Seastar.Net.Tcp.Step

/-!
`tcp<ipv4_traits>::received`: the checks made on a packet from the network layer, the
table of connections, the listeners, and the reset that answers a segment for
nobody. What a connection asks of the table (`Effect`) is carried out when its
handler returns.
-/

namespace Seastar.Net.Tcp

/-- `l4connid`. -/
structure Connid where
  localIp : UInt32
  foreignIp : UInt32
  localPort : UInt16
  foreignPort : UInt16
  deriving DecidableEq, Repr

/-- `class listener`; the connections in its queue are named by their ids. -/
structure Listener where
  q : List Connid := []
  maxSize : Nat := 100
  pending : Nat := 0
  deriving DecidableEq, Repr

/-- `listener::full`. -/
def Listener.full (l : Listener) : Bool := l.pending + l.q.length ≥ l.maxSize

/-- `class tcp`: the maps, the polling list, and the packets that belong to no connection
with the destination of each. -/
structure Stack where
  tcbs : List (Connid × Tcb) := []
  listening : List (UInt16 × Listener) := []
  pollTcbs : List Connid := []
  packetq : List (UInt32 × OutSegment) := []
  queueSpace : Nat := 212992
  deriving DecidableEq, Repr

/-- `tcp_pseudo_header_checksum`. The addresses are summed as the memory holds them. -/
def tcpPseudoHeaderChecksum (csum : Checksummer) (src dst : UInt32) (len : UInt16) : Checksummer :=
  ((((csum.sum32 src).sum32 dst).sum8 0).sum8 6).sum16 len

/-- The checksum `received` computes over a segment. -/
def segmentChecksum (src dst : UInt32) (p : Packet) : Except Fault UInt16 := do
  let csum ← (tcpPseudoHeaderChecksum {} src dst (UInt16.ofNat p.len)).sumFrags p.frags
  .ok csum.get

namespace Stack

/-- `_tcbs.find`. -/
def findTcb (t : Stack) (id : Connid) : Option Tcb := t.tcbs.lookup id

/-- The object behind a pointer of `_tcbs` has changed. -/
def setTcb (t : Stack) (id : Connid) (tcb : Tcb) : Stack :=
  { t with tcbs := t.tcbs.map fun e => if e.1 = id then (id, tcb) else e }

/-- `_listening.find`. -/
def findListener (t : Stack) (port : UInt16) : Option Listener := t.listening.lookup port

/-- The listener of a port has changed. -/
def setListener (t : Stack) (port : UInt16) (l : Listener) : Stack :=
  { t with listening := t.listening.map fun e => if e.1 = port then (port, l) else e }

/-- The header of `respond_with_reset`. -/
def resetHeader (rth : TcpHdr) : TcpHdr where
  srcPort := rth.dstPort
  dstPort := rth.srcPort
  seq := if rth.fAck then rth.ack else ⟨0⟩
  ack := if rth.fSyn then rth.seq.add 1 else ⟨0⟩
  fAck := rth.fSyn
  fRst := true
  dataOffset := tcpHdrLen / 4

/-- `respond_with_reset` and `send_packet_without_tcb`. -/
def respondWithReset (hw : HwFeatures) (rth : TcpHdr) (foreignIp : UInt32) (t : Stack) : Stack :=
  if rth.fRst then t
  else if tcpHdrLen ≤ t.queueSpace then
    { t with
      queueSpace := t.queueSpace - tcpHdrLen
      packetq := t.packetq ++
        [(foreignIp, ⟨resetHeader rth, [], Packet.empty, ⟨hw.txCsumL4Offload, 20, 0⟩⟩)] }
  -- drop packets that do not fit the queue
  else t

/-- `add_connected_tcb`. -/
def addConnectedTcb (id : Connid) (t : Stack) : Stack :=
  match t.findListener id.localPort with
  | none => t
  | some l =>
    let q := if l.q.length < l.maxSize then l.q ++ [id] else l.q
    t.setListener id.localPort { l with q := q, pending := l.pending - 1 }

/-- Carry out what a connection asked for. -/
def applyEffect (hw : HwFeatures) (id : Connid) (t : Stack) : Effect → Stack
  | .wake _ _ => t
  | .pollTcb => { t with pollTcbs := t.pollTcbs ++ [id] }
  | .respondWithReset th => t.respondWithReset hw th id.foreignIp
  | .addConnectedTcb => t.addConnectedTcb id
  | .removeFromTcbs => { t with tcbs := t.tcbs.filter fun e => e.1 ≠ id }

/-- A handler of the connection `id` has returned. -/
def handled (hw : HwFeatures) (id : Connid) (tcb : Tcb) (t : Stack) : Stack :=
  tcb.effects.foldl (applyEffect hw id) (t.setTcb id { tcb with effects := [] })

/-- The constructor of `tcb`. Members without an initializer keep what the memory held. -/
def newTcb (mem : Tcb) (id : Connid) : Tcb where
  localIp := id.localIp
  foreignIp := id.foreignIp
  localPort := id.localPort
  foreignPort := id.foreignPort
  snd :=
    { unacknowledged := mem.snd.unacknowledged, next := mem.snd.next, window := mem.snd.window
      windowScale := mem.snd.windowScale, mss := mem.snd.mss, wl1 := mem.snd.wl1
      wl2 := mem.snd.wl2, initial := mem.snd.initial, rttvar := mem.snd.rttvar
      srtt := mem.snd.srtt, synTxTime := mem.snd.synTxTime, cwnd := mem.snd.cwnd
      ssthresh := mem.snd.ssthresh, recover := mem.snd.recover }
  rcv :=
    { next := mem.rcv.next, window := mem.rcv.window, windowScale := mem.rcv.windowScale
      mss := mem.rcv.mss, initial := mem.rcv.initial }
  option := { localMss := mem.option.localMss }

/-- The connection a segment belongs to. -/
def connidOf (h : TcpHdr) (src dst : UInt32) : Connid := ⟨dst, src, h.dstPort, h.srcPort⟩

/-- The end of `received`: the dispatch on the state of the connection. `isn` is what
`get_isn` would draw and `mem` the memory a new `tcb` would be built in. -/
def dispatch (hw : HwFeatures) (now : Int) (isn : TcpSeq) (mem : Tcb) (h : TcpHdr) (src dst : UInt32)
    (p : Packet) (t : Stack) : Except Fault Stack :=
  let id := connidOf h src dst
  match t.findTcb id with
  | none =>
    match t.findListener id.localPort with
    | none => .ok (t.respondWithReset hw h id.foreignIp)
    | some l =>
      if l.full then .ok (t.respondWithReset hw h id.foreignIp)
      -- in LISTEN: an RST is ignored, an ACK is bad, a SYN makes a connection
      else if h.fRst then .ok t
      else if h.fAck then .ok (t.respondWithReset hw h id.foreignIp)
      else if h.fSyn then do
        let t := { t with tcbs := t.tcbs ++ [(id, newTcb mem id)] }
        let t := t.setListener id.localPort { l with pending := l.pending + 1 }
        let tcb ← (newTcb mem id).inputHandleListenState hw now isn h p
        .ok (t.handled hw id tcb)
      else .ok t
  | some tcb => do
    let tcb ← tcb.inputHandle hw now h p
    .ok (t.handled hw id tcb)

/-- `received`. -/
def received (hw : HwFeatures) (now : Int) (isn : TcpSeq) (mem : Tcb) (p : Packet)
    (src dst : UInt32) (t : Stack) : Except Fault Stack := do
  match p.getHeader 0 tcpHdrLen with
  | none => .ok t
  | some th =>
    if dataOffsetOf th.mem * 4 < tcpHdrLen then .ok t
    else
      let verified ←
        if hw.rxCsumOffload then .ok true
        else do
          let csum ← segmentChecksum src dst th.p
          .ok (csum = 0)
      if !verified then .ok t
      else dispatch hw now isn mem (TcpHdr.read th.mem) src dst th.p t

end Stack

/-- The connections there are: opened by the user, or by a SYN to a listening port. -/
inductive Tcb.Opened (hw : HwFeatures) : Tcb → Prop
  | active (mem : Tcb) (id : Connid) (now : Int) (isn : TcpSeq) :
      Opened hw ((Stack.newTcb mem id).connect hw now isn)
  | passive {mem tcb : Tcb} {id : Connid} {now : Int} {isn : TcpSeq} {th : TcpHdr} {p : Packet} :
      th.fRst = false → th.fAck = false → th.fSyn = true →
      (Stack.newTcb mem id).inputHandleListenState hw now isn th p = .ok tcb → Opened hw tcb

end Seastar.Net.Tcp
