import Seastar.Net.Tcp.Tcb

/-!
The sending half of `tcp::tcb`: what may be sent, the segments themselves, the
two ways of retransmitting, the timers, and the calls of the user that end in a
segment.
-/

namespace Seastar.Net.Tcp.Tcb

/-- `can_send`, which also counts what limited transmit allows. -/
def canSend (snd : Send) : UInt32 × Send :=
  if snd.windowProbe then (1, snd)
  else if snd.window = 0 then (0, snd)
  else
    let windowUsed := snd.next.sub snd.unacknowledged
    if windowUsed > snd.window then (0, snd)
    else
      -- no more than the advertised window and the congestion window allow
      let x := min snd.cwnd (min (snd.window - windowUsed) snd.unsentLen)
      if snd.dupacks = 1 || snd.dupacks = 2 then
        let flight := flightSize snd
        let max := snd.cwnd + 2 * snd.mss.toUInt32
        let x := if flight ≤ max then min x (max - flight) else 0
        (x, { snd with limitedTransfer := snd.limitedTransfer + x })
      else if snd.dupacks ≥ 3 then (min snd.mss.toUInt32 x, snd)
      else (x, snd)

/-- The hard case of `get_transmit_packet`: append packets to `p` as long as they
fit, and a part of the next one. -/
def mergeUnsent (p : Packet) (canSend : Nat) : List Packet → Except Fault (Packet × List Packet)
  | [] => .ok (p, [])
  | q :: unsent =>
    if q.len ≤ canSend then mergeUnsent (p.append q) (canSend - q.len) unsent
    else if canSend ≠ 0 then do
      let s ← q.share 0 canSend
      let q ← q.trimFront canSend
      .ok (p.append s, q :: unsent)
    else .ok (p, q :: unsent)

/-- The most `get_transmit_packet` puts into one segment. -/
def maxPayload (hw : HwFeatures) (snd : Send) : UInt32 :=
  if hw.txTso then (maxPacketLen - 20 - 20).toUInt32
  else (min (hw.mtu - 20 - 20) snd.mss).toUInt32

/-- `get_transmit_packet`. -/
def getTransmitPacket (hw : HwFeatures) (snd : Send) : Except Fault (Packet × Send) :=
  match snd.unsent with
  -- easy case: empty queue
  | [] => .ok (Packet.empty, snd)
  | front :: unsent =>
    let (x, snd) := canSend snd
    let x := (min x (maxPayload hw snd)).toNat
    -- easy case: one small packet
    if unsent.isEmpty && front.len ≤ x then
      .ok (front, { snd with unsent := [], unsentLen := snd.unsentLen - UInt32.ofNat front.len })
    -- moderate case: need to split one packet
    else if front.len > x then do
      let p ← front.share 0 x
      let front ← front.trimFront x
      .ok (p, { snd with
        unsent := front :: unsent, unsentLen := snd.unsentLen - UInt32.ofNat p.len })
    -- hard case: merge some packets, possibly split last
    else do
      let (p, unsent) ← mergeUnsent front (x - front.len) unsent
      .ok (p, { snd with unsent := unsent, unsentLen := snd.unsentLen - UInt32.ofNat p.len })

/-- The packet `output_one` starts from: a copy of the first unacknowledged one, or new data. -/
def payloadToSend (hw : HwFeatures) (dataRetransmit : Bool) (snd : Send) :
    Except Fault (Packet × Send) :=
  if dataRetransmit then
    match snd.data with
    | [] => .error .emptyQueue
    | seg :: _ => do
      let p ← seg.p.shareAll
      .ok (p, snd)
  else getTransmitPacket hw snd

/-- The header `output_one` writes. -/
def headerToSend (tcb : Tcb) (seq : TcpSeq) (optionsSize : Nat) : TcpHdr where
  srcPort := tcb.localPort
  dstPort := tcb.foreignPort
  seq := seq
  ack := tcb.rcv.next
  dataOffset := (tcpHdrLen + optionsSize) / 4
  fSyn := tcb.synNeedsOn
  fAck := tcb.ackNeedsOn
  fFin := tcb.finNeedsOn
  window := (tcb.rcv.window >>> tcb.rcv.windowScale.toUInt32).toUInt16

/-- The `offload_info` of a segment with `len` bytes of data. -/
def offloadToSend (hw : HwFeatures) (snd : Send) (optionsSize : Nat) (len : UInt16) :
    OffloadInfo where
  needsCsum := hw.txCsumL4Offload
  tcpHdrLen := UInt8.ofNat (tcpHdrLen + optionsSize)
  tsoSegSize := if hw.txCsumL4Offload && hw.txTso && len > snd.mss then snd.mss else 0

/-- `output_one` up to the checksum: the header and the options of a segment that carries
`p`. A new segment moves SND.NXT on. -/
def buildSegment (hw : HwFeatures) (dataRetransmit : Bool) (p : Packet) (tcb : Tcb) :
    Except Fault (OutSegment × Tcb) := do
  let len := UInt16.ofNat p.len
  let optionsSize := tcb.option.getSize tcb.synNeedsOn tcb.ackNeedsOn
  let tcb := if tcb.ackNeedsOn then clearDelayedAck tcb else tcb
  let seq :=
    if dataRetransmit then tcb.snd.unacknowledged
    else if tcb.synNeedsOn then tcb.snd.initial else tcb.snd.next
  let tcb :=
    if dataRetransmit then tcb
    else { tcb with snd := { tcb.snd with next := tcb.snd.next.add len.toUInt32 } }
  let options ← tcb.option.fill tcb.synNeedsOn tcb.ackNeedsOn optionsSize
  .ok (⟨headerToSend tcb seq optionsSize, options, p, offloadToSend hw tcb.snd optionsSize len⟩, tcb)

/-- The part of `output_one` for new data, a SYN or a FIN: remember the data, arm the timer. -/
def rememberSent (now : Int) (clone : Packet) (len : UInt16) (tcb : Tcb) : Tcb :=
  let tcb :=
    if len ≠ 0 then
      { tcb with snd := { tcb.snd with data := tcb.snd.data ++ [⟨clone, len, 0, now⟩] } }
    else tcb
  if tcb.retransmitTimer.isNone then startRetransmitTimer now tcb else tcb

/-- The end of `output_one`: only a window probe may be sent into a closed window. -/
def queuePacket (seg : OutSegment) (tcb : Tcb) : Except Fault Tcb :=
  if tcb.snd.window > 0 || UInt16.ofNat seg.payload.len ≤ 1 then
    .ok { tcb with packetq := tcb.packetq ++ [seg] }
  else .error .closedWindow

/-- `output_one`. -/
def outputOne (hw : HwFeatures) (now : Int) (dataRetransmit : Bool) (tcb : Tcb) :
    Except Fault Tcb := do
  if tcb.state = .closed then .ok tcb
  else
    let (p, snd) ← payloadToSend hw dataRetransmit tcb.snd
    let clone ← p.shareAll
    let len := UInt16.ofNat p.len
    let (seg, tcb) ← buildSegment hw dataRetransmit p { tcb with snd := snd }
    let tcb :=
      if !dataRetransmit && (len ≠ 0 || seg.hdr.fSyn || seg.hdr.fFin) then
        rememberSent now clone len tcb
      else tcb
    queuePacket seg tcb

/-- `fast_retransmit`. -/
def fastRetransmit (hw : HwFeatures) (now : Int) (tcb : Tcb) : Except Fault Tcb :=
  match tcb.snd.data with
  | [] => .ok tcb
  | seg :: data => do
    let tcb ← outputOne hw now true
      { tcb with
        snd := { tcb.snd with data := { seg with nrTransmits := seg.nrTransmits + 1 } :: data } }
    .ok (output tcb)

/-- `output_update_rto` of `retransmit`. -/
def outputUpdateRto (now : Int) (tcb : Tcb) : Tcb :=
  let tcb := output tcb
  startRetransmitTimer now { tcb with rto := min (tcb.rto * 2) rtoMax }

/-- `retransmit`, from "Retransmit Data" on. -/
def retransmitData (hw : HwFeatures) (now : Int) (tcb : Tcb) : Except Fault Tcb :=
  match tcb.snd.data with
  | [] => .ok tcb
  | seg :: data => do
    let smss := tcb.snd.mss.toUInt32
    let ssthresh :=
      if seg.nrTransmits = 0 then max (flightSize tcb.snd / 2) (2 * smss) else tcb.snd.ssthresh
    let tcb := { tcb with
      snd := exitFastRecovery { tcb.snd with
        ssthresh := ssthresh, recover := tcb.snd.next.back 1, cwnd := smss } }
    if seg.nrTransmits < maxNrRetransmit then
      let tcb ← outputOne hw now true
        { tcb with
          snd := { tcb.snd with data := { seg with nrTransmits := seg.nrTransmits + 1 } :: data } }
      .ok (outputUpdateRto now tcb)
    else
      -- delete connection when max num of retransmission is reached
      .ok (cleanup tcb)

/-- `retransmit`, from "Retransmit FIN" on. -/
def retransmitFin (hw : HwFeatures) (now : Int) (tcb : Tcb) : Except Fault Tcb :=
  if tcb.finNeedsOn then
    let n := tcb.snd.finRetransmit
    let tcb := { tcb with snd := { tcb.snd with finRetransmit := n + 1 } }
    if n < maxNrRetransmit then retransmitData hw now (outputUpdateRto now tcb)
    else .ok (cleanup tcb)
  else retransmitData hw now tcb

/-- `retransmit`. -/
def retransmit (hw : HwFeatures) (now : Int) (tcb : Tcb) : Except Fault Tcb :=
  if tcb.synNeedsOn then
    let n := tcb.snd.synRetransmit
    let tcb := { tcb with snd := { tcb.snd with synRetransmit := n + 1 } }
    if n < maxNrRetransmit then retransmitFin hw now (outputUpdateRto now tcb)
    else .ok (cleanup (emit (.wake .connectDone .connectError) tcb))
  else retransmitFin hw now tcb

/-- `persist`. -/
def persist (hw : HwFeatures) (now : Int) (tcb : Tcb) : Except Fault Tcb := do
  let tcb ← outputOne hw now false
    { tcb with
      snd := { tcb.snd with
        windowProbe := true, zeroWindowProbingOut := tcb.snd.zeroWindowProbingOut + 1 } }
  let tcb := output { tcb with snd := { tcb.snd with windowProbe := false } }
  .ok (startPersistTimer now { tcb with persistTimeOut := min (tcb.persistTimeOut * 2) rtoMax })

/-- `can_send() > 0`, with the state it leaves. -/
def mayTransmit (tcb : Tcb) : Bool × Tcb :=
  let (x, snd) := canSend tcb.snd
  (x > 0, { tcb with snd := snd })

/-- The start of `get_packet`: an empty packet queue is filled. -/
def fillPacketq (hw : HwFeatures) (now : Int) (tcb : Tcb) : Except Fault Tcb :=
  if tcb.packetq.isEmpty then outputOne hw now false tcb else .ok tcb

/-- The end of `get_packet`: take a packet, and ask to be polled again if there is more to
send. -/
def takePacket (tcb : Tcb) : Except Fault (Option OutSegment × Tcb) :=
  if tcb.state = .closed then .ok (none, tcb)
  else
    match tcb.packetq with
    | [] => .error .assertFailed
    | p :: packetq =>
      let tcb := { tcb with packetq := packetq, handed := tcb.handed ++ [p] }
      if packetq ≠ [] then .ok (some p, output tcb)
      else if tcb.snd.dupacks < 3 then
        let (may, tcb) := mayTransmit tcb
        .ok (some p, if may && tcb.snd.window > 0 then output tcb else tcb)
      else .ok (some p, tcb)

/-- `get_packet`. -/
def getPacket (hw : HwFeatures) (now : Int) (tcb : Tcb) : Except Fault (Option OutSegment × Tcb) := do
  let tcb ← fillPacketq hw now { tcb with pollActive := false }
  takePacket tcb

/-- `wait_send_available`: whether the caller has to wait. -/
def waitSendAvailable (tcb : Tcb) : Tcb :=
  if tcb.snd.maxQueueSpace > tcb.snd.currentQueueSpace then tcb
  else { tcb with snd := { tcb.snd with sendAvailablePromise := true } }

/-- Whether `send` fails at once: the connection is closed. -/
def sendRefused (tcb : Tcb) : Bool := tcb.snd.closed || tcb.state = .closed

/-- `send`. -/
def send (p : Packet) (tcb : Tcb) : Tcb :=
  if tcb.sendRefused then tcb
  else
    let tcb := { tcb with
      snd := { tcb.snd with
        currentQueueSpace := tcb.snd.currentQueueSpace + UInt64.ofNat p.len
        unsentLen := tcb.snd.unsentLen + UInt32.ofNat p.len
        unsent := tcb.snd.unsent ++ [p]
        stream := tcb.snd.stream ++ p.bytes } }
    let (may, tcb) := mayTransmit tcb
    waitSendAvailable (if may then output tcb else tcb)

/-- `close`, up to `wait_for_all_data_acked`. -/
def close (tcb : Tcb) : Tcb :=
  if tcb.state = .closed || tcb.snd.closed then tcb
  else if tcb.snd.data.isEmpty && tcb.snd.unsentLen = 0 then
    { tcb with closeTasks := tcb.closeTasks + 1 }
  else { tcb with snd := { tcb.snd with allDataAckedPromise := true } }

/-- The continuation of `close`. -/
def closeContinue (hw : HwFeatures) (now : Int) (tcb : Tcb) : Except Fault Tcb := do
  let tcb := { tcb with snd := { tcb.snd with closed := true } }
  let tcb :=
    if tcb.state = .closeWait then { tcb with state := .lastAck }
    else if tcb.state = .established then { tcb with state := .finWait1 }
    else tcb
  let tcb ← outputOne hw now false tcb
  .ok (output tcb)

/-- `connect`. -/
def connect (hw : HwFeatures) (now : Int) (isn : TcpSeq) (tcb : Tcb) : Tcb :=
  let tcb := doSetupIsn isn tcb
  let tcb := { tcb with
    option := { tcb.option with localWinScale := 7, localMss := localMss hw }
    rcv := { tcb.rcv with windowScale := 7, mss := localMss hw } }
  doSynSent now
    { tcb with rcv := { tcb.rcv with window := getDefaultReceiveWindowSize tcb.rcv } }

/-- `read`. -/
def read (tcb : Tcb) : Packet × Tcb :=
  (tcb.rcv.data.foldl Packet.append Packet.empty,
    { tcb with
      rcv := { tcb.rcv with
        dataSize := 0, data := [], window := getDefaultReceiveWindowSize tcb.rcv } })

/-- `wait_for_data`. -/
def waitForData (tcb : Tcb) : Tcb :=
  if tcb.rcv.data ≠ [] || tcb.foreignWillNotSend then tcb
  else { tcb with rcv := { tcb.rcv with dataReceivedPromise := true } }

/-- `abort_reader`. -/
def abortReader (tcb : Tcb) : Tcb := failDataReceived .abortedError tcb

/-- `shutdown_connect`. -/
def shutdownConnect (tcb : Tcb) : Tcb :=
  if tcb.synNeedsOn then cleanup (emit (.wake .connectDone .refusedError) tcb)
  else close (abortReader tcb)

end Seastar.Net.Tcp.Tcb
