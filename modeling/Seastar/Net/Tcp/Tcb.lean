import Seastar.Net.Tcp.Header

/-!
The state of one TCP connection, `tcp::tcb` of `net/tcp.hh`, with the small
operations on it: states, timers, promises and the receive window.

A timer is the time point it is armed for. A promise is the fact that somebody
waits on it; what the waiter gets, and what the connection asks of the `tcp`
object around it, is kept in `effects`, oldest first. Three history variables
are not in the source: the bytes the user ever gave to `send`, the bytes ever
moved into `_rcv.data`, and the packets handed to the network layer. Nothing
reads them.
-/

namespace Seastar.Net

/-- `hw_features`, as far as TCP and IP read it. -/
structure HwFeatures where
  txCsumIpOffload : Bool := false
  txCsumL4Offload : Bool := false
  rxCsumOffload : Bool := false
  txTso : Bool := false
  txUfo : Bool := false
  mtu : UInt16 := 1500
  deriving DecidableEq, Repr

/-- `hw_features::max_packet_len`, which keeps its initial value:
`ip_packet_len_max - eth_hdr_len`. -/
def maxPacketLen : UInt16 := 65521

namespace Tcp

/-- `enum class tcp_state`. -/
inductive TcpState
  | closed | listen | synSent | synReceived | established | finWait1 | finWait2
  | closeWait | closing | lastAck | timeWait
  deriving DecidableEq, Repr

/-- `struct unacked_segment`. -/
structure UnackedSegment where
  p : Packet
  dataLen : UInt16
  nrTransmits : Nat
  txTime : Int
  deriving DecidableEq, Repr

/-- `struct send`. -/
structure Send where
  unacknowledged : TcpSeq := ⟨0⟩
  next : TcpSeq := ⟨0⟩
  window : UInt32 := 0
  windowScale : UInt8 := 0
  mss : UInt16 := 0
  wl1 : TcpSeq := ⟨0⟩
  wl2 : TcpSeq := ⟨0⟩
  initial : TcpSeq := ⟨0⟩
  data : List UnackedSegment := []
  unsent : List Packet := []
  unsentLen : UInt32 := 0
  closed : Bool := false
  allDataAckedPromise : Bool := false
  maxQueueSpace : UInt64 := 212992
  currentQueueSpace : UInt64 := 0
  sendAvailablePromise : Bool := false
  rttvar : Int := 0
  srtt : Int := 0
  firstRtoSample : Bool := true
  synTxTime : Int := 0
  cwnd : UInt32 := 0
  ssthresh : UInt32 := 0
  dupacks : UInt16 := 0
  synRetransmit : Nat := 0
  finRetransmit : Nat := 0
  limitedTransfer : UInt32 := 0
  partialAck : UInt32 := 0
  recover : TcpSeq := ⟨0⟩
  windowProbe : Bool := false
  zeroWindowProbingOut : UInt8 := 0
  /-- history: every byte given to `send` -/
  stream : Bytes := []
  deriving DecidableEq, Repr

/-- `struct receive`. -/
structure Receive where
  next : TcpSeq := ⟨0⟩
  window : UInt32 := 0
  windowScale : UInt8 := 0
  mss : UInt16 := 0
  initial : TcpSeq := ⟨0⟩
  data : List Packet := []
  dataSize : Nat := 0
  outOfOrder : List (TcpSeq × Packet) := []
  dataReceivedPromise : Bool := false
  maxReceiveBufSize : Nat := 3737600
  /-- history: every byte ever moved into `data` -/
  delivered : Bytes := []
  deriving DecidableEq, Repr

/-- `offload_info`, as far as `output_one` sets it. -/
structure OffloadInfo where
  needsCsum : Bool := false
  tcpHdrLen : UInt8 := 20
  tsoSegSize : UInt16 := 0
  deriving DecidableEq, Repr

/-- A segment as `output_one` queues it: the header that is prepended to the payload,
with its options. -/
structure OutSegment where
  hdr : TcpHdr
  options : Bytes
  payload : Packet
  offload : OffloadInfo
  deriving DecidableEq, Repr

/-- The promises of a connection. -/
inductive Waiter
  | connectDone | dataReceived | allDataAcked | sendAvailable
  deriving DecidableEq, Repr

/-- What a waiter gets. -/
inductive Outcome
  | value | resetError | connectError | refusedError | abortedError | arpTimeoutError
  deriving DecidableEq, Repr

/-- What a connection does outside of itself. -/
inductive Effect
  /-- a promise is resolved -/
  | wake (w : Waiter) (o : Outcome)
  /-- `_tcp.poll_tcb` -/
  | pollTcb
  /-- `_tcp.respond_with_reset` -/
  | respondWithReset (th : TcpHdr)
  /-- `_tcp.add_connected_tcb` -/
  | addConnectedTcb
  /-- `remove_from_tcbs` -/
  | removeFromTcbs
  deriving DecidableEq, Repr

/-- `class tcb`. `closeTasks` counts the continuations of `close()` that are ready to run. -/
structure Tcb where
  state : TcpState := .closed
  localIp : UInt32 := 0
  foreignIp : UInt32 := 0
  localPort : UInt16 := 0
  foreignPort : UInt16 := 0
  snd : Send := {}
  rcv : Receive := {}
  option : TcpOption := {}
  delayedAck : Option Int := none
  rto : Int := 1000
  persistTimeOut : Int := 1000
  retransmitTimer : Option Int := none
  persistTimer : Option Int := none
  nrFullSegReceived : UInt16 := 0
  packetq : List OutSegment := []
  pollActive : Bool := false
  closeTasks : Nat := 0
  effects : List Effect := []
  /-- history: the packets `get_packet` returned -/
  handed : List OutSegment := []
  deriving DecidableEq, Repr

/-- `_rto_min`, `_rto_max`, `_rto_clk_granularity`, in milliseconds. -/
def rtoMin : Int := 1000
def rtoMax : Int := 60000
def rtoClkGranularity : Int := 1

/-- `_max_nr_retransmit`. -/
def maxNrRetransmit : Nat := 5

namespace Tcb

/-- Append to the record of what happened outside. -/
def emit (e : Effect) (tcb : Tcb) : Tcb := { tcb with effects := tcb.effects ++ [e] }

/-- `syn_needs_on`. -/
def synNeedsOn (tcb : Tcb) : Bool := tcb.state = .synSent || tcb.state = .synReceived

/-- `fin_needs_on`. -/
def finNeedsOn (tcb : Tcb) : Bool :=
  (tcb.state = .finWait1 || tcb.state = .closing || tcb.state = .lastAck) && tcb.snd.closed &&
    tcb.snd.unsentLen = 0

/-- `ack_needs_on`. -/
def ackNeedsOn (tcb : Tcb) : Bool :=
  !(tcb.state = .closed || tcb.state = .listen || tcb.state = .synSent)

/-- `foreign_will_not_send`. -/
def foreignWillNotSend (tcb : Tcb) : Bool :=
  tcb.state = .closing || tcb.state = .timeWait || tcb.state = .closeWait ||
    tcb.state = .lastAck || tcb.state = .closed

/-- `output`: put the connection on the polling list, unless it is there. -/
def output (tcb : Tcb) : Tcb :=
  if tcb.pollActive then tcb else emit .pollTcb { tcb with pollActive := true }

/-- `start_retransmit_timer`. -/
def startRetransmitTimer (now : Int) (tcb : Tcb) : Tcb :=
  { tcb with retransmitTimer := some (now + tcb.rto) }

/-- `start_persist_timer`. -/
def startPersistTimer (now : Int) (tcb : Tcb) : Tcb :=
  { tcb with persistTimer := some (now + tcb.persistTimeOut) }

/-- `clear_delayed_ack`. -/
def clearDelayedAck (tcb : Tcb) : Tcb := { tcb with delayedAck := none }

/-- `signal_data_received`. -/
def signalDataReceived (tcb : Tcb) : Tcb :=
  if tcb.rcv.dataReceivedPromise then
    emit (.wake .dataReceived .value)
      { tcb with rcv := { tcb.rcv with dataReceivedPromise := false } }
  else tcb

/-- `signal_all_data_acked`. The waiter is the continuation of `close()`. -/
def signalAllDataAcked (tcb : Tcb) : Tcb :=
  if tcb.snd.allDataAckedPromise && tcb.snd.unsentLen = 0 then
    emit (.wake .allDataAcked .value)
      { tcb with
        snd := { tcb.snd with allDataAckedPromise := false }
        closeTasks := tcb.closeTasks + 1 }
  else tcb

/-- `signal_send_available`. -/
def signalSendAvailable (tcb : Tcb) : Tcb :=
  if tcb.snd.sendAvailablePromise && tcb.snd.maxQueueSpace > tcb.snd.currentQueueSpace then
    emit (.wake .sendAvailable .value)
      { tcb with snd := { tcb.snd with sendAvailablePromise := false } }
  else tcb

/-- `get_default_receive_window_size`. -/
def getDefaultReceiveWindowSize (rcv : Receive) : UInt32 := 29200 <<< rcv.windowScale.toUInt32

/-- `get_modified_receive_window_size`. -/
def getModifiedReceiveWindowSize (rcv : Receive) : UInt32 :=
  let left : UInt32 :=
    if rcv.dataSize > rcv.maxReceiveBufSize then 0
    else UInt32.ofNat (rcv.maxReceiveBufSize - rcv.dataSize)
  min left (getDefaultReceiveWindowSize rcv)

/-- `local_mss`. -/
def localMss (hw : HwFeatures) : UInt16 := hw.mtu - 20 - 20

/-- `cleanup`. -/
def cleanup (tcb : Tcb) : Tcb :=
  emit .removeFromTcbs
    { tcb with
      snd := { tcb.snd with unsent := [], data := [] }
      rcv := { tcb.rcv with outOfOrder := [], dataSize := 0, data := [] }
      retransmitTimer := none
      delayedAck := none }

/-- Fail the waiter of a promise of the receive side. -/
def failDataReceived (o : Outcome) (tcb : Tcb) : Tcb :=
  if tcb.rcv.dataReceivedPromise then
    emit (.wake .dataReceived o) { tcb with rcv := { tcb.rcv with dataReceivedPromise := false } }
  else tcb

/-- Fail the waiters of the promises of the send side. -/
def failSend (tcb : Tcb) : Tcb :=
  let tcb :=
    if tcb.snd.allDataAckedPromise then
      emit (.wake .allDataAcked .resetError)
        { tcb with snd := { tcb.snd with allDataAckedPromise := false } }
    else tcb
  if tcb.snd.sendAvailablePromise then
    emit (.wake .sendAvailable .resetError)
      { tcb with snd := { tcb.snd with sendAvailablePromise := false } }
  else tcb

/-- `do_reset`. -/
def doReset (tcb : Tcb) : Tcb :=
  failSend (failDataReceived .resetError (cleanup { tcb with state := .closed }))

/-- `do_time_wait`. -/
def doTimeWait (tcb : Tcb) : Tcb := cleanup { tcb with state := .timeWait }

/-- `do_closed`. -/
def doClosed (tcb : Tcb) : Tcb := cleanup { tcb with state := .closed }

/-- `do_setup_isn`, with the number `get_isn` draws. -/
def doSetupIsn (isn : TcpSeq) (tcb : Tcb) : Tcb :=
  { tcb with
    snd := { tcb.snd with initial := isn, unacknowledged := isn, next := isn.add 1, recover := isn } }

/-- `do_local_fin_acked`. -/
def doLocalFinAcked (tcb : Tcb) : Tcb :=
  { tcb with
    snd := { tcb.snd with
      unacknowledged := tcb.snd.unacknowledged.add 1, next := tcb.snd.next.add 1 } }

/-- `do_syn_sent`. -/
def doSynSent (now : Int) (tcb : Tcb) : Tcb :=
  output { tcb with state := .synSent, snd := { tcb.snd with synTxTime := now } }

/-- `do_syn_received`. -/
def doSynReceived (now : Int) (tcb : Tcb) : Tcb :=
  output { tcb with state := .synReceived, snd := { tcb.snd with synTxTime := now } }

/-- `update_rto`. -/
def updateRto (now txTime : Int) (tcb : Tcb) : Tcb :=
  let r := now - txTime
  let snd :=
    if tcb.snd.firstRtoSample then
      { tcb.snd with firstRtoSample := false, rttvar := r.tdiv 2, srtt := r }
    else
      let delta := if tcb.snd.srtt > r then tcb.snd.srtt - r else r - tcb.snd.srtt
      { tcb.snd with
        rttvar := (tcb.snd.rttvar * 3).tdiv 4 + delta.tdiv 4
        srtt := (tcb.snd.srtt * 7).tdiv 8 + r.tdiv 8 }
  let rto := snd.srtt + max rtoClkGranularity (4 * snd.rttvar)
  { tcb with snd := snd, rto := min (max rto rtoMin) rtoMax }

/-- `do_established`. -/
def doEstablished (now : Int) (tcb : Tcb) : Tcb :=
  emit (.wake .connectDone .value) (updateRto now tcb.snd.synTxTime { tcb with state := .established })

/-- `update_cwnd`. -/
def updateCwnd (ackedBytes : UInt32) (snd : Send) : Except Fault Send :=
  let smss := snd.mss.toUInt32
  if snd.cwnd < snd.ssthresh then
    -- in slow start phase
    .ok { snd with cwnd := snd.cwnd + min ackedBytes smss }
  else if snd.cwnd = 0 then .error .divideByZero
  else
    -- in congestion avoidance phase
    .ok { snd with cwnd := snd.cwnd + max 1 (smss * smss / snd.cwnd) }

/-- `exit_fast_recovery`. -/
def exitFastRecovery (snd : Send) : Send :=
  { snd with dupacks := 0, limitedTransfer := 0, partialAck := 0 }

/-- `flight_size`. -/
def flightSize (snd : Send) : UInt32 :=
  snd.data.foldl (fun size seg => size + UInt32.ofNat seg.p.len) 0

end Tcb

end Tcp

end Seastar.Net
