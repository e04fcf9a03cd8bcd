import Seastar.Net.Tcp.Output

/-!
The receiving half of `tcp::tcb`: the handlers of a segment in LISTEN, in SYN_SENT
and in the other states. `input_handle_other_state` is cut at its numbered
comments, one definition for each part.
-/

namespace Seastar.Net.Tcp.Tcb

/-! ## Acknowledged data -/

/-- SND.UNA moves over the segment; a retransmitted segment does not set the RTO. -/
def ackSegment (now : Int) (seg : UnackedSegment) (tcb : Tcb) : Tcb :=
  let tcb := { tcb with
    snd := { tcb.snd with
      unacknowledged := tcb.snd.unacknowledged.add (UInt32.ofNat seg.p.len) } }
  if seg.nrTransmits = 0 then updateRto now seg.txTime tcb else tcb

/-- The space of an acknowledged segment is given back to the sender. -/
def freeQueueSpace (seg : UnackedSegment) (tcb : Tcb) : Tcb :=
  signalSendAvailable { tcb with
    snd := { tcb.snd with
      currentQueueSpace := tcb.snd.currentQueueSpace - seg.dataLen.toUInt64 } }

/-- One turn of "Full ACK of segment": `seg` is at the front of the queue, `data` behind it. -/
def ackOne (now : Int) (seg : UnackedSegment) (data : List UnackedSegment) (tcb : Tcb) :
    Except Fault Tcb := do
  let tcb := ackSegment now seg tcb
  let snd ← updateCwnd (UInt32.ofNat seg.p.len) tcb.snd
  let tcb := freeQueueSpace seg { tcb with snd := snd }
  .ok { tcb with snd := { tcb.snd with data := data } }

/-- "Full ACK of segment": the loop of `data_segment_acked`. -/
def ackWhole (now : Int) (segAck : TcpSeq) (total : UInt32) :
    List UnackedSegment → Tcb → Except Fault (UInt32 × Tcb)
  | [], tcb => .ok (total, tcb)
  | seg :: data, tcb =>
    if (tcb.snd.unacknowledged.add (UInt32.ofNat seg.p.len)).le segAck then do
      let tcb ← ackOne now seg data tcb
      ackWhole now segAck (total + UInt32.ofNat seg.p.len) data tcb
    else .ok (total, tcb)

/-- `unacked_seg.p.trim_front(acked_bytes)` for the first segment, when there is one. -/
def trimFirst (ackedBytes : Nat) : List UnackedSegment → Except Fault (List UnackedSegment)
  | [] => .ok []
  | seg :: data => (seg.p.trimFront ackedBytes).map fun p => { seg with p := p } :: data

/-- "Partial ACK of segment": the end of `data_segment_acked`. -/
def ackPart (segAck : TcpSeq) (total : UInt32) (tcb : Tcb) : Except Fault (UInt32 × Tcb) := do
  if tcb.snd.unacknowledged.lt segAck then
    let data ← trimFirst (sizeOfInt (segAck.diff tcb.snd.unacknowledged)) tcb.snd.data
    let acked := segAck.sub tcb.snd.unacknowledged
    let snd ← updateCwnd acked { tcb.snd with data := data, unacknowledged := segAck }
    .ok (total + acked, { tcb with snd := snd })
  else .ok (total, tcb)

/-- `data_segment_acked`. -/
def dataSegmentAcked (now : Int) (segAck : TcpSeq) (tcb : Tcb) : Except Fault (UInt32 × Tcb) := do
  let (total, tcb) ← ackWhole now segAck 0 tcb.snd.data tcb
  ackPart segAck total tcb

/-- `update_window` of `input_handle_other_state`. -/
def updateWindow (now : Int) (th : TcpHdr) (segSeq : TcpSeq) (tcb : Tcb) : Tcb :=
  let window := th.window.toUInt32 <<< tcb.snd.windowScale.toUInt32
  let tcb := { tcb with
    snd := { tcb.snd with
      window := window, wl1 := segSeq, wl2 := th.ack, zeroWindowProbingOut := 0 } }
  if window = 0 then startPersistTimer now { tcb with persistTimeOut := tcb.rto }
  else { tcb with persistTimer := none }

/-- `set_retransmit_timer` of `input_handle_other_state`. -/
def setRetransmitTimer (now : Int) (tcb : Tcb) : Tcb :=
  if tcb.snd.data.isEmpty then signalAllDataAcked { tcb with retransmitTimer := none }
  else startRetransmitTimer now tcb

/-- What an acknowledgement of new data does after `data_segment_acked` and the update
of the send window. -/
def afterNewAck (hw : HwFeatures) (now : Int) (segAck : TcpSeq) (ackedBytes : UInt32) (tcb : Tcb) :
    Except Fault Tcb := do
  let smss := tcb.snd.mss.toUInt32
  if tcb.snd.dupacks ≥ 3 then
    if segAck.gt tcb.snd.recover then
      -- full ack: leave fast recovery
      let cwnd := min tcb.snd.ssthresh (max (flightSize tcb.snd) smss + smss)
      .ok (setRetransmitTimer now
        { tcb with snd := exitFastRecovery { tcb.snd with cwnd := cwnd } })
    else
      -- partial ack: retransmit the first unacknowledged segment, deflate the window
      let tcb ← fastRetransmit hw now tcb
      let cwnd := tcb.snd.cwnd - ackedBytes
      let cwnd := if ackedBytes ≥ smss then cwnd + smss else cwnd
      let tcb := { tcb with
        snd := { tcb.snd with cwnd := cwnd, partialAck := tcb.snd.partialAck + 1 } }
      .ok (if tcb.snd.partialAck = 1 then startRetransmitTimer now tcb else tcb)
  else .ok (setRetransmitTimer now { tcb with snd := exitFastRecovery tcb.snd })

/-- The acknowledgement lets the send window be updated. -/
def updatesWindow (segSeq segAck : TcpSeq) (snd : Send) : Bool :=
  snd.wl1.lt segSeq || (snd.wl1 = segSeq && snd.wl2.le segAck)

/-- "Remote ACKed data we sent". -/
def ackNewData (hw : HwFeatures) (now : Int) (th : TcpHdr) (segSeq : TcpSeq) (tcb : Tcb) :
    Except Fault Tcb := do
  let (ackedBytes, tcb) ← dataSegmentAcked now th.ack tcb
  let tcb := if updatesWindow segSeq th.ack tcb.snd then updateWindow now th segSeq tcb else tcb
  afterNewAck hw now th.ack ackedBytes tcb

/-- RFC6582 Step 3.2 of the third duplicate ACK: enter fast retransmit, unless the ACK
does not cover `_snd.recover`. -/
def enterFastRetransmit (hw : HwFeatures) (now : Int) (segAck : TcpSeq) (tcb : Tcb) :
    Except Fault Tcb :=
  if (segAck.back 1).gt tcb.snd.recover then
    fastRetransmit hw now { tcb with
      snd := { tcb.snd with
        recover := tcb.snd.next.back 1
        ssthresh := max ((flightSize tcb.snd - tcb.snd.limitedTransfer) / 2)
          (2 * tcb.snd.mss.toUInt32) } }
  else .ok tcb

/-- A duplicate ACK; the flag is `do_output_data`. -/
def duplicateAck (hw : HwFeatures) (now : Int) (segAck : TcpSeq) (tcb : Tcb) :
    Except Fault (Tcb × Bool) := do
  let tcb := { tcb with snd := { tcb.snd with dupacks := tcb.snd.dupacks + 1 } }
  let smss := tcb.snd.mss.toUInt32
  -- 3 duplicated ACKs trigger a fast retransmit
  if tcb.snd.dupacks = 1 || tcb.snd.dupacks = 2 then .ok (tcb, true)
  else if tcb.snd.dupacks = 3 then
    let tcb ← enterFastRetransmit hw now segAck tcb
    .ok ({ tcb with snd := { tcb.snd with cwnd := tcb.snd.ssthresh + 3 * smss } }, false)
  else if tcb.snd.dupacks > 3 then
    .ok ({ tcb with snd := { tcb.snd with cwnd := tcb.snd.cwnd + smss } }, true)
  else .ok (tcb, false)

/-- A part of the handler either returns or goes on, with the flag `do_output_data`. -/
inductive Flow
  | ret (tcb : Tcb)
  | go (tcb : Tcb) (doOutputData : Bool)

/-- The segment acknowledges new data: SND.UNA < SEG.ACK =< SND.NXT. -/
def acksNewData (segAck : TcpSeq) (snd : Send) : Bool :=
  snd.unacknowledged.lt segAck && segAck.le snd.next

/-- The segment counts as a duplicate ACK. -/
def isDuplicateAck (th : TcpHdr) (segLen : Nat) (snd : Send) : Bool :=
  snd.next.diff snd.unacknowledged - snd.zeroWindowProbingOut.toNat > 0 &&
    !snd.data.isEmpty && segLen = 0 && !th.fFin && !th.fSyn && th.ack = snd.unacknowledged &&
    th.window.toUInt32 <<< snd.windowScale.toUInt32 = snd.window

/-- "4.5 fifth check the ACK field" in ESTABLISHED and CLOSE_WAIT. -/
def ackEstablished (hw : HwFeatures) (now : Int) (th : TcpHdr) (segSeq : TcpSeq) (segLen : Nat)
    (tcb : Tcb) : Except Fault Flow := do
  if acksNewData th.ack tcb.snd then
    let tcb ← ackNewData hw now th segSeq tcb
    .ok (.go tcb true)
  else if isDuplicateAck th segLen tcb.snd then
    let (tcb, doOutputData) ← duplicateAck hw now th.ack tcb
    .ok (.go tcb doOutputData)
  else if th.ack.gt tcb.snd.next then
    -- the ACK acks something not yet sent
    .ok (.ret (output tcb))
  else if tcb.snd.window = 0 && th.window > 0 then .ok (.go (updateWindow now th segSeq tcb) true)
  else .ok (.go tcb false)

/-- "4.5" in FIN_WAIT_1 to TIME_WAIT. -/
def ackFin (th : TcpHdr) (doOutputData : Bool) (tcb : Tcb) : Flow :=
  let finAcked := th.ack = tcb.snd.next.add 1
  if tcb.state = .finWait1 then
    if finAcked then .go (doLocalFinAcked { tcb with state := .finWait2 }) doOutputData
    else .go tcb doOutputData
  else if tcb.state = .closing then
    .ret (if finAcked then doTimeWait (doLocalFinAcked tcb) else tcb)
  else if tcb.state = .lastAck then
    if finAcked then .ret (doClosed (doLocalFinAcked tcb)) else .go tcb doOutputData
  else .go tcb doOutputData

/-- "4.5" in SYN_RECEIVED: enter ESTABLISHED or reset. -/
def ackSynReceived (now : Int) (th : TcpHdr) (tcb : Tcb) : Flow :=
  if tcb.state = .synReceived then
    if tcb.snd.unacknowledged.le th.ack && th.ack.le tcb.snd.next then
      .go (emit .addConnectedTcb (doEstablished now tcb)) false
    else .ret (emit (.respondWithReset th) tcb)
  else .go tcb false

/-- "4.5 fifth check the ACK field". -/
def ackField (hw : HwFeatures) (now : Int) (th : TcpHdr) (segSeq : TcpSeq) (segLen : Nat)
    (tcb : Tcb) : Except Fault Flow := do
  match ackSynReceived now th tcb with
  | .ret tcb => .ok (.ret tcb)
  | .go tcb _ =>
    if tcb.state = .established || tcb.state = .closeWait then
      ackEstablished hw now th segSeq segLen tcb
    else .ok (ackFin th false tcb)

/-! ## Segment text -/

/-- `segment_acceptable`. -/
def segmentAcceptable (segSeq : TcpSeq) (segLen : Nat) (rcv : Receive) : Bool :=
  let stop := rcv.next.add rcv.window
  let last := (segSeq.add (UInt32.ofNat segLen)).back 1
  if segLen = 0 && rcv.window = 0 then segSeq = rcv.next
  else if segLen = 0 then rcv.next.le segSeq && segSeq.lt stop
  else if rcv.window > 0 then
    (rcv.next.le segSeq && segSeq.lt stop) || (rcv.next.le last && last.lt stop)
  else false

/-- `should_send_ack`. -/
def shouldSendAck (now : Int) (segLen : UInt16) (tcb : Tcb) : Bool × Tcb :=
  if segLen > tcb.rcv.mss then (true, { tcb with nrFullSegReceived := 0, delayedAck := none })
  else if segLen = tcb.rcv.mss && tcb.nrFullSegReceived ≥ 1 then
    (true, { tcb with nrFullSegReceived := 0, delayedAck := none })
  else
    let tcb :=
      if segLen = tcb.rcv.mss then { tcb with nrFullSegReceived := tcb.nrFullSegReceived + 1 }
      else tcb
    if tcb.delayedAck.isSome then (false, tcb)
    else (false, { tcb with delayedAck := some (now + 200) })

/-- `insert_out_of_order`. -/
def insertOutOfOrder (segSeq : TcpSeq) (p : Packet) (rcv : Receive) : Except Fault Receive := do
  let map ← PacketMerger.merge segSeq p rcv.outOfOrder
  .ok { rcv with outOfOrder := map }

/-- The loop of `merge_out_of_order`. The packet that is moved into `data` is asked for
its length afterwards, when its `_impl` is null. -/
def mergeLoop (merged : Bool) (rcv : Receive) :
    List (TcpSeq × Packet) → Except Fault (Bool × Receive)
  | [] => .ok (merged, { rcv with outOfOrder := [] })
  | (segBeg, p) :: map =>
    let segEnd := segBeg.add (UInt32.ofNat p.len)
    if segBeg.le rcv.next && rcv.next.lt segEnd then do
      let p ← p.trimFront (sizeOfInt (rcv.next.diff segBeg))
      let _rcv : Receive := { rcv with
        next := rcv.next.add (UInt32.ofNat p.len)
        data := rcv.data ++ [p]
        delivered := rcv.delivered ++ p.bytes }
      .error .movedPacket
    else if rcv.next.ge segEnd then mergeLoop merged rcv map
    else .ok (merged, { rcv with outOfOrder := (segBeg, p) :: map })

/-- `merge_out_of_order`. -/
def mergeOutOfOrder (rcv : Receive) : Except Fault (Bool × Receive) :=
  mergeLoop false rcv rcv.outOfOrder

/-- "Once the TCP takes responsibility for the data": the packet goes to the user. -/
def takeText (p : Packet) (rcv : Receive) : Receive :=
  { rcv with
    dataSize := rcv.dataSize + p.len
    data := rcv.data ++ [p]
    next := rcv.next.add (UInt32.ofNat p.len)
    delivered := rcv.delivered ++ p.bytes }

/-- "4.7 seventh, process the segment text"; the flag is `do_output`. -/
def segmentText (now : Int) (p : Packet) (tcb : Tcb) : Except Fault (Bool × Tcb) := do
  if p.len = 0 then .ok (false, tcb)
  else
    let (merged, rcv) ← mergeOutOfOrder (takeText p tcb.rcv)
    let tcb := signalDataReceived
      { tcb with rcv := { rcv with window := getModifiedReceiveWindowSize rcv } }
    -- an immediate ACK when the segment fills in all or part of a gap
    .ok (if merged then (true, tcb) else shouldSendAck now (UInt16.ofNat p.len) tcb)

/-- The part of "4.8" that runs when the FIN is next in sequence, up to the change of
state. -/
def takeFin (finSeq : TcpSeq) (tcb : Tcb) : Tcb :=
  output (clearDelayedAck
    (signalDataReceived { tcb with rcv := { tcb.rcv with next := finSeq.add 1 } }))

/-- "4.8 eighth, check the FIN bit"; the flag is `do_output`. -/
def segmentFin (finSeq : TcpSeq) (doOutput doOutputData : Bool) (tcb : Tcb) : Flow × Bool :=
  if finSeq = tcb.rcv.next then
    let tcb := takeFin finSeq tcb
    if tcb.state = .synReceived || tcb.state = .established then
      (.go { tcb with state := .closeWait } doOutputData, false)
    else if tcb.state = .finWait1 then (.go { tcb with state := .closing } doOutputData, false)
    else if tcb.state = .finWait2 then (.ret (doTimeWait tcb), false)
    else (.go tcb doOutputData, false)
  else (.go tcb doOutputData, doOutput)

/-- The end of `input_handle_other_state`. -/
def finishInput (doOutput doOutputData : Bool) (tcb : Tcb) : Tcb :=
  if doOutput then output (clearDelayedAck tcb)
  else if doOutputData then
    let (may, tcb) := mayTransmit tcb
    if may then output (clearDelayedAck tcb) else tcb
  else tcb

/-- The states that take segment text. -/
def takesText (tcb : Tcb) : Bool :=
  tcb.state = .established || tcb.state = .finWait1 || tcb.state = .finWait2

/-- The states after the FIN of the peer, which ignore segment text. -/
def ignoresText (tcb : Tcb) : Bool :=
  tcb.state = .closeWait || tcb.state = .closing || tcb.state = .lastAck || tcb.state = .timeWait

/-- `input_handle_other_state` from "4.8" on. -/
def finAndOutput (th : TcpHdr) (finSeq : TcpSeq) (doOutput doOutputData : Bool) (tcb : Tcb) : Tcb :=
  if th.fFin then
    if tcb.state = .closed || tcb.state = .listen || tcb.state = .synSent then tcb
    else
      match segmentFin finSeq doOutput doOutputData tcb with
      | (.ret tcb, _) => tcb
      | (.go tcb doOutputData, doOutput) => finishInput doOutput doOutputData tcb
  else finishInput doOutput doOutputData tcb

/-- `input_handle_other_state` from "4.7" on. -/
def textAndFin (now : Int) (th : TcpHdr) (segSeq : TcpSeq) (p : Packet) (doOutputData : Bool)
    (tcb : Tcb) : Except Fault Tcb :=
  let finSeq := segSeq.add (UInt32.ofNat p.len)
  if tcb.takesText then do
    let (doOutput, tcb) ← segmentText now p tcb
    .ok (finAndOutput th finSeq doOutput doOutputData tcb)
  else if tcb.ignoresText then .ok tcb
  else .ok (finAndOutput th finSeq false doOutputData tcb)

/-- "4.2 second check the RST bit". -/
def resetReceived (tcb : Tcb) : Option Tcb :=
  match tcb.state with
  | .synReceived => some (doReset (emit (.wake .connectDone .refusedError) tcb))
  | .established | .finWait1 | .finWait2 | .closeWait => some (doReset tcb)
  | .closing | .lastAck | .timeWait => some (doClosed tcb)
  | _ => none

/-- The bytes of a segment in front of RCV.NXT. -/
def dupLen (segSeq : TcpSeq) (segLen : Nat) (rcv : Receive) : Nat :=
  if segSeq.lt rcv.next then min (rcv.next.sub segSeq).toNat segLen else 0

/-- `input_handle_other_state` from "4.2" on, for a segment that starts at RCV.NXT. -/
def inOrder (hw : HwFeatures) (now : Int) (th : TcpHdr) (segSeq : TcpSeq) (p : Packet)
    (tcb : Tcb) : Except Fault Tcb := do
  match if th.fRst then resetReceived tcb else none with
  | some tcb => .ok tcb
  | none =>
    -- 4.4 fourth, check the SYN bit
    if th.fSyn then .ok (doReset (emit (.respondWithReset th) tcb))
    else if !th.fAck then .ok tcb
    else
      match ← ackField hw now th segSeq p.len tcb with
      | .ret tcb => .ok tcb
      | .go tcb doOutputData => textAndFin now th segSeq p doOutputData tcb

/-- `input_handle_other_state`. -/
def inputHandleOtherState (hw : HwFeatures) (now : Int) (th : TcpHdr) (p : Packet) (tcb : Tcb) :
    Except Fault Tcb := do
  let p ← p.trimFront (th.dataOffset * 4)
  -- 4.1 first check sequence number
  if !segmentAcceptable th.seq p.len tcb.rcv then .ok (output tcb)
  else
    -- ignore already acknowledged data
    let dup := dupLen th.seq p.len tcb.rcv
    let p ← p.trimFront dup
    let segSeq := th.seq.add (UInt32.ofNat dup)
    if segSeq ≠ tcb.rcv.next then
      let rcv ← insertOutOfOrder segSeq p tcb.rcv
      .ok (output { tcb with rcv := rcv })
    else inOrder hw now th segSeq p tcb

/-! ## The other handlers -/

/-- `init_from_options`, with the option area at `optStart`. -/
def initFromOptions (hw : HwFeatures) (th : TcpHdr) (optStart : Bytes) (optLen : Nat) (tcb : Tcb) :
    Except Fault Tcb := do
  let option ← tcb.option.parse optStart optLen
  let option := { option with localMss := localMss hw }
  let rcv := { tcb.rcv with windowScale := option.localWinScale, mss := option.localMss }
  let window := th.window.toUInt32 <<< option.remoteWinScale.toUInt32
  let mss := option.remoteMss.toUInt32
  .ok { tcb with
    option := option
    rcv := { rcv with window := getDefaultReceiveWindowSize rcv }
    snd := { tcb.snd with
      windowScale := option.remoteWinScale
      mss := option.remoteMss
      window := window
      wl1 := th.seq
      wl2 := th.ack
      cwnd := if 2190 < mss then 2 * mss else if 1095 < mss then 3 * mss else 4 * mss
      ssthresh := window } }

/-- The start of the LISTEN and SYN_SENT handlers: the pointer to the options, the rest
of the packet. A null `get_header` result is only followed by the option parser,
and the trim comes first. -/
def splitOptions (th : TcpHdr) (p : Packet) : Except Fault (Option Packet.Header × Packet) := do
  let h := p.getHeader 0 (th.dataOffset * 4)
  let rest ← (h.elim p Packet.Header.p).trimFront (th.dataOffset * 4)
  .ok (h, rest)

/-- Follow `opt_start`, which points 20 bytes behind the header. -/
def optionArea : Option Packet.Header → Except Fault Bytes
  | none => .error .nullHeader
  | some h => .ok (h.mem.drop tcpHdrLen)

/-- `input_handle_listen_state`. -/
def inputHandleListenState (hw : HwFeatures) (now : Int) (isn : TcpSeq) (th : TcpHdr) (p : Packet)
    (tcb : Tcb) : Except Fault Tcb := do
  let (h, _) ← splitOptions th p
  let tcb := { tcb with rcv := { tcb.rcv with next := th.seq.add 1, initial := th.seq } }
  let tcb := doSetupIsn isn tcb
  let optStart ← optionArea h
  let tcb ← initFromOptions hw th optStart (th.dataOffset * 4 - tcpHdrLen) tcb
  .ok (doSynReceived now tcb)

/-- RCV.NXT and IRS are set, and SND.UNA if there is an ACK. -/
def acceptSyn (th : TcpHdr) (tcb : Tcb) : Tcb :=
  { tcb with
    rcv := { tcb.rcv with next := th.seq.add 1, initial := th.seq }
    snd := if th.fAck then { tcb.snd with unacknowledged := th.ack } else tcb.snd }

/-- "3.4 fourth check the SYN bit". -/
def synBit (hw : HwFeatures) (now : Int) (th : TcpHdr) (h : Option Packet.Header) (tcb : Tcb) :
    Except Fault Tcb := do
  let tcb := acceptSyn th tcb
  if tcb.snd.unacknowledged.gt tcb.snd.initial then
    let optStart ← optionArea h
    let tcb ← initFromOptions hw th optStart (th.dataOffset * 4 - tcpHdrLen) tcb
    .ok (output (doEstablished now tcb))
  else .ok (doSynReceived now tcb)

/-- `input_handle_syn_sent_state`. -/
def inputHandleSynSentState (hw : HwFeatures) (now : Int) (th : TcpHdr) (p : Packet) (tcb : Tcb) :
    Except Fault Tcb := do
  let (h, _) ← splitOptions th p
  -- 3.1 first check the ACK bit
  if th.fAck && (th.ack.le tcb.snd.initial || th.ack.gt tcb.snd.next) then
    .ok (emit (.respondWithReset th) tcb)
  else
    let acceptable := th.fAck && tcb.snd.unacknowledged.le th.ack && th.ack.le tcb.snd.next
    -- 3.2 second check the RST bit
    if th.fRst then .ok (if acceptable then doReset tcb else tcb)
    else if th.fSyn then synBit hw now th h tcb
    else .ok tcb

end Seastar.Net.Tcp.Tcb
