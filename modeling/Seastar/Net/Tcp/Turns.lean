import Seastar.Net.Tcp.StepSpec

/-!
What one event does to the core of a connection: its state, the sequence numbers and
windows, the queues and counters of the sending half, the negotiated options and
the changes it asks for in the table of connections. Everything else (timers,
promises, the receive queues, congestion control) only moves around it.

An event is a sequence of turns, and a property of runs has to look at each kind
of turn once. `CleansUp` says when an event ends with `cleanup`.
-/

namespace Seastar.Net.Tcp

/-- An effect that leaves the table of connections and the backlog alone. -/
def Effect.idle : Effect → Bool
  | .addConnectedTcb | .removeFromTcbs => false
  | _ => true

namespace Tcb

open Lib

/-- What a connection asked of the table of connections. -/
def tableEffects (tcb : Tcb) : List Effect := tcb.effects.filter fun e => !e.idle

/-- The core of a connection. -/
structure Core where
  state : TcpState
  localPort : UInt16
  unacknowledged : TcpSeq
  next : TcpSeq
  initial : TcpSeq
  window : UInt32
  windowScale : UInt8
  mss : UInt16
  wl1 : TcpSeq
  wl2 : TcpSeq
  data : List UnackedSegment
  unsent : List Packet
  unsentLen : UInt32
  closed : Bool
  currentQueueSpace : UInt64
  persistTimer : Option Int
  windowProbe : Bool
  rcvWindowScale : UInt8
  rcvMss : UInt16
  option : TcpOption
  table : List Effect

def core (tcb : Tcb) : Core where
  state := tcb.state
  localPort := tcb.localPort
  unacknowledged := tcb.snd.unacknowledged
  next := tcb.snd.next
  initial := tcb.snd.initial
  window := tcb.snd.window
  windowScale := tcb.snd.windowScale
  mss := tcb.snd.mss
  wl1 := tcb.snd.wl1
  wl2 := tcb.snd.wl2
  data := tcb.snd.data
  unsent := tcb.snd.unsent
  unsentLen := tcb.snd.unsentLen
  closed := tcb.snd.closed
  currentQueueSpace := tcb.snd.currentQueueSpace
  persistTimer := tcb.persistTimer
  windowProbe := tcb.snd.windowProbe
  rcvWindowScale := tcb.rcv.windowScale
  rcvMss := tcb.rcv.mss
  option := tcb.option
  table := tcb.tableEffects

/-- The core is left alone. -/
def Steady (a b : Tcb) : Prop := b.core = a.core

theorem Steady.refl (a : Tcb) : Steady a a := rfl

theorem Steady.trans {a b c : Tcb} (h : Steady a b) (h' : Steady b c) : Steady a c :=
  Eq.trans h' h

theorem Steady.state {a b : Tcb} (h : Steady a b) : b.state = a.state := congrArg Core.state h

theorem Steady.unacknowledged {a b : Tcb} (h : Steady a b) :
    b.snd.unacknowledged = a.snd.unacknowledged := congrArg Core.unacknowledged h

theorem Steady.next {a b : Tcb} (h : Steady a b) : b.snd.next = a.snd.next := congrArg Core.next h

theorem Steady.data {a b : Tcb} (h : Steady a b) : b.snd.data = a.snd.data := congrArg Core.data h

theorem Steady.table {a b : Tcb} (h : Steady a b) : b.tableEffects = a.tableEffects :=
  congrArg Core.table h

/-! ## Calls that leave the core alone -/

theorem tableEffects_emit (e : Effect) (tcb : Tcb) :
    (emit e tcb).tableEffects = tcb.tableEffects ++ if e.idle then [] else [e] := by
  simp only [tableEffects, emit, List.filter_append]
  cases h : e.idle <;> simp [h]

theorem emit_steady {e : Effect} (he : e.idle = true) (tcb : Tcb) : Steady tcb (emit e tcb) := by
  have ht := tableEffects_emit e tcb
  rw [he, if_pos rfl, List.append_nil] at ht
  unfold Steady core
  rw [ht]
  rfl

theorem output_steady (tcb : Tcb) : Steady tcb (output tcb) := by
  unfold output
  split
  · exact .refl tcb
  · exact emit_steady rfl { tcb with pollActive := true }

theorem signalDataReceived_steady (tcb : Tcb) : Steady tcb (signalDataReceived tcb) := by
  unfold signalDataReceived
  split
  · exact emit_steady rfl { tcb with rcv := { tcb.rcv with dataReceivedPromise := false } }
  · exact .refl tcb

theorem signalAllDataAcked_steady (tcb : Tcb) : Steady tcb (signalAllDataAcked tcb) := by
  unfold signalAllDataAcked
  split
  · exact emit_steady rfl { tcb with
      snd := { tcb.snd with allDataAckedPromise := false }
      closeTasks := tcb.closeTasks + 1 }
  · exact .refl tcb

theorem signalSendAvailable_steady (tcb : Tcb) : Steady tcb (signalSendAvailable tcb) := by
  unfold signalSendAvailable
  split
  · exact emit_steady rfl { tcb with snd := { tcb.snd with sendAvailablePromise := false } }
  · exact .refl tcb

theorem failDataReceived_steady (o : Outcome) (tcb : Tcb) : Steady tcb (failDataReceived o tcb) := by
  unfold failDataReceived
  split
  · exact emit_steady rfl { tcb with rcv := { tcb.rcv with dataReceivedPromise := false } }
  · exact .refl tcb

theorem failSend_steady (tcb : Tcb) : Steady tcb (failSend tcb) := by
  have hack : Steady tcb (if tcb.snd.allDataAckedPromise then
      emit (.wake .allDataAcked .resetError)
        { tcb with snd := { tcb.snd with allDataAckedPromise := false } }
    else tcb) := by
    split
    · exact emit_steady rfl { tcb with snd := { tcb.snd with allDataAckedPromise := false } }
    · exact .refl tcb
  unfold failSend
  simp only
  generalize (if tcb.snd.allDataAckedPromise then
      emit (.wake .allDataAcked .resetError)
        { tcb with snd := { tcb.snd with allDataAckedPromise := false } }
    else tcb) = t at hack
  split
  · exact hack.trans
      (emit_steady rfl { t with snd := { t.snd with sendAvailablePromise := false } })
  · exact hack

theorem updateRto_steady (now txTime : Int) (tcb : Tcb) : Steady tcb (updateRto now txTime tcb) := by
  obtain ⟨fs, rv, sr, rto, h⟩ := updateRto_eq now txTime tcb
  rw [h]
  rfl

theorem mayTransmit_steady (tcb : Tcb) : Steady tcb (mayTransmit tcb).2 := by
  obtain ⟨lt, h⟩ := canSend_eq tcb.snd
  show Steady tcb { tcb with snd := (canSend tcb.snd).2 }
  rw [h]
  rfl

theorem waitSendAvailable_steady (tcb : Tcb) : Steady tcb (waitSendAvailable tcb) := by
  unfold waitSendAvailable
  split
  · exact .refl tcb
  · rfl

theorem setRetransmitTimer_steady (now : Int) (tcb : Tcb) :
    Steady tcb (setRetransmitTimer now tcb) := by
  unfold setRetransmitTimer
  split
  · exact signalAllDataAcked_steady { tcb with retransmitTimer := none }
  · rfl

theorem outputUpdateRto_steady (now : Int) (tcb : Tcb) : Steady tcb (outputUpdateRto now tcb) :=
  output_steady tcb

theorem shouldSendAck_steady (now : Int) (segLen : UInt16) (tcb : Tcb) :
    Steady tcb (shouldSendAck now segLen tcb).2 := by
  unfold shouldSendAck
  simp only
  split
  · rfl
  split
  · rfl
  split
  · split
    · rfl
    · rfl
  · split
    · rfl
    · rfl

theorem finishInput_steady (b c : Bool) (tcb : Tcb) : Steady tcb (finishInput b c tcb) := by
  unfold finishInput
  split
  · exact output_steady (clearDelayedAck tcb)
  split
  · have hm := mayTransmit_steady tcb
    simp only
    split
    · exact hm.trans (output_steady (clearDelayedAck (mayTransmit tcb).2))
    · exact hm
  · exact .refl tcb

theorem takeFin_steady (finSeq : TcpSeq) (tcb : Tcb) : Steady tcb (takeFin finSeq tcb) :=
  (signalDataReceived_steady { tcb with rcv := { tcb.rcv with next := finSeq.add 1 } }).trans
    (output_steady (clearDelayedAck
      (signalDataReceived { tcb with rcv := { tcb.rcv with next := finSeq.add 1 } })))

theorem mergeLoop_rcv {b c : Bool} {a r : Receive} {map : List (TcpSeq × Packet)}
    (h : mergeLoop b a map = .ok (c, r)) :
    r.next = a.next ∧ r.windowScale = a.windowScale ∧ r.mss = a.mss := by
  induction map with
  | nil =>
    obtain ⟨-, rfl⟩ := Prod.mk.inj (Except.ok.inj h)
    exact ⟨rfl, rfl, rfl⟩
  | cons e map ih =>
    obtain ⟨k, p⟩ := e
    rw [mergeLoop] at h
    split at h
    · obtain ⟨_, -, h⟩ := bind_ok.mp h
      cases h
    split at h
    · exact ih h
    · obtain ⟨-, rfl⟩ := Prod.mk.inj (Except.ok.inj h)
      exact ⟨rfl, rfl, rfl⟩

/-- The text of a segment moves RCV.NXT over it; the core stays. -/
theorem segmentText_steady {now : Int} {p : Packet} {tcb t : Tcb} {b : Bool}
    (h : segmentText now p tcb = .ok (b, t)) :
    Steady tcb t ∧ t.rcv.next = tcb.rcv.next.add (UInt32.ofNat p.len) := by
  unfold segmentText at h
  split at h
  · rename_i h0
    obtain ⟨-, rfl⟩ := Prod.mk.inj (Except.ok.inj h)
    refine ⟨.refl tcb, ?_⟩
    rw [h0]
    simp [TcpSeq.add]
  · obtain ⟨⟨merged, rcv⟩, hm, h⟩ := bind_ok.mp h
    obtain ⟨hn, hw, hs⟩ := mergeLoop_rcv hm
    have hk : Steady tcb
        { tcb with rcv := { rcv with window := getModifiedReceiveWindowSize rcv } } := by
      unfold Steady core
      simp only [hw, hs]
      rfl
    have hsig := hk.trans (signalDataReceived_steady
      { tcb with rcv := { rcv with window := getModifiedReceiveWindowSize rcv } })
    have hnext : (signalDataReceived
        { tcb with rcv := { rcv with window := getModifiedReceiveWindowSize rcv } }).rcv.next =
          tcb.rcv.next.add (UInt32.ofNat p.len) := by
      obtain ⟨ef, hd⟩ := signalDataReceived_eq
        { tcb with rcv := { rcv with window := getModifiedReceiveWindowSize rcv } }
      rw [hd]
      exact hn
    simp only at h
    generalize signalDataReceived
      { tcb with rcv := { rcv with window := getModifiedReceiveWindowSize rcv } } = u at h hsig hnext
    split at h
    · obtain ⟨-, rfl⟩ := Prod.mk.inj (Except.ok.inj h)
      exact ⟨hsig, hnext⟩
    · obtain rfl := congrArg Prod.snd (Except.ok.inj h)
      refine ⟨hsig.trans (shouldSendAck_steady _ _ _), ?_⟩
      rw [(shouldSendAck_quiet now (UInt16.ofNat p.len) u).rcv]
      exact hnext

/-! ## When an event cleans up -/

/-- A retransmission is given up, of the SYN, the FIN or the data. -/
def GivesUp (tcb : Tcb) : Prop :=
  (tcb.synNeedsOn = true ∧ maxNrRetransmit ≤ tcb.snd.synRetransmit) ∨
    (tcb.finNeedsOn = true ∧ maxNrRetransmit ≤ tcb.snd.finRetransmit) ∨ OutOfRetries tcb.snd

/-- The segment acknowledges the FIN, which the code does not count in SND.NXT. -/
def AcksFin (th : TcpHdr) (tcb : Tcb) : Prop := th.ack = tcb.snd.next.add 1

/-- The segment resets a connection in SYN_SENT. -/
def ResetsSynSent (th : TcpHdr) (p : Packet) (tcb : Tcb) : Prop :=
  th.dataOffset * 4 ≤ p.len ∧ th.fRst = true ∧ th.fAck = true ∧
    tcb.snd.initial.lt th.ack = true ∧ tcb.snd.unacknowledged.le th.ack = true ∧
    th.ack.le tcb.snd.next = true

/-- The segment has its RST or SYN bit set where that ends the connection. -/
def Resets (th : TcpHdr) (tcb : Tcb) : Prop :=
  (th.fRst = true ∧ (resetReceived tcb).isSome = true) ∨ th.fSyn = true

/-- The segment acknowledges our FIN, or carries the FIN of the peer, as the last thing the
connection waits for. -/
def Finishes (th : TcpHdr) (tcb : Tcb) : Prop :=
  ((tcb.state = .closing ∨ tcb.state = .lastAck) ∧ AcksFin th tcb) ∨
    ((tcb.state = .finWait2 ∨ (tcb.state = .finWait1 ∧ AcksFin th tcb)) ∧ th.fFin = true)

/-- The event ends with `cleanup`. -/
def CleansUp (tcb : Tcb) (e : Event) : Prop :=
  match e.act with
  | .segment th p =>
    if tcb.state = .synSent then ResetsSynSent th p tcb
    else NextInLine th p tcb.rcv ∧ (Resets th tcb ∨ (th.fAck = true ∧ Finishes th tcb))
  | .shutdownConnect => tcb.synNeedsOn = true
  | .retransmitExpires => due tcb.retransmitTimer e.now = true ∧ GivesUp tcb
  | .arpTimeout => tcb.pollActive = true ∧ tcb.state = .synSent
  | _ => False

instance (tcb : Tcb) : Decidable (GivesUp tcb) := inferInstanceAs (Decidable (_ ∨ _))

instance (th : TcpHdr) (tcb : Tcb) : Decidable (AcksFin th tcb) := inferInstanceAs (Decidable (_ = _))

instance (th : TcpHdr) (p : Packet) (tcb : Tcb) : Decidable (ResetsSynSent th p tcb) :=
  inferInstanceAs (Decidable (_ ∧ _))

instance (th : TcpHdr) (tcb : Tcb) : Decidable (Resets th tcb) := inferInstanceAs (Decidable (_ ∨ _))

instance (th : TcpHdr) (tcb : Tcb) : Decidable (Finishes th tcb) :=
  inferInstanceAs (Decidable (_ ∨ _))

instance (tcb : Tcb) : (e : Event) → Decidable (CleansUp tcb e)
  | ⟨_, .segment th p⟩ =>
    inferInstanceAs (Decidable (if tcb.state = .synSent then ResetsSynSent th p tcb
      else NextInLine th p tcb.rcv ∧ (Resets th tcb ∨ (th.fAck = true ∧ Finishes th tcb))))
  | ⟨_, .shutdownConnect⟩ => inferInstanceAs (Decidable (tcb.synNeedsOn = true))
  | ⟨now, .retransmitExpires⟩ =>
    inferInstanceAs (Decidable (due tcb.retransmitTimer now = true ∧ GivesUp tcb))
  | ⟨_, .arpTimeout⟩ =>
    inferInstanceAs (Decidable (tcb.pollActive = true ∧ tcb.state = .synSent))
  | ⟨_, .send _⟩ | ⟨_, .read⟩ | ⟨_, .waitForData⟩ | ⟨_, .abortReader⟩ | ⟨_, .close⟩
  | ⟨_, .closeContinue⟩ | ⟨_, .getPacket⟩ | ⟨_, .persistExpires⟩ | ⟨_, .delayedAckExpires⟩
  | ⟨_, .arpQueueFull⟩ => .isFalse id

/-! ## Turns -/

/-- The window of the peer after an acknowledgement of new data is taken from the segment,
unless a later one was seen before. -/
def takeWindow (now : Int) (th : TcpHdr) (segSeq : TcpSeq) (tcb : Tcb) : Tcb :=
  if updatesWindow segSeq th.ack tcb.snd then updateWindow now th segSeq tcb else tcb

/-- The event is a segment whose ACK field is looked at. -/
def Acks (s : Tcb) (e : Event) (th : TcpHdr) : Prop :=
  ∃ p, e.act = .segment th p ∧ NextInLine th p s.rcv ∧ Proceeds th s

/-- What `send` queues. -/
def queueForSend (p : Packet) (tcb : Tcb) : Tcb :=
  { tcb with
    snd := { tcb.snd with
      currentQueueSpace := tcb.snd.currentQueueSpace + UInt64.ofNat p.len
      unsentLen := tcb.snd.unsentLen + UInt32.ofNat p.len
      unsent := tcb.snd.unsent ++ [p]
      stream := tcb.snd.stream ++ p.bytes } }

/-- The peer has acknowledged our SYN, and the options of its own are taken over. -/
def Negotiates (hw : HwFeatures) (th : TcpHdr) (e : Event) (s b : Tcb) : Prop :=
  th.fSyn = true ∧ th.fRst = false ∧ (acceptSyn th s).snd.unacknowledged.gt s.snd.initial = true ∧
    ∃ p h q optStart, e.act = .segment th p ∧ splitOptions th p = .ok (h, q) ∧
      optionArea h = .ok optStart ∧
      initFromOptions hw th optStart (th.dataOffset * 4 - tcpHdrLen) (acceptSyn th s) = .ok b

/-- One turn of the event `e` that finds the connection `s`. -/
inductive Turn (hw : HwFeatures) (s : Tcb) (e : Event) : Tcb → Tcb → Prop
  | steady {a b : Tcb} : Steady a b → Turn hw s e a b
  /-- acknowledged data are dropped and the window is updated -/
  | acked {a b : Tcb} {th : TcpHdr} {n : UInt32} : Acks s e th → Sending a →
      acksNewData th.ack a.snd = true → dataSegmentAcked e.now th.ack a = .ok (n, b) →
      Turn hw s e a (takeWindow e.now th s.rcv.next b)
  /-- a closed window is opened by a segment that acknowledges nothing new -/
  | opened {a : Tcb} {th : TcpHdr} : Acks s e th → Sending a → a.snd.window = 0 → 0 < th.window →
      Turn hw s e a (updateWindow e.now th s.rcv.next a)
  /-- the first segment is retransmitted -/
  | counted {a : Tcb} {seg : UnackedSegment} {data : List UnackedSegment} :
      a.snd.data = seg :: data → Turn hw s e a { a with
        snd := { a.snd with data := { seg with nrTransmits := seg.nrTransmits + 1 } :: data } }
  | fresh {a b : Tcb} : (∀ th p, e.act ≠ .segment th p) → a.state ≠ .closed →
      outputOne hw e.now false a = .ok b → Turn hw s e a b
  | queued {a : Tcb} (p : Packet) : e.act = .send p → sendRefused a = false → 
      Turn hw s e a (queueForSend p a)
  /-- the persist timer is started again -/
  | persisting {a : Tcb} (t : Option Int) : e.act = .persistExpires →
      Turn hw s e a { a with persistTimer := t }
  /-- a window probe begins or ends -/
  | probing {a : Tcb} (probe : Bool) (n : UInt8) : e.act = .persistExpires →
      Turn hw s e a { a with snd := { a.snd with windowProbe := probe, zeroWindowProbingOut := n } }
  /-- SYN_RECEIVED -> ESTABLISHED -/
  | established {a : Tcb} {th : TcpHdr} : Acks s e th → a.state = .synReceived →
      Turn hw s e a (emit .addConnectedTcb { a with state := .established })
  /-- the FIN of the peer, which is not the last thing the connection waits for -/
  | finReceived {a : Tcb} (t : TcpState) :
      (a.state = .established ∧ t = .closeWait) ∨ (a.state = .finWait1 ∧ t = .closing) →
      Turn hw s e a { a with state := t }
  /-- our FIN is acknowledged -/
  | finAcked {th : TcpHdr} (t : TcpState) : Acks s e th → AcksFin th s →
      (s.state = .finWait1 ∧ t = .finWait2) ∨ ((s.state = .closing ∨ s.state = .lastAck) ∧
        t = s.state) →
      Turn hw s e s (doLocalFinAcked { s with state := t })
  /-- `close()` goes on -/
  | closing {a : Tcb} (t : TcpState) : e.act = .closeContinue →
      (a.state = .closeWait ∧ t = .lastAck) ∨ (a.state = .established ∧ t = .finWait1) ∨
        (a.state ≠ .closeWait ∧ a.state ≠ .established ∧ t = a.state) →
      Turn hw s e a { a with state := t, snd := { a.snd with closed := true } }
  /-- the connection is over -/
  | cleaned {a : Tcb} (t : TcpState) : CleansUp s e →
      t = a.state ∨ t = .closed ∨ (t = .timeWait ∧ (a.state = .closing ∨ a.state = .finWait2)) →
      Turn hw s e a (cleanup { a with state := t })
  /-- SYN_SENT -> SYN_RECEIVED: the SYN of the peer crosses ours -/
  | crossed {th : TcpHdr} : s.state = .synSent → (∃ p, e.act = .segment th p) → th.fSyn = true →
      th.fRst = false → th.fAck = false → s.snd.unacknowledged.gt s.snd.initial = false →
      Turn hw s e s { acceptSyn th s with state := .synReceived }
  /-- SYN_SENT -> ESTABLISHED -/
  | negotiated {b : Tcb} {th : TcpHdr} : s.state = .synSent → Negotiates hw th e s b →
      Turn hw s e s { b with state := .established }

/-- A sequence of turns. -/
abbrev Turns (hw : HwFeatures) (s : Tcb) (e : Event) : Tcb → Tcb → Prop :=
  Relation.ReflTransGen (Turn hw s e)

variable {hw : HwFeatures} {s : Tcb} {e : Event}

theorem Turns.steady {a b : Tcb} (h : Steady a b) : Turns hw s e a b := .single (.steady h)

/-! ## The sending half -/

theorem outputOne_true_steady {now : Int} {a b : Tcb} (h : outputOne hw now true a = .ok b) :
    Steady a b := by
  by_cases hs : a.state = .closed
  · rw [outputOne_closed hw now true hs] at h
    obtain rfl := Except.ok.inj h
    exact .refl a
  · cases hd : a.snd.data with
    | nil =>
      rw [outputOne, if_neg hs, payloadToSend, if_pos rfl, hd] at h
      cases h
    | cons seg data =>
      obtain ⟨da, q, -, -, ho⟩ := outputOne_retransmit hw now hs hd
      rw [ho] at h
      split at h
      · obtain rfl := Except.ok.inj h
        rfl
      · cases h

theorem outputOne_turns {a b : Tcb} (he : ∀ th p, e.act ≠ .segment th p)
    (h : outputOne hw e.now false a = .ok b) : Turns hw s e a b := by
  by_cases hs : a.state = .closed
  · rw [outputOne_closed hw e.now false hs] at h
    obtain rfl := Except.ok.inj h
    exact .refl
  · exact .single (.fresh he hs h)

theorem fastRetransmit_turns {now : Int} {a b : Tcb} (h : fastRetransmit hw now a = .ok b) :
    Turns hw s e a b := by
  unfold fastRetransmit at h
  split at h
  · obtain rfl := Except.ok.inj h
    exact .refl
  · rename_i seg data hd
    obtain ⟨t, ht, h⟩ := bind_ok.mp h
    obtain rfl := Except.ok.inj h
    exact .head (.counted hd) (Turns.steady ((outputOne_true_steady ht).trans (output_steady t)))

theorem retransmitData_turns {now : Int} {a b : Tcb} (hc : OutOfRetries a.snd → CleansUp s e)
    (h : retransmitData hw now a = .ok b) : Turns hw s e a b := by
  unfold retransmitData at h
  split at h
  · obtain rfl := Except.ok.inj h
    exact .refl
  · rename_i seg data hd
    simp only at h
    generalize hsnd : exitFastRecovery { a.snd with
      ssthresh := if seg.nrTransmits = 0 then
          max (flightSize a.snd / 2) (2 * a.snd.mss.toUInt32)
        else a.snd.ssthresh
      recover := a.snd.next.back 1, cwnd := a.snd.mss.toUInt32 } = snd at h
    have hk : Steady a { a with snd := snd } := by
      rw [← hsnd]
      rfl
    split at h
    · obtain ⟨t, ht, h⟩ := bind_ok.mp h
      obtain rfl := Except.ok.inj h
      have hcount : Turn hw s e { a with snd := snd } { a with
          snd := { snd with data := { seg with nrTransmits := seg.nrTransmits + 1 } :: data } } :=
        .counted (hk.data.trans hd)
      exact .head (.steady hk) (.head hcount
        (Turns.steady ((outputOne_true_steady ht).trans (outputUpdateRto_steady now t))))
    · rename_i hn
      obtain rfl := Except.ok.inj h
      have hout : OutOfRetries a.snd := ⟨seg, by rw [hd]; rfl, Nat.le_of_not_lt hn⟩
      exact .head (.steady hk) (.single (.cleaned a.state (hc hout) (Or.inl rfl)))

theorem retransmitFin_turns {now : Int} {a b : Tcb} (hc : OutOfRetries a.snd → CleansUp s e)
    (hfin : a.finNeedsOn = true → maxNrRetransmit ≤ a.snd.finRetransmit → CleansUp s e)
    (h : retransmitFin hw now a = .ok b) : Turns hw s e a b := by
  have hdata : ∀ {v : Tcb}, Steady a v → retransmitData hw now v = .ok b → Turns hw s e a b := by
    intro v hv h
    refine (Turns.steady hv).trans (retransmitData_turns (fun ho => hc ?_) h)
    rwa [OutOfRetries, ← hv.data]
  unfold retransmitFin at h
  split at h
  · rename_i hn
    simp only at h
    have hcount : Steady a { a with
        snd := { a.snd with finRetransmit := a.snd.finRetransmit + 1 } } := rfl
    split at h
    · exact hdata (hcount.trans (outputUpdateRto_steady now _)) h
    · rename_i hlt
      obtain rfl := Except.ok.inj h
      exact .head (.steady hcount)
        (.single (.cleaned a.state (hfin hn (Nat.le_of_not_lt hlt)) (Or.inl rfl)))
  · exact hdata (.refl a) h

theorem retransmit_turns {now : Int} {a b : Tcb} (hc : GivesUp a → CleansUp s e)
    (h : retransmit hw now a = .ok b) : Turns hw s e a b := by
  have hfin : ∀ {u : Tcb}, Steady a u → u.snd.finRetransmit = a.snd.finRetransmit →
      retransmitFin hw now u = .ok b → Turns hw s e a b := by
    intro u hu hf h
    have hclosed : u.snd.closed = a.snd.closed := congrArg Core.closed hu
    have hlen : u.snd.unsentLen = a.snd.unsentLen := congrArg Core.unsentLen hu
    have hneeds : u.finNeedsOn = a.finNeedsOn := by
      rw [finNeedsOn, finNeedsOn, hu.state, hclosed, hlen]
    refine (Turns.steady hu).trans (retransmitFin_turns (fun ho => hc (Or.inr (Or.inr ?_)))
      (fun hn hle => hc (Or.inr (Or.inl ⟨?_, ?_⟩))) h)
    · rwa [OutOfRetries, ← hu.data]
    · rwa [← hneeds]
    · rwa [← hf]
  unfold retransmit at h
  split at h
  · rename_i hn
    simp only at h
    have hcount : Steady a { a with
        snd := { a.snd with synRetransmit := a.snd.synRetransmit + 1 } } := rfl
    split at h
    · refine hfin (hcount.trans (outputUpdateRto_steady now _)) ?_ h
      obtain ⟨pa, ef, rto, rt, hu⟩ := outputUpdateRto_eq now { a with
        snd := { a.snd with synRetransmit := a.snd.synRetransmit + 1 } }
      rw [hu]
    · rename_i hlt
      obtain rfl := Except.ok.inj h
      exact .head (.steady (hcount.trans
          (emit_steady (e := .wake .connectDone .connectError) rfl _)))
        (.single (.cleaned a.state (hc (Or.inl ⟨hn, Nat.le_of_not_lt hlt⟩)) (Or.inl rfl)))
  · exact hfin (.refl a) rfl h

/-! ## The ACK field -/

theorem afterNewAck_turns {now : Int} {segAck : TcpSeq} {n : UInt32} {a b : Tcb}
    (h : afterNewAck hw now segAck n a = .ok b) : Turns hw s e a b := by
  unfold afterNewAck at h
  simp only at h
  split at h
  · split at h
    · obtain rfl := Except.ok.inj h
      exact Turns.steady (setRetransmitTimer_steady now { a with
        snd := exitFastRecovery { a.snd with
          cwnd := min a.snd.ssthresh (max (flightSize a.snd) a.snd.mss.toUInt32 +
            a.snd.mss.toUInt32) } })
    · obtain ⟨u, hu, h⟩ := bind_ok.mp h
      obtain rfl := Except.ok.inj h
      refine (fastRetransmit_turns hu).trans (Turns.steady ?_)
      split
      · rfl
      · rfl
  · obtain rfl := Except.ok.inj h
    exact Turns.steady (setRetransmitTimer_steady now { a with snd := exitFastRecovery a.snd })

theorem duplicateAck_turns {now : Int} {segAck : TcpSeq} {a b : Tcb} {c : Bool}
    (h : duplicateAck hw now segAck a = .ok (b, c)) : Turns hw s e a b := by
  unfold duplicateAck at h
  simp only at h
  split at h
  · obtain ⟨rfl, -⟩ := Prod.mk.inj (Except.ok.inj h)
    exact Turns.steady rfl
  split at h
  · obtain ⟨u, hu, h⟩ := bind_ok.mp h
    obtain ⟨rfl, -⟩ := Prod.mk.inj (Except.ok.inj h)
    have hcount : Turns hw s e a { a with snd := { a.snd with dupacks := a.snd.dupacks + 1 } } :=
      Turns.steady rfl
    have henter : Turns hw s e { a with snd := { a.snd with dupacks := a.snd.dupacks + 1 } } u := by
      unfold enterFastRetransmit at hu
      split at hu
      · refine .trans (Turns.steady ?_) (fastRetransmit_turns hu)
        rfl
      · obtain rfl := Except.ok.inj hu
        exact .refl
    exact hcount.trans (henter.trans (Turns.steady rfl))
  split at h
  · obtain ⟨rfl, -⟩ := Prod.mk.inj (Except.ok.inj h)
    exact Turns.steady rfl
  · obtain ⟨rfl, -⟩ := Prod.mk.inj (Except.ok.inj h)
    exact Turns.steady rfl

theorem ackNewData_turns {th : TcpHdr} {a t : Tcb} (he : Acks s e th) (hs : Sending a)
    (hn : acksNewData th.ack a.snd = true) (h : ackNewData hw e.now th s.rcv.next a = .ok t) :
    ∃ n b, dataSegmentAcked e.now th.ack a = .ok (n, b) ∧
      Turn hw s e a (takeWindow e.now th s.rcv.next b) ∧
      Turns hw s e (takeWindow e.now th s.rcv.next b) t := by
  obtain ⟨⟨n, u⟩, hu, h⟩ := bind_ok.mp h
  exact ⟨n, u, hu, .acked he hs hn hu, afterNewAck_turns h⟩

theorem ackEstablished_turns {th : TcpHdr} {segLen : Nat} {a : Tcb} {r : Flow} (he : Acks s e th)
    (hs : Sending a) (h : ackEstablished hw e.now th s.rcv.next segLen a = .ok r) :
    Turns hw s e a r.tcb := by
  unfold ackEstablished at h
  split at h
  · rename_i hn
    obtain ⟨t, ht, h⟩ := bind_ok.mp h
    obtain rfl := Except.ok.inj h
    obtain ⟨n, b, -, hfirst, hrest⟩ := ackNewData_turns he hs hn ht
    exact .head hfirst hrest
  split at h
  · obtain ⟨⟨u, c⟩, hu, h⟩ := bind_ok.mp h
    obtain rfl := Except.ok.inj h
    exact duplicateAck_turns hu
  split at h
  · obtain rfl := Except.ok.inj h
    exact Turns.steady (output_steady a)
  split at h
  · rename_i hw0
    obtain rfl := Except.ok.inj h
    simp only [Bool.and_eq_true, decide_eq_true_eq] at hw0
    exact .single (.opened he hs hw0.1 hw0.2)
  · obtain rfl := Except.ok.inj h
    exact .refl

theorem doEstablished_steady (now : Int) (tcb : Tcb) :
    Steady { tcb with state := .established } (doEstablished now tcb) :=
  (updateRto_steady now tcb.snd.synTxTime { tcb with state := .established }).trans
    (emit_steady rfl _)

theorem addConnected_steady {a b : Tcb} (h : Steady a b) :
    Steady (emit .addConnectedTcb a) (emit .addConnectedTcb b) := by
  have ha := tableEffects_emit .addConnectedTcb a
  have hb := tableEffects_emit .addConnectedTcb b
  rw [h.table, ← ha] at hb
  have hc : ({ b.core with table := (emit .addConnectedTcb b).tableEffects } : Core) =
      { a.core with table := (emit .addConnectedTcb a).tableEffects } := by
    rw [hb, h]
  exact hc

theorem ackFin_turns {th : TcpHdr} (he : Acks s e th) (hc : AcksFin th s → s.state = .closing ∨
    s.state = .lastAck → CleansUp s e) : Turns hw s e s (ackFin th false s).tcb := by
  rw [ackFin]
  by_cases hf : th.ack = s.snd.next.add 1
  · simp only [if_pos hf]
    by_cases h₁ : s.state = .finWait1
    · rw [if_pos h₁]
      exact .single (.finAcked .finWait2 he hf (Or.inl ⟨h₁, rfl⟩))
    rw [if_neg h₁]
    by_cases h₂ : s.state = .closing
    · rw [if_pos h₂]
      exact .head (.finAcked s.state he hf (Or.inr ⟨Or.inl h₂, rfl⟩))
        (.single (.cleaned .timeWait (hc hf (Or.inl h₂)) (Or.inr (Or.inr ⟨rfl, Or.inl h₂⟩))))
    rw [if_neg h₂]
    by_cases h₃ : s.state = .lastAck
    · rw [if_pos h₃]
      exact .head (.finAcked s.state he hf (Or.inr ⟨Or.inr h₃, rfl⟩))
        (.single (.cleaned .closed (hc hf (Or.inr h₃)) (Or.inr (Or.inl rfl))))
    · rw [if_neg h₃]
      exact .refl
  · simp only [if_neg hf, ite_self]
    by_cases h₁ : s.state = .finWait1
    · rw [if_pos h₁]
      exact .refl
    rw [if_neg h₁]
    by_cases h₂ : s.state = .closing
    · rw [if_pos h₂]
      exact .refl
    · rw [if_neg h₂]
      exact .refl

/-- The FIN the connection waits for in FIN_WAIT_2 ends it; the FIN of a connection in
FIN_WAIT_1 may be acknowledged by the same segment. -/
theorem ackFin_finWait2 {th : TcpHdr} {a : Tcb} (h : (ackFin th false a).tcb.state = .finWait2) :
    a.state = .finWait2 ∨ (a.state = .finWait1 ∧ AcksFin th a) := by
  rw [ackFin] at h
  by_cases hf : th.ack = a.snd.next.add 1
  · simp only [if_pos hf] at h
    by_cases h₁ : a.state = .finWait1
    · exact Or.inr ⟨h₁, hf⟩
    by_cases h₂ : a.state = .closing
    · rw [if_neg h₁, if_pos h₂] at h
      cases h
    by_cases h₃ : a.state = .lastAck
    · rw [if_neg h₁, if_neg h₂, if_pos h₃] at h
      cases h
    · rw [if_neg h₁, if_neg h₂, if_neg h₃] at h
      exact Or.inl h
  · simp only [if_neg hf, ite_self] at h
    left
    split at h
    · exact h
    split at h
    · exact h
    · exact h

theorem ackFin_synReceived {th : TcpHdr} {a t : Tcb} {b : Bool} (hs : a.state ≠ .synReceived)
    (h : ackFin th false a = .go t b) : t.state ≠ .synReceived := by
  have hgo : ∀ {u : Tcb} {c : Bool}, u.state ≠ .synReceived → Flow.go u c = .go t b →
      t.state ≠ .synReceived := by
    intro u c hu hg
    obtain ⟨rfl, -⟩ := Flow.go.inj hg
    exact hu
  unfold ackFin at h
  by_cases h₁ : a.state = .finWait1
  · rw [if_pos h₁] at h
    split at h
    · exact hgo (show TcpState.finWait2 ≠ .synReceived by decide) h
    · exact hgo hs h
  rw [if_neg h₁] at h
  split at h
  · cases h
  split at h
  · split at h
    · cases h
    · exact hgo hs h
  · exact hgo hs h

theorem ackField_turns {th : TcpHdr} {segLen : Nat} {r : Flow} (he : Acks s e th)
    (hc : AcksFin th s → s.state = .closing ∨ s.state = .lastAck → CleansUp s e)
    (h : ackField hw e.now th s.rcv.next segLen s = .ok r) :
    Turns hw s e s r.tcb ∧
      (r.tcb.state = .finWait2 → s.state = .finWait2 ∨ (s.state = .finWait1 ∧ AcksFin th s)) ∧
      ∀ t b, r = .go t b → t.state ≠ .synReceived := by
  by_cases hsr : s.state = .synReceived
  · by_cases hack : s.snd.unacknowledged.le th.ack = true ∧ th.ack.le s.snd.next = true
    · rw [ackField_synReceived hw e.now s.rcv.next segLen hsr hack] at h
      have hst : (emit .addConnectedTcb (doEstablished e.now s)).state = .established := by
        obtain ⟨_, _, _, _, _, hd⟩ := doEstablished_eq e.now s
        rw [hd]
        rfl
      have hest : Turns hw s e s (emit .addConnectedTcb (doEstablished e.now s)) :=
        .head (.established he hsr) (Turns.steady (addConnected_steady (doEstablished_steady e.now s)))
      have hm := (ackEstablished_moves (by rw [hst]; decide) h).frame.2
      rw [hst] at hm
      refine ⟨hest.trans (ackEstablished_turns he (Or.inl hst) h), fun h2 => ?_, ?_⟩
      · rw [hm] at h2
        cases h2
      · rintro t b rfl
        have ht : t.state = .established := hm
        rw [ht]
        decide
    · rw [ackField, ackSynReceived, if_pos hsr, if_neg (by simpa using hack)] at h
      obtain rfl := Except.ok.inj h
      have hst : (emit (.respondWithReset th) s).state = .synReceived := hsr
      refine ⟨Turns.steady (emit_steady rfl s), fun h2 => ?_, fun t b hr => ?_⟩
      · rw [Flow.tcb, hst] at h2
        cases h2
      · cases hr
  rw [ackField_other hw e.now th s.rcv.next segLen hsr] at h
  by_cases hst : (s.state = .established || s.state = .closeWait) = true
  · rw [if_pos hst] at h
    have hm := (ackEstablished_moves (fun hc => by simp [hc] at hst) h).frame.2
    have hsend : Sending s := by simpa [Sending] using hst
    refine ⟨ackEstablished_turns he hsend h, fun h2 => Or.inl (hm.symm.trans h2), ?_⟩
    rintro t b rfl hs
    exact hsr (hm.symm.trans hs)
  · rw [if_neg hst] at h
    obtain rfl := Except.ok.inj h
    exact ⟨ackFin_turns he hc, ackFin_finWait2, fun t b hg => ackFin_synReceived hsr hg⟩

/-! ## The text and the FIN of a segment -/

/-- The FIN of a segment; it is next in sequence, so it ends a connection in FIN_WAIT_2. -/
theorem finAndOutput_turns {th : TcpHdr} {finSeq : TcpSeq} {b c : Bool} {a : Tcb}
    (hs : a.state ≠ .synReceived) (hc : a.state = .finWait2 → th.fFin = true → CleansUp s e) :
    Turns hw s e a (finAndOutput th finSeq b c a) := by
  unfold finAndOutput
  split
  · rename_i hf
    split
    · exact .refl
    unfold segmentFin
    by_cases he : finSeq = a.rcv.next
    · have htake := takeFin_steady finSeq a
      rw [if_pos he]
      simp only [htake.state]
      by_cases h₁ : a.state = .established
      · rw [if_pos (by simp [h₁])]
        have hturn : Turn hw s e (takeFin finSeq a) { takeFin finSeq a with state := .closeWait } :=
          .finReceived .closeWait (Or.inl ⟨htake.state.trans h₁, rfl⟩)
        exact .head (.steady htake) (.head hturn (Turns.steady (finishInput_steady _ _ _)))
      rw [if_neg (by simp [h₁, hs])]
      by_cases h₂ : a.state = .finWait1
      · rw [if_pos h₂]
        have hturn : Turn hw s e (takeFin finSeq a) { takeFin finSeq a with state := .closing } :=
          .finReceived .closing (Or.inr ⟨htake.state.trans h₂, rfl⟩)
        exact .head (.steady htake) (.head hturn (Turns.steady (finishInput_steady _ _ _)))
      rw [if_neg h₂]
      by_cases h₃ : a.state = .finWait2
      · rw [if_pos h₃]
        exact .head (.steady htake) (.single (.cleaned .timeWait (hc h₃ hf)
          (Or.inr (Or.inr ⟨rfl, Or.inr (htake.state.trans h₃)⟩))))
      · rw [if_neg h₃]
        exact Turns.steady (htake.trans (finishInput_steady _ _ _))
    · rw [if_neg he]
      exact Turns.steady (finishInput_steady _ _ _)
  · exact Turns.steady (finishInput_steady _ _ _)

theorem textAndFin_turns {now : Int} {th : TcpHdr} {segSeq : TcpSeq} {p : Packet} {b : Bool}
    {a t : Tcb} (hs : a.state ≠ .synReceived)
    (hc : a.state = .finWait2 → th.fFin = true → CleansUp s e)
    (h : textAndFin now th segSeq p b a = .ok t) : Turns hw s e a t := by
  unfold textAndFin at h
  simp only at h
  split at h
  · obtain ⟨⟨c, u⟩, hu, h⟩ := bind_ok.mp h
    obtain rfl := Except.ok.inj h
    have hk := (segmentText_steady hu).1
    refine (Turns.steady hk).trans (finAndOutput_turns ?_ ?_)
    · rw [hk.state]
      exact hs
    · rw [hk.state]
      exact hc
  split at h
  · obtain rfl := Except.ok.inj h
    exact .refl
  · obtain rfl := Except.ok.inj h
    exact finAndOutput_turns hs hc

/-! ## Segments -/

theorem doReset_turns {a : Tcb} (hc : CleansUp s e) : Turns hw s e a (doReset a) :=
  .head (.cleaned .closed hc (Or.inr (Or.inl rfl)))
    (Turns.steady ((failDataReceived_steady _ _).trans (failSend_steady _)))

theorem resetReceived_turns {t : Tcb} (hc : CleansUp s e) (h : resetReceived s = some t) :
    Turns hw s e s t := by
  unfold resetReceived at h
  split at h
  · obtain rfl := Option.some.inj h
    exact .head (.steady (emit_steady rfl s)) (doReset_turns hc)
  · obtain rfl := Option.some.inj h
    exact doReset_turns hc
  · obtain rfl := Option.some.inj h
    exact doReset_turns hc
  · obtain rfl := Option.some.inj h
    exact doReset_turns hc
  · obtain rfl := Option.some.inj h
    exact doReset_turns hc
  · obtain rfl := Option.some.inj h
    exact .single (.cleaned .closed hc (Or.inr (Or.inl rfl)))
  · obtain rfl := Option.some.inj h
    exact .single (.cleaned .closed hc (Or.inr (Or.inl rfl)))
  · obtain rfl := Option.some.inj h
    exact .single (.cleaned .closed hc (Or.inr (Or.inl rfl)))
  · cases h

theorem inOrder_turns {th : TcpHdr} {p q : Packet} {t : Tcb} (he : e.act = .segment th p)
    (hs : s.state ≠ .synSent) (hn : NextInLine th p s.rcv)
    (h : inOrder hw e.now th s.rcv.next q s = .ok t) : Turns hw s e s t := by
  have hclean : (Resets th s ∨ (th.fAck = true ∧ Finishes th s)) → CleansUp s e := by
    intro hr
    rw [CleansUp, he]
    simp only [if_neg hs]
    exact ⟨hn, hr⟩
  by_cases hp : Proceeds th s
  · rw [inOrder_proceeds hp] at h
    obtain ⟨hrst, hsyn, hack⟩ := hp
    obtain ⟨r, hr, h⟩ := bind_ok.mp h
    have hrcv := (ackField_rcv hr).2
    obtain ⟨hturns, hwait, hgo⟩ := ackField_turns ⟨p, he, hn, hrst, hsyn, hack⟩
      (fun hf hst => hclean (Or.inr ⟨hack, Or.inl ⟨hst, hf⟩⟩)) hr
    cases r with
    | ret u =>
      obtain rfl := Except.ok.inj h
      exact hturns
    | go u b =>
      refine hturns.trans (textAndFin_turns (hgo u b rfl) (fun h2 hf => ?_) h)
      exact hclean (Or.inr ⟨hack, Or.inr ⟨hwait h2, hf⟩⟩)
  · unfold inOrder at h
    split at h
    · rename_i u hu
      obtain rfl := Except.ok.inj h
      split at hu
      · rename_i hrst
        exact resetReceived_turns (hclean (Or.inl (Or.inl ⟨hrst, by rw [hu]; rfl⟩))) hu
      · cases hu
    · split at h
      · rename_i hsyn
        obtain rfl := Except.ok.inj h
        exact .head (.steady (emit_steady rfl s)) (doReset_turns (hclean (Or.inl (Or.inr hsyn))))
      split at h
      · obtain rfl := Except.ok.inj h
        exact .refl
      · rename_i hnone hsyn hack
        refine absurd ⟨fun hrst => ?_, by simpa using hsyn, by simpa using hack⟩ hp
        rwa [if_pos hrst] at hnone

theorem inputHandleOtherState_turns {th : TcpHdr} {p : Packet} {t : Tcb}
    (he : e.act = .segment th p) (hs : s.state ≠ .synSent)
    (h : inputHandleOtherState hw e.now th p s = .ok t) : Turns hw s e s t := by
  have hd := inputHandleOtherState_dispatched hw e.now th p s
  rw [h] at hd
  generalize hx : (Except.ok t : Except Fault Tcb) = x at hd
  cases hd with
  | short _ => cases hx
  | unacceptable _ _ =>
    obtain rfl := Except.ok.inj hx
    exact Turns.steady (output_steady s)
  | outOfOrder q _ _ _ _ =>
    obtain ⟨rcv, hrcv, hx⟩ := bind_ok.mp hx.symm
    obtain rfl := Except.ok.inj hx
    obtain ⟨map, -, hrcv⟩ := bind_ok.mp hrcv
    obtain rfl := Except.ok.inj hrcv
    exact Turns.steady (output_steady { s with rcv := { s.rcv with outOfOrder := map } })
  | inOrder q hn _ => exact inOrder_turns he hs hn hx.symm

theorem acceptSyn_initial (th : TcpHdr) (tcb : Tcb) :
    (acceptSyn th tcb).snd.initial = tcb.snd.initial := by
  simp only [acceptSyn]
  split
  · rfl
  · rfl

/-- What a segment does to a connection in SYN_SENT. -/
inductive SynSentOutcome (hw : HwFeatures) (s : Tcb) (e : Event) (t : Tcb) : Prop
  | ignored : Steady s t → SynSentOutcome hw s e t
  | reset : CleansUp s e → t = doReset s → SynSentOutcome hw s e t
  | crossed {th : TcpHdr} : (∃ p, e.act = .segment th p) → th.fSyn = true → th.fRst = false →
      th.fAck = false → s.snd.unacknowledged.gt s.snd.initial = false →
      Steady { acceptSyn th s with state := .synReceived } t → SynSentOutcome hw s e t
  | negotiated {b : Tcb} {th : TcpHdr} : Negotiates hw th e s b →
      t = output (doEstablished e.now b) → SynSentOutcome hw s e t

theorem negotiated_steady (now : Int) (b : Tcb) :
    Steady { b with state := .established } (output (doEstablished now b)) :=
  (doEstablished_steady now b).trans (output_steady _)

theorem inputHandleSynSentState_outcome {th : TcpHdr} {p : Packet} {t : Tcb}
    (he : e.act = .segment th p) (hs : s.state = .synSent)
    (h : inputHandleSynSentState hw e.now th p s = .ok t) : SynSentOutcome hw s e t := by
  unfold inputHandleSynSentState at h
  obtain ⟨⟨hdr, q⟩, hsplit, h⟩ := bind_ok.mp h
  have hlen : th.dataOffset * 4 ≤ p.len := by
    rcases splitOptions_cases th p with ⟨-, he⟩ | ⟨hl, -⟩
    · rw [he] at hsplit
      cases hsplit
    · exact hl
  simp only at h
  split at h
  · obtain rfl := Except.ok.inj h
    exact .ignored (emit_steady rfl s)
  rename_i hbad
  have hinit : th.fAck = true → s.snd.initial.lt th.ack = true := by
    intro hack
    simp only [hack, TcpSeq.le, TcpSeq.gt, Bool.true_and, Bool.or_eq_true,
      Bool.not_eq_true', not_or, Bool.not_eq_false] at hbad
    exact hbad.1
  split at h
  · rename_i hrst
    obtain rfl := Except.ok.inj h
    split
    · rename_i hacc
      simp only [Bool.and_eq_true] at hacc
      refine .reset ?_ rfl
      rw [CleansUp, he]
      simp only [if_pos hs]
      exact ⟨hlen, hrst, hacc.1.1, hinit hacc.1.1, hacc.1.2, hacc.2⟩
    · exact .ignored (.refl s)
  rename_i hrst
  rw [Bool.not_eq_true] at hrst
  split at h
  · rename_i hsyn
    unfold synBit at h
    simp only [acceptSyn_initial] at h
    split at h
    · rename_i hgt
      obtain ⟨area, harea, h⟩ := bind_ok.mp h
      obtain ⟨b, hb, h⟩ := bind_ok.mp h
      obtain rfl := Except.ok.inj h
      exact .negotiated ⟨hsyn, hrst, hgt, p, hdr, q, area, he, hsplit, harea, hb⟩ rfl
    · rename_i hgt
      rw [Bool.not_eq_true] at hgt
      obtain rfl := Except.ok.inj h
      have hack : th.fAck = false := by
        by_contra hn
        rw [Bool.not_eq_false] at hn
        rw [acceptSyn, if_pos hn, TcpSeq.gt, hinit hn] at hgt
        cases hgt
      have hold : (acceptSyn th s).snd.unacknowledged = s.snd.unacknowledged := by
        rw [acceptSyn, if_neg (by rw [hack]; exact Bool.false_ne_true)]
      rw [hold] at hgt
      refine .crossed ⟨p, he⟩ hsyn hrst hack hgt ?_
      exact output_steady { acceptSyn th s with
        state := .synReceived, snd := { (acceptSyn th s).snd with synTxTime := e.now } }
  · obtain rfl := Except.ok.inj h
    exact .ignored (.refl s)

theorem inputHandleSynSentState_turns {th : TcpHdr} {p : Packet} {t : Tcb}
    (he : e.act = .segment th p) (hs : s.state = .synSent)
    (h : inputHandleSynSentState hw e.now th p s = .ok t) : Turns hw s e s t := by
  cases inputHandleSynSentState_outcome he hs h with
  | ignored h => exact Turns.steady h
  | reset hc h =>
    rw [h]
    exact doReset_turns hc
  | crossed he' hsyn hrst hack hgt h =>
    exact .head (.crossed hs he' hsyn hrst hack hgt) (Turns.steady h)
  | negotiated hn h =>
    rw [h]
    exact .head (.negotiated hs hn) (Turns.steady (negotiated_steady e.now _))

/-! ## The other events -/

theorem persist_turns {a b : Tcb} (he : e.act = .persistExpires)
    (h : persist hw e.now { a with persistTimer := none } = .ok b) : Turns hw s e a b := by
  unfold persist at h
  obtain ⟨t, ht, h⟩ := bind_ok.mp h
  obtain rfl := Except.ok.inj h
  have hstop : Turn hw s e a { a with persistTimer := none } := .persisting none he
  have hprobe : Turn hw s e { a with persistTimer := none } { a with
      persistTimer := none
      snd := { a.snd with
        windowProbe := true, zeroWindowProbingOut := a.snd.zeroWindowProbingOut + 1 } } :=
    .probing true _ he
  have hdone : Turn hw s e t { t with snd := { t.snd with windowProbe := false } } :=
    .probing false t.snd.zeroWindowProbingOut he
  have hnot : ∀ th p, e.act ≠ .segment th p := by
    rw [he]
    exact nofun
  refine .head hstop (.head hprobe ((outputOne_turns hnot ht).trans
    (.head hdone (.head (.steady (output_steady _)) ?_))))
  generalize output { t with snd := { t.snd with windowProbe := false } } = u
  have hrate : Steady u { u with persistTimeOut := min (u.persistTimeOut * 2) rtoMax } := rfl
  exact .head (.steady hrate) (.single (.persisting _ he))

theorem takePacket_steady {a b : Tcb} {o : Option OutSegment} (h : takePacket a = .ok (o, b)) :
    Steady a b := by
  unfold takePacket at h
  split at h
  · obtain ⟨-, rfl⟩ := Prod.mk.inj (Except.ok.inj h)
    exact .refl a
  · split at h
    · cases h
    · rename_i p packetq hp
      have hk : Steady a { a with packetq := packetq, handed := a.handed ++ [p] } := rfl
      simp only at h
      split at h
      · obtain ⟨-, rfl⟩ := Prod.mk.inj (Except.ok.inj h)
        exact hk.trans (output_steady _)
      split at h
      · obtain ⟨-, rfl⟩ := Prod.mk.inj (Except.ok.inj h)
        refine hk.trans ((mayTransmit_steady _).trans ?_)
        split
        · exact output_steady _
        · exact .refl _
      · obtain ⟨-, rfl⟩ := Prod.mk.inj (Except.ok.inj h)
        exact hk

theorem getPacket_turns {a b : Tcb} (he : e.act = .getPacket) (h : (getPacket hw e.now a).map Prod.snd = .ok b) :
    Turns hw s e a b := by
  obtain ⟨⟨o, u⟩, hg, rfl⟩ := map_ok.mp h
  unfold getPacket at hg
  obtain ⟨t, ht, hg⟩ := bind_ok.mp hg
  have hpoll : Steady a { a with pollActive := false } := rfl
  refine (Turns.steady hpoll).trans (.trans ?_ (Turns.steady (takePacket_steady hg)))
  unfold fillPacketq at ht
  split at ht
  · refine outputOne_turns ?_ ht
    rw [he]
    exact nofun
  · obtain rfl := Except.ok.inj ht
    exact .refl

theorem send_steady {p : Packet} {tcb : Tcb} (hr : sendRefused tcb = false) :
    Steady (queueForSend p tcb) (tcb.send p) := by
  have hend : ∀ u : Tcb, Steady u (waitSendAvailable
      (if (mayTransmit u).1 then output (mayTransmit u).2 else (mayTransmit u).2)) := by
    intro u
    refine (mayTransmit_steady u).trans (Steady.trans ?_ (waitSendAvailable_steady _))
    split
    · exact output_steady _
    · exact .refl _
  unfold send
  rw [if_neg (by rw [hr]; exact Bool.false_ne_true)]
  exact hend (queueForSend p tcb)

theorem send_turns {p : Packet} (he : e.act = .send p) : Turns hw s e s (s.send p) := by
  cases hr : sendRefused s with
  | true =>
    have hsend : s.send p = s := if_pos hr
    rw [hsend]
  | false => exact .head (.queued p he hr) (Turns.steady (send_steady hr))

theorem close_steady (tcb : Tcb) : Steady tcb (close tcb) := by
  unfold close
  split
  · exact .refl tcb
  split
  · rfl
  · rfl

theorem closeContinue_turns {a b : Tcb} (he : e.act = .closeContinue)
    (h : closeContinue hw e.now a = .ok b) : Turns hw s e a b := by
  unfold closeContinue at h
  obtain ⟨t, ht, h⟩ := bind_ok.mp h
  obtain rfl := Except.ok.inj h
  have hnot : ∀ th p, e.act ≠ .segment th p := by
    rw [he]
    exact nofun
  refine .trans ?_ ((outputOne_turns hnot ht).trans (Turns.steady (output_steady t)))
  simp only
  split
  · rename_i hs
    exact .single (.closing .lastAck he (Or.inl ⟨hs, rfl⟩))
  rename_i hs
  split
  · rename_i hs'
    exact .single (.closing .finWait1 he (Or.inr (Or.inl ⟨hs', rfl⟩)))
  · rename_i hs'
    exact .single (.closing a.state he (Or.inr (Or.inr ⟨hs, hs', rfl⟩)))

/-- The turns of one event. -/
theorem step_turns {t : Tcb} (h : step hw s e = .ok t) : Turns hw s e s t := by
  unfold step at h
  split at h
  · rename_i th p he
    unfold inputHandle at h
    split at h
    · rename_i hs
      exact inputHandleSynSentState_turns he hs h
    · rename_i hs
      exact inputHandleOtherState_turns he hs h
  · rename_i p he
    obtain rfl := Except.ok.inj h
    exact send_turns he
  · obtain rfl := Except.ok.inj h
    exact Turns.steady rfl
  · obtain rfl := Except.ok.inj h
    refine Turns.steady ?_
    unfold waitForData
    split
    · exact .refl s
    · rfl
  · obtain rfl := Except.ok.inj h
    exact Turns.steady (failDataReceived_steady _ s)
  · obtain rfl := Except.ok.inj h
    exact Turns.steady (close_steady s)
  · rename_i he
    split at h
    · have htask : Steady s { s with closeTasks := s.closeTasks - 1 } := rfl
      exact .head (.steady htask) (closeContinue_turns he h)
    · obtain rfl := Except.ok.inj h
      exact .refl
  · rename_i he
    obtain rfl := Except.ok.inj h
    unfold shutdownConnect
    split
    · rename_i hs
      have hc : CleansUp s e := by
        rw [CleansUp, he]
        exact hs
      exact .head (.steady (emit_steady rfl s)) (.single (.cleaned s.state hc (Or.inl rfl)))
    · exact Turns.steady ((failDataReceived_steady _ s).trans (close_steady _))
  · rename_i he
    split at h
    · exact getPacket_turns he h
    · obtain rfl := Except.ok.inj h
      exact .refl
  · rename_i he
    split at h
    · rename_i hdue
      have hstop : Steady s { s with retransmitTimer := none } := rfl
      refine .head (.steady hstop) (retransmit_turns (fun hg => ?_) h)
      rw [CleansUp, he]
      exact ⟨hdue, hg⟩
    · obtain rfl := Except.ok.inj h
      exact .refl
  · rename_i he
    split at h
    · exact persist_turns he h
    · obtain rfl := Except.ok.inj h
      exact .refl
  · split at h
    · obtain rfl := Except.ok.inj h
      exact Turns.steady (output_steady { s with delayedAck := none, nrFullSegReceived := 0 })
    · obtain rfl := Except.ok.inj h
      exact .refl
  · split at h
    · obtain rfl := Except.ok.inj h
      exact Turns.steady rfl
    · obtain rfl := Except.ok.inj h
      exact .refl
  · rename_i he
    split at h
    · rename_i hp
      obtain rfl := Except.ok.inj h
      have hc : CleansUp s e := by
        rw [CleansUp, he]
        simpa using hp
      exact .head (.steady (emit_steady rfl s)) (.single (.cleaned s.state hc (Or.inl rfl)))
    · obtain rfl := Except.ok.inj h
      exact .refl

/-! ## What an event that cleans up leaves -/

/-- The queues and two of the timers are cleared, and the connection leaves the table; the
counters and the persist timer are what they were. -/
structure CleanedFrom (a b : Tcb) : Prop where
  unsent : b.snd.unsent = []
  data : b.snd.data = []
  unsentLen : b.snd.unsentLen = a.snd.unsentLen
  currentQueueSpace : b.snd.currentQueueSpace = a.snd.currentQueueSpace
  persistTimer : b.persistTimer = a.persistTimer
  retransmitTimer : b.retransmitTimer = none
  delayedAck : b.delayedAck = none
  removed : .removeFromTcbs ∈ b.tableEffects

theorem cleanup_removed (tcb : Tcb) : .removeFromTcbs ∈ (cleanup tcb).tableEffects := by
  rw [cleanup, tableEffects_emit]
  simp [Effect.idle]

theorem cleanup_cleanedFrom {a b : Tcb} (hlen : b.snd.unsentLen = a.snd.unsentLen)
    (hspace : b.snd.currentQueueSpace = a.snd.currentQueueSpace)
    (htimer : b.persistTimer = a.persistTimer) : CleanedFrom a (cleanup b) :=
  ⟨rfl, rfl, hlen, hspace, htimer, rfl, rfl, cleanup_removed b⟩

theorem CleanedFrom.of_steady {a b c : Tcb} (h : Steady a b) (h' : CleanedFrom b c) :
    CleanedFrom a c where
  unsent := h'.unsent
  data := h'.data
  unsentLen := h'.unsentLen.trans (congrArg Core.unsentLen h)
  currentQueueSpace := h'.currentQueueSpace.trans (congrArg Core.currentQueueSpace h)
  persistTimer := h'.persistTimer.trans (congrArg Core.persistTimer h)
  retransmitTimer := h'.retransmitTimer
  delayedAck := h'.delayedAck
  removed := h'.removed

theorem doReset_cleanedFrom (tcb : Tcb) : CleanedFrom tcb (doReset tcb) := by
  have hremoved : .removeFromTcbs ∈ (doReset tcb).tableEffects := by
    have hk := (failDataReceived_steady .resetError (cleanup { tcb with state := .closed })).trans
      (failSend_steady _)
    rw [doReset, hk.table]
    exact cleanup_removed _
  obtain ⟨pd, ps, pa, ef, h⟩ := doReset_eq tcb
  rw [h] at hremoved ⊢
  exact ⟨rfl, rfl, rfl, rfl, rfl, rfl, rfl, hremoved⟩

theorem resetReceived_cleanedFrom {t : Tcb} (h : resetReceived s = some t) : CleanedFrom s t := by
  unfold resetReceived at h
  split at h
  · obtain rfl := Option.some.inj h
    exact .of_steady (emit_steady rfl s) (doReset_cleanedFrom _)
  · obtain rfl := Option.some.inj h
    exact doReset_cleanedFrom s
  · obtain rfl := Option.some.inj h
    exact doReset_cleanedFrom s
  · obtain rfl := Option.some.inj h
    exact doReset_cleanedFrom s
  · obtain rfl := Option.some.inj h
    exact doReset_cleanedFrom s
  · obtain rfl := Option.some.inj h
    exact cleanup_cleanedFrom rfl rfl rfl
  · obtain rfl := Option.some.inj h
    exact cleanup_cleanedFrom rfl rfl rfl
  · obtain rfl := Option.some.inj h
    exact cleanup_cleanedFrom rfl rfl rfl
  · cases h

theorem inOrder_resets {th : TcpHdr} {q : Packet} {now : Int} {segSeq : TcpSeq} {t : Tcb}
    (hr : Resets th s) (h : inOrder hw now th segSeq q s = .ok t) : CleanedFrom s t := by
  unfold inOrder at h
  split at h
  · rename_i u hu
    obtain rfl := Except.ok.inj h
    split at hu
    · exact resetReceived_cleanedFrom hu
    · cases hu
  · rename_i hnone
    split at h
    · obtain rfl := Except.ok.inj h
      exact .of_steady (emit_steady rfl s) (doReset_cleanedFrom _)
    · rename_i hsyn
      rcases hr with ⟨hrst, hsome⟩ | hr
      · rw [if_pos hrst] at hnone
        rw [hnone] at hsome
        cases hsome
      · exact absurd hr hsyn

/-- The FIN of a segment in FIN_WAIT_2. -/
theorem textAndFin_finWait2 {now : Int} {th : TcpHdr} {q : Packet} {b : Bool} {a t : Tcb}
    (hs : a.state = .finWait2) (hf : th.fFin = true)
    (h : textAndFin now th a.rcv.next q b a = .ok t) : CleanedFrom a t := by
  unfold textAndFin at h
  simp only at h
  rw [if_pos (by simp [takesText, hs])] at h
  obtain ⟨⟨c, u⟩, hu, h⟩ := bind_ok.mp h
  obtain rfl := Except.ok.inj h
  obtain ⟨hk, hn⟩ := segmentText_steady hu
  have hu2 : u.state = .finWait2 := hk.state.trans hs
  have htake := takeFin_steady (a.rcv.next.add (UInt32.ofNat q.len)) u
  have ht2 : (takeFin (a.rcv.next.add (UInt32.ofNat q.len)) u).state = .finWait2 :=
    htake.state.trans hu2
  unfold finAndOutput segmentFin
  rw [if_pos hf, if_neg (by simp [hu2]), if_pos hn.symm]
  simp only [ht2, reduceCtorEq, decide_false, Bool.or_self, if_false, Bool.false_eq_true, if_true]
  exact .of_steady (hk.trans htake) (cleanup_cleanedFrom rfl rfl rfl)

theorem inOrder_finishes {th : TcpHdr} {q : Packet} {t : Tcb} (hp : Proceeds th s)
    (hf : Finishes th s) (h : inOrder hw e.now th s.rcv.next q s = .ok t) : CleanedFrom s t := by
  have hsr : s.state ≠ .synReceived := by
    intro hs
    simp [Finishes, hs] at hf
  have hnest : ¬ (s.state = .established || s.state = .closeWait) = true := by
    intro hs
    rw [Bool.or_eq_true, decide_eq_true_eq, decide_eq_true_eq] at hs
    rcases hs with hs | hs
    · simp [Finishes, hs] at hf
    · simp [Finishes, hs] at hf
  rw [inOrder_proceeds hp, ackField_other hw e.now th s.rcv.next q.len hsr, if_neg hnest,
    ok_bind] at h
  unfold Finishes AcksFin at hf
  rcases hf with ⟨hs, hack⟩ | ⟨hs | ⟨hs, hack⟩, hfin⟩
  · rcases hs with hs | hs
    · rw [ackFin, if_neg (by rw [hs]; decide), if_pos hs, if_pos hack] at h
      obtain rfl := Except.ok.inj h
      exact cleanup_cleanedFrom rfl rfl rfl
    · rw [ackFin, if_neg (by rw [hs]; decide), if_neg (by rw [hs]; decide), if_pos hs,
        if_pos hack] at h
      obtain rfl := Except.ok.inj h
      exact cleanup_cleanedFrom rfl rfl rfl
  · rw [ackFin, if_neg (by rw [hs]; decide), if_neg (by rw [hs]; decide),
      if_neg (by rw [hs]; decide)] at h
    exact textAndFin_finWait2 hs hfin h
  · rw [ackFin, if_pos hs, if_pos hack] at h
    have hc := textAndFin_finWait2 (a := doLocalFinAcked { s with state := .finWait2 }) rfl hfin h
    exact ⟨hc.unsent, hc.data, hc.unsentLen, hc.currentQueueSpace, hc.persistTimer,
      hc.retransmitTimer, hc.delayedAck, hc.removed⟩

theorem retransmitData_cleanedFrom {now : Int} {a t : Tcb} (ho : OutOfRetries a.snd)
    (h : retransmitData hw now a = .ok t) : CleanedFrom a t := by
  obtain ⟨seg, hseg, hn⟩ := ho
  unfold retransmitData at h
  split at h
  · rename_i hd
    rw [hd] at hseg
    cases hseg
  · rename_i seg' data hd
    rw [hd] at hseg
    obtain rfl := Option.some.inj hseg
    simp only at h
    rw [if_neg (Nat.not_lt.mpr hn)] at h
    obtain rfl := Except.ok.inj h
    exact cleanup_cleanedFrom rfl rfl rfl

theorem retransmitFin_cleanedFrom {now : Int} {a t : Tcb}
    (hg : (a.finNeedsOn = true ∧ maxNrRetransmit ≤ a.snd.finRetransmit) ∨ OutOfRetries a.snd)
    (h : retransmitFin hw now a = .ok t) : CleanedFrom a t := by
  unfold retransmitFin at h
  split at h
  · simp only at h
    split at h
    · rename_i hlt
      have ho : OutOfRetries a.snd := hg.resolve_left fun hf => Nat.not_lt.mpr hf.2 hlt
      have hk := outputUpdateRto_steady now { a with
        snd := { a.snd with finRetransmit := a.snd.finRetransmit + 1 } }
      refine .of_steady (b := outputUpdateRto now { a with
        snd := { a.snd with finRetransmit := a.snd.finRetransmit + 1 } }) hk
        (retransmitData_cleanedFrom ?_ h)
      rwa [OutOfRetries, hk.data]
    · obtain rfl := Except.ok.inj h
      exact cleanup_cleanedFrom rfl rfl rfl
  · rename_i hn
    exact retransmitData_cleanedFrom (hg.resolve_left fun hf => hn hf.1) h

theorem retransmit_cleanedFrom {now : Int} {a t : Tcb} (hg : GivesUp a)
    (h : retransmit hw now a = .ok t) : CleanedFrom a t := by
  unfold retransmit at h
  split at h
  · rename_i hsyn
    simp only at h
    split at h
    · rename_i hlt
      have hk := outputUpdateRto_steady now { a with
        snd := { a.snd with synRetransmit := a.snd.synRetransmit + 1 } }
      refine .of_steady (b := outputUpdateRto now { a with
        snd := { a.snd with synRetransmit := a.snd.synRetransmit + 1 } }) hk
        (retransmitFin_cleanedFrom ?_ h)
      have hg' := hg.resolve_left fun hf => Nat.not_lt.mpr hf.2 hlt
      have hclosed := congrArg Core.closed hk
      have hlen := congrArg Core.unsentLen hk
      obtain ⟨pa, ef, rto, rt, hu⟩ := outputUpdateRto_eq now { a with
        snd := { a.snd with synRetransmit := a.snd.synRetransmit + 1 } }
      rw [hu]
      exact hg'
    · obtain rfl := Except.ok.inj h
      exact cleanup_cleanedFrom rfl rfl rfl
  · rename_i hn
    exact retransmitFin_cleanedFrom (hg.resolve_left fun hf => hn hf.1) h

theorem inputHandleSynSentState_resets {th : TcpHdr} {p : Packet} {t : Tcb}
    (hr : ResetsSynSent th p s) (h : inputHandleSynSentState hw e.now th p s = .ok t) :
    CleanedFrom s t := by
  obtain ⟨hlen, hrst, hack, hlt, hle, hle'⟩ := hr
  unfold inputHandleSynSentState at h
  obtain ⟨⟨hdr, q⟩, -, h⟩ := bind_ok.mp h
  simp only at h
  rw [if_neg, if_pos hrst, if_pos] at h
  · obtain rfl := Except.ok.inj h
    exact doReset_cleanedFrom s
  · simp [hack, hle, hle']
  · have hgt : s.snd.next.lt th.ack = false := by simpa [TcpSeq.le, TcpSeq.gt] using hle'
    simp [TcpSeq.le, TcpSeq.gt, hlt, hgt]

/-- An event that cleans up clears the queues, and leaves the counters and the persist timer. -/
theorem step_cleanedFrom {t : Tcb} (hc : CleansUp s e) (h : step hw s e = .ok t) :
    CleanedFrom s t := by
  obtain ⟨now, act⟩ := e
  cases act with
  | segment th p =>
    rw [CleansUp] at hc
    simp only at hc
    have h : inputHandle hw now th p s = .ok t := h
    unfold inputHandle at h
    by_cases hs : s.state = .synSent
    · rw [if_pos hs] at hc h
      exact inputHandleSynSentState_resets (e := ⟨now, .segment th p⟩) hc h
    rw [if_neg hs] at hc h
    obtain ⟨hn, hc⟩ := hc
    have hd := inputHandleOtherState_dispatched hw now th p s
    rw [h] at hd
    generalize hx : (Except.ok t : Except Fault Tcb) = x at hd
    cases hd with
    | short hl => exact absurd hn.1 (Nat.not_le.mpr hl)
    | unacceptable _ ha =>
      rw [hn.2.1] at ha
      cases ha
    | outOfOrder q _ _ _ hne => exact absurd hn.2.2 hne
    | inOrder q _ _ =>
      by_cases hr : Resets th s
      · exact inOrder_resets hr hx.symm
      · obtain ⟨hack, hf⟩ := hc.resolve_left hr
        refine inOrder_finishes (e := ⟨now, .segment th p⟩) ⟨fun hrst => ?_, ?_, hack⟩ hf hx.symm
        · cases hn : resetReceived s with
          | none => rfl
          | some u => exact absurd (Or.inl ⟨hrst, by rw [hn]; rfl⟩) hr
        · cases hsyn : th.fSyn with
          | false => rfl
          | true => exact absurd (Or.inr hsyn) hr
  | shutdownConnect =>
    have h : Except.ok (shutdownConnect s) = .ok t := h
    rw [shutdownConnect, if_pos (show s.synNeedsOn = true from hc)] at h
    obtain rfl := Except.ok.inj h
    exact .of_steady (emit_steady rfl s) (cleanup_cleanedFrom rfl rfl rfl)
  | retransmitExpires =>
    obtain ⟨hdue, hg⟩ := hc
    have h : (if due s.retransmitTimer now then
      retransmit hw now { s with retransmitTimer := none } else .ok s) = .ok t := h
    rw [if_pos hdue] at h
    have hs : Steady s { s with retransmitTimer := none } := rfl
    exact .of_steady hs (retransmit_cleanedFrom hg h)
  | arpTimeout =>
    obtain ⟨hp, hs⟩ := hc
    have h : (if s.pollActive && s.state = .synSent then
      .ok (cleanup (emit (.wake .connectDone .arpTimeoutError) s)) else .ok s) =
        (.ok t : Except Fault Tcb) := h
    rw [if_pos (by simp [hp, hs])] at h
    obtain rfl := Except.ok.inj h
    exact .of_steady (emit_steady rfl s) (cleanup_cleanedFrom rfl rfl rfl)
  | send _ | read | waitForData | abortReader | close | closeContinue | getPacket
  | persistExpires | delayedAckExpires | arpQueueFull => exact hc.elim

end Tcb

end Seastar.Net.Tcp
