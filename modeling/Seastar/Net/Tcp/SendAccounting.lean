import Seastar.Net.Tcp.Received
import Seastar.Net.Tcp.Turns

/-!
The two counters of the sending half, `unsent_len` and `current_queue_space`.

They count the bytes in the queues as long as an event that ends with `cleanup`
finds nothing queued and nothing unacknowledged: `cleanup` drops the queues and
keeps the counters, and it leaves the persist timer running.
-/

namespace Seastar.Net.Tcp.Tcb

open Lib

/-- The bytes of a queue of packets. -/
def totalLen (ps : List Packet) : Nat := (ps.map Packet.len).sum

/-- The bytes of the segments in flight, as they were sent. -/
def sentLen (data : List UnackedSegment) : Nat := (data.map fun seg => seg.dataLen.toNat).sum

/-- The counters count the queues. -/
structure Accounted (snd : Send) : Prop where
  unsentLen : snd.unsentLen.toNat = totalLen snd.unsent
  queueSpace : snd.currentQueueSpace.toNat = snd.unsentLen.toNat + sentLen snd.data

/-- No timer is armed. -/
def Unarmed (tcb : Tcb) : Prop :=
  tcb.retransmitTimer = none ∧ tcb.delayedAck = none ∧ tcb.persistTimer = none

/-- `send` takes the packet and both counters can count it. -/
def Counts (p : Packet) (snd : Send) : Prop :=
  snd.unsentLen.toNat + p.len < 2 ^ 32 ∧ snd.currentQueueSpace.toNat + p.len < 2 ^ 64

/-- An event that cleans up finds the counters at zero and the persist timer unarmed, and what
the user sends can be counted. -/
def LeavesNothing (tcb : Tcb) (e : Event) : Prop :=
  match e.act with
  | .send p => sendRefused tcb = false → Counts p tcb.snd
  | _ => CleansUp tcb e →
    tcb.snd.unsentLen = 0 ∧ tcb.snd.currentQueueSpace = 0 ∧ tcb.persistTimer = none

@[simp] theorem totalLen_nil : totalLen [] = 0 := rfl

theorem totalLen_eq (ps : List Packet) : totalLen ps = (bytesOf ps).length := by
  induction ps with
  | nil => rfl
  | cons p ps ih =>
    rw [bytesOf_cons, List.length_append, Packet.length_bytes, ← ih]
    simp [totalLen]

@[simp] theorem sentLen_nil : sentLen [] = 0 := rfl

@[simp] theorem sentLen_cons (seg : UnackedSegment) (data : List UnackedSegment) :
    sentLen (seg :: data) = seg.dataLen.toNat + sentLen data := by
  simp [sentLen]

@[simp] theorem sentLen_append (a b : List UnackedSegment) :
    sentLen (a ++ b) = sentLen a + sentLen b := by
  simp [sentLen]

/-- The length of a segment in flight is the length of the packet it was sent with. -/
theorem sentLen_sentSegments {now : Int} {p : Packet} (clone : Packet) (h : p.len < 2 ^ 16) :
    sentLen (sentSegments now p clone) = p.len := by
  unfold sentSegments
  split
  · rename_i h0
    rw [h0]
    rfl
  · simp only [sentLen_cons, sentLen_nil, UInt16.toNat_ofNat']
    omega

/-! ## Acknowledgements -/

/-- Space is given back for the segments that are acknowledged as a whole. -/
theorem ackOne_queueSpace {now : Int} {seg : UnackedSegment} {data : List UnackedSegment}
    {a b : Tcb} {n : Nat} (h : ackOne now seg data a = .ok b)
    (hq : a.snd.currentQueueSpace.toNat = n + sentLen (seg :: data)) :
    b.snd.currentQueueSpace.toNat = n + sentLen data := by
  have hack : (ackSegment now seg a).snd.currentQueueSpace = a.snd.currentQueueSpace := by
    unfold ackSegment
    simp only
    split
    · obtain ⟨fs, rv, sr, rto, hu⟩ := updateRto_eq now seg.txTime { a with
        snd := { a.snd with unacknowledged := a.snd.unacknowledged.add (UInt32.ofNat seg.p.len) } }
      rw [hu]
    · rfl
  unfold ackOne at h
  simp only at h
  generalize ackSegment now seg a = t at h hack
  obtain ⟨snd, hc, h⟩ := bind_ok.mp h
  obtain ⟨cw, rfl⟩ := updateCwnd_eq hc
  obtain rfl := Except.ok.inj h
  obtain ⟨sp, ef, hs⟩ := signalSendAvailable_eq { t with
    snd := { t.snd with
      cwnd := cw, currentQueueSpace := t.snd.currentQueueSpace - seg.dataLen.toUInt64 } }
  have hfree : (freeQueueSpace seg { t with snd := { t.snd with cwnd := cw } }).snd.currentQueueSpace =
      a.snd.currentQueueSpace - seg.dataLen.toUInt64 := by
    rw [freeQueueSpace, hs, ← hack]
  show (freeQueueSpace seg { t with snd := { t.snd with cwnd := cw } }).snd.currentQueueSpace.toNat = _
  rw [sentLen_cons] at hq
  rw [hfree, UInt64.toNat_sub_of_le, UInt16.toNat_toUInt64, hq]
  · omega
  · rw [UInt64.le_iff_toNat_le, UInt16.toNat_toUInt64, hq]
    omega

theorem ackWhole_queueSpace {now : Int} {segAck : TcpSeq} {total k : UInt32} {n : Nat}
    {data : List UnackedSegment} {a b : Tcb} (hd : a.snd.data = data)
    (h : ackWhole now segAck total data a = .ok (k, b))
    (hq : a.snd.currentQueueSpace.toNat = n + sentLen data) :
    b.snd.currentQueueSpace.toNat = n + sentLen b.snd.data := by
  induction data generalizing total a with
  | nil =>
    obtain ⟨-, rfl⟩ := Prod.mk.inj (Except.ok.inj h)
    rw [hd, hq]
  | cons seg data ih =>
    rw [ackWhole] at h
    split at h
    · obtain ⟨t, ht, h⟩ := bind_ok.mp h
      exact ih (ackOne_spec ht).2.2 h (ackOne_queueSpace ht hq)
    · obtain ⟨-, rfl⟩ := Prod.mk.inj (Except.ok.inj h)
      rw [hd, hq]

/-- A part of the first segment is cut off; its length stays what it was when it was sent. -/
theorem trimFirst_sentLen {n : Nat} {data data' : List UnackedSegment}
    (h : trimFirst n data = .ok data') : sentLen data' = sentLen data := by
  cases data with
  | nil =>
    obtain rfl := Except.ok.inj h
    rfl
  | cons seg data =>
    obtain ⟨p, -, rfl⟩ := map_ok.mp h
    rfl

theorem ackPart_queueSpace {segAck : TcpSeq} {total k : UInt32} {a b : Tcb}
    (h : ackPart segAck total a = .ok (k, b)) :
    b.snd.currentQueueSpace = a.snd.currentQueueSpace ∧ sentLen b.snd.data = sentLen a.snd.data := by
  unfold ackPart at h
  split at h
  · obtain ⟨data, hd, h⟩ := bind_ok.mp h
    obtain ⟨snd, hc, h⟩ := bind_ok.mp h
    obtain ⟨cw, rfl⟩ := updateCwnd_eq hc
    obtain ⟨-, rfl⟩ := Prod.mk.inj (Except.ok.inj h)
    exact ⟨rfl, trimFirst_sentLen hd⟩
  · obtain ⟨-, rfl⟩ := Prod.mk.inj (Except.ok.inj h)
    exact ⟨rfl, rfl⟩

theorem dataSegmentAcked_accounted {now : Int} {segAck : TcpSeq} {k : UInt32} {a b : Tcb}
    (ha : Accounted a.snd) (h : dataSegmentAcked now segAck a = .ok (k, b)) : Accounted b.snd := by
  obtain ⟨_, _, _, _, _, _, _, _, hsnd⟩ := (dataSegmentAcked_spec h).1.1.eq
  have hlen : b.snd.unsentLen = a.snd.unsentLen := by rw [hsnd]
  have hunsent : b.snd.unsent = a.snd.unsent := by rw [hsnd]
  unfold dataSegmentAcked at h
  obtain ⟨⟨total, t⟩, ht, h⟩ := bind_ok.mp h
  have hw := ackWhole_queueSpace rfl ht ha.queueSpace
  obtain ⟨hq, hd⟩ := ackPart_queueSpace h
  constructor
  · rw [hlen, hunsent, ha.unsentLen]
  · rw [hlen, hq, hd, hw]

/-! ## One turn -/

/-- New data moves from one queue to the other. -/
theorem outputOne_accounted {hw : HwFeatures} {now : Int} {a b : Tcb} (ha : Accounted a.snd)
    (hs : a.state ≠ .closed) (h : outputOne hw now false a = .ok b) : Accounted b.snd := by
  obtain ⟨p, clone, unsent, lt, da, rt, seg, ho, -, -, -, -, hlen, hb⟩ := outputOne_fresh hw now hs
  obtain rfl := Except.ok.inj (ho.symm.trans h)
  have hsum : p.len + totalLen unsent = totalLen a.snd.unsent := by
    rw [totalLen_eq, totalLen_eq, ← hb, List.length_append, Packet.length_bytes]
  have hsub : (a.snd.unsentLen - UInt32.ofNat p.len).toNat = a.snd.unsentLen.toNat - p.len := by
    have hp : (UInt32.ofNat p.len).toNat = p.len := by
      rw [UInt32.toNat_ofNat']
      omega
    rw [UInt32.toNat_sub_of_le, hp]
    rw [UInt32.le_iff_toNat_le, hp, ha.unsentLen]
    omega
  have hu := ha.unsentLen
  have hq := ha.queueSpace
  constructor
  · show (a.snd.unsentLen - UInt32.ofNat p.len).toNat = totalLen unsent
    omega
  · show a.snd.currentQueueSpace.toNat = (a.snd.unsentLen - UInt32.ofNat p.len).toNat +
      sentLen (a.snd.data ++ sentSegments now p clone)
    rw [sentLen_append, sentLen_sentSegments clone hlen]
    omega

theorem Accounted.of_eq {a b : Send} (ha : Accounted a) (hlen : b.unsentLen = a.unsentLen)
    (hunsent : b.unsent = a.unsent) (hspace : b.currentQueueSpace = a.currentQueueSpace)
    (hdata : sentLen b.data = sentLen a.data) : Accounted b := by
  constructor
  · rw [hlen, hunsent, ha.unsentLen]
  · rw [hlen, hspace, hdata, ha.queueSpace]

theorem Accounted.steady {a b : Tcb} (ha : Accounted a.snd) (h : Steady a b) : Accounted b.snd :=
  ha.of_eq (congrArg Core.unsentLen h) (congrArg Core.unsent h)
    (congrArg Core.currentQueueSpace h) (congrArg sentLen h.data)

theorem Accounted.updateWindow {a : Tcb} (ha : Accounted a.snd) (now : Int) (th : TcpHdr)
    (segSeq : TcpSeq) : Accounted (updateWindow now th segSeq a).snd := by
  obtain ⟨pt, po, h⟩ := updateWindow_eq now th segSeq a
  rw [h]
  exact ha.of_eq rfl rfl rfl rfl

theorem initFromOptions_snd {hw : HwFeatures} {th : TcpHdr} {optStart : Bytes} {n : Nat} {a b : Tcb}
    (h : initFromOptions hw th optStart n a = .ok b) :
    b.snd.unsentLen = a.snd.unsentLen ∧ b.snd.unsent = a.snd.unsent ∧
      b.snd.currentQueueSpace = a.snd.currentQueueSpace ∧ b.snd.data = a.snd.data := by
  obtain ⟨o, -, h⟩ := bind_ok.mp h
  obtain rfl := Except.ok.inj h
  exact ⟨rfl, rfl, rfl, rfl⟩

theorem acceptSyn_accounted {a : Tcb} (ha : Accounted a.snd) (th : TcpHdr) :
    Accounted (acceptSyn th a).snd := by
  simp only [acceptSyn]
  split
  · exact ha.of_eq rfl rfl rfl rfl
  · exact ha

/-- A turn of an event that neither sends nor cleans up. -/
theorem Turn.accounted {hw : HwFeatures} {s a b : Tcb} {e : Event} (hsend : ∀ p, e.act ≠ .send p)
    (hclean : ¬ CleansUp s e) (hs : Accounted s.snd) (ha : Accounted a.snd)
    (h : Turn hw s e a b) : Accounted b.snd := by
  cases h with
  | steady h => exact ha.steady h
  | acked _ _ _ h =>
    have hb := dataSegmentAcked_accounted ha h
    unfold takeWindow
    split
    · exact hb.updateWindow _ _ _
    · exact hb
  | opened _ _ _ _ => exact ha.updateWindow _ _ _
  | counted hd => exact ha.of_eq rfl rfl rfl (by rw [hd]; rfl)
  | fresh _ hst h => exact outputOne_accounted ha hst h
  | queued p he _ => exact absurd he (hsend p)
  | persisting _ _ => exact ha
  | probing _ _ _ => exact ha.of_eq rfl rfl rfl rfl
  | established _ _ => exact ha
  | finReceived _ _ => exact ha
  | finAcked _ _ _ _ => exact ha.of_eq rfl rfl rfl rfl
  | closing _ _ _ => exact ha.of_eq rfl rfl rfl rfl
  | cleaned _ hc _ => exact absurd hc hclean
  | crossed _ _ _ _ _ _ => exact acceptSyn_accounted hs _
  | negotiated _ hn =>
    obtain ⟨-, -, -, _, _, _, _, -, -, -, h⟩ := hn
    obtain ⟨hlen, hunsent, hspace, hdata⟩ := initFromOptions_snd h
    exact (acceptSyn_accounted hs _).of_eq hlen hunsent hspace (congrArg sentLen hdata)

/-! ## One event -/

/-- Behind `send` the counters are right when they could count the packet. -/
theorem queueForSend_accounted {p : Packet} {tcb : Tcb} (ha : Accounted tcb.snd) :
    Accounted (queueForSend p tcb).snd ↔ Counts p tcb.snd := by
  have hlen : (queueForSend p tcb).snd.unsentLen.toNat =
      (tcb.snd.unsentLen.toNat + p.len % 2 ^ 32) % 2 ^ 32 := by
    show (tcb.snd.unsentLen + UInt32.ofNat p.len).toNat = _
    rw [UInt32.toNat_add, UInt32.toNat_ofNat']
  have hspace : (queueForSend p tcb).snd.currentQueueSpace.toNat =
      (tcb.snd.currentQueueSpace.toNat + p.len % 2 ^ 64) % 2 ^ 64 := by
    show (tcb.snd.currentQueueSpace + UInt64.ofNat p.len).toNat = _
    rw [UInt64.toNat_add, UInt64.toNat_ofNat']
  have htotal : totalLen (queueForSend p tcb).snd.unsent = totalLen tcb.snd.unsent + p.len := by
    show totalLen (tcb.snd.unsent ++ [p]) = _
    simp [totalLen]
  have hdata : sentLen (queueForSend p tcb).snd.data = sentLen tcb.snd.data := rfl
  have hu := ha.unsentLen
  have hq := ha.queueSpace
  constructor
  · rintro ⟨hu', hq'⟩
    unfold Counts
    omega
  · rintro ⟨h32, h64⟩
    constructor
    · omega
    · omega

/-- The counters stay right, and no timer stays armed, exactly under the condition. -/
theorem step_accounted {hw : HwFeatures} {s t : Tcb} {e : Event} (ha : Accounted s.snd)
    (h : step hw s e = .ok t) :
    LeavesNothing s e ↔ Accounted t.snd ∧ (CleansUp s e → Unarmed t) := by
  by_cases hsend : ∃ p, e.act = .send p
  · obtain ⟨now, act⟩ := e
    obtain ⟨p, rfl⟩ := hsend
    obtain rfl := Except.ok.inj h
    have hclean : ¬ CleansUp s ⟨now, .send p⟩ := id
    show (sendRefused s = false → Counts p s.snd) ↔ _
    cases hr : sendRefused s with
    | true =>
      have hsame : s.send p = s := if_pos hr
      rw [hsame]
      exact ⟨fun _ => ⟨ha, fun hc => absurd hc hclean⟩, fun _ => nofun⟩
    | false =>
      have hs := send_steady (p := p) hr
      have hiff : Accounted (s.send p).snd ↔ Accounted (queueForSend p s).snd :=
        ⟨fun h => h.steady hs.symm, fun h => h.steady hs⟩
      rw [hiff, queueForSend_accounted ha]
      exact ⟨fun hc => ⟨hc rfl, fun h => absurd h hclean⟩, fun hc _ => hc.1⟩
  rw [not_exists] at hsend
  have hcond : LeavesNothing s e ↔ (CleansUp s e →
      s.snd.unsentLen = 0 ∧ s.snd.currentQueueSpace = 0 ∧ s.persistTimer = none) := by
    obtain ⟨now, act⟩ := e
    cases act with
    | send p => exact absurd rfl (hsend p)
    | _ => exact Iff.rfl
  rw [hcond]
  by_cases hc : CleansUp s e
  · have hk := step_cleanedFrom hc h
    constructor
    · intro hl
      obtain ⟨hlen, hspace, htimer⟩ := hl hc
      refine ⟨⟨?_, ?_⟩, fun _ => ⟨hk.retransmitTimer, hk.delayedAck, hk.persistTimer.trans htimer⟩⟩
      · rw [hk.unsentLen, hk.unsent, hlen]
        rfl
      · rw [hk.currentQueueSpace, hk.unsentLen, hk.data, hlen, hspace]
        rfl
    · rintro ⟨ht, hun⟩ -
      have hlen := ht.unsentLen
      have hspace := ht.queueSpace
      rw [hk.unsentLen, hk.unsent] at hlen
      rw [hk.currentQueueSpace, hk.unsentLen, hk.data, hlen] at hspace
      exact ⟨UInt32.toNat_inj.mp hlen, UInt64.toNat_inj.mp hspace,
        hk.persistTimer.symm.trans (hun hc).2.2⟩
  · have ht : Accounted t.snd := by
      have hturns := step_turns h
      clear h
      induction hturns with
      | refl => exact ha
      | tail _ hturn ih => exact hturn.accounted hsend hc ha ih
    exact ⟨fun _ => ⟨ht, fun h => absurd h hc⟩, fun _ h => absurd h hc⟩

/-! ## Runs -/

theorem Accounted.doSynReceived {tcb : Tcb} (ha : Accounted tcb.snd) (now : Int) :
    Accounted (doSynReceived now tcb).snd := by
  have hb : Accounted { tcb.snd with synTxTime := now } := ha.of_eq rfl rfl rfl rfl
  exact Accounted.steady (a := { tcb with
    state := .synReceived, snd := { tcb.snd with synTxTime := now } }) hb (output_steady _)

theorem Opened.accounted {hw : HwFeatures} {tcb : Tcb} (h : Opened hw tcb) : Accounted tcb.snd := by
  cases h with
  | active mem id now isn =>
    have ho := output_steady { (doSetupIsn isn (Stack.newTcb mem id)) with
      option := { (Stack.newTcb mem id).option with localWinScale := 7, localMss := localMss hw }
      rcv := { (Stack.newTcb mem id).rcv with
        windowScale := 7, mss := localMss hw
        window := getDefaultReceiveWindowSize
          { (Stack.newTcb mem id).rcv with windowScale := 7, mss := localMss hw } }
      state := .synSent
      snd := { (doSetupIsn isn (Stack.newTcb mem id)).snd with synTxTime := now } }
    exact Accounted.steady ⟨rfl, rfl⟩ ho
  | passive _ _ _ h =>
    obtain ⟨⟨hdr, q⟩, -, h⟩ := bind_ok.mp h
    obtain ⟨area, -, h⟩ := bind_ok.mp h
    obtain ⟨b, hb, h⟩ := bind_ok.mp h
    obtain rfl := Except.ok.inj h
    obtain ⟨hlen, hunsent, hspace, hdata⟩ := initFromOptions_snd hb
    refine Accounted.doSynReceived ⟨?_, ?_⟩ _
    · rw [hlen, hunsent]
      rfl
    · rw [hlen, hspace, hdata]
      rfl

/-- In every state of a run the counters count the queues, and behind every event that cleans
up no timer is armed, exactly when these events find nothing queued, nothing
unacknowledged and the persist timer unarmed, and both counters can count what is sent. -/
theorem run_accounted (hw : HwFeatures) {tcb t : Tcb} (es : List Event) (ho : Opened hw tcb)
    (hr : run hw tcb es = .ok t) :
    (Along hw (fun s e => Accounted s.snd ∧
        ∀ u, step hw s e = .ok u → CleansUp s e → Unarmed u) tcb es ∧ Accounted t.snd) ↔
      Along hw LeavesNothing tcb es := by
  have ha := ho.accounted
  clear ho
  induction es generalizing tcb with
  | nil =>
    obtain rfl := Except.ok.inj hr
    exact ⟨fun _ => trivial, fun _ => ⟨trivial, ha⟩⟩
  | cons e es ih =>
    obtain ⟨u, hu, hr⟩ := Run.run_cons_ok.mp hr
    have hstep := step_accounted ha hu
    constructor
    · rintro ⟨⟨⟨-, hun⟩, htail⟩, ht⟩
      -- the state behind the event is the first one of the rest of the run
      have hacc : Accounted u.snd := by
        cases es with
        | nil =>
          obtain rfl := Except.ok.inj hr
          exact ht
        | cons e' es => exact (htail u hu).1.1
      refine ⟨hstep.mpr ⟨hacc, hun u hu⟩, fun u' hu' => ?_⟩
      obtain rfl := Except.ok.inj (hu.symm.trans hu')
      exact (ih hr hacc).mp ⟨htail u hu, ht⟩
    · rintro ⟨hl, htail⟩
      obtain ⟨hacc, hun⟩ := hstep.mp hl
      obtain ⟨hrest, ht⟩ := (ih hr hacc).mpr (htail u hu)
      refine ⟨⟨⟨ha, fun u' hu' => ?_⟩, fun u' hu' => ?_⟩, ht⟩
      · obtain rfl := Except.ok.inj (hu.symm.trans hu')
        exact hun
      · obtain rfl := Except.ok.inj (hu.symm.trans hu')
        exact hrest

instance (tcb : Tcb) : (e : Event) → Decidable (LeavesNothing tcb e)
  | ⟨_, .send p⟩ => inferInstanceAs (Decidable (sendRefused tcb = false →
      tcb.snd.unsentLen.toNat + p.len < 2 ^ 32 ∧ tcb.snd.currentQueueSpace.toNat + p.len < 2 ^ 64))
  | ⟨now, .segment th p⟩ => inferInstanceAs (Decidable (CleansUp tcb ⟨now, .segment th p⟩ → _))
  | ⟨now, .shutdownConnect⟩ => inferInstanceAs (Decidable (CleansUp tcb ⟨now, .shutdownConnect⟩ → _))
  | ⟨now, .retransmitExpires⟩ =>
    inferInstanceAs (Decidable (CleansUp tcb ⟨now, .retransmitExpires⟩ → _))
  | ⟨now, .arpTimeout⟩ => inferInstanceAs (Decidable (CleansUp tcb ⟨now, .arpTimeout⟩ → _))
  | ⟨_, .read⟩ | ⟨_, .waitForData⟩ | ⟨_, .abortReader⟩ | ⟨_, .close⟩ | ⟨_, .closeContinue⟩
  | ⟨_, .getPacket⟩ | ⟨_, .persistExpires⟩ | ⟨_, .delayedAckExpires⟩ | ⟨_, .arpQueueFull⟩ =>
    .isTrue fun h => h.elim

/-- The connection sends "a", all of which the peer acknowledges, leaving `window` bytes of
window; with `more` given to it, it gets a reset. -/
def resetAfter (window : UInt8) (more : List Packet) : List Event :=
  handshake ++ [⟨3, .send (Packet.ofFrags [[97]])⟩, ⟨4, .getPacket⟩,
    ⟨5, .arrives [0, 80, 160, 0, 0, 0, 0, 8, 0, 0, 0, 102, 0x50, 0x10, 0, window, 0, 0, 0, 0]⟩] ++
  more.map (fun p => ⟨6, .send p⟩) ++
  [⟨7, .arrives [0, 80, 160, 0, 0, 0, 0, 8, 0, 0, 0, 0, 0x50, 0x04, 0, 0, 0, 0, 0, 0]⟩]

/-- With nothing left to send the reset leaves nothing. -/
theorem resetAfter_accounted : ∃ t,
    run {} ((Stack.newTcb {} ⟨0, 0, 0, 0⟩).connect {} 0 ⟨100⟩) (resetAfter 10 []) = .ok t ∧
      Along {} (fun s e => Accounted s.snd ∧ ∀ u, step {} s e = .ok u → CleansUp s e → Unarmed u)
        ((Stack.newTcb {} ⟨0, 0, 0, 0⟩).connect {} 0 ⟨100⟩) (resetAfter 10 []) :=
  ⟨_, rfl, ((run_accounted {} (resetAfter 10 []) (.active {} ⟨0, 0, 0, 0⟩ 0 ⟨100⟩) rfl).mpr
    (by decide +kernel)).1⟩

/-- With "b" queued behind a closed window, the counters keep counting it, and the persist
timer of the dead connection stays armed. -/
theorem resetAfter_keeps : ∃ t,
    run {} ((Stack.newTcb {} ⟨0, 0, 0, 0⟩).connect {} 0 ⟨100⟩)
      (resetAfter 0 [Packet.ofFrags [[98]]]) = .ok t ∧
    t.state = .closed ∧ t.snd.unsent = [] ∧ t.snd.data = [] ∧ t.snd.unsentLen = 1 ∧
    t.snd.currentQueueSpace = 1 ∧ t.persistTimer ≠ none ∧ ¬ Accounted t.snd ∧ ¬ Unarmed t := by
  refine ⟨_, rfl, rfl, rfl, rfl, rfl, rfl, ?_, ?_, ?_⟩
  · decide +kernel
  · intro h
    exact absurd h.unsentLen (by decide +kernel)
  · intro h
    exact absurd h.2.2 (by decide +kernel)

end Seastar.Net.Tcp.Tcb
