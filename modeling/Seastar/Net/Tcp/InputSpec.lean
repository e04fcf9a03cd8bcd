import Seastar.Net.Tcp.Input
import Seastar.Net.Tcp.OutputSpec

/-!
What each part of `input_handle_other_state` changes, and what it leaves alone.
-/

namespace Seastar.Net.Tcp.Tcb

open Lib

/-! ## Acknowledged data -/

theorem updateCwnd_eq {ackedBytes : UInt32} {snd snd' : Send}
    (h : updateCwnd ackedBytes snd = .ok snd') : ∃ cw, snd' = { snd with cwnd := cw } := by
  unfold updateCwnd at h
  simp only at h
  split at h
  · exact ⟨_, (Except.ok.inj h).symm⟩
  · split at h
    · cases h
    · exact ⟨_, (Except.ok.inj h).symm⟩

theorem updateCwnd_error {ackedBytes : UInt32} {snd : Send} {f : Fault}
    (h : updateCwnd ackedBytes snd = .error f) : f = .divideByZero := by
  unfold updateCwnd at h
  simp only at h
  split at h
  · cases h
  · split at h
    · exact (Except.error.inj h).symm
    · cases h

/-- SND.UNA and the queue after the segments an acknowledgement covers whole are gone. -/
def ackedWhole (segAck : TcpSeq) : TcpSeq → List UnackedSegment → TcpSeq × List UnackedSegment
  | una, [] => (una, [])
  | una, seg :: data =>
    if (una.add (UInt32.ofNat seg.p.len)).le segAck then
      ackedWhole segAck (una.add (UInt32.ofNat seg.p.len)) data
    else (una, seg :: data)

/-- The members of `send` that an acknowledgement of data changes. -/
structure AckChange (snd snd' : Send) : Prop where
  eq : ∃ ua dt cw cq sp fs rv sr, snd' =
    { snd with
      unacknowledged := ua, data := dt, cwnd := cw, currentQueueSpace := cq
      sendAvailablePromise := sp, firstRtoSample := fs, rttvar := rv, srtt := sr }

theorem AckChange.refl (snd : Send) : AckChange snd snd :=
  ⟨_, _, _, _, _, _, _, _, rfl⟩

theorem AckChange.trans {a b c : Send} (h : AckChange a b) (h' : AckChange b c) :
    AckChange a c := by
  obtain ⟨_, _, _, _, _, _, _, _, rfl⟩ := h.eq
  obtain ⟨_, _, _, _, _, _, _, _, rfl⟩ := h'.eq
  exact ⟨_, _, _, _, _, _, _, _, rfl⟩

/-- Apart from `send`, an acknowledgement of data changes the timeout and wakes senders. -/
def AckFrame (tcb tcb' : Tcb) : Prop :=
  AckChange tcb.snd tcb'.snd ∧ ∃ rto ef, tcb' = { tcb with snd := tcb'.snd, rto := rto, effects := ef }

theorem AckFrame.refl (tcb : Tcb) : AckFrame tcb tcb := ⟨.refl _, _, _, rfl⟩

theorem AckFrame.trans {a b c : Tcb} (h : AckFrame a b) (h' : AckFrame b c) : AckFrame a c := by
  obtain ⟨hs, rto, ef, hb⟩ := h
  obtain ⟨hs', rto', ef', hc⟩ := h'
  refine ⟨hs.trans hs', rto', ef', ?_⟩
  rw [hc, hb]

theorem AckFrame.of_snd {tcb : Tcb} {snd : Send} (h : AckChange tcb.snd snd) :
    AckFrame tcb { tcb with snd := snd } := ⟨h, tcb.rto, tcb.effects, rfl⟩

theorem ackSegment_spec (now : Int) (seg : UnackedSegment) (tcb : Tcb) :
    AckFrame tcb (ackSegment now seg tcb) ∧
      (ackSegment now seg tcb).snd.unacknowledged =
        tcb.snd.unacknowledged.add (UInt32.ofNat seg.p.len) := by
  have h₁ : AckFrame tcb { tcb with
      snd := { tcb.snd with
        unacknowledged := tcb.snd.unacknowledged.add (UInt32.ofNat seg.p.len) } } :=
    .of_snd ⟨_, tcb.snd.data, tcb.snd.cwnd, tcb.snd.currentQueueSpace,
      tcb.snd.sendAvailablePromise, tcb.snd.firstRtoSample, tcb.snd.rttvar, tcb.snd.srtt, rfl⟩
  unfold ackSegment
  simp only
  split
  · obtain ⟨fs, rv, sr, rto, h⟩ := updateRto_eq now seg.txTime { tcb with
      snd := { tcb.snd with
        unacknowledged := tcb.snd.unacknowledged.add (UInt32.ofNat seg.p.len) } }
    rw [h]
    exact ⟨⟨⟨_, tcb.snd.data, tcb.snd.cwnd, tcb.snd.currentQueueSpace,
      tcb.snd.sendAvailablePromise, fs, rv, sr, rfl⟩, rto, tcb.effects, rfl⟩, rfl⟩
  · exact ⟨h₁, rfl⟩

theorem freeQueueSpace_spec (seg : UnackedSegment) (tcb : Tcb) :
    AckFrame tcb (freeQueueSpace seg tcb) ∧
      (freeQueueSpace seg tcb).snd.unacknowledged = tcb.snd.unacknowledged := by
  obtain ⟨sp, ef, h⟩ := signalSendAvailable_eq { tcb with
    snd := { tcb.snd with
      currentQueueSpace := tcb.snd.currentQueueSpace - seg.dataLen.toUInt64 } }
  rw [freeQueueSpace, h]
  exact ⟨⟨⟨tcb.snd.unacknowledged, tcb.snd.data, tcb.snd.cwnd, _, sp,
    tcb.snd.firstRtoSample, tcb.snd.rttvar, tcb.snd.srtt, rfl⟩, tcb.rto, ef, rfl⟩, rfl⟩

theorem ackOne_spec {now : Int} {seg : UnackedSegment} {data : List UnackedSegment}
    {tcb tcb' : Tcb} (h : ackOne now seg data tcb = .ok tcb') :
    AckFrame tcb tcb' ∧
      tcb'.snd.unacknowledged = tcb.snd.unacknowledged.add (UInt32.ofNat seg.p.len) ∧
      tcb'.snd.data = data := by
  unfold ackOne at h
  obtain ⟨h₁, hu₁⟩ := ackSegment_spec now seg tcb
  generalize ackSegment now seg tcb = t₁ at h h₁ hu₁
  obtain ⟨snd, hc, h⟩ := bind_ok.mp h
  obtain ⟨cw, rfl⟩ := updateCwnd_eq hc
  have h₂ : AckFrame t₁ { t₁ with snd := { t₁.snd with cwnd := cw } } :=
    .of_snd ⟨t₁.snd.unacknowledged, t₁.snd.data, cw, t₁.snd.currentQueueSpace,
      t₁.snd.sendAvailablePromise, t₁.snd.firstRtoSample, t₁.snd.rttvar, t₁.snd.srtt, rfl⟩
  obtain ⟨h₃, hu₃⟩ := freeQueueSpace_spec seg { t₁ with snd := { t₁.snd with cwnd := cw } }
  generalize freeQueueSpace seg { t₁ with snd := { t₁.snd with cwnd := cw } } = t₃ at h h₃ hu₃
  obtain rfl := Except.ok.inj h
  have h₄ : AckFrame t₃ { t₃ with snd := { t₃.snd with data := data } } :=
    .of_snd ⟨t₃.snd.unacknowledged, data, t₃.snd.cwnd, t₃.snd.currentQueueSpace,
      t₃.snd.sendAvailablePromise, t₃.snd.firstRtoSample, t₃.snd.rttvar, t₃.snd.srtt, rfl⟩
  exact ⟨h₁.trans (h₂.trans (h₃.trans h₄)), hu₃.trans hu₁, rfl⟩

theorem ackWhole_spec {now : Int} {segAck : TcpSeq} {total n : UInt32} {data : List UnackedSegment}
    {tcb tcb' : Tcb} (hd : tcb.snd.data = data)
    (h : ackWhole now segAck total data tcb = .ok (n, tcb')) :
    AckFrame tcb tcb' ∧
      (tcb'.snd.unacknowledged, tcb'.snd.data) = ackedWhole segAck tcb.snd.unacknowledged data := by
  induction data generalizing total tcb with
  | nil =>
    obtain ⟨-, rfl⟩ := Prod.mk.inj (Except.ok.inj h)
    exact ⟨.refl _, by rw [hd]; rfl⟩
  | cons seg data ih =>
    rw [ackWhole] at h
    rw [ackedWhole]
    split at h
    · rename_i hle
      obtain ⟨t, ht, h⟩ := bind_ok.mp h
      obtain ⟨hf, hua, hdt⟩ := ackOne_spec ht
      obtain ⟨hf', he⟩ := ih hdt h
      rw [if_pos hle, he, hua]
      exact ⟨hf.trans hf', rfl⟩
    · rename_i hle
      obtain ⟨-, rfl⟩ := Prod.mk.inj (Except.ok.inj h)
      exact ⟨.refl _, by rw [if_neg hle, hd]⟩

/-- The queue after an acknowledgement that ends inside its first segment. -/
def ackedPart (segAck : TcpSeq) (q : TcpSeq × List UnackedSegment) :
    Except Fault (List UnackedSegment) :=
  if q.1.lt segAck then trimFirst (sizeOfInt (segAck.diff q.1)) q.2 else .ok q.2

theorem ackPart_spec {segAck : TcpSeq} {total n : UInt32} {tcb tcb' : Tcb}
    (h : ackPart segAck total tcb = .ok (n, tcb')) :
    AckFrame tcb tcb' ∧
      tcb'.snd.unacknowledged =
        (if tcb.snd.unacknowledged.lt segAck then segAck else tcb.snd.unacknowledged) ∧
      ackedPart segAck (tcb.snd.unacknowledged, tcb.snd.data) = .ok tcb'.snd.data := by
  unfold ackPart at h
  rw [ackedPart]
  split at h
  · rename_i hlt
    obtain ⟨data, hd, h⟩ := bind_ok.mp h
    obtain ⟨snd, hc, h⟩ := bind_ok.mp h
    obtain ⟨cw, rfl⟩ := updateCwnd_eq hc
    obtain ⟨-, rfl⟩ := Prod.mk.inj (Except.ok.inj h)
    rw [if_pos hlt, if_pos hlt]
    exact ⟨.of_snd ⟨segAck, data, cw, tcb.snd.currentQueueSpace, tcb.snd.sendAvailablePromise,
      tcb.snd.firstRtoSample, tcb.snd.rttvar, tcb.snd.srtt, rfl⟩, rfl, hd⟩
  · rename_i hlt
    obtain ⟨-, rfl⟩ := Prod.mk.inj (Except.ok.inj h)
    rw [if_neg hlt, if_neg hlt]
    exact ⟨.refl _, rfl, rfl⟩

theorem dataSegmentAcked_spec {now : Int} {segAck : TcpSeq} {n : UInt32} {tcb tcb' : Tcb}
    (h : dataSegmentAcked now segAck tcb = .ok (n, tcb')) :
    AckFrame tcb tcb' ∧
      tcb'.snd.unacknowledged =
        (if (ackedWhole segAck tcb.snd.unacknowledged tcb.snd.data).1.lt segAck then segAck
        else (ackedWhole segAck tcb.snd.unacknowledged tcb.snd.data).1) ∧
      ackedPart segAck (ackedWhole segAck tcb.snd.unacknowledged tcb.snd.data) =
        .ok tcb'.snd.data := by
  obtain ⟨⟨total, t⟩, ht, h⟩ := bind_ok.mp h
  obtain ⟨hf, he⟩ := ackWhole_spec rfl ht
  obtain ⟨hf', hu, hd⟩ := ackPart_spec h
  rw [← he]
  exact ⟨hf.trans hf', hu, hd⟩

theorem ackOne_error {now : Int} {seg : UnackedSegment} {data : List UnackedSegment} {tcb : Tcb}
    {f : Fault} (h : ackOne now seg data tcb = .error f) : f = .divideByZero := by
  rcases bind_error.mp h with h | ⟨_, _, h⟩
  · exact updateCwnd_error h
  · cases h

theorem ackWhole_error {now : Int} {segAck : TcpSeq} {total : UInt32} {data : List UnackedSegment}
    {tcb : Tcb} {f : Fault} (h : ackWhole now segAck total data tcb = .error f) :
    f = .divideByZero := by
  induction data generalizing total tcb with
  | nil => cases h
  | cons seg data ih =>
    rw [ackWhole] at h
    split at h
    · rcases bind_error.mp h with h | ⟨_, _, h⟩
      · exact ackOne_error h
      · exact ih h
    · cases h

theorem ackPart_error {segAck : TcpSeq} {total : UInt32} {tcb : Tcb} {f : Fault}
    (h : ackPart segAck total tcb = .error f) : f = .divideByZero ∨
      (f = .trimTooLong ∧ ackedPart segAck (tcb.snd.unacknowledged, tcb.snd.data) = .error f) := by
  unfold ackPart at h
  split at h
  · rename_i hlt
    rcases bind_error.mp h with h | ⟨data, -, h⟩
    · right
      rw [ackedPart, if_pos hlt]
      refine ⟨?_, h⟩
      cases hq : tcb.snd.data with
      | nil => rw [hq] at h; cases h
      | cons seg data =>
        rw [hq, trimFirst] at h
        cases hp : seg.p.trimFront (sizeOfInt (segAck.diff tcb.snd.unacknowledged)) with
        | ok p => rw [hp] at h; cases h
        | error e =>
          rw [hp] at h
          rw [← (Packet.trimFront_error hp).1]
          exact (Except.error.inj h).symm
    · rcases bind_error.mp h with h | ⟨_, _, h⟩
      · exact Or.inl (updateCwnd_error h)
      · cases h
  · cases h

/-- The division in `update_cwnd` and the trim of a partial ACK are all that can fail. -/
theorem dataSegmentAcked_error {now : Int} {segAck : TcpSeq} {tcb : Tcb} {f : Fault}
    (h : dataSegmentAcked now segAck tcb = .error f) : f = .divideByZero ∨ (f = .trimTooLong ∧
      ackedPart segAck (ackedWhole segAck tcb.snd.unacknowledged tcb.snd.data) = .error f) := by
  rcases bind_error.mp h with h | ⟨⟨total, u⟩, hu, h⟩
  · exact Or.inl (ackWhole_error h)
  · rw [← (ackWhole_spec rfl hu).2]
    exact ackPart_error h

theorem updateWindow_eq (now : Int) (th : TcpHdr) (segSeq : TcpSeq) (tcb : Tcb) :
    ∃ pt po, updateWindow now th segSeq tcb =
      { tcb with
        snd := { tcb.snd with
          window := th.window.toUInt32 <<< tcb.snd.windowScale.toUInt32
          wl1 := segSeq, wl2 := th.ack, zeroWindowProbingOut := 0 }
        persistTimer := pt
        persistTimeOut := po } := by
  unfold updateWindow
  simp only
  split
  · exact ⟨_, _, rfl⟩
  · exact ⟨_, _, rfl⟩

theorem setRetransmitTimer_eq (now : Int) (tcb : Tcb) :
    ∃ rt pr ct ef, setRetransmitTimer now tcb =
      { tcb with
        snd := { tcb.snd with allDataAckedPromise := pr }
        retransmitTimer := rt, closeTasks := ct, effects := ef } := by
  unfold setRetransmitTimer
  split
  · obtain ⟨pr, ct, ef, h⟩ := signalAllDataAcked_eq { tcb with retransmitTimer := none }
    exact ⟨_, pr, ct, ef, h⟩
  · exact ⟨_, _, _, _, rfl⟩

/-! ## The ACK field -/

theorem updateWindow_quiet (now : Int) (th : TcpHdr) (segSeq : TcpSeq) (tcb : Tcb) :
    Quiet tcb (updateWindow now th segSeq tcb) := by
  obtain ⟨pt, po, h⟩ := updateWindow_eq now th segSeq tcb
  rw [h]
  constructor <;> rfl

theorem setRetransmitTimer_quiet (now : Int) (tcb : Tcb) :
    Quiet tcb (setRetransmitTimer now tcb) := by
  obtain ⟨rt, pr, ct, ef, h⟩ := setRetransmitTimer_eq now tcb
  rw [h]
  constructor <;> rfl

/-- What the ACK field of a segment does to a connection, in single moves. -/
inductive Move : Tcb → Tcb → Prop
  | quiet {a b : Tcb} : Quiet a b → Move a b
  | acked {a b : Tcb} {now : Int} {segAck : TcpSeq} {n : UInt32} : acksNewData segAck a.snd →
      dataSegmentAcked now segAck a = .ok (n, b) → Move a b
  | retransmitted {a b : Tcb} : Retransmitted a b → Move a b

/-- A sequence of moves. -/
abbrev Moves : Tcb → Tcb → Prop := Relation.ReflTransGen Move

theorem Moves.quiet {a b : Tcb} (h : Quiet a b) : Moves a b := .single (.quiet h)

theorem Move.frame {a b : Tcb} (h : Move a b) : b.rcv = a.rcv ∧ b.state = a.state := by
  cases h with
  | quiet h => exact ⟨h.rcv, h.state⟩
  | acked _ h =>
    obtain ⟨⟨-, rto, ef, h⟩, -⟩ := dataSegmentAcked_spec h
    rw [h]
    exact ⟨rfl, rfl⟩
  | retransmitted h =>
    obtain ⟨seg, data, da, s, pa, ef, -, -, -, rfl⟩ := h
    exact ⟨rfl, rfl⟩

/-- The moves of the ACK field leave the receiving half and the state alone. -/
theorem Moves.frame {a b : Tcb} (h : Moves a b) : b.rcv = a.rcv ∧ b.state = a.state := by
  induction h with
  | refl => exact ⟨rfl, rfl⟩
  | tail _ h ih => exact ⟨h.frame.1.trans ih.1, h.frame.2.trans ih.2⟩

theorem fastRetransmit_moves {hw : HwFeatures} {now : Int} {tcb t : Tcb}
    (hs : tcb.state ≠ .closed) (h : fastRetransmit hw now tcb = .ok t) : Moves tcb t := by
  rcases fastRetransmit_spec hw now hs with ⟨-, he⟩ | ⟨-, t', ht, hr⟩
  · rw [he] at h
    cases h
  · obtain rfl := Except.ok.inj (ht.symm.trans h)
    rcases hr with rfl | ⟨u, hu, hq⟩
    · exact .refl
    · exact .head (.retransmitted hu) (Moves.quiet hq)

theorem afterNewAck_moves {hw : HwFeatures} {now : Int} {segAck : TcpSeq} {n : UInt32} {tcb t : Tcb}
    (hs : tcb.state ≠ .closed) (h : afterNewAck hw now segAck n tcb = .ok t) : Moves tcb t := by
  unfold afterNewAck at h
  simp only at h
  split at h
  · split at h
    · obtain rfl := Except.ok.inj h
      refine Relation.ReflTransGen.trans (Moves.quiet ?_) (Moves.quiet (setRetransmitTimer_quiet _ _))
      constructor <;> rfl
    · obtain ⟨u, hu, h⟩ := bind_ok.mp h
      obtain rfl := Except.ok.inj h
      refine (fastRetransmit_moves hs hu).trans (Moves.quiet ?_)
      split
      · constructor <;> rfl
      · constructor <;> rfl
  · obtain rfl := Except.ok.inj h
    refine Relation.ReflTransGen.trans (Moves.quiet ?_) (Moves.quiet (setRetransmitTimer_quiet _ _))
    constructor <;> rfl

theorem ackNewData_moves {hw : HwFeatures} {now : Int} {th : TcpHdr} {segSeq : TcpSeq} {tcb t : Tcb}
    (hs : tcb.state ≠ .closed) (hn : acksNewData th.ack tcb.snd)
    (h : ackNewData hw now th segSeq tcb = .ok t) : Moves tcb t := by
  obtain ⟨⟨n, u⟩, hu, h⟩ := bind_ok.mp h
  have hm : Move tcb u := .acked hn hu
  have hm' : Moves u (if updatesWindow segSeq th.ack u.snd then updateWindow now th segSeq u
      else u) := by
    split
    · exact Moves.quiet (updateWindow_quiet _ _ _ _)
    · exact .refl
  have hst := (Moves.frame (.head hm hm')).2
  exact .head hm (hm'.trans (afterNewAck_moves (by rw [hst]; exact hs) h))

theorem enterFastRetransmit_moves {hw : HwFeatures} {now : Int} {segAck : TcpSeq} {tcb t : Tcb}
    (hs : tcb.state ≠ .closed) (h : enterFastRetransmit hw now segAck tcb = .ok t) :
    Moves tcb t := by
  unfold enterFastRetransmit at h
  split at h
  · refine Relation.ReflTransGen.trans (Moves.quiet ?_) (fastRetransmit_moves ?_ h)
    · constructor <;> rfl
    · exact hs
  · obtain rfl := Except.ok.inj h
    exact .refl

theorem duplicateAck_moves {hw : HwFeatures} {now : Int} {segAck : TcpSeq} {tcb t : Tcb} {b : Bool}
    (hs : tcb.state ≠ .closed) (h : duplicateAck hw now segAck tcb = .ok (t, b)) : Moves tcb t := by
  unfold duplicateAck at h
  simp only at h
  split at h
  · obtain ⟨rfl, -⟩ := Prod.mk.inj (Except.ok.inj h)
    exact Moves.quiet (by constructor <;> rfl)
  split at h
  · obtain ⟨u, hu, h⟩ := bind_ok.mp h
    obtain ⟨rfl, -⟩ := Prod.mk.inj (Except.ok.inj h)
    have hm : Moves tcb { tcb with snd := { tcb.snd with dupacks := tcb.snd.dupacks + 1 } } :=
      Moves.quiet (by constructor <;> rfl)
    refine hm.trans ((enterFastRetransmit_moves ?_ hu).trans (Moves.quiet ?_))
    · exact hs
    · constructor <;> rfl
  split at h
  · obtain ⟨rfl, -⟩ := Prod.mk.inj (Except.ok.inj h)
    exact Moves.quiet (by constructor <;> rfl)
  · obtain ⟨rfl, -⟩ := Prod.mk.inj (Except.ok.inj h)
    exact Moves.quiet (by constructor <;> rfl)

/-- The connection in either way a part of the handler ends. -/
def Flow.tcb : Flow → Tcb
  | .ret tcb => tcb
  | .go tcb _ => tcb

theorem ackEstablished_moves {hw : HwFeatures} {now : Int} {th : TcpHdr} {segSeq : TcpSeq}
    {segLen : Nat} {tcb : Tcb} {r : Flow} (hs : tcb.state ≠ .closed)
    (h : ackEstablished hw now th segSeq segLen tcb = .ok r) : Moves tcb r.tcb := by
  unfold ackEstablished at h
  split at h
  · rename_i hn
    obtain ⟨u, hu, h⟩ := bind_ok.mp h
    obtain rfl := Except.ok.inj h
    exact ackNewData_moves hs hn hu
  split at h
  · obtain ⟨⟨u, b⟩, hu, h⟩ := bind_ok.mp h
    obtain rfl := Except.ok.inj h
    exact duplicateAck_moves hs hu
  split at h
  · obtain rfl := Except.ok.inj h
    exact Moves.quiet (output_quiet _)
  split at h
  · obtain rfl := Except.ok.inj h
    exact Moves.quiet (updateWindow_quiet _ _ _ _)
  · obtain rfl := Except.ok.inj h
    exact .refl

/-- What can go wrong while the ACK field is handled. -/
def AckFault (f : Fault) : Prop := f = .divideByZero ∨ f = .trimTooLong ∨ f = .closedWindow

theorem fastRetransmit_error {hw : HwFeatures} {now : Int} {tcb : Tcb} {f : Fault}
    (hs : tcb.state ≠ .closed) (h : fastRetransmit hw now tcb = .error f) : f = .closedWindow := by
  rcases fastRetransmit_spec hw now hs with ⟨-, he⟩ | ⟨-, t, ht, -⟩
  · rw [he] at h
    exact (Except.error.inj h).symm
  · rw [ht] at h
    cases h

theorem afterNewAck_error {hw : HwFeatures} {now : Int} {segAck : TcpSeq} {n : UInt32} {tcb : Tcb}
    {f : Fault} (hs : tcb.state ≠ .closed) (h : afterNewAck hw now segAck n tcb = .error f) :
    f = .closedWindow := by
  unfold afterNewAck at h
  simp only at h
  split at h
  · split at h
    · cases h
    · rcases bind_error.mp h with h | ⟨_, _, h⟩
      · exact fastRetransmit_error hs h
      · cases h
  · cases h

theorem ackNewData_error {hw : HwFeatures} {now : Int} {th : TcpHdr} {segSeq : TcpSeq} {tcb : Tcb}
    {f : Fault} (hs : tcb.state ≠ .closed) (hn : acksNewData th.ack tcb.snd)
    (h : ackNewData hw now th segSeq tcb = .error f) :
    dataSegmentAcked now th.ack tcb = .error f ∨ f = .closedWindow := by
  rcases bind_error.mp h with h | ⟨⟨n, u⟩, hu, h⟩
  · exact Or.inl h
  have hm : Move tcb u := .acked hn hu
  have hst : (if updatesWindow segSeq th.ack u.snd then updateWindow now th segSeq u else u).state =
      tcb.state := by
    split
    · exact (updateWindow_quiet _ _ _ _).state.trans hm.frame.2
    · exact hm.frame.2
  exact Or.inr (afterNewAck_error (by rw [hst]; exact hs) h)

theorem duplicateAck_error {hw : HwFeatures} {now : Int} {segAck : TcpSeq} {tcb : Tcb} {f : Fault}
    (hs : tcb.state ≠ .closed) (h : duplicateAck hw now segAck tcb = .error f) :
    f = .closedWindow := by
  unfold duplicateAck at h
  simp only at h
  split at h
  · cases h
  split at h
  · rcases bind_error.mp h with h | ⟨_, _, h⟩
    · unfold enterFastRetransmit at h
      split at h
      · refine fastRetransmit_error ?_ h
        exact hs
      · cases h
    · cases h
  split at h
  · cases h
  · cases h

theorem ackEstablished_error {hw : HwFeatures} {now : Int} {th : TcpHdr} {segSeq : TcpSeq}
    {segLen : Nat} {tcb : Tcb} {f : Fault} (hs : tcb.state ≠ .closed)
    (h : ackEstablished hw now th segSeq segLen tcb = .error f) : AckFault f := by
  unfold ackEstablished at h
  split at h
  · rename_i hn
    rcases bind_error.mp h with h | ⟨_, _, h⟩
    · rcases ackNewData_error hs hn h with h | h
      · rcases dataSegmentAcked_error h with h | ⟨h, -⟩
        · exact Or.inl h
        · exact Or.inr (Or.inl h)
      · exact Or.inr (Or.inr h)
    · cases h
  split at h
  · rcases bind_error.mp h with h | ⟨_, _, h⟩
    · exact Or.inr (Or.inr (duplicateAck_error hs h))
    · cases h
  split at h
  · cases h
  split at h
  · cases h
  · cases h

/-- The receive state keeps what was delivered and RCV.NXT; the out-of-order queue may have
been dropped, and what waits for the user been taken. -/
structure RcvKept (a b : Receive) : Prop where
  next : b.next = a.next
  delivered : b.delivered = a.delivered
  outOfOrder : b.outOfOrder = a.outOfOrder ∨ b.outOfOrder = []
  data : (b.data = a.data ∧ b.dataSize = a.dataSize) ∨ (b.data = [] ∧ b.dataSize = 0)

theorem RcvKept.refl (a : Receive) : RcvKept a a := ⟨rfl, rfl, Or.inl rfl, Or.inl ⟨rfl, rfl⟩⟩

theorem RcvKept.of_eq {a b : Receive} (h : b = a) : RcvKept a b := h ▸ .refl a

theorem RcvKept.trans {a b c : Receive} (h : RcvKept a b) (h' : RcvKept b c) : RcvKept a c := by
  refine ⟨h'.next.trans h.next, h'.delivered.trans h.delivered, ?_, ?_⟩
  · rcases h'.outOfOrder with ho | ho
    · rw [ho]
      exact h.outOfOrder
    · exact Or.inr ho
  · rcases h'.data with ⟨hd, hn⟩ | hd
    · rw [hd, hn]
      exact h.data
    · exact Or.inr hd

/-- The connection is over: nothing is delivered any more, and nothing handed on. -/
structure Ended (a b : Tcb) : Prop where
  state : b.state = .closed
  rcv : RcvKept a.rcv b.rcv
  handed : b.handed = a.handed
  packetq : b.packetq = a.packetq
  stream : b.snd.stream = a.snd.stream

theorem doReset_ended (tcb : Tcb) : Ended tcb (doReset tcb) := by
  obtain ⟨pd, ps, pa, ef, h⟩ := doReset_eq tcb
  rw [h]
  exact ⟨rfl, ⟨rfl, rfl, Or.inr rfl, Or.inr ⟨rfl, rfl⟩⟩, rfl, rfl, rfl⟩

theorem doClosed_ended (tcb : Tcb) : Ended tcb (doClosed tcb) :=
  ⟨rfl, ⟨rfl, rfl, Or.inr rfl, Or.inr ⟨rfl, rfl⟩⟩, rfl, rfl, rfl⟩

theorem doTimeWait_rcv (tcb : Tcb) : RcvKept tcb.rcv (doTimeWait tcb).rcv :=
  ⟨rfl, rfl, Or.inr rfl, Or.inr ⟨rfl, rfl⟩⟩

theorem doEstablished_eq (now : Int) (tcb : Tcb) :
    ∃ fs rv sr rto ef, doEstablished now tcb =
      { tcb with
        state := .established
        snd := { tcb.snd with firstRtoSample := fs, rttvar := rv, srtt := sr }
        rto := rto
        effects := ef } := by
  obtain ⟨fs, rv, sr, rto, h⟩ := updateRto_eq now tcb.snd.synTxTime { tcb with state := .established }
  rw [doEstablished, h]
  exact ⟨_, _, _, _, _, rfl⟩

theorem ackField_synReceived (hw : HwFeatures) (now : Int) {th : TcpHdr} (segSeq : TcpSeq)
    (segLen : Nat) {tcb : Tcb} (hs : tcb.state = .synReceived)
    (hack : tcb.snd.unacknowledged.le th.ack = true ∧ th.ack.le tcb.snd.next = true) :
    ackField hw now th segSeq segLen tcb =
      ackEstablished hw now th segSeq segLen (emit .addConnectedTcb (doEstablished now tcb)) := by
  have hst : (emit .addConnectedTcb (doEstablished now tcb)).state = .established := by
    obtain ⟨_, _, _, _, _, hd⟩ := doEstablished_eq now tcb
    rw [hd]
    rfl
  rw [ackField, ackSynReceived, if_pos hs, if_pos (by rw [hack.1, hack.2]; rfl)]
  exact if_pos (by rw [hst]; rfl)

theorem ackField_other (hw : HwFeatures) (now : Int) (th : TcpHdr) (segSeq : TcpSeq)
    (segLen : Nat) {tcb : Tcb} (hs : tcb.state ≠ .synReceived) :
    ackField hw now th segSeq segLen tcb =
      if tcb.state = .established || tcb.state = .closeWait then
        ackEstablished hw now th segSeq segLen tcb
      else .ok (ackFin th false tcb) := by
  rw [ackField, ackSynReceived, if_neg hs]

theorem ackField_error {hw : HwFeatures} {now : Int} {th : TcpHdr} {segSeq : TcpSeq} {segLen : Nat}
    {tcb : Tcb} {f : Fault} (h : ackField hw now th segSeq segLen tcb = .error f) : AckFault f := by
  by_cases hs : tcb.state = .synReceived
  · by_cases hack : tcb.snd.unacknowledged.le th.ack = true ∧ th.ack.le tcb.snd.next = true
    · rw [ackField_synReceived hw now segSeq segLen hs hack] at h
      refine ackEstablished_error ?_ h
      obtain ⟨_, _, _, _, _, hd⟩ := doEstablished_eq now tcb
      rw [hd]
      exact nofun
    · rw [ackField, ackSynReceived, if_pos hs, if_neg (by simpa using hack)] at h
      cases h
  · rw [ackField_other hw now th segSeq segLen hs] at h
    split at h
    · rename_i hst
      refine ackEstablished_error (fun hc => ?_) h
      rw [hc] at hst
      exact absurd hst (by decide)
    · cases h

/-- The ACK field of a segment leaves what was received alone. -/
theorem ackField_rcv {hw : HwFeatures} {now : Int} {th : TcpHdr} {segSeq : TcpSeq} {segLen : Nat}
    {tcb : Tcb} {r : Flow} (h : ackField hw now th segSeq segLen tcb = .ok r) :
    RcvKept tcb.rcv r.tcb.rcv ∧ ∀ t b, r = .go t b → t.rcv = tcb.rcv := by
  have hest : ∀ {u : Tcb}, u.rcv = tcb.rcv → (u.state = .established ∨ u.state = .closeWait) →
      ackEstablished hw now th segSeq segLen u = .ok r →
      RcvKept tcb.rcv r.tcb.rcv ∧ ∀ t b, r = .go t b → t.rcv = tcb.rcv := by
    intro u hu hs h
    have hm := (ackEstablished_moves (by rcases hs with hs | hs <;> rw [hs] <;> decide) h).frame.1
    refine ⟨.of_eq (hm.trans hu), ?_⟩
    rintro t b rfl
    exact hm.trans hu
  have hfin : ∀ {u : Tcb}, u.rcv = tcb.rcv → ackFin th false u = r →
      RcvKept tcb.rcv r.tcb.rcv ∧ ∀ t b, r = .go t b → t.rcv = tcb.rcv := by
    intro u hu h
    rw [← hu, ← h]
    unfold ackFin
    simp only
    split
    · split
      · exact ⟨.refl _, by rintro t b ⟨⟩; rfl⟩
      · exact ⟨.refl _, by rintro t b ⟨⟩; rfl⟩
    split
    · refine ⟨?_, by rintro t b ⟨⟩⟩
      simp only [Flow.tcb]
      split
      · exact doTimeWait_rcv (doLocalFinAcked u)
      · exact .refl _
    split
    · split
      · exact ⟨(doClosed_ended (doLocalFinAcked u)).rcv, by rintro t b ⟨⟩⟩
      · exact ⟨.refl _, by rintro t b ⟨⟩; rfl⟩
    · exact ⟨.refl _, by rintro t b ⟨⟩; rfl⟩
  have hgo : ∀ {u : Tcb}, u.rcv = tcb.rcv →
      (if u.state = .established || u.state = .closeWait then
        ackEstablished hw now th segSeq segLen u
      else .ok (ackFin th false u)) = .ok r →
      RcvKept tcb.rcv r.tcb.rcv ∧ ∀ t b, r = .go t b → t.rcv = tcb.rcv := by
    intro u hu h
    split at h
    · rename_i hs
      exact hest hu (by simpa using hs) h
    · exact hfin hu (Except.ok.inj h)
  unfold ackField ackSynReceived at h
  split at h
  · rename_i t heq
    obtain rfl := Except.ok.inj h
    split at heq
    · split at heq
      · cases heq
      · cases heq
        exact ⟨.refl _, by rintro t b ⟨⟩⟩
    · cases heq
  · rename_i t b heq
    split at heq
    · split at heq
      · cases heq
        obtain ⟨fs, rv, sr, rto, ef, hd⟩ := doEstablished_eq now tcb
        exact hgo (by rw [hd]; rfl) h
      · cases heq
    · cases heq
      exact hgo rfl h

/-! ## Segment text -/

theorem mergeLoop_error {b : Bool} {rcv : Receive} {map : List (TcpSeq × Packet)} {f : Fault}
    (h : mergeLoop b rcv map = .error f) : f = .movedPacket ∨ f = .trimTooLong := by
  induction map with
  | nil => cases h
  | cons e map ih =>
    obtain ⟨k, p⟩ := e
    rw [mergeLoop] at h
    split at h
    · rcases bind_error.mp h with h | ⟨q, -, h⟩
      · exact Or.inr (Packet.trimFront_error h).1
      · exact Or.inl (Except.error.inj h).symm
    · split at h
      · exact ih h
      · cases h

theorem textAndFin_error {now : Int} {th : TcpHdr} {segSeq : TcpSeq} {p : Packet} {b : Bool}
    {tcb : Tcb} {f : Fault} (h : textAndFin now th segSeq p b tcb = .error f) :
    f = .movedPacket ∨ f = .trimTooLong := by
  unfold textAndFin at h
  simp only at h
  split at h
  · rcases bind_error.mp h with h | ⟨r, -, h⟩
    · unfold segmentText at h
      split at h
      · cases h
      · rcases bind_error.mp h with h | ⟨r, -, h⟩
        · exact mergeLoop_error h
        · cases h
    · cases h
  split at h
  · cases h
  · cases h

theorem shouldSendAck_quiet (now : Int) (segLen : UInt16) (tcb : Tcb) :
    Quiet tcb (shouldSendAck now segLen tcb).2 := by
  unfold shouldSendAck
  simp only
  split
  · constructor <;> rfl
  split
  · constructor <;> rfl
  split
  · split
    · constructor <;> rfl
    · constructor <;> rfl
  · split
    · exact .refl tcb
    · constructor <;> rfl

theorem clearDelayedAck_quiet (tcb : Tcb) : Quiet tcb (clearDelayedAck tcb) := by
  constructor <;> rfl

theorem finishInput_quiet (b c : Bool) (tcb : Tcb) : Quiet tcb (finishInput b c tcb) := by
  unfold finishInput
  split
  · exact (clearDelayedAck_quiet tcb).trans (output_quiet _)
  split
  · have hm := mayTransmit_quiet tcb
    simp only
    split
    · exact hm.trans ((clearDelayedAck_quiet _).trans (output_quiet _))
    · exact hm
  · exact .refl tcb

theorem takeFin_quiet (finSeq : TcpSeq) (tcb : Tcb) :
    Quiet { tcb with rcv := { tcb.rcv with next := finSeq.add 1, dataReceivedPromise := false } }
      (takeFin finSeq tcb) := by
  obtain ⟨ef, hs⟩ := signalDataReceived_eq { tcb with rcv := { tcb.rcv with next := finSeq.add 1 } }
  rw [takeFin, hs]
  refine Quiet.trans ?_ ((clearDelayedAck_quiet _).trans (output_quiet _))
  constructor <;> rfl

/-- The sending half as a whole is left alone. -/
structure SndKept (a b : Tcb) : Prop where
  snd : b.snd.unacknowledged = a.snd.unacknowledged ∧ b.snd.next = a.snd.next ∧
    b.snd.initial = a.snd.initial ∧ b.snd.data = a.snd.data ∧ b.snd.unsent = a.snd.unsent ∧
    b.snd.unsentLen = a.snd.unsentLen ∧ b.snd.stream = a.snd.stream
  packetq : b.packetq = a.packetq
  handed : b.handed = a.handed

theorem Quiet.sndKept {a b : Tcb} (h : Quiet a b) : SndKept a b :=
  ⟨⟨h.unacknowledged, h.next, h.initial, h.data, h.unsent, h.unsentLen, h.stream⟩, h.packetq,
    h.handed⟩

theorem SndKept.trans {a b c : Tcb} (h : SndKept a b) (h' : SndKept b c) : SndKept a c := by
  obtain ⟨⟨h₁, h₂, h₃, h₄, h₅, h₆, h₇⟩, hp, hh⟩ := h
  obtain ⟨⟨k₁, k₂, k₃, k₄, k₅, k₆, k₇⟩, kp, kh⟩ := h'
  exact ⟨⟨k₁.trans h₁, k₂.trans h₂, k₃.trans h₃, k₄.trans h₄, k₅.trans h₅, k₆.trans h₆,
    k₇.trans h₇⟩, kp.trans hp, kh.trans hh⟩

/-- The text and the FIN of a segment leave the sending half alone; a FIN changes the
state, and ends a connection that has sent its own. -/
def TextTransition (a b : Tcb) : Prop :=
  (SndKept a b ∧ (b.state = a.state ∨
      ((a.state = .synReceived ∨ a.state = .established) ∧ b.state = .closeWait) ∨
      (a.state = .finWait1 ∧ b.state = .closing))) ∨
    (a.state = .finWait2 ∧ b.state = .timeWait)

theorem finAndOutput_transition (th : TcpHdr) (finSeq : TcpSeq) (b c : Bool) (tcb : Tcb) :
    TextTransition tcb (finAndOutput th finSeq b c tcb) := by
  have hfinish : ∀ {t : Tcb} (b c : Bool), SndKept tcb t →
      (t.state = tcb.state ∨
        ((tcb.state = .synReceived ∨ tcb.state = .established) ∧ t.state = .closeWait) ∨
        (tcb.state = .finWait1 ∧ t.state = .closing)) →
      SndKept tcb (finishInput b c t) ∧ ((finishInput b c t).state = tcb.state ∨
        ((tcb.state = .synReceived ∨ tcb.state = .established) ∧
          (finishInput b c t).state = .closeWait) ∨
        (tcb.state = .finWait1 ∧ (finishInput b c t).state = .closing)) := by
    intro t b c hk hs
    have hq := finishInput_quiet b c t
    rw [hq.state]
    exact ⟨hk.trans hq.sndKept, hs⟩
  have hself : SndKept tcb tcb := (Quiet.refl tcb).sndKept
  have hfin : SndKept tcb (takeFin finSeq tcb) := by
    have h := (takeFin_quiet finSeq tcb).sndKept
    exact ⟨h.snd, h.packetq, h.handed⟩
  have hfst : (takeFin finSeq tcb).state = tcb.state := (takeFin_quiet finSeq tcb).state
  unfold finAndOutput
  split
  · split
    · exact Or.inl ⟨hself, Or.inl rfl⟩
    unfold segmentFin
    by_cases he : finSeq = tcb.rcv.next
    · rw [if_pos he]
      simp only
      split
      · rename_i t _ ht
        split at ht
        · cases ht
        split at ht
        · cases ht
        split at ht
        · rename_i h2
          cases ht
          exact Or.inr ⟨hfst.symm.trans h2, rfl⟩
        · cases ht
      · rename_i t _ _ ht
        left
        split at ht
        · rename_i h0
          cases ht
          refine hfinish _ _ ⟨hfin.snd, hfin.packetq, hfin.handed⟩ (Or.inr (Or.inl ⟨?_, rfl⟩))
          rw [← hfst]
          simpa using h0
        split at ht
        · rename_i h1
          cases ht
          exact hfinish _ _ ⟨hfin.snd, hfin.packetq, hfin.handed⟩
            (Or.inr (Or.inr ⟨hfst.symm.trans h1, rfl⟩))
        split at ht
        · cases ht
        · cases ht
          exact hfinish _ _ hfin (Or.inl hfst)
    · rw [if_neg he]
      exact Or.inl (hfinish _ _ hself (Or.inl rfl))
  · exact Or.inl (hfinish _ _ hself (Or.inl rfl))

theorem segmentText_kept {now : Int} {p : Packet} {tcb t : Tcb} {b : Bool}
    (h : segmentText now p tcb = .ok (b, t)) : SndKept tcb t ∧ t.state = tcb.state := by
  unfold segmentText at h
  split at h
  · obtain ⟨-, rfl⟩ := Prod.mk.inj (Except.ok.inj h)
    exact ⟨(Quiet.refl _).sndKept, rfl⟩
  · obtain ⟨⟨merged, rcv⟩, -, h⟩ := bind_ok.mp h
    obtain ⟨ef, hs⟩ := signalDataReceived_eq
      { tcb with rcv := { rcv with window := getModifiedReceiveWindowSize rcv } }
    simp only [hs] at h
    have hk : ∀ {t : Tcb}, Quiet { tcb with
        rcv := { rcv with
          window := getModifiedReceiveWindowSize rcv, dataReceivedPromise := false }
        effects := ef } t → SndKept tcb t ∧ t.state = tcb.state := by
      intro t hq
      exact ⟨⟨hq.sndKept.snd, hq.packetq, hq.handed⟩, hq.state⟩
    split at h
    · obtain ⟨-, rfl⟩ := Prod.mk.inj (Except.ok.inj h)
      exact hk (.refl _)
    · obtain rfl := congrArg Prod.snd (Except.ok.inj h)
      exact hk (shouldSendAck_quiet _ _ _)

theorem textAndFin_transition {now : Int} {th : TcpHdr} {segSeq : TcpSeq} {p : Packet} {b : Bool}
    {tcb t : Tcb} (h : textAndFin now th segSeq p b tcb = .ok t) : TextTransition tcb t := by
  unfold textAndFin at h
  simp only at h
  split at h
  · obtain ⟨⟨c, u⟩, hu, h⟩ := bind_ok.mp h
    obtain rfl := Except.ok.inj h
    obtain ⟨hk, hst⟩ := segmentText_kept hu
    rcases finAndOutput_transition th (segSeq.add (UInt32.ofNat p.len)) c b u with ⟨hk', h⟩ | ⟨h2, h⟩
    · exact Or.inl ⟨hk.trans hk', hst ▸ h⟩
    · exact Or.inr ⟨hst.symm.trans h2, h⟩
  split at h
  · obtain rfl := Except.ok.inj h
    exact Or.inl ⟨(Quiet.refl _).sndKept, Or.inl rfl⟩
  · obtain rfl := Except.ok.inj h
    exact finAndOutput_transition _ _ _ _ _

/-! ## The handler as a whole -/

theorem dupLen_le (segSeq : TcpSeq) (segLen : Nat) (rcv : Receive) :
    dupLen segSeq segLen rcv ≤ segLen := by
  unfold dupLen
  split
  · exact Nat.min_le_right _ _
  · exact Nat.zero_le _

/-- The length of the text of a segment. -/
def textLen (th : TcpHdr) (p : Packet) : Nat := p.len - th.dataOffset * 4

/-- The text of a segment in front of RCV.NXT. -/
def oldLen (th : TcpHdr) (p : Packet) (rcv : Receive) : Nat := dupLen th.seq (textLen th p) rcv

/-- The sequence number of a segment without the text in front of RCV.NXT. -/
def trimmedSeq (th : TcpHdr) (p : Packet) (rcv : Receive) : TcpSeq :=
  th.seq.add (UInt32.ofNat (oldLen th p rcv))

/-- The segment is acceptable and starts at RCV.NXT, or in front of it. -/
def NextInLine (th : TcpHdr) (p : Packet) (rcv : Receive) : Prop :=
  th.dataOffset * 4 ≤ p.len ∧ segmentAcceptable th.seq (textLen th p) rcv = true ∧
    trimmedSeq th p rcv = rcv.next

instance (th : TcpHdr) (p : Packet) (rcv : Receive) : Decidable (NextInLine th p rcv) :=
  inferInstanceAs (Decidable (_ ∧ _))

/-- The packet `q` is the text of a segment from RCV.NXT on. -/
def NewText (th : TcpHdr) (p : Packet) (rcv : Receive) (q : Packet) : Prop :=
  q.bytes = p.bytes.drop (th.dataOffset * 4 + oldLen th p rcv)

theorem NewText.len {th : TcpHdr} {p q : Packet} {rcv : Receive} (h : NewText th p rcv q) :
    q.len = textLen th p - oldLen th p rcv := by
  rw [← Packet.length_bytes, h, List.length_drop, Packet.length_bytes, textLen]
  omega

/-- Where a segment goes: its header is longer than the packet, it is not acceptable, it is
out of order, or it is the next one. -/
inductive Dispatched (hw : HwFeatures) (now : Int) (th : TcpHdr) (p : Packet) (tcb : Tcb) :
    Except Fault Tcb → Prop
  | short : p.len < th.dataOffset * 4 → Dispatched hw now th p tcb (.error .trimTooLong)
  | unacceptable : th.dataOffset * 4 ≤ p.len →
      segmentAcceptable th.seq (textLen th p) tcb.rcv = false →
      Dispatched hw now th p tcb (.ok (output tcb))
  | outOfOrder (q : Packet) : th.dataOffset * 4 ≤ p.len →
      segmentAcceptable th.seq (textLen th p) tcb.rcv = true → NewText th p tcb.rcv q →
      trimmedSeq th p tcb.rcv ≠ tcb.rcv.next →
      Dispatched hw now th p tcb (insertOutOfOrder (trimmedSeq th p tcb.rcv) q tcb.rcv >>=
        fun rcv => .ok (output { tcb with rcv := rcv }))
  | inOrder (q : Packet) : NextInLine th p tcb.rcv → NewText th p tcb.rcv q →
      Dispatched hw now th p tcb (tcb.inOrder hw now th tcb.rcv.next q)

theorem inputHandleOtherState_dispatched (hw : HwFeatures) (now : Int) (th : TcpHdr) (p : Packet)
    (tcb : Tcb) : Dispatched hw now th p tcb (inputHandleOtherState hw now th p tcb) := by
  unfold inputHandleOtherState
  by_cases hl : th.dataOffset * 4 ≤ p.len
  · obtain ⟨p₁, hp₁, hb₁, hl₁⟩ := Packet.trimFront_ok hl
    have hlen : p₁.len = textLen th p := hl₁
    rw [hp₁, ok_bind, hlen]
    split
    · rename_i ha
      exact .unacceptable hl (by simpa using ha)
    · rename_i ha
      rw [Bool.not_eq_true', Bool.not_eq_false] at ha
      obtain ⟨p₂, hp₂, hb₂, -⟩ := Packet.trimFront_ok (p := p₁) (n := oldLen th p tcb.rcv)
        (by rw [hlen]; exact dupLen_le _ _ _)
      have hnew : NewText th p tcb.rcv p₂ := by rw [NewText, hb₂, hb₁, List.drop_drop]
      have hdup : dupLen th.seq (textLen th p) tcb.rcv = oldLen th p tcb.rcv := rfl
      simp only [hdup, hp₂, ok_bind]
      split
      · rename_i hne
        exact .outOfOrder p₂ hl ha hnew hne
      · rename_i he
        rw [not_not] at he
        rw [he]
        exact .inOrder p₂ ⟨hl, ha, he⟩ hnew
  · have : ∃ e, p.trimFront (th.dataOffset * 4) = .error e := by
      cases h : p.trimFront (th.dataOffset * 4) with
      | error e => exact ⟨e, rfl⟩
      | ok q => exact absurd (Packet.trimFront_spec h).1 hl
    obtain ⟨e, he⟩ := this
    obtain ⟨rfl, hlt⟩ := Packet.trimFront_error he
    rw [he]
    exact .short hlt

/-- The segment gets past the RST, SYN and ACK bits. -/
def Proceeds (th : TcpHdr) (tcb : Tcb) : Prop :=
  (th.fRst = true → resetReceived tcb = none) ∧ th.fSyn = false ∧ th.fAck = true

instance (th : TcpHdr) (tcb : Tcb) : Decidable (Proceeds th tcb) :=
  inferInstanceAs (Decidable (_ ∧ _))

theorem inOrder_proceeds {hw : HwFeatures} {now : Int} {th : TcpHdr} {segSeq : TcpSeq} {p : Packet}
    {tcb : Tcb} (h : Proceeds th tcb) :
    inOrder hw now th segSeq p tcb = (ackField hw now th segSeq p.len tcb >>= fun r =>
      match r with
      | .ret t => .ok t
      | .go t doOutputData => textAndFin now th segSeq p doOutputData t) := by
  obtain ⟨hr, hs, ha⟩ := h
  have : (if th.fRst then resetReceived tcb else none) = none := by
    split
    · rename_i h
      exact hr h
    · rfl
  have hn : ¬ ((!th.fAck) = true) := by simp [ha]
  unfold inOrder
  rw [this]
  exact (if_neg (by simp [hs])).trans (if_neg hn)

theorem resetReceived_ended {tcb t : Tcb} (h : resetReceived tcb = some t) : Ended tcb t := by
  unfold resetReceived at h
  split at h
  · obtain rfl := Option.some.inj h
    have := doReset_ended (emit (.wake .connectDone .refusedError) tcb)
    exact ⟨this.state, this.rcv, this.handed, this.packetq, this.stream⟩
  · obtain rfl := Option.some.inj h
    exact doReset_ended tcb
  · obtain rfl := Option.some.inj h
    exact doReset_ended tcb
  · obtain rfl := Option.some.inj h
    exact doReset_ended tcb
  · obtain rfl := Option.some.inj h
    exact doReset_ended tcb
  · obtain rfl := Option.some.inj h
    exact doClosed_ended tcb
  · obtain rfl := Option.some.inj h
    exact doClosed_ended tcb
  · obtain rfl := Option.some.inj h
    exact doClosed_ended tcb
  · cases h

/-- Otherwise it is dropped, or the connection is reset. -/
theorem inOrder_not_proceeds {hw : HwFeatures} {now : Int} {th : TcpHdr} {segSeq : TcpSeq}
    {p : Packet} {tcb : Tcb} (h : ¬ Proceeds th tcb) :
    ∃ t, inOrder hw now th segSeq p tcb = .ok t ∧ (t = tcb ∨ Ended tcb t) := by
  unfold inOrder
  split
  · rename_i t ht
    split at ht
    · exact ⟨t, rfl, Or.inr (resetReceived_ended ht)⟩
    · cases ht
  · rename_i hn
    split
    · have := doReset_ended (emit (.respondWithReset th) tcb)
      exact ⟨_, rfl, Or.inr ⟨this.state, this.rcv, this.handed, this.packetq, this.stream⟩⟩
    · rename_i hs
      split
      · exact ⟨tcb, rfl, Or.inl rfl⟩
      · rename_i ha
        refine absurd ⟨?_, by simpa using hs, by simpa using ha⟩ h
        intro hr
        rwa [if_pos hr] at hn

/-! ## SYN_SENT and LISTEN -/

/-- The pointer to the options and the packet behind them, or a header that is too long.
The pointer is null only for a header without bytes. -/
theorem splitOptions_cases (th : TcpHdr) (p : Packet) :
    (p.len < th.dataOffset * 4 ∧ splitOptions th p = .error .trimTooLong) ∨
      (th.dataOffset * 4 ≤ p.len ∧ ∃ h q, splitOptions th p = .ok (h, q) ∧
        (h = none → th.dataOffset = 0)) := by
  unfold splitOptions
  cases hh : p.getHeader 0 (th.dataOffset * 4) with
  | none =>
    simp only [Option.elim]
    cases ht : p.trimFront (th.dataOffset * 4) with
    | ok q =>
      refine Or.inr ⟨(Packet.trimFront_spec ht).1, none, q, rfl, fun _ => ?_⟩
      by_contra hd
      have hn := (Packet.getHeader_eq_none p 0 (th.dataOffset * 4) (by omega)).mp hh
      have := (Packet.trimFront_spec ht).1
      omega
    | error e =>
      obtain ⟨rfl, hl⟩ := Packet.trimFront_error ht
      exact Or.inl ⟨hl, rfl⟩
  | some h =>
    obtain ⟨hb, hl, -, -⟩ := Packet.getHeader_spec hh
    have hlen : h.p.len = p.len := by rw [← Packet.length_bytes, hb, Packet.length_bytes]
    obtain ⟨q, hq, -, -⟩ := Packet.trimFront_ok (p := h.p) (n := th.dataOffset * 4) (by omega)
    refine Or.inr ⟨by omega, some h, q, ?_, nofun⟩
    simp only [Option.elim, hq]
    rfl

theorem optionArea_error {h : Option Packet.Header} {f : Fault} (he : optionArea h = .error f) :
    f = .nullHeader ∧ h = none := by
  cases h with
  | none => exact ⟨(Except.error.inj he).symm, rfl⟩
  | some h => cases he

theorem initFromOptions_error {hw : HwFeatures} {th : TcpHdr} {optStart : Bytes} {optLen : Nat}
    {tcb : Tcb} {f : Fault} (h : initFromOptions hw th optStart optLen tcb = .error f) :
    f = .readPast := by
  rcases bind_error.mp h with h | ⟨_, -, h⟩
  · exact TcpOption.parseLoop_error h
  · cases h

/-- In SYN_SENT all that can fail is a header longer than the packet, and the options. -/
theorem inputHandleSynSentState_error {hw : HwFeatures} {now : Int} {th : TcpHdr} {p : Packet}
    {tcb : Tcb} {f : Fault} (h : inputHandleSynSentState hw now th p tcb = .error f) :
    (f = .trimTooLong ∧ p.len < th.dataOffset * 4) ∨ (f = .nullHeader ∧ th.dataOffset = 0) ∨
      f = .readPast := by
  unfold inputHandleSynSentState at h
  rcases splitOptions_cases th p with ⟨hl, hs⟩ | ⟨-, hdr, q, hs, hnull⟩
  · rw [hs] at h
    exact Or.inl ⟨(Except.error.inj h).symm, hl⟩
  · right
    rw [hs, ok_bind] at h
    simp only at h
    split at h
    · cases h
    split at h
    · cases h
    split at h
    · unfold synBit at h
      simp only at h
      split at h
      · rcases bind_error.mp h with h | ⟨_, -, h⟩
        · obtain ⟨rfl, hn⟩ := optionArea_error h
          exact Or.inl ⟨rfl, hnull hn⟩
        rcases bind_error.mp h with h | ⟨_, -, h⟩
        · exact Or.inr (initFromOptions_error h)
        · cases h
      · cases h
    · cases h

end Seastar.Net.Tcp.Tcb
