import Seastar.Net.Tcp.Turns

/-!
Congestion control as a machine of its own: the windows and counters it keeps, and what
an acknowledgement, a duplicate ACK and a timeout do to them. The handlers of a
connection follow it: each event changes these members as the machine says, apart
from what `can_send` counts for limited transmit.
-/

namespace Seastar.Net.Tcp.Tcb

open Lib

/-- The members of `send` that congestion control works on. -/
structure Control where
  mss : UInt16
  cwnd : UInt32
  ssthresh : UInt32
  dupacks : UInt16
  recover : TcpSeq
  limitedTransfer : UInt32
  deriving DecidableEq

def control (snd : Send) : Control where
  mss := snd.mss
  cwnd := snd.cwnd
  ssthresh := snd.ssthresh
  dupacks := snd.dupacks
  recover := snd.recover
  limitedTransfer := snd.limitedTransfer

namespace Control

def smss (c : Control) : UInt32 := c.mss.toUInt32

/-- One call of `update_cwnd`: slow start below `ssthresh`, else congestion avoidance. -/
def widen (c : Control) (n : UInt32) : Control :=
  { c with
    cwnd := if c.cwnd < c.ssthresh then c.cwnd + min n c.smss
      else c.cwnd + max 1 (c.smss * c.smss / c.cwnd) }

/-- `update_cwnd` would divide by zero. -/
def Stuck (c : Control) : Prop := c.cwnd = 0 ∧ c.ssthresh = 0

/-- `exit_fast_recovery`. -/
def calm (c : Control) : Control := { c with dupacks := 0, limitedTransfer := 0 }

/-- Behind `data_segment_acked`: leave fast recovery, or deflate the window. -/
def settle (segAck : TcpSeq) (flight acked : UInt32) (c : Control) : Control :=
  if c.dupacks ≥ 3 then
    if segAck.gt c.recover then
      calm { c with cwnd := min c.ssthresh (max flight c.smss + c.smss) }
    else
      { c with
        cwnd := if acked ≥ c.smss then c.cwnd - acked + c.smss else c.cwnd - acked }
  else calm c

/-- The third duplicate ACK: the loss halves the window, unless it was dealt with. -/
def third (segAck next : TcpSeq) (flight : UInt32) (c : Control) : Control :=
  if (segAck.back 1).gt c.recover then
    { c with
      recover := next.back 1
      ssthresh := max ((flight - c.limitedTransfer) / 2) (2 * c.smss) }
  else c

/-- A duplicate ACK. -/
def duplicate (segAck next : TcpSeq) (flight : UInt32) (c : Control) : Control :=
  let c := { c with dupacks := c.dupacks + 1 }
  if c.dupacks = 1 ∨ c.dupacks = 2 then c
  else if c.dupacks = 3 then
    let c := third segAck next flight c
    { c with cwnd := c.ssthresh + 3 * c.smss }
  else if c.dupacks > 3 then { c with cwnd := c.cwnd + c.smss }
  else c

/-- The retransmission timer has expired; `again` when the segment was retransmitted before. -/
def timeout (next : TcpSeq) (flight : UInt32) (again : Bool) (c : Control) : Control :=
  calm { c with
    ssthresh := if again then c.ssthresh else max (flight / 2) (2 * c.smss)
    recover := next.back 1
    cwnd := c.smss }

end Control

/-- The lengths `update_cwnd` is called with: the segments an acknowledgement covers whole,
and the part of the next one. -/
def ackedLens (segAck : TcpSeq) : TcpSeq → List UnackedSegment → List UInt32
  | una, [] => if una.lt segAck then [segAck.sub una] else []
  | una, seg :: data =>
    if (una.add (UInt32.ofNat seg.p.len)).le segAck then
      UInt32.ofNat seg.p.len :: ackedLens segAck (una.add (UInt32.ofNat seg.p.len)) data
    else if una.lt segAck then [segAck.sub una] else []

/-! ## Calls that leave it alone -/

/-- Congestion control is left alone. -/
def Level (a b : Tcb) : Prop := control b.snd = control a.snd

theorem Level.refl (a : Tcb) : Level a a := rfl

theorem Level.trans {a b c : Tcb} (h : Level a b) (h' : Level b c) : Level a c := Eq.trans h' h

theorem output_level (tcb : Tcb) : Level tcb (output tcb) := by
  obtain ⟨pa, ef, h⟩ := output_eq tcb
  rw [h]
  rfl

theorem updateRto_level (now txTime : Int) (tcb : Tcb) : Level tcb (updateRto now txTime tcb) := by
  obtain ⟨fs, rv, sr, rto, h⟩ := updateRto_eq now txTime tcb
  rw [h]
  rfl

theorem doEstablished_level (now : Int) (tcb : Tcb) : Level tcb (doEstablished now tcb) := by
  obtain ⟨fs, rv, sr, rto, ef, h⟩ := doEstablished_eq now tcb
  rw [h]
  rfl

theorem doReset_level (tcb : Tcb) : Level tcb (doReset tcb) := by
  obtain ⟨pd, ps, pa, ef, h⟩ := doReset_eq tcb
  rw [h]
  rfl

theorem signalDataReceived_level (tcb : Tcb) : Level tcb (signalDataReceived tcb) := by
  obtain ⟨ef, h⟩ := signalDataReceived_eq tcb
  rw [h]
  rfl

theorem signalSendAvailable_level (tcb : Tcb) : Level tcb (signalSendAvailable tcb) := by
  obtain ⟨sp, ef, h⟩ := signalSendAvailable_eq tcb
  rw [h]
  rfl

theorem setRetransmitTimer_level (now : Int) (tcb : Tcb) :
    Level tcb (setRetransmitTimer now tcb) := by
  obtain ⟨rt, pr, ct, ef, h⟩ := setRetransmitTimer_eq now tcb
  rw [h]
  rfl

theorem updateWindow_level (now : Int) (th : TcpHdr) (segSeq : TcpSeq) (tcb : Tcb) :
    Level tcb (updateWindow now th segSeq tcb) := by
  obtain ⟨pt, po, h⟩ := updateWindow_eq now th segSeq tcb
  rw [h]
  rfl

theorem shouldSendAck_level (now : Int) (segLen : UInt16) (tcb : Tcb) :
    Level tcb (shouldSendAck now segLen tcb).2 := by
  unfold shouldSendAck
  simp only
  split
  · rfl
  split
  · rfl
  split
  · split
    · rfl
    · rfl
  · split
    · rfl
    · rfl

theorem takeFin_level (finSeq : TcpSeq) (tcb : Tcb) : Level tcb (takeFin finSeq tcb) :=
  (signalDataReceived_level { tcb with rcv := { tcb.rcv with next := finSeq.add 1 } }).trans
    (output_level (clearDelayedAck
      (signalDataReceived { tcb with rcv := { tcb.rcv with next := finSeq.add 1 } })))

theorem outputOne_true_level {hw : HwFeatures} {now : Int} {a b : Tcb}
    (h : outputOne hw now true a = .ok b) : Level a b := by
  by_cases hs : a.state = .closed
  · rw [outputOne_closed hw now true hs] at h
    obtain rfl := Except.ok.inj h
    exact .refl a
  · cases hd : a.snd.data with
    | nil =>
      rw [outputOne, if_neg hs, payloadToSend, if_pos rfl, hd] at h
      cases h
    | cons seg data =>
      obtain ⟨da, q, -, -, ho⟩ := outputOne_retransmit hw now hs hd
      rw [ho] at h
      split at h
      · obtain rfl := Except.ok.inj h
        rfl
      · cases h

theorem fastRetransmit_level {hw : HwFeatures} {now : Int} {a b : Tcb}
    (h : fastRetransmit hw now a = .ok b) : Level a b := by
  unfold fastRetransmit at h
  split at h
  · obtain rfl := Except.ok.inj h
    exact .refl a
  · rename_i seg data hd
    obtain ⟨t, ht, h⟩ := bind_ok.mp h
    obtain rfl := Except.ok.inj h
    have hl := outputOne_true_level ht
    exact Eq.trans (output_level t) hl

theorem segmentText_level {now : Int} {p : Packet} {tcb t : Tcb} {b : Bool}
    (h : segmentText now p tcb = .ok (b, t)) : Level tcb t := by
  unfold segmentText at h
  split at h
  · obtain ⟨-, rfl⟩ := Prod.mk.inj (Except.ok.inj h)
    exact .refl tcb
  · obtain ⟨⟨merged, rcv⟩, -, h⟩ := bind_ok.mp h
    have hsig := signalDataReceived_level
      { tcb with rcv := { rcv with window := getModifiedReceiveWindowSize rcv } }
    simp only at h
    generalize signalDataReceived
      { tcb with rcv := { rcv with window := getModifiedReceiveWindowSize rcv } } = u at h hsig
    split at h
    · obtain ⟨-, rfl⟩ := Prod.mk.inj (Except.ok.inj h)
      exact hsig
    · obtain rfl := congrArg Prod.snd (Except.ok.inj h)
      exact Level.trans (b := u) hsig (shouldSendAck_level _ _ _)

/-! ## Acknowledgements -/

/-- `update_cwnd` divides by zero when both windows are zero, and else widens. -/
theorem updateCwnd_ok {n : UInt32} {snd snd' : Send} (h : updateCwnd n snd = .ok snd') :
    ¬ (control snd).Stuck ∧ control snd' = (control snd).widen n := by
  unfold updateCwnd at h
  simp only at h
  split at h
  · rename_i hlt
    obtain rfl := Except.ok.inj h
    refine ⟨?_, ?_⟩
    · rintro ⟨-, hs⟩
      have hs' : snd.ssthresh = 0 := hs
      rw [hs'] at hlt
      exact absurd hlt UInt32.not_lt_zero
    · exact congrArg (fun cw => { control snd with cwnd := cw }) (if_pos hlt).symm
  · rename_i hlt
    split at h
    · cases h
    · rename_i hne
      obtain rfl := Except.ok.inj h
      exact ⟨fun hs => hne hs.1,
        congrArg (fun cw => { control snd with cwnd := cw }) (if_neg hlt).symm⟩

theorem updateCwnd_stuck {n : UInt32} {snd : Send} {f : Fault} (h : updateCwnd n snd = .error f) :
    (control snd).Stuck := by
  unfold updateCwnd at h
  simp only at h
  split at h
  · cases h
  · rename_i hlt
    split at h
    · rename_i h0
      refine ⟨h0, ?_⟩
      have hle := UInt32.not_lt.mp hlt
      rw [h0, UInt32.le_zero_iff] at hle
      exact hle
    · cases h

theorem ackSegment_control (now : Int) (seg : UnackedSegment) (tcb : Tcb) :
    control (ackSegment now seg tcb).snd = control tcb.snd := by
  unfold ackSegment
  simp only
  split
  · exact updateRto_level now seg.txTime { tcb with
      snd := { tcb.snd with
        unacknowledged := tcb.snd.unacknowledged.add (UInt32.ofNat seg.p.len) } }
  · rfl

theorem ackOne_control {now : Int} {seg : UnackedSegment} {data : List UnackedSegment} {a b : Tcb}
    (h : ackOne now seg data a = .ok b) :
    ¬ (control a.snd).Stuck ∧ control b.snd = (control a.snd).widen (UInt32.ofNat seg.p.len) := by
  have hseg := ackSegment_control now seg a
  unfold ackOne at h
  simp only at h
  generalize ackSegment now seg a = t at h hseg
  obtain ⟨snd, hc, h⟩ := bind_ok.mp h
  obtain ⟨hs, hw⟩ := updateCwnd_ok hc
  obtain rfl := Except.ok.inj h
  rw [hseg] at hs hw
  have hfree : control (freeQueueSpace seg { t with snd := snd }).snd = control snd :=
    signalSendAvailable_level { t with
      snd := { snd with currentQueueSpace := snd.currentQueueSpace - seg.dataLen.toUInt64 } }
  exact ⟨hs, Eq.trans hfree hw⟩

/-- The window widens once for every length, in turn; no call finds it stuck. -/
def widenAll (c : Control) (lens : List UInt32) : Control := lens.foldl Control.widen c

theorem widenAll_frame (c : Control) (lens : List UInt32) :
    (widenAll c lens).mss = c.mss ∧ (widenAll c lens).ssthresh = c.ssthresh ∧
      (widenAll c lens).dupacks = c.dupacks ∧ (widenAll c lens).recover = c.recover := by
  induction lens generalizing c with
  | nil => exact ⟨rfl, rfl, rfl, rfl⟩
  | cons n lens ih => exact ih (c.widen n)

/-- No call of `update_cwnd` for these lengths divides by zero. -/
def NeverStuck (c : Control) : List UInt32 → Prop
  | [] => True
  | n :: lens => ¬ c.Stuck ∧ NeverStuck (c.widen n) lens

theorem ackPart_control {segAck : TcpSeq} {total k : UInt32} {a b : Tcb} {lens : List UInt32}
    (hl : lens = if a.snd.unacknowledged.lt segAck then [segAck.sub a.snd.unacknowledged] else [])
    (h : ackPart segAck total a = .ok (k, b)) :
    k = total + lens.sum ∧ NeverStuck (control a.snd) lens ∧
      control b.snd = widenAll (control a.snd) lens := by
  unfold ackPart at h
  split at h
  · rename_i hlt
    rw [if_pos hlt] at hl
    obtain ⟨data, -, h⟩ := bind_ok.mp h
    obtain ⟨snd, hc, h⟩ := bind_ok.mp h
    obtain ⟨rfl, rfl⟩ := Prod.mk.inj (Except.ok.inj h)
    obtain ⟨hs, hw⟩ := updateCwnd_ok hc
    subst hl
    exact ⟨by simp, ⟨hs, trivial⟩, hw⟩
  · rename_i hlt
    rw [if_neg hlt] at hl
    obtain ⟨rfl, rfl⟩ := Prod.mk.inj (Except.ok.inj h)
    subst hl
    exact ⟨by simp, trivial, rfl⟩

/-- An acknowledgement of data widens the window for every segment it covers, and counts
their bytes. -/
theorem acked_control {now : Int} {segAck : TcpSeq} {data : List UnackedSegment}
    {total m k : UInt32} {a t b : Tcb} (hd : a.snd.data = data)
    (hw : ackWhole now segAck total data a = .ok (m, t)) (hp : ackPart segAck m t = .ok (k, b)) :
    k = total + (ackedLens segAck a.snd.unacknowledged data).sum ∧
      NeverStuck (control a.snd) (ackedLens segAck a.snd.unacknowledged data) ∧
      control b.snd = widenAll (control a.snd) (ackedLens segAck a.snd.unacknowledged data) := by
  induction data generalizing total a with
  | nil =>
    obtain ⟨rfl, rfl⟩ := Prod.mk.inj (Except.ok.inj hw)
    exact ackPart_control rfl hp
  | cons seg data ih =>
    rw [ackWhole] at hw
    rw [ackedLens]
    split at hw
    · rename_i hle
      obtain ⟨u, hu, hw⟩ := bind_ok.mp hw
      obtain ⟨-, hua, hdt⟩ := ackOne_spec hu
      obtain ⟨hs, hc⟩ := ackOne_control hu
      obtain ⟨hk, hns, hb⟩ := ih hdt hw
      rw [hua] at hk hns hb
      rw [hc] at hns hb
      rw [if_pos hle]
      refine ⟨?_, ⟨hs, hns⟩, hb⟩
      rw [hk, List.sum_cons, UInt32.add_assoc]
    · rename_i hle
      obtain ⟨rfl, rfl⟩ := Prod.mk.inj (Except.ok.inj hw)
      rw [if_neg hle]
      exact ackPart_control rfl hp

theorem dataSegmentAcked_control {now : Int} {segAck : TcpSeq} {k : UInt32} {a b : Tcb}
    (h : dataSegmentAcked now segAck a = .ok (k, b)) :
    k = (ackedLens segAck a.snd.unacknowledged a.snd.data).sum ∧
      NeverStuck (control a.snd) (ackedLens segAck a.snd.unacknowledged a.snd.data) ∧
      control b.snd =
        widenAll (control a.snd) (ackedLens segAck a.snd.unacknowledged a.snd.data) := by
  obtain ⟨⟨m, t⟩, ht, h⟩ := bind_ok.mp h
  obtain ⟨hk, hs, hc⟩ := acked_control rfl ht h
  exact ⟨by rw [hk, UInt32.zero_add], hs, hc⟩

/-- A call that divides by zero finds the window stuck. -/
theorem dataSegmentAcked_divides {now : Int} {segAck : TcpSeq} {a : Tcb}
    (h : dataSegmentAcked now segAck a = .error .divideByZero) :
    ¬ NeverStuck (control a.snd) (ackedLens segAck a.snd.unacknowledged a.snd.data) := by
  have hpart : ∀ {total : UInt32} {u : Tcb}, ackPart segAck total u = .error .divideByZero →
      u.snd.unacknowledged.lt segAck = true ∧ (control u.snd).Stuck := by
    intro total u h
    unfold ackPart at h
    split at h
    · rename_i hlt
      rcases bind_error.mp h with h | ⟨data, -, h⟩
      · cases hq : u.snd.data with
        | nil => rw [hq] at h; cases h
        | cons seg data =>
          rw [hq, trimFirst] at h
          cases hp : seg.p.trimFront (sizeOfInt (segAck.diff u.snd.unacknowledged)) with
          | ok p => rw [hp] at h; cases h
          | error e =>
            rw [hp] at h
            obtain rfl : e = .divideByZero := Except.error.inj h
            cases (Packet.trimFront_error hp).1
      · rcases bind_error.mp h with h | ⟨_, _, h⟩
        · have hs := updateCwnd_stuck h
          exact ⟨hlt, hs⟩
        · cases h
    · cases h
  have hwhole : ∀ {data : List UnackedSegment} {total : UInt32} {u : Tcb}, u.snd.data = data →
      (ackWhole now segAck total data u >>= fun r => ackPart segAck r.1 r.2) =
        .error .divideByZero →
      ¬ NeverStuck (control u.snd) (ackedLens segAck u.snd.unacknowledged data) := by
    intro data
    induction data with
    | nil =>
      intro total u hd h hn
      obtain ⟨hlt, hs⟩ := hpart h
      rw [ackedLens, if_pos hlt] at hn
      exact hn.1 hs
    | cons seg data ih =>
      intro total u hd h hn
      rw [ackWhole] at h
      rw [ackedLens] at hn
      by_cases hle : (u.snd.unacknowledged.add (UInt32.ofNat seg.p.len)).le segAck = true
      · rw [if_pos hle] at h hn
        cases ht : ackOne now seg data u with
        | error f =>
          rcases bind_error.mp ht with hc | ⟨_, _, hc⟩
          · have hs := updateCwnd_stuck hc
            rw [ackSegment_control] at hs
            exact hn.1 hs
          · cases hc
        | ok t =>
          rw [ht, ok_bind] at h
          obtain ⟨-, hua, hdt⟩ := ackOne_spec ht
          obtain ⟨-, hc⟩ := ackOne_control ht
          refine ih hdt h ?_
          rw [hua, hc]
          exact hn.2
      · rw [if_neg hle] at h hn
        obtain ⟨hlt, hs⟩ := hpart h
        rw [if_pos hlt] at hn
        exact hn.1 hs
  exact hwhole rfl h

theorem afterNewAck_control {hw : HwFeatures} {now : Int} {segAck : TcpSeq} {k : UInt32}
    {a b : Tcb} (h : afterNewAck hw now segAck k a = .ok b) :
    control b.snd = (control a.snd).settle segAck (flightSize a.snd) k := by
  unfold afterNewAck at h
  unfold Control.settle
  simp only at h
  split at h
  · rename_i hd
    rw [if_pos (show (control a.snd).dupacks ≥ 3 from hd)]
    split at h
    · rename_i hgt
      obtain rfl := Except.ok.inj h
      rw [if_pos (show segAck.gt (control a.snd).recover = true from hgt)]
      exact setRetransmitTimer_level now _
    · rename_i hgt
      obtain ⟨u, hu, h⟩ := bind_ok.mp h
      have hl : control u.snd = control a.snd := fastRetransmit_level hu
      have hm : a.snd.mss = u.snd.mss := (congrArg Control.mss hl).symm
      have htimer : ∀ (first : Prop) [Decidable first] (t : Tcb),
          control (if first then startRetransmitTimer now t else t).snd = control t.snd := by
        intro first _ t
        split
        · rfl
        · rfl
      obtain rfl := Except.ok.inj h
      rw [if_neg (show ¬ segAck.gt (control a.snd).recover = true from hgt), ← hl, htimer, hm]
      rfl
  · rename_i hd
    obtain rfl := Except.ok.inj h
    rw [if_neg (show ¬ (control a.snd).dupacks ≥ 3 from hd)]
    exact setRetransmitTimer_level now _

/-- An acknowledgement of new data: the window widens, then recovery is settled. -/
theorem ackNewData_control {hw : HwFeatures} {now : Int} {th : TcpHdr} {segSeq : TcpSeq}
    {a b : Tcb} (h : ackNewData hw now th segSeq a = .ok b) :
    NeverStuck (control a.snd) (ackedLens th.ack a.snd.unacknowledged a.snd.data) ∧
      ∃ flight, control b.snd =
        (widenAll (control a.snd) (ackedLens th.ack a.snd.unacknowledged a.snd.data)).settle th.ack
          flight (ackedLens th.ack a.snd.unacknowledged a.snd.data).sum := by
  obtain ⟨⟨k, u⟩, hu, h⟩ := bind_ok.mp h
  obtain ⟨rfl, hs, hc⟩ := dataSegmentAcked_control hu
  have hl : control (if updatesWindow segSeq th.ack u.snd then updateWindow now th segSeq u
      else u).snd = control u.snd := by
    split
    · exact updateWindow_level now th segSeq u
    · rfl
  refine ⟨hs, flightSize (if updatesWindow segSeq th.ack u.snd then updateWindow now th segSeq u
    else u).snd, ?_⟩
  rw [← hc, ← hl]
  exact afterNewAck_control h

theorem duplicateAck_control {hw : HwFeatures} {now : Int} {segAck : TcpSeq} {a b : Tcb} {c : Bool}
    (h : duplicateAck hw now segAck a = .ok (b, c)) :
    control b.snd = (control a.snd).duplicate segAck a.snd.next (flightSize a.snd) := by
  unfold duplicateAck at h
  unfold Control.duplicate
  have hd : (control a.snd).dupacks = a.snd.dupacks := rfl
  simp only [Bool.or_eq_true, decide_eq_true_eq] at h
  simp only [hd]
  by_cases h₁ : a.snd.dupacks + 1 = 1 ∨ a.snd.dupacks + 1 = 2
  · rw [if_pos h₁] at h ⊢
    obtain ⟨rfl, -⟩ := Prod.mk.inj (Except.ok.inj h)
    rfl
  rw [if_neg h₁] at h ⊢
  by_cases h₂ : a.snd.dupacks + 1 = 3
  · rw [if_pos h₂] at h ⊢
    obtain ⟨u, hu, h⟩ := bind_ok.mp h
    obtain ⟨rfl, -⟩ := Prod.mk.inj (Except.ok.inj h)
    have hthird : control u.snd =
        Control.third segAck a.snd.next (flightSize a.snd)
          { control a.snd with dupacks := a.snd.dupacks + 1 } := by
      unfold enterFastRetransmit at hu
      unfold Control.third
      split at hu
      · rename_i hgt
        have hl := fastRetransmit_level hu
        rw [if_pos (show (segAck.back 1).gt (control a.snd).recover = true from hgt)]
        exact hl
      · rename_i hgt
        obtain rfl := Except.ok.inj hu
        rw [if_neg (show ¬ (segAck.back 1).gt (control a.snd).recover = true from hgt)]
        rfl
    rw [← hthird]
    have hm : u.snd.mss = a.snd.mss := by
      have := congrArg Control.mss hthird
      unfold Control.third at this
      split at this
      · exact this
      · exact this
    unfold control Control.smss
    simp only [hm]
  rw [if_neg h₂] at h ⊢
  by_cases h₃ : a.snd.dupacks + 1 > 3
  · rw [if_pos h₃] at h ⊢
    obtain ⟨rfl, -⟩ := Prod.mk.inj (Except.ok.inj h)
    rfl
  · rw [if_neg h₃] at h ⊢
    obtain ⟨rfl, -⟩ := Prod.mk.inj (Except.ok.inj h)
    rfl

/-! ## The ACK field -/

/-- The ACK field is looked at as in ESTABLISHED. -/
def AckTaken (th : TcpHdr) (tcb : Tcb) : Prop :=
  Sending tcb ∨ (tcb.state = .synReceived ∧
    tcb.snd.unacknowledged.le th.ack = true ∧ th.ack.le tcb.snd.next = true)

/-- What the ACK field does to congestion control. -/
inductive AckOutcome (th : TcpHdr) (segLen : Nat) (a b : Tcb) : Prop
  | level : Level a b → AckOutcome th segLen a b
  | acked (flight : UInt32) : AckTaken th a → acksNewData th.ack a.snd = true →
      NeverStuck (control a.snd) (ackedLens th.ack a.snd.unacknowledged a.snd.data) →
      control b.snd =
        (widenAll (control a.snd) (ackedLens th.ack a.snd.unacknowledged a.snd.data)).settle th.ack
          flight (ackedLens th.ack a.snd.unacknowledged a.snd.data).sum →
      AckOutcome th segLen a b
  | duplicate : AckTaken th a → isDuplicateAck th segLen a.snd = true →
      control b.snd = (control a.snd).duplicate th.ack a.snd.next (flightSize a.snd) →
      AckOutcome th segLen a b

/-- An acknowledgement of new data that is taken. -/
theorem ackField_newData {hw : HwFeatures} {now : Int} {th : TcpHdr} {segSeq : TcpSeq}
    {segLen : Nat} {a : Tcb} {r : Flow} (ht : AckTaken th a) (hn : acksNewData th.ack a.snd = true)
    (h : ackField hw now th segSeq segLen a = .ok r) :
    NeverStuck (control a.snd) (ackedLens th.ack a.snd.unacknowledged a.snd.data) ∧
      ∃ flight, control r.tcb.snd =
        (widenAll (control a.snd) (ackedLens th.ack a.snd.unacknowledged a.snd.data)).settle th.ack
          flight (ackedLens th.ack a.snd.unacknowledged a.snd.data).sum := by
  rcases ht with hs | ⟨hs, hack⟩
  · have hsr : a.state ≠ .synReceived := by
      rcases hs with hs | hs
      · rw [hs]; decide
      · rw [hs]; decide
    rw [ackField_other hw now th segSeq segLen hsr, if_pos (by simpa [Sending] using hs),
      ackEstablished, if_pos hn] at h
    obtain ⟨u, hu, h⟩ := bind_ok.mp h
    obtain rfl := Except.ok.inj h
    exact ackNewData_control hu
  · rw [ackField_synReceived hw now segSeq segLen hs hack] at h
    obtain ⟨fs, rv, sr, rto, ef, hd⟩ := doEstablished_eq now a
    rw [hd, ackEstablished, if_pos (by exact hn)] at h
    obtain ⟨u, hu, h⟩ := bind_ok.mp h
    obtain rfl := Except.ok.inj h
    have hc := ackNewData_control hu
    exact hc

theorem ackEstablished_control {hw : HwFeatures} {now : Int} {th : TcpHdr} {segSeq : TcpSeq}
    {segLen : Nat} {a : Tcb} {r : Flow} (ht : AckTaken th a)
    (h : ackEstablished hw now th segSeq segLen a = .ok r) : AckOutcome th segLen a r.tcb := by
  unfold ackEstablished at h
  split at h
  · rename_i hn
    obtain ⟨u, hu, h⟩ := bind_ok.mp h
    obtain rfl := Except.ok.inj h
    obtain ⟨hs, flight, hc⟩ := ackNewData_control hu
    exact .acked flight ht hn hs hc
  split at h
  · rename_i hdup
    obtain ⟨⟨u, b⟩, hu, h⟩ := bind_ok.mp h
    obtain rfl := Except.ok.inj h
    exact .duplicate ht hdup (duplicateAck_control hu)
  split at h
  · obtain rfl := Except.ok.inj h
    exact .level (output_level a)
  split at h
  · obtain rfl := Except.ok.inj h
    exact .level (updateWindow_level now th segSeq a)
  · obtain rfl := Except.ok.inj h
    exact .level (.refl a)

theorem ackFin_level (th : TcpHdr) (b : Bool) (tcb : Tcb) : Level tcb (ackFin th b tcb).tcb := by
  unfold ackFin
  simp only
  split
  · split
    · rfl
    · rfl
  split
  · simp only [Flow.tcb]
    split
    · rfl
    · rfl
  split
  · split
    · rfl
    · rfl
  · rfl

theorem ackField_control {hw : HwFeatures} {now : Int} {th : TcpHdr} {segSeq : TcpSeq}
    {segLen : Nat} {a : Tcb} {r : Flow} (h : ackField hw now th segSeq segLen a = .ok r) :
    AckOutcome th segLen a r.tcb := by
  by_cases hs : a.state = .synReceived
  · by_cases hack : a.snd.unacknowledged.le th.ack = true ∧ th.ack.le a.snd.next = true
    · rw [ackField_synReceived hw now segSeq segLen hs hack] at h
      obtain ⟨fs, rv, sr, rto, ef, hd⟩ := doEstablished_eq now a
      rw [hd] at h
      cases ackEstablished_control (Or.inl (Or.inl rfl)) h with
      | level hl => exact .level hl
      | acked flight _ hn hns hc => exact .acked flight (Or.inr ⟨hs, hack⟩) hn hns hc
      | duplicate _ hdup hc => exact .duplicate (Or.inr ⟨hs, hack⟩) hdup hc
    · rw [ackField, ackSynReceived, if_pos hs, if_neg (by simpa using hack)] at h
      obtain rfl := Except.ok.inj h
      exact .level rfl
  · rw [ackField_other hw now th segSeq segLen hs] at h
    split at h
    · rename_i hst
      exact ackEstablished_control (Or.inl (by simpa [Sending] using hst)) h
    · obtain rfl := Except.ok.inj h
      exact .level (ackFin_level th false a)

/-! ## What `can_send` counts -/

/-- The bytes one call of `can_send` adds to `_snd.limited_transfer`. -/
def counted (snd : Send) : UInt32 :=
  if snd.windowProbe = true ∨ snd.window = 0 ∨
      snd.next.sub snd.unacknowledged > snd.window then 0
  else if snd.dupacks = 1 ∨ snd.dupacks = 2 then
    let x := min snd.cwnd (min (snd.window - snd.next.sub snd.unacknowledged) snd.unsentLen)
    let max := snd.cwnd + 2 * snd.mss.toUInt32
    if flightSize snd ≤ max then min x (max - flightSize snd) else 0
  else 0

theorem canSend_counts (snd : Send) :
    (canSend snd).2 = { snd with limitedTransfer := snd.limitedTransfer + counted snd } := by
  unfold canSend counted
  by_cases h₁ : snd.windowProbe = true
  · rw [if_pos h₁, if_pos (Or.inl h₁), UInt32.add_zero]
  rw [if_neg h₁]
  by_cases h₂ : snd.window = 0
  · rw [if_pos h₂, if_pos (Or.inr (Or.inl h₂)), UInt32.add_zero]
  rw [if_neg h₂]
  simp only
  by_cases h₃ : snd.next.sub snd.unacknowledged > snd.window
  · rw [if_pos h₃, if_pos (Or.inr (Or.inr h₃)), UInt32.add_zero]
  have hopen : ¬ (snd.windowProbe = true ∨ snd.window = 0 ∨
      snd.next.sub snd.unacknowledged > snd.window) := by
    rintro (h | h | h)
    · exact h₁ h
    · exact h₂ h
    · exact h₃ h
  rw [if_neg h₃, if_neg hopen]
  by_cases h₄ : snd.dupacks = 1 ∨ snd.dupacks = 2
  · have hb : (decide (snd.dupacks = 1) || decide (snd.dupacks = 2)) = true := by simpa using h₄
    rw [if_pos hb, if_pos h₄]
  · have hb : ¬ (decide (snd.dupacks = 1) || decide (snd.dupacks = 2)) = true := by simpa using h₄
    rw [if_neg hb, if_neg h₄, UInt32.add_zero]
    split
    · rfl
    · rfl

theorem counted_canSend (snd : Send) : counted (canSend snd).2 = counted snd := by
  rw [canSend_counts]
  rfl

/-- Congestion control is left alone, or a call of `can_send` has counted. -/
def LevelOrCounted (a b : Tcb) : Prop := Level a b ∨
  (control b.snd = { control a.snd with
      limitedTransfer := a.snd.limitedTransfer + counted a.snd } ∧ counted b.snd = counted a.snd)

theorem LevelOrCounted.of_canSend {a b : Tcb} (h : b.snd = (canSend a.snd).2) :
    LevelOrCounted a b := by
  right
  constructor
  · rw [h, canSend_counts]
    rfl
  · rw [h, counted_canSend]

theorem finishInput_control (b c : Bool) (tcb : Tcb) :
    LevelOrCounted tcb (finishInput b c tcb) := by
  have houtput : ∀ t : Tcb, (output t).snd = t.snd := by
    intro t
    obtain ⟨pa, ef, h⟩ := output_eq t
    rw [h]
  unfold finishInput
  split
  · exact Or.inl (output_level (clearDelayedAck tcb))
  split
  · apply LevelOrCounted.of_canSend
    simp only
    split
    · exact houtput _
    · rfl
  · exact Or.inl (.refl tcb)

/-! ## A segment -/

theorem finAndOutput_control (th : TcpHdr) (finSeq : TcpSeq) (b c : Bool) (tcb : Tcb) :
    ∃ u, Level tcb u ∧ LevelOrCounted u (finAndOutput th finSeq b c tcb) := by
  have hself : ∀ t : Tcb, Level tcb t → ∃ u, Level tcb u ∧ LevelOrCounted u t :=
    fun t ht => ⟨t, ht, Or.inl (.refl t)⟩
  have hfin := takeFin_level finSeq tcb
  unfold finAndOutput
  split
  · split
    · exact hself tcb (.refl tcb)
    unfold segmentFin
    by_cases he : finSeq = tcb.rcv.next
    · rw [if_pos he]
      simp only
      split
      · rename_i t _ ht
        split at ht
        · cases ht
        split at ht
        · cases ht
        split at ht
        · cases ht
          exact hself _ hfin
        · cases ht
      · rename_i t _ _ ht
        split at ht
        · cases ht
          exact ⟨_, hfin, finishInput_control _ _ _⟩
        split at ht
        · cases ht
          exact ⟨_, hfin, finishInput_control _ _ _⟩
        split at ht
        · cases ht
        · cases ht
          exact ⟨_, hfin, finishInput_control _ _ _⟩
    · rw [if_neg he]
      exact ⟨_, .refl tcb, finishInput_control _ _ _⟩
  · exact ⟨_, .refl tcb, finishInput_control _ _ _⟩

theorem textAndFin_control {now : Int} {th : TcpHdr} {segSeq : TcpSeq} {p : Packet} {b : Bool}
    {tcb t : Tcb} (h : textAndFin now th segSeq p b tcb = .ok t) :
    ∃ u, Level tcb u ∧ LevelOrCounted u t := by
  unfold textAndFin at h
  simp only at h
  split at h
  · obtain ⟨⟨c, u⟩, hu, h⟩ := bind_ok.mp h
    obtain rfl := Except.ok.inj h
    obtain ⟨v, hv, hvt⟩ := finAndOutput_control th (segSeq.add (UInt32.ofNat p.len)) c b u
    exact ⟨v, (segmentText_level hu).trans hv, hvt⟩
  split at h
  · obtain rfl := Except.ok.inj h
    exact ⟨_, .refl _, Or.inl (.refl _)⟩
  · obtain rfl := Except.ok.inj h
    exact finAndOutput_control th _ false b tcb

theorem resetReceived_level {tcb t : Tcb} (h : resetReceived tcb = some t) : Level tcb t := by
  unfold resetReceived at h
  split at h
  · obtain rfl := Option.some.inj h
    exact doReset_level (emit (.wake .connectDone .refusedError) tcb)
  · obtain rfl := Option.some.inj h
    exact doReset_level tcb
  · obtain rfl := Option.some.inj h
    exact doReset_level tcb
  · obtain rfl := Option.some.inj h
    exact doReset_level tcb
  · obtain rfl := Option.some.inj h
    exact doReset_level tcb
  · obtain rfl := Option.some.inj h
    rfl
  · obtain rfl := Option.some.inj h
    rfl
  · obtain rfl := Option.some.inj h
    rfl
  · cases h

/-- A segment that gets to the ACK field changes congestion control there; what `can_send`
counts comes last. -/
theorem inputHandleOtherState_control {hw : HwFeatures} {now : Int} {th : TcpHdr} {p : Packet}
    {s t : Tcb} (h : inputHandleOtherState hw now th p s = .ok t) :
    Level s t ∨ (NextInLine th p s.rcv ∧ Proceeds th s ∧
      ∃ u, AckOutcome th (textLen th p - oldLen th p s.rcv) s u ∧ LevelOrCounted u t) := by
  have hd := inputHandleOtherState_dispatched hw now th p s
  rw [h] at hd
  generalize hx : (Except.ok t : Except Fault Tcb) = x at hd
  cases hd with
  | short _ => cases hx
  | unacceptable _ _ =>
    obtain rfl := Except.ok.inj hx
    exact Or.inl (output_level s)
  | outOfOrder q _ _ _ _ =>
    obtain ⟨rcv, -, hx⟩ := bind_ok.mp hx.symm
    obtain rfl := Except.ok.inj hx
    exact Or.inl (output_level { s with rcv := rcv })
  | inOrder q hn hq =>
    by_cases hp : Proceeds th s
    · rw [inOrder_proceeds hp] at hx
      obtain ⟨r, hr, hx⟩ := bind_ok.mp hx.symm
      have ho := ackField_control hr
      rw [hq.len] at ho
      refine Or.inr ⟨hn, hp, ?_⟩
      cases r with
      | ret u =>
        obtain rfl := Except.ok.inj hx
        exact ⟨_, ho, Or.inl (.refl _)⟩
      | go u b =>
        obtain ⟨v, hv, hvt⟩ := textAndFin_control hx
        refine ⟨v, ?_, hvt⟩
        cases ho with
        | level hl => exact .level (hl.trans hv)
        | acked flight ht hn' hs hc => exact .acked flight ht hn' hs (Eq.trans hv hc)
        | duplicate ht hdup hc => exact .duplicate ht hdup (Eq.trans hv hc)
    · left
      unfold inOrder at hx
      split at hx
      · rename_i u hu
        obtain rfl := Except.ok.inj hx
        split at hu
        · exact resetReceived_level hu
        · cases hu
      · rename_i hrst
        split at hx
        · obtain rfl := Except.ok.inj hx
          exact doReset_level (emit (.respondWithReset th) s)
        rename_i hsyn
        split at hx
        · obtain rfl := Except.ok.inj hx
          exact .refl _
        · rename_i hack
          refine absurd ⟨fun hr => ?_, by simpa using hsyn, by simpa using hack⟩ hp
          rwa [if_pos hr] at hrst

theorem inputHandleOtherState_newData {hw : HwFeatures} {now : Int} {th : TcpHdr} {p : Packet}
    {s t : Tcb} (hl : NextInLine th p s.rcv) (hp : Proceeds th s) (ht : AckTaken th s)
    (hn : acksNewData th.ack s.snd = true) (h : inputHandleOtherState hw now th p s = .ok t) :
    ∃ u flight, control u.snd =
        (widenAll (control s.snd) (ackedLens th.ack s.snd.unacknowledged s.snd.data)).settle th.ack
          flight (ackedLens th.ack s.snd.unacknowledged s.snd.data).sum ∧ LevelOrCounted u t := by
  have hd := inputHandleOtherState_dispatched hw now th p s
  rw [h] at hd
  generalize hx : (Except.ok t : Except Fault Tcb) = x at hd
  cases hd with
  | short _ => cases hx
  | unacceptable _ ha =>
    rw [hl.2.1] at ha
    cases ha
  | outOfOrder q _ _ _ hne => exact absurd hl.2.2 hne
  | inOrder q _ _ =>
    rw [inOrder_proceeds hp] at hx
    obtain ⟨r, hr, hx⟩ := bind_ok.mp hx.symm
    obtain ⟨-, flight, hc⟩ := ackField_newData ht hn hr
    cases r with
    | ret u =>
      obtain rfl := Except.ok.inj hx
      exact ⟨_, flight, hc, Or.inl (.refl _)⟩
    | go u b =>
      obtain ⟨v, hv, hvt⟩ := textAndFin_control hx
      exact ⟨v, flight, Eq.trans hv hc, hvt⟩

/-- `init_from_options` sets the windows from the SYN of the peer. -/
theorem inputHandleSynSentState_control {hw : HwFeatures} {e : Event} {th : TcpHdr} {p : Packet}
    {s t : Tcb} (he : e.act = .segment th p)
    (h : inputHandleSynSentState hw e.now th p s = .ok t) :
    Level s t ∨ ∃ b, Negotiates hw th e s b ∧ Level b t := by
  unfold inputHandleSynSentState at h
  obtain ⟨⟨hdr, q⟩, hsplit, h⟩ := bind_ok.mp h
  simp only at h
  split at h
  · obtain rfl := Except.ok.inj h
    exact Or.inl rfl
  split at h
  · obtain rfl := Except.ok.inj h
    left
    split
    · exact doReset_level s
    · exact .refl s
  rename_i hrst
  rw [Bool.not_eq_true] at hrst
  split at h
  · rename_i hsyn
    have haccept : Level s (acceptSyn th s) := by
      unfold Level acceptSyn
      simp only
      split
      · rfl
      · rfl
    unfold synBit at h
    simp only [acceptSyn_initial] at h
    split at h
    · rename_i hgt
      obtain ⟨area, harea, h⟩ := bind_ok.mp h
      obtain ⟨b, hb, h⟩ := bind_ok.mp h
      obtain rfl := Except.ok.inj h
      exact Or.inr ⟨b, ⟨hsyn, hrst, hgt, p, hdr, q, area, he, hsplit, harea, hb⟩,
        (doEstablished_level e.now b).trans (output_level _)⟩
    · obtain rfl := Except.ok.inj h
      exact Or.inl (haccept.trans (output_level { acceptSyn th s with
        state := .synReceived, snd := { (acceptSyn th s).snd with synTxTime := e.now } }))
  · obtain rfl := Except.ok.inj h
    exact Or.inl (.refl _)

/-! ## The other events -/

/-- A call of `can_send` may have counted, on the connection as it was. -/
def MayCount (a b : Tcb) : Prop := Level a b ∨
  control b.snd = { control a.snd with limitedTransfer := a.snd.limitedTransfer + counted a.snd }

theorem MayCount.level {a b c : Tcb} (h : MayCount a b) (h' : Level b c) : MayCount a c := by
  rcases h with h | h
  · exact Or.inl (h.trans h')
  · exact Or.inr (Eq.trans h' h)

theorem getTransmitPacket_control {hw : HwFeatures} {snd snd' : Send} {p : Packet}
    (h : getTransmitPacket hw snd = .ok (p, snd')) : control snd' = control snd ∨
      control snd' = { control snd with limitedTransfer := snd.limitedTransfer + counted snd } := by
  unfold getTransmitPacket at h
  split at h
  · obtain ⟨-, rfl⟩ := Prod.mk.inj (Except.ok.inj h)
    exact Or.inl rfl
  · right
    simp only [canSend_counts] at h
    split at h
    · obtain ⟨-, rfl⟩ := Prod.mk.inj (Except.ok.inj h)
      rfl
    split at h
    · obtain ⟨q, -, h⟩ := bind_ok.mp h
      obtain ⟨r, -, h⟩ := bind_ok.mp h
      obtain ⟨-, rfl⟩ := Prod.mk.inj (Except.ok.inj h)
      rfl
    · obtain ⟨⟨q, rest⟩, -, h⟩ := bind_ok.mp h
      obtain ⟨-, rfl⟩ := Prod.mk.inj (Except.ok.inj h)
      rfl

theorem rememberSent_level (now : Int) (clone : Packet) (len : UInt16) (tcb : Tcb) :
    Level tcb (rememberSent now clone len tcb) := by
  obtain ⟨rt, h⟩ := rememberSent_eq now clone len tcb
  rw [h]
  rfl

theorem outputOne_false_control {hw : HwFeatures} {now : Int} {a b : Tcb}
    (h : outputOne hw now false a = .ok b) : MayCount a b := by
  unfold outputOne at h
  split at h
  · obtain rfl := Except.ok.inj h
    exact Or.inl (.refl _)
  · obtain ⟨⟨p, snd⟩, hp, h⟩ := bind_ok.mp h
    obtain ⟨clone, -, h⟩ := bind_ok.mp h
    obtain ⟨⟨seg, u⟩, hu, h⟩ := bind_ok.mp h
    have hpay : MayCount a { a with snd := snd } := getTransmitPacket_control hp
    refine hpay.level ?_
    obtain ⟨da, seg', hb, -⟩ := buildSegment_eq hw false p { a with snd := snd }
    obtain ⟨-, rfl⟩ := Prod.mk.inj (Except.ok.inj (hu.symm.trans hb))
    simp only at h
    have hqueue : ∀ {v : Tcb}, queuePacket seg v = .ok b → Level v b := by
      intro v hv
      unfold queuePacket at hv
      split at hv
      · obtain rfl := Except.ok.inj hv
        rfl
      · cases hv
    have hl := hqueue h
    refine Level.trans ?_ hl
    split
    · exact rememberSent_level now clone (UInt16.ofNat p.len) { a with
        delayedAck := da
        snd := { snd with next := snd.next.add (UInt16.ofNat p.len).toUInt32 } }
    · rfl

theorem mayTransmit_snd (tcb : Tcb) : (mayTransmit tcb).2.snd = (canSend tcb.snd).2 := rfl

theorem takePacket_control {a b : Tcb} {o : Option OutSegment} (h : takePacket a = .ok (o, b)) :
    LevelOrCounted a b := by
  have houtput : ∀ t : Tcb, (output t).snd = t.snd := by
    intro t
    obtain ⟨pa, ef, h⟩ := output_eq t
    rw [h]
  unfold takePacket at h
  split at h
  · obtain ⟨-, rfl⟩ := Prod.mk.inj (Except.ok.inj h)
    exact Or.inl (.refl a)
  split at h
  · cases h
  · rename_i p packetq hq
    simp only at h
    split at h
    · obtain ⟨-, rfl⟩ := Prod.mk.inj (Except.ok.inj h)
      exact Or.inl (output_level { a with packetq := packetq, handed := a.handed ++ [p] })
    split at h
    · obtain ⟨-, rfl⟩ := Prod.mk.inj (Except.ok.inj h)
      apply LevelOrCounted.of_canSend
      split
      · exact houtput _
      · rfl
    · obtain ⟨-, rfl⟩ := Prod.mk.inj (Except.ok.inj h)
      exact Or.inl rfl

/-- The retransmission timer shrinks the window, or the connection is left alone. -/
def MayTimeOut (a b : Tcb) : Prop := Level a b ∨
  ∃ again, control b.snd = (control a.snd).timeout a.snd.next (flightSize a.snd) again

theorem retransmitData_control {hw : HwFeatures} {now : Int} {a b : Tcb}
    (h : retransmitData hw now a = .ok b) : MayTimeOut a b := by
  unfold retransmitData at h
  split at h
  · obtain rfl := Except.ok.inj h
    exact Or.inl (.refl _)
  · rename_i seg data hd
    have hcontrol : control (exitFastRecovery { a.snd with
        ssthresh := if seg.nrTransmits = 0 then
            max (flightSize a.snd / 2) (2 * a.snd.mss.toUInt32)
          else a.snd.ssthresh
        recover := a.snd.next.back 1, cwnd := a.snd.mss.toUInt32 }) =
          (control a.snd).timeout a.snd.next (flightSize a.snd) (decide (seg.nrTransmits ≠ 0)) := by
      unfold Control.timeout
      by_cases h0 : seg.nrTransmits = 0
      · simp only [h0, ne_eq, not_true_eq_false, decide_false, if_true, Bool.false_eq_true, if_false]
        rfl
      · simp only [h0, ne_eq, not_false_eq_true, decide_true, if_true, if_false]
        rfl
    refine Or.inr ⟨decide (seg.nrTransmits ≠ 0), ?_⟩
    rw [← hcontrol]
    simp only at h
    split at h
    · obtain ⟨u, hu, h⟩ := bind_ok.mp h
      obtain rfl := Except.ok.inj h
      have hl := outputOne_true_level hu
      obtain ⟨pa, ef, rto, rt, ho⟩ := outputUpdateRto_eq now u
      rw [ho]
      exact hl
    · obtain rfl := Except.ok.inj h
      rfl

theorem outputUpdateRto_snd (now : Int) (tcb : Tcb) : (outputUpdateRto now tcb).snd = tcb.snd := by
  obtain ⟨pa, ef, rto, rt, h⟩ := outputUpdateRto_eq now tcb
  rw [h]

theorem retransmit_control {hw : HwFeatures} {now : Int} {a b : Tcb}
    (h : retransmit hw now a = .ok b) : MayTimeOut a b := by
  have hfin : ∀ {u : Tcb}, control u.snd = control a.snd → u.snd.next = a.snd.next →
      u.snd.data = a.snd.data → retransmitFin hw now u = .ok b → MayTimeOut a b := by
    intro u hu hn hd h
    have hdata : ∀ {v : Tcb}, control v.snd = control u.snd → v.snd.next = u.snd.next →
        v.snd.data = u.snd.data → retransmitData hw now v = .ok b → MayTimeOut a b := by
      intro v hv hvn hvd h
      rcases retransmitData_control h with h | ⟨again, h⟩
      · exact Or.inl (Eq.trans h (hv.trans hu))
      · refine Or.inr ⟨again, ?_⟩
        rw [h, hv, hu, hvn, hn]
        unfold flightSize
        rw [hvd, hd]
    unfold retransmitFin at h
    split at h
    · simp only at h
      split at h
      · refine hdata ?_ ?_ ?_ h
        · rw [outputUpdateRto_snd]
          rfl
        · rw [outputUpdateRto_snd]
        · rw [outputUpdateRto_snd]
      · obtain rfl := Except.ok.inj h
        exact Or.inl hu
    · exact hdata rfl rfl rfl h
  unfold retransmit at h
  split at h
  · simp only at h
    split at h
    · refine hfin ?_ ?_ ?_ h
      · rw [outputUpdateRto_snd]
        rfl
      · rw [outputUpdateRto_snd]
      · rw [outputUpdateRto_snd]
    · obtain rfl := Except.ok.inj h
      exact Or.inl rfl
  · exact hfin rfl rfl rfl h

/-! ## One event -/

/-- What one event does to congestion control. -/
inductive Regulated (hw : HwFeatures) (s : Tcb) (e : Event) (t : Tcb) : Prop
  /-- at most something is counted for limited transmit -/
  | sent {u : Tcb} : MayCount s u → LevelOrCounted u t → Regulated hw s e t
  | answered {th : TcpHdr} {p : Packet} {u : Tcb} : e.act = .segment th p → s.state ≠ .synSent →
      NextInLine th p s.rcv → Proceeds th s →
      AckOutcome th (textLen th p - oldLen th p s.rcv) s u → LevelOrCounted u t →
      Regulated hw s e t
  | opened {th : TcpHdr} {b : Tcb} : s.state = .synSent → Negotiates hw th e s b → Level b t →
      Regulated hw s e t
  | timedOut (again : Bool) : e.act = .retransmitExpires →
      control t.snd = (control s.snd).timeout s.snd.next (flightSize s.snd) again →
      Regulated hw s e t

variable {hw : HwFeatures} {s t : Tcb} {e : Event}

theorem Regulated.level (h : Level s t) : Regulated hw s e t := .sent (Or.inl h) (Or.inl (.refl t))

theorem send_control (p : Packet) (tcb : Tcb) :
    ∃ u, Level tcb u ∧ LevelOrCounted u (tcb.send p) := by
  have hwait : ∀ t : Tcb, (control (waitSendAvailable t).snd = control t.snd ∧
      counted (waitSendAvailable t).snd = counted t.snd) := by
    intro t
    unfold waitSendAvailable
    split
    · exact ⟨rfl, rfl⟩
    · exact ⟨rfl, rfl⟩
  have houtput : ∀ (c : Bool) (t : Tcb), (if c then output t else t).snd = t.snd := by
    intro c t
    split
    · obtain ⟨pa, ef, h⟩ := output_eq t
      rw [h]
    · rfl
  by_cases hr : sendRefused tcb = true
  · have hsame : tcb.send p = tcb := if_pos hr
    rw [hsame]
    exact ⟨tcb, .refl tcb, Or.inl (.refl tcb)⟩
  · have hsend : tcb.send p = waitSendAvailable (if (mayTransmit (queueForSend p tcb)).1 then
        output (mayTransmit (queueForSend p tcb)).2 else (mayTransmit (queueForSend p tcb)).2) :=
      if_neg hr
    refine ⟨queueForSend p tcb, rfl, ?_⟩
    obtain ⟨hc, hn⟩ := hwait (if (mayTransmit (queueForSend p tcb)).1 then
        output (mayTransmit (queueForSend p tcb)).2 else (mayTransmit (queueForSend p tcb)).2)
    rw [houtput, mayTransmit_snd, canSend_counts] at hc hn
    rw [hsend]
    exact Or.inr ⟨hc, hn⟩

theorem persist_control {now : Int} (h : persist hw now s = .ok t) : Level s t := by
  obtain ⟨b, hb, h⟩ := bind_ok.mp h
  obtain rfl := Except.ok.inj h
  -- a window probe is not counted
  have hprobe : Level s b := by
    rcases outputOne_false_control hb with hl | hc
    · exact hl
    · refine Eq.trans hc ?_
      have h0 : counted { s.snd with
          windowProbe := true
          zeroWindowProbingOut := s.snd.zeroWindowProbingOut + 1 } = 0 := if_pos (Or.inl rfl)
      simp only [h0, UInt32.add_zero]
      rfl
  obtain ⟨pa, ef, ho⟩ := output_eq { b with snd := { b.snd with windowProbe := false } }
  rw [ho]
  exact hprobe

theorem closeContinue_control {now : Int} (h : closeContinue hw now s = .ok t) : MayCount s t := by
  unfold closeContinue at h
  simp only at h
  obtain ⟨b, hb, h⟩ := bind_ok.mp h
  obtain rfl := Except.ok.inj h
  have hstate : ∀ {v : Tcb}, v.snd = { s.snd with closed := true } → MayCount v b → MayCount s b := by
    intro v hv hc
    unfold MayCount Level at hc
    rw [hv] at hc
    exact hc
  refine MayCount.level ?_ (output_level b)
  refine hstate ?_ (outputOne_false_control hb)
  split
  · rfl
  split
  · rfl
  · rfl

theorem getPacket_control {now : Int} (h : (getPacket hw now s).map Prod.snd = .ok t) :
    ∃ u, MayCount s u ∧ LevelOrCounted u t := by
  obtain ⟨⟨o, b⟩, hg, rfl⟩ := map_ok.mp h
  obtain ⟨u, hu, hg⟩ := bind_ok.mp hg
  refine ⟨u, ?_, takePacket_control hg⟩
  unfold fillPacketq at hu
  split at hu
  · have hc := outputOne_false_control hu
    exact hc
  · obtain rfl := Except.ok.inj hu
    exact Or.inl rfl

theorem close_level (tcb : Tcb) : Level tcb (close tcb) := by
  unfold close
  split
  · rfl
  split
  · rfl
  · rfl

theorem abortReader_level (tcb : Tcb) : Level tcb (abortReader tcb) := by
  obtain ⟨pr, ef, h⟩ := failDataReceived_eq .abortedError tcb
  rw [abortReader, h]
  rfl

/-- Every event that returns does one of these things to congestion control. -/
theorem step_control (h : step hw s e = .ok t) : Regulated hw s e t := by
  obtain ⟨now, act⟩ := e
  unfold step at h
  cases act with
  | segment th p =>
    by_cases hs : s.state = .synSent
    · have hin : inputHandleSynSentState hw now th p s = .ok t := (if_pos hs).symm.trans h
      rcases inputHandleSynSentState_control (e := ⟨now, .segment th p⟩) rfl hin with
        hl | ⟨b, hn, hl⟩
      · exact .level hl
      · exact .opened hs hn hl
    · have hin : inputHandleOtherState hw now th p s = .ok t := (if_neg hs).symm.trans h
      rcases inputHandleOtherState_control hin with hl | ⟨hn, hp, u, ho, hc⟩
      · exact .level hl
      · exact .answered rfl hs hn hp ho hc
  | send p =>
    obtain rfl := Except.ok.inj h
    obtain ⟨u, hl, hc⟩ := send_control p s
    exact .sent (Or.inl hl) hc
  | read =>
    obtain rfl := Except.ok.inj h
    exact .level rfl
  | waitForData =>
    obtain rfl := Except.ok.inj h
    refine .level ?_
    unfold waitForData
    split
    · rfl
    · rfl
  | abortReader =>
    obtain rfl := Except.ok.inj h
    exact .level (abortReader_level s)
  | close =>
    obtain rfl := Except.ok.inj h
    exact .level (close_level s)
  | closeContinue =>
    simp only at h
    split at h
    · have hc := closeContinue_control h
      exact .sent (u := t) hc (Or.inl (.refl t))
    · obtain rfl := Except.ok.inj h
      exact .level (.refl _)
  | shutdownConnect =>
    obtain rfl := Except.ok.inj h
    refine .level ?_
    unfold shutdownConnect
    split
    · rfl
    · exact (abortReader_level s).trans (close_level (abortReader s))
  | getPacket =>
    simp only at h
    split at h
    · obtain ⟨u, hu, hc⟩ := getPacket_control h
      exact .sent hu hc
    · obtain rfl := Except.ok.inj h
      exact .level (.refl _)
  | retransmitExpires =>
    simp only at h
    split at h
    · rcases retransmit_control h with hl | ⟨again, hc⟩
      · exact .level hl
      · exact .timedOut again rfl hc
    · obtain rfl := Except.ok.inj h
      exact .level (.refl _)
  | persistExpires =>
    simp only at h
    split at h
    · have hl := persist_control h
      exact .level hl
    · obtain rfl := Except.ok.inj h
      exact .level (.refl _)
  | delayedAckExpires =>
    simp only at h
    split at h
    · obtain rfl := Except.ok.inj h
      exact .level (output_level { s with delayedAck := none, nrFullSegReceived := 0 })
    · obtain rfl := Except.ok.inj h
      exact .level (.refl _)
  | arpQueueFull =>
    simp only at h
    split at h
    · obtain rfl := Except.ok.inj h
      exact .level rfl
    · obtain rfl := Except.ok.inj h
      exact .level (.refl _)
  | arpTimeout =>
    simp only at h
    split at h
    · obtain rfl := Except.ok.inj h
      exact .level rfl
    · obtain rfl := Except.ok.inj h
      exact .level (.refl _)

end Seastar.Net.Tcp.Tcb
