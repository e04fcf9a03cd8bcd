import Seastar.Net.Tcp.CongestionControl
import Seastar.Net.Tcp.Received

/-!
Deflation in fast recovery: a partial acknowledgement takes what it acknowledges from the
congestion window, and adds one `smss` back.

Before that, `update_cwnd` has widened the window for every segment acknowledged. The
window ends within one `smss` of what it was exactly when this widening and the bytes
acknowledged keep each other in bounds.
-/

namespace Seastar.Net.Tcp.Tcb

open Lib

/-- A partial acknowledgement: it arrives in fast recovery, acknowledges new data, and does not
go beyond what was sent when the loss was seen. Duplicate ACKs are only counted in
ESTABLISHED and CLOSE_WAIT. -/
def PartialAck (s : Tcb) (th : TcpHdr) (p : Packet) : Prop :=
  Sending s ∧ NextInLine th p s.rcv ∧ Proceeds th s ∧ acksNewData th.ack s.snd = true ∧
    s.snd.dupacks ≥ 3 ∧ th.ack.gt s.snd.recover = false

/-- The bytes the segment acknowledges. -/
def ackedBytes (s : Tcb) (th : TcpHdr) : UInt32 :=
  (ackedLens th.ack s.snd.unacknowledged s.snd.data).sum

/-- The congestion window as `update_cwnd` widens it for them. -/
def widened (s : Tcb) (th : TcpHdr) : UInt32 :=
  (widenAll (control s.snd) (ackedLens th.ack s.snd.unacknowledged s.snd.data)).cwnd

/-- The bytes acknowledged fit the widened window, and it was widened by no more than them (and
one `smss`, which is not added back for less than that). -/
def Deflatable (s : Tcb) (th : TcpHdr) : Prop :=
  ackedBytes s th ≤ widened s th ∧
    (widened s th).toNat ≤ s.snd.cwnd.toNat + (ackedBytes s th).toNat +
      if s.snd.mss.toUInt32 ≤ ackedBytes s th then 0 else s.snd.mss.toNat

/-- The subtraction `_snd.cwnd -= acked_bytes` does not wrap, and leaves the window at most one
`smss` wider than it was. -/
def Deflates (s : Tcb) (now : Int) (th : TcpHdr) (t : Tcb) : Prop :=
  (∀ acked u, dataSegmentAcked now th.ack s = .ok (acked, u) → acked ≤ u.snd.cwnd) ∧
    t.snd.cwnd.toNat ≤ s.snd.cwnd.toNat + s.snd.mss.toNat

/-- A condition on the partial acknowledgements of a run. -/
def OnPartialAck (P : Tcb → Int → TcpHdr → Prop) (s : Tcb) (e : Event) : Prop :=
  match e.act with
  | .segment th p => PartialAck s th p → P s e.now th
  | _ => True

instance (s : Tcb) (th : TcpHdr) (p : Packet) : Decidable (PartialAck s th p) :=
  inferInstanceAs (Decidable (_ ∧ _))

instance (s : Tcb) (th : TcpHdr) : Decidable (Deflatable s th) :=
  inferInstanceAs (Decidable (_ ∧ _))

instance (P : Tcb → Int → TcpHdr → Prop) [∀ s now th, Decidable (P s now th)] (s : Tcb) :
    (e : Event) → Decidable (OnPartialAck P s e)
  | ⟨now, .segment th p⟩ => inferInstanceAs (Decidable (PartialAck s th p → P s now th))
  | ⟨_, .send _⟩ | ⟨_, .read⟩ | ⟨_, .waitForData⟩ | ⟨_, .abortReader⟩ | ⟨_, .close⟩
  | ⟨_, .closeContinue⟩ | ⟨_, .shutdownConnect⟩ | ⟨_, .getPacket⟩ | ⟨_, .retransmitExpires⟩
  | ⟨_, .persistExpires⟩ | ⟨_, .delayedAckExpires⟩ | ⟨_, .arpQueueFull⟩ | ⟨_, .arpTimeout⟩ =>
    .isTrue trivial

/-! ## One partial acknowledgement -/

theorem LevelOrCounted.cwnd {a b : Tcb} (h : LevelOrCounted a b) : b.snd.cwnd = a.snd.cwnd := by
  rcases h with h | ⟨h, -⟩
  · exact congrArg Control.cwnd h
  · exact congrArg Control.cwnd h

/-- The window a partial acknowledgement leaves. -/
theorem partialAck_cwnd {hw : HwFeatures} {now : Int} {s t : Tcb} {th : TcpHdr} {p : Packet}
    (hp : PartialAck s th p) (h : step hw s ⟨now, .segment th p⟩ = .ok t) :
    t.snd.cwnd = if s.snd.mss.toUInt32 ≤ ackedBytes s th then
        widened s th - ackedBytes s th + s.snd.mss.toUInt32
      else widened s th - ackedBytes s th := by
  obtain ⟨hs, hl, hpr, hn, hd, hg⟩ := hp
  have hsyn : s.state ≠ .synSent := by
    rcases hs with hs | hs
    · rw [hs]; decide
    · rw [hs]; decide
  have hin : inputHandleOtherState hw now th p s = .ok t := (if_neg hsyn).symm.trans h
  obtain ⟨u, flight, hc, hut⟩ := inputHandleOtherState_newData hl hpr (Or.inl hs) hn hin
  obtain ⟨hm, -, hdup, hrec⟩ := widenAll_frame (control s.snd)
    (ackedLens th.ack s.snd.unacknowledged s.snd.data)
  have hrec' : ¬ th.ack.gt (widenAll (control s.snd)
      (ackedLens th.ack s.snd.unacknowledged s.snd.data)).recover = true := by
    rw [hrec]
    exact (Bool.eq_false_iff.mp hg)
  unfold Control.settle at hc
  rw [if_pos (by rw [hdup]; exact hd), if_neg hrec'] at hc
  have hcw : u.snd.cwnd = _ := congrArg Control.cwnd hc
  rw [hut.cwnd, hcw]
  unfold Control.smss
  rw [hm]
  rfl

/-- The bytes are counted, and the window widened, before anything is subtracted. -/
theorem partialAck_acked {hw : HwFeatures} {now : Int} {s t : Tcb} {th : TcpHdr} {p : Packet}
    (hp : PartialAck s th p) (h : step hw s ⟨now, .segment th p⟩ = .ok t) :
    (∀ acked u, dataSegmentAcked now th.ack s = .ok (acked, u) → acked ≤ u.snd.cwnd) ↔
      ackedBytes s th ≤ widened s th := by
  obtain ⟨hs, hl, hpr, hn, -, -⟩ := hp
  constructor
  · intro hall
    have hsyn : s.state ≠ .synSent ∧ s.state ≠ .synReceived := by
      rcases hs with hs | hs
      · rw [hs]; decide
      · rw [hs]; decide
    have hin : inputHandleOtherState hw now th p s = .ok t := (if_neg hsyn.1).symm.trans h
    have hdis := inputHandleOtherState_dispatched hw now th p s
    rw [hin] at hdis
    generalize hx : (Except.ok t : Except Fault Tcb) = x at hdis
    cases hdis with
    | short _ => cases hx
    | unacceptable _ ha =>
      rw [hl.2.1] at ha
      cases ha
    | outOfOrder q _ _ _ hne => exact absurd hl.2.2 hne
    | inOrder q _ _ =>
      rw [inOrder_proceeds hpr, ackField_other hw now th _ _ hsyn.2,
        if_pos (by simpa [Sending] using hs), ackEstablished, if_pos hn] at hx
      obtain ⟨r, hr, -⟩ := bind_ok.mp hx.symm
      obtain ⟨v, hv, -⟩ := bind_ok.mp hr
      obtain ⟨⟨acked, u⟩, hu, -⟩ := bind_ok.mp hv
      have hle := hall acked u hu
      obtain ⟨hk, -, hc⟩ := dataSegmentAcked_control hu
      have hcw : u.snd.cwnd = widened s th := congrArg Control.cwnd hc
      rw [hcw, hk] at hle
      exact hle
  · intro hle acked u hu
    obtain ⟨rfl, -, hc⟩ := dataSegmentAcked_control hu
    have hcw : u.snd.cwnd = widened s th := congrArg Control.cwnd hc
    rw [hcw]
    exact hle

theorem partialAck_deflates_iff {hw : HwFeatures} {now : Int} {s t : Tcb} {th : TcpHdr}
    {p : Packet} (hp : PartialAck s th p) (h : step hw s ⟨now, .segment th p⟩ = .ok t) :
    Deflates s now th t ↔ Deflatable s th := by
  unfold Deflates Deflatable
  rw [partialAck_acked hp h, partialAck_cwnd hp h]
  refine and_congr_right fun hle => ?_
  have hsub : (widened s th - ackedBytes s th).toNat =
      (widened s th).toNat - (ackedBytes s th).toNat := UInt32.toNat_sub_of_le _ _ hle
  have hle' := UInt32.le_iff_toNat_le.mp hle
  have hw := (widened s th).toNat_lt
  have hmss : s.snd.mss.toUInt32.toNat = s.snd.mss.toNat := UInt16.toNat_toUInt32 _
  split
  · rename_i hm
    have hm' := UInt32.le_iff_toNat_le.mp hm
    -- adding one `smss` back does not wrap, since more than that was taken
    rw [UInt32.toNat_add, hsub, hmss, Nat.mod_eq_of_lt (by omega)]
    omega
  · rw [hsub]
    omega

/-! ## Runs -/

/-- In a run that returns, every partial acknowledgement takes what it acknowledges from the
congestion window without wrapping, and leaves it at most one `smss` wider, exactly when
every one of them finds the window deflatable. -/
theorem run_deflates (hw : HwFeatures) {tcb u : Tcb} (es : List Event)
    (hr : run hw tcb es = .ok u) :
    Along hw (fun s e => ∀ t, step hw s e = .ok t →
      OnPartialAck (fun s now th => Deflates s now th t) s e) tcb es ↔
    Along hw (OnPartialAck fun s _ th => Deflatable s th) tcb es := by
  refine Run.Along.congr (fun s e t ht => ?_) hr
  obtain ⟨now, act⟩ := e
  cases act with
  | segment th p =>
    constructor
    · intro h hp
      exact (partialAck_deflates_iff hp ht).mp (h t ht hp)
    · intro h t' ht' hp
      exact (partialAck_deflates_iff hp ht').mpr (h hp)
  | _ => exact ⟨fun _ => trivial, fun _ _ _ => trivial⟩

/-- An acknowledgement without text, which leaves a window of 1000. -/
def ackAt (n : UInt8) : Action :=
  .arrives [0, 80, 160, 0, 0, 0, 0, 8, 0, 0, 0, n, 0x50, 0x10, 3, 232, 0, 0, 0, 0]

/-- With a segment size of 10: one byte is acknowledged, then `segs` segments are sent, and
three duplicate ACKs arrive. -/
def losesFirst (segs : Nat) : List Event :=
  [⟨0, .getPacket⟩,
    ⟨1, .arrives [0, 80, 160, 0, 0, 0, 0, 7, 0, 0, 0, 101, 0x60, 0x12, 3, 232, 0, 0, 0, 0,
      2, 4, 0, 10]⟩,
    ⟨2, .getPacket⟩, ⟨3, .send (Packet.ofFrags [[97]])⟩, ⟨4, .getPacket⟩, ⟨5, ackAt 102⟩,
    ⟨6, .send (Packet.ofFrags [List.replicate (10 * segs) 98])⟩] ++
  List.replicate segs ⟨7, .getPacket⟩ ++ List.replicate 3 ⟨8, ackAt 102⟩

/-- The first of two segments is acknowledged: the window goes from 50 to 52. -/
theorem losesFirst_deflates : ∃ u,
    run {} ((Stack.newTcb {} ⟨0, 0, 0, 0⟩).connect {} 0 ⟨100⟩)
      (losesFirst 2 ++ [⟨9, ackAt 112⟩]) = .ok u ∧ u.snd.cwnd = 52 ∧
    Along {} (fun s e => ∀ t, step {} s e = .ok t →
        OnPartialAck (fun s now th => Deflates s now th t) s e)
      ((Stack.newTcb {} ⟨0, 0, 0, 0⟩).connect {} 0 ⟨100⟩) (losesFirst 2 ++ [⟨9, ackAt 112⟩]) := by
  refine ⟨_, rfl, ?_, (run_deflates {} (losesFirst 2 ++ [⟨9, ackAt 112⟩]) rfl).mpr ?_⟩
  · decide +kernel
  · decide +kernel

set_option maxRecDepth 4000 in
/-- Of eleven segments all but one byte are acknowledged: the 109 bytes are more than the
window, which `update_cwnd` has widened from 85 to 96. -/
theorem losesFirst_wraps : ∃ s t,
    run {} ((Stack.newTcb {} ⟨0, 0, 0, 0⟩).connect {} 0 ⟨100⟩) (losesFirst 11) = .ok s ∧
    s.snd.dupacks = 3 ∧ s.snd.cwnd = 85 ∧ step {} s ⟨9, ackAt 211⟩ = .ok t ∧
    t.snd.cwnd = 4294967293 := by
  refine ⟨_, _, rfl, ?_, ?_, rfl, ?_⟩
  · decide +kernel
  · decide +kernel
  · decide +kernel

end Seastar.Net.Tcp.Tcb
