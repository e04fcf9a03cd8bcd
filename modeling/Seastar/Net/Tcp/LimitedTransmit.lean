import Seastar.Net.Tcp.CongestionControl
import Seastar.Net.Tcp.Received

/-!
Limited transmit. On the first two duplicate ACKs `can_send` allows some new data, and adds
what it allows to `_snd.limited_transfer`, to be taken from the flight when the third
one halves it.

`can_send` is asked before anything is sent, again when a segment is cut, and once more
behind it, and counts every time. So the count is right only where it finds nothing to
allow: then it stays zero.
-/

namespace Seastar.Net.Tcp

open Lib

namespace Tcb

/-- Every state of the run meets `R`. -/
def Throughout (hw : HwFeatures) (R : Tcb → Prop) : Tcb → List Event → Prop :=
  Run.Throughout (step hw) R

instance (hw : HwFeatures) (R : Tcb → Prop) [∀ s, Decidable (R s)] (tcb : Tcb) (es : List Event) :
    Decidable (Throughout hw R tcb es) :=
  inferInstanceAs (Decidable (Run.Throughout (step hw) R tcb es))

/-- The connection has seen one or two duplicate ACKs. -/
def Limited (snd : Send) : Prop := snd.dupacks = 1 ∨ snd.dupacks = 2

/-- There is nothing limited transmit could send: one of the windows is used up, or no data
waits. -/
def NothingToSend (snd : Send) : Prop :=
  snd.window ≤ snd.next.sub snd.unacknowledged ∨ snd.unsentLen = 0 ∨ snd.cwnd = 0 ∨
    snd.cwnd + 2 * snd.mss.toUInt32 ≤ flightSize snd

instance (snd : Send) : Decidable (Limited snd) := inferInstanceAs (Decidable (_ ∨ _))

instance (snd : Send) : Decidable (NothingToSend snd) := inferInstanceAs (Decidable (_ ∨ _))

/-! ## What is counted -/

theorem counted_not_limited {snd : Send} (h : ¬ Limited snd) : counted snd = 0 := by
  unfold counted
  split
  · rfl
  · exact if_neg h

/-- With nothing to send, nothing is counted. -/
theorem counted_eq_zero {snd : Send} (h : NothingToSend snd) : counted snd = 0 := by
  by_cases hl : Limited snd
  · unfold counted
    split
    · rfl
    · rename_i hopen
      rw [not_or, not_or] at hopen
      rw [if_pos (show snd.dupacks = 1 ∨ snd.dupacks = 2 from hl)]
      simp only
      split
      · rename_i hle
        apply UInt32.toNat_inj.mp
        have hused := UInt32.not_lt.mp hopen.2.2
        rcases h with h | h | h | h
        · have : snd.window - snd.next.sub snd.unacknowledged = 0 := by
            rw [UInt32.le_antisymm h hused, UInt32.sub_self]
          simp [UInt.toNat_min, this]
        · simp [UInt.toNat_min, h]
        · simp [UInt.toNat_min, h]
        · have : snd.cwnd + 2 * snd.mss.toUInt32 - flightSize snd = 0 := by
            rw [UInt32.le_antisymm h hle, UInt32.sub_self]
          simp [UInt.toNat_min, this]
      · rfl
  · exact counted_not_limited hl

/-! ## One event -/

theorem widenAll_limitedTransfer (c : Control) (lens : List UInt32) :
    (widenAll c lens).limitedTransfer = c.limitedTransfer := by
  induction lens generalizing c with
  | nil => rfl
  | cons n lens ih => exact ih (c.widen n)

theorem settle_limitedTransfer (c : Control) (segAck : TcpSeq) (flight acked : UInt32) :
    (c.settle segAck flight acked).limitedTransfer = c.limitedTransfer ∨
      (c.settle segAck flight acked).limitedTransfer = 0 := by
  unfold Control.settle
  split
  · split
    · exact Or.inr rfl
    · exact Or.inl rfl
  · exact Or.inr rfl

theorem duplicate_limitedTransfer (c : Control) (segAck next : TcpSeq) (flight : UInt32) :
    (c.duplicate segAck next flight).limitedTransfer = c.limitedTransfer := by
  unfold Control.duplicate Control.third
  simp only
  split
  · rfl
  split
  · split
    · rfl
    · rfl
  split
  · rfl
  · rfl

theorem Level.limitedTransfer {a b : Tcb} (h : Level a b) :
    b.snd.limitedTransfer = a.snd.limitedTransfer := congrArg Control.limitedTransfer h

/-- The ACK field counts nothing. -/
theorem AckOutcome.limitedTransfer {th : TcpHdr} {segLen : Nat} {a b : Tcb}
    (h : AckOutcome th segLen a b) (h0 : a.snd.limitedTransfer = 0) :
    b.snd.limitedTransfer = 0 := by
  cases h with
  | level hl => exact hl.limitedTransfer.trans h0
  | acked flight _ _ _ hc =>
    have hb := congrArg Control.limitedTransfer hc
    rcases settle_limitedTransfer (widenAll (control a.snd)
      (ackedLens th.ack a.snd.unacknowledged a.snd.data)) th.ack flight
      (ackedLens th.ack a.snd.unacknowledged a.snd.data).sum with hs | hs
    · rw [widenAll_limitedTransfer] at hs
      exact hb.trans (hs.trans h0)
    · exact hb.trans hs
  | duplicate _ _ hc =>
    exact (congrArg Control.limitedTransfer hc).trans
      ((duplicate_limitedTransfer _ _ _ _).trans h0)

theorem LevelOrCounted.limitedTransfer {a b : Tcb} (h : LevelOrCounted a b)
    (h0 : a.snd.limitedTransfer = 0) (hb : counted b.snd = 0) : b.snd.limitedTransfer = 0 := by
  rcases h with h | ⟨h, hn⟩
  · exact h.limitedTransfer.trans h0
  · have ht : b.snd.limitedTransfer = a.snd.limitedTransfer + counted a.snd :=
      congrArg Control.limitedTransfer h
    rw [ht, h0, ← hn, hb]
    rfl

theorem MayCount.limitedTransfer {a b : Tcb} (h : MayCount a b) (h0 : a.snd.limitedTransfer = 0)
    (ha : counted a.snd = 0) : b.snd.limitedTransfer = 0 := by
  rcases h with h | h
  · exact Level.limitedTransfer h |>.trans h0
  · have ht : b.snd.limitedTransfer = a.snd.limitedTransfer + counted a.snd :=
      congrArg Control.limitedTransfer h
    rw [ht, h0, ha]
    rfl

theorem Negotiates.limitedTransfer {hw : HwFeatures} {th : TcpHdr} {e : Event} {s b : Tcb}
    (h : Negotiates hw th e s b) : b.snd.limitedTransfer = s.snd.limitedTransfer := by
  obtain ⟨-, -, -, _, _, _, _, -, -, -, h⟩ := h
  obtain ⟨o, -, h⟩ := bind_ok.mp h
  obtain rfl := Except.ok.inj h
  simp only [acceptSyn]
  split
  · rfl
  · rfl

/-- Between two states with nothing to allow, an event leaves the count at zero. -/
theorem step_limitedTransfer {hw : HwFeatures} {s t : Tcb} {e : Event} (h : step hw s e = .ok t)
    (h0 : s.snd.limitedTransfer = 0) (hs : counted s.snd = 0) (ht : counted t.snd = 0) :
    t.snd.limitedTransfer = 0 := by
  cases step_control h with
  | sent hu hc => exact hc.limitedTransfer (hu.limitedTransfer h0 hs) ht
  | answered _ _ _ _ ho hc => exact hc.limitedTransfer (ho.limitedTransfer h0) ht
  | opened _ hn hl => exact hl.limitedTransfer.trans (hn.limitedTransfer.trans h0)
  | timedOut again _ hc => exact congrArg Control.limitedTransfer hc

/-! ## Runs -/

theorem doSynReceived_level (now : Int) (tcb : Tcb) : Level tcb (doSynReceived now tcb) :=
  output_level { tcb with state := .synReceived, snd := { tcb.snd with synTxTime := now } }

theorem doSynSent_level (now : Int) (tcb : Tcb) : Level tcb (doSynSent now tcb) :=
  output_level { tcb with state := .synSent, snd := { tcb.snd with synTxTime := now } }

theorem Opened.limitedTransfer {hw : HwFeatures} {tcb : Tcb} (h : Opened hw tcb) :
    tcb.snd.limitedTransfer = 0 := by
  cases h with
  | active mem id now isn =>
    rw [connect, (doSynSent_level _ _).limitedTransfer]
    rfl
  | passive _ _ _ h =>
    obtain ⟨⟨hdr, q⟩, -, h⟩ := bind_ok.mp h
    obtain ⟨area, -, h⟩ := bind_ok.mp h
    obtain ⟨b, hb, h⟩ := bind_ok.mp h
    obtain rfl := Except.ok.inj h
    obtain ⟨o, -, hb⟩ := bind_ok.mp hb
    obtain rfl := Except.ok.inj hb
    rw [(doSynReceived_level _ _).limitedTransfer]
    rfl

/-- In every run in which limited transmit has nothing to send behind the first two duplicate
ACKs, what the third one takes from the flight is in it, and the difference does not wrap. -/
theorem run_limitedTransfer (hw : HwFeatures) {tcb : Tcb} (es : List Event) (ho : Opened hw tcb)
    (hn : Throughout hw (fun s => Limited s.snd → NothingToSend s.snd) tcb es) :
    Throughout hw (fun s => s.snd.dupacks = 2 →
      s.snd.limitedTransfer ≤ flightSize s.snd ∧
      ((flightSize s.snd - s.snd.limitedTransfer) / 2).toNat =
        ((flightSize s.snd).toNat - s.snd.limitedTransfer.toNat) / 2) tcb es := by
  have hzero : ∀ s : Tcb, (Limited s.snd → NothingToSend s.snd) → counted s.snd = 0 := by
    intro s hs
    by_cases hl : Limited s.snd
    · exact counted_eq_zero (hs hl)
    · exact counted_not_limited hl
  refine Run.Throughout.of_inv (I := fun s => s.snd.limitedTransfer = 0) ?_ ?_ ho.limitedTransfer hn
  · intro s e t h0 hs ht hstep
    exact step_limitedTransfer hstep h0 (hzero s hs) (hzero t ht)
  · intro s h0 _ _
    rw [h0, UInt32.sub_zero]
    exact ⟨UInt32.zero_le, UInt32.toNat_div _ _⟩

/-- An acknowledgement without text, which leaves a window of 10. -/
def ackOf (n : UInt8) : Action :=
  .arrives [0, 80, 160, 0, 0, 0, 0, 8, 0, 0, 0, n, 0x50, 0x10, 0, 10, 0, 0, 0, 0]

/-- "a" is acknowledged, and two duplicates of its ACK answer "b"; between them `more` is given
to the connection. -/
def twoDuplicates (more : List Packet) : List Event :=
  handshake ++ [⟨3, .send (Packet.ofFrags [[97]])⟩, ⟨4, .getPacket⟩, ⟨5, ackOf 102⟩,
    ⟨6, .send (Packet.ofFrags [[98]])⟩, ⟨7, .getPacket⟩, ⟨8, ackOf 102⟩] ++
  more.map (fun p => ⟨9, .send p⟩) ++ [⟨10, ackOf 102⟩]

/-- With nothing more to send, nothing is counted. -/
theorem twoDuplicates_fits : Throughout {} (fun s => s.snd.dupacks = 2 →
      s.snd.limitedTransfer ≤ flightSize s.snd ∧
      ((flightSize s.snd - s.snd.limitedTransfer) / 2).toNat =
        ((flightSize s.snd).toNat - s.snd.limitedTransfer.toNat) / 2)
    ((Stack.newTcb {} ⟨0, 0, 0, 0⟩).connect {} 0 ⟨100⟩) (twoDuplicates []) :=
  run_limitedTransfer {} (twoDuplicates []) (.active {} ⟨0, 0, 0, 0⟩ 0 ⟨100⟩) (by decide +kernel)

/-- "cd" is counted twice before any of it is sent: 4 bytes are taken from a flight of 1, and
the window is half of 2³². -/
theorem twoDuplicates_wraps : ∃ s t,
    run {} ((Stack.newTcb {} ⟨0, 0, 0, 0⟩).connect {} 0 ⟨100⟩)
      (twoDuplicates [Packet.ofFrags [[99, 100]]]) = .ok s ∧ s.snd.dupacks = 2 ∧
    s.snd.limitedTransfer = 4 ∧ flightSize s.snd = 1 ∧
    step {} s ⟨11, ackOf 102⟩ = .ok t ∧ t.snd.dupacks = 3 ∧ t.snd.ssthresh = 2147483646 := by
  refine ⟨_, _, rfl, ?_, ?_, ?_, rfl, ?_, ?_⟩
  · decide +kernel
  · decide +kernel
  · decide +kernel
  · decide +kernel
  · decide +kernel

end Tcb

end Seastar.Net.Tcp
