import Seastar.Net.Tcp.CongestionWindow

/-!
New data and the right edges the peer has announced.

A history is kept beside the connection: how far the peer has acknowledged, counted
from ISS, and every right edge it has announced, that is every acknowledgement
number plus the window beside it, where the window of a SYN is not scaled. New data
stays within these edges as long as the window the code takes from a segment is
one the segment announces.
-/

namespace Seastar.Net.Tcp.Tcb

open Lib

/-- The window field of a segment that is not a SYN, as `update_window` scales it. -/
def scaledWindow (th : TcpHdr) (snd : Send) : UInt32 :=
  th.window.toUInt32 <<< snd.windowScale.toUInt32

/-- What the peer has acknowledged, counted from ISS, and the right edges it has announced. -/
structure Announced where
  acked : Nat := 0
  edges : List Int := []
  deriving DecidableEq, Repr

/-- The position of an acknowledgement number that finds SND.UNA at the position `acked`. -/
def ackPos (ack : TcpSeq) (snd : Send) (acked : Nat) : Int :=
  if snd.unacknowledged.lt ack then acked + (ack.sub snd.unacknowledged).toNat
  else acked - (snd.unacknowledged.sub ack).toNat

/-- The right edge a segment announces. -/
def edgeOf (th : TcpHdr) (snd : Send) (acked : Nat) : Int :=
  ackPos th.ack snd acked + if th.fSyn then th.window.toNat else (scaledWindow th snd).toNat

/-- The edges announced once the event has arrived. -/
def Announced.edgesAfter (g : Announced) (s : Tcb) (e : Event) : List Int :=
  match e.act with
  | .segment th _ => if th.fAck then edgeOf th s.snd g.acked :: g.edges else g.edges
  | _ => g.edges

/-- One action, with the history beside the connection. -/
def watch (hw : HwFeatures) (w : Tcb × Announced) (e : Event) : Except Fault (Tcb × Announced) := do
  let t ← step hw w.1 e
  .ok (t, {
    acked := w.2.acked + (t.snd.unacknowledged.sub w.1.snd.unacknowledged).toNat
    edges := w.2.edgesAfter w.1 e })

/-- The event sends new data, and some of it lies behind every edge announced so far. -/
def SendsBeyond (hw : HwFeatures) (w : Tcb × Announced) (e : Event) : Prop :=
  ∃ t g, Transmits w.1 e ∧ watch hw w e = .ok (t, g) ∧ t.snd.next ≠ w.1.snd.next ∧
    ∀ x ∈ g.edges, x < (g.acked : Int) + inFlight t.snd

/-- The send window the code takes from the SYN of the peer. -/
def windowOfSyn (th : TcpHdr) (p : Packet) (option : TcpOption) : Except Fault UInt32 := do
  let (h, _) ← splitOptions th p
  let optStart ← optionArea h
  let option ← option.parse optStart (th.dataOffset * 4 - tcpHdrLen)
  .ok (th.window.toUInt32 <<< option.remoteWinScale.toUInt32)

/-- The SYN acknowledges ours, and scaling does not enlarge its window. -/
def SynUnscaled (th : TcpHdr) (p : Packet) (tcb : Tcb) : Prop :=
  th.fAck = true ∧ ∀ w, windowOfSyn th p tcb.option = .ok w → w ≤ th.window.toUInt32

/-- A new acknowledgement brings the window along, or announces no smaller one; and a stale one
does not open a closed window. -/
def WindowFollowsAck (th : TcpHdr) (tcb : Tcb) : Prop :=
  (acksNewData th.ack tcb.snd = true →
    updatesWindow tcb.rcv.next th.ack tcb.snd = true ∨ tcb.snd.window ≤ scaledWindow th tcb.snd) ∧
  (tcb.snd.window = 0 → 0 < th.window → th.ack.lt tcb.snd.unacknowledged = false)

/-- The window the connection has after the segment is one the peer has announced. -/
def TakesAnnounced (th : TcpHdr) (p : Packet) (tcb : Tcb) : Prop :=
  match tcb.state with
  | .synSent => th.fSyn = true → th.fRst = false → SynUnscaled th p tcb
  | .synReceived => NextInLine th p tcb.rcv → Proceeds th tcb →
    th.ack ≠ tcb.snd.unacknowledged ∧ WindowFollowsAck th tcb
  | .established | .closeWait => NextInLine th p tcb.rcv → Proceeds th tcb → WindowFollowsAck th tcb
  | .finWait1 | .closing | .lastAck => NextInLine th p tcb.rcv → Proceeds th tcb →
    AcksFin th tcb → totalLen tcb.snd.unsent = 0
  | _ => True

/-- ... and the user sends only on a connection that was established. -/
def KeepsToEdge (tcb : Tcb) (e : Event) : Prop :=
  match e.act with
  | .segment th p => TakesAnnounced th p tcb
  | .send _ => tcb.synNeedsOn = false
  | _ => True

/-! ## Sequence numbers -/

/-- Neither in front of the other, two sequence numbers are the same. -/
theorem eq_of_not_lt {a b : TcpSeq} (hab : a.lt b = false) (hba : b.lt a = false) : a = b := by
  rw [TcpSeq.lt, decide_eq_false_iff_not, TcpSeq.diff, Serial.diff_neg_iff, Serial.toNat_sub] at hab hba
  have ha := a.raw.toNat_lt
  have hb := b.raw.toNat_lt
  have : a.raw.toNat = b.raw.toNat := by omega
  exact congrArg TcpSeq.mk (UInt32.toNat_inj.mp this)

theorem sub_self (a : TcpSeq) : (a.sub a).toNat = 0 := by
  simp [TcpSeq.sub]

/-- The segments acknowledged whole do not lead past the acknowledgement. -/
theorem ackedWhole_le {segAck una : TcpSeq} {data : List UnackedSegment}
    (h : segAck.lt una = false) : segAck.lt (ackedWhole segAck una data).1 = false := by
  induction data generalizing una with
  | nil => exact h
  | cons seg data ih =>
    rw [ackedWhole]
    split
    · rename_i hle
      exact ih (by simpa [TcpSeq.le, TcpSeq.gt] using hle)
    · exact h

/-- An acknowledgement of new data moves SND.UNA to it. -/
theorem dataSegmentAcked_una {now : Int} {segAck : TcpSeq} {n : UInt32} {a b : Tcb}
    (hn : acksNewData segAck a.snd = true) (h : dataSegmentAcked now segAck a = .ok (n, b)) :
    b.snd.unacknowledged = segAck := by
  rw [acksNewData, Bool.and_eq_true] at hn
  have hua := (dataSegmentAcked_spec h).2.1
  have hwhole : (ackedWhole segAck a.snd.unacknowledged a.snd.data).1 = a.snd.unacknowledged ∨
      segAck.lt (ackedWhole segAck a.snd.unacknowledged a.snd.data).1 = false := by
    cases a.snd.data with
    | nil => exact Or.inl rfl
    | cons seg data =>
      rw [ackedWhole]
      split
      · rename_i hle
        exact Or.inr (ackedWhole_le (by simpa [TcpSeq.le, TcpSeq.gt] using hle))
      · exact Or.inl rfl
  rw [hua]
  split
  · rfl
  · rename_i hlt
    rw [Bool.not_eq_true] at hlt
    rcases hwhole with hw | hw
    · rw [hw, hn.1] at hlt
      cases hlt
    · exact eq_of_not_lt hlt hw

/-! ## What holds of every state -/

/-- Nothing is queued, and nothing can be. -/
def Refused (tcb : Tcb) : Prop := totalLen tcb.snd.unsent = 0 ∧ sendRefused tcb = true

/-- Nothing is queued yet. -/
def Opening (tcb : Tcb) : Prop := totalLen tcb.snd.unsent = 0 ∧ tcb.synNeedsOn = true

/-- The right edge of the send window, for SND.UNA at the position `acked`, is an announced one, or
in front of one. -/
def Within (edges : List Int) (acked : Nat) (tcb : Tcb) : Prop :=
  ∃ x ∈ edges, (acked : Int) + tcb.snd.window.toNat ≤ x

/-- The states in which the user has closed the connection. -/
def ClosedByUser (tcb : Tcb) : Prop :=
  (tcb.state = .finWait1 ∨ tcb.state = .finWait2 ∨ tcb.state = .closing ∨ tcb.state = .lastAck) →
    tcb.snd.closed = true

/-- The invariant of a connection and its history. -/
structure WithinEdge (w : Tcb × Announced) : Prop where
  window : Refused w.1 ∨ Opening w.1 ∨ Within w.2.edges w.2.acked w.1
  closed : ClosedByUser w.1
  initial : w.1.state = .synSent → w.1.snd.unacknowledged = w.1.snd.initial
  probe : w.1.snd.windowProbe = false

theorem Refused.steady {a b : Tcb} (h : Steady a b) (ha : Refused a) : Refused b := by
  have hclosed : b.snd.closed = a.snd.closed := congrArg Core.closed h
  have hunsent : b.snd.unsent = a.snd.unsent := congrArg Core.unsent h
  rwa [Refused, sendRefused, hunsent, hclosed, h.state]

theorem Opening.steady {a b : Tcb} (h : Steady a b) (ha : Opening a) : Opening b := by
  have hunsent : b.snd.unsent = a.snd.unsent := congrArg Core.unsent h
  rwa [Opening, synNeedsOn, hunsent, h.state]

theorem Within.steady {edges : List Int} {acked : Nat} {a b : Tcb} (h : Steady a b)
    (ha : Within edges acked a) : Within edges acked b := by
  have hwin : b.snd.window = a.snd.window := congrArg Core.window h
  rwa [Within, hwin]

theorem ClosedByUser.steady {a b : Tcb} (h : Steady a b) (ha : ClosedByUser a) : ClosedByUser b := by
  have hclosed : b.snd.closed = a.snd.closed := congrArg Core.closed h
  rwa [ClosedByUser, h.state, hclosed]

/-- A new segment takes its data from the queue, and changes neither the state nor the
window. -/
theorem outputOne_kept {hw : HwFeatures} {now : Int} {a b : Tcb} (hs : a.state ≠ .closed)
    (h : outputOne hw now false a = .ok b) :
    b.state = a.state ∧ totalLen b.snd.unsent ≤ totalLen a.snd.unsent ∧
      b.snd.closed = a.snd.closed ∧ b.snd.window = a.snd.window ∧
      b.snd.windowScale = a.snd.windowScale ∧ b.snd.wl1 = a.snd.wl1 ∧ b.snd.wl2 = a.snd.wl2 ∧
      b.snd.unacknowledged = a.snd.unacknowledged ∧ b.snd.initial = a.snd.initial := by
  obtain ⟨p, clone, unsent, lt, da, rt, seg, ho, -, -, -, -, -, hb⟩ := outputOne_fresh hw now hs
  obtain rfl := Except.ok.inj (ho.symm.trans h)
  refine ⟨rfl, ?_, rfl, rfl, rfl, rfl, rfl, rfl, rfl⟩
  show totalLen unsent ≤ totalLen a.snd.unsent
  rw [totalLen_eq, totalLen_eq, ← hb, List.length_append]
  omega

theorem Refused.fresh {hw : HwFeatures} {now : Int} {a b : Tcb} (hs : a.state ≠ .closed)
    (h : outputOne hw now false a = .ok b) (ha : Refused a) : Refused b := by
  obtain ⟨hst, htotal, hclosed, -⟩ := outputOne_kept hs h
  obtain ⟨h0, hr⟩ := ha
  refine ⟨by omega, ?_⟩
  rwa [sendRefused, hst, hclosed]

theorem Opening.fresh {hw : HwFeatures} {now : Int} {a b : Tcb} (hs : a.state ≠ .closed)
    (h : outputOne hw now false a = .ok b) (ha : Opening a) : Opening b := by
  obtain ⟨hst, htotal, -⟩ := outputOne_kept hs h
  obtain ⟨h0, hr⟩ := ha
  refine ⟨by omega, ?_⟩
  rwa [synNeedsOn, hst]

theorem Refused.cleaned {a : Tcb} {st : TcpState} (hc : ClosedByUser a)
    (hst : st = a.state ∨ st = .closed ∨ (st = .timeWait ∧ (a.state = .closing ∨ a.state = .finWait2)))
    (ha : Refused a) : Refused (cleanup { a with state := st }) := by
  refine ⟨rfl, ?_⟩
  rcases hst with rfl | rfl | ⟨rfl, hs⟩
  · exact ha.2
  · simp [sendRefused, cleanup, emit]
  · have hclosed : a.snd.closed = true := by
      refine hc ?_
      rcases hs with hs | hs
      · simp [hs]
      · simp [hs]
    simp [sendRefused, cleanup, emit, hclosed]

theorem Opening.cleaned {a : Tcb} {st : TcpState}
    (hst : st = a.state ∨ st = .closed ∨ (st = .timeWait ∧ (a.state = .closing ∨ a.state = .finWait2)))
    (ha : Opening a) :
    Refused (cleanup { a with state := st }) ∨ Opening (cleanup { a with state := st }) := by
  rcases hst with rfl | rfl | ⟨rfl, hs⟩
  · exact Or.inr ⟨rfl, ha.2⟩
  · exact Or.inl ⟨rfl, by simp [sendRefused, cleanup, emit]⟩
  · have hsyn := ha.2
    rcases hs with hs | hs
    · simp [synNeedsOn, hs] at hsyn
    · simp [synNeedsOn, hs] at hsyn

/-- A change of state that does not reopen the connection. -/
theorem Refused.of_eq {a b : Tcb} (hunsent : b.snd.unsent = a.snd.unsent)
    (hclosed : b.snd.closed = a.snd.closed) (hst : a.state = .closed → b.state = .closed)
    (ha : Refused a) : Refused b := by
  obtain ⟨h0, hr⟩ := ha
  refine ⟨by rw [hunsent, h0], ?_⟩
  rw [sendRefused, Bool.or_eq_true, decide_eq_true_eq] at hr ⊢
  exact hr.imp (hclosed.trans ·) hst

/-- The states of the user side, behind one turn. -/
theorem ClosedByUser.turn {hw : HwFeatures} {s a b : Tcb} {e : Event} (hs : ClosedByUser s)
    (ha : ClosedByUser a) (h : Turn hw s e a b) : ClosedByUser b := by
  cases h with
  | steady h => exact ha.steady h
  | @acked _ b' th n _ _ _ h =>
    obtain ⟨⟨_, rto, ef, hb⟩, -⟩ := dataSegmentAcked_spec h
    obtain ⟨_, _, _, _, _, _, _, _, hsnd⟩ := (dataSegmentAcked_spec h).1.1.eq
    have hst : b'.state = a.state := by rw [hb]
    have hcl : b'.snd.closed = a.snd.closed := by rw [hsnd]
    have hb' : ClosedByUser b' := by rwa [ClosedByUser, hst, hcl]
    unfold takeWindow
    split
    · obtain ⟨pt, po, hu⟩ := updateWindow_eq e.now th s.rcv.next b'
      rw [hu]
      exact hb'
    · exact hb'
  | @opened _ th _ _ _ _ =>
    obtain ⟨pt, po, hu⟩ := updateWindow_eq e.now th s.rcv.next a
    rw [hu]
    exact ha
  | counted _ => exact ha
  | fresh hnot hst h =>
    obtain ⟨hs', -, hcl, -⟩ := outputOne_kept hst h
    rwa [ClosedByUser, hs', hcl]
  | queued _ _ _ => exact ha
  | persisting _ _ => exact ha
  | probing _ _ _ => exact ha
  | established _ _ => exact fun h => by simp [emit] at h
  | finReceived t ht =>
    rcases ht with ⟨-, rfl⟩ | ⟨hst, rfl⟩
    · exact fun h => by simp at h
    · exact fun _ => ha (Or.inl hst)
  | finAcked t _ _ ht =>
    refine fun _ => hs ?_
    rcases ht with ⟨h, -⟩ | ⟨h | h, -⟩
    · exact Or.inl h
    · exact Or.inr (Or.inr (Or.inl h))
    · exact Or.inr (Or.inr (Or.inr h))
  | closing _ _ _ => exact fun _ => rfl
  | cleaned t _ ht =>
    rcases ht with rfl | rfl | ⟨rfl, -⟩
    · exact ha
    · exact fun h => by simp [cleanup, emit] at h
    · exact fun h => by simp [cleanup, emit] at h
  | crossed _ _ _ _ _ _ => exact fun h => by simp at h
  | negotiated _ _ => exact fun h => by simp at h

/-! ## Events of the user and of the timers -/

/-- What the turns of an event other than a segment keep. -/
structure Stays (edges : List Int) (acked : Nat) (s a : Tcb) : Prop where
  window : Refused a ∨ Opening a ∨ Within edges acked a
  closed : ClosedByUser a
  unacknowledged : a.snd.unacknowledged = s.snd.unacknowledged
  initial : a.snd.initial = s.snd.initial
  synSent : a.state = .synSent → s.state = .synSent

theorem Stays.steady {edges : List Int} {acked : Nat} {s a b : Tcb} (h : Steady a b)
    (ha : Stays edges acked s a) : Stays edges acked s b where
  window := ha.window.imp (·.steady h) (Or.imp (·.steady h) (·.steady h))
  closed := ha.closed.steady h
  unacknowledged := h.unacknowledged.trans ha.unacknowledged
  initial := (congrArg Core.initial h).trans ha.initial
  synSent hb := ha.synSent (h.state.symm.trans hb)

theorem Stays.turn {hw : HwFeatures} {edges : List Int} {acked : Nat} {s a b : Tcb} {e : Event}
    (hseg : ∀ th p, e.act ≠ .segment th p) (hsend : ∀ p, e.act ≠ .send p)
    (hs : ClosedByUser s) (ha : Stays edges acked s a) (h : Turn hw s e a b) :
    Stays edges acked s b := by
  have hcl := hs.turn ha.closed h
  have hack : ∀ {th : TcpHdr}, ¬ Acks s e th := by
    rintro th ⟨p, he, -⟩
    exact hseg th p he
  cases h with
  | steady h => exact ha.steady h
  | acked he _ _ _ => exact absurd he hack
  | opened he _ _ _ => exact absurd he hack
  | counted _ => exact ⟨ha.window, hcl, ha.unacknowledged, ha.initial, ha.synSent⟩
  | fresh hnot hst h =>
    obtain ⟨hst', -, -, hwin, -, -, -, hua, hin⟩ := outputOne_kept hst h
    refine ⟨?_, hcl, hua.trans ha.unacknowledged, hin.trans ha.initial, ?_⟩
    · refine ha.window.imp (·.fresh hst h) (Or.imp (·.fresh hst h) fun hx => ?_)
      rwa [Within, hwin]
    · rw [hst']
      exact ha.synSent
  | queued p he _ => exact absurd he (hsend p)
  | persisting _ _ => exact ⟨ha.window, hcl, ha.unacknowledged, ha.initial, ha.synSent⟩
  | probing _ _ _ => exact ⟨ha.window, hcl, ha.unacknowledged, ha.initial, ha.synSent⟩
  | established he _ => exact absurd he hack
  | finReceived t ht =>
    refine ⟨?_, hcl, ha.unacknowledged, ha.initial, ?_⟩
    · rcases ha.window with h0 | ⟨-, hr⟩ | hx
      · refine Or.inl (Refused.of_eq (a := a) rfl rfl (fun h => ?_) h0)
        rcases ht with ⟨h', -⟩ | ⟨h', -⟩
        · rw [h] at h'
          cases h'
        · rw [h] at h'
          cases h'
      · rcases ht with ⟨h, -⟩ | ⟨h, -⟩
        · simp [synNeedsOn, h] at hr
        · simp [synNeedsOn, h] at hr
      · exact Or.inr (Or.inr hx)
    · rcases ht with ⟨-, rfl⟩ | ⟨-, rfl⟩
      · exact fun h => by cases h
      · exact fun h => by cases h
  | finAcked t he _ _ => exact absurd he hack
  | closing t _ ht =>
    refine ⟨?_, hcl, ha.unacknowledged, ha.initial, fun h => ?_⟩
    · rcases ha.window with ⟨h0, -⟩ | ⟨h0, -⟩ | hx
      · exact Or.inl ⟨h0, by simp [sendRefused]⟩
      · exact Or.inl ⟨h0, by simp [sendRefused]⟩
      · exact Or.inr (Or.inr hx)
    · rcases ht with ⟨-, rfl⟩ | ⟨-, rfl⟩ | ⟨-, -, rfl⟩
      · cases h
      · cases h
      · exact ha.synSent h
  | cleaned t _ ht =>
    refine ⟨?_, hcl, ha.unacknowledged, ha.initial, fun h => ?_⟩
    · rcases ha.window with h0 | h0 | hx
      · exact Or.inl (h0.cleaned ha.closed ht)
      · exact (h0.cleaned ht).imp id Or.inl
      · exact Or.inr (Or.inr hx)
    · rcases ht with rfl | rfl | ⟨rfl, -⟩
      · exact ha.synSent h
      · cases h
      · cases h
  | @crossed th _ he _ _ _ _ =>
    obtain ⟨p, he⟩ := he
    exact absurd he (hseg th p)
  | @negotiated b th _ hn =>
    obtain ⟨-, -, -, p, h, q, optStart, he, -⟩ := hn
    exact absurd he (hseg th p)

/-! ## Segments of a connection that was established -/

/-- What the turns of a segment keep: SND.UNA has not moved and the window is the one the segment
found, or no larger than the one it announces; or SND.UNA has moved to its ACK. -/
inductive Follows (edges : List Int) (acked : Nat) (th : TcpHdr) (s a : Tcb) : Prop
  | refused : Refused a → Follows edges acked th s a
  | unmoved : a.snd.unacknowledged = s.snd.unacknowledged → a.snd.next = s.snd.next →
      a.snd.windowScale = s.snd.windowScale → Within edges acked a →
      ((a.snd.window = s.snd.window ∧ a.snd.wl1 = s.snd.wl1 ∧ a.snd.wl2 = s.snd.wl2) ∨
        (a.snd.window ≤ scaledWindow th s.snd ∧ th.ack.lt s.snd.unacknowledged = false)) →
      Follows edges acked th s a
  | moved : a.snd.unacknowledged = th.ack → s.snd.unacknowledged.lt th.ack = true →
      a.snd.windowScale = s.snd.windowScale →
      Within edges (acked + (th.ack.sub s.snd.unacknowledged).toNat) a → Follows edges acked th s a

variable {hw : HwFeatures} {edges : List Int} {acked : Nat} {th : TcpHdr} {s a b : Tcb} {e : Event}

theorem Follows.steady (h : Steady a b) (ha : Follows edges acked th s a) :
    Follows edges acked th s b := by
  have hwin : b.snd.window = a.snd.window := congrArg Core.window h
  have hscale : b.snd.windowScale = a.snd.windowScale := congrArg Core.windowScale h
  have hwl1 : b.snd.wl1 = a.snd.wl1 := congrArg Core.wl1 h
  have hwl2 : b.snd.wl2 = a.snd.wl2 := congrArg Core.wl2 h
  cases ha with
  | refused hr => exact .refused (hr.steady h)
  | unmoved hu hn hsc hx hw =>
    refine .unmoved (h.unacknowledged.trans hu) (h.next.trans hn) (hscale.trans hsc) (hx.steady h) ?_
    rwa [hwin, hwl1, hwl2]
  | moved hu hlt hsc hx => exact .moved (h.unacknowledged.trans hu) hlt (hscale.trans hsc) (hx.steady h)

/-- A turn that leaves the window and SND.UNA alone. -/
theorem Follows.of_eq (hr : Refused a → Refused b)
    (hu : b.snd.unacknowledged = a.snd.unacknowledged) (hnext : b.snd.next = a.snd.next)
    (hwin : b.snd.window = a.snd.window)
    (hscale : b.snd.windowScale = a.snd.windowScale) (hwl1 : b.snd.wl1 = a.snd.wl1)
    (hwl2 : b.snd.wl2 = a.snd.wl2) (ha : Follows edges acked th s a) :
    Follows edges acked th s b := by
  have hx : ∀ {n : Nat}, Within edges n a → Within edges n b := by
    intro n hx
    rwa [Within, hwin]
  cases ha with
  | refused h => exact .refused (hr h)
  | unmoved hua hn hsc h hw =>
    refine .unmoved (hu.trans hua) (hnext.trans hn) (hscale.trans hsc) (hx h) ?_
    rwa [hwin, hwl1, hwl2]
  | moved hua hlt hsc h => exact .moved (hu.trans hua) hlt (hscale.trans hsc) (hx h)

/-- The edge of the segment itself. -/
theorem edgeOf_moved (hsyn : th.fSyn = false) (hlt : s.snd.unacknowledged.lt th.ack = true) :
    edgeOf th s.snd acked = ((acked + (th.ack.sub s.snd.unacknowledged).toNat : Nat) : Int) +
      (scaledWindow th s.snd).toNat := by
  rw [edgeOf, ackPos, if_pos hlt, if_neg (by rw [hsyn]; exact Bool.false_ne_true)]
  push_cast
  rfl

theorem edgeOf_unmoved (hsyn : th.fSyn = false) (hlt : th.ack.lt s.snd.unacknowledged = false) :
    (acked : Int) + (scaledWindow th s.snd).toNat ≤ edgeOf th s.snd acked := by
  rw [edgeOf, ackPos, if_neg (c := th.fSyn = true) (by rw [hsyn]; exact Bool.false_ne_true)]
  split
  · omega
  · rename_i h
    rw [Bool.not_eq_true] at h
    rw [eq_of_not_lt h hlt, sub_self]
    omega

/-- SND.UNA moves to the ACK, with the window of the segment or one that is no larger. -/
theorem takeWindow_moved {n : UInt32} (hsyn : th.fSyn = false)
    (hedge : edgeOf th s.snd acked ∈ edges) (hlt : s.snd.unacknowledged.lt th.ack = true)
    (hscale : a.snd.windowScale = s.snd.windowScale)
    (hold : updatesWindow s.rcv.next th.ack a.snd = true ∨ a.snd.window ≤ scaledWindow th s.snd)
    (hn : acksNewData th.ack a.snd = true) (h : dataSegmentAcked e.now th.ack a = .ok (n, b)) :
    (takeWindow e.now th s.rcv.next b).snd.unacknowledged = th.ack ∧
      (takeWindow e.now th s.rcv.next b).snd.windowScale = s.snd.windowScale ∧
      Within edges (acked + (th.ack.sub s.snd.unacknowledged).toNat)
        (takeWindow e.now th s.rcv.next b) := by
  have hua := dataSegmentAcked_una hn h
  obtain ⟨_, _, _, _, _, _, _, _, hsnd⟩ := (dataSegmentAcked_spec h).1.1.eq
  have hwin : b.snd.window = a.snd.window := by rw [hsnd]
  have hsc : b.snd.windowScale = a.snd.windowScale := by rw [hsnd]
  have hup : updatesWindow s.rcv.next th.ack b.snd = updatesWindow s.rcv.next th.ack a.snd := by
    rw [hsnd]
    rfl
  have hend : edgeOf th s.snd acked = _ := edgeOf_moved hsyn hlt
  unfold takeWindow
  split
  · obtain ⟨pt, po, hu⟩ := updateWindow_eq e.now th s.rcv.next b
    rw [hu]
    refine ⟨hua, hsc.trans hscale, edgeOf th s.snd acked, hedge, ?_⟩
    show _ + ((th.window.toUInt32 <<< b.snd.windowScale.toUInt32).toNat : Int) ≤ _
    rw [hsc, hscale, hend]
    exact le_refl _
  · rename_i hnot
    have hle := hold.resolve_left (by rwa [← hup])
    rw [UInt32.le_iff_toNat_le] at hle
    refine ⟨hua, hsc.trans hscale, edgeOf th s.snd acked, hedge, ?_⟩
    rw [hwin, hend]
    omega

/-- One turn of a segment. -/
theorem Follows.turn {p : Packet} (he : e.act = .segment th p) (hs : s.state ≠ .synSent)
    (hedge : th.fAck = true → edgeOf th s.snd acked ∈ edges)
    (hwin : Sending a → Acks s e th → WindowFollowsAck th s)
    (hfin : s.state = .finWait1 ∨ s.state = .closing ∨ s.state = .lastAck → Acks s e th →
      AcksFin th s → totalLen s.snd.unsent = 0)
    (hcs : ClosedByUser s) (hca : ClosedByUser a) (ha : Follows edges acked th s a)
    (h : Turn hw s e a b) : Follows edges acked th s b := by
  have hth : ∀ {th' : TcpHdr}, Acks s e th' → th' = th := by
    rintro th' ⟨p', he', -⟩
    exact (Action.segment.inj (he'.symm.trans he)).1
  cases h with
  | steady h => exact ha.steady h
  | @acked _ b' th' n hacks hsend hn h =>
    obtain rfl := hth hacks
    obtain ⟨_, -, -, -, hsyn, hack⟩ := id hacks
    obtain ⟨⟨_, rto, ef, hb⟩, -⟩ := dataSegmentAcked_spec h
    obtain ⟨_, _, _, _, _, _, _, _, hsnd⟩ := (dataSegmentAcked_spec h).1.1.eq
    have hlt : a.snd.unacknowledged.lt th'.ack = true := by
      rw [acksNewData, Bool.and_eq_true] at hn
      exact hn.1
    cases ha with
    | refused hr =>
      refine .refused ?_
      have hb' : Refused b' := by
        have hst : b'.state = a.state := by rw [hb]
        have hcl : b'.snd.closed = a.snd.closed := by rw [hsnd]
        have hun : b'.snd.unsent = a.snd.unsent := by rw [hsnd]
        rwa [Refused, sendRefused, hst, hcl, hun]
      unfold takeWindow
      split
      · obtain ⟨pt, po, hu⟩ := updateWindow_eq e.now th' s.rcv.next b'
        rw [hu]
        exact hb'
      · exact hb'
    | unmoved hu hnext hsc hx hold =>
      rw [hu] at hlt
      have hup : updatesWindow s.rcv.next th'.ack a.snd = true ∨
          a.snd.window ≤ scaledWindow th' s.snd := by
        rcases hold with ⟨hw₁, hw₂, hw₃⟩ | ⟨hle, -⟩
        · rw [acksNewData, hu, hnext] at hn
          rw [updatesWindow, hw₂, hw₃, hw₁]
          exact (hwin hsend hacks).1 hn
        · exact Or.inr hle
      obtain ⟨h₁, h₂, h₃⟩ := takeWindow_moved hsyn (hedge hack) hlt hsc hup hn h
      exact .moved h₁ hlt h₂ h₃
    | moved hu _ _ _ =>
      rw [hu, TcpSeq.lt_irrefl] at hlt
      cases hlt
  | @opened _ th' hacks hsend hw0 hpos =>
    obtain rfl := hth hacks
    obtain ⟨_, -, -, -, hsyn, hack⟩ := id hacks
    obtain ⟨pt, po, hu⟩ := updateWindow_eq e.now th' s.rcv.next a
    rw [hu]
    cases ha with
    | refused hr => exact .refused (hr.of_eq rfl rfl id)
    | unmoved hua hnext hsc hx hold =>
      have hfresh : th'.ack.lt s.snd.unacknowledged = false := by
        rcases hold with ⟨hw₁, -⟩ | ⟨-, h⟩
        · exact (hwin hsend hacks).2 (hw₁.symm.trans hw0) hpos
        · exact h
      have hnew : th'.window.toUInt32 <<< a.snd.windowScale.toUInt32 = scaledWindow th' s.snd := by
        rw [hsc]
        rfl
      refine .unmoved hua hnext hsc ⟨_, hedge hack, ?_⟩ (Or.inr ⟨?_, hfresh⟩)
      · show (acked : Int) + (th'.window.toUInt32 <<< a.snd.windowScale.toUInt32).toNat ≤ _
        rw [hnew]
        exact edgeOf_unmoved hsyn hfresh
      · show th'.window.toUInt32 <<< a.snd.windowScale.toUInt32 ≤ _
        rw [hnew]
        exact UInt32.le_refl _
    | moved hua hlt hsc hx =>
      refine .moved hua hlt hsc ⟨_, hedge hack, ?_⟩
      show _ + ((th'.window.toUInt32 <<< a.snd.windowScale.toUInt32).toNat : Int) ≤ _
      rw [hsc, edgeOf_moved hsyn hlt]
      exact le_refl _
  | counted _ => exact Follows.of_eq (a := a) id rfl rfl rfl rfl rfl rfl ha
  | fresh hnot _ _ => exact absurd he (hnot th p)
  | queued q hq _ =>
    rw [he] at hq
    cases hq
  | persisting _ hq =>
    rw [he] at hq
    cases hq
  | probing _ _ hq =>
    rw [he] at hq
    cases hq
  | established _ hst =>
    refine Follows.of_eq (a := a) (Refused.of_eq rfl rfl fun h => ?_) rfl rfl rfl rfl rfl rfl ha
    rw [hst] at h
    cases h
  | finReceived t ht =>
    refine Follows.of_eq (a := a) (Refused.of_eq rfl rfl fun h => ?_) rfl rfl rfl rfl rfl rfl ha
    rcases ht with ⟨hst, -⟩ | ⟨hst, -⟩
    · rw [hst] at h
      cases h
    · rw [hst] at h
      cases h
  | finAcked t hacks hf ht =>
    obtain rfl := hth hacks
    have hst : s.state = .finWait1 ∨ s.state = .closing ∨ s.state = .lastAck := by
      rcases ht with ⟨h, -⟩ | ⟨h, -⟩
      · exact Or.inl h
      · exact Or.inr h
    have hclosed : s.snd.closed = true := by
      refine hcs ?_
      rcases hst with h | h | h
      · exact Or.inl h
      · exact Or.inr (Or.inr (Or.inl h))
      · exact Or.inr (Or.inr (Or.inr h))
    exact .refused ⟨hfin hst hacks hf, by simp [sendRefused, doLocalFinAcked, hclosed]⟩
  | closing _ hq _ =>
    rw [he] at hq
    cases hq
  | cleaned t _ ht =>
    exact Follows.of_eq (a := a) (·.cleaned hca ht) rfl rfl rfl rfl rfl rfl ha
  | crossed hs' _ _ _ _ _ => exact absurd hs' hs
  | negotiated hs' _ => exact absurd hs' hs

/-- Behind a segment the connection stands within the edges announced so far. -/
theorem Follows.within (ha : Follows edges acked th s a) :
    Refused a ∨ Within edges (acked + (a.snd.unacknowledged.sub s.snd.unacknowledged).toNat) a := by
  cases ha with
  | refused h => exact Or.inl h
  | unmoved hu _ _ hx _ =>
    rw [hu, sub_self, Nat.add_zero]
    exact Or.inr hx
  | moved hu _ _ hx =>
    rw [hu]
    exact Or.inr hx

theorem takeWindow_state {now : Int} {segSeq : TcpSeq} (tcb : Tcb) :
    (takeWindow now th segSeq tcb).state = tcb.state := by
  unfold takeWindow
  split
  · obtain ⟨pt, po, h⟩ := updateWindow_eq now th segSeq tcb
    rw [h]
  · rfl

/-- No turn of a segment makes a connection send that did not. -/
theorem Turn.sending {p : Packet} (he : e.act = .segment th p) (hs : s.state ≠ .synSent)
    (ha : a.state ≠ .synReceived) (h : Turn hw s e a b) :
    b.state ≠ .synReceived ∧ (Sending b → Sending a) := by
  have hsame : b.state = a.state → b.state ≠ .synReceived ∧ (Sending b → Sending a) := by
    intro hst
    rw [Sending, hst]
    exact ⟨ha, id⟩
  have hover : ∀ st : TcpState, b.state = st → st ≠ .synReceived → st ≠ .established →
      st ≠ .closeWait → b.state ≠ .synReceived ∧ (Sending b → Sending a) := by
    rintro st rfl h₁ h₂ h₃
    exact ⟨h₁, fun h => absurd h (not_or.mpr ⟨h₂, h₃⟩)⟩
  cases h with
  | steady h => exact hsame h.state
  | acked _ _ _ h =>
    obtain ⟨⟨_, rto, ef, hb⟩, -⟩ := dataSegmentAcked_spec h
    refine hsame ((takeWindow_state _).trans ?_)
    rw [hb]
  | @opened _ th' _ _ _ _ =>
    obtain ⟨pt, po, hu⟩ := updateWindow_eq e.now th' s.rcv.next a
    exact hsame (by rw [hu])
  | counted _ => exact hsame rfl
  | fresh hnot _ _ => exact absurd he (hnot th p)
  | queued _ _ _ => exact hsame rfl
  | persisting _ _ => exact hsame rfl
  | probing _ _ _ => exact hsame rfl
  | established _ hst => exact absurd hst ha
  | finReceived t ht =>
    rcases ht with ⟨hst, rfl⟩ | ⟨-, rfl⟩
    · exact ⟨(by decide : TcpState.closeWait ≠ .synReceived), fun _ => Or.inl hst⟩
    · exact hover .closing rfl (by decide) (by decide) (by decide)
  | finAcked t _ _ ht =>
    rcases ht with ⟨-, rfl⟩ | ⟨h | h, rfl⟩
    · exact hover .finWait2 rfl (by decide) (by decide) (by decide)
    · exact hsame rfl
    · exact hsame rfl
  | closing _ hq _ =>
    rw [he] at hq
    cases hq
  | cleaned t _ ht =>
    rcases ht with rfl | rfl | ⟨rfl, -⟩
    · exact hsame rfl
    · exact hover .closed rfl (by decide) (by decide) (by decide)
    · exact hover .timeWait rfl (by decide) (by decide) (by decide)
  | crossed hs' _ _ _ _ _ => exact absurd hs' hs
  | negotiated hs' _ => exact absurd hs' hs

/-- The turns of a segment on a connection past the handshake. -/
theorem Follows.turns {p : Packet} (he : e.act = .segment th p) (hs : s.state ≠ .synSent)
    (hedge : th.fAck = true → edgeOf th s.snd acked ∈ edges)
    (hfin : s.state = .finWait1 ∨ s.state = .closing ∨ s.state = .lastAck → Acks s e th →
      AcksFin th s → totalLen s.snd.unsent = 0)
    (hcs : ClosedByUser s) (hca : ClosedByUser a) (hsr : a.state ≠ .synReceived)
    (hwin : Sending a → Acks s e th → WindowFollowsAck th s) (ha : Follows edges acked th s a)
    (h : Turns hw s e a b) : Follows edges acked th s b ∧ ClosedByUser b ∧ b.state ≠ .synReceived := by
  have hall : Follows edges acked th s b ∧ ClosedByUser b ∧ b.state ≠ .synReceived ∧
      (Sending b → Acks s e th → WindowFollowsAck th s) := by
    induction h with
    | refl => exact ⟨ha, hca, hsr, hwin⟩
    | tail _ hturn ih =>
      obtain ⟨hf, hc, hst, hw⟩ := ih
      obtain ⟨hst', hsend⟩ := hturn.sending he hs hst
      exact ⟨hf.turn he hs hedge hw hfin hcs hc hturn, hcs.turn hc hturn, hst',
        fun h => hw (hsend h)⟩
  exact ⟨hall.1, hall.2.1, hall.2.2.1⟩

/-! ## Segments in SYN_RECEIVED -/

/-- A segment is dropped or answered, or resets the connection, or establishes it with its
acknowledgement of the SYN. -/
theorem synReceived_turns {p : Packet} {t : Tcb} (he : e.act = .segment th p)
    (hs : s.state = .synReceived)
    (hne : NextInLine th p s.rcv → Proceeds th s → th.ack ≠ s.snd.unacknowledged)
    (h : inputHandleOtherState hw e.now th p s = .ok t) :
    Steady s t ∨ (∃ a, Steady s a ∧ t = doReset a) ∨
      ∃ a n b, Acks s e th ∧ Steady (emit .addConnectedTcb { s with state := .established }) a ∧
        acksNewData th.ack s.snd = true ∧ dataSegmentAcked e.now th.ack a = .ok (n, b) ∧
        Turns hw s e (takeWindow e.now th s.rcv.next b) t := by
  have hd := inputHandleOtherState_dispatched hw e.now th p s
  rw [h] at hd
  generalize hx : (Except.ok t : Except Fault Tcb) = x at hd
  cases hd with
  | short _ => cases hx
  | unacceptable _ _ =>
    obtain rfl := Except.ok.inj hx
    exact Or.inl (output_steady s)
  | outOfOrder q _ _ _ _ =>
    obtain ⟨rcv, hrcv, hx⟩ := bind_ok.mp hx.symm
    obtain rfl := Except.ok.inj hx
    obtain ⟨map, -, hrcv⟩ := bind_ok.mp hrcv
    obtain rfl := Except.ok.inj hrcv
    exact Or.inl (output_steady { s with rcv := { s.rcv with outOfOrder := map } })
  | inOrder q hn _ =>
    replace hx := hx.symm
    by_cases hp : Proceeds th s
    · have hacks : Acks s e th := ⟨p, he, hn, hp⟩
      rw [inOrder_proceeds hp] at hx
      obtain ⟨r, hr, hx⟩ := bind_ok.mp hx
      obtain ⟨-, hwait, hgo⟩ := ackField_turns hacks
        (fun _ h => by rcases h with h | h <;> rw [hs] at h <;> cases h) hr
      by_cases hack : s.snd.unacknowledged.le th.ack = true ∧ th.ack.le s.snd.next = true
      · rw [ackField_synReceived hw e.now s.rcv.next q.len hs hack] at hr
        have hest := doEstablished_steady e.now s
        have hadd := addConnected_steady hest
        generalize emit .addConnectedTcb (doEstablished e.now s) = a at hadd hr
        have hnew : acksNewData th.ack s.snd = true := by
          have hle : th.ack.lt s.snd.unacknowledged = false := by
            simpa [TcpSeq.le, TcpSeq.gt] using hack.1
          have hlt : s.snd.unacknowledged.lt th.ack = true := by
            by_contra hlt
            rw [Bool.not_eq_true] at hlt
            exact hne hn hp (eq_of_not_lt hle hlt)
          rw [acksNewData, hlt, hack.2]
          rfl
        have hnew' : acksNewData th.ack a.snd = true := by
          have hu : a.snd.unacknowledged = s.snd.unacknowledged := hadd.unacknowledged
          have hnx : a.snd.next = s.snd.next := hadd.next
          rwa [acksNewData, hu, hnx]
        unfold ackEstablished at hr
        rw [if_pos hnew'] at hr
        obtain ⟨u, hu, hr⟩ := bind_ok.mp hr
        obtain rfl := Except.ok.inj hr
        obtain ⟨n, b, hb, -, hrest⟩ := ackNewData_turns hacks (Or.inl hadd.state) hnew' hu
        refine Or.inr (Or.inr ⟨a, n, b, hacks, hadd, hnew, hb, hrest.trans ?_⟩)
        refine textAndFin_turns (hgo u true rfl) (fun h2 => ?_) hx
        rcases hwait h2 with h | ⟨h, -⟩
        · rw [hs] at h
          cases h
        · rw [hs] at h
          cases h
      · rw [ackField, ackSynReceived, if_pos hs, if_neg (by simpa using hack)] at hr
        obtain rfl := Except.ok.inj hr
        obtain rfl := Except.ok.inj hx
        exact Or.inl (emit_steady rfl s)
    · unfold inOrder at hx
      split at hx
      · rename_i u hu
        obtain rfl := Except.ok.inj hx
        split at hu
        · rw [resetReceived, hs] at hu
          obtain rfl := Option.some.inj hu
          exact Or.inr (Or.inl ⟨_, emit_steady rfl s, rfl⟩)
        · cases hu
      split at hx
      · obtain rfl := Except.ok.inj hx
        exact Or.inr (Or.inl ⟨_, emit_steady rfl s, rfl⟩)
      split at hx
      · obtain rfl := Except.ok.inj hx
        exact Or.inl (.refl s)
      · rename_i hnone hsyn hack
        refine absurd ⟨fun hrst => ?_, by simpa using hsyn, by simpa using hack⟩ hp
        rwa [if_pos hrst] at hnone

/-! ## One event -/

theorem Within.mono {edges' : List Int} {n : Nat} (h : ∀ x ∈ edges, x ∈ edges')
    (ha : Within edges n a) : Within edges' n a := by
  obtain ⟨x, hx, hle⟩ := ha
  exact ⟨x, h x hx, hle⟩

theorem mem_edgesAfter (g : Announced) (s : Tcb) (e : Event) :
    ∀ x ∈ g.edges, x ∈ g.edgesAfter s e := by
  intro x hx
  unfold Announced.edgesAfter
  split
  · split
    · exact List.mem_cons_of_mem _ hx
    · exact hx
  · exact hx

theorem initFromOptions_probe {optStart : Bytes} {n : Nat}
    (h : initFromOptions hw th optStart n a = .ok b) : b.snd.windowProbe = a.snd.windowProbe := by
  obtain ⟨o, -, h⟩ := bind_ok.mp h
  obtain rfl := Except.ok.inj h
  rfl

theorem acceptSyn_probe (th : TcpHdr) (tcb : Tcb) :
    (acceptSyn th tcb).snd.windowProbe = tcb.snd.windowProbe := by
  unfold acceptSyn
  simp only
  split
  · rfl
  · rfl

theorem Turn.windowProbe (he : e.act ≠ .persistExpires) (hs : s.snd.windowProbe = false)
    (ha : a.snd.windowProbe = false) (h : Turn hw s e a b) : b.snd.windowProbe = false := by
  cases h with
  | steady h => exact (congrArg Core.windowProbe h).trans ha
  | @acked _ b' th' n _ _ _ h =>
    obtain ⟨_, _, _, _, _, _, _, _, hsnd⟩ := (dataSegmentAcked_spec h).1.1.eq
    have hb : b'.snd.windowProbe = a.snd.windowProbe := by rw [hsnd]
    unfold takeWindow
    split
    · obtain ⟨pt, po, hu⟩ := updateWindow_eq e.now th' s.rcv.next b'
      rw [hu]
      exact hb.trans ha
    · exact hb.trans ha
  | @opened _ th' _ _ _ _ =>
    obtain ⟨pt, po, hu⟩ := updateWindow_eq e.now th' s.rcv.next a
    rw [hu]
    exact ha
  | fresh _ hst h =>
    obtain ⟨p, clone, unsent, lt, da, rt, seg, ho, -⟩ := outputOne_fresh hw e.now hst
    obtain rfl := Except.ok.inj (ho.symm.trans h)
    exact ha
  | probing _ _ hq => exact absurd hq he
  | counted _ => exact ha
  | queued _ _ _ => exact ha
  | persisting _ _ => exact ha
  | established _ _ => exact ha
  | finReceived _ _ => exact ha
  | finAcked _ _ _ _ => exact hs
  | closing _ _ _ => exact ha
  | cleaned _ _ _ => exact ha
  | crossed _ _ _ _ _ _ => exact (acceptSyn_probe _ _).trans hs
  | negotiated _ hn =>
    obtain ⟨-, -, -, _, _, _, _, -, -, -, h⟩ := hn
    exact (initFromOptions_probe h).trans ((acceptSyn_probe _ _).trans hs)

/-- Between two events no probe is being sent. -/
theorem step_windowProbe {t : Tcb} (hs : s.snd.windowProbe = false) (h : step hw s e = .ok t) :
    t.snd.windowProbe = false := by
  by_cases he : e.act = .persistExpires
  · obtain ⟨now, act⟩ := e
    obtain rfl : act = .persistExpires := he
    have h : (if due s.persistTimer now then persist hw now { s with persistTimer := none }
      else .ok s) = .ok t := h
    split at h
    · obtain ⟨u, -, h⟩ := bind_ok.mp h
      obtain rfl := Except.ok.inj h
      exact congrArg Core.windowProbe (output_steady { u with snd := { u.snd with windowProbe := false } })
    · obtain rfl := Except.ok.inj h
      exact hs
  · have hturns := step_turns h
    clear h
    induction hturns with
    | refl => exact hs
    | tail _ hturn ih => exact hturn.windowProbe he hs ih

/-- The window of the SYN the peer acknowledges ours with. -/
theorem Negotiates.within {g : Announced} (hn : Negotiates hw th e s b)
    (hinit : s.snd.unacknowledged = s.snd.initial)
    (hsyn : ∀ p, e.act = .segment th p → SynUnscaled th p s) :
    b.snd.unacknowledged = th.ack ∧
      Within (g.edgesAfter s e) (g.acked + (th.ack.sub s.snd.unacknowledged).toNat) b := by
  obtain ⟨hfsyn, -, hgt, p, h, q, optStart, he, hsplit, harea, hb⟩ := hn
  obtain ⟨hack, hwin⟩ := hsyn p he
  have hua : (acceptSyn th s).snd.unacknowledged = th.ack := by
    rw [acceptSyn, if_pos hack]
  rw [hua, TcpSeq.gt, ← hinit] at hgt
  obtain ⟨o, ho, hb⟩ := bind_ok.mp hb
  obtain rfl := Except.ok.inj hb
  have hle : th.window.toUInt32 <<< o.remoteWinScale.toUInt32 ≤ th.window.toUInt32 := by
    refine hwin _ (bind_ok.mpr ⟨_, hsplit, bind_ok.mpr ⟨_, harea, bind_ok.mpr ⟨_, ?_, rfl⟩⟩⟩)
    exact ho
  rw [UInt32.le_iff_toNat_le, UInt16.toNat_toUInt32] at hle
  refine ⟨hua, edgeOf th s.snd g.acked, ?_, ?_⟩
  · rw [Announced.edgesAfter, he]
    simp only [hack, if_true]
    exact List.mem_cons_self
  · show ((g.acked + (th.ack.sub s.snd.unacknowledged).toNat : Nat) : Int) +
      (th.window.toUInt32 <<< o.remoteWinScale.toUInt32).toNat ≤ _
    rw [edgeOf, ackPos, if_pos hgt, if_pos hfsyn]
    push_cast
    omega

/-- What one event keeps. -/
theorem step_withinEdge {w w' : Tcb × Announced} (hw' : WithinEdge w) (hk : KeepsToEdge w.1 e)
    (h : watch hw w e = .ok w') : WithinEdge w' := by
  obtain ⟨s, g⟩ := w
  obtain ⟨t, ht, h⟩ := bind_ok.mp h
  obtain rfl := Except.ok.inj h
  obtain ⟨hwindow, hclosed, hinit, hprobe⟩ := hw'
  simp only at ht hwindow hclosed hinit hprobe hk
  have hprobe' := step_windowProbe hprobe ht
  have hmono := mem_edgesAfter g s e
  -- an event that leaves SND.UNA where it is
  have hstay : t.snd.unacknowledged = s.snd.unacknowledged →
      (Refused t ∨ Opening t ∨ Within g.edges g.acked t) → ClosedByUser t →
      (t.state = .synSent → t.snd.unacknowledged = t.snd.initial) →
      WithinEdge (t, {
        acked := g.acked + (t.snd.unacknowledged.sub s.snd.unacknowledged).toNat
        edges := g.edgesAfter s e }) := by
    intro hu hwin hcl hin
    refine ⟨hwin.imp id (Or.imp id fun hx => ?_), hcl, hin, hprobe'⟩
    simp only [hu, sub_self, Nat.add_zero]
    exact hx.mono hmono
  have hsteady : Steady s t → WithinEdge (t, {
        acked := g.acked + (t.snd.unacknowledged.sub s.snd.unacknowledged).toNat
        edges := g.edgesAfter s e }) := by
    intro hk
    have hin : t.snd.initial = s.snd.initial := congrArg Core.initial hk
    refine hstay hk.unacknowledged (hwindow.imp (·.steady hk) (Or.imp (·.steady hk) (·.steady hk)))
      (hclosed.steady hk) fun hst => ?_
    rw [hk.unacknowledged, hin]
    exact hinit (hk.state.symm.trans hst)
  have hreset : (∃ a, Steady s a ∧ t = doReset a) → WithinEdge (t, {
        acked := g.acked + (t.snd.unacknowledged.sub s.snd.unacknowledged).toNat
        edges := g.edgesAfter s e }) := by
    rintro ⟨a, ha, rfl⟩
    obtain ⟨pd, ps, pa, ef, hd⟩ := doReset_eq a
    have hst : (doReset a).state = .closed := by rw [hd]
    have hun : (doReset a).snd.unsent = [] := by rw [hd]
    have hu : (doReset a).snd.unacknowledged = a.snd.unacknowledged := by rw [hd]
    refine hstay (hu.trans ha.unacknowledged) (Or.inl ⟨?_, ?_⟩) ?_ ?_
    · rw [hun]
      rfl
    · simp [sendRefused, hst]
    · intro h
      rw [hst] at h
      simp at h
    · intro h
      rw [hst] at h
      cases h
  by_cases hseg : ∃ th p, e.act = .segment th p
  · obtain ⟨th, p, he⟩ := hseg
    have hk : TakesAnnounced th p s := by
      rw [KeepsToEdge, he] at hk
      exact hk
    have hth : ∀ {th'}, Acks s e th' → th' = th := by
      rintro th' ⟨p', he', -⟩
      exact (Action.segment.inj (he'.symm.trans he)).1
    have hnext : ∀ {P : Prop}, (NextInLine th p s.rcv → Proceeds th s → P) → Acks s e th → P := by
      rintro P hP ⟨p', he', hn, hp⟩
      obtain rfl := (Action.segment.inj (he'.symm.trans he)).2
      exact hP hn hp
    have hedge : th.fAck = true → edgeOf th s.snd g.acked ∈ g.edgesAfter s e := by
      intro hack
      rw [Announced.edgesAfter, he]
      simp only [hack, if_true]
      exact List.mem_cons_self
    have hstep : inputHandle hw e.now th p s = .ok t := by
      rw [step, he] at ht
      exact ht
    unfold inputHandle at hstep
    by_cases hs : s.state = .synSent
    · rw [if_pos hs] at hstep
      rw [TakesAnnounced, hs] at hk
      cases inputHandleSynSentState_outcome he hs hstep with
      | ignored h => exact hsteady h
      | reset _ h => exact hreset ⟨s, .refl s, h⟩
      | @crossed th' he' hsyn hrst hack _ _ =>
        obtain ⟨p', he'⟩ := he'
        obtain ⟨rfl, rfl⟩ := Action.segment.inj (he'.symm.trans he)
        rw [(hk hsyn hrst).1] at hack
        cases hack
      | @negotiated b th' hn ht' =>
        have h : Steady { b with state := .established } t := by
          rw [ht']
          exact negotiated_steady e.now b
        obtain ⟨hsyn, hrst, -, p', -, -, -, he', -⟩ := id hn
        obtain ⟨rfl, rfl⟩ := Action.segment.inj (he'.symm.trans he)
        obtain ⟨hua, hx⟩ := hn.within (g := g) (hinit hs) fun q hq => by
          obtain ⟨-, rfl⟩ := Action.segment.inj (hq.symm.trans he)
          exact hk hsyn hrst
        have hu : t.snd.unacknowledged = th'.ack := h.unacknowledged.trans hua
        refine ⟨Or.inr (Or.inr ?_), ?_, ?_, hprobe'⟩
        · simp only [hu]
          exact Within.steady (a := { b with state := .established }) h hx
        · intro hst
          rw [h.state] at hst
          simp at hst
        · intro hst
          rw [h.state] at hst
          cases hst
    rw [if_neg hs] at hstep
    have hts := inputHandleOtherState_state hstep hs
    have hfollows : Follows (g.edgesAfter s e) g.acked th s t → ClosedByUser t →
        WithinEdge (t, {
          acked := g.acked + (t.snd.unacknowledged.sub s.snd.unacknowledged).toNat
          edges := g.edgesAfter s e }) :=
      fun hf hc => ⟨hf.within.imp id Or.inr, hc, fun h => absurd h hts, hprobe'⟩
    by_cases hsr : s.state = .synReceived
    · rw [TakesAnnounced, hsr] at hk
      rcases synReceived_turns he hsr (fun hn hp => (hk hn hp).1) hstep with
        h | h | ⟨a, n, b, hacks, hest, hnew, hb, hrest⟩
      · exact hsteady h
      · exact hreset h
      obtain ⟨-, hfollow⟩ := hnext hk hacks
      obtain ⟨_, -, -, -, hsyn, hack⟩ := id hacks
      have hua : a.snd.unacknowledged = s.snd.unacknowledged := hest.unacknowledged
      have hnx : a.snd.next = s.snd.next := hest.next
      have hsc : a.snd.windowScale = s.snd.windowScale := congrArg Core.windowScale hest
      have hwin : a.snd.window = s.snd.window := congrArg Core.window hest
      have hwl1 : a.snd.wl1 = s.snd.wl1 := congrArg Core.wl1 hest
      have hwl2 : a.snd.wl2 = s.snd.wl2 := congrArg Core.wl2 hest
      have hlt : s.snd.unacknowledged.lt th.ack = true := by
        rw [acksNewData, Bool.and_eq_true] at hnew
        exact hnew.1
      have hold : updatesWindow s.rcv.next th.ack a.snd = true ∨
          a.snd.window ≤ scaledWindow th s.snd := by
        rw [updatesWindow, hwl1, hwl2, hwin]
        exact hfollow.1 hnew
      have hnew' : acksNewData th.ack a.snd = true := by rwa [acksNewData, hua, hnx]
      obtain ⟨h₁, h₂, h₃⟩ := takeWindow_moved hsyn (hedge hack) hlt hsc hold hnew' hb
      have hst : (takeWindow e.now th s.rcv.next b).state = .established := by
        obtain ⟨⟨_, rto, ef, hb'⟩, -⟩ := dataSegmentAcked_spec hb
        rw [takeWindow_state, hb']
        exact hest.state
      obtain ⟨hf, hc, -⟩ := Follows.turns he hs hedge
        (fun h => by rcases h with h | h | h <;> rw [hsr] at h <;> cases h) hclosed
        (fun h => by rw [hst] at h; simp at h) (by rw [hst]; decide) (fun _ _ => hfollow)
        (.moved h₁ hlt h₂ h₃) hrest
      exact hfollows hf hc
    · have hstart : Follows (g.edgesAfter s e) g.acked th s s := by
        rcases hwindow with h | ⟨-, h⟩ | h
        · exact .refused h
        · simp [synNeedsOn, hs, hsr] at h
        · exact .unmoved rfl rfl rfl (h.mono hmono) (Or.inl ⟨rfl, rfl, rfl⟩)
      have hfin : s.state = .finWait1 ∨ s.state = .closing ∨ s.state = .lastAck → Acks s e th →
          AcksFin th s → totalLen s.snd.unsent = 0 := by
        intro hst hacks hf
        rcases hst with h | h | h
        · rw [TakesAnnounced, h] at hk
          exact hnext hk hacks hf
        · rw [TakesAnnounced, h] at hk
          exact hnext hk hacks hf
        · rw [TakesAnnounced, h] at hk
          exact hnext hk hacks hf
      have hwin : Sending s → Acks s e th → WindowFollowsAck th s := by
        intro hst hacks
        rcases hst with h | h
        · rw [TakesAnnounced, h] at hk
          exact hnext hk hacks
        · rw [TakesAnnounced, h] at hk
          exact hnext hk hacks
      obtain ⟨hf, hc, -⟩ := Follows.turns he hs hedge hfin hclosed hclosed hsr hwin hstart (step_turns ht)
      exact hfollows hf hc
  · have hseg' : ∀ th p, e.act ≠ .segment th p := fun th p he => hseg ⟨th, p, he⟩
    by_cases hsend : ∃ p, e.act = .send p
    · obtain ⟨p, he⟩ := hsend
      rw [KeepsToEdge, he] at hk
      simp only at hk
      rw [step, he] at ht
      obtain rfl := Except.ok.inj ht
      cases hr : sendRefused s with
      | true =>
        have hsame : s.send p = s := if_pos hr
        rw [hsame]
        have hsame' := hsteady
        rw [hsame] at hsame'
        exact hsame' (.refl s)
      | false =>
        have hq := send_steady (p := p) hr
        have hx : Within g.edges g.acked s := by
          rcases hwindow with ⟨-, h⟩ | ⟨-, h⟩ | h
          · rw [hr] at h
            cases h
          · rw [hk] at h
            cases h
          · exact h
        have hu : (s.send p).snd.unacknowledged = s.snd.unacknowledged := hq.unacknowledged
        have hin : (s.send p).snd.initial = s.snd.initial := congrArg Core.initial hq
        refine hstay hu (Or.inr (Or.inr (Within.steady (a := queueForSend p s) hq hx)))
          (ClosedByUser.steady (a := queueForSend p s) hq hclosed) fun hst => ?_
        rw [hu, hin]
        exact hinit (hq.state.symm.trans hst)
    · have hsend' : ∀ p, e.act ≠ .send p := fun p he => hsend ⟨p, he⟩
      have hturns : ∀ {b : Tcb}, Turns hw s e s b → Stays g.edges g.acked s b := by
        intro b hb
        induction hb with
        | refl => exact ⟨hwindow, hclosed, rfl, rfl, id⟩
        | tail _ hturn ih => exact ih.turn hseg' hsend' hclosed hturn
      have hall := hturns (step_turns ht)
      refine hstay hall.unacknowledged hall.window hall.closed fun hst => ?_
      rw [hall.unacknowledged, hall.initial]
      exact hinit (hall.synSent hst)

/-- A connection within the announced edges sends nothing behind them. -/
theorem WithinEdge.sends {w : Tcb × Announced} (hw' : WithinEdge w) : ¬ SendsBeyond hw w e := by
  rintro ⟨t, g', ht, hwatch, hne, hbeyond⟩
  obtain ⟨s, g⟩ := w
  obtain ⟨u, hu, h⟩ := bind_ok.mp hwatch
  obtain ⟨rfl, rfl⟩ := Prod.mk.inj (Except.ok.inj h)
  simp only at ht hne hbeyond hu
  obtain ⟨hnext, hua, -⟩ := step_transmits ht hu
  have hpos : 0 < freshLen hw s.snd := by
    by_contra h0
    rw [Nat.not_lt, Nat.le_zero] at h0
    rw [hnext, h0] at hne
    exact hne (seqAt_zero s.snd.next)
  have hfits : inFlight s.snd + freshLen hw s.snd ≤ s.snd.window.toNat :=
    freshLen_fits hw'.probe hpos
  have hlt := s.snd.window.toNat_lt
  have hflight : inFlight u.snd = inFlight s.snd + freshLen hw s.snd :=
    inFlight_add hnext hua (by omega)
  have hqueued : totalLen s.snd.unsent ≠ 0 := by
    intro h0
    rw [freshLen, h0] at hpos
    omega
  have hwin : Refused s ∨ Opening s ∨ Within g.edges g.acked s := hw'.window
  rcases hwin with ⟨h0, -⟩ | ⟨h0, -⟩ | ⟨x, hx, hle⟩
  · exact hqueued h0
  · exact hqueued h0
  · have hx' := hbeyond x (mem_edgesAfter g s e x hx)
    rw [hflight, hua, sub_self] at hx'
    omega

/-! ## Runs -/

theorem Opened.withinEdge {tcb : Tcb} (h : Opened hw tcb) : WithinEdge (tcb, {}) := by
  cases h with
  | active mem id now isn =>
    have hk : Steady { doSetupIsn isn (Stack.newTcb mem id) with
        option := { (Stack.newTcb mem id).option with localWinScale := 7, localMss := localMss hw }
        rcv := { (Stack.newTcb mem id).rcv with windowScale := 7, mss := localMss hw }
        state := .synSent } ((Stack.newTcb mem id).connect hw now isn) := by
      refine Steady.trans ?_ (output_steady _)
      rfl
    have hun : ((Stack.newTcb mem id).connect hw now isn).snd.unsent = [] := congrArg Core.unsent hk
    have hst : ((Stack.newTcb mem id).connect hw now isn).state = .synSent := hk.state
    refine ⟨Or.inr (Or.inl ⟨?_, ?_⟩), ?_, fun _ => ?_, congrArg Core.windowProbe hk⟩
    · rw [hun]
      rfl
    · simp [synNeedsOn, hst]
    · intro h
      rw [hst] at h
      simp at h
    · exact hk.unacknowledged.trans (congrArg Core.initial hk).symm
  | passive _ _ _ h =>
    obtain ⟨⟨hdr, q⟩, -, h⟩ := bind_ok.mp h
    obtain ⟨area, -, h⟩ := bind_ok.mp h
    obtain ⟨b, hb, h⟩ := bind_ok.mp h
    obtain rfl := Except.ok.inj h
    have hk : ∀ now, Steady { b with state := .synReceived } (doSynReceived now b) := by
      intro now
      refine Steady.trans ?_ (output_steady _)
      rfl
    obtain ⟨-, hunsent, -⟩ := initFromOptions_snd hb
    have hprobe := initFromOptions_probe hb
    refine ⟨Or.inr (Or.inl ⟨?_, ?_⟩), ?_, fun h => ?_, (congrArg Core.windowProbe (hk _)).trans hprobe⟩
    · rw [show (doSynReceived _ b).snd.unsent = [] from (congrArg Core.unsent (hk _)).trans hunsent]
      rfl
    · simp [synNeedsOn, (hk _).state]
    · intro h
      rw [(hk _).state] at h
      simp at h
    · rw [(hk _).state] at h
      cases h

/-- New data stays within the edges the peer has announced, in every run in which the code takes
only such windows and the user sends only on a connection that was established. -/
theorem run_sendWindow (hw : HwFeatures) {tcb : Tcb} (es : List Event) (ho : Opened hw tcb)
    (hk : Run.Along (watch hw) (fun w e => KeepsToEdge w.1 e) (tcb, {}) es) :
    Run.Along (watch hw) (fun w e => ¬ SendsBeyond hw w e) (tcb, {}) es :=
  Run.Along.of_inv (fun _ _ _ hw' hk h => step_withinEdge hw' hk h) (fun _ _ hw' _ => hw'.sends)
    ho.withinEdge hk

instance (th : TcpHdr) (p : Packet) (tcb : Tcb) : Decidable (SynUnscaled th p tcb) :=
  match h : windowOfSyn th p tcb.option with
  | .error _ => decidable_of_iff (th.fAck = true)
    ⟨fun hack => ⟨hack, fun _ hw => nomatch h.symm.trans hw⟩, fun hs => hs.1⟩
  | .ok w => decidable_of_iff (th.fAck = true ∧ w ≤ th.window.toUInt32)
    ⟨fun hs => ⟨hs.1, fun _ hw => Except.ok.inj (h.symm.trans hw) ▸ hs.2⟩,
      fun hs => ⟨hs.1, hs.2 w h⟩⟩

instance (th : TcpHdr) (tcb : Tcb) : Decidable (WindowFollowsAck th tcb) :=
  inferInstanceAs (Decidable (_ ∧ _))

instance (th : TcpHdr) (p : Packet) (tcb : Tcb) : Decidable (TakesAnnounced th p tcb) := by
  unfold TakesAnnounced
  exact match tcb.state with
  | .synSent => inferInstanceAs (Decidable (_ → _ → SynUnscaled th p tcb))
  | .synReceived => inferInstanceAs (Decidable (NextInLine th p tcb.rcv → Proceeds th tcb → _ ∧ _))
  | .established => inferInstanceAs (Decidable (NextInLine th p tcb.rcv → Proceeds th tcb → _))
  | .closeWait => inferInstanceAs (Decidable (NextInLine th p tcb.rcv → Proceeds th tcb → _))
  | .finWait1 => inferInstanceAs (Decidable (NextInLine th p tcb.rcv → Proceeds th tcb → _ → _))
  | .closing => inferInstanceAs (Decidable (NextInLine th p tcb.rcv → Proceeds th tcb → _ → _))
  | .lastAck => inferInstanceAs (Decidable (NextInLine th p tcb.rcv → Proceeds th tcb → _ → _))
  | .closed | .listen | .finWait2 | .timeWait => .isTrue trivial

instance (tcb : Tcb) : (e : Event) → Decidable (KeepsToEdge tcb e)
  | ⟨_, .segment th p⟩ => inferInstanceAs (Decidable (TakesAnnounced th p tcb))
  | ⟨_, .send _⟩ => inferInstanceAs (Decidable (tcb.synNeedsOn = false))
  | ⟨_, .read⟩ | ⟨_, .waitForData⟩ | ⟨_, .abortReader⟩ | ⟨_, .close⟩ | ⟨_, .closeContinue⟩
  | ⟨_, .shutdownConnect⟩ | ⟨_, .getPacket⟩ | ⟨_, .retransmitExpires⟩ | ⟨_, .persistExpires⟩
  | ⟨_, .delayedAckExpires⟩ | ⟨_, .arpQueueFull⟩ | ⟨_, .arpTimeout⟩ => .isTrue trivial

/-- The peer announces a window of one byte, with a shift count of `scale` in its SYN; the user
sends two bytes. -/
def twoBytes (scale : UInt8) : List Event :=
  [⟨0, .getPacket⟩,
    ⟨1, .arrives [0, 80, 160, 0, 0, 0, 0, 7, 0, 0, 0, 101, 0x60, 0x12, 0, 1, 0, 0, 0, 0,
      3, 3, scale, 0]⟩,
    ⟨2, .getPacket⟩, ⟨3, .send (Packet.ofFrags [[97, 98]])⟩, ⟨4, .getPacket⟩]

/-- Unscaled, the window of the SYN is kept to. -/
theorem twoBytes_within :
    Run.Along (watch {}) (fun w e => ¬ SendsBeyond {} w e)
      ((Stack.newTcb {} ⟨0, 0, 0, 0⟩).connect {} 0 ⟨100⟩, {}) (twoBytes 0) :=
  run_sendWindow {} (twoBytes 0) (.active {} ⟨0, 0, 0, 0⟩ 0 ⟨100⟩) (by decide +kernel)

/-- Scaled by one, it lets the second byte out, behind the right edge at position 2. -/
theorem twoBytes_beyond : ∃ w e,
    Run.run (watch {}) ((Stack.newTcb {} ⟨0, 0, 0, 0⟩).connect {} 0 ⟨100⟩, {})
      ((twoBytes 1).take 4) = .ok w ∧
    (twoBytes 1)[4]? = some e ∧ w.2.edges = [2] ∧ w.2.acked = 1 ∧ w.1.snd.window = 2 ∧
    SendsBeyond {} w e := by
  refine ⟨_, _, rfl, rfl, ?_, ?_, rfl, _, _, ?_, rfl, ?_, ?_⟩
  · decide +kernel
  · decide +kernel
  · decide +kernel
  · decide +kernel
  · decide +kernel

end Seastar.Net.Tcp.Tcb
