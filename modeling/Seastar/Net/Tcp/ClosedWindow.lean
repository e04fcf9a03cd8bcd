import Seastar.Net.Tcp.InputSpec
import Seastar.Net.Tcp.Step

/-!
The assertion of `output_one`: nothing longer than a window probe is sent while the
peer advertises a closed window. New data and probes respect it. A
retransmission does not look at the window, so the assertion fails exactly when
one is due for more than one byte while the window is closed.
-/

namespace Seastar.Net.Tcp.Tcb

open Lib

/-- The length of the first packet that an acknowledgement leaves in the queue. -/
def leftAfter (segAck : TcpSeq) (snd : Send) : Nat :=
  match ackedWhole segAck snd.unacknowledged snd.data with
  | (_, []) => 0
  | (una, seg :: _) =>
    if una.lt segAck then seg.p.len - sizeOfInt (segAck.diff una) else seg.p.len

/-- The send window after an acknowledgement of new data. -/
def windowAfter (th : TcpHdr) (segSeq : TcpSeq) (snd : Send) : UInt32 :=
  if updatesWindow segSeq th.ack snd then th.window.toUInt32 <<< snd.windowScale.toUInt32
  else snd.window

/-- A partial acknowledgement in fast recovery leaves the window closed and more than a
byte in front of the queue. -/
def PartialAckIntoClosedWindow (th : TcpHdr) (segSeq : TcpSeq) (snd : Send) : Prop :=
  acksNewData th.ack snd = true ∧ snd.dupacks ≥ 3 ∧ th.ack.gt snd.recover = false ∧
    windowAfter th segSeq snd = 0 ∧ 1 < UInt16.ofNat (leftAfter th.ack snd)

/-- A third duplicate ACK finds the window closed and more than a byte in front of the queue. -/
def ThirdDuplicateIntoClosedWindow (th : TcpHdr) (segLen : Nat) (snd : Send) : Prop :=
  acksNewData th.ack snd = false ∧ isDuplicateAck th segLen snd = true ∧ snd.dupacks = 2 ∧
    (th.ack.back 1).gt snd.recover = true ∧ IntoClosedWindow snd

/-- The ACK field of the segment is processed as in ESTABLISHED. -/
def AckInEstablished (th : TcpHdr) (tcb : Tcb) : Prop :=
  tcb.state = .established ∨ tcb.state = .closeWait ∨
    (tcb.state = .synReceived ∧ tcb.snd.unacknowledged.le th.ack = true ∧
      th.ack.le tcb.snd.next = true)

/-- The data in front of the queue are due for retransmission, into a closed window. -/
def RetransmitsClosed (snd : Send) : Prop :=
  IntoClosedWindow snd ∧ ∀ seg ∈ snd.data.head?, seg.nrTransmits < maxNrRetransmit

/-- The ACK field of the segment makes the connection retransmit into a closed window. -/
def AckIntoClosedWindow (th : TcpHdr) (segSeq : TcpSeq) (segLen : Nat) (snd : Send) : Prop :=
  PartialAckIntoClosedWindow th segSeq snd ∨ ThirdDuplicateIntoClosedWindow th segLen snd

/-- The event makes the connection retransmit more than a byte into a closed window. -/
def RetransmitsIntoClosedWindow (tcb : Tcb) (e : Event) : Prop :=
  match e.act with
  | .segment th p =>
    tcb.state ≠ .synSent ∧ NextInLine th p tcb.rcv ∧ Proceeds th tcb ∧ AckInEstablished th tcb ∧
      AckIntoClosedWindow th tcb.rcv.next (textLen th p - oldLen th p tcb.rcv) tcb.snd
  | .retransmitExpires =>
    due tcb.retransmitTimer e.now = true ∧ tcb.state ≠ .closed ∧
      (tcb.synNeedsOn = true → tcb.snd.synRetransmit < maxNrRetransmit) ∧
      (tcb.finNeedsOn = true → tcb.snd.finRetransmit < maxNrRetransmit) ∧
      RetransmitsClosed tcb.snd
  | _ => False

instance (th : TcpHdr) (segSeq : TcpSeq) (segLen : Nat) (snd : Send) :
    Decidable (AckIntoClosedWindow th segSeq segLen snd) := by
  unfold AckIntoClosedWindow PartialAckIntoClosedWindow ThirdDuplicateIntoClosedWindow
  infer_instance

instance (th : TcpHdr) (tcb : Tcb) : Decidable (AckInEstablished th tcb) :=
  inferInstanceAs (Decidable (_ ∨ _))

instance (snd : Send) : Decidable (RetransmitsClosed snd) := inferInstanceAs (Decidable (_ ∧ _))

instance (tcb : Tcb) (e : Event) : Decidable (RetransmitsIntoClosedWindow tcb e) := by
  unfold RetransmitsIntoClosedWindow
  split <;> infer_instance

/-! ## Calls that cannot fail the assertion -/

theorem outputOne_false_ok (hw : HwFeatures) (now : Int) (tcb : Tcb) :
    ∃ t, outputOne hw now false tcb = .ok t := by
  by_cases hs : tcb.state = .closed
  · exact ⟨tcb, outputOne_closed hw now false hs⟩
  · obtain ⟨p, clone, unsent, lt, da, rt, s, ho, -⟩ := outputOne_fresh hw now hs
    exact ⟨_, ho⟩

theorem persist_ok (hw : HwFeatures) (now : Int) (tcb : Tcb) : ∃ t, persist hw now tcb = .ok t := by
  obtain ⟨t, ht⟩ := outputOne_false_ok hw now
    { tcb with
      snd := { tcb.snd with
        windowProbe := true, zeroWindowProbingOut := tcb.snd.zeroWindowProbingOut + 1 } }
  exact ⟨_, bind_ok.mpr ⟨t, ht, rfl⟩⟩

theorem closeContinue_ok (hw : HwFeatures) (now : Int) (tcb : Tcb) :
    ∃ t, closeContinue hw now tcb = .ok t := by
  unfold closeContinue
  simp only
  generalize (if tcb.state = .closeWait then _ else _ : Tcb) = u
  obtain ⟨t, ht⟩ := outputOne_false_ok hw now u
  exact ⟨_, bind_ok.mpr ⟨t, ht, rfl⟩⟩

theorem getPacket_ok (hw : HwFeatures) (now : Int) (tcb : Tcb) :
    ∃ r, getPacket hw now tcb = .ok r := by
  obtain ⟨t, ht, hq⟩ := fillPacketq_ok hw now { tcb with pollActive := false }
  rcases takePacket_ok hq with ⟨-, h⟩ | ⟨-, p, packetq, u, -, h, -⟩
  · exact ⟨_, bind_ok.mpr ⟨t, ht, h⟩⟩
  · exact ⟨_, bind_ok.mpr ⟨t, ht, h⟩⟩

/-! ## Retransmission timeouts -/

/-- The call fails the assertion when `P` holds, and returns otherwise. -/
def AssertsUnless (P : Prop) (x : Except Fault Tcb) : Prop :=
  (P ∧ x = .error .closedWindow) ∨ (¬ P ∧ ∃ t, x = .ok t)

theorem AssertsUnless.of_iff {P Q : Prop} {x : Except Fault Tcb} (h : AssertsUnless P x)
    (hPQ : P ↔ Q) : AssertsUnless Q x := by
  rwa [AssertsUnless, ← hPQ]

theorem AssertsUnless.iff {P : Prop} {x : Except Fault Tcb} (h : AssertsUnless P x) :
    x = .error .closedWindow ↔ P := by
  rcases h with ⟨hP, h⟩ | ⟨hP, t, h⟩
  · exact ⟨fun _ => hP, fun _ => h⟩
  · rw [h]
    exact ⟨nofun, fun h => absurd h hP⟩

theorem retransmitData_asserts (hw : HwFeatures) (now : Int) {tcb : Tcb} (hs : tcb.state ≠ .closed) :
    AssertsUnless (RetransmitsClosed tcb.snd) (retransmitData hw now tcb) := by
  rcases retransmitData_spec hw now hs with ⟨hd, h⟩ | ⟨seg, data, hd, h⟩
  · refine Or.inr ⟨?_, _, h⟩
    rintro ⟨⟨-, hl⟩, -⟩
    rw [frontLen, hd] at hl
    exact absurd hl (by decide)
  · have hf : (∀ s ∈ tcb.snd.data.head?, s.nrTransmits < maxNrRetransmit) ↔
        seg.nrTransmits < maxNrRetransmit := by simp [hd]
    rw [RetransmitsClosed, hf]
    rcases h with ⟨hn, t, h, -⟩ | ⟨hn, hi, h⟩ | ⟨hn, hi, a, b, t, h, -⟩
    · exact Or.inr ⟨fun hc => absurd hc.2 (Nat.not_lt.mpr hn), t, h⟩
    · exact Or.inl ⟨⟨hi, hn⟩, h⟩
    · exact Or.inr ⟨fun hc => hi hc.1, t, h⟩

theorem retransmitFin_asserts (hw : HwFeatures) (now : Int) {tcb : Tcb} (hs : tcb.state ≠ .closed) :
    AssertsUnless ((tcb.finNeedsOn = true → tcb.snd.finRetransmit < maxNrRetransmit) ∧
      RetransmitsClosed tcb.snd) (retransmitFin hw now tcb) := by
  unfold retransmitFin
  by_cases hf : tcb.finNeedsOn = true
  · rw [if_pos hf]
    simp only
    by_cases hn : tcb.snd.finRetransmit < maxNrRetransmit
    · rw [if_pos hn]
      obtain ⟨pa, ef, rto, rt, h⟩ := outputUpdateRto_eq now
        { tcb with snd := { tcb.snd with finRetransmit := tcb.snd.finRetransmit + 1 } }
      rw [h]
      refine (retransmitData_asserts hw now ?_).of_iff ?_
      · exact hs
      · exact ⟨fun h => ⟨fun _ => hn, h⟩, fun h => h.2⟩
    · rw [if_neg hn]
      exact Or.inr ⟨fun h => hn (h.1 hf), _, rfl⟩
  · rw [if_neg hf]
    exact (retransmitData_asserts hw now hs).of_iff ⟨fun h => ⟨fun hc => absurd hc hf, h⟩, fun h => h.2⟩

theorem retransmit_asserts (hw : HwFeatures) (now : Int) {tcb : Tcb} (hs : tcb.state ≠ .closed) :
    AssertsUnless ((tcb.synNeedsOn = true → tcb.snd.synRetransmit < maxNrRetransmit) ∧
      (tcb.finNeedsOn = true → tcb.snd.finRetransmit < maxNrRetransmit) ∧
      RetransmitsClosed tcb.snd) (retransmit hw now tcb) := by
  unfold retransmit
  by_cases hf : tcb.synNeedsOn = true
  · rw [if_pos hf]
    simp only
    by_cases hn : tcb.snd.synRetransmit < maxNrRetransmit
    · rw [if_pos hn]
      obtain ⟨pa, ef, rto, rt, h⟩ := outputUpdateRto_eq now
        { tcb with snd := { tcb.snd with synRetransmit := tcb.snd.synRetransmit + 1 } }
      rw [h]
      refine (retransmitFin_asserts hw now ?_).of_iff ?_
      · exact hs
      · exact ⟨fun h => ⟨fun _ => hn, h⟩, fun h => h.2⟩
    · rw [if_neg hn]
      exact Or.inr ⟨fun h => hn (h.1 hf), _, rfl⟩
  · rw [if_neg hf]
    exact (retransmitFin_asserts hw now hs).of_iff ⟨fun h => ⟨fun hc => absurd hc hf, h⟩, fun h => h.2⟩

/-- A closed connection transmits nothing. -/
theorem retransmit_closed (hw : HwFeatures) (now : Int) {tcb : Tcb} (hs : tcb.state = .closed) :
    ∃ t, retransmit hw now tcb = .ok t := by
  have hsyn : tcb.synNeedsOn = false := by simp [synNeedsOn, hs]
  have hfin : tcb.finNeedsOn = false := by simp [finNeedsOn, hs]
  rw [retransmit, hsyn, if_neg Bool.false_ne_true, retransmitFin, hfin, if_neg Bool.false_ne_true]
  unfold retransmitData
  split
  · exact ⟨_, rfl⟩
  · simp only
    split
    · exact ⟨_, bind_ok.mpr ⟨_, outputOne_closed hw now true hs, rfl⟩⟩
    · exact ⟨_, rfl⟩

/-! ## Acknowledgements -/

theorem afterNewAck_asserts (hw : HwFeatures) (now : Int) (segAck : TcpSeq) (n : UInt32) {tcb : Tcb}
    (hs : tcb.state ≠ .closed) :
    AssertsUnless (tcb.snd.dupacks ≥ 3 ∧ segAck.gt tcb.snd.recover = false ∧
      IntoClosedWindow tcb.snd) (afterNewAck hw now segAck n tcb) := by
  unfold afterNewAck
  simp only
  by_cases hd : tcb.snd.dupacks ≥ 3
  · rw [if_pos hd]
    by_cases hr : segAck.gt tcb.snd.recover = true
    · rw [if_pos hr]
      exact Or.inr ⟨fun h => absurd hr (by rw [h.2.1]; decide), _, rfl⟩
    · rw [if_neg hr]
      rw [Bool.not_eq_true] at hr
      rcases fastRetransmit_spec hw now hs with ⟨hi, h⟩ | ⟨hi, t, h, -⟩
      · rw [h]
        exact Or.inl ⟨⟨hd, hr, hi⟩, rfl⟩
      · rw [h]
        exact Or.inr ⟨fun hc => hi hc.2.2, _, rfl⟩
  · rw [if_neg hd]
    exact Or.inr ⟨fun h => hd h.1, _, rfl⟩

/-- The first packet that is left is as long as `leftAfter` says. -/
theorem leftAfter_eq {segAck : TcpSeq} {snd : Send} {data : List UnackedSegment}
    (h : ackedPart segAck (ackedWhole segAck snd.unacknowledged snd.data) = .ok data) :
    frontLen { snd with data := data } = leftAfter segAck snd := by
  unfold leftAfter
  generalize ackedWhole segAck snd.unacknowledged snd.data = q at h ⊢
  obtain ⟨una, rest⟩ := q
  unfold ackedPart at h
  cases rest with
  | nil =>
    simp only [trimFirst, ite_self] at h
    obtain rfl := Except.ok.inj h
    rfl
  | cons seg rest =>
    simp only at h ⊢
    split at h
    · rename_i hlt
      obtain ⟨p, hp, rfl⟩ := map_ok.mp h
      rw [if_pos hlt, ← (Packet.trimFront_spec hp).2.2]
      rfl
    · rename_i hlt
      obtain rfl := Except.ok.inj h
      rw [if_neg hlt]
      rfl

/-- Only under `P` can the call fail the assertion, and under `P` it does not return. -/
def AssertsOnly {α : Type} (P : Prop) (x : Except Fault α) : Prop :=
  (x = .error .closedWindow → P) ∧ (P → ∃ f, x = .error f)

theorem AssertsUnless.only {P : Prop} {x : Except Fault Tcb} (h : AssertsUnless P x) :
    AssertsOnly P x := by
  refine ⟨h.iff.mp, fun hP => ?_⟩
  rcases h with ⟨-, h⟩ | ⟨hn, -⟩
  · exact ⟨_, h⟩
  · exact absurd hP hn

theorem AssertsOnly.of_iff {α : Type} {P Q : Prop} {x : Except Fault α} (h : AssertsOnly P x)
    (hPQ : P ↔ Q) : AssertsOnly Q x := by
  rwa [AssertsOnly, ← hPQ]

/-- What follows the call cannot fail the assertion. -/
theorem AssertsOnly.bind {α β : Type} {P : Prop} {x : Except Fault α} {f : α → Except Fault β}
    (h : AssertsOnly P x) (hf : ∀ a, x = .ok a → f a ≠ .error .closedWindow) :
    AssertsOnly P (x >>= f) := by
  constructor
  · intro hx
    rcases bind_error.mp hx with hx | ⟨a, ha, hx⟩
    · exact h.1 hx
    · exact absurd hx (hf a ha)
  · intro hP
    obtain ⟨e, he⟩ := h.2 hP
    exact ⟨e, by rw [he]; rfl⟩

theorem ackNewData_asserts (hw : HwFeatures) (now : Int) (th : TcpHdr) (segSeq : TcpSeq) {tcb : Tcb}
    (hs : tcb.state ≠ .closed) :
    AssertsOnly (tcb.snd.dupacks ≥ 3 ∧ th.ack.gt tcb.snd.recover = false ∧
        windowAfter th segSeq tcb.snd = 0 ∧ 1 < UInt16.ofNat (leftAfter th.ack tcb.snd))
      (ackNewData hw now th segSeq tcb) := by
  unfold ackNewData
  cases hd : dataSegmentAcked now th.ack tcb with
  | error f =>
    refine ⟨fun h => ?_, fun _ => ⟨f, rfl⟩⟩
    rcases dataSegmentAcked_error hd with rfl | ⟨rfl, -⟩
    · cases h
    · cases h
  | ok r =>
    obtain ⟨n, u⟩ := r
    rw [ok_bind]
    obtain ⟨⟨⟨⟨ua, dt, cw, cq, sp, fs, rv, sr, hsnd⟩⟩, rto, ef, hu⟩, -, hpart⟩ :=
      dataSegmentAcked_spec hd
    have hleft := leftAfter_eq hpart
    have hust : u.state = tcb.state := by rw [hu]
    have hlen : frontLen u.snd = leftAfter th.ack tcb.snd := by
      rw [← hleft, hsnd]
      rfl
    have hupd : updatesWindow segSeq th.ack u.snd = updatesWindow segSeq th.ack tcb.snd := by
      rw [hsnd]
      rfl
    have hdup : u.snd.dupacks = tcb.snd.dupacks ∧ u.snd.recover = tcb.snd.recover ∧
        u.snd.window = tcb.snd.window ∧ u.snd.windowScale = tcb.snd.windowScale := by
      rw [hsnd]
      exact ⟨rfl, rfl, rfl, rfl⟩
    simp only [hupd]
    rw [windowAfter]
    split
    · obtain ⟨pt, po, hw'⟩ := updateWindow_eq now th segSeq u
      rw [hw']
      refine ((afterNewAck_asserts hw now th.ack n ?_).of_iff ?_).only
      · exact fun h => hs (hust ▸ h)
      · rw [IntoClosedWindow, ← hlen, ← hdup.1, ← hdup.2.1, ← hdup.2.2.2]
        exact Iff.rfl
    · refine ((afterNewAck_asserts hw now th.ack n ?_).of_iff ?_).only
      · rw [hust]
        exact hs
      · rw [IntoClosedWindow, hlen, hdup.1, hdup.2.1, hdup.2.2.1]

theorem duplicateAck_asserts (hw : HwFeatures) (now : Int) (segAck : TcpSeq) {tcb : Tcb}
    (hs : tcb.state ≠ .closed) :
    AssertsOnly (tcb.snd.dupacks = 2 ∧ (segAck.back 1).gt tcb.snd.recover = true ∧
      IntoClosedWindow tcb.snd) (duplicateAck hw now segAck tcb) := by
  have hthree : ∀ {P : Prop}, tcb.snd.dupacks + 1 ≠ 3 → ¬ (tcb.snd.dupacks = 2 ∧ P) := by
    intro P hne h
    rw [h.1] at hne
    exact hne rfl
  unfold duplicateAck
  simp only
  split
  · rename_i h
    refine ⟨nofun, fun hc => absurd hc (hthree ?_)⟩
    intro h3
    simp [h3] at h
  split
  · rename_i h3
    have h2 : tcb.snd.dupacks = 2 := by
      have h : tcb.snd.dupacks + 1 - 1 = 3 - 1 := by rw [h3]
      rwa [UInt16.add_sub_cancel] at h
    simp only [h2, true_and]
    refine AssertsOnly.bind ?_ (fun a _ => nofun)
    unfold enterFastRetransmit
    simp only
    by_cases hr : (segAck.back 1).gt tcb.snd.recover = true
    · rw [if_pos hr]
      rcases @fastRetransmit_spec hw now { tcb with
        snd := { tcb.snd with
          dupacks := 2 + 1
          recover := tcb.snd.next.back 1
          ssthresh := max ((flightSize tcb.snd - tcb.snd.limitedTransfer) / 2)
            (2 * tcb.snd.mss.toUInt32) } } hs with ⟨hi, h⟩ | ⟨hi, t, h, -⟩
      · exact ⟨fun _ => ⟨hr, hi⟩, fun _ => ⟨_, h⟩⟩
      · refine ⟨fun h' => ?_, fun h' => absurd h'.2 hi⟩
        have := h.symm.trans h'
        cases this
    · rw [if_neg hr]
      exact ⟨nofun, fun h => absurd h.1 hr⟩
  split
  · rename_i h3 _
    exact ⟨nofun, fun hc => absurd hc (hthree h3)⟩
  · rename_i h3 _
    exact ⟨nofun, fun hc => absurd hc (hthree h3)⟩

theorem ackEstablished_asserts (hw : HwFeatures) (now : Int) (th : TcpHdr) (segSeq : TcpSeq)
    (segLen : Nat) {tcb : Tcb} (hs : tcb.state ≠ .closed) :
    AssertsOnly (AckIntoClosedWindow th segSeq segLen tcb.snd)
      (ackEstablished hw now th segSeq segLen tcb) := by
  unfold ackEstablished AckIntoClosedWindow PartialAckIntoClosedWindow
    ThirdDuplicateIntoClosedWindow
  by_cases hn : acksNewData th.ack tcb.snd = true
  · rw [if_pos hn]
    refine AssertsOnly.bind ((ackNewData_asserts hw now th segSeq hs).of_iff ?_) (fun _ _ => nofun)
    simp [hn]
  rw [if_neg hn]
  by_cases hd : isDuplicateAck th segLen tcb.snd = true
  · rw [if_pos hd]
    refine AssertsOnly.bind ((duplicateAck_asserts hw now th.ack hs).of_iff ?_) (fun _ _ => nofun)
    simp [hn, hd]
  rw [if_neg hd]
  refine ⟨fun h => ?_, fun h => ?_⟩
  · split at h
    · cases h
    · split at h
      · cases h
      · cases h
  · rcases h with h | h
    · exact absurd h.1 hn
    · exact absurd h.2.1 hd

theorem ackField_asserts (hw : HwFeatures) (now : Int) (th : TcpHdr) (segSeq : TcpSeq)
    (segLen : Nat) (tcb : Tcb) :
    AssertsOnly (AckInEstablished th tcb ∧ AckIntoClosedWindow th segSeq segLen tcb.snd)
      (ackField hw now th segSeq segLen tcb) := by
  unfold ackField ackSynReceived AckInEstablished
  by_cases hs : tcb.state = .synReceived
  · simp only [hs, if_true]
    by_cases ha : (tcb.snd.unacknowledged.le th.ack && th.ack.le tcb.snd.next) = true
    · rw [if_pos ha]
      rw [Bool.and_eq_true] at ha
      obtain ⟨fs, rv, sr, rto, ef, hd⟩ := doEstablished_eq now tcb
      simp only [hd, emit, reduceCtorEq, decide_true, decide_false, Bool.or_false, if_true, false_or,
        true_and, ha, and_self]
      refine (ackEstablished_asserts hw now th segSeq segLen ?_).of_iff Iff.rfl
      show TcpState.established ≠ TcpState.closed
      decide
    · rw [if_neg ha]
      rw [Bool.and_eq_true] at ha
      refine ⟨nofun, fun h => ?_⟩
      rcases h.1 with h | h | h
      · cases h
      · cases h
      · exact absurd h.2 ha
  · simp only [hs, if_false, false_and, or_false]
    by_cases he : tcb.state = .established ∨ tcb.state = .closeWait
    · rw [if_pos (by simpa using he)]
      refine (ackEstablished_asserts hw now th segSeq segLen ?_).of_iff ?_
      · rcases he with he | he
        · rw [he]; decide
        · rw [he]; decide
      · exact ⟨fun h => ⟨he, h⟩, fun h => h.2⟩
    · rw [if_neg (by simpa using he)]
      exact ⟨nofun, fun h => absurd h.1 he⟩

/-! ## One step, and runs -/

theorem inputHandleOtherState_asserts (hw : HwFeatures) (now : Int) (th : TcpHdr) (p : Packet)
    (tcb : Tcb) :
    AssertsOnly (NextInLine th p tcb.rcv ∧ Proceeds th tcb ∧ AckInEstablished th tcb ∧
        AckIntoClosedWindow th tcb.rcv.next (textLen th p - oldLen th p tcb.rcv) tcb.snd)
      (inputHandleOtherState hw now th p tcb) := by
  have h := inputHandleOtherState_dispatched hw now th p tcb
  generalize inputHandleOtherState hw now th p tcb = x at h
  cases h with
  | short hl => exact ⟨nofun, fun h => absurd h.1.1 (Nat.not_le.mpr hl)⟩
  | unacceptable hl ha => exact ⟨nofun, fun h => by rw [h.1.2.1] at ha; cases ha⟩
  | outOfOrder q hl ha hq hne =>
    refine ⟨fun h => ?_, fun h => absurd h.1.2.2 hne⟩
    rcases bind_error.mp h with h | ⟨_, _, h⟩
    · rcases bind_error.mp h with h | ⟨_, _, h⟩
      · rcases PacketMerger.merge_error h with h | h
        · cases h
        · cases h
      · cases h
    · cases h
  | inOrder q hn hq =>
    by_cases hp : Proceeds th tcb
    · rw [inOrder_proceeds hp]
      refine AssertsOnly.bind ((ackField_asserts hw now th tcb.rcv.next q.len tcb).of_iff ?_) ?_
      · rw [hq.len]
        exact ⟨fun h => ⟨hn, hp, h⟩, fun h => h.2.2⟩
      · intro r _ h
        cases r with
        | ret t => cases h
        | go t b =>
          rcases textAndFin_error h with h | h
          · cases h
          · cases h
    · obtain ⟨t, ht, -⟩ := inOrder_not_proceeds
        (p := q) hp
      rw [ht]
      exact ⟨nofun, fun h => absurd h.2.1 hp⟩

theorem step_asserts (hw : HwFeatures) (tcb : Tcb) (e : Event) :
    AssertsOnly (RetransmitsIntoClosedWindow tcb e) (step hw tcb e) := by
  obtain ⟨now, act⟩ := e
  have hok : ∀ {t : Tcb}, AssertsOnly False (.ok t : Except Fault Tcb) := ⟨nofun, nofun⟩
  have hex : ∀ {x : Except Fault Tcb}, (∃ t, x = .ok t) → AssertsOnly False x := by
    rintro x ⟨t, rfl⟩
    exact hok
  cases act with
  | segment th p =>
    simp only [step, inputHandle, RetransmitsIntoClosedWindow]
    by_cases hs : tcb.state = .synSent
    · rw [if_pos hs]
      refine ⟨fun h => ?_, fun h => absurd hs h.1⟩
      rcases inputHandleSynSentState_error h with ⟨h, -⟩ | ⟨h, -⟩ | h
      · cases h
      · cases h
      · cases h
    · rw [if_neg hs]
      refine (inputHandleOtherState_asserts hw now th p tcb).of_iff ?_
      exact ⟨fun h => ⟨hs, h⟩, fun h => h.2⟩
  | send p => exact hok
  | read => exact hok
  | waitForData => exact hok
  | abortReader => exact hok
  | close => exact hok
  | closeContinue =>
    simp only [step, RetransmitsIntoClosedWindow]
    split
    · exact hex (closeContinue_ok _ _ _)
    · exact hok
  | shutdownConnect => exact hok
  | getPacket =>
    simp only [step, RetransmitsIntoClosedWindow]
    split
    · obtain ⟨r, hr⟩ := getPacket_ok hw now tcb
      rw [hr]
      exact hok
    · exact hok
  | retransmitExpires =>
    simp only [step, RetransmitsIntoClosedWindow]
    by_cases hd : due tcb.retransmitTimer now = true
    · rw [if_pos hd]
      by_cases hs : tcb.state = .closed
      · obtain ⟨t, ht⟩ := @retransmit_closed hw now { tcb with retransmitTimer := none } hs
        rw [ht]
        exact ⟨nofun, fun h => absurd hs h.2.1⟩
      · refine ((@retransmit_asserts hw now { tcb with retransmitTimer := none } hs).of_iff
          ?_).only
        exact ⟨fun h => ⟨hd, hs, h⟩, fun h => h.2.2⟩
    · rw [if_neg hd]
      exact ⟨nofun, fun h => absurd h.1 hd⟩
  | persistExpires =>
    simp only [step, RetransmitsIntoClosedWindow]
    split
    · exact hex (persist_ok _ _ _)
    · exact hok
  | delayedAckExpires =>
    simp only [step, RetransmitsIntoClosedWindow]
    split
    · exact hok
    · exact hok
  | arpQueueFull =>
    simp only [step, RetransmitsIntoClosedWindow]
    split
    · exact hok
    · exact hok
  | arpTimeout =>
    simp only [step, RetransmitsIntoClosedWindow]
    split
    · exact hok
    · exact hok

/-- The assertion of `output_one` never fails in a run that is never made to retransmit
into a closed window; and a run that is made to does not return. -/
theorem run_closedWindow (hw : HwFeatures) (tcb : Tcb) (es : List Event) :
    (Along hw (fun s e => ¬ RetransmitsIntoClosedWindow s e) tcb es →
      run hw tcb es ≠ .error .closedWindow) ∧
    ∀ pre e post s, es = pre ++ e :: post → run hw tcb pre = .ok s →
      RetransmitsIntoClosedWindow s e → ∃ f, run hw tcb es = .error f := by
  constructor
  · intro h
    refine Run.run_ne_error (Run.Along.mono h ?_)
    intro s e hs he
    exact hs ((step_asserts hw s e).1 he)
  · rintro pre e post s rfl hpre he
    obtain ⟨f, hf⟩ := (step_asserts hw s e).2 he
    refine ⟨f, Run.run_error.mpr ⟨pre, e, post, s, rfl, hpre, hf⟩⟩

/-- A connection that sends "abc" in one segment, of which the peer acknowledges "a",
leaving `window` bytes of window, before the retransmission timer expires. -/
def partlyAcked (window : UInt8) : List Event :=
  [⟨0, .getPacket⟩,
    -- SYN, ACK, window 10
    ⟨1, .arrives [0, 80, 160, 0, 0, 0, 0, 7, 0, 0, 0, 101, 0x50, 0x12, 0, 10, 0, 0, 0, 0]⟩,
    ⟨2, .getPacket⟩,
    ⟨3, .send (Packet.ofFrags [[97, 98, 99]])⟩,
    ⟨4, .getPacket⟩,
    ⟨5, .arrives [0, 80, 160, 0, 0, 0, 0, 8, 0, 0, 0, 102, 0x50, 0x10, 0, window, 0, 0, 0, 0]⟩,
    ⟨6, .getPacket⟩,
    ⟨2000, .retransmitExpires⟩]

/-- With a window of 9 bytes left the retransmission is in order. -/
theorem partlyAcked_open :
    run {} (connect {} 0 ⟨100⟩ {}) (partlyAcked 9) ≠ .error .closedWindow :=
  (run_closedWindow {} (connect {} 0 ⟨100⟩ {}) (partlyAcked 9)).1 (by decide +kernel)

/-- With the window closed it fails the assertion. -/
theorem partlyAcked_closed :
    run {} (connect {} 0 ⟨100⟩ {}) (partlyAcked 0) = .error .closedWindow := by
  rfl

end Seastar.Net.Tcp.Tcb
