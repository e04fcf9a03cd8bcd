import Mathlib
import Seastar.Net.Tcp.ClosedWindow

/-!
What the events other than a segment do to a connection, as a sequence of small
changes: a property of runs needs to look at each kind of change once.
-/

namespace Seastar.Net.Tcp.Tcb

open Lib

/-- The user may still send, and the connection takes acknowledgements of data. -/
def Sending (tcb : Tcb) : Prop := tcb.state = .established ∨ tcb.state = .closeWait

instance (tcb : Tcb) : Decidable (Sending tcb) := inferInstanceAs (Decidable (_ ∨ _))

/-- The first unacknowledged segment was retransmitted as often as the code tries. -/
def OutOfRetries (snd : Send) : Prop := ∃ seg ∈ snd.data.head?, maxNrRetransmit ≤ seg.nrTransmits

instance (snd : Send) : Decidable (OutOfRetries snd) := by
  unfold OutOfRetries
  cases snd.data.head? with
  | none => exact .isFalse (by rintro ⟨_, ⟨⟩, _⟩)
  | some seg => exact decidable_of_iff (maxNrRetransmit ≤ seg.nrTransmits) (by simp)

/-- The event ends the sending half: `close()` goes on, or a retransmission is given up. -/
def EndsSending (tcb : Tcb) (e : Event) : Prop :=
  match e.act with
  | .closeContinue => True
  | .retransmitExpires => due tcb.retransmitTimer e.now = true ∧ OutOfRetries tcb.snd
  | _ => False

instance (tcb : Tcb) : (e : Event) → Decidable (EndsSending tcb e)
  | ⟨_, .closeContinue⟩ => .isTrue trivial
  | ⟨now, .retransmitExpires⟩ =>
    inferInstanceAs (Decidable (due tcb.retransmitTimer now = true ∧ OutOfRetries tcb.snd))
  | ⟨_, .segment _ _⟩ | ⟨_, .send _⟩ | ⟨_, .read⟩ | ⟨_, .waitForData⟩ | ⟨_, .abortReader⟩
  | ⟨_, .close⟩ | ⟨_, .shutdownConnect⟩ | ⟨_, .getPacket⟩ | ⟨_, .persistExpires⟩
  | ⟨_, .delayedAckExpires⟩ | ⟨_, .arpQueueFull⟩ | ⟨_, .arpTimeout⟩ => .isFalse id

/-- A change of a connection; `ends` says whether it may be the end of the sending half. -/
inductive Change (ends : Prop) : Tcb → Tcb → Prop
  | quiet {a b : Tcb} : Quiet a b → Change ends a b
  | received {a : Tcb} (r : Receive) (ef : List Effect) : RcvKept a.rcv r →
      Change ends a { a with rcv := r, effects := ef }
  | queued {a : Tcb} (p : Packet) : Change ends a { a with
      snd := { a.snd with
        currentQueueSpace := a.snd.currentQueueSpace + UInt64.ofNat p.len
        unsentLen := a.snd.unsentLen + UInt32.ofNat p.len
        unsent := a.snd.unsent ++ [p]
        stream := a.snd.stream ++ p.bytes } }
  | fresh {hw : HwFeatures} {now : Int} {a b : Tcb} : a.state ≠ .closed →
      outputOne hw now false a = .ok b → Change ends a b
  | retransmitted {a b : Tcb} : a.state ≠ .closed → Retransmitted a b → Change ends a b
  | counted {a : Tcb} {seg : UnackedSegment} {data : List UnackedSegment} : a.state = .closed →
      a.snd.data = seg :: data → Change ends a { a with
        snd := { a.snd with data := { seg with nrTransmits := seg.nrTransmits + 1 } :: data } }
  | handed {a : Tcb} {p : OutSegment} {packetq : List OutSegment} : a.packetq = p :: packetq →
      Change ends a { a with packetq := packetq, handed := a.handed ++ [p] }
  | cleaned {a : Tcb} : (Sending a → ends) → Change ends a (cleanup a)
  | closing {a : Tcb} (s : TcpState) : ends → (s = a.state ∨ s = .lastAck ∨ s = .finWait1) →
      Change ends a { a with state := s, snd := { a.snd with closed := true } }

/-- A sequence of changes. -/
abbrev Changes (ends : Prop) : Tcb → Tcb → Prop := Relation.ReflTransGen (Change ends)

variable {ends : Prop}

theorem Changes.quiet {a b : Tcb} (h : Quiet a b) : Changes ends a b := .single (.quiet h)

/-- A call changes the connection in these ways, or fails the assertion. -/
def ChangesOrAsserts (ends : Prop) (tcb : Tcb) (x : Except Fault Tcb) : Prop :=
  x = .error .closedWindow ∨ ∃ t, x = .ok t ∧ Changes ends tcb t

theorem ChangesOrAsserts.ok {a b : Tcb} (h : Changes ends a b) :
    ChangesOrAsserts ends a (.ok b) := Or.inr ⟨b, rfl, h⟩

theorem ChangesOrAsserts.head {a b : Tcb} {x : Except Fault Tcb} (h : Changes ends a b)
    (hx : ChangesOrAsserts ends b x) : ChangesOrAsserts ends a x := by
  rcases hx with hx | ⟨t, hx, ht⟩
  · exact Or.inl hx
  · exact Or.inr ⟨t, hx, h.trans ht⟩

theorem ChangesOrAsserts.bind {a : Tcb} {x : Except Fault Tcb} {f : Tcb → Except Fault Tcb}
    (hx : ChangesOrAsserts ends a x) (hf : ∀ b, ChangesOrAsserts ends b (f b)) :
    ChangesOrAsserts ends a (x >>= f) := by
  rcases hx with rfl | ⟨b, rfl, h⟩
  · exact Or.inl rfl
  · exact (hf b).head h

/-! ## The sending half -/

theorem outputOne_changes (hw : HwFeatures) (now : Int) (tcb : Tcb) :
    ChangesOrAsserts ends tcb (outputOne hw now false tcb) := by
  by_cases hs : tcb.state = .closed
  · rw [outputOne_closed hw now false hs]
    exact .ok .refl
  · obtain ⟨p, clone, unsent, lt, da, rt, s, ho, -⟩ := outputOne_fresh hw now hs
    rw [ho]
    exact .ok (.single (.fresh hs ho))

theorem retransmitData_changes (hw : HwFeatures) (now : Int) {tcb : Tcb}
    (hs : tcb.state ≠ .closed) (he : OutOfRetries tcb.snd → Sending tcb → ends) :
    ChangesOrAsserts ends tcb (retransmitData hw now tcb) := by
  rcases retransmitData_spec hw now hs with ⟨-, h⟩ | ⟨seg, data, hd, h⟩
  · rw [h]
    exact .ok .refl
  rcases h with ⟨hn, t, h, a, hq, rfl⟩ | ⟨-, -, h⟩ | ⟨-, -, a, b, t, h, ha, hab, hb⟩
  · rw [h]
    refine .ok (.tail (Changes.quiet hq) (.cleaned fun ha => he ⟨seg, ?_, hn⟩ ?_))
    · rw [hd]
      rfl
    · rwa [Sending, hq.state] at ha
  · exact Or.inl h
  · rw [h]
    exact .ok (.head (.quiet ha) (.head (.retransmitted (ha.state ▸ hs) hab) (Changes.quiet hb)))

/-- A closed connection sends nothing; only the count goes up. -/
theorem retransmitData_closed (hw : HwFeatures) (now : Int) {tcb : Tcb}
    (hs : tcb.state = .closed) : ChangesOrAsserts ends tcb (retransmitData hw now tcb) := by
  have hns : ∀ {a : Tcb}, Quiet tcb a → Sending a → ends := by
    intro a ha h
    rw [Sending, ha.state, hs] at h
    exact absurd h (by decide)
  rcases hd : tcb.snd.data with _ | ⟨seg, data⟩
  · rw [retransmitData, hd]
    exact .ok .refl
  rw [retransmitData, hd]
  simp only
  split
  · rw [outputOne_closed hw now true (by exact hs), ok_bind]
    refine .ok (.head (.quiet (b := { tcb with
      snd := exitFastRecovery { tcb.snd with
        ssthresh := if seg.nrTransmits = 0 then
            max (flightSize tcb.snd / 2) (2 * tcb.snd.mss.toUInt32)
          else tcb.snd.ssthresh
        recover := tcb.snd.next.back 1, cwnd := tcb.snd.mss.toUInt32 } }) ?_)
      (.head (.counted hs hd) (Changes.quiet (outputUpdateRto_quiet now _))))
    constructor <;> rfl
  · refine .ok (.tail (Changes.quiet ?_) (.cleaned (hns ?_)))
    · constructor <;> rfl
    · constructor <;> rfl

theorem retransmitFin_changes (hw : HwFeatures) (now : Int) {tcb : Tcb}
    (he : OutOfRetries tcb.snd → Sending tcb → ends) :
    ChangesOrAsserts ends tcb (retransmitFin hw now tcb) := by
  have hdata : ∀ {a : Tcb}, Quiet tcb a → ChangesOrAsserts ends tcb (retransmitData hw now a) := by
    intro a ha
    refine .head (Changes.quiet ha) ?_
    by_cases hs : a.state = .closed
    · exact retransmitData_closed hw now hs
    · refine retransmitData_changes hw now hs ?_
      rw [OutOfRetries, Sending, ha.data, ha.state]
      exact he
  unfold retransmitFin
  split
  · rename_i hf
    simp only
    split
    · refine hdata (Quiet.trans ?_ (outputUpdateRto_quiet now _))
      constructor <;> rfl
    · refine .ok (.tail (Changes.quiet ?_) (.cleaned fun ha => ?_))
      · constructor <;> rfl
      · -- a FIN is only sent once the connection is closing
        exfalso
        rcases ha with ha | ha
        · have hst : tcb.state = .established := ha
          simp [finNeedsOn, hst] at hf
        · have hst : tcb.state = .closeWait := ha
          simp [finNeedsOn, hst] at hf
  · exact hdata (.refl tcb)

theorem retransmit_changes (hw : HwFeatures) (now : Int) {tcb : Tcb}
    (he : OutOfRetries tcb.snd → Sending tcb → ends) :
    ChangesOrAsserts ends tcb (retransmit hw now tcb) := by
  unfold retransmit
  split
  · rename_i hf
    simp only
    split
    · have hq : Quiet tcb (outputUpdateRto now { tcb with
          snd := { tcb.snd with synRetransmit := tcb.snd.synRetransmit + 1 } }) := by
        refine Quiet.trans ?_ (outputUpdateRto_quiet now _)
        constructor <;> rfl
      refine .head (Changes.quiet hq) (retransmitFin_changes hw now ?_)
      rw [OutOfRetries, Sending, hq.data, hq.state]
      exact he
    · refine .ok (.tail (Changes.quiet ?_) (.cleaned fun ha => ?_))
      · constructor <;> rfl
      · -- nor is a SYN sent by a connection that is established
        exfalso
        rcases ha with ha | ha
        · have hst : tcb.state = .established := ha
          simp [synNeedsOn, hst] at hf
        · have hst : tcb.state = .closeWait := ha
          simp [synNeedsOn, hst] at hf
  · exact retransmitFin_changes hw now he

theorem persist_changes (hw : HwFeatures) (now : Int) (tcb : Tcb) :
    ChangesOrAsserts ends tcb (persist hw now tcb) := by
  unfold persist
  refine .head (Changes.quiet ?_) ((outputOne_changes hw now _).bind fun b => ?_)
  · constructor <;> rfl
  · refine .ok (Changes.quiet ?_)
    have hb : Quiet b { b with snd := { b.snd with windowProbe := false } } := by
      constructor <;> rfl
    have ho := hb.trans (output_quiet { b with snd := { b.snd with windowProbe := false } })
    exact ho.trans (by constructor <;> rfl)

theorem getPacket_changes (hw : HwFeatures) (now : Int) (tcb : Tcb) :
    ChangesOrAsserts ends tcb ((getPacket hw now tcb).map Prod.snd) := by
  obtain ⟨t, ht, hq⟩ := fillPacketq_ok hw now { tcb with pollActive := false }
  have hfill : Changes ends tcb t := by
    refine .head (.quiet (b := { tcb with pollActive := false }) (by constructor <;> rfl)) ?_
    unfold fillPacketq at ht
    split at ht
    · rcases outputOne_changes hw now { tcb with pollActive := false } with h | ⟨u, h, hu⟩
      · rw [ht] at h
        cases h
      · rw [ht] at h
        rwa [Except.ok.inj h]
    · obtain rfl := Except.ok.inj ht
      exact .refl
  refine .head hfill ?_
  rw [getPacket, ht, ok_bind]
  rcases takePacket_ok hq with ⟨-, h⟩ | ⟨-, p, packetq, u, hp, h, hu⟩
  · rw [h]
    exact .ok .refl
  · rw [h]
    exact .ok (.head (.handed hp) (Changes.quiet hu))

theorem send_changes (p : Packet) (tcb : Tcb) : Changes ends tcb (tcb.send p) := by
  unfold send
  split
  · exact .refl
  refine .head (.queued p) (Changes.quiet ?_)
  simp only
  have hwait : ∀ t : Tcb, Quiet t (waitSendAvailable t) := by
    intro t
    unfold waitSendAvailable
    split
    · exact .refl t
    · constructor <;> rfl
  have hmay := mayTransmit_quiet { tcb with
    snd := { tcb.snd with
      currentQueueSpace := tcb.snd.currentQueueSpace + UInt64.ofNat p.len
      unsentLen := tcb.snd.unsentLen + UInt32.ofNat p.len
      unsent := tcb.snd.unsent ++ [p]
      stream := tcb.snd.stream ++ p.bytes } }
  refine hmay.trans (Quiet.trans ?_ (hwait _))
  split
  · exact output_quiet _
  · exact .refl _

theorem close_changes (tcb : Tcb) : Quiet tcb (close tcb) := by
  unfold close
  split
  · exact .refl tcb
  split
  · constructor <;> rfl
  · constructor <;> rfl

theorem closeContinue_changes (hw : HwFeatures) (now : Int) (tcb : Tcb) (he : ends) :
    ChangesOrAsserts ends tcb (closeContinue hw now tcb) := by
  have hfin : ∀ b : Tcb, ChangesOrAsserts ends b (outputOne hw now false b >>= fun t => .ok (output t)) :=
    fun b => (outputOne_changes hw now b).bind fun t => .ok (Changes.quiet (output_quiet t))
  unfold closeContinue
  simp only
  split
  · exact .head (.single (.closing .lastAck he (Or.inr (Or.inl rfl)))) (hfin _)
  split
  · exact .head (.single (.closing .finWait1 he (Or.inr (Or.inr rfl)))) (hfin _)
  · exact .head (.single (.closing tcb.state he (Or.inl rfl))) (hfin _)

theorem abortReader_changes (tcb : Tcb) : Changes ends tcb (abortReader tcb) := by
  obtain ⟨pr, ef, h⟩ := failDataReceived_eq .abortedError tcb
  rw [abortReader, h]
  exact .single (.received _ _ ⟨rfl, rfl, Or.inl rfl, Or.inl ⟨rfl, rfl⟩⟩)

/-! ## Segments -/

/-- No segment takes a connection back to SYN_SENT. -/
theorem ackFin_state {th : TcpHdr} {doOutputData : Bool} {tcb : Tcb} (hs : tcb.state ≠ .synSent) :
    (ackFin th doOutputData tcb).tcb.state ≠ .synSent := by
  have hwait : TcpState.finWait2 ≠ .synSent := by decide
  have htime : TcpState.timeWait ≠ .synSent := by decide
  have hclosed : TcpState.closed ≠ .synSent := by decide
  rw [ackFin]
  by_cases hf : th.ack = tcb.snd.next.add 1
  · simp only [if_pos hf]
    by_cases h₁ : tcb.state = .finWait1
    · rw [if_pos h₁]
      exact hwait
    by_cases h₂ : tcb.state = .closing
    · rw [if_neg h₁, if_pos h₂]
      exact htime
    by_cases h₃ : tcb.state = .lastAck
    · rw [if_neg h₁, if_neg h₂, if_pos h₃]
      exact hclosed
    · rw [if_neg h₁, if_neg h₂, if_neg h₃]
      exact hs
  · simp only [if_neg hf, ite_self]
    by_cases h₂ : tcb.state = .closing
    · have h₁ : tcb.state ≠ .finWait1 := by simp [h₂]
      rw [if_neg h₁, if_pos h₂]
      exact hs
    · rw [if_neg h₂, ite_self]
      exact hs

theorem ackField_state {hw : HwFeatures} {now : Int} {th : TcpHdr} {segSeq : TcpSeq} {segLen : Nat}
    {tcb : Tcb} {r : Flow} (h : ackField hw now th segSeq segLen tcb = .ok r)
    (hs : tcb.state ≠ .synSent) : r.tcb.state ≠ .synSent := by
  have hest : TcpState.established ≠ .synSent := by decide
  by_cases hsr : tcb.state = .synReceived
  · by_cases hack : tcb.snd.unacknowledged.le th.ack = true ∧ th.ack.le tcb.snd.next = true
    · rw [ackField_synReceived hw now segSeq segLen hsr hack] at h
      obtain ⟨_, _, _, _, _, hd⟩ := doEstablished_eq now tcb
      rw [hd] at h
      rw [(ackEstablished_moves (show TcpState.established ≠ .closed by decide) h).frame.2]
      exact hest
    · rw [ackField, ackSynReceived, if_pos hsr, if_neg (by simpa using hack)] at h
      obtain rfl := Except.ok.inj h
      exact hs
  rw [ackField_other hw now th segSeq segLen hsr] at h
  by_cases hst : (tcb.state = .established || tcb.state = .closeWait) = true
  · rw [if_pos hst] at h
    rw [(ackEstablished_moves (fun hc => by simp [hc] at hst) h).frame.2]
    exact hs
  · rw [if_neg hst] at h
    obtain rfl := Except.ok.inj h
    exact ackFin_state hs

theorem inputHandleOtherState_state {hw : HwFeatures} {now : Int} {th : TcpHdr} {p : Packet}
    {tcb t : Tcb} (h : inputHandleOtherState hw now th p tcb = .ok t) (hs : tcb.state ≠ .synSent) :
    t.state ≠ .synSent := by
  have hd := inputHandleOtherState_dispatched hw now th p tcb
  rw [h] at hd
  generalize hx : (Except.ok t : Except Fault Tcb) = x at hd
  cases hd with
  | short _ => cases hx
  | unacceptable _ _ =>
    rw [Except.ok.inj hx, (output_quiet tcb).state]
    exact hs
  | outOfOrder q _ _ _ _ =>
    obtain ⟨rcv, -, hx⟩ := bind_ok.mp hx.symm
    rw [← Except.ok.inj hx, (output_quiet { tcb with rcv := rcv }).state]
    exact hs
  | inOrder q _ _ =>
    by_cases hp : Proceeds th tcb
    · rw [inOrder_proceeds hp] at hx
      obtain ⟨r, hr, hx⟩ := bind_ok.mp hx.symm
      have hrs := ackField_state hr hs
      cases r with
      | ret u =>
        obtain rfl := Except.ok.inj hx
        exact hrs
      | go u b =>
        rcases textAndFin_transition hx with ⟨-, h | ⟨-, h⟩ | ⟨-, h⟩⟩ | ⟨-, h⟩
        · rw [h]
          exact hrs
        all_goals
          rw [h]
          exact nofun
    · obtain ⟨u, hu, he⟩ := inOrder_not_proceeds
        (p := q) hp
      rw [hu] at hx
      obtain rfl := Except.ok.inj hx
      rcases he with rfl | he
      · exact hs
      · rw [he.state]
        exact nofun

/-- A segment on a closed connection changes at most what was received. -/
theorem inputHandleOtherState_closed {hw : HwFeatures} {now : Int} {th : TcpHdr} {p : Packet}
    {tcb t : Tcb} (h : inputHandleOtherState hw now th p tcb = .ok t) (hs : tcb.state = .closed) :
    (SndKept tcb t ∧ t.state = .closed) ∨ Ended tcb t := by
  have hd := inputHandleOtherState_dispatched hw now th p tcb
  rw [h] at hd
  generalize hx : (Except.ok t : Except Fault Tcb) = x at hd
  cases hd with
  | short _ => cases hx
  | unacceptable _ _ =>
    obtain rfl := Except.ok.inj hx
    have hq := output_quiet tcb
    exact Or.inl ⟨hq.sndKept, hq.state.trans hs⟩
  | outOfOrder q _ _ _ _ =>
    obtain ⟨rcv, -, hx⟩ := bind_ok.mp hx.symm
    obtain rfl := Except.ok.inj hx
    have hq := output_quiet { tcb with rcv := rcv }
    exact Or.inl ⟨⟨hq.sndKept.snd, hq.packetq, hq.handed⟩, hq.state.trans hs⟩
  | inOrder q _ _ =>
    by_cases hp : Proceeds th tcb
    · rw [inOrder_proceeds hp, ackField_other hw now th tcb.rcv.next q.len (by rw [hs]; decide),
        if_neg (by rw [hs]; decide), ok_bind, ackFin] at hx
      simp only [hs, reduceCtorEq, if_false] at hx
      rcases textAndFin_transition hx.symm with ⟨hk, h | ⟨h | h, -⟩ | ⟨h, -⟩⟩ | ⟨h, -⟩
      · exact Or.inl ⟨hk, h.trans hs⟩
      all_goals
        rw [hs] at h
        cases h
    · obtain ⟨u, hu, he⟩ := inOrder_not_proceeds
        (p := q) hp
      rw [hu] at hx
      obtain rfl := Except.ok.inj hx
      rcases he with rfl | he
      · exact Or.inl ⟨(Quiet.refl _).sndKept, hs⟩
      · exact Or.inr he

/-- A segment on a connection that sends: it moves the sending half as its ACK field says,
or resets the connection. -/
theorem inputHandleOtherState_sending {hw : HwFeatures} {now : Int} {th : TcpHdr} {p : Packet}
    {tcb t : Tcb} (h : inputHandleOtherState hw now th p tcb = .ok t) (hs : Sending tcb) :
    (∃ u, Moves tcb u ∧ SndKept u t ∧ Sending t) ∨ Ended tcb t := by
  have hd := inputHandleOtherState_dispatched hw now th p tcb
  rw [h] at hd
  generalize hx : (Except.ok t : Except Fault Tcb) = x at hd
  cases hd with
  | short _ => cases hx
  | unacceptable _ _ =>
    obtain rfl := Except.ok.inj hx
    have hq := output_quiet tcb
    exact Or.inl ⟨_, Moves.quiet hq, (Quiet.refl _).sndKept, by rwa [Sending, hq.state]⟩
  | outOfOrder q _ _ _ _ =>
    obtain ⟨rcv, -, hx⟩ := bind_ok.mp hx.symm
    obtain rfl := Except.ok.inj hx
    have hq := output_quiet { tcb with rcv := rcv }
    exact Or.inl ⟨tcb, .refl, ⟨hq.sndKept.snd, hq.packetq, hq.handed⟩, by rwa [Sending, hq.state]⟩
  | inOrder q _ _ =>
    by_cases hp : Proceeds th tcb
    · rw [inOrder_proceeds hp] at hx
      obtain ⟨r, hr, hx⟩ := bind_ok.mp hx.symm
      have hsr : tcb.state ≠ .synReceived := by
        rcases hs with hs | hs
        · rw [hs]; decide
        · rw [hs]; decide
      rw [ackField_other hw now th tcb.rcv.next q.len hsr, if_pos (by simpa [Sending] using hs)] at hr
      have hm := ackEstablished_moves (fun hc => by rw [Sending, hc] at hs; exact absurd hs (by decide)) hr
      have hsend : Sending r.tcb := by rwa [Sending, hm.frame.2]
      cases r with
      | ret u =>
        obtain rfl := Except.ok.inj hx
        exact Or.inl ⟨_, hm, (Quiet.refl _).sndKept, hsend⟩
      | go u b =>
        have hu : Sending u := hsend
        rcases textAndFin_transition hx with ⟨hk, h | ⟨-, h⟩ | ⟨h1, -⟩⟩ | ⟨h2, -⟩
        · exact Or.inl ⟨u, hm, hk, by rwa [Sending, h]⟩
        · exact Or.inl ⟨u, hm, hk, Or.inr h⟩
        · rw [Sending, h1] at hu
          exact absurd hu (by decide)
        · rw [Sending, h2] at hu
          exact absurd hu (by decide)
    · obtain ⟨u, hu, he⟩ := inOrder_not_proceeds
        (p := q) hp
      rw [hu] at hx
      obtain rfl := Except.ok.inj hx
      rcases he with rfl | he
      · exact Or.inl ⟨_, .refl, (Quiet.refl _).sndKept, hs⟩
      · exact Or.inr he

/-! ## One event -/

/-- What one event other than a segment does. -/
theorem step_changes (hw : HwFeatures) (tcb : Tcb) {e : Event}
    (he : ∀ th p, e.act ≠ .segment th p) :
    ChangesOrAsserts (EndsSending tcb e) tcb (step hw tcb e) := by
  obtain ⟨now, act⟩ := e
  unfold step
  cases act with
  | segment th p => exact absurd rfl (he th p)
  | send p => exact .ok (send_changes p tcb)
  | read =>
    exact .ok (.single (.received (a := tcb) _ tcb.effects
      ⟨rfl, rfl, Or.inl rfl, Or.inr ⟨rfl, rfl⟩⟩))
  | waitForData =>
    simp only [waitForData]
    split
    · exact .ok .refl
    · exact .ok (.single (.received (a := tcb) _ tcb.effects
        ⟨rfl, rfl, Or.inl rfl, Or.inl ⟨rfl, rfl⟩⟩))
  | abortReader => exact .ok (abortReader_changes tcb)
  | close => exact .ok (Changes.quiet (close_changes tcb))
  | closeContinue =>
    simp only
    split
    · refine .head (Changes.quiet ?_) (closeContinue_changes hw now _ trivial)
      constructor <;> rfl
    · exact .ok .refl
  | shutdownConnect =>
    simp only [shutdownConnect]
    split
    · rename_i hf
      refine .ok (.head (.quiet (b := emit (.wake .connectDone .refusedError) tcb) ?_)
        (.single (.cleaned fun ha => ?_)))
      · constructor <;> rfl
      · exfalso
        rcases ha with ha | ha
        · have hst : tcb.state = .established := ha
          simp [synNeedsOn, hst] at hf
        · have hst : tcb.state = .closeWait := ha
          simp [synNeedsOn, hst] at hf
    · exact .ok ((abortReader_changes tcb).trans (Changes.quiet (close_changes _)))
  | getPacket =>
    simp only
    split
    · exact getPacket_changes hw now tcb
    · exact .ok .refl
  | retransmitExpires =>
    simp only
    split
    · rename_i hd
      refine .head (Changes.quiet (b := { tcb with retransmitTimer := none }) ?_)
        (retransmit_changes hw now fun ho _ => ⟨hd, ho⟩)
      constructor <;> rfl
    · exact .ok .refl
  | persistExpires =>
    simp only
    split
    · refine .head (Changes.quiet (b := { tcb with persistTimer := none }) ?_)
        (persist_changes hw now _)
      constructor <;> rfl
    · exact .ok .refl
  | delayedAckExpires =>
    simp only
    split
    · refine .ok (.head (.quiet (b := { tcb with delayedAck := none, nrFullSegReceived := 0 }) ?_)
        (Changes.quiet (output_quiet _)))
      constructor <;> rfl
    · exact .ok .refl
  | arpQueueFull =>
    simp only
    split
    · exact .ok (Changes.quiet (by constructor <;> rfl))
    · exact .ok .refl
  | arpTimeout =>
    simp only
    split
    · rename_i hf
      refine .ok (.head (.quiet (b := emit (.wake .connectDone .arpTimeoutError) tcb) ?_)
        (.single (.cleaned fun ha => ?_)))
      · constructor <;> rfl
      · exfalso
        rcases ha with ha | ha
        · have hst : tcb.state = .established := ha
          simp [hst] at hf
        · have hst : tcb.state = .closeWait := ha
          simp [hst] at hf
    · exact .ok .refl

end Seastar.Net.Tcp.Tcb
