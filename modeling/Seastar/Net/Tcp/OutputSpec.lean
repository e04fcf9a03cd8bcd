import Seastar.Lib.UInt
import Seastar.Net.Tcp.Output

/-!
What each operation of the sending half changes, and what it leaves alone. The
proofs about runs use these equations and never open the definitions again.
-/

namespace Seastar.Net.Tcp.Tcb

open Lib

/-! ## Bookkeeping -/

theorem output_eq (tcb : Tcb) :
    ∃ pa ef, output tcb = { tcb with pollActive := pa, effects := ef } := by
  unfold output
  split
  · exact ⟨_, _, rfl⟩
  · exact ⟨_, _, rfl⟩

theorem signalDataReceived_eq (tcb : Tcb) :
    ∃ ef, signalDataReceived tcb =
      { tcb with rcv := { tcb.rcv with dataReceivedPromise := false }, effects := ef } := by
  unfold signalDataReceived
  split
  · exact ⟨_, rfl⟩
  · rename_i h
    rw [Bool.not_eq_true] at h
    exact ⟨tcb.effects, by rw [← h]⟩

theorem signalAllDataAcked_eq (tcb : Tcb) :
    ∃ pr ct ef, signalAllDataAcked tcb =
      { tcb with
        snd := { tcb.snd with allDataAckedPromise := pr }, closeTasks := ct, effects := ef } := by
  unfold signalAllDataAcked
  split
  · exact ⟨_, _, _, rfl⟩
  · exact ⟨_, _, _, rfl⟩

theorem signalSendAvailable_eq (tcb : Tcb) :
    ∃ pr ef, signalSendAvailable tcb =
      { tcb with snd := { tcb.snd with sendAvailablePromise := pr }, effects := ef } := by
  unfold signalSendAvailable
  split
  · exact ⟨_, _, rfl⟩
  · exact ⟨_, _, rfl⟩

theorem updateRto_eq (now txTime : Int) (tcb : Tcb) :
    ∃ fs rv sr rto, updateRto now txTime tcb =
      { tcb with
        snd := { tcb.snd with firstRtoSample := fs, rttvar := rv, srtt := sr }, rto := rto } := by
  unfold updateRto
  split
  · exact ⟨_, _, _, _, rfl⟩
  · exact ⟨_, _, _, _, rfl⟩

theorem failDataReceived_eq (o : Outcome) (tcb : Tcb) :
    ∃ pr ef, failDataReceived o tcb =
      { tcb with rcv := { tcb.rcv with dataReceivedPromise := pr }, effects := ef } := by
  unfold failDataReceived
  split
  · exact ⟨_, _, rfl⟩
  · exact ⟨_, _, rfl⟩

theorem failSend_eq (tcb : Tcb) :
    ∃ pa ps ef, failSend tcb =
      { tcb with
        snd := { tcb.snd with allDataAckedPromise := pa, sendAvailablePromise := ps }
        effects := ef } := by
  unfold failSend
  split
  · simp only
    split
    · exact ⟨_, _, _, rfl⟩
    · exact ⟨_, _, _, rfl⟩
  · simp only
    split
    · exact ⟨_, _, _, rfl⟩
    · exact ⟨_, _, _, rfl⟩

theorem doReset_eq (tcb : Tcb) :
    ∃ pd ps pa ef, doReset tcb =
      { tcb with
        state := .closed
        snd := { tcb.snd with
          unsent := [], data := [], allDataAckedPromise := pa, sendAvailablePromise := ps }
        rcv := { tcb.rcv with
          outOfOrder := [], dataSize := 0, data := [], dataReceivedPromise := pd }
        retransmitTimer := none
        delayedAck := none
        effects := ef } := by
  obtain ⟨pd, ef, h⟩ := failDataReceived_eq .resetError (cleanup { tcb with state := .closed })
  obtain ⟨pa, ps, ef', h'⟩ := failSend_eq
    (failDataReceived .resetError (cleanup { tcb with state := .closed }))
  rw [doReset, h', h]
  exact ⟨_, _, _, _, rfl⟩

/-! ## New data -/

theorem canSend_eq (snd : Send) :
    ∃ lt, (canSend snd).2 = { snd with limitedTransfer := lt } := by
  unfold canSend
  simp only
  split
  · exact ⟨_, rfl⟩
  split
  · exact ⟨_, rfl⟩
  split
  · exact ⟨_, rfl⟩
  split
  · exact ⟨_, rfl⟩
  split
  · exact ⟨_, rfl⟩
  · exact ⟨_, rfl⟩

/-- Into a closed window only a probe may be sent. -/
theorem canSend_closed {snd : Send} (h : snd.window = 0) : (canSend snd).1.toNat ≤ 1 := by
  unfold canSend
  split
  · exact Nat.le_refl 1
  · exact Nat.zero_le 1

/-- The bytes of a queue of packets. -/
def bytesOf (ps : List Packet) : Bytes := (ps.map Packet.bytes).flatten

@[simp] theorem bytesOf_nil : bytesOf [] = [] := rfl

@[simp] theorem bytesOf_cons (p : Packet) (ps : List Packet) :
    bytesOf (p :: ps) = p.bytes ++ bytesOf ps := rfl

@[simp] theorem bytesOf_append (ps qs : List Packet) :
    bytesOf (ps ++ qs) = bytesOf ps ++ bytesOf qs := by
  simp [bytesOf]

/-- Cutting a packet in two at `x`. -/
theorem split_packet {q : Packet} {x : Nat} (h : x ≤ q.len) :
    ∃ s r, q.share 0 x = .ok s ∧ q.trimFront x = .ok r ∧ s.len = x ∧
      s.bytes ++ r.bytes = q.bytes := by
  obtain ⟨s, hs⟩ := (Packet.share_isOk_iff q 0 x).mpr (by omega)
  obtain ⟨r, hr, hrb, -⟩ := Packet.trimFront_ok h
  refine ⟨s, r, hs, hr, Packet.share_len hs, ?_⟩
  rw [Packet.share_spec hs, hrb, List.drop_zero, List.take_append_drop]

/-- Merging cuts a prefix of at most `x` further bytes off the queue. -/
theorem mergeUnsent_spec (p : Packet) (x : Nat) (unsent : List Packet) :
    ∃ q rest, mergeUnsent p x unsent = .ok (q, rest) ∧ q.len ≤ p.len + x ∧
      q.bytes ++ bytesOf rest = p.bytes ++ bytesOf unsent := by
  induction unsent generalizing p x with
  | nil => exact ⟨p, [], rfl, Nat.le_add_right _ _, rfl⟩
  | cons u unsent ih =>
    rw [mergeUnsent]
    split
    · rename_i hu
      obtain ⟨q, rest, hq, hl, hb⟩ := ih (p.append u) (x - u.len)
      refine ⟨q, rest, hq, ?_, ?_⟩
      · rw [Packet.len_append] at hl
        omega
      · rw [hb, Packet.bytes_append, List.append_assoc, bytesOf_cons]
    · split
      · rename_i hu hx
        obtain ⟨s, r, hs, hr, hl, hb⟩ := split_packet (q := u) (x := x) (by omega)
        refine ⟨p.append s, r :: unsent, by rw [hs, hr]; rfl, ?_, ?_⟩
        · rw [Packet.len_append, hl]
        · rw [Packet.bytes_append, bytesOf_cons, bytesOf_cons, ← hb, List.append_assoc,
            List.append_assoc]
      · exact ⟨p, u :: unsent, rfl, Nat.le_add_right _ _, rfl⟩

/-- A payload fits the 16-bit length of a segment. -/
theorem maxPayload_le (hw : HwFeatures) (snd : Send) : (maxPayload hw snd).toNat < 2 ^ 16 := by
  unfold maxPayload
  split
  · decide
  · rw [UInt16.toNat_toUInt32]
    exact UInt16.toNat_lt _

/-- `get_transmit_packet` always succeeds, and cuts a prefix of at most `can_send()` bytes
off the unsent data. -/
theorem getTransmitPacket_spec (hw : HwFeatures) (snd : Send) :
    ∃ p unsent lt, getTransmitPacket hw snd = .ok (p,
        { snd with
          unsent := unsent
          unsentLen := snd.unsentLen - UInt32.ofNat p.len
          limitedTransfer := lt }) ∧
      p.len ≤ (canSend snd).1.toNat ∧ p.len < 2 ^ 16 ∧
      p.bytes ++ bytesOf unsent = bytesOf snd.unsent := by
  obtain ⟨lt, hlt⟩ := canSend_eq snd
  have hmax := maxPayload_le hw (canSend snd).2
  have hx : (min (canSend snd).1 (maxPayload hw (canSend snd).2)).toNat ≤ (canSend snd).1.toNat ∧
      (min (canSend snd).1 (maxPayload hw (canSend snd).2)).toNat < 2 ^ 16 := by
    rw [UInt.toNat_min]
    exact ⟨Nat.min_le_left _ _, Nat.lt_of_le_of_lt (Nat.min_le_right _ _) hmax⟩
  unfold getTransmitPacket
  split
  · rename_i hu
    refine ⟨Packet.empty, [], snd.limitedTransfer, ?_, Nat.zero_le _, by decide, by rw [hu]; rfl⟩
    rw [Packet.len_empty]
    simp [← hu]
  · rename_i front rest hu
    simp only
    generalize (min (canSend snd).1 (maxPayload hw (canSend snd).2)).toNat = x at hx ⊢
    rw [hlt]
    split
    · rename_i h
      simp only [Bool.and_eq_true, decide_eq_true_eq, List.isEmpty_iff] at h
      refine ⟨front, [], lt, rfl, by omega, by omega, ?_⟩
      rw [hu, h.1]
      rfl
    · split
      · rename_i h
        obtain ⟨s, r, hs, hr, hl, hb⟩ := split_packet (q := front) (x := x) (by omega)
        refine ⟨s, r :: rest, lt, by rw [hs, hr]; rfl, by omega, by omega, ?_⟩
        rw [hu, bytesOf_cons, bytesOf_cons, ← hb, List.append_assoc]
      · obtain ⟨q, rest', hq, hl, hb⟩ := mergeUnsent_spec front (x - front.len) rest
        refine ⟨q, rest', lt, by rw [hq]; rfl, by omega, by omega, ?_⟩
        rw [hu, hb, bytesOf_cons]

/-! ## `output_one` -/

@[simp] theorem outputOne_closed (hw : HwFeatures) (now : Int) (r : Bool) {tcb : Tcb}
    (h : tcb.state = .closed) : outputOne hw now r tcb = .ok tcb := by
  rw [outputOne, if_pos h]

/-- A segment carries its packet, at SND.UNA when it is a retransmission and else at
SND.NXT, or at ISS for a SYN. -/
theorem buildSegment_eq (hw : HwFeatures) (r : Bool) (p : Packet) (tcb : Tcb) :
    ∃ da s, buildSegment hw r p tcb = .ok (s,
        { tcb with
          delayedAck := da
          snd := { tcb.snd with
            next := if r then tcb.snd.next
              else tcb.snd.next.add (UInt16.ofNat p.len).toUInt32 } }) ∧
      s.payload = p ∧
      s.hdr.seq = if r then tcb.snd.unacknowledged
        else if tcb.synNeedsOn then tcb.snd.initial else tcb.snd.next := by
  have hcda : (if tcb.ackNeedsOn then clearDelayedAck tcb else tcb) =
      { tcb with delayedAck := if tcb.ackNeedsOn then none else tcb.delayedAck } := by
    split <;> rfl
  obtain ⟨bs, hbs⟩ := TcpOption.fill_getSize tcb.option tcb.synNeedsOn tcb.ackNeedsOn
  unfold buildSegment
  rw [hcda]
  cases r with
  | true => exact ⟨_, _, bind_ok.mpr ⟨bs, hbs, rfl⟩, rfl, rfl⟩
  | false => exact ⟨_, _, bind_ok.mpr ⟨bs, hbs, rfl⟩, rfl, rfl⟩

/-- A retransmission sends a copy of the first unacknowledged packet at SND.UNA, unless
that is more than a probe into a closed window. -/
theorem outputOne_retransmit (hw : HwFeatures) (now : Int) {tcb : Tcb} {seg : UnackedSegment}
    {data : List UnackedSegment} (hs : tcb.state ≠ .closed) (hd : tcb.snd.data = seg :: data) :
    ∃ da s, s.hdr.seq = tcb.snd.unacknowledged ∧ s.payload.bytes = seg.p.bytes ∧
      outputOne hw now true tcb =
        if tcb.snd.window > 0 || UInt16.ofNat seg.p.len ≤ 1 then
          .ok { tcb with delayedAck := da, packetq := tcb.packetq ++ [s] }
        else .error .closedWindow := by
  obtain ⟨p, hp, hb, hl⟩ := seg.p.shareAll_ok
  obtain ⟨c, hc, -, -⟩ := p.shareAll_ok
  obtain ⟨da, s, hbs, hsp, hseq⟩ := buildSegment_eq hw true p tcb
  refine ⟨da, s, hseq, by rw [hsp, hb], ?_⟩
  rw [outputOne, if_neg hs, payloadToSend, if_pos rfl, hd]
  simp only [hp, ok_bind, hc, hbs, Bool.not_true, Bool.false_and, Bool.false_eq_true, if_false]
  rw [queuePacket, hsp, hl]
  rfl

theorem rememberSent_eq (now : Int) (clone : Packet) (len : UInt16) (tcb : Tcb) :
    ∃ rt, rememberSent now clone len tcb =
      { tcb with
        retransmitTimer := rt
        snd := { tcb.snd with
          data := tcb.snd.data ++ if len = 0 then [] else [⟨clone, len, 0, now⟩] } } := by
  unfold rememberSent
  by_cases h : len = 0
  · rw [if_neg (not_not.mpr h), if_pos h, List.append_nil]
    simp only
    split
    · exact ⟨_, rfl⟩
    · exact ⟨_, rfl⟩
  · rw [if_pos h, if_neg h]
    simp only
    split
    · exact ⟨_, rfl⟩
    · exact ⟨_, rfl⟩

/-- The unacknowledged segment a payload becomes. -/
def sentSegments (now : Int) (p clone : Packet) : List UnackedSegment :=
  if p.len = 0 then [] else [⟨clone, UInt16.ofNat p.len, 0, now⟩]

/-- New data never meets the assertion: `output_one` cuts a prefix off the unsent data,
sends it at SND.NXT and remembers it. -/
theorem outputOne_fresh (hw : HwFeatures) (now : Int) {tcb : Tcb} (hs : tcb.state ≠ .closed) :
    ∃ p clone unsent lt da rt s,
      outputOne hw now false tcb = .ok
        { tcb with
          snd := { tcb.snd with
            unsent := unsent
            unsentLen := tcb.snd.unsentLen - UInt32.ofNat p.len
            limitedTransfer := lt
            next := tcb.snd.next.add (UInt32.ofNat p.len)
            data := tcb.snd.data ++ sentSegments now p clone }
          delayedAck := da
          retransmitTimer := rt
          packetq := tcb.packetq ++ [s] } ∧
      s.hdr.seq = (if tcb.synNeedsOn then tcb.snd.initial else tcb.snd.next) ∧
      s.payload = p ∧ clone.bytes = p.bytes ∧
      p.len ≤ (canSend tcb.snd).1.toNat ∧ p.len < 2 ^ 16 ∧
      p.bytes ++ bytesOf unsent = bytesOf tcb.snd.unsent := by
  obtain ⟨p, unsent, lt, hp, hcan, hlen, hb⟩ := getTransmitPacket_spec hw tcb.snd
  obtain ⟨c, hc, hcb, -⟩ := p.shareAll_ok
  have hl32 : (UInt16.ofNat p.len).toUInt32 = UInt32.ofNat p.len := by
    apply UInt32.toNat_inj.mp
    rw [UInt16.toNat_toUInt32, UInt16.toNat_ofNat', UInt32.toNat_ofNat']
    omega
  have hl0 : UInt16.ofNat p.len = 0 ↔ p.len = 0 := by
    rw [← UInt16.toNat_inj, UInt16.toNat_ofNat']
    show p.len % 2 ^ 16 = 0 ↔ _
    omega
  have hok : (tcb.snd.window > 0 || decide (UInt16.ofNat p.len ≤ 1)) = true := by
    rw [Bool.or_eq_true, decide_eq_true_eq, decide_eq_true_eq]
    by_cases hw0 : tcb.snd.window = 0
    · right
      have := canSend_closed hw0
      rw [UInt16.le_iff_toNat_le, UInt16.toNat_ofNat']
      show p.len % 2 ^ 16 ≤ 1
      omega
    · left
      exact UInt32.pos_iff_ne_zero.mpr hw0
  have hsent : (if UInt16.ofNat p.len = 0 then [] else [⟨c, UInt16.ofNat p.len, 0, now⟩]) =
      sentSegments now p c := by
    simp only [sentSegments, hl0]
  generalize hsnd : ({ tcb.snd with
    unsent := unsent, unsentLen := tcb.snd.unsentLen - UInt32.ofNat p.len,
    limitedTransfer := lt } : Send) = snd at hp
  obtain ⟨da, s, hbs, hsp, hseq⟩ := buildSegment_eq hw false p { tcb with snd := snd }
  have hrem : ∃ rt, (if !false && (decide (UInt16.ofNat p.len ≠ 0) || s.hdr.fSyn || s.hdr.fFin) then
        rememberSent now c (UInt16.ofNat p.len)
          { { tcb with snd := snd } with
            delayedAck := da
            snd := { snd with next := snd.next.add (UInt16.ofNat p.len).toUInt32 } }
      else
        { { tcb with snd := snd } with
          delayedAck := da
          snd := { snd with next := snd.next.add (UInt16.ofNat p.len).toUInt32 } }) =
      { tcb with
        delayedAck := da
        retransmitTimer := rt
        snd := { snd with
          next := snd.next.add (UInt16.ofNat p.len).toUInt32
          data := snd.data ++ sentSegments now p c } } := by
    rw [← hsent]
    split
    · obtain ⟨rt, hrt⟩ := rememberSent_eq now c (UInt16.ofNat p.len)
        { { tcb with snd := snd } with
          delayedAck := da
          snd := { snd with next := snd.next.add (UInt16.ofNat p.len).toUInt32 } }
      exact ⟨rt, hrt⟩
    · rename_i h
      have h0 : UInt16.ofNat p.len = 0 := by
        by_contra h0
        exact h (by simp [h0])
      rw [if_pos h0]
      refine ⟨tcb.retransmitTimer, ?_⟩
      rw [List.append_nil]
  obtain ⟨rt, hrt⟩ := hrem
  subst hsnd
  refine ⟨p, c, unsent, lt, da, rt, s, ?_, hseq, hsp, hcb, hcan, hlen, hb⟩
  rw [outputOne, if_neg hs, payloadToSend, if_neg Bool.false_ne_true]
  refine bind_ok.mpr ⟨_, hp, bind_ok.mpr ⟨_, hc, bind_ok.mpr ⟨_, hbs, ?_⟩⟩⟩
  refine (congrArg (queuePacket s) hrt).trans ?_
  rw [queuePacket, hsp]
  exact (if_pos hok).trans (by rw [hl32])

/-! ## Quiet changes -/

/-- Nothing changes that has to do with the two byte streams: not the sequence numbers, the
queues, the state or the packets produced. -/
structure Quiet (a b : Tcb) : Prop where
  state : b.state = a.state
  rcv : b.rcv = a.rcv
  packetq : b.packetq = a.packetq
  handed : b.handed = a.handed
  unacknowledged : b.snd.unacknowledged = a.snd.unacknowledged
  next : b.snd.next = a.snd.next
  initial : b.snd.initial = a.snd.initial
  data : b.snd.data = a.snd.data
  unsent : b.snd.unsent = a.snd.unsent
  unsentLen : b.snd.unsentLen = a.snd.unsentLen
  closed : b.snd.closed = a.snd.closed
  currentQueueSpace : b.snd.currentQueueSpace = a.snd.currentQueueSpace
  stream : b.snd.stream = a.snd.stream

theorem Quiet.refl (a : Tcb) : Quiet a a := by
  constructor <;> rfl

theorem Quiet.trans {a b c : Tcb} (h : Quiet a b) (h' : Quiet b c) : Quiet a c where
  state := h'.state.trans h.state
  rcv := h'.rcv.trans h.rcv
  packetq := h'.packetq.trans h.packetq
  handed := h'.handed.trans h.handed
  unacknowledged := h'.unacknowledged.trans h.unacknowledged
  next := h'.next.trans h.next
  initial := h'.initial.trans h.initial
  data := h'.data.trans h.data
  unsent := h'.unsent.trans h.unsent
  unsentLen := h'.unsentLen.trans h.unsentLen
  closed := h'.closed.trans h.closed
  currentQueueSpace := h'.currentQueueSpace.trans h.currentQueueSpace
  stream := h'.stream.trans h.stream

theorem output_quiet (tcb : Tcb) : Quiet tcb (output tcb) := by
  obtain ⟨pa, ef, h⟩ := output_eq tcb
  rw [h]
  constructor <;> rfl

theorem mayTransmit_quiet (tcb : Tcb) : Quiet tcb (mayTransmit tcb).2 := by
  obtain ⟨lt, h⟩ := canSend_eq tcb.snd
  have : (mayTransmit tcb).2 = { tcb with snd := (canSend tcb.snd).2 } := rfl
  rw [this, h]
  constructor <;> rfl

theorem outputUpdateRto_eq (now : Int) (tcb : Tcb) :
    ∃ pa ef rto rt, outputUpdateRto now tcb =
      { tcb with pollActive := pa, effects := ef, rto := rto, retransmitTimer := rt } := by
  obtain ⟨pa, ef, h⟩ := output_eq tcb
  rw [outputUpdateRto, h]
  exact ⟨_, _, _, _, rfl⟩

theorem outputUpdateRto_quiet (now : Int) (tcb : Tcb) : Quiet tcb (outputUpdateRto now tcb) := by
  refine (output_quiet tcb).trans ?_
  constructor <;> rfl

/-! ## Retransmission -/

/-- The length of the first unacknowledged packet. -/
def frontLen (snd : Send) : Nat :=
  match snd.data with
  | [] => 0
  | seg :: _ => seg.p.len

/-- The first unacknowledged packet is too long for the closed window. -/
def IntoClosedWindow (snd : Send) : Prop := snd.window = 0 ∧ 1 < UInt16.ofNat (frontLen snd)

instance (snd : Send) : Decidable (IntoClosedWindow snd) := inferInstanceAs (Decidable (_ ∧ _))

/-- A retransmission: the first segment is counted once more and a copy of it queued. -/
def Retransmitted (tcb tcb' : Tcb) : Prop :=
  ∃ seg data da s pa ef, tcb.snd.data = seg :: data ∧
    s.hdr.seq = tcb.snd.unacknowledged ∧ s.payload.bytes = seg.p.bytes ∧
    tcb' = { tcb with
      snd := { tcb.snd with data := { seg with nrTransmits := seg.nrTransmits + 1 } :: data }
      delayedAck := da, packetq := tcb.packetq ++ [s], pollActive := pa, effects := ef }

/-- `output_one(true)` of the first segment returns exactly when it does not send into a
closed window. -/
theorem outputOne_true_spec (hw : HwFeatures) (now : Int) {tcb : Tcb} {seg : UnackedSegment}
    {data : List UnackedSegment} (hs : tcb.state ≠ .closed) (hd : tcb.snd.data = seg :: data) :
    (IntoClosedWindow tcb.snd ∧ outputOne hw now true
        { tcb with snd := { tcb.snd with
          data := { seg with nrTransmits := seg.nrTransmits + 1 } :: data } } =
        .error .closedWindow) ∨
      (¬ IntoClosedWindow tcb.snd ∧ ∃ t, Retransmitted tcb t ∧ outputOne hw now true
        { tcb with snd := { tcb.snd with
          data := { seg with nrTransmits := seg.nrTransmits + 1 } :: data } } = .ok t) := by
  obtain ⟨da, s, hseq, hb, ho⟩ := @outputOne_retransmit hw now { tcb with
    snd := { tcb.snd with data := { seg with nrTransmits := seg.nrTransmits + 1 } :: data } } _ _
    hs rfl
  have hi : IntoClosedWindow tcb.snd ↔
      ¬ (tcb.snd.window > 0 || UInt16.ofNat seg.p.len ≤ 1) = true := by
    rw [IntoClosedWindow, frontLen, hd, Bool.or_eq_true, decide_eq_true_eq, decide_eq_true_eq,
      not_or, gt_iff_lt, UInt32.pos_iff_ne_zero, not_not, UInt16.not_le]
  rw [ho]
  by_cases h : IntoClosedWindow tcb.snd
  · left
    exact ⟨h, if_neg (hi.mp h)⟩
  · right
    refine ⟨h, _, ⟨seg, data, da, s, tcb.pollActive, tcb.effects, hd, hseq, hb, rfl⟩, ?_⟩
    exact if_pos (not_not.mp (mt hi.mpr h))

/-- `fast_retransmit` on a connection that is not closed. -/
theorem fastRetransmit_spec (hw : HwFeatures) (now : Int) {tcb : Tcb} (hs : tcb.state ≠ .closed) :
    (IntoClosedWindow tcb.snd ∧ fastRetransmit hw now tcb = .error .closedWindow) ∨
      (¬ IntoClosedWindow tcb.snd ∧ ∃ t, fastRetransmit hw now tcb = .ok t ∧
        (t = tcb ∨ ∃ u, Retransmitted tcb u ∧ Quiet u t)) := by
  unfold fastRetransmit
  split
  · rename_i hd
    right
    refine ⟨?_, tcb, rfl, Or.inl rfl⟩
    rintro ⟨-, hl⟩
    rw [frontLen, hd] at hl
    exact absurd hl (by decide)
  · rename_i seg data hd
    rcases outputOne_true_spec hw now hs hd with ⟨hc, ho⟩ | ⟨hc, u, hu, ho⟩
    · left
      exact ⟨hc, by rw [ho]; rfl⟩
    · right
      exact ⟨hc, output u, by rw [ho]; rfl, Or.inr ⟨u, hu, output_quiet u⟩⟩

/-- The data are gone, and with them the timers. -/
def Cleaned (tcb tcb' : Tcb) : Prop := ∃ a, Quiet tcb a ∧ tcb' = cleanup a

/-- "Retransmit Data" on a connection that is not closed. -/
theorem retransmitData_spec (hw : HwFeatures) (now : Int) {tcb : Tcb} (hs : tcb.state ≠ .closed) :
    (tcb.snd.data = [] ∧ retransmitData hw now tcb = .ok tcb) ∨
      ∃ seg data, tcb.snd.data = seg :: data ∧
        ((maxNrRetransmit ≤ seg.nrTransmits ∧
            ∃ t, retransmitData hw now tcb = .ok t ∧ Cleaned tcb t) ∨
          (seg.nrTransmits < maxNrRetransmit ∧ IntoClosedWindow tcb.snd ∧
            retransmitData hw now tcb = .error .closedWindow) ∨
          (seg.nrTransmits < maxNrRetransmit ∧ ¬ IntoClosedWindow tcb.snd ∧
            ∃ a b t, retransmitData hw now tcb = .ok t ∧ Quiet tcb a ∧ Retransmitted a b ∧
              Quiet b t)) := by
  rcases hd : tcb.snd.data with _ | ⟨seg, data⟩
  · left
    exact ⟨rfl, by rw [retransmitData, hd]⟩
  right
  refine ⟨seg, data, rfl, ?_⟩
  by_cases hn : seg.nrTransmits < maxNrRetransmit
  · right
    obtain ⟨a, ha, hca, hr⟩ : ∃ a, Quiet tcb a ∧
        (IntoClosedWindow a.snd ↔ IntoClosedWindow tcb.snd) ∧
        retransmitData hw now tcb = (outputOne hw now true
          { a with snd := { a.snd with
            data := { seg with nrTransmits := seg.nrTransmits + 1 } :: data } } >>=
          fun t => .ok (outputUpdateRto now t)) := by
      refine ⟨{ tcb with
        snd := exitFastRecovery { tcb.snd with
          ssthresh := if seg.nrTransmits = 0 then
              max (flightSize tcb.snd / 2) (2 * tcb.snd.mss.toUInt32)
            else tcb.snd.ssthresh
          recover := tcb.snd.next.back 1, cwnd := tcb.snd.mss.toUInt32 } }, ?_, Iff.rfl, ?_⟩
      · constructor <;> rfl
      · rw [retransmitData, hd]
        exact if_pos hn
    rcases outputOne_true_spec hw now (by rw [ha.state]; exact hs)
      (ha.data.trans hd) with ⟨hc, ho⟩ | ⟨hc, u, hu, ho⟩
    · left
      exact ⟨hn, hca.mp hc, by rw [hr, ho]; rfl⟩
    · right
      exact ⟨hn, fun h => hc (hca.mpr h), a, u, _, by rw [hr, ho]; rfl, ha, hu,
        outputUpdateRto_quiet now u⟩
  · left
    refine ⟨Nat.le_of_not_lt hn, ?_⟩
    rw [retransmitData, hd]
    refine ⟨_, if_neg hn, _, ?_, rfl⟩
    constructor <;> rfl

/-! ## Calls of the packet provider -/

/-- `fill_packetq` leaves a packet, unless the connection is closed. -/
theorem fillPacketq_ok (hw : HwFeatures) (now : Int) (tcb : Tcb) :
    ∃ t, fillPacketq hw now tcb = .ok t ∧ (t.state = .closed ∨ t.packetq ≠ []) := by
  unfold fillPacketq
  split
  · by_cases hs : tcb.state = .closed
    · exact ⟨tcb, outputOne_closed hw now false hs, Or.inl hs⟩
    · obtain ⟨p, clone, unsent, lt, da, rt, s, ho, -⟩ := outputOne_fresh hw now hs
      exact ⟨_, ho, Or.inr (by simp)⟩
  · rename_i h
    refine ⟨tcb, rfl, Or.inr ?_⟩
    intro he
    rw [he] at h
    exact h rfl

/-- A packet is taken from the front of the queue; nothing else changes. -/
theorem takePacket_ok {tcb : Tcb} (h : tcb.state = .closed ∨ tcb.packetq ≠ []) :
    (tcb.state = .closed ∧ takePacket tcb = .ok (none, tcb)) ∨
      (tcb.state ≠ .closed ∧ ∃ p packetq t, tcb.packetq = p :: packetq ∧
        takePacket tcb = .ok (some p, t) ∧
        Quiet { tcb with packetq := packetq, handed := tcb.handed ++ [p] } t) := by
  unfold takePacket
  by_cases hs : tcb.state = .closed
  · left
    exact ⟨hs, if_pos hs⟩
  · right
    refine ⟨hs, ?_⟩
    rw [if_neg hs]
    rcases h with h | h
    · exact absurd h hs
    rcases hq : tcb.packetq with _ | ⟨p, packetq⟩
    · exact absurd hq h
    simp only
    refine ⟨p, packetq, ?_⟩
    split
    · exact ⟨_, rfl, rfl, output_quiet _⟩
    split
    · have hm := mayTransmit_quiet { tcb with packetq := packetq, handed := tcb.handed ++ [p] }
      refine ⟨_, rfl, rfl, ?_⟩
      split
      · exact hm.trans (output_quiet _)
      · exact hm
    · exact ⟨_, rfl, rfl, .refl _⟩

end Seastar.Net.Tcp.Tcb
