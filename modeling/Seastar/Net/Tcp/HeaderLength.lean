import Seastar.Lib.Assoc
import Seastar.Net.Tcp.Host
import Seastar.Net.Tcp.ReceiveAccounting
import Seastar.Net.Tcp.Turns

/-!
What a segment makes `received` cut off. The packets that wait, in the out-of-order
queue or unacknowledged, are always longer than what is cut off in front of them,
whatever the sequence numbers of the peer are. The header is not: the data offset
of the segment is compared with 20 bytes and never with the length of the packet.
-/

namespace Seastar.Net.Tcp

open Lib

namespace Tcb

/-! ## Sequence numbers -/

/-- What lies in front of a sequence number inside a packet, or at its end. -/
theorem cut_le_len {k seq : TcpSeq} {n : Nat} (hle : k.le seq = true)
    (hend : seq.le (k.add (UInt32.ofNat n)) = true) : sizeOfInt (seq.diff k) ≤ n := by
  have hle' : ¬ Serial.diff seq.raw k.raw < 0 := by
    rw [TcpSeq.le, TcpSeq.gt, Bool.not_eq_true', TcpSeq.lt, decide_eq_false_iff_not] at hle
    exact hle
  have hend' : ¬ Serial.diff (k.raw + UInt32.ofNat n) seq.raw < 0 := by
    rw [TcpSeq.le, TcpSeq.gt, Bool.not_eq_true', TcpSeq.lt, decide_eq_false_iff_not] at hend
    exact hend
  have hd := Serial.diff_of_nonneg hle'
  rw [Serial.diff_neg_iff] at hle' hend'
  have hs := (seq.raw - k.raw).toNat_lt
  have hsub : k.raw + UInt32.ofNat n - seq.raw = UInt32.ofNat n - (seq.raw - k.raw) := by
    grind
  rw [hsub, Serial.toNat_sub, Serial.ofNat_toNat_mod] at hend'
  have hsize : sizeOfInt (seq.diff k) = (seq.raw - k.raw).toNat := by
    unfold sizeOfInt TcpSeq.diff
    rw [hd]
    omega
  rw [hsize]
  omega

/-- An acknowledgement behind the first byte of a short packet, and not behind its last one. -/
theorem acked_lt_len {una segAck : TcpSeq} {n : Nat} (hn : 0 < n) (hn' : n < 2 ^ 16)
    (hlt : una.lt segAck = true) (hle : (una.add (UInt32.ofNat n)).le segAck = false) :
    sizeOfInt (segAck.diff una) < n := by
  have hlt' : Serial.diff una.raw segAck.raw < 0 := by
    rw [TcpSeq.lt, decide_eq_true_eq] at hlt
    exact hlt
  have hend : Serial.diff segAck.raw (una.raw + UInt32.ofNat n) < 0 := by
    rw [TcpSeq.le, TcpSeq.gt, Bool.not_eq_false', TcpSeq.lt, decide_eq_true_eq] at hle
    exact hle
  rw [Serial.diff_neg_iff] at hlt' hend
  have hs := (segAck.raw - una.raw).toNat_lt
  have hsub : segAck.raw - (una.raw + UInt32.ofNat n) =
      (segAck.raw - una.raw) - UInt32.ofNat n := by
    grind
  have hneg : una.raw - segAck.raw = 0 - (segAck.raw - una.raw) := by
    grind
  rw [hsub, Serial.toNat_sub, Serial.ofNat_toNat_mod] at hend
  rw [hneg, Serial.toNat_sub] at hlt'
  have hzero : (0 : UInt32).toNat = 0 := rfl
  have hpos : ¬ Serial.diff segAck.raw una.raw < 0 := by
    rw [Serial.diff_neg_iff]
    omega
  have hsize : sizeOfInt (segAck.diff una) = (segAck.raw - una.raw).toNat := by
    unfold sizeOfInt TcpSeq.diff
    rw [Serial.diff_of_nonneg hpos]
    omega
  rw [hsize]
  omega

/-! ## The out-of-order queue -/

theorem firstPass_ne {beg : TcpSeq} {p : Packet} (map : List (TcpSeq × Packet)) :
    PacketMerger.firstPass beg p map ≠ .error .trimTooLong := by
  induction map with
  | nil =>
    intro h
    cases h
  | cons e map ih =>
    obtain ⟨segBeg, segPkt⟩ := e
    rw [PacketMerger.firstPass]
    split
    · intro he
      cases he
    split
    · intro he
      cases he
    split
    · rename_i h
      simp only [Bool.and_eq_true] at h
      obtain ⟨q, hq, -⟩ := Packet.trimFront_ok (cut_le_len h.1.2 h.2)
      intro he
      rw [show segPkt.trimFront (MergeOffset.sub (MergeOffset.add beg p.len) segBeg) = .ok q
        from hq] at he
      cases he
    split
    · rename_i h
      simp only [Bool.and_eq_true] at h
      obtain ⟨q, hq, -⟩ := Packet.trimFront_ok (trim_le_len h.1.2 h.2)
      intro he
      rw [show p.trimFront (MergeOffset.sub (MergeOffset.add segBeg segPkt.len) beg) = .ok q
        from hq] at he
      cases he
    · intro he
      cases hx : PacketMerger.firstPass beg p map with
      | error f =>
        rw [hx] at he
        rw [hx] at ih
        exact ih (congrArg Except.error (Except.error.inj he))
      | ok r =>
        rw [hx] at he
        cases he

theorem secondPass_ne {segBeg : TcpSeq} {segPkt : Packet} (map : List (TcpSeq × Packet)) :
    PacketMerger.secondPass segBeg segPkt map ≠ .error .trimTooLong := by
  induction map generalizing segBeg segPkt with
  | nil =>
    intro h
    cases h
  | cons e map ih =>
    obtain ⟨beg, p⟩ := e
    rw [PacketMerger.secondPass]
    split
    · rename_i h
      simp only [Bool.and_eq_true] at h
      obtain ⟨q, hq, -⟩ := Packet.trimFront_ok (trim_le_len h.1.2 h.2)
      rw [show p.trimFront (MergeOffset.sub (MergeOffset.add segBeg segPkt.len) beg) = .ok q
        from hq]
      exact ih
    split
    · exact ih
    split
    · intro he
      cases hx : PacketMerger.secondPass beg p map with
      | error f =>
        rw [hx] at he
        exact ih (hx.trans (congrArg Except.error (Except.error.inj he)))
      | ok r =>
        rw [hx] at he
        cases he
    · intro he
      cases he

/-- Merging a segment into the out-of-order queue cuts off no more than there is. -/
theorem insertOutOfOrder_ne (segSeq : TcpSeq) (p : Packet) (rcv : Receive) :
    insertOutOfOrder segSeq p rcv ≠ .error .trimTooLong := by
  intro he
  rcases bind_error.mp he with he | ⟨_, -, he⟩
  swap
  · cases he
  rcases bind_error.mp he with he | ⟨r, -, he⟩
  · exact firstPass_ne _ he
  · have hadj : ∀ map : List (TcpSeq × Packet),
        PacketMerger.mergeAdjacent map ≠ .error .trimTooLong := by
      intro map
      cases map with
      | nil =>
        intro h
        cases h
      | cons e map => exact secondPass_ne map
    cases r with
    | done => cases he
    | insert map p => exact hadj _ he
    | appended map => exact hadj _ he

/-- Nor does the drain of the queue. -/
theorem textAndFin_ne {now : Int} {th : TcpHdr} {segSeq : TcpSeq} {p : Packet} {b : Bool}
    {tcb : Tcb} : textAndFin now th segSeq p b tcb ≠ .error .trimTooLong := by
  have hmerge : ∀ {b : Bool} {rcv : Receive} {map : List (TcpSeq × Packet)},
      mergeLoop b rcv map ≠ .error .trimTooLong := by
    intro b rcv map he
    by_cases hq : GoesOnAt rcv.next map
    · rw [mergeLoop_moves hq] at he
      cases he
    · rw [mergeLoop_keeps hq] at he
      cases he
  intro h
  unfold textAndFin at h
  simp only at h
  split at h
  · rcases bind_error.mp h with h | ⟨r, -, h⟩
    · unfold segmentText at h
      split at h
      · cases h
      · rcases bind_error.mp h with h | ⟨r, -, h⟩
        · exact hmerge h
        · cases h
    · cases h
  split at h
  · cases h
  · cases h

/-! ## The unacknowledged segments -/

/-- The packets of unacknowledged segments have bytes, and no more than one segment takes. -/
def Unacked (data : List UnackedSegment) : Prop := ∀ seg ∈ data, 0 < seg.p.len ∧ seg.p.len < 2 ^ 16

theorem ackedWhole_suffix (segAck una : TcpSeq) (data : List UnackedSegment) :
    ∃ pre, data = pre ++ (ackedWhole segAck una data).2 ∧
      ∀ seg rest, (ackedWhole segAck una data).2 = seg :: rest →
        ((ackedWhole segAck una data).1.add (UInt32.ofNat seg.p.len)).le segAck = false := by
  induction data generalizing una with
  | nil =>
    refine ⟨[], rfl, fun _ _ hs => ?_⟩
    cases hs
  | cons seg data ih =>
    rw [ackedWhole]
    split
    · obtain ⟨pre, hd, hstop⟩ := ih (una.add (UInt32.ofNat seg.p.len))
      exact ⟨seg :: pre, congrArg (seg :: ·) hd, hstop⟩
    · rename_i hle
      refine ⟨[], rfl, fun s rest hs => ?_⟩
      obtain ⟨rfl, -⟩ := List.cons.inj hs
      exact Bool.eq_false_iff.mpr hle

/-- A partial acknowledgement cuts off less than the first packet has. -/
theorem Unacked.ackedPart {data : List UnackedSegment} (h : Unacked data) (segAck una : TcpSeq) :
    ∃ data', ackedPart segAck (ackedWhole segAck una data) = .ok data' ∧ Unacked data' := by
  obtain ⟨pre, hd, hstop⟩ := ackedWhole_suffix segAck una data
  generalize ackedWhole segAck una data = q at hd hstop
  obtain ⟨u, rest⟩ := q
  simp only at hd hstop
  have hrest : Unacked rest := fun seg hs => h seg (hd ▸ List.mem_append_right pre hs)
  rw [Tcb.ackedPart]
  split
  swap
  · exact ⟨rest, rfl, hrest⟩
  rename_i hlt
  cases rest with
  | nil => exact ⟨[], rfl, fun _ hs => absurd hs List.not_mem_nil⟩
  | cons seg rest =>
    obtain ⟨hpos, hfew⟩ := hrest seg List.mem_cons_self
    have hcut := acked_lt_len hpos hfew hlt (hstop seg rest rfl)
    obtain ⟨p, hp, -, hlen⟩ := Packet.trimFront_ok (Nat.le_of_lt hcut)
    refine ⟨{ seg with p := p } :: rest, ?_, ?_⟩
    · rw [trimFirst, hp]
      rfl
    · intro s hs
      rcases List.mem_cons.mp hs with rfl | hs
      · change 0 < p.len ∧ p.len < 2 ^ 16
        omega
      · exact hrest s (List.mem_cons_of_mem _ hs)

theorem dataSegmentAcked_ne {now : Int} {segAck : TcpSeq} {tcb : Tcb} (h : Unacked tcb.snd.data) :
    dataSegmentAcked now segAck tcb ≠ .error .trimTooLong := by
  intro he
  rcases dataSegmentAcked_error he with he | ⟨-, he⟩
  · cases he
  · obtain ⟨data, hd, -⟩ := h.ackedPart segAck tcb.snd.unacknowledged
    rw [hd] at he
    cases he

theorem Unacked.dataSegmentAcked {now : Int} {segAck : TcpSeq} {n : UInt32} {a b : Tcb}
    (ha : Unacked a.snd.data) (h : dataSegmentAcked now segAck a = .ok (n, b)) :
    Unacked b.snd.data := by
  obtain ⟨data, hd, hdata⟩ := ha.ackedPart segAck a.snd.unacknowledged
  obtain rfl := Except.ok.inj (hd.symm.trans (dataSegmentAcked_spec h).2.2)
  exact hdata

theorem Unacked.outputOne {hw : HwFeatures} {now : Int} {a b : Tcb} (ha : Unacked a.snd.data)
    (hs : a.state ≠ .closed) (h : outputOne hw now false a = .ok b) : Unacked b.snd.data := by
  obtain ⟨p, clone, unsent, lt, da, rt, seg, ho, -, -, hb, -, hlen, -⟩ := outputOne_fresh hw now hs
  obtain rfl := Except.ok.inj (ho.symm.trans h)
  have hclone : clone.len = p.len := by rw [← Packet.length_bytes, hb, Packet.length_bytes]
  intro s hmem
  rcases List.mem_append.mp hmem with hmem | hmem
  · exact ha s hmem
  · unfold sentSegments at hmem
    split at hmem
    · cases hmem
    · rename_i hne
      rw [List.mem_singleton.mp hmem]
      change 0 < clone.len ∧ clone.len < 2 ^ 16
      omega

theorem acceptSyn_data (th : TcpHdr) (tcb : Tcb) : (acceptSyn th tcb).snd.data = tcb.snd.data := by
  simp only [acceptSyn]
  split
  · rfl
  · rfl

theorem initFromOptions_data {hw : HwFeatures} {th : TcpHdr} {optStart : Bytes} {n : Nat}
    {a b : Tcb} (h : initFromOptions hw th optStart n a = .ok b) : b.snd.data = a.snd.data := by
  obtain ⟨o, -, h⟩ := bind_ok.mp h
  obtain rfl := Except.ok.inj h
  rfl

theorem Turn.unacked {hw : HwFeatures} {s a b : Tcb} {e : Event} (hs : Unacked s.snd.data)
    (ha : Unacked a.snd.data) (h : Turn hw s e a b) : Unacked b.snd.data := by
  cases h with
  | steady h => exact h.data ▸ ha
  | acked _ _ _ h =>
    have hb := ha.dataSegmentAcked h
    unfold takeWindow
    split
    · obtain ⟨pt, po, hw⟩ := updateWindow_eq e.now _ s.rcv.next _
      rw [hw]
      exact hb
    · exact hb
  | opened _ _ _ _ =>
    obtain ⟨pt, po, hw⟩ := updateWindow_eq e.now _ s.rcv.next a
    rw [hw]
    exact ha
  | counted hd =>
    rw [hd] at ha
    obtain ⟨hfirst, hrest⟩ := List.forall_mem_cons.mp ha
    exact List.forall_mem_cons.mpr ⟨hfirst, hrest⟩
  | fresh _ hst h => exact ha.outputOne hst h
  | queued p _ _ => exact ha
  | persisting _ _ => exact ha
  | probing _ _ _ => exact ha
  | established _ _ => exact ha
  | finReceived _ _ => exact ha
  | finAcked _ _ _ _ => exact hs
  | closing _ _ _ => exact ha
  | cleaned _ _ _ => exact fun seg hseg => absurd hseg List.not_mem_nil
  | crossed _ _ _ _ _ _ =>
    change Unacked (acceptSyn _ s).snd.data
    rw [acceptSyn_data]
    exact hs
  | negotiated _ hn =>
    obtain ⟨-, -, -, _, _, _, _, -, -, -, h⟩ := hn
    change Unacked (Tcb.snd _).data
    rw [initFromOptions_data h, acceptSyn_data]
    exact hs

theorem step_unacked {hw : HwFeatures} {s t : Tcb} {e : Event} (hs : Unacked s.snd.data)
    (h : step hw s e = .ok t) : Unacked t.snd.data := by
  have hturns := step_turns h
  clear h
  induction hturns with
  | refl => exact hs
  | tail _ hturn ih => exact hturn.unacked hs ih

theorem Opened.data {hw : HwFeatures} {tcb : Tcb} (h : Opened hw tcb) : tcb.snd.data = [] := by
  cases h with
  | active mem id now isn =>
    obtain ⟨pa, ef, ho⟩ := output_eq { (doSetupIsn isn (Stack.newTcb mem id)) with
      option := { (Stack.newTcb mem id).option with localWinScale := 7, localMss := localMss hw }
      rcv := { (Stack.newTcb mem id).rcv with
        windowScale := 7, mss := localMss hw
        window := getDefaultReceiveWindowSize
          { (Stack.newTcb mem id).rcv with windowScale := 7, mss := localMss hw } }
      state := .synSent
      snd := { (doSetupIsn isn (Stack.newTcb mem id)).snd with synTxTime := now } }
    exact (congrArg (fun t => t.snd.data) ho).trans rfl
  | passive _ _ _ h =>
    obtain ⟨⟨hdr, q⟩, -, h⟩ := bind_ok.mp h
    obtain ⟨area, -, h⟩ := bind_ok.mp h
    obtain ⟨b, hb, h⟩ := bind_ok.mp h
    obtain rfl := Except.ok.inj h
    rw [doSynReceived, (output_quiet _).data]
    exact (initFromOptions_data hb).trans rfl

/-- The states of the connections of a stack: what a connection asks for is carried out whenever
one of its handlers returns. -/
inductive Reached (hw : HwFeatures) : Tcb → Prop
  | opened {tcb : Tcb} : Opened hw tcb → Reached hw tcb
  | step {s t : Tcb} (e : Event) : Reached hw s → Tcb.step hw s e = .ok t → Reached hw t
  | handled {s : Tcb} : Reached hw s → Reached hw { s with effects := [] }

theorem Reached.unacked {hw : HwFeatures} {tcb : Tcb} (h : Reached hw tcb) :
    Unacked tcb.snd.data := by
  induction h with
  | opened ho =>
    rw [ho.data]
    intro _ hs
    cases hs
  | step e _ h ih => exact step_unacked ih h
  | handled _ ih => exact ih

/-! ## The handlers -/

/-- A call looks for bytes that a packet does not have: it follows a null pointer that
`get_header` has returned, or trims more than there is. -/
def LeavesPacket {α : Type} (x : Except Fault α) : Prop :=
  x = .error .nullHeader ∨ x = .error .trimTooLong

theorem ackField_ne {hw : HwFeatures} {now : Int} {th : TcpHdr} {segSeq : TcpSeq} {segLen : Nat}
    {tcb : Tcb} (hu : Unacked tcb.snd.data) :
    ackField hw now th segSeq segLen tcb ≠ .error .trimTooLong := by
  have hest : ∀ {u : Tcb}, u.state ≠ .closed → u.snd.data = tcb.snd.data →
      ackEstablished hw now th segSeq segLen u ≠ .error .trimTooLong := by
    intro u hs hd h
    unfold ackEstablished at h
    split at h
    · rename_i hn
      rcases bind_error.mp h with h | ⟨_, _, h⟩
      · rcases ackNewData_error hs hn h with h | h
        · exact dataSegmentAcked_ne (hd.symm ▸ hu) h
        · cases h
      · cases h
    split at h
    · rcases bind_error.mp h with h | ⟨_, _, h⟩
      · cases duplicateAck_error hs h
      · cases h
    split at h
    · cases h
    split at h
    · cases h
    · cases h
  by_cases hs : tcb.state = .synReceived
  · by_cases hack : tcb.snd.unacknowledged.le th.ack = true ∧ th.ack.le tcb.snd.next = true
    · rw [ackField_synReceived hw now segSeq segLen hs hack]
      obtain ⟨_, _, _, _, _, hd⟩ := doEstablished_eq now tcb
      refine hest ?_ ?_
      · rw [hd]
        intro h
        cases h
      · rw [hd]
        rfl
    · intro h
      rw [ackField, ackSynReceived, if_pos hs, if_neg (by simpa using hack)] at h
      cases h
  · rw [ackField_other hw now th segSeq segLen hs]
    split
    · rename_i hst
      refine hest (fun hc => ?_) rfl
      rw [hc] at hst
      exact absurd hst (by decide)
    · intro h
      cases h

/-- In the states behind SYN_SENT only the header can be too long. -/
theorem inputHandleOtherState_leaves_iff {hw : HwFeatures} {now : Int} {th : TcpHdr} {p : Packet}
    {tcb : Tcb} (hu : Unacked tcb.snd.data) :
    LeavesPacket (inputHandleOtherState hw now th p tcb) ↔ p.len < th.dataOffset * 4 := by
  have hd := inputHandleOtherState_dispatched hw now th p tcb
  generalize inputHandleOtherState hw now th p tcb = x at hd
  cases hd with
  | short hl => exact iff_of_true (Or.inr rfl) hl
  | unacceptable hl _ =>
    refine iff_of_false ?_ (Nat.not_lt.mpr hl)
    rintro (h | h)
    · cases h
    · cases h
  | outOfOrder q hl _ _ _ =>
    refine iff_of_false ?_ (Nat.not_lt.mpr hl)
    rintro (h | h)
    · rcases bind_error.mp h with h | ⟨_, -, h⟩
      · rcases bind_error.mp h with h | ⟨_, -, h⟩
        · rcases PacketMerger.merge_error h with h | h
          · cases h
          · cases h
        · cases h
      · cases h
    · rcases bind_error.mp h with h | ⟨_, -, h⟩
      · exact insertOutOfOrder_ne _ _ _ h
      · cases h
  | inOrder q hl _ =>
    refine iff_of_false ?_ (Nat.not_lt.mpr hl.1)
    by_cases hp : Proceeds th tcb
    swap
    · obtain ⟨t, ht, -⟩ := @inOrder_not_proceeds hw now th tcb.rcv.next q tcb hp
      rw [ht]
      rintro (h | h)
      · cases h
      · cases h
    rw [inOrder_proceeds hp]
    rintro (h | h)
    · rcases bind_error.mp h with h | ⟨r, -, h⟩
      · rcases ackField_error h with h | h | h
        · cases h
        · cases h
        · cases h
      · cases r with
        | ret t => cases h
        | go t b =>
          rcases textAndFin_error h with h | h
          · cases h
          · cases h
    · rcases bind_error.mp h with h | ⟨r, -, h⟩
      · exact ackField_ne hu h
      · cases r with
        | ret t => cases h
        | go t b => exact textAndFin_ne h

theorem inputHandleSynSentState_leaves_iff {hw : HwFeatures} {now : Int} {th : TcpHdr} {p : Packet}
    {tcb : Tcb} (h5 : 5 ≤ th.dataOffset) :
    LeavesPacket (inputHandleSynSentState hw now th p tcb) ↔ p.len < th.dataOffset * 4 := by
  constructor
  · rintro (h | h)
    · rcases inputHandleSynSentState_error h with ⟨h, -⟩ | ⟨-, h⟩ | h
      · cases h
      · omega
      · cases h
    · rcases inputHandleSynSentState_error h with ⟨-, h⟩ | ⟨h, -⟩ | h
      · exact h
      · cases h
      · cases h
  · intro hl
    rcases splitOptions_cases th p with ⟨-, hs⟩ | ⟨hle, -⟩
    · right
      unfold inputHandleSynSentState
      rw [hs]
      rfl
    · omega

theorem inputHandleListenState_leaves_iff {hw : HwFeatures} {now : Int} {isn : TcpSeq}
    {th : TcpHdr} {p : Packet} {tcb : Tcb} (h5 : 5 ≤ th.dataOffset) :
    LeavesPacket (inputHandleListenState hw now isn th p tcb) ↔ p.len < th.dataOffset * 4 := by
  unfold inputHandleListenState
  rcases splitOptions_cases th p with ⟨hl, hs⟩ | ⟨hle, hdr, q, hs, hnull⟩
  · rw [hs]
    exact iff_of_true (Or.inr rfl) hl
  · refine iff_of_false ?_ (Nat.not_lt.mpr hle)
    have hsome : hdr ≠ none := fun hn => by
      have := hnull hn
      omega
    have hfault : ∀ f, (splitOptions th p >>= fun r => (do
        let tcb := { tcb with rcv := { tcb.rcv with next := th.seq.add 1, initial := th.seq } }
        let tcb := doSetupIsn isn tcb
        let optStart ← optionArea r.1
        let tcb ← initFromOptions hw th optStart (th.dataOffset * 4 - tcpHdrLen) tcb
        .ok (doSynReceived now tcb))) = .error f → f = .readPast := by
      intro f h
      rw [hs, ok_bind] at h
      rcases bind_error.mp h with h | ⟨_, -, h⟩
      · exact absurd (optionArea_error h).2 hsome
      rcases bind_error.mp h with h | ⟨_, -, h⟩
      · exact initFromOptions_error h
      · cases h
    rintro (h | h)
    · cases hfault _ h
    · cases hfault _ h

/-- A connection looks for bytes that the segment does not have exactly when its header is longer
than the packet. -/
theorem inputHandle_leaves_iff {hw : HwFeatures} {th : TcpHdr} {p : Packet} {tcb : Tcb}
    (hr : Reached hw tcb) (h5 : 5 ≤ th.dataOffset) (now : Int) :
    LeavesPacket (inputHandle hw now th p tcb) ↔ p.len < th.dataOffset * 4 := by
  unfold inputHandle
  split
  · exact inputHandleSynSentState_leaves_iff h5
  · exact inputHandleOtherState_leaves_iff hr.unacked

end Tcb

namespace Stack

open Tcb

variable {hw : HwFeatures} {t : Stack} {p q : Packet} {src dst : UInt32} {th : TcpHdr}

/-- `received` gives the segment to a connection, or to a new one. -/
def TakesSegment (t : Stack) (th : TcpHdr) (src dst : UInt32) : Prop :=
  (t.findTcb (connidOf th src dst)).isSome ∨ ∃ l, t.findListener th.dstPort = some l ∧
    l.full = false ∧ th.fRst = false ∧ th.fAck = false ∧ th.fSyn = true

/-- A segment that passes the checks in front of the dispatch, and that a connection takes, has all
of the header that its data offset asks for. -/
def HeaderInside (hw : HwFeatures) (p : Packet) (src dst : UInt32) (t : Stack) : Prop :=
  ∀ th q, segmentOf hw p src dst = .ok (some (th, q)) → t.TakesSegment th src dst →
    th.dataOffset * 4 ≤ p.len

theorem sumFrags_error {c : Checksummer} {fs : List Bytes} {f : Fault}
    (h : c.sumFrags fs = .error f) : f = .readPast := by
  induction fs generalizing c with
  | nil => cases h
  | cons b fs ih =>
    rcases bind_error.mp h with h | ⟨_, -, h⟩
    · unfold Checksummer.sum at h
      simp only at h
      split at h
      · split at h
        · exact (Except.error.inj h).symm
        · cases h
      · cases h
    · exact ih h

/-- A segment that passes the checks is the packet, perhaps in other fragments, and its header is
20 bytes at least. -/
theorem segmentOf_ok (h : segmentOf hw p src dst = .ok (some (th, q))) :
    q.len = p.len ∧ 5 ≤ th.dataOffset := by
  unfold segmentOf at h
  cases hh : p.getHeader 0 tcpHdrLen with
  | none =>
    rw [hh] at h
    cases h
  | some g =>
    rw [hh] at h
    simp only at h
    split at h
    · cases h
    rename_i hge
    have hread : ∀ verified : Bool, (Except.ok (if verified = true then
        some (TcpHdr.read g.mem, g.p) else none) : Except Fault _) = .ok (some (th, q)) →
        q.len = p.len ∧ 5 ≤ th.dataOffset := by
      intro verified h
      split at h
      swap
      · cases h
      obtain ⟨rfl, rfl⟩ := Prod.mk.inj (Option.some.inj (Except.ok.inj h))
      constructor
      · rw [← Packet.length_bytes, (Packet.getHeader_spec hh).1, Packet.length_bytes]
      · unfold tcpHdrLen at hge
        change 5 ≤ dataOffsetOf g.mem
        omega
    split at h
    · exact hread true h
    · obtain ⟨csum, -, h⟩ := bind_ok.mp h
      exact hread _ h

theorem segmentOf_error {f : Fault} (h : segmentOf hw p src dst = .error f) : f = .readPast := by
  unfold segmentOf at h
  split at h
  · cases h
  split at h
  · cases h
  simp only at h
  split at h
  · cases h
  rcases bind_error.mp h with h | ⟨_, -, h⟩
  · rcases bind_error.mp h with h | ⟨_, -, h⟩
    · exact sumFrags_error h
    · cases h
  · cases h

theorem leavesPacket_bind {α β : Type} {x : Except Fault α} {k : α → β} :
    LeavesPacket (x >>= fun a => .ok (k a)) ↔ LeavesPacket x := by
  cases x with
  | error f =>
    have hinj : ∀ g : Fault, (Except.error f : Except Fault β) = .error g ↔
        (Except.error f : Except Fault α) = .error g := fun g =>
      ⟨fun h => congrArg Except.error (Except.error.inj h),
        fun h => congrArg Except.error (Except.error.inj h)⟩
    exact or_congr (hinj _) (hinj _)
  | ok a =>
    refine iff_of_false ?_ ?_
    · rintro (h | h)
      · cases h
      · cases h
    · rintro (h | h)
      · cases h
      · cases h

theorem dispatch_leaves_iff {now : Int} {isn : TcpSeq} {mem : Tcb}
    (ht : ∀ e ∈ t.tcbs, Reached hw e.2) (h5 : 5 ≤ th.dataOffset) :
    LeavesPacket (dispatch hw now isn mem th src dst q t) ↔
      t.TakesSegment th src dst ∧ q.len < th.dataOffset * 4 := by
  have hno : ∀ u : Stack, ¬ LeavesPacket (.ok u : Except Fault Stack) := by
    rintro u (h | h)
    · cases h
    · cases h
  unfold dispatch TakesSegment
  simp only
  cases hf : t.findTcb (connidOf th src dst) with
  | some tcb =>
    have hmem : (connidOf th src dst, tcb) ∈ t.tcbs := Lib.Assoc.mem_of_lookup hf
    have hr : Reached hw tcb := ht _ hmem
    simp only [Option.isSome_some, true_or, true_and]
    rw [← inputHandle_leaves_iff hr h5 now]
    exact leavesPacket_bind
  | none =>
    have hport : (connidOf th src dst).localPort = th.dstPort := rfl
    simp only [Option.isSome_none, Bool.false_eq_true, false_or, hport]
    cases hl : t.findListener th.dstPort with
    | none => exact iff_of_false (hno _) (by simp)
    | some l =>
      simp only [Option.some.injEq, exists_eq_left']
      by_cases hfull : l.full = true
      · rw [if_pos hfull]
        exact iff_of_false (hno _) (by simp [hfull])
      rw [if_neg hfull]
      by_cases hrst : th.fRst = true
      · rw [if_pos hrst]
        exact iff_of_false (hno _) (by simp [hrst])
      rw [if_neg hrst]
      by_cases hack : th.fAck = true
      · rw [if_pos hack]
        exact iff_of_false (hno _) (by simp [hack])
      rw [if_neg hack]
      by_cases hsyn : th.fSyn = true
      · rw [if_pos hsyn, leavesPacket_bind, inputHandleListenState_leaves_iff h5]
        rw [Bool.not_eq_true] at hfull hrst hack
        exact ⟨fun h => ⟨⟨hfull, hrst, hack, hsyn⟩, h⟩, fun h => h.2⟩
      · rw [if_neg hsyn]
        exact iff_of_false (hno _) (by simp [hsyn])

/-- For every packet and every state of the connections: `received` follows no null pointer and
trims no more than there is exactly when the packet has the header that its data offset
asks for, or nobody takes it. -/
theorem received_inside_iff (ht : ∀ e ∈ t.tcbs, Reached hw e.2) (now : Int) (isn : TcpSeq)
    (mem : Tcb) (p : Packet) (src dst : UInt32) :
    ¬ LeavesPacket (t.received hw now isn mem p src dst) ↔ HeaderInside hw p src dst t := by
  rw [received_eq]
  unfold HeaderInside
  cases hseg : segmentOf hw p src dst with
  | error f =>
    obtain rfl := segmentOf_error hseg
    refine iff_of_true ?_ fun _ _ hs => ?_
    · rintro (h | h)
      · cases h
      · cases h
    · cases hs
  | ok r =>
    cases r with
    | none =>
      refine iff_of_true ?_ fun _ _ hs => ?_
      · rintro (h | h)
        · cases h
        · cases h
      · cases hs
    | some r =>
      obtain ⟨th, q⟩ := r
      obtain ⟨hlen, h5⟩ := segmentOf_ok hseg
      rw [ok_bind]
      simp only
      rw [dispatch_leaves_iff ht h5, hlen]
      constructor
      · intro h th' q' he htakes
        obtain ⟨rfl, rfl⟩ := Prod.mk.inj (Option.some.inj (Except.ok.inj he))
        exact Nat.not_lt.mp fun hlt => h ⟨htakes, hlt⟩
      · rintro h ⟨htakes, hlt⟩
        exact Nat.not_lt.mpr (h th q rfl htakes) hlt

/-- A SYN to port 80, in 20 bytes, with this data offset and checksum. -/
def synPacket (dataOffset hi lo : UInt8) : Packet :=
  Packet.ofFrags [[0x30, 0x39, 0, 80, 0, 0, 0, 7, 0, 0, 0, 0, dataOffset <<< 4, 0x02, 0, 10, hi, lo,
    0, 0]]

/-- A listener on port 80, and a connection that waits for its SYN to be answered. -/
def onPort80 : Stack where
  tcbs := [(⟨0x0100000a, 0x0300000a, 2000, 80⟩,
    (newTcb {} ⟨0x0100000a, 0x0300000a, 2000, 80⟩).connect {} 0 ⟨100⟩)]
  listening := [(80, {})]

theorem onPort80_inside : ¬ LeavesPacket
    (onPort80.received {} 0 ⟨7⟩ {} (synPacket 5 0x7c 0x35) 0x0200000a 0x0100000a) := by
  refine (received_inside_iff (fun e he => ?_) _ _ _ _ _ _).mpr fun th q h _ => ?_
  · rw [List.mem_singleton.mp he]
    exact .opened (.active _ _ _ _)
  · have hseg : segmentOf {} (synPacket 5 0x7c 0x35) 0x0200000a 0x0100000a =
        .ok (some (TcpHdr.read (synPacket 5 0x7c 0x35).bytes, synPacket 5 0x7c 0x35)) := rfl
    obtain ⟨rfl, -⟩ := Prod.mk.inj (Option.some.inj (Except.ok.inj (hseg.symm.trans h)))
    decide

/-- The data offset asks for 60 bytes of the 20: the checksum is right, the header is not in the
packet, and `trim_front` is called for more than there is. -/
theorem onPort80_leaves :
    segmentOf {} (synPacket 15 0xdc 0x34) 0x0200000a 0x0100000a =
      .ok (some (TcpHdr.read (synPacket 15 0xdc 0x34).bytes, synPacket 15 0xdc 0x34)) ∧
    onPort80.received {} 0 ⟨7⟩ {} (synPacket 15 0xdc 0x34) 0x0200000a 0x0100000a =
      .error .trimTooLong := ⟨rfl, rfl⟩

end Stack

end Seastar.Net.Tcp
