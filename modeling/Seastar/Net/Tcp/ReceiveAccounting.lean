import Seastar.Net.Tcp.Reassembly
import Seastar.Net.Tcp.Received

/-!
`_rcv.data_size` counts the packets that wait for the user, over every run: text is
counted where it is taken, a read and `cleanup` drop the count with the packets.
Nothing is assumed of what the peer sends.

A packet is looked at after it was moved away only where the out-of-order queue is
drained. That happens exactly when new text ends where the queue goes on.
-/

namespace Seastar.Net.Tcp.Tcb

open Lib

/-- The bytes that wait for the user. -/
def waitingLen (rcv : Receive) : Nat := (rcv.data.map Packet.len).sum

/-- `_rcv.data_size` counts them. -/
def SizeCounted (rcv : Receive) : Prop := rcv.dataSize = waitingLen rcv

/-- The byte at `seq` is behind a queued segment. -/
def passed (seq : TcpSeq) (e : TcpSeq × Packet) : Bool := seq.ge (e.1.add (UInt32.ofNat e.2.len))

/-- The first queued segment that does not end in front of `seq` starts in front of it or
there. -/
def GoesOnAt (seq : TcpSeq) (map : List (TcpSeq × Packet)) : Prop :=
  ∃ e ∈ (map.dropWhile (passed seq)).head?, e.1.le seq = true

/-- The new text of a segment is taken, and the out-of-order queue goes on where it ends. -/
def MovesQueued (tcb : Tcb) (e : Event) : Prop :=
  match e.act with
  | .segment th p =>
    let newLen := textLen th p - oldLen th p tcb.rcv
    tcb.state ≠ .synSent ∧ NextInLine th p tcb.rcv ∧ Proceeds th tcb ∧ TextTaken th newLen tcb ∧
      0 < newLen ∧ GoesOnAt (tcb.rcv.next.add (UInt32.ofNat newLen)) tcb.rcv.outOfOrder
  | _ => False

instance (seq : TcpSeq) (map : List (TcpSeq × Packet)) : Decidable (GoesOnAt seq map) :=
  inferInstanceAs (Decidable (∃ e ∈ _, _))

instance (tcb : Tcb) : (e : Event) → Decidable (MovesQueued tcb e)
  | ⟨_, .segment _ _⟩ => inferInstanceAs (Decidable (_ ∧ _))
  | ⟨_, .send _⟩ | ⟨_, .read⟩ | ⟨_, .waitForData⟩ | ⟨_, .abortReader⟩ | ⟨_, .close⟩
  | ⟨_, .closeContinue⟩ | ⟨_, .shutdownConnect⟩ | ⟨_, .getPacket⟩ | ⟨_, .retransmitExpires⟩
  | ⟨_, .persistExpires⟩ | ⟨_, .delayedAckExpires⟩ | ⟨_, .arpQueueFull⟩ | ⟨_, .arpTimeout⟩ =>
    .isFalse id

/-! ## What is counted -/

theorem SizeCounted.of_eq {a b : Receive} (h : SizeCounted a) (hd : b.data = a.data)
    (hn : b.dataSize = a.dataSize) : SizeCounted b := by
  unfold SizeCounted waitingLen
  rw [hd, hn]
  exact h

theorem SizeCounted.kept {a b : Receive} (h : SizeCounted a) (hk : RcvKept a b) :
    SizeCounted b := by
  rcases hk.data with ⟨hd, hn⟩ | ⟨hd, hn⟩
  · exact h.of_eq hd hn
  · unfold SizeCounted waitingLen
    rw [hd, hn]
    rfl

theorem sizeCounted_takeText {rcv : Receive} (h : SizeCounted rcv) (p : Packet) :
    SizeCounted (takeText p rcv) := by
  have hd : (takeText p rcv).data = rcv.data ++ [p] := rfl
  have hn : (takeText p rcv).dataSize = rcv.dataSize + p.len := rfl
  unfold SizeCounted waitingLen at h ⊢
  rw [hd, hn, h, List.map_append, List.sum_append, List.map_singleton, List.sum_singleton]

/-! ## The queue -/

/-- A queue that does not go on at RCV.NXT only loses what RCV.NXT has passed. -/
theorem mergeLoop_keeps {b : Bool} {rcv : Receive} {map : List (TcpSeq × Packet)}
    (h : ¬ GoesOnAt rcv.next map) :
    mergeLoop b rcv map = .ok (b, { rcv with outOfOrder := map.dropWhile (passed rcv.next) }) := by
  induction map with
  | nil => rfl
  | cons e map ih =>
    obtain ⟨k, p⟩ := e
    unfold GoesOnAt at h
    by_cases hp : passed rcv.next (k, p) = true
    · have hlt : rcv.next.lt (k.add (UInt32.ofNat p.len)) = false := by
        simpa [passed, TcpSeq.ge] using hp
      have hge : rcv.next.ge (k.add (UInt32.ofNat p.len)) = true := hp
      rw [List.dropWhile_cons_of_pos hp] at h ⊢
      rw [mergeLoop]
      simp only [hlt, hge, Bool.and_false, Bool.false_eq_true, if_false, if_true]
      exact ih h
    · have hge : rcv.next.ge (k.add (UInt32.ofNat p.len)) = false := by
        simpa [passed] using hp
      rw [List.dropWhile_cons_of_neg hp] at h ⊢
      have hle : k.le rcv.next = false := by
        simpa using h
      rw [mergeLoop]
      simp only [hle, hge, Bool.false_and, Bool.false_eq_true, if_false]

/-- A segment that holds the byte at RCV.NXT is long enough for what is cut off in front. -/
theorem trim_le_len {k seq : TcpSeq} {n : Nat} (hle : k.le seq = true)
    (hlt : seq.lt (k.add (UInt32.ofNat n)) = true) : sizeOfInt (seq.diff k) ≤ n := by
  have hle' : ¬ Serial.diff seq.raw k.raw < 0 := by
    rw [TcpSeq.le, TcpSeq.gt, Bool.not_eq_true', TcpSeq.lt, decide_eq_false_iff_not] at hle
    exact hle
  have hlt' : Serial.diff seq.raw (k.raw + UInt32.ofNat n) < 0 := by
    rw [TcpSeq.lt, decide_eq_true_eq] at hlt
    exact hlt
  have hd := Serial.diff_of_nonneg hle'
  rw [Serial.diff_neg_iff] at hlt' hle'
  have hs := (seq.raw - k.raw).toNat_lt
  have hsub : seq.raw - (k.raw + UInt32.ofNat n) = (seq.raw - k.raw) - UInt32.ofNat n := by
    grind
  rw [hsub, Serial.toNat_sub, Serial.ofNat_toNat_mod] at hlt'
  have hsize : sizeOfInt (seq.diff k) = (seq.raw - k.raw).toNat := by
    unfold sizeOfInt TcpSeq.diff
    rw [hd]
    omega
  rw [hsize]
  omega

/-- A queue that goes on there is drained, and the packet moved away is asked for its
length. -/
theorem mergeLoop_moves {b : Bool} {rcv : Receive} {map : List (TcpSeq × Packet)}
    (h : GoesOnAt rcv.next map) : mergeLoop b rcv map = .error .movedPacket := by
  induction map with
  | nil =>
    obtain ⟨e, he, -⟩ := h
    cases he
  | cons e map ih =>
    obtain ⟨k, p⟩ := e
    unfold GoesOnAt at h
    by_cases hp : passed rcv.next (k, p) = true
    · have hlt : rcv.next.lt (k.add (UInt32.ofNat p.len)) = false := by
        simpa [passed, TcpSeq.ge] using hp
      have hge : rcv.next.ge (k.add (UInt32.ofNat p.len)) = true := hp
      rw [List.dropWhile_cons_of_pos hp] at h
      rw [mergeLoop]
      simp only [hlt, hge, Bool.and_false, Bool.false_eq_true, if_false, if_true]
      exact ih h
    · have hlt : rcv.next.lt (k.add (UInt32.ofNat p.len)) = true := by
        simpa [passed, TcpSeq.ge] using hp
      rw [List.dropWhile_cons_of_neg hp] at h
      have hle : k.le rcv.next = true := by
        simpa using h
      obtain ⟨q, hq, -⟩ := Packet.trimFront_ok (trim_le_len hle hlt)
      rw [mergeLoop]
      simp only [hle, hlt, Bool.and_self, if_true]
      rw [hq, ok_bind]

/-! ## Text and FIN -/

/-- Text is counted where it is taken. -/
theorem segmentText_counted {now : Int} {q : Packet} {tcb : Tcb} (h : SizeCounted tcb.rcv)
    (hfree : 0 < q.len →
      ¬ GoesOnAt (tcb.rcv.next.add (UInt32.ofNat q.len)) tcb.rcv.outOfOrder) :
    ∃ b t, segmentText now q tcb = .ok (b, t) ∧ SizeCounted t.rcv := by
  unfold segmentText
  by_cases h0 : q.len = 0
  · rw [if_pos h0]
    exact ⟨false, tcb, rfl, h⟩
  rw [if_neg h0]
  have hm : mergeOutOfOrder (takeText q tcb.rcv) = .ok (false, { takeText q tcb.rcv with
      outOfOrder := tcb.rcv.outOfOrder.dropWhile
        (passed (tcb.rcv.next.add (UInt32.ofNat q.len))) }) :=
    @mergeLoop_keeps _ (takeText q tcb.rcv) _ (hfree (by omega))
  rw [hm, ok_bind]
  simp only [Bool.false_eq_true, if_false]
  generalize tcb.rcv.outOfOrder.dropWhile
    (passed (tcb.rcv.next.add (UInt32.ofNat q.len))) = map
  obtain ⟨ef, hsig⟩ := signalDataReceived_eq
    { tcb with rcv := { { takeText q tcb.rcv with outOfOrder := map } with
        window := getModifiedReceiveWindowSize { takeText q tcb.rcv with outOfOrder := map } } }
  rw [hsig]
  refine ⟨_, _, congrArg Except.ok (Prod.mk.eta (p := shouldSendAck _ _ _)).symm, ?_⟩
  rw [(shouldSendAck_quiet _ _ _).rcv]
  exact (sizeCounted_takeText h q).of_eq rfl rfl

theorem segmentText_moves {now : Int} {q : Packet} {tcb : Tcb} (h0 : 0 < q.len)
    (hq : GoesOnAt (tcb.rcv.next.add (UInt32.ofNat q.len)) tcb.rcv.outOfOrder) :
    segmentText now q tcb = .error .movedPacket := by
  have hm : mergeOutOfOrder (takeText q tcb.rcv) = .error .movedPacket :=
    @mergeLoop_moves _ (takeText q tcb.rcv) _ hq
  rw [segmentText, if_neg (by omega), hm, error_bind]

theorem finAndOutput_counted {tcb : Tcb} (h : SizeCounted tcb.rcv) (th : TcpHdr) (finSeq : TcpSeq)
    (b c : Bool) : SizeCounted (finAndOutput th finSeq b c tcb).rcv := by
  rcases finAndOutput_rcv th finSeq b c tcb with hk | ⟨-, -, hk⟩
  · exact h.kept hk
  · exact SizeCounted.kept (a := { tcb.rcv with next := finSeq.add 1 }) h hk

theorem textAndFin_counted {now : Int} {th : TcpHdr} {seq : TcpSeq} {q : Packet} {b : Bool}
    {tcb : Tcb} (h : SizeCounted tcb.rcv)
    (hfree : tcb.takesText = true → 0 < q.len →
      ¬ GoesOnAt (tcb.rcv.next.add (UInt32.ofNat q.len)) tcb.rcv.outOfOrder) :
    ∃ t, textAndFin now th seq q b tcb = .ok t ∧ SizeCounted t.rcv := by
  unfold textAndFin
  simp only
  by_cases ht : tcb.takesText = true
  · rw [if_pos ht]
    obtain ⟨c, u, hu, hcu⟩ := @segmentText_counted now _ _ h (hfree ht)
    rw [hu, ok_bind]
    exact ⟨_, rfl, finAndOutput_counted hcu th _ c b⟩
  rw [if_neg ht]
  by_cases hi : tcb.ignoresText = true
  · rw [if_pos hi]
    exact ⟨tcb, rfl, h⟩
  · rw [if_neg hi]
    exact ⟨_, rfl, finAndOutput_counted h th _ false b⟩

theorem textAndFin_moves {now : Int} {th : TcpHdr} {seq : TcpSeq} {q : Packet} {b : Bool}
    {tcb : Tcb} (ht : tcb.takesText = true) (h0 : 0 < q.len)
    (hq : GoesOnAt (tcb.rcv.next.add (UInt32.ofNat q.len)) tcb.rcv.outOfOrder) :
    textAndFin now th seq q b tcb = .error .movedPacket := by
  unfold textAndFin
  rw [if_pos ht, segmentText_moves h0 hq, error_bind]

/-! ## A segment -/

/-- What a segment leaves to be read is counted, unless it drains the queue. -/
theorem inputHandleOtherState_counted {hw : HwFeatures} {now : Int} {th : TcpHdr} {p : Packet}
    {tcb : Tcb} (h : SizeCounted tcb.rcv) (hs : tcb.state ≠ .synSent)
    (hfree : ¬ MovesQueued tcb ⟨now, .segment th p⟩) :
    inputHandleOtherState hw now th p tcb ≠ .error .movedPacket ∧
      ∀ t, inputHandleOtherState hw now th p tcb = .ok t → SizeCounted t.rcv := by
  have hgo : ∀ {r : Except Fault Tcb}, (∃ t, r = .ok t ∧ SizeCounted t.rcv) →
      r ≠ .error .movedPacket ∧ ∀ t, r = .ok t → SizeCounted t.rcv := by
    rintro r ⟨t, rfl, ht⟩
    exact ⟨nofun, fun u hu => Except.ok.inj hu ▸ ht⟩
  have hd := inputHandleOtherState_dispatched hw now th p tcb
  generalize inputHandleOtherState hw now th p tcb = r at hd
  cases hd with
  | short _ =>
    refine ⟨nofun, fun t ht => ?_⟩
    cases ht
  | unacceptable _ _ => exact hgo ⟨_, rfl, h.kept (.of_eq (output_quiet tcb).rcv)⟩
  | outOfOrder q _ _ _ _ =>
    constructor
    · intro he
      rcases bind_error.mp he with he | ⟨rcv, -, he⟩
      · rcases bind_error.mp he with he | ⟨map, -, he⟩
        · rcases PacketMerger.merge_error he with he | he
          · cases he
          · cases he
        · cases he
      · cases he
    · intro t ht
      obtain ⟨rcv, hins, ht⟩ := bind_ok.mp ht
      obtain ⟨map, -, hins⟩ := bind_ok.mp hins
      obtain rfl := Except.ok.inj hins
      obtain rfl := Except.ok.inj ht
      rw [(output_quiet { tcb with rcv := { tcb.rcv with outOfOrder := map } }).rcv]
      exact h.of_eq rfl rfl
  | inOrder q hl hq =>
    by_cases hp : Proceeds th tcb
    · rw [inOrder_proceeds hp]
      cases ha : ackField hw now th tcb.rcv.next q.len tcb with
      | error f =>
        refine ⟨fun he => ?_, fun t ht => by cases ht⟩
        obtain rfl := Except.error.inj he
        rcases ackField_error ha with h | h | h
        · cases h
        · cases h
        · cases h
      | ok fl =>
        obtain ⟨hk, hkgo⟩ := ackField_rcv ha
        rw [ok_bind]
        cases fl with
        | ret t => exact hgo ⟨t, rfl, h.kept hk⟩
        | go t b =>
          have hkt := hkgo t b rfl
          refine hgo (textAndFin_counted (by rw [hkt]; exact h) fun ht h0 hqd => ?_)
          rw [hkt, hq.len] at hqd
          rw [hq.len] at h0
          refine hfree ⟨hs, hl, hp, ?_, h0, hqd⟩
          rw [← hq.len]
          exact (ackField_takes ha).mp ⟨t, b, rfl, ht⟩
    · obtain ⟨t, ht, he⟩ := inOrder_not_proceeds (p := q) hp
      refine hgo ⟨t, ht, ?_⟩
      rcases he with rfl | he
      · exact h
      · exact h.kept he.rcv

/-- A segment that drains the queue does not return: the drain fails, unless its ACK did. -/
theorem inputHandleOtherState_moves {hw : HwFeatures} {now : Int} {th : TcpHdr} {p : Packet}
    {tcb : Tcb} (hd : MovesQueued tcb ⟨now, .segment th p⟩) :
    ∃ f, inputHandleOtherState hw now th p tcb = .error f ∧ (f = .movedPacket ∨ AckFault f) := by
  obtain ⟨-, hl, hp, ht, h0, hqd⟩ := hd
  have hdis := inputHandleOtherState_dispatched hw now th p tcb
  generalize inputHandleOtherState hw now th p tcb = r at hdis
  cases hdis with
  | short hlen =>
    have := hl.1
    omega
  | unacceptable _ ha =>
    rw [hl.2.1] at ha
    cases ha
  | outOfOrder q _ _ _ hne => exact absurd hl.2.2 hne
  | inOrder q _ hq =>
    rw [← hq.len] at ht h0 hqd
    rw [inOrder_proceeds hp]
    cases ha : ackField hw now th tcb.rcv.next q.len tcb with
    | error f => exact ⟨f, rfl, Or.inr (ackField_error ha)⟩
    | ok fl =>
      obtain ⟨t, b, rfl, htt⟩ := (ackField_takes ha).mpr ht
      have hkt := (ackField_rcv ha).2 t b rfl
      rw [ok_bind]
      simp only
      rw [← hkt] at hqd
      exact ⟨.movedPacket, textAndFin_moves htt h0 hqd, Or.inl rfl⟩

theorem initFromOptions_rcv {hw : HwFeatures} {th : TcpHdr} {optStart : Bytes} {n : Nat} {a b : Tcb}
    (h : initFromOptions hw th optStart n a = .ok b) :
    b.rcv.data = a.rcv.data ∧ b.rcv.dataSize = a.rcv.dataSize := by
  obtain ⟨o, -, h⟩ := bind_ok.mp h
  obtain rfl := Except.ok.inj h
  exact ⟨rfl, rfl⟩

/-- In SYN_SENT no text is taken. -/
theorem inputHandleSynSentState_counted {hw : HwFeatures} {now : Int} {th : TcpHdr} {p : Packet}
    {tcb : Tcb} (h : SizeCounted tcb.rcv) :
    inputHandleSynSentState hw now th p tcb ≠ .error .movedPacket ∧
      ∀ t, inputHandleSynSentState hw now th p tcb = .ok t → SizeCounted t.rcv := by
  constructor
  · intro he
    have := inputHandleSynSentState_error he
    simp at this
  · intro t ht
    unfold inputHandleSynSentState at ht
    obtain ⟨⟨hdr, q⟩, -, ht⟩ := bind_ok.mp ht
    simp only at ht
    split at ht
    · obtain rfl := Except.ok.inj ht
      exact h
    split at ht
    · obtain rfl := Except.ok.inj ht
      split
      · exact h.kept (doReset_ended tcb).rcv
      · exact h
    split at ht
    · unfold synBit at ht
      simp only at ht
      split at ht
      · obtain ⟨area, -, ht⟩ := bind_ok.mp ht
        obtain ⟨b, hb, ht⟩ := bind_ok.mp ht
        obtain rfl := Except.ok.inj ht
        obtain ⟨fs, rv, sr, rto, ef, hd⟩ := doEstablished_eq now b
        rw [(output_quiet _).rcv, hd]
        obtain ⟨hdata, hsize⟩ := initFromOptions_rcv hb
        exact h.of_eq hdata hsize
      · obtain rfl := Except.ok.inj ht
        rw [doSynReceived, (output_quiet _).rcv]
        exact h.of_eq rfl rfl
    · obtain rfl := Except.ok.inj ht
      exact h

/-! ## Runs -/

/-- One event leaves what is to be read counted and looks at no packet that was moved away,
unless it drains the queue. -/
theorem step_counted {hw : HwFeatures} {tcb : Tcb} {e : Event} (h : SizeCounted tcb.rcv)
    (hd : ¬ MovesQueued tcb e) : step hw tcb e ≠ .error .movedPacket ∧
      ∀ t, step hw tcb e = .ok t → SizeCounted t.rcv := by
  obtain ⟨now, act⟩ := e
  by_cases hact : ∃ th p, act = .segment th p
  · obtain ⟨th, p, rfl⟩ := hact
    by_cases hs : tcb.state = .synSent
    · have hstep : step hw tcb ⟨now, .segment th p⟩ = inputHandleSynSentState hw now th p tcb :=
        if_pos hs
      rw [hstep]
      exact inputHandleSynSentState_counted h
    · have hstep : step hw tcb ⟨now, .segment th p⟩ = inputHandleOtherState hw now th p tcb :=
        if_neg hs
      rw [hstep]
      exact inputHandleOtherState_counted h hs hd
  · rcases step_changes hw tcb (e := ⟨now, act⟩) (fun th p he => hact ⟨th, p, he⟩) with
      he | ⟨t, ht, hch⟩
    · rw [he]
      refine ⟨nofun, fun t ht => ?_⟩
      cases ht
    · rw [ht]
      refine ⟨nofun, fun u hu => ?_⟩
      obtain rfl := Except.ok.inj hu
      exact h.kept hch.rcv.1

/-- An event that drains the queue does not return. -/
theorem step_moves {hw : HwFeatures} {tcb : Tcb} {e : Event} (hd : MovesQueued tcb e) :
    ∃ f, step hw tcb e = .error f ∧ (f = .movedPacket ∨ AckFault f) := by
  obtain ⟨now, act⟩ := e
  cases act with
  | segment th p =>
    obtain ⟨f, hf, hor⟩ := @inputHandleOtherState_moves hw _ _ _ _ hd
    exact ⟨f, (if_neg hd.1).trans hf, hor⟩
  | _ => exact absurd hd id

theorem Opened.sizeCounted {hw : HwFeatures} {tcb : Tcb} (h : Opened hw tcb) :
    SizeCounted tcb.rcv := by
  cases h with
  | active mem id now isn =>
    rw [connect, doSynSent, (output_quiet _).rcv]
    rfl
  | passive _ _ _ h =>
    obtain ⟨⟨hdr, q⟩, -, h⟩ := bind_ok.mp h
    obtain ⟨area, -, h⟩ := bind_ok.mp h
    obtain ⟨b, hb, h⟩ := bind_ok.mp h
    obtain rfl := Except.ok.inj h
    obtain ⟨hdata, hsize⟩ := initFromOptions_rcv hb
    rw [doSynReceived, (output_quiet _).rcv]
    unfold SizeCounted waitingLen
    show b.rcv.dataSize = _
    rw [hsize, hdata]
    rfl

/-- In every state of a run `_rcv.data_size` counts the packets that wait for the user, and
when no segment drains the out-of-order queue, no packet is looked at after it was
moved away. A segment that drains the queue never returns. -/
theorem run_counts_received (hw : HwFeatures) {tcb : Tcb} (es : List Event) (ho : Opened hw tcb) :
    (Along hw (fun s e => ¬ MovesQueued s e) tcb es →
      run hw tcb es ≠ .error .movedPacket ∧
      ∀ pre post s, es = pre ++ post → run hw tcb pre = .ok s →
        s.rcv.dataSize = waitingLen s.rcv) ∧
    ∀ pre e post s, es = pre ++ e :: post → run hw tcb pre = .ok s → MovesQueued s e →
      ∃ f, run hw tcb es = .error f ∧ (f = .movedPacket ∨ AckFault f) := by
  have hstart := ho.sizeCounted
  constructor
  · intro hd
    constructor
    · refine Run.run_ne_error (Run.Along.of_inv (I := fun s => SizeCounted s.rcv)
        (fun s e t hi hps ht => (step_counted hi hps).2 t ht)
        (fun s e hi hps => (step_counted hi hps).1) hstart hd)
    · rintro pre post s rfl hpre
      exact Run.run_inv (I := fun s => SizeCounted s.rcv)
        (fun s e t hi hps ht => (step_counted hi hps).2 t ht) hstart hd.of_append hpre
  · rintro pre e post s rfl hpre hd
    obtain ⟨f, hf, hor⟩ := @step_moves hw _ _ hd
    exact ⟨f, Run.run_error.mpr ⟨pre, e, post, s, rfl, hpre, hf⟩, hor⟩

/-- "b", which is out of order, then "ab", which covers it, and a read. -/
def coveredText : List Event :=
  handshake ++ [⟨3, textAt 1 [98]⟩, ⟨4, textAt 0 [97, 98]⟩, ⟨5, .read⟩]

theorem coveredText_counts : run {} ((Stack.newTcb {} ⟨0, 0, 0, 0⟩).connect {} 0 ⟨100⟩)
    coveredText ≠ .error .movedPacket :=
  ((run_counts_received {} coveredText (.active {} ⟨0, 0, 0, 0⟩ 0 ⟨100⟩)).1
    (by decide +kernel)).1

/-- "b" in front of "a": the packet with "b" is moved into `_rcv.data` and then asked for its
length. -/
theorem reordered_moves : ∃ s,
    run {} ((Stack.newTcb {} ⟨0, 0, 0, 0⟩).connect {} 0 ⟨100⟩)
      (handshake ++ [⟨3, textAt 1 [98]⟩]) = .ok s ∧ MovesQueued s ⟨4, textAt 0 [97]⟩ ∧
    step {} s ⟨4, textAt 0 [97]⟩ = .error .movedPacket := by
  refine ⟨_, rfl, ?_, rfl⟩
  decide +kernel

end Seastar.Net.Tcp.Tcb
