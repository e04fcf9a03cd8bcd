import Seastar.Net.Tcp.StepSpec

/-!
The send path carries the stream of the user. Position `n` of everything the user
gave to `send` has the sequence number `seqAt base n`, where `base` is ISS + 1.
The invariant says that SND.UNA stands at some position, that the queue of
unacknowledged packets and after it the unsent ones hold the stream from there
on, and that SND.NXT stands where the first ends and the second begins.

Giving up a retransmission throws both queues away while the user may go on
sending, so the property holds of the runs in which that does not happen.
-/

namespace Seastar.Net.Tcp.Tcb

open Lib

variable {base : TcpSeq}

/-- The bytes sent and not acknowledged. -/
def unackedBytes (snd : Send) : Bytes := bytesOf (snd.data.map UnackedSegment.p)

/-- A data segment carries the bytes of the stream at its sequence number. -/
def CarriesUserData (base : TcpSeq) (stream : Bytes) (s : OutSegment) : Prop :=
  s.payload.len ≠ 0 → ∃ pos, s.hdr.seq = seqAt base pos ∧ pos + s.payload.len ≤ stream.length ∧
    s.payload.bytes = (stream.drop pos).take s.payload.len

instance (base : TcpSeq) (stream : Bytes) (s : OutSegment) :
    Decidable (CarriesUserData base stream s) :=
  decidable_of_iff (s.payload.len ≠ 0 → ∃ pos < stream.length + 1, s.hdr.seq = seqAt base pos ∧
      pos + s.payload.len ≤ stream.length ∧
      s.payload.bytes = (stream.drop pos).take s.payload.len) <| by
    refine imp_congr_right fun _ => ⟨fun ⟨pos, _, h⟩ => ⟨pos, h⟩, fun ⟨pos, h⟩ => ⟨pos, ?_, h⟩⟩
    have := h.2.1
    omega

/-- SND.UNA at position `n` of the stream: the two queues hold the stream from there on, and
SND.NXT is between them. -/
structure InFlightAt (base : TcpSeq) (n : Nat) (snd : Send) : Prop where
  le : n ≤ snd.stream.length
  unacknowledged : snd.unacknowledged = seqAt base n
  next : snd.next = seqAt base (n + (unackedBytes snd).length)
  stream : snd.stream.drop n = unackedBytes snd ++ bytesOf snd.unsent
  short : ∀ seg ∈ snd.data, 0 < seg.p.len ∧ seg.p.len < 2 ^ 16

theorem InFlightAt.congr {n : Nat} {a b : Send} (h : InFlightAt base n a)
    (hu : b.unacknowledged = a.unacknowledged) (hn : b.next = a.next) (hd : b.data = a.data)
    (hs : b.unsent = a.unsent) (hst : b.stream = a.stream) : InFlightAt base n b where
  le := by
    rw [hst]
    exact h.le
  unacknowledged := hu.trans h.unacknowledged
  next := by
    rw [unackedBytes, hd, hn]
    exact h.next
  stream := by
    rw [unackedBytes, hd, hs, hst]
    exact h.stream
  short := by
    rw [hd]
    exact h.short

/-! ## Acknowledgements -/

/-- An acknowledgement between SND.UNA and SND.NXT stands at a position of the bytes in
flight, however many they are. -/
theorem acked_pos {n l : Nat} {ack : TcpSeq} (h₁ : (seqAt base n).lt ack = true)
    (h₂ : ack.le (seqAt base (n + l)) = true) :
    ∃ a, ack = seqAt base a ∧ n < a ∧ a ≤ n + l ∧ a ≤ n + 2 ^ 31 := by
  have hack : ack = seqAt base (n + (ack.sub (seqAt base n)).toNat) := by
    rw [← seqAt_add]
    simp only [TcpSeq.add, TcpSeq.sub, UInt32.ofNat_toNat]
    rw [UInt32.add_comm, UInt32.sub_add_cancel]
  generalize hd : (ack.sub (seqAt base n)).toNat = d at hack
  have hlt : d < 2 ^ 32 := hd ▸ UInt32.toNat_lt _
  rw [hack, TcpSeq.lt, seqAt_diff, decide_eq_true_eq, Serial.diff_neg_iff, Serial.toNat_sub,
    Serial.ofNat_toNat_mod, Serial.ofNat_toNat_mod] at h₁
  refine ⟨n + d, hack, by omega, ?_, by omega⟩
  by_contra hc
  rw [hack, TcpSeq.le, TcpSeq.gt, Bool.not_eq_true', seqAt_lt base (by omega) (by omega),
    decide_eq_false_iff_not] at h₂
  omega

/-- What is left after the segments an acknowledgement covers whole. -/
theorem ackedWhole_spec {data : List UnackedSegment} {m a : Nat}
    (hshort : ∀ seg ∈ data, 0 < seg.p.len ∧ seg.p.len < 2 ^ 16) (hma : m ≤ a)
    (ha : a ≤ m + 2 ^ 31) :
    ∃ m' rest, ackedWhole (seqAt base a) (seqAt base m) data = (seqAt base m', rest) ∧
      m ≤ m' ∧ m' ≤ a ∧ rest <:+ data ∧
      bytesOf (rest.map UnackedSegment.p) = (bytesOf (data.map UnackedSegment.p)).drop (m' - m) ∧
      m' - m ≤ (bytesOf (data.map UnackedSegment.p)).length ∧
      ∀ seg ∈ rest.head?, a < m' + seg.p.len := by
  induction data generalizing m with
  | nil => exact ⟨m, [], rfl, Nat.le_refl m, hma, List.suffix_refl _, by simp, by simp, by simp⟩
  | cons seg data ih =>
    obtain ⟨h0, h16⟩ := hshort seg List.mem_cons_self
    have hle : (seqAt base (m + seg.p.len)).le (seqAt base a) = decide (m + seg.p.len ≤ a) :=
      seqAt_le base (by omega) (by omega)
    rw [ackedWhole, seqAt_add, hle]
    by_cases hc : m + seg.p.len ≤ a
    · obtain ⟨m', rest, he, hm, hm', hsuf, hb, hl, hhead⟩ :=
        ih (fun s hs => hshort s (List.mem_cons_of_mem _ hs)) hc (by omega)
      have hcut : m' - m = seg.p.bytes.length + (m' - (m + seg.p.len)) := by
        rw [Packet.length_bytes]
        omega
      refine ⟨m', rest, by rw [decide_eq_true hc, if_pos rfl, he], by omega, hm',
        hsuf.trans (List.suffix_cons seg data), ?_, ?_, hhead⟩
      · rw [hb, List.map_cons, bytesOf_cons, hcut, List.drop_length_add_append]
      · rw [List.map_cons, bytesOf_cons, List.length_append]
        omega
    · refine ⟨m, seg :: data, by rw [decide_eq_false hc, if_neg Bool.false_ne_true],
        Nat.le_refl m, hma, List.suffix_refl _, by simp, by simp, ?_⟩
      rintro s ⟨⟩
      omega

/-- An acknowledgement of data moves SND.UNA to its position, and cuts the queue there. -/
theorem dataSegmentAcked_inFlight {now : Int} {segAck : TcpSeq} {k : UInt32} {a b : Tcb} {n : Nat}
    (hn : acksNewData segAck a.snd = true) (h : dataSegmentAcked now segAck a = .ok (k, b))
    (hi : InFlightAt base n a.snd) : ∃ n', InFlightAt base n' b.snd := by
  rw [acksNewData, Bool.and_eq_true, hi.unacknowledged, hi.next] at hn
  obtain ⟨p, rfl, hnp, hpl, hp31⟩ := acked_pos hn.1 hn.2
  obtain ⟨⟨⟨ua, dt, cw, cq, sp, fs, rv, sr, hsnd⟩, -⟩, hua, hpart⟩ := dataSegmentAcked_spec h
  obtain ⟨m, rest, he, hnm, hmp, hsuf, hbytes, hlen, hhead⟩ :=
    ackedWhole_spec hi.short (Nat.le_of_lt hnp) hp31
  rw [hi.unacknowledged, he] at hua hpart
  have hlt : (seqAt base m).lt (seqAt base p) = decide (m < p) := by
    refine seqAt_lt base (by omega) ?_
    omega
  have hun : b.snd.unacknowledged = seqAt base p := by
    rw [hua, hlt]
    by_cases hc : m < p
    · rw [decide_eq_true hc, if_pos rfl]
    · rw [decide_eq_false hc, if_neg Bool.false_ne_true]
      rw [Nat.le_antisymm hmp (Nat.le_of_not_lt hc)]
  -- the queue is the old one from the acknowledged position on
  have hqueue : unackedBytes b.snd = (unackedBytes a.snd).drop (p - n) ∧
      ∀ seg ∈ b.snd.data, 0 < seg.p.len ∧ seg.p.len < 2 ^ 16 := by
    rw [ackedPart, hlt] at hpart
    by_cases hc : m < p
    · rw [decide_eq_true hc, if_pos rfl] at hpart
      rcases rest with _ | ⟨seg, rest⟩
      · have h0 := congrArg List.length hbytes
        rw [List.length_drop] at h0
        simp only [List.map_nil, bytesOf_nil, List.length_nil] at h0
        unfold unackedBytes at hpl
        omega
      · have hs := hhead seg rfl
        have hseg := hi.short seg (hsuf.subset List.mem_cons_self)
        simp only [trimFirst] at hpart
        rw [seqAt_trim base (Nat.le_of_lt hc) (by omega)] at hpart
        obtain ⟨q, hq, hpart⟩ := bind_ok.mp hpart
        obtain ⟨-, hqb, hql⟩ := Packet.trimFront_spec hq
        have hd := (Except.ok.inj hpart).symm
        constructor
        · rw [unackedBytes, hd]
          simp only [List.map_cons, bytesOf_cons]
          rw [hqb, unackedBytes, show p - n = (m - n) + (p - m) by omega, ← List.drop_drop, ← hbytes,
            List.map_cons, bytesOf_cons, List.drop_append_of_le_length
              (by rw [Packet.length_bytes]; omega)]
        · rw [hd]
          intro s hs'
          rcases List.mem_cons.mp hs' with rfl | hs'
          · simp only
            omega
          · exact hi.short s (hsuf.subset (List.mem_cons_of_mem _ hs'))
    · rw [decide_eq_false hc, if_neg Bool.false_ne_true] at hpart
      have hd := (Except.ok.inj hpart).symm
      have hmp' : m = p := Nat.le_antisymm hmp (Nat.le_of_not_lt hc)
      constructor
      · rw [unackedBytes, hd]
        rw [← hmp']
        exact hbytes
      · rw [hd]
        exact fun s hs => hi.short s (hsuf.subset hs)
  have hst : b.snd.stream = a.snd.stream ∧ b.snd.next = a.snd.next ∧ b.snd.unsent = a.snd.unsent := by
    rw [hsnd]
    exact ⟨rfl, rfl, rfl⟩
  have hall := congrArg List.length hi.stream
  rw [List.length_drop, List.length_append] at hall
  refine ⟨p, ?_, hun, ?_, ?_, hqueue.2⟩
  · rw [hst.1]
    omega
  · rw [hst.2.1, hi.next, hqueue.1, List.length_drop]
    congr 1
    omega
  · rw [hst.1, hst.2.2, hqueue.1, show p = n + (p - n) by omega, ← List.drop_drop, hi.stream,
      List.drop_append_of_le_length (by omega), show n + (p - n) - n = p - n by omega]

/-! ## Segments handed on -/

theorem CarriesUserData.append {stream more : Bytes} {s : OutSegment}
    (h : CarriesUserData base stream s) : CarriesUserData base (stream ++ more) s := by
  intro h0
  obtain ⟨pos, hseq, hle, hb⟩ := h h0
  refine ⟨pos, hseq, ?_, ?_⟩
  · rw [List.length_append]
    omega
  · rw [List.drop_append_of_le_length (by omega), List.take_append_of_le_length, hb]
    rw [List.length_drop]
    omega

/-- The front of the queue is sent again at SND.UNA. -/
theorem InFlightAt.retransmits {n : Nat} {snd : Send} {seg : UnackedSegment}
    {data : List UnackedSegment} {s : OutSegment} (h : InFlightAt base n snd)
    (hd : snd.data = seg :: data) (hseq : s.hdr.seq = snd.unacknowledged)
    (hb : s.payload.bytes = seg.p.bytes) : CarriesUserData base snd.stream s := by
  intro _
  have hlen : s.payload.len = seg.p.len := by
    rw [← Packet.length_bytes, hb, Packet.length_bytes]
  have hst := h.stream
  rw [unackedBytes, hd, List.map_cons, bytesOf_cons, List.append_assoc] at hst
  refine ⟨n, hseq.trans h.unacknowledged, ?_, ?_⟩
  · have hl := congrArg List.length hst
    rw [List.length_drop, List.length_append, Packet.length_bytes] at hl
    have := h.le
    have := h.short seg (by rw [hd]; exact List.mem_cons_self)
    omega
  · rw [hst, hb, hlen, ← Packet.length_bytes, List.take_left]

/-- New data are sent at SND.NXT. -/
theorem InFlightAt.sends {n : Nat} {snd : Send} {s : OutSegment} {rest : Bytes}
    (h : InFlightAt base n snd) (hseq : s.hdr.seq = snd.next)
    (hb : s.payload.bytes ++ rest = bytesOf snd.unsent) : CarriesUserData base snd.stream s := by
  intro h0
  have hdrop : snd.stream.drop (n + (unackedBytes snd).length) = s.payload.bytes ++ rest := by
    rw [← List.drop_drop, h.stream, List.drop_left, hb]
  refine ⟨_, hseq.trans h.next, ?_, ?_⟩
  · have hl := congrArg List.length hdrop
    rw [List.length_drop, List.length_append, Packet.length_bytes] at hl
    omega
  · rw [hdrop, ← Packet.length_bytes, List.take_left]

/-- The invariant of the sending half: the connection still sends, or is closed; all
segments that wait to be handed on, or were, carry the stream. -/
structure SendsStream (base : TcpSeq) (tcb : Tcb) : Prop where
  alive : Sending tcb ∨ tcb.state = .closed
  inFlight : Sending tcb → ∃ n, InFlightAt base n tcb.snd
  queued : ∀ s ∈ tcb.packetq, CarriesUserData base tcb.snd.stream s
  handed : ∀ s ∈ tcb.handed, CarriesUserData base tcb.snd.stream s

theorem Sending.not_closed {tcb : Tcb} (h : Sending tcb) : tcb.state ≠ .closed := by
  rcases h with h | h
  · rw [h]
    decide
  · rw [h]
    decide

theorem Sending.synNeedsOn {tcb : Tcb} (h : Sending tcb) : tcb.synNeedsOn = false := by
  rcases h with h | h
  · rw [Tcb.synNeedsOn, h]
    rfl
  · rw [Tcb.synNeedsOn, h]
    rfl

theorem SendsStream.sending {tcb : Tcb} (h : SendsStream base tcb) (hs : tcb.state ≠ .closed) :
    Sending tcb := h.alive.resolve_right hs

/-- The sending half, the queues of segments and the state are kept. -/
theorem SendsStream.kept {a b : Tcb} (h : SendsStream base a) (hk : SndKept a b)
    (hs : b.state = a.state) : SendsStream base b := by
  obtain ⟨⟨hu, hn, -, hd, hun, -, hst⟩, hp, hh⟩ := hk
  refine ⟨?_, fun hb => ?_, ?_, ?_⟩
  · rw [Sending, hs]
    exact h.alive
  · rw [Sending, hs] at hb
    obtain ⟨n, hi⟩ := h.inFlight hb
    exact ⟨n, hi.congr hu hn hd hun hst⟩
  · rw [hp, hst]
    exact h.queued
  · rw [hh, hst]
    exact h.handed

theorem SendsStream.ended {a b : Tcb} (h : SendsStream base a) (he : Ended a b) :
    SendsStream base b := by
  refine ⟨Or.inr he.state, fun hb => absurd he.state hb.not_closed, ?_, ?_⟩
  · rw [he.packetq, he.stream]
    exact h.queued
  · rw [he.handed, he.stream]
    exact h.handed

theorem SendsStream.retransmitted {a b : Tcb} (h : SendsStream base a) (hs : a.state ≠ .closed)
    (hr : Retransmitted a b) : SendsStream base b := by
  obtain ⟨n, hi⟩ := h.inFlight (h.sending hs)
  obtain ⟨seg, data, da, s, pa, ef, hd, hseq, hb, rfl⟩ := hr
  have hbytes : unackedBytes { a.snd with
      data := { seg with nrTransmits := seg.nrTransmits + 1 } :: data } = unackedBytes a.snd := by
    rw [unackedBytes, unackedBytes, hd]
    rfl
  refine ⟨h.alive, fun _ => ⟨n, hi.le, hi.unacknowledged, ?_, ?_, ?_⟩, ?_, h.handed⟩
  · rw [hbytes]
    exact hi.next
  · rw [hbytes]
    exact hi.stream
  · intro t ht
    rcases List.mem_cons.mp ht with rfl | ht
    · exact hi.short seg (by rw [hd]; exact List.mem_cons_self)
    · exact hi.short t (by rw [hd]; exact List.mem_cons_of_mem _ ht)
  · intro t ht
    rcases List.mem_append.mp ht with ht | ht
    · exact h.queued t ht
    · rw [List.mem_singleton.mp ht]
      exact hi.retransmits hd hseq hb

/-- The moves of the ACK field keep the invariant. -/
theorem Move.sendsStream {a b : Tcb} (h : SendsStream base a) (hs : Sending a) (hm : Move a b) :
    SendsStream base b := by
  have hst := hm.frame.2
  cases hm with
  | quiet hq => exact h.kept hq.sndKept hq.state
  | acked hn hd =>
    obtain ⟨n, hi⟩ := h.inFlight hs
    obtain ⟨⟨hc, rto, ef, hb⟩, -⟩ := dataSegmentAcked_spec hd
    obtain ⟨_, _, _, _, _, _, _, _, hsnd⟩ := hc.eq
    have hstream : b.snd.stream = a.snd.stream := by rw [hsnd]
    have hq : b.packetq = a.packetq ∧ b.handed = a.handed := by
      rw [hb]
      exact ⟨rfl, rfl⟩
    refine ⟨?_, fun _ => dataSegmentAcked_inFlight hn hd hi, ?_, ?_⟩
    · rw [Sending, hst]
      exact h.alive
    · rw [hq.1, hstream]
      exact h.queued
    · rw [hq.2, hstream]
      exact h.handed
  | retransmitted hr => exact h.retransmitted hs.not_closed hr

theorem Moves.sendsStream {a b : Tcb} (h : SendsStream base a) (hs : Sending a) (hm : Moves a b) :
    SendsStream base b := by
  induction hm with
  | refl => exact h
  | tail hab hbc ih => exact Move.sendsStream ih (by rwa [Sending, (Moves.frame hab).2]) hbc

theorem InFlightAt.fresh {n : Nat} {snd : Send} {now : Int} {p clone : Packet}
    {unsent : List Packet} {lt ul : UInt32} (h : InFlightAt base n snd)
    (hc : clone.bytes = p.bytes) (hp : p.len < 2 ^ 16)
    (hb : p.bytes ++ bytesOf unsent = bytesOf snd.unsent) :
    InFlightAt base n { snd with
      unsent := unsent, unsentLen := ul, limitedTransfer := lt
      next := snd.next.add (UInt32.ofNat p.len)
      data := snd.data ++ sentSegments now p clone } := by
  have hcl : clone.len = p.len := by rw [← Packet.length_bytes, hc, Packet.length_bytes]
  have hsent : bytesOf ((sentSegments now p clone).map UnackedSegment.p) = p.bytes := by
    unfold sentSegments
    split
    · rename_i h0
      rw [Packet.bytes_eq_nil_of_len p h0]
      rfl
    · simp [hc]
  have hbytes : unackedBytes { snd with
      unsent := unsent, unsentLen := ul, limitedTransfer := lt
      next := snd.next.add (UInt32.ofNat p.len)
      data := snd.data ++ sentSegments now p clone } = unackedBytes snd ++ p.bytes := by
    rw [unackedBytes, unackedBytes, List.map_append, bytesOf_append, hsent]
  refine ⟨h.le, h.unacknowledged, ?_, ?_, ?_⟩
  · rw [hbytes, List.length_append, Packet.length_bytes, ← Nat.add_assoc, ← seqAt_add, ← h.next]
  · rw [hbytes, List.append_assoc, hb]
    exact h.stream
  · intro seg hs
    rcases List.mem_append.mp hs with hs | hs
    · exact h.short seg hs
    · unfold sentSegments at hs
      split at hs
      · cases hs
      · rw [List.mem_singleton.mp hs]
        simp only
        omega

/-- Every other change keeps it, unless it ends the sending half. -/
theorem Change.sendsStream {ends : Prop} {a b : Tcb} (he : ¬ ends) (h : SendsStream base a)
    (hc : Change ends a b) : SendsStream base b := by
  cases hc with
  | quiet hq => exact h.kept hq.sndKept hq.state
  | received r ef _ => exact h.kept ⟨⟨rfl, rfl, rfl, rfl, rfl, rfl, rfl⟩, rfl, rfl⟩ rfl
  | queued p =>
    refine ⟨h.alive, fun hs => ?_, fun s hs => (h.queued s hs).append,
      fun s hs => (h.handed s hs).append⟩
    obtain ⟨n, hi⟩ := h.inFlight hs
    refine ⟨n, ?_, hi.unacknowledged, hi.next, ?_, hi.short⟩
    · simp only [List.length_append]
      exact Nat.le_trans hi.le (Nat.le_add_right _ _)
    · simp only [bytesOf_append, bytesOf_cons, bytesOf_nil, List.append_nil]
      rw [List.drop_append_of_le_length hi.le, hi.stream, List.append_assoc]
      rfl
  | fresh hs ho =>
    obtain ⟨n, hi⟩ := h.inFlight (h.sending hs)
    obtain ⟨p, clone, unsent, lt, da, rt, s, h', hseq, hp, hcl, -, h16, hb⟩ :=
      outputOne_fresh _ _ hs
    obtain rfl := Except.ok.inj (h'.symm.trans ho)
    rw [(h.sending hs).synNeedsOn, if_neg Bool.false_ne_true] at hseq
    refine ⟨h.alive, fun _ => ⟨n, hi.fresh hcl h16 hb⟩, fun t ht => ?_, h.handed⟩
    rcases List.mem_append.mp ht with ht | ht
    · exact h.queued t ht
    · rw [List.mem_singleton.mp ht]
      exact hi.sends hseq (by rw [hp]; exact hb)
  | retransmitted hs hr => exact h.retransmitted hs hr
  | counted hs _ =>
    exact ⟨h.alive, fun hb => absurd hs hb.not_closed, h.queued, h.handed⟩
  | handed hp =>
    refine ⟨h.alive, h.inFlight, fun s hs => h.queued s ?_, fun s hs => ?_⟩
    · rw [hp]
      exact List.mem_cons_of_mem _ hs
    · rcases List.mem_append.mp hs with hs | hs
      · exact h.handed s hs
      · refine h.queued s ?_
        rw [hp, List.mem_singleton.mp hs]
        exact List.mem_cons_self
  | cleaned hs =>
    exact ⟨h.alive, fun hb => absurd (hs hb) he, h.queued, h.handed⟩
  | closing s hs _ => exact absurd hs he

theorem Changes.sendsStream {ends : Prop} {a b : Tcb} (he : ¬ ends) (h : SendsStream base a)
    (hc : Changes ends a b) : SendsStream base b := by
  induction hc with
  | refl => exact h
  | tail _ hbc ih => exact Change.sendsStream he ih hbc

/-! ## Runs -/

/-- One event keeps the invariant, unless it ends the sending half. -/
theorem step_sendsStream {hw : HwFeatures} {a b : Tcb} {e : Event} (h : SendsStream base a)
    (he : ¬ EndsSending a e) (hb : step hw a e = .ok b) : SendsStream base b := by
  obtain ⟨now, act⟩ := e
  by_cases hact : ∃ th p, act = .segment th p
  · obtain ⟨th, p, rfl⟩ := hact
    have hs : a.state ≠ .synSent := by
      rcases h.alive with (hs | hs) | hs
      all_goals
        rw [hs]
        decide
    have hb : inputHandleOtherState hw now th p a = .ok b := (if_neg hs).symm.trans hb
    rcases h.alive with hs | hs
    · rcases inputHandleOtherState_sending hb hs with ⟨u, hm, hk, hsb⟩ | he
      · have hu := Moves.sendsStream h hs hm
        have hsu : Sending u := by rwa [Sending, hm.frame.2]
        obtain ⟨n, hi⟩ := hu.inFlight hsu
        obtain ⟨⟨h₁, h₂, -, h₄, h₅, -, h₇⟩, hp, hh⟩ := hk
        refine ⟨Or.inl hsb, fun _ => ⟨n, hi.congr h₁ h₂ h₄ h₅ h₇⟩, ?_, ?_⟩
        · rw [hp, h₇]
          exact hu.queued
        · rw [hh, h₇]
          exact hu.handed
      · exact h.ended he
    · rcases inputHandleOtherState_closed hb hs with ⟨hk, hsb⟩ | he
      · exact h.kept hk (hsb.trans hs.symm)
      · exact h.ended he
  · rcases step_changes hw a (e := ⟨now, act⟩) (fun th p h => hact ⟨th, p, h⟩) with hf | ⟨t, ht, hc⟩
    · rw [hf] at hb
      cases hb
    · obtain rfl := Except.ok.inj (ht.symm.trans hb)
      exact Changes.sendsStream he h hc

/-- A connection that has just become ESTABLISHED: the SYN is acknowledged, no data have
been given to it, and no segment with data was sent. -/
structure JustEstablished (tcb : Tcb) : Prop where
  state : tcb.state = .established
  unacknowledged : tcb.snd.unacknowledged = tcb.snd.initial.add 1
  next : tcb.snd.next = tcb.snd.initial.add 1
  data : tcb.snd.data = []
  unsent : tcb.snd.unsent = []
  stream : tcb.snd.stream = []
  empty : ∀ s ∈ tcb.packetq ++ tcb.handed, s.payload.len = 0

instance (tcb : Tcb) : Decidable (JustEstablished tcb) :=
  decidable_of_iff (tcb.state = .established ∧ tcb.snd.unacknowledged = tcb.snd.initial.add 1 ∧
      tcb.snd.next = tcb.snd.initial.add 1 ∧ tcb.snd.data = [] ∧ tcb.snd.unsent = [] ∧
      tcb.snd.stream = [] ∧ ∀ s ∈ tcb.packetq ++ tcb.handed, s.payload.len = 0)
    ⟨fun ⟨h₁, h₂, h₃, h₄, h₅, h₆, h₇⟩ => ⟨h₁, h₂, h₃, h₄, h₅, h₆, h₇⟩,
      fun h => ⟨h.state, h.unacknowledged, h.next, h.data, h.unsent, h.stream, h.empty⟩⟩

theorem JustEstablished.sendsStream {tcb : Tcb} (h : JustEstablished tcb) :
    SendsStream (tcb.snd.initial.add 1) tcb where
  alive := Or.inl (Or.inl h.state)
  inFlight _ := by
    refine ⟨0, Nat.zero_le _, ?_, ?_, ?_, ?_⟩
    · rw [seqAt_zero, h.unacknowledged]
    · rw [unackedBytes, h.data, h.next]
      exact (seqAt_zero _).symm
    · rw [unackedBytes, h.data, h.unsent, h.stream]
      rfl
    · rw [h.data]
      exact nofun
  queued s hs h0 := absurd (h.empty s (List.mem_append_left _ hs)) h0
  handed s hs h0 := absurd (h.empty s (List.mem_append_right _ hs)) h0

/-- In every run from an established connection that neither closes it nor gives up a
retransmission, every data segment handed on carries the stream at its sequence number,
and as long as the connection sends, the stream from SND.UNA on is in the two queues,
with SND.NXT between them. -/
theorem run_sendsStream (hw : HwFeatures) {tcb s : Tcb} (es : List Event)
    (h : JustEstablished tcb) (he : Along hw (fun s e => ¬ EndsSending s e) tcb es)
    (pre post : List Event) (hes : es = pre ++ post) (hpre : run hw tcb pre = .ok s) :
    (∀ seg ∈ s.handed, CarriesUserData (tcb.snd.initial.add 1) s.snd.stream seg) ∧
      (Sending s → ∃ n, InFlightAt (tcb.snd.initial.add 1) n s.snd) := by
  subst hes
  have hs : SendsStream (tcb.snd.initial.add 1) s :=
    Run.run_inv (fun a e b ha he hb => step_sendsStream ha he hb) h.sendsStream he.of_append hpre
  exact ⟨hs.handed, hs.inFlight⟩

/-- An established connection with a window of ten bytes. -/
def sender : Tcb :=
  { state := .established
    snd := { unacknowledged := ⟨101⟩, next := ⟨101⟩, initial := ⟨100⟩, window := 10, mss := 536
             cwnd := 1072 } }

/-- "a" is sent, times out, and is sent again. -/
def retried : List Event :=
  [⟨3, .send (Packet.ofFrags [[97]])⟩, ⟨4, .getPacket⟩, ⟨100000, .retransmitExpires⟩,
    ⟨100001, .getPacket⟩]

theorem retried_carries : ∃ s, run {} sender retried = .ok s ∧
    ∀ seg ∈ s.handed, CarriesUserData ⟨101⟩ s.snd.stream seg :=
  ⟨_, rfl, (@run_sendsStream {} sender _ retried (by decide +kernel) (by decide +kernel) retried []
    (List.append_nil _).symm rfl).1⟩

/-- "a" is sent, and "b" given to the connection while the device is busy; "a" times out
until the connection gives it up. Then "c" is given to it and sent. -/
def abandoned : List Event :=
  [⟨3, .send (Packet.ofFrags [[97]])⟩, ⟨4, .getPacket⟩, ⟨5, .send (Packet.ofFrags [[98]])⟩,
    ⟨100000, .retransmitExpires⟩, ⟨200000, .retransmitExpires⟩, ⟨300000, .retransmitExpires⟩,
    ⟨400000, .retransmitExpires⟩, ⟨500000, .retransmitExpires⟩, ⟨600000, .retransmitExpires⟩,
    ⟨600001, .send (Packet.ofFrags [[99]])⟩, ⟨600002, .getPacket⟩, ⟨600003, .getPacket⟩,
    ⟨600004, .getPacket⟩, ⟨600005, .getPacket⟩, ⟨600006, .getPacket⟩, ⟨600007, .getPacket⟩]

/-- "c" is sent in the place of "b", on a connection that is still ESTABLISHED. -/
theorem abandoned_corrupts : ∃ tcb s, run {} (connect {} 0 ⟨100⟩ {}) handshake = .ok tcb ∧
    JustEstablished tcb ∧ run {} tcb abandoned = .ok s ∧ s.state = .established ∧
    ∃ seg ∈ s.handed, ¬ CarriesUserData (tcb.snd.initial.add 1) s.snd.stream seg := by
  refine ⟨_, _, rfl, ?_, rfl, rfl, ?_⟩
  · decide +kernel
  · decide +kernel

end Seastar.Net.Tcp.Tcb
