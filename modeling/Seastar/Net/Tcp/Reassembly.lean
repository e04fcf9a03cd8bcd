import Seastar.Net.Tcp.StepSpec

/-!
The receive path puts the stream of the peer together again. The peer sends one
byte string `S`, then perhaps a FIN; position `n` of it has the sequence number
`seqAt base n`. The invariant says that RCV.NXT stands at some position `n`, that
what was delivered is the part of `S` in front of it, and that the out-of-order
queue holds parts of `S` behind it.

The queue is only ever drained by looking at a packet that was moved away, so
the property holds of every run in which no segment ends where a queued one
goes on.
-/

namespace Seastar.Net.Tcp.Tcb

open Lib Lib.Segment

/-- Byte `i` of the stream of the peer. -/
def byteAt (S : Bytes) (i : Nat) : Byte := S.getD i 0

theorem slice_byteAt {S : Bytes} {a n : Nat} (h : a + n ≤ S.length) :
    slice (byteAt S) a n = (S.drop a).take n := by
  apply List.ext_getElem
  · rw [length_slice, List.length_take, List.length_drop]
    omega
  · intro i h₁ h₂
    rw [length_slice] at h₁
    simp only [slice, List.getElem_map, List.getElem_range, List.getElem_take, List.getElem_drop,
      byteAt]
    exact (List.getElem_eq_getD 0).symm

/-- The first position an out-of-order segment can have. -/
def queueFrom (S : Bytes) (n : Nat) : Nat := min (n + 1) (S.length + 1)

/-- The receive state with RCV.NXT at position `n` of the stream: everything in front of it
is delivered, the queue holds parts of the stream behind it. -/
structure AssembledAt (base : TcpSeq) (S : Bytes) (n : Nat) (rcv : Receive) : Prop where
  next : rcv.next = seqAt base n
  le : n ≤ S.length + 1
  delivered : rcv.delivered = S.take n
  queue : ∃ X, PacketMerger.Merged (seqAt base) (queueFrom S n) (n + 2 ^ 31 - 1) (byteAt S)
    rcv.outOfOrder X

variable {base : TcpSeq} {S : Bytes} {n : Nat}

theorem AssembledAt.kept {a b : Receive} (h : AssembledAt base S n a) (hk : RcvKept a b) :
    AssembledAt base S n b where
  next := hk.next.trans h.next
  le := h.le
  delivered := hk.delivered.trans h.delivered
  queue := by
    rcases hk.outOfOrder with ho | ho
    · rw [ho]
      exact h.queue
    · rw [ho]
      exact ⟨_, PacketMerger.Merged.nil⟩

/-- The position of RCV.NXT: one behind what was delivered once the FIN has arrived. -/
def nextPos (base : TcpSeq) (rcv : Receive) : Nat :=
  rcv.delivered.length + (rcv.next.sub (seqAt base rcv.delivered.length)).toNat

theorem AssembledAt.nextPos_eq {rcv : Receive} (h : AssembledAt base S n rcv) :
    nextPos base rcv = n := by
  have hl : rcv.delivered.length = min n S.length := by rw [h.delivered, List.length_take]
  have hle := h.le
  rw [nextPos, h.next, seqAt_sub, hl, Serial.toNat_ofNat_sub (by omega) (by omega)]
  omega

/-- A segment carries the stream of the peer at its own sequence number, its FIN only at
the end, and lies less than 2³¹ from RCV.NXT. -/
def CarriesStream (base : TcpSeq) (S : Bytes) (rcv : Receive) (th : TcpHdr) (p : Packet) : Prop :=
  ∃ pos, th.seq = seqAt base pos ∧
    p.bytes.drop (th.dataOffset * 4) = (S.drop pos).take (textLen th p) ∧
    (th.fFin = true → pos + textLen th p = S.length) ∧
    nextPos base rcv < pos + 2 ^ 31 ∧ pos + textLen th p < nextPos base rcv + 2 ^ 31

/-- The only position near RCV.NXT a sequence number can stand for. -/
def posOf (base : TcpSeq) (rcv : Receive) (seq : TcpSeq) : Nat :=
  (nextPos base rcv + seq.diff (seqAt base (nextPos base rcv))).toNat

theorem carriesStream_iff {rcv : Receive} {th : TcpHdr} {p : Packet} :
    CarriesStream base S rcv th p ↔
      th.seq = seqAt base (posOf base rcv th.seq) ∧
      p.bytes.drop (th.dataOffset * 4) = (S.drop (posOf base rcv th.seq)).take (textLen th p) ∧
      (th.fFin = true → posOf base rcv th.seq + textLen th p = S.length) ∧
      nextPos base rcv < posOf base rcv th.seq + 2 ^ 31 ∧
      posOf base rcv th.seq + textLen th p < nextPos base rcv + 2 ^ 31 := by
  refine ⟨fun ⟨pos, h⟩ => ?_, fun h => ⟨_, h⟩⟩
  have hpos : posOf base rcv th.seq = pos := by
    obtain ⟨hs, -, -, h₁, h₂⟩ := h
    rw [posOf, hs, seqAt_diff, Serial.diff_ofNat (by omega) (by omega)]
    omega
  rwa [hpos]

instance (rcv : Receive) (th : TcpHdr) (p : Packet) :
    Decidable (CarriesStream base S rcv th p) :=
  decidable_of_iff' _ carriesStream_iff

/-- The same, of an event: what the other events do is not restricted. -/
def PeerSends (base : TcpSeq) (S : Bytes) (tcb : Tcb) (e : Event) : Prop :=
  match e.act with
  | .segment th p => CarriesStream base S tcb.rcv th p
  | _ => True

/-- The ACK field of the segment lets its text be taken. -/
def TextTaken (th : TcpHdr) (segLen : Nat) (tcb : Tcb) : Prop :=
  tcb.state = .finWait1 ∨ tcb.state = .finWait2 ∨
    ((tcb.state = .established ∨ (tcb.state = .synReceived ∧
        tcb.snd.unacknowledged.le th.ack = true ∧ th.ack.le tcb.snd.next = true)) ∧
      (acksNewData th.ack tcb.snd = true ∨ isDuplicateAck th segLen tcb.snd = true ∨
        th.ack.gt tcb.snd.next = false))

/-- The byte with sequence number `seq` is in the out-of-order queue. -/
def Queued (seq : TcpSeq) (rcv : Receive) : Prop :=
  ∃ e ∈ rcv.outOfOrder, e.1.le seq = true ∧ seq.lt (e.1.add (UInt32.ofNat e.2.len)) = true

/-- The new text of a segment is taken, and ends where a queued segment goes on. -/
def DrainsQueue (tcb : Tcb) (e : Event) : Prop :=
  match e.act with
  | .segment th p =>
    let newLen := textLen th p - oldLen th p tcb.rcv
    tcb.state ≠ .synSent ∧ NextInLine th p tcb.rcv ∧ Proceeds th tcb ∧ TextTaken th newLen tcb ∧
      0 < newLen ∧ Queued (tcb.rcv.next.add (UInt32.ofNat newLen)) tcb.rcv
  | _ => False

instance (th : TcpHdr) (segLen : Nat) (tcb : Tcb) : Decidable (TextTaken th segLen tcb) := by
  unfold TextTaken
  infer_instance

instance (seq : TcpSeq) (rcv : Receive) : Decidable (Queued seq rcv) := by
  unfold Queued
  infer_instance

instance (tcb : Tcb) : (e : Event) → Decidable (DrainsQueue tcb e)
  | ⟨_, .segment _ _⟩ => inferInstanceAs (Decidable (_ ∧ _))
  | ⟨_, .send _⟩ | ⟨_, .read⟩ | ⟨_, .waitForData⟩ | ⟨_, .abortReader⟩ | ⟨_, .close⟩
  | ⟨_, .closeContinue⟩ | ⟨_, .shutdownConnect⟩ | ⟨_, .getPacket⟩ | ⟨_, .retransmitExpires⟩
  | ⟨_, .persistExpires⟩ | ⟨_, .delayedAckExpires⟩ | ⟨_, .arpQueueFull⟩ | ⟨_, .arpTimeout⟩ => .isFalse id

instance (tcb : Tcb) : (e : Event) → Decidable (PeerSends base S tcb e)
  | ⟨_, .segment th p⟩ => inferInstanceAs (Decidable (CarriesStream base S tcb.rcv th p))
  | ⟨_, .send _⟩ | ⟨_, .read⟩ | ⟨_, .waitForData⟩ | ⟨_, .abortReader⟩ | ⟨_, .close⟩
  | ⟨_, .closeContinue⟩ | ⟨_, .shutdownConnect⟩ | ⟨_, .getPacket⟩ | ⟨_, .retransmitExpires⟩
  | ⟨_, .persistExpires⟩ | ⟨_, .delayedAckExpires⟩ | ⟨_, .arpQueueFull⟩ | ⟨_, .arpTimeout⟩ => .isTrue trivial

/-! ## Where a segment lies -/

/-- An acceptable segment that starts in front of RCV.NXT reaches beyond it. -/
theorem oldLen_eq {rcv : Receive} {th : TcpHdr} {p : Packet} {pos : Nat} (hn : rcv.next = seqAt base n)
    (hs : th.seq = seqAt base pos) (h₁ : n < pos + 2 ^ 31) (h₂ : pos + textLen th p < n + 2 ^ 31)
    (ha : segmentAcceptable th.seq (textLen th p) rcv = true) :
    oldLen th p rcv = n - pos ∧ (pos < n → n < pos + textLen th p) := by
  have hlt : th.seq.lt rcv.next = decide (pos < n) := by
    rw [hs, hn, seqAt_lt base (by omega) (by omega)]
  have hle : rcv.next.le th.seq = decide (n ≤ pos) := by
    rw [hs, hn, seqAt_le base (by omega) (by omega)]
  have hreach : pos < n → n < pos + textLen th p := by
    intro hpn
    unfold segmentAcceptable at ha
    simp only at ha
    split at ha
    · rename_i h0
      rw [decide_eq_true_eq, hs, hn, seqAt_eq_iff base (by omega) (by omega)] at ha
      omega
    split at ha
    · rw [hle, decide_eq_false (by omega)] at ha
      cases ha
    split at ha
    · rename_i hne _
      have hlen : textLen th p ≠ 0 := by simpa using hne
      have hlast : (th.seq.add (UInt32.ofNat (textLen th p))).back 1 =
          seqAt base (pos + textLen th p - 1) := by
        obtain ⟨k, hk⟩ : ∃ k, pos + textLen th p = k + 1 := ⟨pos + textLen th p - 1, by omega⟩
        rw [hs, seqAt_add, hk, seqAt_back]
        rfl
      rw [hle, decide_eq_false (by omega), Bool.false_and, Bool.false_or, hlast, hn,
        seqAt_le base (by omega) (by omega), Bool.and_eq_true, decide_eq_true_eq] at ha
      omega
    · cases ha
  refine ⟨?_, hreach⟩
  rw [oldLen, dupLen, hlt]
  by_cases hpn : pos < n
  · rw [decide_eq_true hpn, if_pos rfl, hn, hs, seqAt_sub,
      Serial.toNat_ofNat_sub (by omega) (by omega)]
    have := hreach hpn
    omega
  · rw [decide_eq_false hpn, if_neg Bool.false_ne_true]
    omega

/-- What a segment of the peer's stream brings: the new text `q` continues the stream at
the position of its trimmed sequence number, which is not in front of RCV.NXT. -/
theorem CarriesStream.newText {rcv : Receive} {th : TcpHdr} {p q : Packet}
    (hr : AssembledAt base S n rcv) (hc : CarriesStream base S rcv th p)
    (ha : segmentAcceptable th.seq (textLen th p) rcv = true) (hq : NewText th p rcv q) :
    ∃ m, trimmedSeq th p rcv = seqAt base m ∧ n ≤ m ∧ m + q.len < n + 2 ^ 31 ∧
      q.bytes = (S.drop m).take q.len ∧ (q.len = 0 ∨ m + q.len ≤ S.length) ∧
      (th.fFin = true → m + q.len = S.length) := by
  obtain ⟨pos, hs, hb, hfin, h₁, h₂⟩ := hc
  rw [hr.nextPos_eq] at h₁ h₂
  obtain ⟨hold, hreach⟩ := oldLen_eq hr.next hs h₁ h₂ ha
  have hql := hq.len
  have hlen : pos + oldLen th p rcv + q.len = pos + textLen th p := by
    rw [hql, hold]
    omega
  refine ⟨pos + oldLen th p rcv, ?_, by omega, by omega, ?_, ?_, fun hf => ?_⟩
  · rw [trimmedSeq, hs, seqAt_add]
  · rw [hq, ← List.drop_drop, hb, List.drop_take, List.drop_drop]
    congr 1
    omega
  · have hl := congrArg List.length hb
    rw [List.length_drop, Packet.length_bytes, List.length_take, List.length_drop] at hl
    unfold textLen at hl hlen hql
    omega
  · rw [hlen]
    exact hfin hf

/-! ## The queue -/

theorem insertOutOfOrder_assembled {rcv : Receive} {q : Packet} {m : Nat}
    (hr : AssembledAt base S n rcv) (hm : n < m) (hhi : m + q.len < n + 2 ^ 31)
    (hq : q.bytes = (S.drop m).take q.len) (hlen : q.len = 0 ∨ m + q.len ≤ S.length) :
    ∃ rcv', insertOutOfOrder (seqAt base m) q rcv = .ok rcv' ∧ AssembledAt base S n rcv' := by
  obtain ⟨X, hX⟩ := hr.queue
  have hw : OffsetWindow (seqAt base) (queueFrom S n) (n + 2 ^ 31 - 1) := by
    refine OffsetWindow.tcpSeq base _ _ ?_
    unfold queueFrom
    have := hr.le
    omega
  have hslice : q.bytes = slice (byteAt S) m q.len := by
    rcases hlen with h0 | hlen
    · rw [h0]
      exact Packet.bytes_eq_nil_of_len q h0
    · rw [slice_byteAt hlen, ← hq]
  obtain ⟨out, hout, hm'⟩ := PacketMerger.merge_spec hw hX
    (Nat.le_trans (Nat.min_le_left _ _) hm) (by omega) hslice
  refine ⟨{ rcv with outOfOrder := out }, ?_, ⟨hr.next, hr.le, hr.delivered, _, hm'⟩⟩
  rw [insertOutOfOrder, hout]
  rfl

/-- When the byte at RCV.NXT is not queued, `merge_out_of_order` drops what has been received
already and moves nothing. -/
theorem mergeLoop_spec {lo hi m : Nat} {b : Bool} {rcv : Receive} {map : List (TcpSeq × Packet)}
    {segs : List (Segment Byte)} (h : PacketMerger.Reads (seqAt base) lo hi (byteAt S) map segs)
    (hs : Separated segs) (hlo : lo ≤ m) (hm : m ≤ hi) (hhi : hi < lo + 2 ^ 31)
    (hn : rcv.next = seqAt base m)
    (hfree : ∀ e ∈ map, ¬ (e.1.le rcv.next = true ∧
      rcv.next.lt (e.1.add (UInt32.ofNat e.2.len)) = true)) :
    ∃ map' segs', mergeLoop b rcv map = .ok (b, { rcv with outOfOrder := map' }) ∧
      PacketMerger.Reads (seqAt base) (m + 1) hi (byteAt S) map' segs' ∧ Separated segs' := by
  induction segs generalizing map with
  | nil =>
    cases h.entries
    exact ⟨[], [], rfl, PacketMerger.Reads.nil, List.Pairwise.nil⟩
  | cons s segs ih =>
    rcases map with _ | ⟨e, map⟩
    · cases h.entries
    obtain ⟨⟨he, hin, hh⟩, hrest⟩ := PacketMerger.reads_cons.mp h
    obtain ⟨hsep, hseps⟩ := List.pairwise_cons.mp hs
    have hb := s.beg_le_stop
    have hend : e.1.add (UInt32.ofNat e.2.len) = seqAt base s.stop := by
      rw [he.1, seqAt_add, he.len]
    have hle : e.1.le rcv.next = decide (s.beg ≤ m) := by
      rw [he.1, hn, seqAt_le base (by omega) (by omega)]
    have hlt : rcv.next.lt (e.1.add (UInt32.ofNat e.2.len)) = decide (m < s.stop) := by
      rw [hend, hn, seqAt_lt base (by omega) (by omega)]
    have hge : rcv.next.ge (e.1.add (UInt32.ofNat e.2.len)) = decide (s.stop ≤ m) := by
      rw [hend, hn, seqAt_ge base (by omega) (by omega)]
    have hnot := hfree e List.mem_cons_self
    rw [hle, hlt, decide_eq_true_eq, decide_eq_true_eq] at hnot
    obtain ⟨k, q⟩ := e
    simp only [mergeLoop]
    rw [if_neg (by rw [hle, hlt]; simpa using hnot)]
    by_cases hd : s.stop ≤ m
    · rw [if_pos (by rw [hge]; exact decide_eq_true hd)]
      exact ih hrest hseps fun e he => hfree e (List.mem_cons_of_mem _ he)
    · rw [if_neg (by rw [hge, decide_eq_false hd]; exact Bool.false_ne_true)]
      refine ⟨(k, q) :: map, s :: segs, rfl, ⟨h.entries, fun t ht => ?_, h.holds⟩, hs⟩
      refine ⟨?_, (h.inside t ht).2⟩
      rcases List.mem_cons.mp ht with rfl | ht
      · omega
      · have := hsep t ht
        omega

/-- When it is queued, the packet that holds it is moved away and then looked at. -/
theorem mergeLoop_drains {lo hi m : Nat} {b : Bool} {rcv : Receive} {map : List (TcpSeq × Packet)}
    {segs : List (Segment Byte)} (h : PacketMerger.Reads (seqAt base) lo hi (byteAt S) map segs)
    (hs : Separated segs) (hlo : lo ≤ m) (hm : m ≤ hi) (hhi : hi < lo + 2 ^ 31)
    (hn : rcv.next = seqAt base m)
    (hq : ∃ e ∈ map, e.1.le rcv.next = true ∧
      rcv.next.lt (e.1.add (UInt32.ofNat e.2.len)) = true) :
    ∃ f, mergeLoop b rcv map = .error f := by
  induction segs generalizing map with
  | nil =>
    cases h.entries
    obtain ⟨e, he, -⟩ := hq
    cases he
  | cons s segs ih =>
    rcases map with _ | ⟨⟨k, p⟩, map⟩
    · cases h.entries
    obtain ⟨⟨he, hin, hh⟩, hrest⟩ := PacketMerger.reads_cons.mp h
    obtain ⟨hsep, hseps⟩ := List.pairwise_cons.mp hs
    have hb := s.beg_le_stop
    simp only [mergeLoop]
    by_cases hc : (k.le rcv.next && rcv.next.lt (k.add (UInt32.ofNat p.len))) = true
    · rw [if_pos hc]
      cases p.trimFront (sizeOfInt (rcv.next.diff k)) with
      | error f => exact ⟨f, rfl⟩
      | ok q => exact ⟨_, rfl⟩
    · rw [if_neg hc]
      obtain ⟨e, hmem, hle, hlt⟩ := hq
      rcases List.mem_cons.mp hmem with rfl | hmem
      · exact absurd (by rw [hle, hlt]; rfl) hc
      -- the queued byte lies in a later segment, so this one ends in front of it
      obtain ⟨t, ht, het⟩ := hrest.exists_entry hmem
      have hst := hsep t ht
      have hti := hrest.inside t ht
      have htb := t.beg_le_stop
      rw [het.1, hn, seqAt_le base (by omega) (by omega), decide_eq_true_eq] at hle
      have hge : rcv.next.ge (k.add (UInt32.ofNat p.len)) = true := by
        have hk : k = seqAt base s.beg := he.1
        have hl : s.beg + p.len = s.stop := he.len
        rw [hk, seqAt_add, hl, hn, seqAt_ge base (by omega) (by omega)]
        exact decide_eq_true (by omega)
      rw [if_pos hge]
      exact ih hrest hseps ⟨e, hmem, by
        rw [het.1, hn, seqAt_le base (by omega) (by omega)]
        exact decide_eq_true hle, hlt⟩

/-! ## Text and FIN -/

theorem reads_mono {lo lo' hi hi' : Nat} {map : List (TcpSeq × Packet)}
    {segs : List (Segment Byte)}
    (h : PacketMerger.Reads (seqAt base) lo hi (byteAt S) map segs) (hlo : lo' ≤ lo)
    (hhi : hi ≤ hi') : PacketMerger.Reads (seqAt base) lo' hi' (byteAt S) map segs :=
  ⟨h.entries, fun s hs => ⟨Nat.le_trans hlo (h.inside s hs).1,
    Nat.le_trans (h.inside s hs).2 hhi⟩, h.holds⟩

/-- Text that continues the stream is taken, unless that drains the queue. -/
theorem segmentText_assembled {now : Int} {q : Packet} {tcb : Tcb} (hr : AssembledAt base S n tcb.rcv)
    (hhi : n + q.len < n + 2 ^ 31) (hq : q.bytes = (S.drop n).take q.len)
    (hlen : q.len = 0 ∨ n + q.len ≤ S.length)
    (hfree : 0 < q.len → ¬ Queued (tcb.rcv.next.add (UInt32.ofNat q.len)) tcb.rcv) :
    ∃ b t, segmentText now q tcb = .ok (b, t) ∧ AssembledAt base S (n + q.len) t.rcv ∧
      t.state = tcb.state := by
  unfold segmentText
  by_cases h0 : q.len = 0
  · rw [if_pos h0, h0]
    exact ⟨false, tcb, rfl, hr, rfl⟩
  rw [if_neg h0]
  have hle : n + q.len ≤ S.length := by omega
  obtain ⟨X, segs, hreads, hsep, -⟩ := hr.queue
  have hnext : (takeText q tcb.rcv).next = seqAt base (n + q.len) := by
    rw [takeText, hr.next, seqAt_add]
  have hlo : queueFrom S n = n + 1 := by
    unfold queueFrom
    omega
  rw [hlo] at hreads
  obtain ⟨map', segs', hml, hreads', hsep'⟩ := mergeLoop_spec (b := false) (m := n + q.len)
    hreads hsep (by omega) (by omega) (by omega) hnext (by
      intro e he hc
      refine hfree (by omega) ⟨e, he, ?_⟩
      rwa [hnext, ← seqAt_add, ← hr.next] at hc)
  have hmo : mergeOutOfOrder (takeText q tcb.rcv) =
      .ok (false, { takeText q tcb.rcv with outOfOrder := map' }) := hml
  rw [hmo, ok_bind]
  simp only [Bool.false_eq_true, if_false]
  obtain ⟨ef, hsig⟩ := signalDataReceived_eq
    { tcb with rcv := { { takeText q tcb.rcv with outOfOrder := map' } with
        window := getModifiedReceiveWindowSize { takeText q tcb.rcv with outOfOrder := map' } } }
  rw [hsig]
  refine ⟨_, _, congrArg Except.ok (Prod.mk.eta (p := shouldSendAck _ _ _)).symm, ?_, ?_⟩
  · rw [(shouldSendAck_quiet _ _ _).rcv]
    refine AssembledAt.kept (a := { takeText q tcb.rcv with outOfOrder := map' })
      ⟨hnext, by omega, ?_, ?_⟩ ⟨rfl, rfl, Or.inl rfl, Or.inl ⟨rfl, rfl⟩⟩
    · rw [List.take_add, ← hq, ← hr.delivered]
      rfl
    · refine ⟨_, segs', reads_mono hreads' ?_ (by omega), hsep', fun x => Iff.rfl⟩
      exact Nat.min_le_left _ _
  · rw [(shouldSendAck_quiet _ _ _).state]

/-- Text that ends where a queued segment goes on is never taken. -/
theorem segmentText_drains {now : Int} {q : Packet} {tcb : Tcb} (hr : AssembledAt base S n tcb.rcv)
    (h0 : 0 < q.len) (hlen : n + q.len ≤ S.length) (hhi : n + q.len < n + 2 ^ 31)
    (hfree : Queued (tcb.rcv.next.add (UInt32.ofNat q.len)) tcb.rcv) :
    ∃ f, segmentText now q tcb = .error f := by
  obtain ⟨X, segs, hreads, hsep, -⟩ := hr.queue
  have hnext : (takeText q tcb.rcv).next = seqAt base (n + q.len) := by
    rw [takeText, hr.next, seqAt_add]
  have hlo : queueFrom S n = n + 1 := by
    unfold queueFrom
    omega
  rw [hlo] at hreads
  obtain ⟨f, hf⟩ := mergeLoop_drains (b := false) (m := n + q.len)
    hreads hsep (by omega) (by omega) (by omega) hnext (by
      obtain ⟨e, he, hc⟩ := hfree
      refine ⟨e, he, ?_⟩
      rwa [hnext, ← seqAt_add, ← hr.next])
  have hmo : mergeOutOfOrder (takeText q tcb.rcv) = .error f := hf
  exact ⟨f, by rw [segmentText, if_neg (by omega), hmo, error_bind]⟩

/-- A FIN that is next in sequence moves RCV.NXT by one; otherwise nothing is received. -/
theorem finAndOutput_rcv (th : TcpHdr) (finSeq : TcpSeq) (b c : Bool) (tcb : Tcb) :
    RcvKept tcb.rcv (finAndOutput th finSeq b c tcb).rcv ∨
      (th.fFin = true ∧ finSeq = tcb.rcv.next ∧
        RcvKept { tcb.rcv with next := finSeq.add 1 } (finAndOutput th finSeq b c tcb).rcv) := by
  unfold finAndOutput
  by_cases hf : th.fFin = true
  · rw [if_pos hf]
    split
    · exact Or.inl (.refl _)
    unfold segmentFin
    by_cases he : finSeq = tcb.rcv.next
    · rw [if_pos he]
      refine Or.inr ⟨hf, he, ?_⟩
      have htf : RcvKept { tcb.rcv with next := finSeq.add 1 } (takeFin finSeq tcb).rcv := by
        rw [(takeFin_quiet finSeq tcb).rcv]
        exact ⟨rfl, rfl, Or.inl rfl, Or.inl ⟨rfl, rfl⟩⟩
      simp only
      split
      · rename_i t _ ht
        split at ht
        · cases ht
        split at ht
        · cases ht
        split at ht
        · cases ht
          exact htf.trans (doTimeWait_rcv (takeFin finSeq tcb))
        · cases ht
      · rename_i t _ _ ht
        rw [(finishInput_quiet _ _ _).rcv]
        split at ht
        · cases ht
          exact htf
        split at ht
        · cases ht
          exact htf
        split at ht
        · cases ht
        · cases ht
          exact htf
    · rw [if_neg he]
      exact Or.inl (.of_eq (finishInput_quiet _ _ _).rcv)
  · rw [if_neg hf]
    exact Or.inl (.of_eq (finishInput_quiet _ _ _).rcv)

/-! ## The ACK field -/

theorem takesText_iff (tcb : Tcb) : tcb.takesText = true ↔
    tcb.state = .established ∨ tcb.state = .finWait1 ∨ tcb.state = .finWait2 := by
  simp [takesText, or_assoc]

/-- In ESTABLISHED a segment is only dropped when its ACK is ahead of SND.NXT. -/
theorem ackEstablished_takes {hw : HwFeatures} {now : Int} {th : TcpHdr} {segSeq : TcpSeq}
    {segLen : Nat} {tcb : Tcb} {r : Flow} (hs : tcb.state = .established)
    (h : ackEstablished hw now th segSeq segLen tcb = .ok r) :
    (∃ t b, r = .go t b ∧ t.takesText = true) ↔
      (acksNewData th.ack tcb.snd = true ∨ isDuplicateAck th segLen tcb.snd = true ∨
        th.ack.gt tcb.snd.next = false) := by
  have hm := (ackEstablished_moves (by rw [hs]; decide) h).frame.2
  have hgo : ∀ {t b}, r = .go t b → t.takesText = true := by
    rintro t b rfl
    exact (takesText_iff t).mpr (Or.inl (hm.trans hs))
  unfold ackEstablished at h
  by_cases h₁ : acksNewData th.ack tcb.snd = true
  · rw [if_pos h₁] at h
    obtain ⟨t, -, h⟩ := bind_ok.mp h
    obtain rfl := Except.ok.inj h
    exact ⟨fun _ => Or.inl h₁, fun _ => ⟨_, _, rfl, hgo rfl⟩⟩
  rw [if_neg h₁] at h
  by_cases h₂ : isDuplicateAck th segLen tcb.snd = true
  · rw [if_pos h₂] at h
    obtain ⟨t, -, h⟩ := bind_ok.mp h
    obtain rfl := Except.ok.inj h
    exact ⟨fun _ => Or.inr (Or.inl h₂), fun _ => ⟨_, _, rfl, hgo rfl⟩⟩
  rw [if_neg h₂] at h
  by_cases h₃ : th.ack.gt tcb.snd.next = true
  · rw [if_pos h₃] at h
    obtain rfl := Except.ok.inj h
    refine ⟨by rintro ⟨t, b, ⟨⟩, -⟩, ?_⟩
    rintro (h | h | h)
    · exact absurd h h₁
    · exact absurd h h₂
    · rw [h₃] at h
      cases h
  · rw [if_neg h₃] at h
    rw [Bool.not_eq_true] at h₃
    refine ⟨fun _ => Or.inr (Or.inr h₃), fun _ => ?_⟩
    split at h
    · obtain rfl := Except.ok.inj h
      exact ⟨_, _, rfl, hgo rfl⟩
    · obtain rfl := Except.ok.inj h
      exact ⟨_, _, rfl, hgo rfl⟩

/-- Of the later states only the two that wait for the FIN of the peer take text. -/
theorem ackFin_takes {th : TcpHdr} {tcb : Tcb} {b : Bool} (hs : tcb.state ≠ .established) :
    (∃ t c, ackFin th b tcb = .go t c ∧ t.takesText = true) ↔
      tcb.state = .finWait1 ∨ tcb.state = .finWait2 := by
  unfold ackFin
  simp only
  by_cases h₁ : tcb.state = .finWait1
  · rw [if_pos h₁]
    refine ⟨fun _ => Or.inl h₁, fun _ => ?_⟩
    split
    · exact ⟨_, _, rfl, rfl⟩
    · exact ⟨_, _, rfl, (takesText_iff _).mpr (Or.inr (Or.inl h₁))⟩
  rw [if_neg h₁]
  by_cases h₂ : tcb.state = .closing
  · rw [if_pos h₂, h₂]
    simp
  rw [if_neg h₂]
  by_cases h₃ : tcb.state = .lastAck
  · rw [if_pos h₃]
    refine ⟨?_, fun h => by simp [h₃] at h⟩
    rintro ⟨t, c, ht, htt⟩
    split at ht
    · cases ht
    · obtain ⟨rfl, -⟩ := Flow.go.inj ht
      simp [takesText, h₃] at htt
  · rw [if_neg h₃]
    constructor
    · rintro ⟨t, c, ht, htt⟩
      obtain ⟨rfl, -⟩ := Flow.go.inj ht
      exact ((takesText_iff _).mp htt).resolve_left hs
    · exact fun h => ⟨tcb, b, rfl, (takesText_iff _).mpr (Or.inr h)⟩

/-- Whether the ACK field lets the text be taken. -/
theorem ackField_takes {hw : HwFeatures} {now : Int} {th : TcpHdr} {segSeq : TcpSeq}
    {segLen : Nat} {tcb : Tcb} {r : Flow} (h : ackField hw now th segSeq segLen tcb = .ok r) :
    (∃ t b, r = .go t b ∧ t.takesText = true) ↔ TextTaken th segLen tcb := by
  unfold TextTaken
  by_cases hsr : tcb.state = .synReceived
  · by_cases hack : tcb.snd.unacknowledged.le th.ack = true ∧ th.ack.le tcb.snd.next = true
    · rw [ackField_synReceived hw now segSeq segLen hsr hack] at h
      obtain ⟨fs, rv, sr, rto, ef, hd⟩ := doEstablished_eq now tcb
      rw [hd] at h
      rw [ackEstablished_takes rfl h, hsr]
      constructor
      · intro ht
        exact Or.inr (Or.inr ⟨Or.inr ⟨rfl, hack⟩, ht⟩)
      · rintro (ht | ht | ⟨-, ht⟩)
        · cases ht
        · cases ht
        · exact ht
    · rw [ackField, ackSynReceived, if_pos hsr, if_neg (by simpa using hack)] at h
      obtain rfl := Except.ok.inj h
      simp [hsr, hack]
  rw [ackField_other hw now th segSeq segLen hsr] at h
  by_cases hes : tcb.state = .established
  · rw [if_pos (by rw [hes]; rfl)] at h
    rw [ackEstablished_takes hes h]
    simp [hes]
  by_cases hcw : tcb.state = .closeWait
  · rw [if_pos (by rw [hcw]; rfl)] at h
    have hm := (ackEstablished_moves (by rw [hcw]; decide) h).frame.2
    refine ⟨?_, fun h => by simp [hcw] at h⟩
    rintro ⟨t, b, rfl, ht⟩
    have hst : t.state = .closeWait := hm.trans hcw
    simp [takesText, hst] at ht
  · rw [if_neg (by simp [hes, hcw])] at h
    rw [← Except.ok.inj h, ackFin_takes hes]
    simp [hes, hsr]

/-! ## A segment -/

/-- The FIN of the peer takes the position behind the stream. -/
theorem AssembledAt.fin {a b : Receive} (h : AssembledAt base S S.length a)
    (hk : RcvKept { a with next := a.next.add 1 } b) : AssembledAt base S (S.length + 1) b := by
  refine AssembledAt.kept (a := { a with next := a.next.add 1 }) ⟨?_, Nat.le_refl _, ?_, ?_⟩ hk
  · exact (congrArg (fun s : TcpSeq => s.add 1) h.next).trans (seqAt_add base S.length 1)
  · rw [List.take_of_length_le (Nat.le_succ _)]
    exact h.delivered.trans (List.take_of_length_le (Nat.le_refl _))
  · obtain ⟨X, segs, hreads, hsep, hcov⟩ := h.queue
    refine ⟨X, segs, reads_mono hreads ?_ (by omega), hsep, hcov⟩
    unfold queueFrom
    omega

theorem finAndOutput_assembled {th : TcpHdr} {finSeq : TcpSeq} {b c : Bool} {tcb : Tcb}
    (hr : AssembledAt base S n tcb.rcv)
    (hfin : th.fFin = true → finSeq = tcb.rcv.next → n = S.length) :
    ∃ n', n ≤ n' ∧ AssembledAt base S n' (finAndOutput th finSeq b c tcb).rcv := by
  rcases finAndOutput_rcv th finSeq b c tcb with hk | ⟨hf, he, hk⟩
  · exact ⟨n, Nat.le_refl n, hr.kept hk⟩
  · obtain rfl := hfin hf he
    subst he
    exact ⟨S.length + 1, Nat.le_succ _, hr.fin hk⟩

/-- The text and the FIN of a segment that starts at RCV.NXT. -/
theorem textAndFin_assembled {now : Int} {th : TcpHdr} {q : Packet} {b : Bool} {tcb : Tcb}
    (hr : AssembledAt base S n tcb.rcv) (hhi : n + q.len < n + 2 ^ 31)
    (hq : q.bytes = (S.drop n).take q.len) (hlen : q.len = 0 ∨ n + q.len ≤ S.length)
    (hfin : th.fFin = true → n + q.len = S.length)
    (hfree : tcb.takesText = true → 0 < q.len →
      ¬ Queued (tcb.rcv.next.add (UInt32.ofNat q.len)) tcb.rcv) :
    ∃ t, textAndFin now th tcb.rcv.next q b tcb = .ok t ∧
      ∃ n', n ≤ n' ∧ AssembledAt base S n' t.rcv := by
  unfold textAndFin
  simp only
  by_cases ht : tcb.takesText = true
  · rw [if_pos ht]
    obtain ⟨c, u, hu, hru, -⟩ := segmentText_assembled hr hhi hq hlen (hfree ht)
    rw [hu, ok_bind]
    obtain ⟨n', hn', hr'⟩ := finAndOutput_assembled
      (b := c) (c := b) hru
      fun hf _ => hfin hf
    exact ⟨_, rfl, n', by omega, hr'⟩
  rw [if_neg ht]
  by_cases hi : tcb.ignoresText = true
  · rw [if_pos hi]
    exact ⟨tcb, rfl, n, Nat.le_refl n, hr⟩
  rw [if_neg hi]
  refine ⟨_, rfl, finAndOutput_assembled hr fun hf he => ?_⟩
  rw [hr.next, seqAt_add, seqAt_eq_iff base (by omega) (by omega)] at he
  have := hfin hf
  omega

/-- The text of a segment that starts at RCV.NXT and lets its text be taken, when that
drains the queue. -/
theorem textAndFin_drains {now : Int} {th : TcpHdr} {q : Packet} {b : Bool} {tcb : Tcb}
    (hr : AssembledAt base S n tcb.rcv) (h0 : 0 < q.len) (hlen : n + q.len ≤ S.length)
    (hhi : n + q.len < n + 2 ^ 31) (ht : tcb.takesText = true)
    (hq : Queued (tcb.rcv.next.add (UInt32.ofNat q.len)) tcb.rcv) :
    ∃ f, textAndFin now th tcb.rcv.next q b tcb = .error f := by
  obtain ⟨f, hf⟩ := segmentText_drains hr h0 hlen hhi hq
  refine ⟨f, ?_⟩
  unfold textAndFin
  rw [if_pos ht, hf, error_bind]

/-- A segment of the peer moves RCV.NXT forward along the stream, unless it drains the
queue. -/
theorem inputHandleOtherState_assembled {hw : HwFeatures} {now : Int} {th : TcpHdr} {p : Packet}
    {tcb : Tcb} (hr : AssembledAt base S n tcb.rcv) (hc : CarriesStream base S tcb.rcv th p)
    (hs : tcb.state ≠ .synSent) (hfree : ¬ DrainsQueue tcb ⟨now, .segment th p⟩) :
    inputHandleOtherState hw now th p tcb ≠ .error .movedPacket ∧
      ∀ t, inputHandleOtherState hw now th p tcb = .ok t →
        ∃ n', n ≤ n' ∧ AssembledAt base S n' t.rcv := by
  have hgo : ∀ {r : Except Fault Tcb}, (∃ t, r = .ok t ∧
      ∃ n', n ≤ n' ∧ AssembledAt base S n' t.rcv) →
      r ≠ .error .movedPacket ∧ ∀ t, r = .ok t → ∃ n', n ≤ n' ∧ AssembledAt base S n' t.rcv := by
    rintro r ⟨t, rfl, h⟩
    exact ⟨nofun, fun u hu => Except.ok.inj hu ▸ h⟩
  have hd := inputHandleOtherState_dispatched hw now th p tcb
  generalize inputHandleOtherState hw now th p tcb = r at hd
  cases hd with
  | short _ =>
    refine ⟨nofun, fun t ht => ?_⟩
    cases ht
  | unacceptable _ _ =>
    exact hgo ⟨_, rfl, n, Nat.le_refl n, hr.kept (.of_eq (output_quiet tcb).rcv)⟩
  | outOfOrder q _ ha hq hne =>
    obtain ⟨m, hm, hnm, hhi, hb, hlen, -⟩ := hc.newText hr ha hq
    rw [hm] at hne ⊢
    have hlt : n < m := by
      refine Nat.lt_of_le_of_ne hnm fun he => hne ?_
      rw [hr.next, he]
    obtain ⟨rcv, hins, hr'⟩ := insertOutOfOrder_assembled hr hlt hhi hb hlen
    refine hgo ⟨output { tcb with rcv := rcv }, by rw [hins, ok_bind], n, Nat.le_refl n, ?_⟩
    exact hr'.kept (.of_eq (output_quiet { tcb with rcv := rcv }).rcv)
  | inOrder q hl hq =>
    obtain ⟨m, hm, hnm, hhi, hb, hlen, hfin⟩ := hc.newText hr hl.2.1 hq
    have hmn : m = n := by
      have he := hl.2.2
      rw [hm, hr.next, seqAt_eq_iff base (by omega) (by omega)] at he
      exact he
    rw [hmn] at hhi hb hlen hfin
    by_cases hp : Proceeds th tcb
    · rw [inOrder_proceeds hp]
      cases ha : ackField hw now th tcb.rcv.next q.len tcb with
      | error f =>
        refine ⟨fun he => ?_, fun t ht => by cases ht⟩
        rw [error_bind, Except.error.injEq] at he
        rcases ackField_error ha with h | h | h
        · rw [he] at h
          cases h
        · rw [he] at h
          cases h
        · rw [he] at h
          cases h
      | ok fl =>
        obtain ⟨hk, hkgo⟩ := ackField_rcv ha
        rw [ok_bind]
        cases fl with
        | ret t => exact hgo ⟨t, rfl, n, Nat.le_refl n, hr.kept hk⟩
        | go t b =>
          have hkt := hkgo t b rfl
          simp only
          rw [← hkt]
          refine hgo (textAndFin_assembled (by rw [hkt]; exact hr) hhi hb hlen hfin ?_)
          intro ht h0 hqd
          rw [hkt] at hqd
          refine hfree ⟨hs, hl, hp, ?_, ?_, ?_⟩
          · rw [← hq.len]
            exact (ackField_takes ha).mp ⟨t, b, rfl, ht⟩
          · rw [← hq.len]
            exact h0
          · rw [← hq.len]
            exact hqd
    · obtain ⟨t, ht, he⟩ := inOrder_not_proceeds
        (p := q) hp
      refine hgo ⟨t, ht, n, Nat.le_refl n, ?_⟩
      rcases he with rfl | he
      · exact hr
      · exact hr.kept he.rcv

/-- A segment that drains the queue is never taken: the drain fails. -/
theorem inputHandleOtherState_drains {hw : HwFeatures} {now : Int} {th : TcpHdr} {p : Packet}
    {tcb : Tcb} (hr : AssembledAt base S n tcb.rcv) (hc : CarriesStream base S tcb.rcv th p)
    (hd : DrainsQueue tcb ⟨now, .segment th p⟩) :
    ∃ f, inputHandleOtherState hw now th p tcb = .error f := by
  obtain ⟨-, hl, hp, ht, h0, hqd⟩ := hd
  have hdis := inputHandleOtherState_dispatched hw now th p tcb
  generalize inputHandleOtherState hw now th p tcb = r at hdis
  cases hdis with
  | short _ => exact ⟨_, rfl⟩
  | unacceptable _ ha =>
    rw [hl.2.1] at ha
    cases ha
  | outOfOrder q _ _ _ hne => exact absurd hl.2.2 hne
  | inOrder q _ hq =>
    obtain ⟨m, hm, hnm, hhi, hb, hlen, hfin⟩ := hc.newText hr hl.2.1 hq
    have hmn : m = n := by
      have he := hl.2.2
      rw [hm, hr.next, seqAt_eq_iff base (by omega) (by omega)] at he
      exact he
    rw [hmn] at hhi hlen
    rw [← hq.len] at ht h0 hqd
    rw [inOrder_proceeds hp]
    cases ha : ackField hw now th tcb.rcv.next q.len tcb with
    | error f => exact ⟨f, rfl⟩
    | ok fl =>
      obtain ⟨t, b, rfl, htt⟩ := (ackField_takes ha).mpr ht
      have hkt := (ackField_rcv ha).2 t b rfl
      rw [ok_bind]
      simp only
      rw [← hkt]
      exact textAndFin_drains (by rw [hkt]; exact hr) h0 (by omega) hhi htt (by rw [hkt]; exact hqd)

/-! ## Runs -/

theorem Change.rcv {ends : Prop} {a b : Tcb} (h : Change ends a b) :
    RcvKept a.rcv b.rcv ∧ (a.state ≠ .synSent → b.state ≠ .synSent) := by
  cases h with
  | quiet h => exact ⟨.of_eq h.rcv, fun hs => by rwa [h.state]⟩
  | received r ef h => exact ⟨h, id⟩
  | queued p => exact ⟨.refl _, id⟩
  | fresh hs ho =>
    obtain ⟨p, clone, unsent, lt, da, rt, s, h, -⟩ := outputOne_fresh _ _ hs
    obtain rfl := Except.ok.inj (h.symm.trans ho)
    exact ⟨.refl _, id⟩
  | retransmitted _ h =>
    obtain ⟨seg, data, da, s, pa, ef, -, -, -, rfl⟩ := h
    exact ⟨.refl _, id⟩
  | counted _ _ => exact ⟨.refl _, id⟩
  | handed _ => exact ⟨.refl _, id⟩
  | cleaned _ => exact ⟨⟨rfl, rfl, Or.inr rfl, Or.inr ⟨rfl, rfl⟩⟩, id⟩
  | closing s _ h =>
    refine ⟨.refl _, fun hs => ?_⟩
    rcases h with rfl | rfl | rfl
    · exact hs
    · exact nofun
    · exact nofun

theorem Changes.rcv {ends : Prop} {a b : Tcb} (h : Changes ends a b) :
    RcvKept a.rcv b.rcv ∧ (a.state ≠ .synSent → b.state ≠ .synSent) := by
  induction h with
  | refl => exact ⟨.refl _, id⟩
  | tail _ h ih => exact ⟨ih.1.trans h.rcv.1, fun hs => h.rcv.2 (ih.2 hs)⟩

/-- The invariant of the receiving half. -/
def Assembled (base : TcpSeq) (S : Bytes) (tcb : Tcb) : Prop :=
  tcb.state ≠ .synSent ∧ ∃ n, AssembledAt base S n tcb.rcv

/-- One event keeps the invariant and does not move RCV.NXT back, unless it drains the
queue. -/
theorem step_assembled {hw : HwFeatures} {tcb : Tcb} {e : Event} (h : Assembled base S tcb)
    (hp : PeerSends base S tcb e) (hd : ¬ DrainsQueue tcb e) :
    step hw tcb e ≠ .error .movedPacket ∧ ∀ t, step hw tcb e = .ok t →
      Assembled base S t ∧ nextPos base tcb.rcv ≤ nextPos base t.rcv := by
  obtain ⟨hs, n, hr⟩ := h
  obtain ⟨now, act⟩ := e
  by_cases hact : ∃ th p, act = .segment th p
  · obtain ⟨th, p, rfl⟩ := hact
    have hstep : step hw tcb ⟨now, .segment th p⟩ = inputHandleOtherState hw now th p tcb :=
      if_neg hs
    rw [hstep]
    obtain ⟨hne, hok⟩ := inputHandleOtherState_assembled hr hp hs hd
    refine ⟨hne, fun t ht => ?_⟩
    obtain ⟨n', hn', hr'⟩ := hok t ht
    refine ⟨⟨inputHandleOtherState_state ht hs, n', hr'⟩, ?_⟩
    rwa [hr.nextPos_eq, hr'.nextPos_eq]
  · rcases step_changes hw tcb (e := ⟨now, act⟩) (fun th p he => hact ⟨th, p, he⟩) with he | ⟨t, ht, hch⟩
    · rw [he]
      exact ⟨nofun, fun t ht => by cases ht⟩
    · rw [ht]
      refine ⟨nofun, fun u hu => ?_⟩
      obtain rfl := Except.ok.inj hu
      obtain ⟨hk, hst⟩ := hch.rcv
      refine ⟨⟨hst hs, n, hr.kept hk⟩, ?_⟩
      rw [hr.nextPos_eq, (hr.kept hk).nextPos_eq]

/-- A step that drains the queue does not return. -/
theorem step_drains {hw : HwFeatures} {tcb : Tcb} {e : Event} (h : Assembled base S tcb)
    (hp : PeerSends base S tcb e) (hd : DrainsQueue tcb e) : ∃ f, step hw tcb e = .error f := by
  obtain ⟨hs, n, hr⟩ := h
  obtain ⟨now, act⟩ := e
  cases act with
  | segment th p =>
    obtain ⟨f, hf⟩ := inputHandleOtherState_drains hr hp hd
    exact ⟨f, (if_neg hs).trans hf⟩
  | _ => exact absurd hd id

/-- The receive state of a connection that has received nothing yet. -/
def NothingReceived (rcv : Receive) : Prop := rcv.delivered = [] ∧ rcv.outOfOrder = []

theorem NothingReceived.assembled {rcv : Receive} (h : NothingReceived rcv) (S : Bytes) :
    AssembledAt rcv.next S 0 rcv where
  next := (seqAt_zero _).symm
  le := Nat.zero_le _
  delivered := h.1
  queue := by
    rw [h.2]
    exact ⟨_, PacketMerger.Merged.nil⟩

/-- In a run in which no segment drains the queue, what was delivered is after every event
the part of the stream in front of RCV.NXT, which never moves back. A segment that
drains the queue makes the run fail. -/
theorem run_assembles (hw : HwFeatures) (S : Bytes) {tcb : Tcb} (es : List Event)
    (hs : tcb.state ≠ .synSent) (h0 : NothingReceived tcb.rcv)
    (hp : Along hw (PeerSends tcb.rcv.next S) tcb es) :
    (Along hw (fun s e => ¬ DrainsQueue s e) tcb es →
      run hw tcb es ≠ .error .movedPacket ∧
      ∀ pre e post s t, es = pre ++ e :: post → run hw tcb pre = .ok s → step hw s e = .ok t →
        t.rcv.delivered = S.take (nextPos tcb.rcv.next t.rcv) ∧
        t.rcv.next = seqAt tcb.rcv.next (nextPos tcb.rcv.next t.rcv) ∧
        nextPos tcb.rcv.next s.rcv ≤ nextPos tcb.rcv.next t.rcv) ∧
    ∀ pre e post s, es = pre ++ e :: post → run hw tcb pre = .ok s → DrainsQueue s e →
      ∃ f, run hw tcb es = .error f := by
  have hstart : Assembled tcb.rcv.next S tcb := ⟨hs, 0, h0.assembled S⟩
  -- a step that returned has not drained the queue
  have hkeep : ∀ s e t, Assembled tcb.rcv.next S s → PeerSends tcb.rcv.next S s e →
      step hw s e = .ok t → Assembled tcb.rcv.next S t := by
    intro s e t hi hps ht
    refine ((step_assembled hi hps fun hd => ?_).2 t ht).1
    obtain ⟨f, hf⟩ := step_drains hi hps hd
    rw [hf] at ht
    cases ht
  constructor
  · intro hd
    refine ⟨Run.run_ne_error ?_, ?_⟩
    · refine Run.Along.of_inv (P := fun s e => PeerSends tcb.rcv.next S s e ∧ ¬ DrainsQueue s e)
        (fun s e t hi hps ht => hkeep s e t hi hps.1 ht)
        (fun s e hi hps => (step_assembled hi hps.1 hps.2).1) hstart (hp.and hd)
    · rintro pre e post s t rfl hpre ht
      have hi : Assembled tcb.rcv.next S s := Run.run_inv hkeep hstart hp.of_append hpre
      obtain ⟨⟨-, n, hr⟩, hle⟩ := (step_assembled hi (hp.of_run hpre).1 (hd.of_run hpre).1).2 t ht
      rw [hr.nextPos_eq] at hle ⊢
      exact ⟨hr.delivered, hr.next, hle⟩
  · rintro pre e post s rfl hpre hd
    have hi : Assembled tcb.rcv.next S s := Run.run_inv hkeep hstart hp.of_append hpre
    obtain ⟨f, hf⟩ := step_drains hi (hp.of_run hpre).1 hd
    exact ⟨f, Run.run_error.mpr ⟨pre, e, post, s, rfl, hpre, hf⟩⟩

/-- A segment with the given distance from the start of the stream "abc", and text. -/
def textAt (pos : UInt8) (text : Bytes) : Action :=
  .arrives ([0, 80, 160, 0, 0, 0, 0, 8 + pos, 0, 0, 0, 101, 0x50, 0x10, 0, 10, 0, 0, 0, 0] ++ text)

/-- An established connection before any text. -/
def receiver : Tcb :=
  { state := .established, rcv := { next := ⟨8⟩, window := 1000 }, snd := { next := ⟨101⟩ } }

/-- "ab", then "bc": the overlap is trimmed. -/
theorem receiver_assembles : run {} receiver [⟨3, textAt 0 [97, 98]⟩, ⟨4, textAt 1 [98, 99]⟩] ≠
    .error .movedPacket :=
  ((run_assembles {} [97, 98, 99] _ (by decide) ⟨rfl, rfl⟩
    (by decide +kernel)).1 (by decide +kernel)).1

/-- "b" in front of "a": the connection crashes when "a" arrives. -/
theorem handshake_drains : ∃ tcb, run {} (connect {} 0 ⟨100⟩ {}) handshake = .ok tcb ∧
    tcb.state = .established ∧ NothingReceived tcb.rcv ∧
    Along {} (PeerSends tcb.rcv.next [97, 98, 99]) tcb [⟨3, textAt 1 [98]⟩, ⟨4, textAt 0 [97]⟩] ∧
    run {} tcb [⟨3, textAt 1 [98]⟩, ⟨4, textAt 0 [97]⟩] = .error .movedPacket := by
  refine ⟨_, rfl, rfl, ⟨rfl, rfl⟩, ?_, rfl⟩
  decide +kernel

end Seastar.Net.Tcp.Tcb
