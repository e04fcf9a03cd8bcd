import Seastar.Net.Tcp.FastRecovery
import Seastar.Net.Tcp.LimitedTransmit
import Seastar.Net.Tcp.Negotiation

/-!
`update_cwnd` divides by `_snd.cwnd` where that is at least `_snd.ssthresh`. So it divides by
zero only when both are zero, and a connection is safe from that as long as its segment
size is not zero and one of the two windows is not, outside of fast recovery.

`init_from_options` checks neither the MSS option nor the window of the SYN it takes them
from. A connection whose SYN had a window of zero keeps `ssthresh` at zero until its
first loss.
-/

namespace Seastar.Net.Tcp.Tcb

open Lib

/-- The segment size is not zero, and no call of `update_cwnd` will find both windows zero. -/
def Control.Sound (c : Control) : Prop :=
  c.mss ≠ 0 ∧ (c.ssthresh ≠ 0 ∨ (c.cwnd ≠ 0 ∧ c.dupacks < 3))

/-- The congestion window can be widened `n` times without wrapping: one call takes it at most
to `mss * mss + 1`, or adds one. -/
def Control.Roomy (c : Control) (n : Nat) : Prop :=
  max c.cwnd.toNat (c.mss.toNat * c.mss.toNat) + n < 2 ^ 32

instance (c : Control) : Decidable c.Sound := inferInstanceAs (Decidable (_ ∧ _))

instance (c : Control) (n : Nat) : Decidable (c.Roomy n) := inferInstanceAs (Decidable (_ < _))

/-- The segment is the third duplicate ACK in a row. -/
def ThirdDuplicate (s : Tcb) (th : TcpHdr) (p : Packet) : Prop :=
  s.snd.dupacks = 2 ∧ NextInLine th p s.rcv ∧ Proceeds th s ∧ AckTaken th s ∧
    isDuplicateAck th (textLen th p - oldLen th p s.rcv) s.snd = true

/-- The segment is the answer to our SYN. -/
def Answers (s : Tcb) (th : TcpHdr) : Prop :=
  th.fSyn = true ∧ th.fRst = false ∧ th.fAck = true ∧
    (th.ack.le s.snd.initial || th.ack.gt s.snd.next) = false

/-- The event does not lead to a window or a segment size of zero.

A SYN that answers ours must not offer a segment size of zero, and when one crosses ours the
connection keeps what its memory held. As long as `ssthresh` is zero the congestion window
must not wrap, and the third duplicate ACK must be taken for a new loss: that sets `ssthresh`. -/
def Wholesome (s : Tcb) (e : Event) : Prop :=
  match e.act with
  | .segment th p =>
    (s.state = .synSent → (Crosses s e → (control s.snd).Sound) ∧
      (Answers s th → ∀ o ∈ (optionsOf th p s.option).toOption, o.remoteMss ≠ 0)) ∧
    (s.state ≠ .synSent → s.snd.ssthresh = 0 →
      (control s.snd).Roomy (s.snd.data.length + 1) ∧
      (ThirdDuplicate s th p → (th.ack.back 1).gt s.snd.recover = true))
  | _ => True

instance (th : TcpHdr) (s : Tcb) : Decidable (AckTaken th s) := inferInstanceAs (Decidable (_ ∨ _))

instance (s : Tcb) (th : TcpHdr) (p : Packet) : Decidable (ThirdDuplicate s th p) :=
  inferInstanceAs (Decidable (_ ∧ _))

instance (s : Tcb) (th : TcpHdr) : Decidable (Answers s th) := inferInstanceAs (Decidable (_ ∧ _))

instance (s : Tcb) : (e : Event) → Decidable (Wholesome s e)
  | ⟨_, .segment _ _⟩ => inferInstanceAs (Decidable (_ ∧ _))
  | ⟨_, .send _⟩ | ⟨_, .read⟩ | ⟨_, .waitForData⟩ | ⟨_, .abortReader⟩ | ⟨_, .close⟩
  | ⟨_, .closeContinue⟩ | ⟨_, .shutdownConnect⟩ | ⟨_, .getPacket⟩ | ⟨_, .retransmitExpires⟩
  | ⟨_, .persistExpires⟩ | ⟨_, .delayedAckExpires⟩ | ⟨_, .arpQueueFull⟩ | ⟨_, .arpTimeout⟩ =>
    .isTrue trivial

/-! ## The machine -/

namespace Control

variable {c : Control}

theorem smss_ne_zero (h : c.mss ≠ 0) : c.smss ≠ 0 := by
  intro h0
  apply h
  apply UInt16.toNat_inj.mp
  have := congrArg UInt32.toNat h0
  rwa [smss, UInt16.toNat_toUInt32] at this

theorem two_smss_ne_zero (h : c.mss ≠ 0) : 2 * c.smss ≠ 0 := by
  intro h0
  apply smss_ne_zero h
  apply UInt32.toNat_inj.mp
  have hlt := c.mss.toNat_lt
  have := congrArg UInt32.toNat h0
  rw [UInt32.toNat_mul, smss, UInt16.toNat_toUInt32] at this
  rw [smss, UInt16.toNat_toUInt32]
  change 2 * c.mss.toNat % 2 ^ 32 = 0 at this
  change c.mss.toNat = 0
  omega

/-- In congestion avoidance one call of `update_cwnd` leaves a window that is not zero, and
not much wider than the square of the segment size. -/
theorem widen_roomy {n : UInt32} {k : Nat} (hs : c.ssthresh = 0) (hc : c.cwnd ≠ 0)
    (hr : c.Roomy (k + 1)) : (c.widen n).cwnd ≠ 0 ∧ (c.widen n).Roomy k := by
  have hcw : (c.widen n).cwnd = c.cwnd + max 1 (c.smss * c.smss / c.cwnd) := by
    have hnot : ¬ c.cwnd < c.ssthresh := by
      rw [hs]
      exact UInt32.not_lt_zero
    exact if_neg hnot
  have hm : (c.widen n).mss = c.mss := rfl
  have hpos := UInt.toNat_pos hc
  have hmss := c.mss.toNat_lt
  have hsq : (c.smss * c.smss).toNat = c.mss.toNat * c.mss.toNat := by
    rw [UInt32.toNat_mul, smss, UInt16.toNat_toUInt32, Nat.mod_eq_of_lt]
    calc c.mss.toNat * c.mss.toNat < 2 ^ 16 * 2 ^ 16 := Nat.mul_lt_mul'' hmss hmss
      _ = 2 ^ 32 := rfl
  have hadd : (max 1 (c.smss * c.smss / c.cwnd)).toNat =
      max 1 (c.mss.toNat * c.mss.toNat / c.cwnd.toNat) := by
    rw [UInt.toNat_max, UInt32.toNat_div, hsq]
    rfl
  unfold Roomy at hr ⊢
  rw [hm, hcw]
  generalize c.mss.toNat * c.mss.toNat = M at hr hadd ⊢
  -- (cwnd - 1) * (M / cwnd - 1) is not negative
  have hstep : c.cwnd.toNat + max 1 (M / c.cwnd.toNat) ≤ max c.cwnd.toNat M + 1 := by
    by_cases h1 : M / c.cwnd.toNat ≤ 1
    · rw [Nat.max_eq_left h1]
      omega
    · have hle := Nat.div_mul_le_self M c.cwnd.toNat
      generalize M / c.cwnd.toNat = q at h1 hle ⊢
      have hq : c.cwnd.toNat + q ≤ q * c.cwnd.toNat + 1 := by nlinarith
      rw [Nat.max_eq_right (by omega)]
      omega
  have hsum : (c.cwnd + max 1 (c.smss * c.smss / c.cwnd)).toNat =
      c.cwnd.toNat + max 1 (M / c.cwnd.toNat) := by
    rw [UInt32.toNat_add, hadd, Nat.mod_eq_of_lt (by omega)]
  refine ⟨fun h0 => ?_, ?_⟩
  · rw [h0] at hsum
    change 0 = _ at hsum
    omega
  · rw [hsum]
    omega

theorem neverStuck_of_ssthresh (h : c.ssthresh ≠ 0) (lens : List UInt32) : NeverStuck c lens := by
  induction lens generalizing c with
  | nil => trivial
  | cons n lens ih => exact ⟨fun hs => h hs.2, ih h⟩

/-- With room for every length the window is never zero. -/
theorem Roomy.neverStuck {lens : List UInt32} (hr : c.Roomy lens.length) (hs : c.ssthresh = 0)
    (hc : c.cwnd ≠ 0) : NeverStuck c lens ∧ (widenAll c lens).cwnd ≠ 0 := by
  induction lens generalizing c with
  | nil => exact ⟨trivial, hc⟩
  | cons n lens ih =>
    obtain ⟨hc', hr'⟩ := widen_roomy (n := n) hs hc hr
    obtain ⟨hn, hw⟩ := ih hr' hs hc'
    exact ⟨⟨fun h => hc h.1, hn⟩, hw⟩

theorem Sound.neverStuck {lens : List UInt32} (h : c.Sound)
    (hr : c.ssthresh = 0 → c.Roomy lens.length) : NeverStuck c lens := by
  rcases h.2 with hs | ⟨hc, -⟩
  · exact neverStuck_of_ssthresh hs lens
  · by_cases hs : c.ssthresh = 0
    · exact ((hr hs).neverStuck hs hc).1
    · exact neverStuck_of_ssthresh hs lens

theorem settle_frame (segAck : TcpSeq) (flight acked : UInt32) (c : Control) :
    (c.settle segAck flight acked).mss = c.mss ∧
      (c.settle segAck flight acked).ssthresh = c.ssthresh := by
  unfold settle
  split
  · split
    · exact ⟨rfl, rfl⟩
    · exact ⟨rfl, rfl⟩
  · exact ⟨rfl, rfl⟩

/-- An acknowledgement of new data. Outside of fast recovery the window is only widened. -/
theorem Sound.acked {lens : List UInt32} (h : c.Sound)
    (hr : c.ssthresh = 0 → c.Roomy lens.length) (segAck : TcpSeq) (flight acked : UInt32) :
    ((widenAll c lens).settle segAck flight acked).Sound := by
  obtain ⟨hm, hss, hd, -⟩ := widenAll_frame c lens
  obtain ⟨hm', hss'⟩ := settle_frame segAck flight acked (widenAll c lens)
  refine ⟨by rw [hm', hm]; exact h.1, ?_⟩
  by_cases hs : c.ssthresh = 0
  · obtain ⟨hc, hdup⟩ := h.2.resolve_left (not_not_intro hs)
    right
    rw [settle, if_neg (by rw [hd]; exact UInt16.not_le.mpr hdup)]
    exact ⟨((hr hs).neverStuck hs hc).2, show (0 : UInt16) < 3 by decide⟩
  · left
    rw [hss', hss]
    exact hs

theorem max_ne_zero {a b : UInt32} (h : b ≠ 0) : max a b ≠ 0 := by
  intro h0
  have hmax := UInt.toNat_max a b
  have hb := UInt.toNat_pos h
  rw [h0] at hmax
  change 0 = _ at hmax
  omega

/-- A duplicate ACK. The third one sets `ssthresh`, unless the loss was dealt with. -/
theorem Sound.duplicate {segAck : TcpSeq} (h : c.Sound)
    (hl : c.ssthresh = 0 → c.dupacks = 2 → (segAck.back 1).gt c.recover = true) (next : TcpSeq)
    (flight : UInt32) : (c.duplicate segAck next flight).Sound := by
  have hbig : max ((flight - c.limitedTransfer) / 2) (2 * c.smss) ≠ 0 :=
    max_ne_zero (two_smss_ne_zero h.1)
  unfold Control.duplicate
  simp only
  split
  · rename_i hd
    refine ⟨h.1, h.2.imp_right fun hc => ⟨hc.1, ?_⟩⟩
    rcases hd with hd | hd
    · rw [hd]
      exact show (1 : UInt16) < 3 by decide
    · rw [hd]
      exact show (2 : UInt16) < 3 by decide
  rename_i hd
  split
  · rename_i hd3
    unfold third
    split
    · exact ⟨h.1, Or.inl hbig⟩
    · rename_i hgt
      refine ⟨h.1, Or.inl fun hs => hgt (hl hs ?_)⟩
      exact (UInt16.add_left_inj 1).mp hd3
  · -- the counter is past three, and `ssthresh` was set on the way
    rename_i hd3
    have hs : c.ssthresh ≠ 0 := by
      rcases h.2 with hs | ⟨-, hlt⟩
      · exact hs
      · exfalso
        rw [UInt16.lt_iff_toNat_lt] at hlt
        change c.dupacks.toNat < 3 at hlt
        rw [not_or, ← UInt16.toNat_inj, ← UInt16.toNat_inj, UInt16.toNat_add] at hd
        rw [← UInt16.toNat_inj, UInt16.toNat_add] at hd3
        change ¬ (c.dupacks.toNat + 1) % 2 ^ 16 = 1 ∧ ¬ (c.dupacks.toNat + 1) % 2 ^ 16 = 2 at hd
        change ¬ (c.dupacks.toNat + 1) % 2 ^ 16 = 3 at hd3
        omega
    split
    · exact ⟨h.1, Or.inl hs⟩
    · exact ⟨h.1, Or.inl hs⟩

theorem timeout_sound (hm : c.mss ≠ 0) (next : TcpSeq) (flight : UInt32) (again : Bool) :
    (c.timeout next flight again).Sound :=
  ⟨hm, Or.inr ⟨smss_ne_zero hm, show (0 : UInt16) < 3 by decide⟩⟩

end Control

/-- One length for every segment acknowledged whole, and one for the part of the next. -/
theorem length_ackedLens (segAck una : TcpSeq) (data : List UnackedSegment) :
    (ackedLens segAck una data).length ≤ data.length + 1 := by
  induction data generalizing una with
  | nil =>
    unfold ackedLens
    split
    · exact Nat.le_refl _
    · exact Nat.zero_le _
  | cons seg data ih =>
    unfold ackedLens
    split
    · have := ih (una.add (UInt32.ofNat seg.p.len))
      simp only [List.length_cons]
      omega
    split
    · simp
    · exact Nat.zero_le _

/-! ## Where the division can fail -/

variable {hw : HwFeatures} {s t : Tcb} {e : Event}

theorem ackEstablished_divides {now : Int} {th : TcpHdr} {segSeq : TcpSeq} {segLen : Nat}
    (hs : s.state ≠ .closed)
    (h : ackEstablished hw now th segSeq segLen s = .error .divideByZero) :
    ¬ NeverStuck (control s.snd) (ackedLens th.ack s.snd.unacknowledged s.snd.data) := by
  unfold ackEstablished at h
  split at h
  · rename_i hn
    rcases bind_error.mp h with h | ⟨_, _, h⟩
    · rcases ackNewData_error hs hn h with h | h
      · exact dataSegmentAcked_divides h
      · cases h
    · cases h
  split at h
  · rcases bind_error.mp h with h | ⟨_, _, h⟩
    · cases duplicateAck_error hs h
    · cases h
  split at h
  · cases h
  split at h
  · cases h
  · cases h

theorem AckTaken.ne_closed {th : TcpHdr} (h : AckTaken th s) : s.state ≠ .closed := by
  rcases h with (h | h) | ⟨h, -⟩
  · rw [h]
    nofun
  · rw [h]
    nofun
  · rw [h]
    nofun

theorem ackField_divides {now : Int} {th : TcpHdr} {segSeq : TcpSeq} {segLen : Nat}
    (h : ackField hw now th segSeq segLen s = .error .divideByZero) : AckTaken th s ∧
      ¬ NeverStuck (control s.snd) (ackedLens th.ack s.snd.unacknowledged s.snd.data) := by
  by_cases hs : s.state = .synReceived
  · by_cases hack : s.snd.unacknowledged.le th.ack = true ∧ th.ack.le s.snd.next = true
    · rw [ackField_synReceived hw now segSeq segLen hs hack] at h
      obtain ⟨fs, rv, sr, rto, ef, hd⟩ := doEstablished_eq now s
      rw [hd] at h
      have hn := ackEstablished_divides (by exact nofun) h
      exact ⟨Or.inr ⟨hs, hack⟩, hn⟩
    · rw [ackField, ackSynReceived, if_pos hs, if_neg (by simpa using hack)] at h
      cases h
  · rw [ackField_other hw now th segSeq segLen hs] at h
    split at h
    · rename_i hst
      have ht : AckTaken th s := Or.inl (by simpa [Sending] using hst)
      exact ⟨ht, ackEstablished_divides ht.ne_closed h⟩
    · cases h

/-- Only an ACK field that finds both windows zero divides by zero. -/
theorem inputHandleOtherState_divides {now : Int} {th : TcpHdr} {p : Packet}
    (h : inputHandleOtherState hw now th p s = .error .divideByZero) : AckTaken th s ∧
      ¬ NeverStuck (control s.snd) (ackedLens th.ack s.snd.unacknowledged s.snd.data) := by
  have hd := inputHandleOtherState_dispatched hw now th p s
  rw [h] at hd
  generalize hx : (Except.error .divideByZero : Except Fault Tcb) = x at hd
  cases hd with
  | short _ => cases hx
  | unacceptable _ _ => cases hx
  | outOfOrder q _ _ _ _ =>
    rcases bind_error.mp hx.symm with hx | ⟨_, _, hx⟩
    · rcases bind_error.mp hx with hx | ⟨_, _, hx⟩
      · rcases PacketMerger.merge_error hx with hx | hx
        · cases hx
        · cases hx
      · cases hx
    · cases hx
  | inOrder q _ _ =>
    by_cases hp : Proceeds th s
    · rw [inOrder_proceeds hp] at hx
      rcases bind_error.mp hx.symm with hx | ⟨r, -, hx⟩
      · exact ackField_divides hx
      · cases r with
        | ret u => cases hx
        | go u b =>
          rcases textAndFin_error hx with hx | hx
          · cases hx
          · cases hx
    · obtain ⟨u, hu, -⟩ := @inOrder_not_proceeds hw now _ s.rcv.next q _ hp
      rw [hu] at hx
      cases hx

/-! ## Outside of SYN_SENT -/

theorem Level.sound (h : Level s t) (hs : (control s.snd).Sound) : (control t.snd).Sound := by
  rw [h]
  exact hs

theorem LevelOrCounted.sound (h : LevelOrCounted s t) (hs : (control s.snd).Sound) :
    (control t.snd).Sound := by
  rcases h with h | ⟨h, -⟩
  · exact h.sound hs
  · rw [h]
    exact hs

theorem MayCount.sound (h : MayCount s t) (hs : (control s.snd).Sound) :
    (control t.snd).Sound := by
  rcases h with h | h
  · exact Level.sound h hs
  · rw [h]
    exact hs

/-- There is room for every length an acknowledgement can have. -/
theorem Wholesome.roomy {now : Int} {th : TcpHdr} {p : Packet}
    (hg : Wholesome s ⟨now, .segment th p⟩) (hs : s.state ≠ .synSent)
    (h0 : (control s.snd).ssthresh = 0) :
    (control s.snd).Roomy (ackedLens th.ack s.snd.unacknowledged s.snd.data).length := by
  have hr := (hg.2 hs h0).1
  have hlen := length_ackedLens th.ack s.snd.unacknowledged s.snd.data
  unfold Control.Roomy at hr ⊢
  omega

theorem step_sound (hs : s.state ≠ .synSent) (hg : Wholesome s e) (h0 : (control s.snd).Sound)
    (h : step hw s e = .ok t) : (control t.snd).Sound := by
  cases step_control h with
  | sent hu hc => exact hc.sound (hu.sound h0)
  | opened hst _ _ => exact absurd hst hs
  | timedOut again _ hc =>
    rw [hc]
    exact Control.timeout_sound h0.1 _ _ _
  | @answered th p u he _ hn hp ho hc =>
    obtain ⟨now, act⟩ := e
    obtain rfl : act = .segment th p := he
    apply hc.sound
    cases ho with
    | level hl => exact hl.sound h0
    | acked flight _ _ _ hu =>
      rw [hu]
      exact h0.acked (hg.roomy hs) _ _ _
    | duplicate ht hdup hu =>
      rw [hu]
      exact h0.duplicate (fun hz hd => (hg.2 hs hz).2 ⟨hd, hn, hp, ht, hdup⟩) _ _

/-! ## In SYN_SENT -/

theorem initialCwnd_ne_zero {mss : UInt16} (h : mss ≠ 0) : initialCwnd mss ≠ 0 := by
  have hpos : 0 < mss.toNat := by
    rcases Nat.eq_zero_or_pos mss.toNat with h0 | h0
    · exact absurd (UInt16.toNat_inj.mp h0) h
    · exact h0
  have hlt := mss.toNat_lt
  have hmul : ∀ k : UInt32, 0 < k.toNat → k.toNat ≤ 4 → k * mss.toUInt32 ≠ 0 := by
    intro k hk hk4 h0
    have := congrArg UInt32.toNat h0
    rw [UInt32.toNat_mul, UInt16.toNat_toUInt32, Nat.mod_eq_of_lt] at this
    · have := Nat.mul_pos hk hpos
      change k.toNat * mss.toNat = 0 at *
      omega
    · calc k.toNat * mss.toNat ≤ 4 * mss.toNat := Nat.mul_le_mul_right _ hk4
        _ < 2 ^ 32 := by omega
  unfold initialCwnd
  split
  · exact hmul 2 (by decide) (by decide)
  split
  · exact hmul 3 (by decide) (by decide)
  · exact hmul 4 (by decide) (by decide)

theorem SetFrom.sound {th : TcpHdr} {o : TcpOption} (h : SetFrom hw th o t)
    (ho : o.remoteMss ≠ 0) (hd : t.snd.dupacks = 0) : (control t.snd).Sound := by
  refine ⟨?_, Or.inr ⟨?_, ?_⟩⟩
  · have hm : (control t.snd).mss = o.remoteMss := h.mss
    rw [hm]
    exact ho
  · have hc : (control t.snd).cwnd = initialCwnd o.remoteMss := h.cwnd
    rw [hc]
    exact initialCwnd_ne_zero ho
  · have hd : (control t.snd).dupacks = 0 := hd
    rw [hd]
    decide

theorem Level.dupacks (h : Level s t) : t.snd.dupacks = s.snd.dupacks :=
  congrArg Control.dupacks h

theorem LevelOrCounted.dupacks (h : LevelOrCounted s t) : t.snd.dupacks = s.snd.dupacks := by
  rcases h with h | ⟨h, -⟩
  · exact h.dupacks
  · exact congrArg Control.dupacks h

theorem MayCount.dupacks (h : MayCount s t) : t.snd.dupacks = s.snd.dupacks := by
  rcases h with h | h
  · exact Level.dupacks h
  · exact congrArg Control.dupacks h

theorem Negotiates.dupacks {th : TcpHdr} (h : Negotiates hw th e s t) :
    t.snd.dupacks = s.snd.dupacks := by
  obtain ⟨-, -, -, _, _, _, _, -, -, -, h⟩ := h
  obtain ⟨o, -, h⟩ := bind_ok.mp h
  obtain rfl := Except.ok.inj h
  simp only [acceptSyn]
  split
  · rfl
  · rfl

/-- No duplicate ACK is counted before the connection is open. -/
theorem step_dupacks (hs : s.state = .synSent) (h0 : s.snd.dupacks = 0)
    (h : step hw s e = .ok t) : t.snd.dupacks = 0 := by
  cases step_control h with
  | sent hu hc => exact hc.dupacks.trans (hu.dupacks.trans h0)
  | answered _ hne _ _ _ _ => exact absurd hs hne
  | opened _ hn hl => exact hl.dupacks.trans (hn.dupacks.trans h0)
  | timedOut again _ hc => exact congrArg Control.dupacks hc

/-- Where the SYNs cross, the windows stay what they were. -/
theorem Crosses.sound (hc : Crosses s e) (ha : Awaiting hw s) (h0 : (control s.snd).Sound)
    (h : step hw s e = .ok t) : (control t.snd).Sound := by
  cases step_control h with
  | sent hu ht => exact ht.sound (hu.sound h0)
  | answered _ hne _ _ _ _ => exact absurd ha.state hne
  | timedOut again _ ht =>
    rw [ht]
    exact Control.timeout_sound h0.1 _ _ _
  | opened _ hn _ =>
    obtain ⟨-, -, hgt, p, _, _, _, he, -⟩ := hn
    obtain ⟨now, act⟩ := e
    obtain rfl : act = _ := he
    obtain ⟨-, -, -, hack⟩ := hc
    rw [acceptSyn, hack] at hgt
    simp only [Bool.false_eq_true, if_false] at hgt
    rw [ha.unacknowledged] at hgt
    exact absurd hgt (by rw [TcpSeq.gt, TcpSeq.lt_irrefl]; exact Bool.false_ne_true)

/-- A connection that becomes ESTABLISHED got its answer. -/
theorem Awaiting.answers {now : Int} {th : TcpHdr} {p : Packet} (ha : Awaiting hw s)
    (h : inputHandleSynSentState hw now th p s = .ok t) (ht : t.state = .established) :
    Answers s th := by
  have hsame : ∀ {b : Tcb}, b.state = .synSent → t ≠ b := by
    rintro b hb rfl
    rw [hb] at ht
    cases ht
  have hin := h
  obtain ⟨⟨hdr, q⟩, -, h⟩ := bind_ok.mp h
  simp only at h
  split at h
  · exact absurd (Except.ok.inj h).symm (hsame ha.state)
  rename_i hack
  split at h
  · obtain rfl := Except.ok.inj h
    split at ht
    · obtain ⟨pd, ps, pa, ef, hr⟩ := doReset_eq s
      rw [hr] at ht
      cases ht
    · rw [ha.state] at ht
      cases ht
  rename_i hrst
  split at h
  · rename_i hsyn
    have hfack : th.fAck = true := by
      by_contra hn
      have hc : Crosses s ⟨now, .segment th p⟩ :=
        ⟨ha.state, hsyn, Bool.eq_false_iff.mpr hrst, Bool.eq_false_iff.mpr hn⟩
      rw [ha.crosses hc hin] at ht
      cases ht
    refine ⟨hsyn, Bool.eq_false_iff.mpr hrst, hfack, ?_⟩
    rw [hfack, Bool.true_and] at hack
    exact Bool.eq_false_iff.mpr hack
  · exact absurd (Except.ok.inj h).symm (hsame ha.state)

/-! ## One event -/

/-- Before the SYN of the peer nothing is known of the windows; after it they are sound. -/
inductive Kept (hw : HwFeatures) (s : Tcb) : Prop
  | waiting : Awaiting hw s → s.snd.dupacks = 0 → Kept hw s
  | closed : s.state = .closed → Kept hw s
  | sound : s.state ≠ .synSent → (control s.snd).Sound → Kept hw s

theorem step_kept (hk : Kept hw s) (hg : Wholesome s e) (h : step hw s e = .ok t) : Kept hw t := by
  cases hk with
  | waiting ha hd =>
    have hd' := step_dupacks ha.state hd h
    cases step_answered ha h with
    | waiting _ hat => exact .waiting hat hd'
    | ended _ ht => exact .closed ht
    | crossed hc ht =>
      have hs : (control s.snd).Sound := by
        obtain ⟨th, p, he⟩ := hc.segment
        obtain ⟨now, act⟩ := e
        obtain rfl : act = .segment th p := he
        exact (hg.1 ha.state).1 hc
      exact .sound (by rw [ht]; nofun) (hc.sound ha hs h)
    | @taken now th p o _ he _ ht ho hset =>
      obtain rfl := he
      have hin : inputHandleSynSentState hw now th p s = .ok t := (if_pos ha.state).symm.trans h
      have hmss : o.remoteMss ≠ 0 := by
        refine (hg.1 ha.state).2 (ha.answers hin ht) o ?_
        rw [ha.option, ho]
        rfl
      exact .sound (by rw [ht]; nofun) (hset.sound hmss hd')
  | closed hs =>
    exact .closed ((step_settled (Or.inl (by rw [hs]; nofun)) h).closed hs)
  | sound hs h0 =>
    exact .sound (fun ht => hs ((step_settled (Or.inl hs) h).synSent ht)) (step_sound hs hg h0 h)

theorem step_ne_divideByZero (hk : Kept hw s) (hg : Wholesome s e) :
    step hw s e ≠ .error .divideByZero := by
  intro h
  by_cases hseg : ∃ th p, e.act = .segment th p
  · obtain ⟨th, p, he⟩ := hseg
    obtain ⟨now, act⟩ := e
    obtain rfl : act = .segment th p := he
    have h : inputHandle hw now th p s = .error .divideByZero := h
    by_cases hs : s.state = .synSent
    · rw [inputHandle, if_pos hs] at h
      rcases inputHandleSynSentState_error h with ⟨h, -⟩ | ⟨h, -⟩ | h
      · cases h
      · cases h
      · cases h
    · rw [inputHandle, if_neg hs] at h
      obtain ⟨ht, hstuck⟩ := inputHandleOtherState_divides h
      cases hk with
      | waiting ha _ => exact hs ha.state
      | closed hc => exact ht.ne_closed hc
      | sound _ h0 => exact hstuck (h0.neverStuck (hg.roomy hs))
  · rcases step_changes hw s (e := e) (fun th p he => hseg ⟨th, p, he⟩) with he | ⟨t, ht, -⟩
    · rw [he] at h
      cases h
    · rw [ht] at h
      cases h

/-! ## Runs -/

/-- What is cut into segments is cut at one byte at least. -/
theorem maxPayload_ne_zero (hu : hw.txTso = true ∨ hw.mtu ≠ 40) (hm : s.snd.mss ≠ 0) :
    maxPayload hw s.snd ≠ 0 := by
  unfold maxPayload
  split
  · decide
  · rename_i htso
    intro h
    have hmin : min (hw.mtu - 20 - 20) s.snd.mss = 0 := by
      apply UInt16.toNat_inj.mp
      have := congrArg UInt32.toNat h
      rwa [UInt16.toNat_toUInt32] at this
    rw [UInt16.min_def] at hmin
    split at hmin
    · apply hu.resolve_left htso
      grind
    · exact hm hmin

theorem Opened.kept {tcb : Tcb} (ho : Opened hw tcb)
    (hm : tcb.state ≠ .synSent → tcb.option.remoteMss ≠ 0) : Kept hw tcb := by
  cases ho with
  | active mem id now isn =>
    refine .waiting (.of_connect mem id now isn) ?_
    rw [connect, (doSynSent_level _ _).dupacks]
    rfl
  | passive _ _ _ h =>
    obtain ⟨hst, o, -, hset⟩ := inputHandleListenState_setFrom h
    have hne : tcb.state ≠ .synSent := by
      intro h'
      cases hst.symm.trans h'
    have hd : tcb.snd.dupacks = 0 := by
      obtain ⟨⟨hdr, q⟩, -, h⟩ := bind_ok.mp h
      obtain ⟨area, -, h⟩ := bind_ok.mp h
      obtain ⟨b, hb, h⟩ := bind_ok.mp h
      obtain rfl := Except.ok.inj h
      obtain ⟨o, -, hb⟩ := bind_ok.mp hb
      obtain rfl := Except.ok.inj hb
      rw [(doSynReceived_level _ _).dupacks]
      rfl
    refine .sound hne (hset.sound ?_ hd)
    have := hm hne
    rwa [hset.option] at this

/-- No run of a connection divides by zero, and it always cuts segments of one byte at least,
when every event is wholesome. The segment size of a SYN to a listening port must not be zero, nor
the MTU leave no room for text. -/
theorem run_positiveWindow (hw : HwFeatures) {tcb : Tcb} (es : List Event) (ho : Opened hw tcb)
    (hm : tcb.state ≠ .synSent → tcb.option.remoteMss ≠ 0) (hu : hw.txTso = true ∨ hw.mtu ≠ 40)
    (hg : Along hw Wholesome tcb es) :
    run hw tcb es ≠ .error .divideByZero ∧
      Throughout hw (fun s => s.state ≠ .synSent → s.state ≠ .closed →
        s.snd.mss ≠ 0 ∧ maxPayload hw s.snd ≠ 0) tcb es := by
  have hk := ho.kept hm
  have hstep : ∀ (s : Tcb) (e : Event) (t : Tcb), Kept hw s → Wholesome s e → step hw s e = .ok t →
      Kept hw t := fun s e t hs he h => step_kept hs he h
  refine ⟨Run.run_ne_error (Run.Along.of_inv hstep ?_ hk hg),
    Run.Throughout.of_along hstep ?_ hk hg⟩
  · intro s e hs he
    exact step_ne_divideByZero hs he
  · intro s hs hsyn hc
    cases hs with
    | waiting ha _ => exact absurd ha.state hsyn
    | closed h => exact absurd h hc
    | sound _ h0 => exact ⟨h0.1, maxPayload_ne_zero hu h0.1⟩

/-- The SYN of the peer leaves a window of `256 * hi`, the next segment one of 1000. Then "a" and
"b" are sent, three duplicate ACKs arrive, and both are acknowledged. -/
def opensWith (hi : UInt8) : List Event :=
  [⟨0, .getPacket⟩,
    ⟨1, .arrives [0, 80, 160, 0, 0, 0, 0, 7, 0, 0, 0, 101, 0x50, 0x12, hi, 0, 0, 0, 0, 0]⟩,
    ⟨2, .getPacket⟩, ⟨3, ackAt 101⟩, ⟨4, .send (Packet.ofFrags [[97]])⟩, ⟨5, .getPacket⟩,
    ⟨6, .send (Packet.ofFrags [[98]])⟩, ⟨7, .getPacket⟩, ⟨8, ackAt 101⟩, ⟨9, ackAt 101⟩,
    ⟨10, ackAt 101⟩, ⟨11, ackAt 102⟩, ⟨12, ackAt 103⟩]

/-- A SYN with a window keeps the run from dividing by zero. -/
theorem opensWith_positive :
    run {} ((Stack.newTcb {} ⟨0, 0, 0, 0⟩).connect {} 0 ⟨100⟩) (opensWith 3) ≠
        .error .divideByZero ∧
      Throughout {} (fun s => s.state ≠ .synSent → s.state ≠ .closed →
          s.snd.mss ≠ 0 ∧ maxPayload {} s.snd ≠ 0)
        ((Stack.newTcb {} ⟨0, 0, 0, 0⟩).connect {} 0 ⟨100⟩) (opensWith 3) :=
  run_positiveWindow {} (opensWith 3) (.active {} ⟨0, 0, 0, 0⟩ 0 ⟨100⟩)
    (fun h => absurd rfl h) (Or.inr (by decide)) (by decide +kernel)

/-- Without one, the first acknowledgement leaves fast recovery with a window of zero, and the
second divides by it. And a SYN may offer a segment size of zero. -/
theorem opensWith_divides :
    run {} ((Stack.newTcb {} ⟨0, 0, 0, 0⟩).connect {} 0 ⟨100⟩) (opensWith 0) =
      .error .divideByZero ∧
    ∃ t, run {} ((Stack.newTcb {} ⟨0, 0, 0, 0⟩).connect {} 0 ⟨100⟩)
        [⟨0, .getPacket⟩,
          ⟨1, .arrives [0, 80, 160, 0, 0, 0, 0, 7, 0, 0, 0, 101, 0x60, 0x12, 3, 232, 0, 0, 0, 0,
            2, 4, 0, 0]⟩] = .ok t ∧
      t.state = .established ∧ t.snd.mss = 0 ∧ maxPayload {} t.snd = 0 := by
  refine ⟨by rfl, _, rfl, ?_, ?_, ?_⟩
  · decide +kernel
  · decide +kernel
  · decide +kernel

end Seastar.Net.Tcp.Tcb
