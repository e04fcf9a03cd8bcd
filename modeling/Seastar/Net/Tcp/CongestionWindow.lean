import Seastar.Net.Tcp.SendAccounting

/-!
How much new data one call of `output_one` sends, and what that does to the bytes in
flight.

`can_send` takes the bytes in flight from the window of the peer but not from the
congestion window, so each call may send up to `_snd.cwnd` more. The flight stays
within `_snd.cwnd` only where another bound stops it first.
-/

namespace Seastar.Net.Tcp.Tcb

open Lib

/-- The bytes in flight, SND.NXT - SND.UNA. -/
def inFlight (snd : Send) : Nat := (snd.next.sub snd.unacknowledged).toNat

/-- The most one segment carries; in fast recovery that is one `mss`. -/
def segmentLimit (hw : HwFeatures) (snd : Send) : Nat :=
  if snd.dupacks ≥ 3 then min snd.mss.toNat (maxPayload hw snd).toNat else (maxPayload hw snd).toNat

/-- The length of the next segment of new data. -/
def freshLen (hw : HwFeatures) (snd : Send) : Nat :=
  min (min (canSend snd).1.toNat (maxPayload hw snd).toNat) (totalLen snd.unsent)

/-- The connection has seen no duplicate ACK that limited transmit looks at, and does not
send a window probe. -/
def Calm (snd : Send) : Prop := snd.dupacks ≠ 1 ∧ snd.dupacks ≠ 2 ∧ snd.windowProbe = false

/-- A call of `output_one` for new data by `get_packet` or `close`. -/
def Transmits (tcb : Tcb) (e : Event) : Prop :=
  tcb.state ≠ .closed ∧
    match e.act with
    | .getPacket => tcb.pollActive = true ∧ tcb.packetq = []
    | .closeContinue => 0 < tcb.closeTasks
    | _ => False

/-- One of the bounds is zero, and no data is sent. -/
def SendsNothing (hw : HwFeatures) (snd : Send) : Prop :=
  snd.window.toNat ≤ inFlight snd ∨ snd.cwnd = 0 ∨ snd.unsentLen = 0 ∨ totalLen snd.unsent = 0 ∨
    segmentLimit hw snd = 0

/-- Nothing is in flight, or the window of the peer, what is queued or the size of a
segment keeps the flight within the congestion window. -/
def StaysWithin (hw : HwFeatures) (snd : Send) : Prop :=
  inFlight snd = 0 ∨ snd.window ≤ snd.cwnd ∨ inFlight snd + snd.unsentLen.toNat ≤ snd.cwnd.toNat ∨
    inFlight snd + totalLen snd.unsent ≤ snd.cwnd.toNat ∨
    inFlight snd + segmentLimit hw snd ≤ snd.cwnd.toNat

/-- `output_one` is called only where its segment leaves the flight within the congestion
window. -/
def KeepsToCwnd (hw : HwFeatures) (tcb : Tcb) (e : Event) : Prop :=
  Calm tcb.snd → Transmits tcb e → SendsNothing hw tcb.snd ∨ StaysWithin hw tcb.snd

/-- The event sends new data and leaves more in flight than the congestion window. -/
def ExceedsCwnd (hw : HwFeatures) (tcb : Tcb) (e : Event) : Prop :=
  ∃ t, Transmits tcb e ∧ step hw tcb e = .ok t ∧ t.snd.next ≠ tcb.snd.next ∧
    t.snd.cwnd.toNat < inFlight t.snd

/-! ## The length of a segment -/

theorem mergeUnsent_len {q p : Packet} {x : Nat} {unsent rest : List Packet}
    (h : mergeUnsent p x unsent = .ok (q, rest)) : q.len = p.len + min x (totalLen unsent) := by
  induction unsent generalizing p x with
  | nil =>
    obtain ⟨rfl, -⟩ := Prod.mk.inj (Except.ok.inj h)
    rw [totalLen_nil, Nat.min_zero, Nat.add_zero]
  | cons r unsent ih =>
    have htotal : totalLen (r :: unsent) = r.len + totalLen unsent := by simp [totalLen]
    rw [mergeUnsent] at h
    split at h
    · rw [ih h, Packet.len_append, htotal]
      omega
    split at h
    · obtain ⟨s, hs, h⟩ := bind_ok.mp h
      obtain ⟨r', -, h⟩ := bind_ok.mp h
      obtain ⟨rfl, -⟩ := Prod.mk.inj (Except.ok.inj h)
      obtain ⟨s', -, hs', -, hl, -⟩ := split_packet (q := r) (x := x) (by omega)
      obtain rfl := Except.ok.inj (hs.symm.trans hs')
      rw [Packet.len_append, hl, htotal]
      omega
    · obtain ⟨rfl, -⟩ := Prod.mk.inj (Except.ok.inj h)
      omega

theorem getTransmitPacket_len {hw : HwFeatures} {snd snd' : Send} {p : Packet}
    (h : getTransmitPacket hw snd = .ok (p, snd')) : p.len = freshLen hw snd := by
  obtain ⟨lt, hlt⟩ := canSend_eq snd
  have hmax : maxPayload hw (canSend snd).2 = maxPayload hw snd := by
    rw [hlt]
    rfl
  unfold getTransmitPacket at h
  unfold freshLen
  split at h
  · rename_i hu
    obtain ⟨rfl, -⟩ := Prod.mk.inj (Except.ok.inj h)
    rw [hu, totalLen_nil, Nat.min_zero]
    exact Packet.len_empty
  · rename_i front rest hu
    have htotal : totalLen snd.unsent = front.len + totalLen rest := by simp [hu, totalLen]
    simp only [hmax, UInt.toNat_min] at h
    generalize min (canSend snd).1.toNat (maxPayload hw snd).toNat = x at h ⊢
    split at h
    · rename_i hfit
      simp only [Bool.and_eq_true, decide_eq_true_eq, List.isEmpty_iff] at hfit
      obtain ⟨rfl, -⟩ := Prod.mk.inj (Except.ok.inj h)
      rw [htotal, hfit.1, totalLen_nil]
      omega
    split at h
    · obtain ⟨s, hs, h⟩ := bind_ok.mp h
      obtain ⟨r, -, h⟩ := bind_ok.mp h
      obtain ⟨rfl, -⟩ := Prod.mk.inj (Except.ok.inj h)
      obtain ⟨s', -, hs', -, hl, -⟩ := split_packet (q := front) (x := x) (by omega)
      obtain rfl := Except.ok.inj (hs.symm.trans hs')
      rw [hl]
      omega
    · obtain ⟨⟨q, rest'⟩, hq, h⟩ := bind_ok.mp h
      obtain ⟨rfl, -⟩ := Prod.mk.inj (Except.ok.inj h)
      rw [mergeUnsent_len hq]
      omega

/-- Without duplicate ACKs and probes the next segment is as long as its bounds allow. -/
theorem freshLen_calm {hw : HwFeatures} {snd : Send} (hc : Calm snd) :
    freshLen hw snd = if snd.window.toNat ≤ inFlight snd then 0
      else min (min snd.cwnd.toNat (min (snd.window.toNat - inFlight snd) snd.unsentLen.toNat))
        (min (segmentLimit hw snd) (totalLen snd.unsent)) := by
  obtain ⟨h₁, h₂, hprobe⟩ := hc
  unfold freshLen canSend
  rw [if_neg (by rw [hprobe]; exact Bool.false_ne_true)]
  by_cases hw0 : snd.window = 0
  · have : snd.window.toNat ≤ inFlight snd := by rw [hw0]; exact Nat.zero_le _
    rw [if_pos hw0, if_pos this]
    simp
  rw [if_neg hw0]
  simp only
  by_cases hgt : snd.next.sub snd.unacknowledged > snd.window
  · have hle : snd.window.toNat ≤ inFlight snd := Nat.le_of_lt (UInt32.lt_iff_toNat_lt.mp hgt)
    rw [if_pos hgt, if_pos hle]
    simp
  have hle : inFlight snd ≤ snd.window.toNat := by
    rw [gt_iff_lt, UInt32.lt_iff_toNat_lt, Nat.not_lt] at hgt
    exact hgt
  have hsub : (snd.window - snd.next.sub snd.unacknowledged).toNat =
      snd.window.toNat - inFlight snd := by
    rw [UInt32.toNat_sub_of_le]
    · rfl
    · exact UInt32.le_iff_toNat_le.mpr hle
  rw [if_neg hgt, if_neg (by simp [h₁, h₂])]
  by_cases h₃ : snd.dupacks ≥ 3
  · rw [if_pos h₃]
    simp only [UInt.toNat_min, hsub, UInt16.toNat_toUInt32, segmentLimit, if_pos h₃]
    split
    · omega
    · omega
  · rw [if_neg h₃]
    simp only [UInt.toNat_min, hsub, segmentLimit, if_neg h₃]
    split
    · omega
    · omega

/-! ## One event -/

theorem queuePacket_snd {seg : OutSegment} {a b : Tcb} (h : queuePacket seg a = .ok b) :
    b.snd = a.snd := by
  unfold queuePacket at h
  split at h
  · obtain rfl := Except.ok.inj h
    rfl
  · cases h

theorem freshLen_lt (hw : HwFeatures) (snd : Send) : freshLen hw snd < 2 ^ 16 := by
  have hmax := maxPayload_le hw snd
  unfold freshLen
  omega

/-- A segment of new data moves SND.NXT over it. -/
theorem outputOne_flight {hw : HwFeatures} {now : Int} {a b : Tcb} (hs : a.state ≠ .closed)
    (h : outputOne hw now false a = .ok b) :
    b.snd.next = a.snd.next.add (UInt32.ofNat (freshLen hw a.snd)) ∧
      b.snd.unacknowledged = a.snd.unacknowledged ∧ b.snd.cwnd = a.snd.cwnd := by
  rw [outputOne, if_neg hs, payloadToSend, if_neg Bool.false_ne_true] at h
  obtain ⟨⟨q, snd⟩, hq, h⟩ := bind_ok.mp h
  obtain ⟨c, -, h⟩ := bind_ok.mp h
  obtain ⟨⟨seg, t⟩, hbuild, h⟩ := bind_ok.mp h
  have hlen := getTransmitPacket_len hq
  have hlt := freshLen_lt hw a.snd
  have hl32 : (UInt16.ofNat q.len).toUInt32 = UInt32.ofNat (freshLen hw a.snd) := by
    apply UInt32.toNat_inj.mp
    rw [UInt16.toNat_toUInt32, UInt16.toNat_ofNat', UInt32.toNat_ofNat', hlen]
    omega
  obtain ⟨p, unsent, lt, hp, -⟩ := getTransmitPacket_spec hw a.snd
  obtain ⟨rfl, rfl⟩ := Prod.mk.inj (Except.ok.inj (hp.symm.trans hq))
  obtain ⟨da, s, hb, -⟩ := buildSegment_eq hw false p { a with snd := { a.snd with
    unsent := unsent, unsentLen := a.snd.unsentLen - UInt32.ofNat p.len, limitedTransfer := lt } }
  obtain ⟨rfl, rfl⟩ := Prod.mk.inj (Except.ok.inj (hb.symm.trans hbuild))
  have hsnd := queuePacket_snd h
  rw [← hl32]
  simp only at hsnd
  split at hsnd
  · obtain ⟨rt, hr⟩ := rememberSent_eq now c (UInt16.ofNat p.len) { a with
      delayedAck := da
      snd := { a.snd with
        unsent := unsent, unsentLen := a.snd.unsentLen - UInt32.ofNat p.len, limitedTransfer := lt
        next := a.snd.next.add (UInt16.ofNat p.len).toUInt32 } }
    rw [hsnd]
    exact ⟨congrArg (fun t => t.snd.next) hr, congrArg (fun t => t.snd.unacknowledged) hr,
      congrArg (fun t => t.snd.cwnd) hr⟩
  · rw [hsnd]
    exact ⟨rfl, rfl, rfl⟩

theorem takePacket_snd {a b : Tcb} {o : Option OutSegment} (h : takePacket a = .ok (o, b)) :
    b.snd.next = a.snd.next ∧ b.snd.unacknowledged = a.snd.unacknowledged ∧
      b.snd.cwnd = a.snd.cwnd := by
  have hout : ∀ u : Tcb, (output u).snd = u.snd := by
    intro u
    unfold output
    split
    · rfl
    · rfl
  unfold takePacket at h
  split at h
  · obtain ⟨-, rfl⟩ := Prod.mk.inj (Except.ok.inj h)
    exact ⟨rfl, rfl, rfl⟩
  split at h
  · cases h
  rename_i p packetq hp
  simp only at h
  split at h
  · obtain ⟨-, rfl⟩ := Prod.mk.inj (Except.ok.inj h)
    rw [hout]
    exact ⟨rfl, rfl, rfl⟩
  split at h
  · obtain ⟨lt, hlt⟩ := canSend_eq a.snd
    have hmay : ∀ c : Tcb, (c = (mayTransmit { a with
        packetq := packetq, handed := a.handed ++ [p] }).2 ∨ c = output (mayTransmit { a with
        packetq := packetq, handed := a.handed ++ [p] }).2) →
        c.snd = { a.snd with limitedTransfer := lt } := by
      rintro c (rfl | rfl)
      · exact hlt
      · rw [hout]
        exact hlt
    obtain ⟨-, rfl⟩ := Prod.mk.inj (Except.ok.inj h)
    split
    · rw [hmay _ (Or.inr rfl)]
      exact ⟨rfl, rfl, rfl⟩
    · rw [hmay _ (Or.inl rfl)]
      exact ⟨rfl, rfl, rfl⟩
  · obtain ⟨-, rfl⟩ := Prod.mk.inj (Except.ok.inj h)
    exact ⟨rfl, rfl, rfl⟩

/-- `close` changes nothing `output_one` looks at. -/
theorem freshLen_closed (hw : HwFeatures) (snd : Send) :
    freshLen hw { snd with closed := true } = freshLen hw snd := by
  have hcan : (canSend { snd with closed := true }).1 = (canSend snd).1 := by
    unfold canSend
    simp only
    split
    · rfl
    split
    · rfl
    split
    · rfl
    split
    · rfl
    split
    · rfl
    · rfl
  rw [freshLen, hcan]
  rfl

/-- An event that transmits moves SND.NXT by the next segment, and nothing else of the
flight. -/
theorem step_transmits {hw : HwFeatures} {s t : Tcb} {e : Event} (ht : Transmits s e)
    (h : step hw s e = .ok t) :
    t.snd.next = s.snd.next.add (UInt32.ofNat (freshLen hw s.snd)) ∧
      t.snd.unacknowledged = s.snd.unacknowledged ∧ t.snd.cwnd = s.snd.cwnd := by
  obtain ⟨now, act⟩ := e
  obtain ⟨hs, hact⟩ := ht
  cases act with
  | getPacket =>
    obtain ⟨hpoll, hq⟩ := hact
    have h : (if s.pollActive then (getPacket hw now s).map Prod.snd else .ok s) = .ok t := h
    rw [if_pos hpoll] at h
    obtain ⟨⟨o, u⟩, hg, rfl⟩ := map_ok.mp h
    obtain ⟨v, hv, hg⟩ := bind_ok.mp hg
    rw [fillPacketq, if_pos (by simp [hq])] at hv
    obtain ⟨hn, hu, hc⟩ := outputOne_flight (by exact hs) hv
    obtain ⟨hn', hu', hc'⟩ := takePacket_snd hg
    exact ⟨hn'.trans hn, hu'.trans hu, hc'.trans hc⟩
  | closeContinue =>
    have h : (if 0 < s.closeTasks then
      closeContinue hw now { s with closeTasks := s.closeTasks - 1 } else .ok s) = .ok t := h
    rw [if_pos hact] at h
    obtain ⟨v, hv, h⟩ := bind_ok.mp h
    obtain rfl := Except.ok.inj h
    have hout := output_steady v
    have hcw : (output v).snd.cwnd = v.snd.cwnd := by
      unfold output
      split
      · rfl
      · rfl
    rw [hout.next, hout.unacknowledged, hcw]
    have hgo : ∀ st : TcpState, st ≠ .closed → outputOne hw now false { s with
        state := st, closeTasks := s.closeTasks - 1, snd := { s.snd with closed := true } } = .ok v →
        v.snd.next = s.snd.next.add (UInt32.ofNat (freshLen hw s.snd)) ∧
          v.snd.unacknowledged = s.snd.unacknowledged ∧ v.snd.cwnd = s.snd.cwnd := by
      intro st hst hv
      have hf := outputOne_flight (a := { s with
        state := st, closeTasks := s.closeTasks - 1, snd := { s.snd with closed := true } }) hst hv
      rwa [freshLen_closed] at hf
    split at hv
    · exact hgo .lastAck (by decide) hv
    split at hv
    · exact hgo .finWait1 (by decide) hv
    · exact hgo s.state hs hv
  | _ => exact hact.elim

/-- New data that is not a probe fits the window of the peer. -/
theorem freshLen_fits {hw : HwFeatures} {snd : Send} (hp : snd.windowProbe = false)
    (h : 0 < freshLen hw snd) : inFlight snd + freshLen hw snd ≤ snd.window.toNat := by
  have hcan : (canSend snd).1.toNat = 0 ∨
      inFlight snd + (canSend snd).1.toNat ≤ snd.window.toNat := by
    unfold canSend
    rw [if_neg (by rw [hp]; exact Bool.false_ne_true)]
    split
    · exact Or.inl rfl
    simp only
    split
    · exact Or.inl rfl
    rename_i hgt
    rw [gt_iff_lt, UInt32.lt_iff_toNat_lt, Nat.not_lt] at hgt
    have hle : inFlight snd ≤ snd.window.toNat := hgt
    have hsub : (snd.window - snd.next.sub snd.unacknowledged).toNat =
        snd.window.toNat - inFlight snd := by
      rw [UInt32.toNat_sub_of_le]
      · rfl
      · exact UInt32.le_iff_toNat_le.mpr hle
    right
    split
    · split
      · simp only [UInt.toNat_min, hsub]
        omega
      · simpa using hle
    split
    · simp only [UInt.toNat_min, hsub]
      omega
    · simp only [UInt.toNat_min, hsub]
      omega
  unfold freshLen at h ⊢
  omega

/-- The next segment leaves the flight within the congestion window exactly when it is empty
or another bound stops it in time. -/
theorem freshLen_within {hw : HwFeatures} {snd : Send} (hc : Calm snd) :
    (freshLen hw snd = 0 ∨ inFlight snd + freshLen hw snd ≤ snd.cwnd.toNat) ↔
      SendsNothing hw snd ∨ StaysWithin hw snd := by
  have hcw : snd.cwnd = 0 ↔ snd.cwnd.toNat = 0 := by rw [← UInt32.toNat_inj]; rfl
  have hul : snd.unsentLen = 0 ↔ snd.unsentLen.toNat = 0 := by rw [← UInt32.toNat_inj]; rfl
  rw [freshLen_calm hc, SendsNothing, StaysWithin, hcw, hul, UInt32.le_iff_toNat_le]
  split
  · omega
  · omega

theorem inFlight_add {a b : Send} {n : Nat} (hn : b.next = a.next.add (UInt32.ofNat n))
    (hu : b.unacknowledged = a.unacknowledged) (h : inFlight a + n < 2 ^ 32) :
    inFlight b = inFlight a + n := by
  have hsub : b.next.sub b.unacknowledged = a.next.sub a.unacknowledged + UInt32.ofNat n := by
    rw [hn, hu]
    simp only [TcpSeq.sub, TcpSeq.add]
    grind
  have hlt : n < 2 ^ 32 := by omega
  rw [inFlight, hsub, UInt32.toNat_add, UInt32.toNat_ofNat']
  have : (a.next.sub a.unacknowledged).toNat = inFlight a := rfl
  rw [this]
  omega

theorem add_ne {a : TcpSeq} {n : Nat} (h : 0 < n) (hlt : n < 2 ^ 32) :
    a.add (UInt32.ofNat n) ≠ a := by
  intro he
  have hn := (seqAt_eq_iff a (a := n) (b := 0) (by omega) (by omega)).mp (by rw [seqAt_zero]; exact he)
  omega

/-- The condition fails exactly where an event sends too much. -/
theorem step_exceeds {hw : HwFeatures} {s t : Tcb} {e : Event} (h : step hw s e = .ok t) :
    KeepsToCwnd hw s e ↔ (Calm s.snd → ¬ ExceedsCwnd hw s e) := by
  have hlt := freshLen_lt hw s.snd
  have hafter : Calm s.snd → Transmits s e → 0 < freshLen hw s.snd →
      inFlight t.snd = inFlight s.snd + freshLen hw s.snd := by
    intro hc ht hpos
    obtain ⟨hn, hu, -⟩ := step_transmits ht h
    have hfits := freshLen_fits hc.2.2 hpos
    have hwin := s.snd.window.toNat_lt
    exact inFlight_add hn hu (by omega)
  constructor
  · rintro hk hc ⟨u, ht, hu, hne, hexc⟩
    obtain rfl := Except.ok.inj (h.symm.trans hu)
    obtain ⟨hn, -, hcw⟩ := step_transmits ht h
    have hpos : 0 < freshLen hw s.snd := by
      by_contra h0
      rw [Nat.not_lt, Nat.le_zero] at h0
      rw [hn, h0] at hne
      exact hne (seqAt_zero s.snd.next)
    have hwithin := (freshLen_within hc).mpr (hk hc ht)
    rw [hafter hc ht hpos, hcw] at hexc
    omega
  · intro hx hc ht
    by_contra hn
    have hbad := mt (@freshLen_within hw s.snd hc).mp hn
    rw [not_or, Nat.not_le] at hbad
    obtain ⟨hnext, -, hcw⟩ := step_transmits ht h
    have hpos : 0 < freshLen hw s.snd := by omega
    refine hx hc ⟨t, ht, h, ?_, ?_⟩
    · rw [hnext]
      exact add_ne hpos (by omega)
    · rw [hafter hc ht hpos, hcw]
      exact hbad.2

/-- In a run every transmission of new data, apart from window probes and from the time of
limited transmit, leaves no more in flight than the congestion window, exactly when
`output_one` is called only where another bound keeps the flight within it. -/
theorem run_flight (hw : HwFeatures) {tcb t : Tcb} (es : List Event) (hr : run hw tcb es = .ok t) :
    Along hw (fun s e => Calm s.snd → ¬ ExceedsCwnd hw s e) tcb es ↔
      Along hw (KeepsToCwnd hw) tcb es := by
  induction es generalizing tcb with
  | nil => exact ⟨fun _ => trivial, fun _ => trivial⟩
  | cons e es ih =>
    obtain ⟨u, hu, hr⟩ := Run.run_cons_ok.mp hr
    have hrest : ∀ {P : Tcb → Event → Prop},
        Along hw P tcb (e :: es) ↔ P tcb e ∧ Along hw P u es := by
      intro P
      refine ⟨fun h => ⟨h.1, h.2 u hu⟩, fun h => ⟨h.1, fun v hv => ?_⟩⟩
      obtain rfl := Except.ok.inj (hu.symm.trans hv)
      exact h.2
    rw [hrest, hrest, ih hr, step_exceeds hu]

instance (snd : Send) : Decidable (Calm snd) := inferInstanceAs (Decidable (_ ∧ _))

instance (hw : HwFeatures) (snd : Send) : Decidable (SendsNothing hw snd) :=
  inferInstanceAs (Decidable (_ ∨ _))

instance (hw : HwFeatures) (snd : Send) : Decidable (StaysWithin hw snd) :=
  inferInstanceAs (Decidable (_ ∨ _))

instance (tcb : Tcb) : (e : Event) → Decidable (Transmits tcb e)
  | ⟨_, .getPacket⟩ => inferInstanceAs (Decidable (tcb.state ≠ .closed ∧
      tcb.pollActive = true ∧ tcb.packetq = []))
  | ⟨_, .closeContinue⟩ => inferInstanceAs (Decidable (tcb.state ≠ .closed ∧ 0 < tcb.closeTasks))
  | ⟨_, .segment _ _⟩ | ⟨_, .send _⟩ | ⟨_, .read⟩ | ⟨_, .waitForData⟩ | ⟨_, .abortReader⟩
  | ⟨_, .close⟩ | ⟨_, .shutdownConnect⟩ | ⟨_, .retransmitExpires⟩ | ⟨_, .persistExpires⟩
  | ⟨_, .delayedAckExpires⟩ | ⟨_, .arpQueueFull⟩ | ⟨_, .arpTimeout⟩ => .isFalse fun h => h.2.elim

instance (hw : HwFeatures) (tcb : Tcb) (e : Event) : Decidable (KeepsToCwnd hw tcb e) :=
  inferInstanceAs (Decidable (Calm tcb.snd → Transmits tcb e → _ ∨ _))

/-- The peer announces a segment size of one byte, which makes the congestion window four, and
a window of `window` bytes. The user sends five bytes, and the device polls six times. -/
def fiveBytes (window : UInt8) : List Event :=
  [⟨0, .getPacket⟩,
    ⟨1, .arrives [0, 80, 160, 0, 0, 0, 0, 7, 0, 0, 0, 101, 0x60, 0x12, 0, window, 0, 0, 0, 0,
      2, 4, 0, 1]⟩,
    ⟨2, .getPacket⟩,
    ⟨3, .send (Packet.ofFrags [[97, 98, 99, 100, 101]])⟩,
    ⟨4, .getPacket⟩, ⟨5, .getPacket⟩, ⟨6, .getPacket⟩, ⟨7, .getPacket⟩, ⟨8, .getPacket⟩]

/-- A window of four bytes keeps the flight within the congestion window. -/
theorem fiveBytes_within : ∃ t, run {} (connect {} 0 ⟨100⟩ {}) (fiveBytes 4) = .ok t ∧
    Along {} (fun s e => Calm s.snd → ¬ ExceedsCwnd {} s e) (connect {} 0 ⟨100⟩ {}) (fiveBytes 4) :=
  ⟨_, rfl, (run_flight {} (fiveBytes 4) rfl).mpr (by decide +kernel)⟩

/-- With a window of ten bytes the fifth byte is sent too, over a congestion window of four. -/
theorem fiveBytes_exceeds : ∃ s e t, run {} (connect {} 0 ⟨100⟩ {}) ((fiveBytes 10).take 8) = .ok s ∧
    (fiveBytes 10)[8]? = some e ∧ step {} s e = .ok t ∧ Calm s.snd ∧ Transmits s e ∧
    t.snd.next = ⟨106⟩ ∧ t.snd.cwnd = 4 ∧ inFlight t.snd = 5 ∧ ExceedsCwnd {} s e := by
  refine ⟨_, _, _, rfl, rfl, rfl, ?_, ?_, rfl, rfl, rfl, _, ?_, rfl, ?_, ?_⟩
  · decide +kernel
  · decide +kernel
  · decide +kernel
  · decide +kernel
  · decide +kernel

end Seastar.Net.Tcp.Tcb
