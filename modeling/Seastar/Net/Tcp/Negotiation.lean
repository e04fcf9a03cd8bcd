import Seastar.Net.Tcp.Received
import Seastar.Net.Tcp.Turns

/-!
The parameters of a connection are negotiated in its handshake: `init_from_options`
takes the sizes, the scales and the first windows from the SYN of the peer. The
LISTEN handler calls it, and the SYN_SENT handler when the SYN acknowledges ours.
When the two SYNs cross it is not called at all, and the connection keeps what its
memory held.
-/

namespace Seastar.Net.Tcp.Tcb

open Lib

/-- What the handshake fixes for the life of the connection. -/
structure Parameters where
  mss : UInt16
  windowScale : UInt8
  rcvMss : UInt16
  rcvWindowScale : UInt8
  option : TcpOption
  deriving DecidableEq

def parameters (tcb : Tcb) : Parameters where
  mss := tcb.snd.mss
  windowScale := tcb.snd.windowScale
  rcvMss := tcb.rcv.mss
  rcvWindowScale := tcb.rcv.windowScale
  option := tcb.option

/-- The options of a SYN, over the options `o` of the receiver. -/
def optionsOf (th : TcpHdr) (p : Packet) (o : TcpOption) : Except Fault TcpOption := do
  let (h, _) ← splitOptions th p
  let optStart ← optionArea h
  o.parse optStart (th.dataOffset * 4 - tcpHdrLen)

/-- The first congestion window, by the segment size of the peer. -/
def initialCwnd (mss : UInt16) : UInt32 :=
  if 2190 < mss.toUInt32 then 2 * mss.toUInt32
  else if 1095 < mss.toUInt32 then 3 * mss.toUInt32 else 4 * mss.toUInt32

/-- The connection has its parameters, windows and marks from the SYN `th` with the options
`o`. -/
structure SetFrom (hw : HwFeatures) (th : TcpHdr) (o : TcpOption) (tcb : Tcb) : Prop where
  option : tcb.option = { o with localMss := localMss hw }
  mss : tcb.snd.mss = o.remoteMss
  windowScale : tcb.snd.windowScale = o.remoteWinScale
  window : tcb.snd.window = th.window.toUInt32 <<< o.remoteWinScale.toUInt32
  wl1 : tcb.snd.wl1 = th.seq
  wl2 : tcb.snd.wl2 = th.ack
  cwnd : tcb.snd.cwnd = initialCwnd o.remoteMss
  ssthresh : tcb.snd.ssthresh = th.window.toUInt32 <<< o.remoteWinScale.toUInt32
  rcvMss : tcb.rcv.mss = localMss hw
  rcvWindowScale : tcb.rcv.windowScale = o.localWinScale
  rcvWindow : tcb.rcv.window = 29200 <<< o.localWinScale.toUInt32

/-- The options `connect` offers. -/
def offered (hw : HwFeatures) : TcpOption := { localWinScale := 7, localMss := localMss hw }

/-- After the events `pre` of the connection `tcb`, the last of them just now, the connection
`v` has everything from the SYN of the peer. -/
inductive SetAt (hw : HwFeatures) (tcb : Tcb) : List Event → Tcb → Prop
  /-- a SYN to a listening port -/
  | listen {mem : Tcb} {id : Connid} {now : Int} {isn : TcpSeq} {th : TcpHdr} {p : Packet}
      {o : TcpOption} : th.fSyn = true →
      (Stack.newTcb mem id).inputHandleListenState hw now isn th p = .ok tcb →
      optionsOf th p (Stack.newTcb mem id).option = .ok o → SetFrom hw th o tcb →
      SetAt hw tcb [] tcb
  /-- the answer to our SYN -/
  | synSent {pre : List Event} {u v : Tcb} {now : Int} {th : TcpHdr} {p : Packet} {o : TcpOption} :
      run hw tcb pre = .ok u → u.state = .synSent → th.fSyn = true →
      step hw u ⟨now, .segment th p⟩ = .ok v → v.state = .established →
      optionsOf th p (offered hw) = .ok o → SetFrom hw th o v →
      SetAt hw tcb (pre ++ [⟨now, .segment th p⟩]) v

/-- The connection `t`, which `tcb` is after the events, has been set from the SYN of the peer
at some point of the run, and its parameters are those of then. -/
def NegotiatedBy (hw : HwFeatures) (tcb : Tcb) (es : List Event) (t : Tcb) : Prop :=
  ∃ pre post v, es = pre ++ post ∧ SetAt hw tcb pre v ∧ run hw v post = .ok t ∧
    t.parameters = v.parameters

/-- The SYN of the peer crosses ours: it arrives in SYN_SENT and acknowledges nothing. -/
def Crosses (tcb : Tcb) (e : Event) : Prop :=
  match e.act with
  | .segment th _ => tcb.state = .synSent ∧ th.fSyn = true ∧ th.fRst = false ∧ th.fAck = false
  | _ => False

instance (tcb : Tcb) : (e : Event) → Decidable (Crosses tcb e)
  | ⟨_, .segment th _⟩ =>
    inferInstanceAs (Decidable
      (tcb.state = .synSent ∧ th.fSyn = true ∧ th.fRst = false ∧ th.fAck = false))
  | ⟨_, .send _⟩ | ⟨_, .read⟩ | ⟨_, .waitForData⟩ | ⟨_, .abortReader⟩ | ⟨_, .close⟩
  | ⟨_, .closeContinue⟩ | ⟨_, .shutdownConnect⟩ | ⟨_, .getPacket⟩ | ⟨_, .retransmitExpires⟩
  | ⟨_, .persistExpires⟩ | ⟨_, .delayedAckExpires⟩ | ⟨_, .arpQueueFull⟩ | ⟨_, .arpTimeout⟩ =>
    .isFalse id

variable {hw : HwFeatures} {s a b t : Tcb} {e : Event}

theorem Crosses.synSent (h : Crosses s e) : s.state = .synSent := by
  unfold Crosses at h
  split at h
  · exact h.1
  · exact h.elim

theorem Crosses.segment (h : Crosses s e) : ∃ th p, e.act = .segment th p := by
  unfold Crosses at h
  split at h
  · rename_i th p he
    exact ⟨th, p, he⟩
  · exact h.elim

/-! ## Outside SYN_SENT the parameters stay -/

/-- The parameters are kept, SYN_SENT is not entered, CLOSED is not left, and SYN_SENT is left
for nothing else. -/
structure Settled (a b : Tcb) : Prop where
  parameters : b.parameters = a.parameters
  synSent : b.state = .synSent → a.state = .synSent
  closed : a.state = .closed → b.state = .closed
  opening : a.state = .synSent → b.state = .closed ∨ (b.state = .synSent ∧
    b.snd.unacknowledged = a.snd.unacknowledged ∧ b.snd.initial = a.snd.initial)

theorem Settled.of_state (hp : b.parameters = a.parameters) (hs : b.state = a.state)
    (hu : a.state = .synSent → b.snd.unacknowledged = a.snd.unacknowledged ∧
      b.snd.initial = a.snd.initial) : Settled a b :=
  ⟨hp, fun h => hs.symm.trans h, fun h => hs.trans h, fun h => Or.inr ⟨hs.trans h, hu h⟩⟩

theorem Settled.refl (a : Tcb) : Settled a a := .of_state rfl rfl fun _ => ⟨rfl, rfl⟩

theorem Settled.trans {c : Tcb} (h : Settled a b) (h' : Settled b c) : Settled a c where
  parameters := h'.parameters.trans h.parameters
  synSent hc := h.synSent (h'.synSent hc)
  closed ha := h'.closed (h.closed ha)
  opening ha := by
    rcases h.opening ha with hb | ⟨hb, hua, hi⟩
    · exact Or.inl (h'.closed hb)
    · rcases h'.opening hb with hc | ⟨hc, hua', hi'⟩
      · exact Or.inl hc
      · exact Or.inr ⟨hc, hua'.trans hua, hi'.trans hi⟩

theorem Settled.steady (h : Steady a b) : Settled a b := by
  apply Settled.of_state _ h.state fun _ => ⟨h.unacknowledged, congrArg Core.initial h⟩
  have hmss : b.snd.mss = a.snd.mss := congrArg Core.mss h
  have hscale : b.snd.windowScale = a.snd.windowScale := congrArg Core.windowScale h
  have hrmss : b.rcv.mss = a.rcv.mss := congrArg Core.rcvMss h
  have hrscale : b.rcv.windowScale = a.rcv.windowScale := congrArg Core.rcvWindowScale h
  have hoption : b.option = a.option := congrArg Core.option h
  simp only [Tcb.parameters, hmss, hscale, hrmss, hrscale, hoption]

/-- A change between two states that are neither SYN_SENT nor CLOSED. -/
theorem Settled.moved (hp : b.parameters = a.parameters) (ha : a.state ≠ .synSent)
    (ha' : a.state ≠ .closed) (hb : b.state ≠ .synSent) : Settled a b :=
  ⟨hp, fun h => absurd h hb, fun h => absurd h ha', fun h => absurd h ha⟩

/-- A change outside SYN_SENT that keeps the state. -/
theorem Settled.stays (hp : b.parameters = a.parameters) (hs : b.state = a.state)
    (ha : a.state ≠ .synSent) : Settled a b := .of_state hp hs fun h => absurd h ha

theorem Sending.ne_synSent (h : Sending a) : a.state ≠ .synSent := by
  rcases h with h | h
  · rw [h]
    nofun
  · rw [h]
    nofun

theorem takeWindow_parameters (now : Int) (th : TcpHdr) (segSeq : TcpSeq) (tcb : Tcb) :
    (takeWindow now th segSeq tcb).parameters = tcb.parameters ∧
      (takeWindow now th segSeq tcb).state = tcb.state := by
  unfold takeWindow
  split
  · obtain ⟨pt, po, hu⟩ := updateWindow_eq now th segSeq tcb
    rw [hu]
    exact ⟨rfl, rfl⟩
  · exact ⟨rfl, rfl⟩

/-- One turn of an event, unless it is a segment in SYN_SENT. -/
theorem Turn.settled (hs : s.state ≠ .synSent ∨ ∀ th p, e.act ≠ .segment th p)
    (h : Turn hw s e a b) : Settled a b := by
  cases h with
  | steady h => exact .steady h
  | @acked _ u th n _ hsend _ h =>
    obtain ⟨⟨_, rto, ef, hu⟩, -⟩ := dataSegmentAcked_spec h
    obtain ⟨_, _, _, _, _, _, _, _, hsnd⟩ := (dataSegmentAcked_spec h).1.1.eq
    have hk : u.parameters = a.parameters ∧ u.state = a.state := by
      rw [hu]
      simp only [Tcb.parameters, hsnd, and_self]
    obtain ⟨hp, hst⟩ := takeWindow_parameters e.now th s.rcv.next u
    exact .stays (hp.trans hk.1) (hst.trans hk.2) hsend.ne_synSent
  | @opened _ th _ hsend _ _ =>
    obtain ⟨pt, po, hu⟩ := updateWindow_eq e.now th s.rcv.next a
    rw [hu]
    exact .stays rfl rfl hsend.ne_synSent
  | counted _ => exact .of_state rfl rfl fun _ => ⟨rfl, rfl⟩
  | fresh _ hst h =>
    obtain ⟨p, clone, unsent, lt, da, rt, seg, ho, -⟩ := outputOne_fresh hw e.now hst
    obtain rfl := Except.ok.inj (ho.symm.trans h)
    exact .of_state rfl rfl fun _ => ⟨rfl, rfl⟩
  | queued _ _ _ => exact .of_state rfl rfl fun _ => ⟨rfl, rfl⟩
  | persisting _ _ => exact .of_state rfl rfl fun _ => ⟨rfl, rfl⟩
  | probing _ _ _ => exact .of_state rfl rfl fun _ => ⟨rfl, rfl⟩
  | established _ hst =>
    exact .moved rfl (by rw [hst]; nofun) (by rw [hst]; nofun) nofun
  | finReceived st hst =>
    rcases hst with ⟨hst, rfl⟩ | ⟨hst, rfl⟩
    · exact .moved rfl (by rw [hst]; nofun) (by rw [hst]; nofun) nofun
    · exact .moved rfl (by rw [hst]; nofun) (by rw [hst]; nofun) nofun
  | finAcked st _ _ hst =>
    rcases hst with ⟨hst, rfl⟩ | ⟨hst | hst, rfl⟩
    · exact .moved rfl (by rw [hst]; nofun) (by rw [hst]; nofun) nofun
    · exact .stays rfl rfl (by rw [hst]; nofun)
    · exact .stays rfl rfl (by rw [hst]; nofun)
  | closing st _ hst =>
    rcases hst with ⟨hst, rfl⟩ | ⟨hst, rfl⟩ | ⟨-, -, rfl⟩
    · exact .moved rfl (by rw [hst]; nofun) (by rw [hst]; nofun) nofun
    · exact .moved rfl (by rw [hst]; nofun) (by rw [hst]; nofun) nofun
    · exact .of_state rfl rfl fun _ => ⟨rfl, rfl⟩
  | cleaned st _ hst =>
    rcases hst with rfl | rfl | ⟨rfl, hst⟩
    · exact .of_state rfl rfl fun _ => ⟨rfl, rfl⟩
    · exact ⟨rfl, nofun, fun _ => rfl, fun _ => Or.inl rfl⟩
    · rcases hst with hst | hst
      · exact .moved rfl (by rw [hst]; nofun) (by rw [hst]; nofun) nofun
      · exact .moved rfl (by rw [hst]; nofun) (by rw [hst]; nofun) nofun
  | crossed hst he =>
    obtain ⟨p, he⟩ := he
    rcases hs with hs | hs
    · exact absurd hst hs
    · exact absurd he (hs _ p)
  | negotiated hst hn =>
    obtain ⟨-, -, -, p, -, -, -, he, -⟩ := hn
    rcases hs with hs | hs
    · exact absurd hst hs
    · exact absurd he (hs _ p)

theorem step_settled (hs : s.state ≠ .synSent ∨ ∀ th p, e.act ≠ .segment th p)
    (h : step hw s e = .ok t) : Settled s t := by
  have hturns := step_turns h
  clear h
  induction hturns with
  | refl => exact .refl s
  | tail _ hturn ih => exact ih.trans (hturn.settled hs)

/-- A run that starts outside SYN_SENT. -/
theorem run_settled {es : List Event} (hs : s.state ≠ .synSent) (h : run hw s es = .ok t) :
    Settled s t ∧ Along hw (fun s e => ¬ Crosses s e) s es := by
  induction es generalizing s with
  | nil =>
    obtain rfl := Except.ok.inj h
    exact ⟨.refl s, trivial⟩
  | cons e es ih =>
    obtain ⟨u, hu, h⟩ := Run.run_cons_ok.mp h
    have hsettled := step_settled (Or.inl hs) hu
    obtain ⟨hrest, halong⟩ := ih (fun hst => hs (hsettled.synSent hst)) h
    refine ⟨hsettled.trans hrest, fun hc => hs hc.synSent, fun v hv => ?_⟩
    obtain rfl := Except.ok.inj (hu.symm.trans hv)
    exact halong

/-! ## The SYN of the peer -/

theorem initFromOptions_setFrom {th : TcpHdr} {p q : Packet} {hdr : Option Packet.Header}
    {optStart : Bytes} (hsplit : splitOptions th p = .ok (hdr, q))
    (harea : optionArea hdr = .ok optStart)
    (h : initFromOptions hw th optStart (th.dataOffset * 4 - tcpHdrLen) a = .ok b) :
    ∃ o, optionsOf th p a.option = .ok o ∧ SetFrom hw th o b := by
  obtain ⟨o, ho, h⟩ := bind_ok.mp h
  obtain rfl := Except.ok.inj h
  refine ⟨o, bind_ok.mpr ⟨_, hsplit, bind_ok.mpr ⟨_, harea, ho⟩⟩, ?_⟩
  exact ⟨rfl, rfl, rfl, rfl, rfl, rfl, rfl, rfl, rfl, rfl, rfl⟩

theorem SetFrom.of_eq {th : TcpHdr} {o : TcpOption} (h : SetFrom hw th o a)
    (hp : b.parameters = a.parameters) (hwin : b.snd.window = a.snd.window)
    (hmarks : b.snd.wl1 = a.snd.wl1 ∧ b.snd.wl2 = a.snd.wl2)
    (hcwnd : b.snd.cwnd = a.snd.cwnd ∧ b.snd.ssthresh = a.snd.ssthresh)
    (hrwin : b.rcv.window = a.rcv.window) : SetFrom hw th o b where
  option := (congrArg Parameters.option hp).trans h.option
  mss := (congrArg Parameters.mss hp).trans h.mss
  windowScale := (congrArg Parameters.windowScale hp).trans h.windowScale
  window := hwin.trans h.window
  wl1 := hmarks.1.trans h.wl1
  wl2 := hmarks.2.trans h.wl2
  cwnd := hcwnd.1.trans h.cwnd
  ssthresh := hcwnd.2.trans h.ssthresh
  rcvMss := (congrArg Parameters.rcvMss hp).trans h.rcvMss
  rcvWindowScale := (congrArg Parameters.rcvWindowScale hp).trans h.rcvWindowScale
  rcvWindow := hrwin.trans h.rcvWindow

theorem SetFrom.output {th : TcpHdr} {o : TcpOption} (h : SetFrom hw th o a) :
    SetFrom hw th o (output a) := by
  obtain ⟨pa, ef, ho⟩ := output_eq a
  rw [ho]
  exact h.of_eq rfl rfl ⟨rfl, rfl⟩ ⟨rfl, rfl⟩ rfl

theorem SetFrom.doEstablished {th : TcpHdr} {o : TcpOption} (now : Int) (h : SetFrom hw th o a) :
    SetFrom hw th o (doEstablished now a) := by
  obtain ⟨fs, rv, sr, rto, ho⟩ := updateRto_eq now a.snd.synTxTime { a with state := .established }
  unfold Tcb.doEstablished
  rw [ho]
  exact h.of_eq rfl rfl ⟨rfl, rfl⟩ ⟨rfl, rfl⟩ rfl

/-- A connection of a listening port has everything when it is made. -/
theorem inputHandleListenState_setFrom {now : Int} {isn : TcpSeq} {th : TcpHdr} {p : Packet}
    (h : inputHandleListenState hw now isn th p a = .ok t) :
    t.state = .synReceived ∧ ∃ o, optionsOf th p a.option = .ok o ∧ SetFrom hw th o t := by
  obtain ⟨⟨hdr, q⟩, hsplit, h⟩ := bind_ok.mp h
  obtain ⟨area, harea, h⟩ := bind_ok.mp h
  obtain ⟨b, hb, h⟩ := bind_ok.mp h
  obtain rfl := Except.ok.inj h
  obtain ⟨o, ho, hset⟩ := initFromOptions_setFrom hsplit harea hb
  refine ⟨(output_steady _).state, o, ho, SetFrom.output ?_⟩
  exact hset.of_eq rfl rfl ⟨rfl, rfl⟩ ⟨rfl, rfl⟩ rfl

/-- The connection waits for the answer to its SYN. -/
structure Awaiting (hw : HwFeatures) (tcb : Tcb) : Prop where
  state : tcb.state = .synSent
  unacknowledged : tcb.snd.unacknowledged = tcb.snd.initial
  option : tcb.option = offered hw

/-- What one event does while the connection waits. -/
inductive Answered (hw : HwFeatures) (s : Tcb) (e : Event) (t : Tcb) : Prop
  | waiting : ¬ Crosses s e → Awaiting hw t → Answered hw s e t
  | ended : ¬ Crosses s e → t.state = .closed → Answered hw s e t
  | crossed : Crosses s e → t.state = .synReceived → Answered hw s e t
  | taken {now : Int} {th : TcpHdr} {p : Packet} {o : TcpOption} : ¬ Crosses s e →
      e = ⟨now, .segment th p⟩ → th.fSyn = true → t.state = .established →
      optionsOf th p (offered hw) = .ok o → SetFrom hw th o t → Answered hw s e t

theorem Awaiting.settled (ha : Awaiting hw s) (hc : ¬ Crosses s e) (h : Settled s t) :
    Answered hw s e t := by
  rcases h.opening ha.state with ht | ⟨ht, hua, hi⟩
  · exact .ended hc ht
  · exact .waiting hc
      ⟨ht, hua.trans (ha.unacknowledged.trans hi.symm),
        (congrArg Parameters.option h.parameters).trans ha.option⟩

/-- A SYN that crosses ours leaves the connection in SYN_RECEIVED. -/
theorem Awaiting.crosses {now : Int} {th : TcpHdr} {p : Packet} (ha : Awaiting hw s)
    (hc : Crosses s ⟨now, .segment th p⟩)
    (h : inputHandleSynSentState hw now th p s = .ok t) : t.state = .synReceived := by
  obtain ⟨-, hsyn, hrst, hack⟩ := hc
  obtain ⟨⟨hdr, q⟩, -, h⟩ := bind_ok.mp h
  simp only [hack, hrst, hsyn, Bool.false_and, Bool.false_eq_true, if_false, if_true] at h
  have hua : (acceptSyn th s).snd.unacknowledged.gt (acceptSyn th s).snd.initial = false := by
    rw [acceptSyn_initial, acceptSyn, hack]
    simp only [Bool.false_eq_true, if_false]
    rw [ha.unacknowledged]
    exact TcpSeq.lt_irrefl _
  unfold synBit at h
  rw [if_neg (by rw [hua]; exact Bool.false_ne_true)] at h
  obtain rfl := Except.ok.inj h
  exact (output_steady _).state

theorem step_answered (ha : Awaiting hw s) (h : step hw s e = .ok t) : Answered hw s e t := by
  by_cases hseg : ∃ th p, e.act = .segment th p
  · obtain ⟨th, p, he⟩ := hseg
    obtain ⟨now, act⟩ := e
    obtain rfl : act = .segment th p := he
    have h : inputHandle hw now th p s = .ok t := h
    rw [inputHandle, if_pos ha.state] at h
    by_cases hc : Crosses s ⟨now, .segment th p⟩
    · exact .crossed hc (ha.crosses hc h)
    cases inputHandleSynSentState_outcome (e := ⟨now, .segment th p⟩) rfl ha.state h with
    | ignored hk => exact ha.settled hc (.steady hk)
    | reset _ hk =>
      obtain ⟨pd, ps, pa, ef, hr⟩ := doReset_eq s
      refine .ended hc ?_
      rw [hk, hr]
    | @crossed th' he' hsyn hrst hack _ _ =>
      obtain ⟨p', he'⟩ := he'
      obtain ⟨rfl, rfl⟩ := Action.segment.inj he'
      exact absurd ⟨ha.state, hsyn, hrst, hack⟩ hc
    | @negotiated b th' hn hk =>
      obtain ⟨hsyn, -, -, p', hdr, q, area, he', hsplit, harea, hb⟩ := hn
      obtain ⟨rfl, rfl⟩ := Action.segment.inj he'
      obtain ⟨o, ho, hset⟩ := initFromOptions_setFrom hsplit harea hb
      have hoption : (acceptSyn th s).option = offered hw := ha.option
      rw [hoption] at ho
      rw [hk]
      exact .taken hc rfl hsyn (negotiated_steady now b).state ho (hset.doEstablished now).output
  · apply ha.settled
    · exact fun hc => hseg hc.segment
    · exact step_settled (Or.inr fun th p he => hseg ⟨th, p, he⟩) h

/-! ## Runs -/

theorem Awaiting.of_connect (mem : Tcb) (id : Connid) (now : Int) (isn : TcpSeq) :
    Awaiting hw ((Stack.newTcb mem id).connect hw now isn) := by
  have hk : Steady { doSetupIsn isn (Stack.newTcb mem id) with
      option := offered hw
      rcv := { (Stack.newTcb mem id).rcv with windowScale := 7, mss := localMss hw }
      state := .synSent } ((Stack.newTcb mem id).connect hw now isn) := by
    refine Steady.trans ?_ (output_steady _)
    rfl
  exact ⟨hk.state, hk.unacknowledged.trans (congrArg Core.initial hk).symm,
    congrArg Core.option hk⟩

/-- A run that is still in SYN_SENT saw no SYN that crosses ours. -/
theorem Awaiting.still {es : List Event} (ha : Awaiting hw s) (h : run hw s es = .ok t)
    (ht : t.state = .synSent) :
    Awaiting hw t ∧ Along hw (fun s e => ¬ Crosses s e) s es := by
  induction es generalizing s with
  | nil =>
    obtain rfl := Except.ok.inj h
    exact ⟨ha, trivial⟩
  | cons e es ih =>
    obtain ⟨u, hu, h⟩ := Run.run_cons_ok.mp h
    have hgone : u.state ≠ .synSent → False := fun hs => hs ((run_settled hs h).1.synSent ht)
    cases step_answered ha hu with
    | waiting hc hau =>
      obtain ⟨hat, halong⟩ := ih hau h
      refine ⟨hat, hc, fun v hv => ?_⟩
      obtain rfl := Except.ok.inj (hu.symm.trans hv)
      exact halong
    | ended _ hst => exact (hgone (by rw [hst]; nofun)).elim
    | crossed _ hst => exact (hgone (by rw [hst]; nofun)).elim
    | taken _ _ _ hst _ _ => exact (hgone (by rw [hst]; nofun)).elim

theorem Opened.awaiting {tcb : Tcb} (h : Opened hw tcb) : tcb.state = .synReceived ∨ Awaiting hw tcb := by
  cases h with
  | active mem id now isn => exact Or.inr (.of_connect mem id now isn)
  | passive _ _ _ h => exact Or.inl (inputHandleListenState_setFrom h).1

/-- Where the SYN of the peer has set the connection, it has not crossed ours. -/
theorem NegotiatedBy.along {tcb : Tcb} {es : List Event} (ho : Opened hw tcb)
    (h : NegotiatedBy hw tcb es t) : Along hw (fun s e => ¬ Crosses s e) tcb es := by
  obtain ⟨pre, post, v, rfl, hset, hpost, -⟩ := h
  cases hset with
  | listen _ hl _ _ =>
    have hst := (inputHandleListenState_setFrom hl).1
    exact (run_settled (by rw [hst]; nofun) hpost).2
  | @synSent pre u _ now th p o hpre hu _ hstep hv _ _ =>
    have hwait : Awaiting hw tcb := by
      refine ho.awaiting.resolve_left fun hst => ?_
      have hu' := (run_settled (by rw [hst]; nofun) hpre).1.synSent hu
      rw [hst] at hu'
      cases hu'
    obtain ⟨hau, halong⟩ := hwait.still hpre hu
    have hrest : Along hw (fun s e => ¬ Crosses s e) v post :=
      (run_settled (by rw [hv]; nofun) hpost).2
    have hnot : ¬ Crosses u ⟨now, .segment th p⟩ := by
      intro hc
      cases step_answered hau hstep with
      | crossed _ hst =>
        rw [hst] at hv
        cases hv
      | waiting hn _ => exact hn hc
      | ended hn _ => exact hn hc
      | taken hn _ _ _ _ _ => exact hn hc
    rw [List.append_assoc]
    refine halong.append fun u' hu' => ?_
    obtain rfl := Except.ok.inj (hpre.symm.trans hu')
    refine ⟨hnot, fun v' hv' => ?_⟩
    obtain rfl := Except.ok.inj (hstep.symm.trans hv')
    exact hrest

/-- A connection that waits for the answer and becomes ESTABLISHED without a crossing got its
answer. -/
theorem Awaiting.established {es : List Event} (ha : Awaiting hw s) (h : run hw s es = .ok t)
    (ht : t.state = .established) (hc : Along hw (fun s e => ¬ Crosses s e) s es) :
    NegotiatedBy hw s es t := by
  induction es generalizing s with
  | nil =>
    obtain rfl := Except.ok.inj h
    rw [ha.state] at ht
    cases ht
  | cons e es ih =>
    obtain ⟨u, hu, hrest⟩ := Run.run_cons_ok.mp h
    cases step_answered ha hu with
    | waiting _ hau =>
      obtain ⟨pre, post, v, rfl, hset, hpost, hp⟩ := ih hau hrest (hc.2 u hu)
      cases hset with
      | listen _ hl _ _ =>
        have hst := (inputHandleListenState_setFrom hl).1
        rw [hau.state] at hst
        cases hst
      | @synSent pre u' _ now th p o hpre hu' hsyn hstep hv ho hset =>
        have hpre' : run hw s (e :: pre) = .ok u' := Run.run_cons_ok.mpr ⟨u, hu, hpre⟩
        exact ⟨e :: pre ++ [⟨now, .segment th p⟩], post, v, rfl,
          .synSent hpre' hu' hsyn hstep hv ho hset, hpost, hp⟩
    | ended _ hst =>
      have hclosed := (run_settled (by rw [hst]; nofun) hrest).1.closed hst
      rw [hclosed] at ht
      cases ht
    | crossed hcross _ => exact absurd hcross hc.1
    | @taken now th p o _ he hsyn hst ho hset =>
      obtain rfl := he
      have hsettled : Settled u t := (run_settled (by rw [hst]; nofun) hrest).1
      have hpre : run hw s [] = .ok s := rfl
      exact ⟨[] ++ [⟨now, .segment th p⟩], es, u, rfl,
        .synSent hpre ha.state hsyn hu hst ho hset, hrest, hsettled.parameters⟩

/-- A connection has its parameters from the SYN of the peer whenever it is in ESTABLISHED, in
exactly the runs in which no SYN crosses its own. -/
theorem run_negotiated (hw : HwFeatures) {tcb t : Tcb} (es : List Event) (ho : Opened hw tcb)
    (hr : run hw tcb es = .ok t) (ht : t.state = .established) :
    NegotiatedBy hw tcb es t ↔ Along hw (fun s e => ¬ Crosses s e) tcb es := by
  refine ⟨fun h => h.along ho, fun hc => ?_⟩
  cases ho with
  | active mem id now isn => exact (Awaiting.of_connect mem id now isn).established hr ht hc
  | @passive mem tcb id now isn th p _ _ hsyn hl =>
    obtain ⟨hst, o, hopt, hset⟩ := inputHandleListenState_setFrom hl
    exact ⟨[], es, tcb, rfl, .listen hsyn hl hopt hset, hr,
      (run_settled (by rw [hst]; nofun) hr).1.parameters⟩

/-- The memory a connection is made in, as an earlier one left it. -/
def usedMemory : Tcb where
  snd := { mss := 9, windowScale := 3, window := 77, wl1 := ⟨500⟩, wl2 := ⟨600⟩, cwnd := 5
           ssthresh := 40 }

/-- The peer answers with its SYN and the ACK of ours; or its SYN, with a segment size of
1460 and a scale of 2, crosses ours and is acknowledged. -/
def opens (crossed : Bool) : List Event :=
  if crossed then
    [⟨0, .getPacket⟩,
      ⟨1, .arrives [0, 80, 160, 0, 0, 0, 0, 7, 0, 0, 0, 0, 0x70, 0x02, 0, 10, 0, 0, 0, 0,
        2, 4, 5, 180, 3, 3, 2, 0]⟩,
      ⟨2, .getPacket⟩,
      ⟨3, .arrives [0, 80, 160, 0, 0, 0, 0, 8, 0, 0, 0, 101, 0x50, 0x10, 0, 10, 0, 0, 0, 0]⟩]
  else
    [⟨0, .getPacket⟩,
      ⟨1, .arrives [0, 80, 160, 0, 0, 0, 0, 7, 0, 0, 0, 101, 0x70, 0x12, 0, 10, 0, 0, 0, 0,
        2, 4, 5, 180, 3, 3, 2, 0]⟩]

/-- Answered, the connection is set from the SYN of the peer. -/
theorem opens_negotiated :
    ∃ t, run {} ((Stack.newTcb usedMemory ⟨0, 0, 0, 0⟩).connect {} 0 ⟨100⟩) (opens false) = .ok t ∧
      NegotiatedBy {} ((Stack.newTcb usedMemory ⟨0, 0, 0, 0⟩).connect {} 0 ⟨100⟩) (opens false) t := by
  refine ⟨_, rfl, (run_negotiated {} (opens false) (.active usedMemory ⟨0, 0, 0, 0⟩ 0 ⟨100⟩)
    rfl ?_).mpr ?_⟩
  · decide +kernel
  · decide +kernel

/-- Crossed, it becomes ESTABLISHED with what its memory held. -/
theorem opens_crossed :
    ∃ t, run {} ((Stack.newTcb usedMemory ⟨0, 0, 0, 0⟩).connect {} 0 ⟨100⟩) (opens true) = .ok t ∧
      t.state = .established ∧ t.snd.mss = 9 ∧ t.snd.windowScale = 3 ∧ t.snd.window = 77 ∧
      t.snd.wl1 = ⟨500⟩ ∧ t.snd.wl2 = ⟨600⟩ ∧ t.snd.ssthresh = 40 ∧
      ¬ NegotiatedBy {} ((Stack.newTcb usedMemory ⟨0, 0, 0, 0⟩).connect {} 0 ⟨100⟩) (opens true)
        t := by
  refine ⟨_, rfl, ?_, ?_, ?_, ?_, ?_, ?_, ?_, fun h => ?_⟩
  · decide +kernel
  · decide +kernel
  · decide +kernel
  · decide +kernel
  · decide +kernel
  · decide +kernel
  · decide +kernel
  · have halong := h.along (.active usedMemory ⟨0, 0, 0, 0⟩ 0 ⟨100⟩)
    revert halong
    decide +kernel

end Seastar.Net.Tcp.Tcb
