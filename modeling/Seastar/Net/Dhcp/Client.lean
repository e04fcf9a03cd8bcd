import Seastar.Net.Dhcp.Options
import Seastar.Net.Ipv4.Received

/-!
The DHCP client of `net/dhcp.cc`. Packets on any processor, the retry timer and the timeout move one
state and share one promise. The client does not compare the transaction id of a reply, and it
leaves the timeout armed when the lease is acknowledged.
-/

namespace Seastar.Net.Dhcp

open Lib

/-- `dhcp::impl::state`. -/
inductive State
  | none
  | discover
  | request
  | done
  | fail
  deriving DecidableEq, Repr

namespace MsgType

def offer : UInt8 := 2
def ack : UInt8 := 5
def nak : UInt8 := 6

end MsgType

/-- A message of the client, with the transaction id in it. -/
inductive Sent
  | discover (xid requestedIp : UInt32)
  | request (xid dhcpServer requestedIp : UInt32)
  deriving DecidableEq, Repr

def Sent.xid : Sent → UInt32
  | discover xid _ => xid
  | request xid _ _ => xid

/-- What `process_packet` gets: the packet, the pointer to the `dhcp_payload` in it, and the offset
of the options. -/
structure Reply where
  p : Packet
  dhp : Packet.Header
  optOff : Nat

/-- `dhcp::impl`, with the messages it sent, the values its promise was set to, and the packets that
other processors submitted to processor 0. The timers are the ones that are armed; `leaseIp` is the
address that the callback of the retry timer holds. -/
structure Client where
  state : State := .none
  xid : UInt32 := 0
  retryTimer : Bool := false
  timer : Bool := false
  leaseIp : UInt32 := 0
  sent : List Sent := []
  result : List (Bool × Lease) := []
  submitted : List Reply := []

namespace Client

/-- `send_discover`; `xid` is what the random device gave. -/
def sendDiscover (ip xid : UInt32) (c : Client) : Client :=
  { c with xid := xid, state := .discover, sent := c.sent ++ [.discover xid ip] }

/-- `send_request`. -/
def sendRequest (info : Lease) (c : Client) : Client :=
  { c with state := .request, sent := c.sent ++ [.request c.xid info.dhcpServer info.ip] }

/-- `run` of a new client; no timeout is zero. -/
def run (l : Lease) (timeout : Nat) (xid : UInt32) : Client :=
  { sendDiscover l.ip xid {} with timer := timeout ≠ 0, retryTimer := true, leaseIp := l.ip }

/-- `process_packet`. -/
def processPacket (xid : UInt32) (m : Reply) (c : Client) : Except Fault Client := do
  let c := { c with retryTimer := false }
  let yiaddr ← readField m.dhp 16 4
  match ← parseOptions m.p m.optOff { ip := .ofNat yiaddr } with
  | none => .ok c
  | some info =>
    match c.state with
    | .discover => .ok (if info.type ≠ MsgType.offer then c else c.sendRequest info.toLease)
    | .request =>
      if info.type = MsgType.nak then .ok ({ c with state := .none }.sendDiscover 0 xid)
      else if info.type ≠ MsgType.ack then .ok c
      else .ok { c with state := .done, result := c.result ++ [(true, info.toLease)] }
    | _ => .ok c

/-- The part of `handle` that looks at the packet. -/
def accept (p : Packet) (iph : ReceivedIpHdr) : Except Fault (Option Reply) :=
  let ipl := iph.ihl * 4
  let optOff := ipl + 8 + 240
  match p.getHeader ipl 8 with
  | none => .ok none
  | some udp =>
    match udp.p.getHeader (ipl + 8) 240 with
    | none => .ok none
    | some dhp => do
      let dstPort ← readField udp 2 2
      let magic ← readField dhp 236 4
      .ok (if iph.ipProto ≠ 17 ∨ dstPort ≠ 68 ∨ iph.len.toNat < optOff + 1 ∨ magic ≠ 0x63825363
        then none else some ⟨dhp.p, dhp, optOff⟩)

/-- `handle`, on the processor `cpu`. -/
def handle (cpu : Nat) (p : Packet) (iph : ReceivedIpHdr) (xid : UInt32) (c : Client) :
    Except Fault Client :=
  if c.state = .none ∨ p.len < 240 then .ok c else do
  match ← accept p iph with
  | none => .ok c
  | some m =>
    if cpu = 0 then processPacket xid m c else .ok { c with submitted := c.submitted ++ [m] }

/-- What may happen after `run`; `xid` is what the random device gives, if a discover is sent. -/
inductive Event
  | packet (cpu : Nat) (p : Packet) (iph : ReceivedIpHdr) (xid : UInt32)
  | submitted (i : Nat) (xid : UInt32)
  | retry (xid : UInt32)
  | timeout
  deriving DecidableEq, Repr

/-- A timer that is not armed does not fire; the retry timer is periodic, the timeout is not. -/
def step (c : Client) : Event → Except Fault Client
  | .packet cpu p iph xid => c.handle cpu p iph xid
  | .submitted i xid =>
    (c.submitted[i]?).elim (.ok c) fun m =>
      processPacket xid m { c with submitted := c.submitted.eraseIdx i }
  | .retry xid => .ok (if c.retryTimer then c.sendDiscover c.leaseIp xid else c)
  | .timeout =>
    .ok (if c.timer then
      { c with timer := false, state := .fail, retryTimer := false,
               result := c.result ++ [(false, {})] }
      else c)

/-! ## What a step does -/

end Client

namespace Reply

/-- The transaction id of the reply. -/
def xid (m : Reply) : UInt32 := .ofNat (beNat ((m.dhp.mem.drop 4).take 4))

/-- What `process_packet` reads of the reply. -/
def info (m : Reply) : IpInfo :=
  scan (m.p.bytes.drop m.optOff) { ip := .ofNat (beNat ((m.dhp.mem.drop 16).take 4)) }

end Reply

namespace Client

/-- The reply that the event gives to `process_packet`. -/
def processed (c : Client) : Event → Option Reply
  | .packet cpu p iph _ =>
    if cpu = 0 ∧ c.state ≠ .none ∧ 240 ≤ p.len then (accept p iph).toOption.join else none
  | .submitted i _ => c.submitted[i]?
  | _ => none

/-- The transaction id of the last message sent. -/
def lastXid (c : Client) : Option UInt32 := c.sent.getLast?.map Sent.xid

/-- The state waits for this kind of reply. -/
def Awaits (c : Client) (m : Reply) : Prop :=
  c.state = .discover ∧ m.info.type = MsgType.offer ∨
    c.state = .request ∧ (m.info.type = MsgType.nak ∨ m.info.type = MsgType.ack)

/-- A step, by what it does to the state. -/
inductive Transition (c : Client) (e : Event) (c' : Client) : Prop
  | stay (hm : ∀ m, c.processed e = some m → ¬ c.Awaits m) (ht : e = .timeout → c.timer = false)
      (hstate : c'.state = c.state) (hxid : c'.xid = c.xid) (htimer : c'.timer = c.timer)
      (hretry : c'.retryTimer = true → c.retryTimer = true) (hsent : c'.sent = c.sent)
      (hresult : c'.result = c.result)
  | offer (m : Reply) (hm : c.processed e = some m) (hstate : c.state = .discover)
      (htype : m.info.type = MsgType.offer)
      (hnew : c'.state = .request) (hxid : c'.xid = c.xid) (htimer : c'.timer = c.timer)
      (hretry : c'.retryTimer = false) (hsent : c'.lastXid = some c.xid)
      (hresult : c'.result = c.result)
  | nak (m : Reply) (hm : c.processed e = some m) (hstate : c.state = .request)
      (htype : m.info.type = MsgType.nak)
      (hnew : c'.state = .discover) (htimer : c'.timer = c.timer)
      (hretry : c'.retryTimer = false) (hsent : c'.lastXid = some c'.xid)
      (hresult : c'.result = c.result)
  | ack (m : Reply) (hm : c.processed e = some m) (hstate : c.state = .request)
      (htype : m.info.type = MsgType.ack)
      (hnew : c'.state = .done) (hxid : c'.xid = c.xid) (htimer : c'.timer = c.timer)
      (hretry : c'.retryTimer = false) (hsent : c'.sent = c.sent)
      (hresult : c'.result.length = c.result.length + 1)
  | retry (hm : c.processed e = none) (harmed : c.retryTimer = true)
      (hnew : c'.state = .discover) (htimer : c'.timer = c.timer)
      (hsent : c'.lastXid = some c'.xid) (hresult : c'.result = c.result)
  | timeout (he : e = .timeout) (harmed : c.timer = true)
      (hnew : c'.state = .fail) (hxid : c'.xid = c.xid) (htimer : c'.timer = false)
      (hretry : c'.retryTimer = false) (hsent : c'.sent = c.sent)
      (hresult : c'.result.length = c.result.length + 1)

/-- `process_packet`, when the header of the reply is in memory. -/
def react (xid : UInt32) (m : Reply) (c : Client) : Client :=
  let c := { c with retryTimer := false }
  match c.state with
  | .discover => if m.info.type ≠ MsgType.offer then c else c.sendRequest m.info.toLease
  | .request =>
    if m.info.type = MsgType.nak then { c with state := .none }.sendDiscover 0 xid
    else if m.info.type ≠ MsgType.ack then c
    else { c with state := .done, result := c.result ++ [(true, m.info.toLease)] }
  | _ => c

variable {c c' : Client} {e : Event} {m : Reply} {xid : UInt32}

theorem processPacket_ok (h : 240 ≤ m.dhp.mem.length) (xid : UInt32) (c : Client) :
    processPacket xid m c = .ok (c.react xid m) := by
  have hread : readField m.dhp 16 4 = .ok (beNat ((m.dhp.mem.drop 16).take 4)) :=
    if_pos (by omega)
  rw [processPacket, hread, ok_bind, parseOptions_eq_scan, ok_bind]
  dsimp only
  change _ = Except.ok (c.react xid m)
  rw [react]
  cases hs : c.state with
  | request =>
    dsimp only
    rw [apply_ite Except.ok, apply_ite Except.ok]
    rfl
  | discover => rfl
  | none => rfl
  | done => rfl
  | fail => rfl

/-- The reply moves the state that waits for it, and only that one. -/
theorem react_transition (hm : c.processed e = some m) (he : e ≠ .timeout) (rs : List Reply)
    (xid : UInt32) : Transition c e ({ c with submitted := rs }.react xid m) := by
  have hstay (h : ¬ c.Awaits m) : ∀ m', c.processed e = some m' → ¬ c.Awaits m' := by
    intro m' hm'
    obtain rfl := Option.some.inj (hm.symm.trans hm')
    exact h
  have hquiet (st : State) (hst : c.state = st) (h : ¬ c.Awaits m) :
      Transition c e { c with state := st, submitted := rs, retryTimer := false } :=
    .stay (hstay h) (fun h => absurd h he) hst.symm rfl rfl (fun h => by cases h) rfl rfl
  rw [react]
  dsimp only
  cases hs : c.state with
  | discover =>
    dsimp only
    by_cases ht : m.info.type = MsgType.offer
    · rw [if_neg (not_not_intro ht)]
      exact .offer m hm hs ht rfl rfl rfl rfl (by simp [lastXid, sendRequest, Sent.xid]) rfl
    · rw [if_pos ht]
      apply hquiet _ hs
      rintro (⟨-, h⟩ | ⟨h, -⟩)
      · exact ht h
      · rw [hs] at h
        cases h
  | request =>
    dsimp only
    by_cases hnak : m.info.type = MsgType.nak
    · rw [if_pos hnak]
      exact .nak m hm hs hnak rfl rfl rfl (by simp [lastXid, sendDiscover, Sent.xid]) rfl
    · rw [if_neg hnak]
      by_cases hack : m.info.type = MsgType.ack
      · rw [if_neg (not_not_intro hack)]
        exact .ack m hm hs hack rfl rfl rfl rfl rfl (by simp)
      · rw [if_pos hack]
        apply hquiet _ hs
        rintro (⟨h, -⟩ | ⟨-, h | h⟩)
        · rw [hs] at h
          cases h
        · exact hnak h
        · exact hack h
  | none | done | fail =>
    apply hquiet _ hs
    rintro (⟨h, -⟩ | ⟨h, -⟩) <;> rw [hs] at h <;> cases h

theorem react_submitted (xid : UInt32) (m : Reply) (c : Client) :
    (c.react xid m).submitted = c.submitted := by
  rw [react]
  dsimp only
  cases c.state with
  | discover =>
    dsimp only
    split <;> rfl
  | request =>
    dsimp only
    split
    · rfl
    · split <;> rfl
  | none | done | fail => rfl

/-- Submitted replies have their whole header in memory. -/
def Whole (c : Client) : Prop := ∀ m ∈ c.submitted, 240 ≤ m.dhp.mem.length

theorem accept_ok (p : Packet) (iph : ReceivedIpHdr) :
    ∃ r, accept p iph = .ok r ∧ ∀ m, r = some m → 240 ≤ m.dhp.mem.length := by
  rw [accept]
  cases hudp : p.getHeader (iph.ihl * 4) 8 with
  | none => exact ⟨none, rfl, fun m h => by cases h⟩
  | some udp =>
    dsimp only
    cases hdhp : udp.p.getHeader (iph.ihl * 4 + 8) 240 with
    | none => exact ⟨none, rfl, fun m h => by cases h⟩
    | some dhp =>
      have hport : 8 ≤ udp.mem.length := (Packet.getHeader_spec hudp).2.2.1
      have hwhole : 240 ≤ dhp.mem.length := (Packet.getHeader_spec hdhp).2.2.1
      dsimp only
      rw [readField, if_pos (by omega), ok_bind, readField, if_pos (by omega), ok_bind]
      refine ⟨_, rfl, fun m hm => ?_⟩
      split at hm
      · cases hm
      · obtain rfl := Option.some.inj hm
        exact hwhole

theorem processed_accept {p : Packet} {iph : ReceivedIpHdr} {r : Option Reply}
    (h : accept p iph = .ok r) (c : Client) (cpu : Nat) (xid : UInt32) : c.processed (.packet cpu p iph xid) =
      if cpu = 0 ∧ c.state ≠ .none ∧ 240 ≤ p.len then r else none := by
  rw [processed, h]
  rfl

/-- Nothing is processed, and no timer fires. -/
theorem Transition.idle (hm : c.processed e = none) (ht : e = .timeout → c.timer = false)
    (rs : List Reply) : Transition c e { c with submitted := rs } := by
  have hnone : ∀ m, c.processed e = some m → ¬ c.Awaits m := by
    intro m h
    rw [hm] at h
    cases h
  exact .stay hnone ht rfl rfl rfl id rfl rfl

theorem handle_transition (cpu : Nat) (p : Packet) (iph : ReceivedIpHdr) (xid : UInt32)
    (hc : Whole c) : ∃ c', c.handle cpu p iph xid = .ok c' ∧
      Transition c (.packet cpu p iph xid) c' ∧ Whole c' := by
  obtain ⟨r, hr, hwhole⟩ := accept_ok p iph
  have hproc := processed_accept hr c cpu xid
  have hidle (rs : List Reply) (h : c.processed (.packet cpu p iph xid) = none) :=
    Transition.idle h (fun h => by cases h) rs
  rw [handle]
  by_cases hdrop : c.state = .none ∨ p.len < 240
  · rw [if_pos hdrop]
    refine ⟨c, rfl, hidle c.submitted ?_, hc⟩
    rw [hproc, if_neg]
    rintro ⟨-, hs, hlen⟩
    rcases hdrop with h | h
    · exact hs h
    · omega
  · obtain ⟨hs, hlen⟩ := not_or.mp hdrop
    rw [if_neg hdrop, hr, ok_bind]
    cases r with
    | none => exact ⟨c, rfl, hidle c.submitted (by rw [hproc, ite_self]), hc⟩
    | some m =>
      dsimp only
      by_cases hcpu : cpu = 0
      · rw [if_pos ⟨hcpu, hs, Nat.le_of_not_lt hlen⟩] at hproc
        rw [if_pos hcpu, processPacket_ok (hwhole m rfl)]
        refine ⟨_, rfl, react_transition hproc (fun h => by cases h) c.submitted xid, ?_⟩
        rwa [Whole, react_submitted]
      · rw [if_neg hcpu]
        refine ⟨_, rfl, hidle _ (by rw [hproc, if_neg fun h => hcpu h.1]), ?_⟩
        intro m' hm'
        rcases List.mem_append.mp hm' with h | h
        · exact hc m' h
        · obtain rfl := List.mem_singleton.mp h
          exact hwhole m' rfl

/-- No step fails, and every step is one of the transitions. -/
theorem step_transition (c : Client) (e : Event) (hc : Whole c) :
    ∃ c', step c e = .ok c' ∧ Transition c e c' ∧ Whole c' := by
  cases e with
  | packet cpu p iph xid => exact handle_transition cpu p iph xid hc
  | submitted i xid =>
    rw [step]
    cases hm : c.submitted[i]? with
    | none =>
      have hproc : c.processed (.submitted i xid) = none := hm
      exact ⟨c, rfl, .idle hproc (fun h => by cases h) c.submitted, hc⟩
    | some m =>
      have hproc : c.processed (.submitted i xid) = some m := hm
      rw [Option.elim_some, processPacket_ok (hc m (List.mem_of_getElem? hm))]
      refine ⟨_, rfl, react_transition hproc (fun h => by cases h) _ xid, ?_⟩
      rw [Whole, react_submitted]
      exact fun m' hm' => hc m' (List.mem_of_mem_eraseIdx hm')
  | retry xid =>
    rw [step]
    by_cases h : c.retryTimer = true
    · rw [if_pos h]
      exact ⟨_, rfl, .retry rfl h rfl rfl (by simp [lastXid, sendDiscover, Sent.xid]) rfl, hc⟩
    · rw [if_neg h]
      exact ⟨c, rfl, .idle rfl (fun h => by cases h) c.submitted, hc⟩
  | timeout =>
    rw [step]
    by_cases h : c.timer = true
    · rw [if_pos h]
      exact ⟨_, rfl, .timeout rfl h rfl rfl rfl rfl rfl (by simp), hc⟩
    · rw [if_neg h]
      exact ⟨c, rfl, .idle rfl (fun _ => eq_false_of_ne_true h) c.submitted, hc⟩

/-! ## Runs -/

/-- What holds of the client after `run`, whatever comes. -/
structure Inv (c : Client) : Prop where
  whole : Whole c
  retryTimer : c.retryTimer = true → c.state = .discover
  timer : c.timer = true → c.state ≠ .fail
  lastXid : c.lastXid = some c.xid

/-- The promise has been set once in the end states and not at all in the others. -/
def Settled (c : Client) : Prop :=
  c.result.length = if c.state = .done ∨ c.state = .fail then 1 else 0

/-- The step is not one of those that go wrong: no timeout fires after the acknowledgement, and no
reply with another transaction id is of the kind that the state waits for. -/
def Proper (c : Client) (e : Event) : Prop :=
  (e = .timeout → c.timer = true → c.state ≠ .done) ∧
    ∀ m, c.processed e = some m → c.lastXid ≠ some m.xid → ¬ c.Awaits m

/-- `done` and `fail` are not left, and a reply with another transaction id than that of the last
message sent does not change the state. -/
def Sound (c : Client) (e : Event) : Prop :=
  ∀ c', step c e = .ok c' → (c.state = .done ∨ c.state = .fail → c'.state = c.state) ∧
    ∀ m, c.processed e = some m → c.lastXid ≠ some m.xid → c'.state = c.state

theorem run_inv (l : Lease) (timeout : Nat) (xid : UInt32) : Inv (run l timeout xid) where
  whole m h := by cases h
  retryTimer _ := rfl
  timer _ h := by cases h
  lastXid := rfl

theorem Transition.inv (h : Transition c e c') (hc : Inv c) (hw : Whole c') : Inv c' := by
  cases h with
  | stay _ _ hstate hxid htimer hretry hsent _ =>
    constructor
    · exact hw
    · rw [hstate]
      exact fun h => hc.retryTimer (hretry h)
    · rw [hstate, htimer]
      exact hc.timer
    · rw [Client.lastXid, hsent, hxid]
      exact hc.lastXid
  | offer m _ _ _ hnew hxid _ hretry hsent _ =>
    constructor
    · exact hw
    · simp [hretry]
    · simp [hnew]
    · rw [hsent, hxid]
  | nak m _ _ _ hnew _ hretry hsent _ =>
    constructor
    · exact hw
    · simp [hretry]
    · simp [hnew]
    · exact hsent
  | ack m _ _ _ hnew hxid _ hretry hsent _ =>
    constructor
    · exact hw
    · simp [hretry]
    · simp [hnew]
    · rw [Client.lastXid, hsent, hxid]
      exact hc.lastXid
  | retry _ _ hnew _ hsent _ =>
    constructor
    · exact hw
    · exact fun _ => hnew
    · simp [hnew]
    · exact hsent
  | timeout _ _ _ hxid htimer hretry hsent _ =>
    constructor
    · exact hw
    · simp [hretry]
    · simp [htimer]
    · rw [Client.lastXid, hsent, hxid]
      exact hc.lastXid

/-- A proper step sets the promise only when it comes to an end state. -/
theorem Transition.settled (h : Transition c e c') (hc : Inv c) (hp : Proper c e)
    (hs : Settled c) : Settled c' := by
  cases h with
  | stay _ _ hstate _ _ _ _ hresult => rwa [Settled, hstate, hresult]
  | offer m _ hstate _ hnew _ _ _ _ hresult => simpa [Settled, hnew, hresult, hstate] using hs
  | nak m _ hstate _ hnew _ _ _ hresult => simpa [Settled, hnew, hresult, hstate] using hs
  | ack m _ hstate _ hnew _ _ _ _ hresult => simpa [Settled, hnew, hresult, hstate] using hs
  | retry _ harmed hnew _ _ hresult =>
    simpa [Settled, hnew, hresult, hc.retryTimer harmed] using hs
  | timeout he harmed hnew _ _ _ _ hresult =>
    have hdone := hp.1 he harmed
    have hfail := hc.timer harmed
    simpa [Settled, hnew, hresult, hdone, hfail] using hs

theorem sound_iff (hstep : step c e = .ok c') :
    Sound c e ↔ (c.state = .done ∨ c.state = .fail → c'.state = c.state) ∧
      ∀ m, c.processed e = some m → c.lastXid ≠ some m.xid → c'.state = c.state := by
  constructor
  · exact fun h => h c' hstep
  · intro h t ht
    obtain rfl := Except.ok.inj (hstep.symm.trans ht)
    exact h

/-- A reply that moves the state has to answer the last message. -/
theorem sound_iff_of_awaits (hstep : step c e = .ok c') (hm : c.processed e = some m)
    (haw : c.Awaits m) (hmoved : c'.state ≠ c.state) : Sound c e ↔ Proper c e := by
  have hend : ¬ (c.state = .done ∨ c.state = .fail) := by
    rcases haw with ⟨h, -⟩ | ⟨h, -⟩ <;> simp [h]
  have hxid : (∀ m', c.processed e = some m' → c.lastXid ≠ some m'.xid → ¬ c.Awaits m') ↔
      c.lastXid = some m.xid := by
    constructor
    · intro h
      by_contra hne
      exact h m hm hne haw
    · intro h m' hm' hne
      obtain rfl := Option.some.inj (hm.symm.trans hm')
      exact absurd h hne
  rw [sound_iff hstep, Proper, hxid]
  constructor
  · rintro ⟨-, h⟩
    constructor
    · rintro - - hdone
      exact hend (Or.inl hdone)
    · by_contra hne
      exact hmoved (h m hm hne)
  · rintro ⟨-, h⟩
    constructor
    · exact fun he => absurd he hend
    · intro m' hm' hne
      obtain rfl := Option.some.inj (hm.symm.trans hm')
      exact absurd h hne

/-- A step is sound exactly if it is proper. -/
theorem Transition.sound_iff_proper (h : Transition c e c') (hc : Inv c)
    (hstep : step c e = .ok c') : Sound c e ↔ Proper c e := by
  cases h with
  | stay hm ht hstate _ _ _ _ _ =>
    rw [sound_iff hstep]
    constructor
    · rintro -
      constructor
      · intro he harmed
        rw [ht he] at harmed
        cases harmed
      · exact fun m hm' _ => hm m hm'
    · exact fun _ => ⟨fun _ => hstate, fun _ _ _ => hstate⟩
  | offer m hm hstate htype hnew _ _ _ _ _ =>
    exact sound_iff_of_awaits hstep hm (Or.inl ⟨hstate, htype⟩) (by rw [hnew, hstate]; decide)
  | nak m hm hstate htype hnew _ _ _ _ =>
    exact sound_iff_of_awaits hstep hm (Or.inr ⟨hstate, Or.inl htype⟩)
      (by rw [hnew, hstate]; decide)
  | ack m hm hstate htype hnew _ _ _ _ _ =>
    exact sound_iff_of_awaits hstep hm (Or.inr ⟨hstate, Or.inr htype⟩)
      (by rw [hnew, hstate]; decide)
  | retry hm harmed hnew _ _ _ =>
    have hstate := hc.retryTimer harmed
    rw [sound_iff hstep, Proper]
    simp [hm, hstate, hnew]
  | timeout he harmed hnew _ _ _ _ _ =>
    subst he
    have hfail := hc.timer harmed
    have hm : c.processed .timeout = none := rfl
    rw [sound_iff hstep, Proper]
    simp [hm, hfail, hfail.symm, harmed, hnew]

theorem step_ok (c : Client) (e : Event) (hc : Inv c) :
    ∃ c', step c e = .ok c' ∧ Inv c' := by
  obtain ⟨c', hstep, htrans, hw⟩ := step_transition c e hc.whole
  exact ⟨c', hstep, htrans.inv hc hw⟩

theorem step_inv (hc : Inv c) (hstep : step c e = .ok c') : Inv c' := by
  obtain ⟨t, ht, hinv⟩ := step_ok c e hc
  obtain rfl := Except.ok.inj (ht.symm.trans hstep)
  exact hinv

theorem sound_iff_proper (hc : Inv c) : Sound c e ↔ Proper c e := by
  obtain ⟨t, ht, htrans, -⟩ := step_transition c e hc.whole
  exact htrans.sound_iff_proper hc ht

theorem step_settled (hc : Inv c) (hp : Proper c e) (hs : Settled c) (hstep : step c e = .ok c') :
    Settled c' := by
  obtain ⟨t, ht, htrans, -⟩ := step_transition c e hc.whole
  obtain rfl := Except.ok.inj (ht.symm.trans hstep)
  exact htrans.settled hc hp hs

theorem Settled.le_one (h : Settled c) : c.result.length ≤ 1 := by
  rw [Settled] at h
  rw [h]
  split <;> decide

/-- After `run`, whatever arrives and fires, no step fails; and the promise is set at most once, the
end states are kept and replies to other messages leave the state alone, in every state and step of
the run, exactly if no timeout fires after the acknowledgement and no reply to another message is
of the kind that the state waits for. -/
theorem run_sound_iff (l : Lease) (timeout : Nat) (xid : UInt32) (es : List Event) :
    (∃ c, Run.run step (run l timeout xid) es = .ok c) ∧
      ((Run.Throughout step (fun c => c.result.length ≤ 1) (run l timeout xid) es ∧
        Run.Along step Sound (run l timeout xid) es) ↔
          Run.Along step Proper (run l timeout xid) es) := by
  have hinv := run_inv l timeout xid
  constructor
  · obtain ⟨c, hc, -⟩ := Run.run_total step_ok hinv es
    exact ⟨c, hc⟩
  · constructor
    · rintro ⟨-, h⟩
      exact Run.Along.of_inv (fun c e c' hc _ => step_inv hc)
        (fun c e hc => (sound_iff_proper hc).mp) hinv h
    · intro h
      constructor
      · apply Run.Throughout.of_along (I := fun c => Inv c ∧ Settled c) _ _ ⟨hinv, rfl⟩ h
        · exact fun c e c' hc hp hstep => ⟨step_inv hc.1 hstep, step_settled hc.1 hp hc.2 hstep⟩
        · exact fun c hc => hc.2.le_one
      · exact Run.Along.of_inv (fun c e c' hc _ => step_inv hc)
          (fun c e hc => (sound_iff_proper hc).mpr) hinv h

/-- An offer with the transaction id 9. -/
def strangeOffer : Packet :=
  .ofFrags [List.replicate 20 0 ++ [0, 67, 0, 68, 1, 0, 0, 0],
    List.replicate 4 0 ++ [0, 0, 0, 9] ++ List.replicate 228 0 ++ [0x63, 0x82, 0x53, 0x63],
    [53, 1, 2, 255]]

/-- The client whose discover had the transaction id 7 requests what it offers. -/
theorem run_strange_offer :
    ¬∀ (l : Lease) (timeout : Nat) (xid : UInt32) (es : List Event),
      Run.Throughout step (fun c => c.result.length ≤ 1) (run l timeout xid) es ∧
        Run.Along step Sound (run l timeout xid) es := by
  intro h
  let e : Event := .packet 0 strangeOffer ⟨5, 272, 0, 0, 17, 0, 0⟩ 0
  obtain ⟨c, hstep, -⟩ := step_ok (run {} 0 7) e (run_inv {} 0 7)
  have hsound : Sound (run {} 0 7) e := (h {} 0 7 [e]).2.1
  have hproc : ((run {} 0 7).processed e).map Reply.xid = some 9 := by decide +kernel
  have hnew : (step (run {} 0 7) e).toOption.map (·.state) = some .request := by decide +kernel
  obtain ⟨m, hm, hxid⟩ := Option.map_eq_some_iff.mp hproc
  have hkept := (hsound c hstep).2 m hm (by rw [hxid]; decide)
  rw [hstep] at hnew
  have hrequest : c.state = .request := Option.some.inj hnew
  rw [hkept] at hrequest
  exact absurd hrequest (by decide)

end Client

end Seastar.Net.Dhcp
