import Seastar.Net.Tcp.Received

/-!
`class tcp` as a state machine: packets from the network, timers and user calls of the
connections in the table, and the user's side of the listeners. A connection that
has left the table may live on in the hands of its user; all it can still do to
the table is to be polled and to call `cleanup` again, which erases its id.
-/

namespace Seastar.Net.Tcp

open Lib

/-- The stack, the ids of the connections that have left its table, and the ports whose
queue was aborted. -/
structure Host where
  stack : Stack
  gone : List Connid := []
  aborted : List UInt16 := []
  deriving DecidableEq

/-- What can happen to a stack whose listeners are in place. -/
inductive HostEvent
  /-- `received` -/
  | packet (now : Int) (isn : TcpSeq) (mem : Tcb) (p : Packet) (src dst : UInt32)
  /-- a timer, a poll or a user call of a connection in the table -/
  | tcb (id : Connid) (e : Event) (h : ∀ th p, e.act ≠ .segment th p)
  /-- a connection that has left the table is polled, or cleans up again -/
  | stale (id : Connid) (cleans : Bool)
  /-- the continuation of `accept` runs: the first connection of the queue goes to the user -/
  | accept (port : UInt16)
  /-- `abort_accept`; the connections in the queue are closed by events of their own -/
  | abortAccept (port : UInt16)

namespace Stack

/-- The part of `received` in front of the dispatch: the header and the rest of a packet
that passes the checks. -/
def segmentOf (hw : HwFeatures) (p : Packet) (src dst : UInt32) :
    Except Fault (Option (TcpHdr × Packet)) :=
  match p.getHeader 0 tcpHdrLen with
  | none => .ok none
  | some th =>
    if dataOffsetOf th.mem * 4 < tcpHdrLen then .ok none
    else do
      let verified ←
        if hw.rxCsumOffload then .ok true
        else do
          let csum ← segmentChecksum src dst th.p
          .ok (csum = 0)
      .ok (if verified then some (TcpHdr.read th.mem, th.p) else none)

theorem received_eq (hw : HwFeatures) (now : Int) (isn : TcpSeq) (mem : Tcb) (p : Packet)
    (src dst : UInt32) (t : Stack) : t.received hw now isn mem p src dst =
      (segmentOf hw p src dst >>= fun r =>
        match r with
        | none => .ok t
        | some (th, q) => dispatch hw now isn mem th src dst q t) := by
  unfold received segmentOf
  cases p.getHeader 0 tcpHdrLen with
  | none => rfl
  | some th =>
    simp only
    split
    · rfl
    · by_cases hrx : hw.rxCsumOffload = true
      · rw [if_pos hrx, if_pos hrx]
        rfl
      · rw [if_neg hrx, if_neg hrx]
        cases segmentChecksum src dst th.p with
        | error f => rfl
        | ok csum =>
          by_cases hc : csum = 0
          · simp only [ok_bind, hc, decide_true, Bool.not_true, Bool.false_eq_true, if_false,
              if_true]
          · simp only [ok_bind, hc, decide_false, Bool.not_false, if_true, Bool.false_eq_true,
              if_false]

end Stack

namespace Host

/-- The stack has become `t`. The connections its table has lost are gone. -/
def become (h : Host) (t : Stack) : Host :=
  { h with
    stack := t
    gone := h.gone ++ (h.stack.tcbs.filter fun e => (t.findTcb e.1).isNone).map Prod.fst }

/-- A connection that was polled, or could not be queued for it, is on the polling list no
more. -/
def unpolled (id : Connid) (a : Action) (t : Stack) : Stack :=
  match a with
  | .getPacket | .arpQueueFull | .arpTimeout => { t with pollTcbs := t.pollTcbs.erase id }
  | _ => t

/-- One event. -/
def step (hw : HwFeatures) (h : Host) : HostEvent → Except Fault Host
  | .packet now isn mem p src dst => do
    let t ← h.stack.received hw now isn mem p src dst
    .ok (h.become t)
  | .tcb id e _ =>
    match h.stack.findTcb id with
    | none => .ok h
    | some tcb => do
      let tcb ← tcb.step hw e
      .ok (h.become ((unpolled id e.act h.stack).handled hw id tcb))
  | .stale id cleans =>
    if id ∈ h.gone then
      .ok (h.become (h.stack.applyEffect hw id (if cleans then .removeFromTcbs else .pollTcb)))
    else .ok h
  | .accept port =>
    match h.stack.findListener port with
    | none => .ok h
    | some l =>
      if port ∈ h.aborted then .ok h
      else .ok (h.become (h.stack.setListener port { l with q := l.q.tail }))
  | .abortAccept port =>
    match h.stack.findListener port with
    | none => .ok h
    | some l =>
      .ok { h.become (h.stack.setListener port { l with q := [] }) with
        aborted := port :: h.aborted }

/-- The host after the events, oldest first. -/
def run (hw : HwFeatures) : Host → List HostEvent → Except Fault Host := Run.run (step hw)

/-- Every event of the run meets `P` in the state it finds. -/
def Along (hw : HwFeatures) (P : Host → HostEvent → Prop) : Host → List HostEvent → Prop :=
  Run.Along (step hw) P

instance (hw : HwFeatures) (P : Host → HostEvent → Prop) [∀ h e, Decidable (P h e)] (h : Host)
    (es : List HostEvent) : Decidable (Along hw P h es) :=
  inferInstanceAs (Decidable (Run.Along (step hw) P h es))

/-- Listeners that have just been made, and no connection. -/
structure Fresh (h : Host) : Prop where
  tcbs : h.stack.tcbs = []
  gone : h.gone = []
  aborted : h.aborted = []
  listening : ∀ e ∈ h.stack.listening, e.2.pending = 0 ∧ e.2.q = []

end Host

end Seastar.Net.Tcp
