import Seastar.Lib.Run
import Seastar.Net.Tcp.Input

/-!
A connection as a state machine: everything that can happen to a `tcb` after its
creation, one action at a time, each at the time of the clock when it happens. A
timer runs its callback only when it is armed and due, `get_packet` is called
only for a connection on the polling list, and the continuation of `close()`
runs only once its future is ready.
-/

namespace Seastar.Net.Tcp

/-- What can happen to a connection. -/
inductive Action
  /-- a segment that `tcp::received` dispatches to it -/
  | segment (th : TcpHdr) (p : Packet)
  | send (p : Packet)
  | read
  | waitForData
  | abortReader
  | close
  | closeContinue
  | shutdownConnect
  /-- the packet provider polls the connection -/
  | getPacket
  | retransmitExpires
  | persistExpires
  | delayedAckExpires
  /-- `poll_tcb` failed: the ARP queue is full -/
  | arpQueueFull
  /-- `poll_tcb` failed: ARP timed out -/
  | arpTimeout

/-- A segment as it arrives, in one fragment. -/
def Action.arrives (bs : Bytes) : Action := .segment (TcpHdr.read bs) (Packet.ofFrags [bs])

/-- An action and the time of the clock. -/
structure Event where
  now : Int
  act : Action

namespace Tcb

/-- A timer is armed and due. -/
def due (timer : Option Int) (now : Int) : Bool := timer.any (· ≤ now)

/-- The dispatch of `tcp::received` for a connection that exists. -/
def inputHandle (hw : HwFeatures) (now : Int) (th : TcpHdr) (p : Packet) (tcb : Tcb) :
    Except Fault Tcb :=
  if tcb.state = .synSent then inputHandleSynSentState hw now th p tcb
  else inputHandleOtherState hw now th p tcb

/-- One action. -/
def step (hw : HwFeatures) (tcb : Tcb) (e : Event) : Except Fault Tcb :=
  match e.act with
  | .segment th p => inputHandle hw e.now th p tcb
  | .send p => .ok (tcb.send p)
  | .read => .ok tcb.read.2
  | .waitForData => .ok tcb.waitForData
  | .abortReader => .ok tcb.abortReader
  | .close => .ok tcb.close
  | .closeContinue =>
    if 0 < tcb.closeTasks then
      closeContinue hw e.now { tcb with closeTasks := tcb.closeTasks - 1 }
    else .ok tcb
  | .shutdownConnect => .ok tcb.shutdownConnect
  | .getPacket => if tcb.pollActive then (getPacket hw e.now tcb).map Prod.snd else .ok tcb
  | .retransmitExpires =>
    if due tcb.retransmitTimer e.now then retransmit hw e.now { tcb with retransmitTimer := none }
    else .ok tcb
  | .persistExpires =>
    if due tcb.persistTimer e.now then persist hw e.now { tcb with persistTimer := none }
    else .ok tcb
  | .delayedAckExpires =>
    if due tcb.delayedAck e.now then
      .ok (output { tcb with delayedAck := none, nrFullSegReceived := 0 })
    else .ok tcb
  | .arpQueueFull =>
    if tcb.pollActive then .ok (startRetransmitTimer e.now { tcb with pollActive := false })
    else .ok tcb
  | .arpTimeout =>
    if tcb.pollActive && tcb.state = .synSent then
      .ok (cleanup (emit (.wake .connectDone .arpTimeoutError) tcb))
    else .ok tcb

/-- The connection after the events, oldest first. -/
def run (hw : HwFeatures) : Tcb → List Event → Except Fault Tcb := Lib.Run.run (step hw)

/-- Every event of the run meets `P` in the state it finds. -/
def Along (hw : HwFeatures) (P : Tcb → Event → Prop) : Tcb → List Event → Prop :=
  Lib.Run.Along (step hw) P

instance (hw : HwFeatures) (P : Tcb → Event → Prop) [∀ s e, Decidable (P s e)] (tcb : Tcb)
    (es : List Event) : Decidable (Along hw P tcb es) :=
  inferInstanceAs (Decidable (Lib.Run.Along (step hw) P tcb es))

/-- Open a connection: SYN, then SYN and ACK with ISS 7, window 10. -/
def handshake : List Event :=
  [⟨0, .getPacket⟩,
    ⟨1, .arrives [0, 80, 160, 0, 0, 0, 0, 7, 0, 0, 0, 101, 0x50, 0x12, 0, 10, 0, 0, 0, 0]⟩,
    ⟨2, .getPacket⟩]

end Tcb

end Seastar.Net.Tcp
