import Seastar.Core.Fault

/-!
The balancing of connections of `net/posix-stack.hh` and `net/posix-stack.cc`: the shard that listens
gives each connection to the shard with the least load, with a handle whose destructor tells it when
the connection is over. Calls to other shards are messages that arrive in any order.
-/

namespace Seastar

namespace Conntrack

/-- `load_balancer::next_cpu`, the `std::min_element`: the first shard with the least load. -/
def nextCpu (cpuLoad : List Nat) : Nat := cpuLoad.findIdx fun x => cpuLoad.all (x ≤ ·)

/-- Where a connection is: on the way to a shard, in the `conn_q` of one, in a `connected_socket` that
an `accept()` returned, or destroyed. A handle is its `_target_cpu`; one that was not given to the
socket has no load balancer. -/
inductive Place
  | moving (shard : Nat) (handle : Nat)
  | queued (shard : Nat)
  | opened (shard : Nat) (handle : Option Nat)
  | closed
  deriving DecidableEq, Repr

/-- A connection, with the shard that `next_cpu` gave for it. -/
structure Connection where
  cpu : Nat
  place : Place
  deriving DecidableEq, Repr

end Conntrack

/-- The shards of a server: the loads, the connections so far, the shards where an `accept()` waits
(their entry in `sockets`, or the `accept()` of the shard that listens), the `closed_cpu` calls on the
way, all `accept()` calls by their shards, and which connection went to an `accept()` of which
shard. -/
structure Conntrack where
  cpuLoad : List Nat
  connections : List Conntrack.Connection := []
  sockets : List Nat := []
  closing : List Nat := []
  accepts : List Nat := []
  handed : List (Nat × Nat) := []
  deriving DecidableEq, Repr

namespace Conntrack

def init (count : Nat) : Conntrack where
  cpuLoad := List.replicate count 0

def place (s : Conntrack) (i : Nat) : Option Place := (s.connections[i]?).map Connection.place

/-- The connection goes to another place. -/
def put (s : Conntrack) (i : Nat) (p : Place) : Conntrack :=
  { s with connections := s.connections.modify i fun x => { x with place := p } }

/-- `load_balancer::closed_cpu`. -/
def closedCpu (s : Conntrack) (cpu : Nat) : Conntrack :=
  { s with cpuLoad := s.cpuLoad.modify cpu (· - 1) }

/-- `~handle` on a shard: `submit_to(_host_cpu)`, which on this shard itself is a call. -/
def destroyHandle (host : Nat) (s : Conntrack) (shard : Nat) : Option Nat → Conntrack
  | none => s
  | some cpu => if shard = host then s.closedCpu cpu else { s with closing := s.closing ++ [cpu] }

/-- The future of an `accept()` gets the connection. -/
def handOver (s : Conntrack) (i shard : Nat) (handle : Option Nat) : Conntrack :=
  { s.put i (.opened shard handle) with handed := s.handed ++ [(i, shard)] }

/-- The connections in the `conn_q` of a shard. -/
def connQ (s : Conntrack) (shard : Nat) : List Nat :=
  (List.range s.connections.length).filter fun i => s.place i = some (.queued shard)

/-- The continuation of `posix_server_socket_impl::accept` on a new connection. One that goes to
another shard leaves the `accept()` waiting. -/
def accepted (host : Nat) (s : Conntrack) : Conntrack :=
  let cpu := nextCpu s.cpuLoad
  let i := s.connections.length
  let s := { s with cpuLoad := s.cpuLoad.modify cpu (· + 1) }
  if cpu = host then
    { s with
      connections := s.connections ++ [⟨cpu, .opened host (some cpu)⟩]
      sockets := s.sockets.erase host
      handed := s.handed ++ [(i, host)] }
  else
    { s with connections := s.connections ++ [⟨cpu, .moving cpu cpu⟩] }

/-- `move_connected_socket`. The queue has no place for the handle, which ends with the call. -/
def moveConnectedSocket (host : Nat) (s : Conntrack) (i shard handle : Nat) : Conntrack :=
  if shard ∈ s.sockets then
    handOver { s with sockets := s.sockets.erase shard } i shard (some handle)
  else
    destroyHandle host (s.put i (.queued shard)) shard (some handle)

/-- `accept()` on a shard. From a queue with several connections `find` may take any, the one that
`pick` says. -/
def accept (host : Nat) (s : Conntrack) (shard pick : Nat) : Except Fault Conntrack :=
  let s := { s with accepts := s.accepts ++ [shard] }
  if shard = host then .ok { s with sockets := s.sockets ++ [shard] } else
  match (s.connQ shard)[pick % (s.connQ shard).length]? with
  | some i => .ok (s.handOver i shard none)
  | none =>
    if shard ∈ s.sockets then .error .assertFailed
    else .ok { s with sockets := s.sockets ++ [shard] }

/-- What happens: the kernel has a connection for the `accept()` that waits, a connection comes to
its shard, `accept()` is called, a socket is destroyed, or a `closed_cpu` arrives. -/
inductive Op
  | kernel
  | arrive (i : Nat)
  | accept (shard pick : Nat)
  | close (i : Nat)
  | closed (j : Nat)
  deriving DecidableEq, Repr

/-- Other than by an assertion, the step fails where this cannot happen now. -/
def step (host : Nat) (s : Conntrack) : Op → Except Fault Conntrack
  | .kernel => if host ∈ s.sockets then .ok (s.accepted host) else .error .noObject
  | .arrive i =>
    match s.place i with
    | some (.moving shard handle) => .ok (s.moveConnectedSocket host i shard handle)
    | _ => .error .noObject
  | .accept shard pick => s.accept host shard pick
  | .close i =>
    match s.place i with
    | some (.opened shard handle) => .ok (destroyHandle host (s.put i .closed) shard handle)
    | _ => .error .noObject
  | .closed j =>
    match s.closing[j]? with
    | some cpu => .ok (closedCpu { s with closing := s.closing.eraseIdx j } cpu)
    | none => .error .noObject

end Conntrack

end Seastar
