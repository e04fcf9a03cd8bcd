import Seastar.Lib.Assoc
import Seastar.Net.FlowSteering
import Seastar.Net.Tcp.OutputSpec
import Seastar.Net.Tcp.Received

/-!
The connections of `tcp::connect` and the table of connections. `connect` draws a local port
until the loop takes it, makes a `tcb`, and inserts it under its 4-tuple.

The loop asks whether the 4-tuple is in the table only when there are several hardware
queues. With one queue the first port is taken, and `insert` leaves an entry that is
there alone: then the new connection is not in the table.
-/

namespace Seastar.Net.Tcp

open Lib

/-- The id `remove_from_tcbs` makes from the members. -/
def Tcb.connid (tcb : Tcb) : Connid :=
  ⟨tcb.localIp, tcb.foreignIp, tcb.localPort, tcb.foreignPort⟩

/-- The id `l4connid::hash` is called for. -/
def Connid.l4 (id : Connid) : L4connid := ⟨id.localIp, id.foreignIp, id.localPort, id.foreignPort⟩

def Connid.ofL4 (id : L4connid) : Connid :=
  ⟨id.localIp, id.foreignIp, id.localPort, id.foreignPort⟩

/-- The `tcb`s that were made, a pointer being a position, and `_tcbs`. An entry points to a
`tcb` with its 4-tuple. -/
structure Tcbs where
  memory : List Tcb := []
  tcbs : List (Connid × Nat) := []
  own : ∀ e ∈ tcbs, ∃ tcb, memory[e.2]? = some tcb ∧ tcb.connid = e.1 := by nofun

namespace Tcbs

/-- The 4-tuples of the table. -/
def keys (t : Tcbs) : List L4connid := t.tcbs.map fun e => e.1.l4

/-- `make_lw_shared` and `_tcbs.insert`: an entry that is there stays. -/
def insert (tcb : Tcb) (t : Tcbs) : Tcbs where
  memory := t.memory ++ [tcb]
  tcbs :=
    match t.tcbs.lookup tcb.connid with
    | some _ => t.tcbs
    | none => t.tcbs ++ [(tcb.connid, t.memory.length)]
  own := by
    have hold : ∀ e ∈ t.tcbs, ∃ u, (t.memory ++ [tcb])[e.2]? = some u ∧ u.connid = e.1 := by
      intro e he
      obtain ⟨u, hu, hid⟩ := t.own e he
      exact ⟨u, List.getElem?_append_left (List.getElem?_eq_some_iff.mp hu).1 ▸ hu, hid⟩
    split
    · exact hold
    · intro e he
      rcases List.mem_append.mp he with he | he
      · exact hold e he
      · obtain rfl := List.mem_singleton.mp he
        exact ⟨tcb, List.getElem?_concat_length, rfl⟩

/-- `remove_from_tcbs` of the `tcb` at `p`. -/
def removeFromTcbs (p : Nat) (t : Tcbs) : Tcbs where
  memory := t.memory
  tcbs :=
    match t.memory[p]? with
    | some tcb => Assoc.erase tcb.connid t.tcbs
    | none => t.tcbs
  own := by
    split
    · intro e he
      exact t.own e (List.mem_of_mem_filter he)
    · exact t.own

/-- `tcp::connect`, when these ports are drawn: the new `tcb` and the table. The last thing
`connect` does is `tcbp->connect()`. -/
def connect (dev : Device) (cpu : Nat) (hw : HwFeatures) (now : Int) (isn : TcpSeq) (mem : Tcb)
    (srcIp dstIp : UInt32) (dstPort : UInt16) (ports : List UInt16) (t : Tcbs) :
    Option (Nat × Tcbs) :=
  (dev.connect cpu srcIp dstIp dstPort ports t.keys).map fun r =>
    (t.memory.length, t.insert ((Stack.newTcb mem (.ofL4 r.1)).connect hw now isn))

/-- The connection at `p` is registered under its own 4-tuple, which was free, and the entries that
were there are as they were. -/
def Registered (t t' : Tcbs) (p : Nat) : Prop :=
  ∃ tcb, t'.memory[p]? = some tcb ∧ t'.tcbs.lookup tcb.connid = some p ∧
    t.tcbs.lookup tcb.connid = none ∧
    ∀ id q, t.tcbs.lookup id = some q →
      t'.tcbs.lookup id = some q ∧ t'.memory[q]? = t.memory[q]?

end Tcbs

/-! ## The loop -/

section Loop

variable {dev : Device} {cpu : Nat} {srcIp dstIp : UInt32} {dstPort : UInt16}
  {ports : List UInt16} {keys keys' : List L4connid} {id : L4connid}

/-- With several hardware queues the 4-tuple is free. -/
theorem connect_free (h : dev.connect cpu srcIp dstIp dstPort ports keys = some (id, keys'))
    (hqueues : 1 < dev.hwQueuesCount) : id ∉ keys := by
  induction ports with
  | nil => cases h
  | cons port ports ih =>
    rw [Device.connect] at h
    split at h
    · exact ih h
    · rename_i hretries
      obtain ⟨rfl, -⟩ := Prod.mk.inj (Option.some.inj h)
      intro hmem
      exact hretries (by simp [Device.retries, hqueues, hmem])

/-- With one, the first port is taken. -/
theorem connect_first (h : dev.connect cpu srcIp dstIp dstPort ports keys = some (id, keys'))
    (hqueues : ¬ 1 < dev.hwQueuesCount) :
    ∃ port, ports.head? = some port ∧ id = ⟨srcIp, dstIp, port, dstPort⟩ := by
  cases ports with
  | nil => cases h
  | cons port ports =>
    have hr : dev.retries cpu keys ⟨srcIp, dstIp, port, dstPort⟩ = false := by
      simp [Device.retries, hqueues]
    rw [Device.connect, hr] at h
    obtain ⟨rfl, -⟩ := Prod.mk.inj (Option.some.inj h)
    exact ⟨port, rfl, rfl⟩

end Loop

namespace Tcbs

variable {t : Tcbs} {tcb : Tcb} {id : Connid} {p q : Nat}

theorem notMem_keys : id.l4 ∉ t.keys ↔ t.tcbs.lookup id = none := by
  rw [Assoc.lookup_eq_none, keys]
  simp only [List.mem_map, not_exists, not_and]
  refine forall₂_congr fun e _ => not_congr ⟨fun h => ?_, fun h => congrArg Connid.l4 h⟩
  obtain ⟨⟨a, b, c, d⟩, n⟩ := e
  obtain ⟨a', b', c', d'⟩ := id
  obtain ⟨rfl, rfl, rfl, rfl⟩ := L4connid.mk.inj h
  rfl

theorem connect_connid (mem : Tcb) (id : Connid) (hw : HwFeatures) (now : Int) (isn : TcpSeq) :
    ((Stack.newTcb mem id).connect hw now isn).connid = id := by
  unfold Tcb.connect Tcb.doSynSent
  simp only
  obtain ⟨pa, ef, h⟩ := Tcb.output_eq _
  rw [h]
  rfl

/-- A pointer of the table is older than the next one. -/
theorem lookup_lt (h : t.tcbs.lookup id = some q) : q < t.memory.length := by
  obtain ⟨u, hu, -⟩ := t.own _ (Assoc.mem_of_lookup h)
  exact (List.getElem?_eq_some_iff.mp hu).1

/-- What is inserted is registered exactly when its 4-tuple was free. -/
theorem insert_registered :
    Registered t (t.insert tcb) t.memory.length ↔ t.tcbs.lookup tcb.connid = none := by
  have hnew : (t.insert tcb).memory[t.memory.length]? = some tcb := List.getElem?_concat_length
  constructor
  · rintro ⟨u, hu, -, hfree, -⟩
    obtain rfl := Option.some.inj (hnew.symm.trans hu)
    exact hfree
  · intro hfree
    have htcbs : (t.insert tcb).tcbs = t.tcbs ++ [(tcb.connid, t.memory.length)] := by
      simp only [insert, hfree]
    refine ⟨tcb, hnew, ?_, hfree, fun id q hq => ⟨?_, ?_⟩⟩
    · rw [htcbs, List.lookup_append, hfree]
      simp
    · rw [htcbs, List.lookup_append, hq]
      rfl
    · exact List.getElem?_append_left (lookup_lt hq)

/-- `connect` makes a connection that is registered under its own 4-tuple and takes over nothing,
exactly when there are several hardware queues or the first port drawn is free. -/
theorem connect_registered (dev : Device) (cpu : Nat) (hw : HwFeatures) (now : Int) (isn : TcpSeq)
    (mem : Tcb) (srcIp dstIp : UInt32) (dstPort : UInt16) (ports : List UInt16) {t t' : Tcbs}
    {p : Nat}
    (h : connect dev cpu hw now isn mem srcIp dstIp dstPort ports t = some (p, t')) :
    Registered t t' p ↔ 1 < dev.hwQueuesCount ∨
      ∀ port ∈ ports.head?, t.tcbs.lookup ⟨srcIp, dstIp, port, dstPort⟩ = none := by
  obtain ⟨⟨id, keys⟩, hloop, hr⟩ := Option.map_eq_some_iff.mp h
  obtain ⟨rfl, rfl⟩ := Prod.mk.inj hr
  rw [insert_registered, connect_connid]
  have hid : (Connid.ofL4 id).l4 = id := rfl
  by_cases hqueues : 1 < dev.hwQueuesCount
  · refine iff_of_true ?_ (Or.inl hqueues)
    rw [← notMem_keys, hid]
    exact connect_free hloop hqueues
  · obtain ⟨port, hport, rfl⟩ := connect_first hloop hqueues
    rw [hport]
    constructor
    · intro hfree
      right
      intro port' hport'
      obtain rfl := Option.some.inj hport'
      exact hfree
    · rintro (hlt | hfree)
      · exact absurd hlt hqueues
      · exact hfree port rfl

/-- A table with one connection, from port 50000. -/
def oneConnection : Tcbs := insert ((Stack.newTcb {} ⟨1, 2, 50000, 80⟩).connect {} 0 ⟨100⟩) {}

/-- Port 50001 is free. -/
theorem connect_free_port : ∃ t',
    connect (.oneQueue 1) 0 {} 0 ⟨100⟩ {} 1 2 80 [50001] oneConnection = some (1, t') ∧
    Registered oneConnection t' 1 := by
  refine ⟨_, rfl, (connect_registered (.oneQueue 1) 0 {} 0 ⟨100⟩ {} 1 2 80 [50001] rfl).mpr
    (Or.inr fun port hport => ?_)⟩
  obtain rfl := Option.some.inj hport
  rfl

/-- Port 50000 is not: the new connection is not in the table, and when it ends it takes the entry
of the other one away. -/
theorem connect_collides : ∃ t',
    connect (.oneQueue 1) 0 {} 0 ⟨100⟩ {} 1 2 80 [50000] oneConnection = some (1, t') ∧
    ¬ Registered oneConnection t' 1 ∧ t'.tcbs.lookup ⟨1, 2, 50000, 80⟩ = some 0 ∧
    (t'.removeFromTcbs 1).tcbs.lookup ⟨1, 2, 50000, 80⟩ = none := by
  refine ⟨_, rfl, ?_, by decide, by decide⟩
  rintro ⟨tcb, htcb, -, hfree, -⟩
  obtain rfl := Option.some.inj htcb
  revert hfree
  decide

end Tcbs

end Seastar.Net.Tcp
