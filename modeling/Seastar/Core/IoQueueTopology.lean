import Seastar.Core.Resource

/-!
`allocate_io_queues` of `core/resource.cc`: the first processor of each set that `hwloc_distrib`
makes is a coordinator, and the other shards are assigned to the coordinators of their node in turn.
A node with shards and without a coordinator is looked up all the same.
-/

namespace Seastar.Resource

/-! ## `allocate_io_queues` -/

/-- `io_queue_topology`. -/
structure IoQueueTopology where
  shardToCoordinator : List Nat
  coordinators : List Nat
  deriving DecidableEq, Repr

/-- `node_of_shard`; it is asked for shards only. -/
def nodeOfShard (t : Topology) (cpus : List Cpu) (shard : Nat) : Nat :=
  (cpus[shard]?).elim 0 fun cpu => t.id (t.nodeOf cpu.cpuId)

/-- `find_shard`. -/
def findShard (cpus : List Cpu) (cpuId : Nat) : Except Fault Nat :=
  (cpus.findIdx? (·.cpuId = cpuId)).elim (.error .assertFailed) .ok

/-- `numa_nodes`: the nodes with their shards, as ascending lists. -/
abbrev NumaNodes := List (Nat × List Nat)

/-- A shard, larger than those before it, is added to its node. -/
def insertShard (node shard : Nat) : NumaNodes → NumaNodes
  | [] => [(node, [shard])]
  | (k, shards) :: nodes =>
    if k = node then (k, shards ++ [shard]) :: nodes else (k, shards) :: insertShard node shard nodes

def numaNodes (node : Nat → Nat) (n : Nat) : NumaNodes :=
  (List.range n).foldl (fun nodes shard => insertShard (node shard) shard nodes) []

/-- `num_io_queues`, adjusted to the shards. -/
def numIoQueues (ioQueues : Option UInt32) (cpus : List Cpu) : Nat :=
  min ((ioQueues.map (·.toNat)).getD cpus.length) cpus.length

/-- What the first step works on. -/
structure Placement where
  ret : IoQueueTopology
  nodeCoordinators : Nat → Option (List Nat)
  numaNodes : NumaNodes

/-- A coordinator, which is one of its own node and no remaining shard of it. -/
def placeCoordinator (node : Nat → Nat) (io : Nat) (s : Placement) : Placement where
  ret := {
    shardToCoordinator := s.ret.shardToCoordinator.set io io
    coordinators := s.ret.coordinators ++ [io] }
  nodeCoordinators := Function.update s.nodeCoordinators (node io)
    (some ((s.nodeCoordinators (node io)).getD [] ++ [io]))
  numaNodes := s.numaNodes.map fun (k, shards) =>
    (k, if k = node io then shards.erase io else shards)

/-- The first step, over the first processors of the sets. -/
def placeCoordinators (cpus : List Cpu) (node : Nat → Nat) :
    List Nat → Placement → Except Fault Placement
  | [], s => .ok s
  | cpuId :: cpuIds, s => do
    let io ← findShard cpus cpuId
    placeCoordinators cpus node cpuIds (placeCoordinator node io s)

/-- The remaining shards of a node are assigned to its coordinators in turn. -/
def assignShards (coordinators : Option (List Nat)) :
    Nat → List Nat → List Nat → Except Fault (List Nat)
  | _, [], ret => .ok ret
  | cidIdx, shard :: shards, ret =>
    match coordinators with
    | none => .error .outOfRange
    | some cs =>
      match cs[cidIdx % cs.length]? with
      | none => .error .divideByZero
      | some io => assignShards coordinators (cidIdx + 1) shards (ret.set shard io)

def assignNodes (nodeCoordinators : Nat → Option (List Nat)) :
    NumaNodes → List Nat → Except Fault (List Nat)
  | [], ret => .ok ret
  | (k, shards) :: nodes, ret => do
    let ret ← assignShards (nodeCoordinators k) 0 shards ret
    assignNodes nodeCoordinators nodes ret

/-- `allocate_io_queues`. `distrib` gives the first processor of each set, `order` is the order of
the elements of an `unordered_map`. -/
def allocateIoQueues (t : Topology) (ioQueues : Option UInt32) (cpus : List Cpu)
    (distrib : Nat → List Nat) (order : NumaNodes → NumaNodes) : Except Fault IoQueueTopology := do
  let node := nodeOfShard t cpus
  let s ← placeCoordinators cpus node (distrib (numIoQueues ioQueues cpus)) {
    ret := { shardToCoordinator := List.replicate cpus.length 0, coordinators := [] }
    nodeCoordinators := fun _ => none
    numaNodes := numaNodes node cpus.length }
  let assigned ← assignNodes s.nodeCoordinators (order s.numaNodes) s.ret.shardToCoordinator
  .ok { s.ret with shardToCoordinator := assigned }

/-! ## The shards of the nodes -/

variable {node : Nat → Nat} {n : Nat} {nodes : NumaNodes}

/-- The shards in the map are on the nodes that they are under, each once. -/
def OnNodes (node : Nat → Nat) (nodes : NumaNodes) : Prop :=
  ∀ e ∈ nodes, e.2.Nodup ∧ ∀ shard ∈ e.2, node shard = e.1

/-- The shards of all nodes. -/
def shardsOf (nodes : NumaNodes) : List Nat := nodes.flatMap Prod.snd

theorem mem_insertShard {k shard s : Nat} :
    s ∈ shardsOf (insertShard k shard nodes) ↔ s = shard ∨ s ∈ shardsOf nodes := by
  induction nodes with
  | nil => simp [insertShard, shardsOf]
  | cons e nodes ih =>
    obtain ⟨k', shards⟩ := e
    rw [insertShard]
    split
    · simp only [shardsOf, List.flatMap_cons, List.mem_append, List.mem_singleton]
      tauto
    · simp only [shardsOf, List.flatMap_cons, List.mem_append] at ih ⊢
      tauto

theorem OnNodes.insertShard {shard : Nat} (h : OnNodes node nodes) (hnew : shard ∉ shardsOf nodes) :
    OnNodes node (insertShard (node shard) shard nodes) := by
  induction nodes with
  | nil =>
    intro e he
    obtain rfl := List.mem_singleton.mp he
    simp
  | cons e nodes ih =>
    obtain ⟨k, shards⟩ := e
    simp only [shardsOf, List.flatMap_cons, List.mem_append, not_or] at hnew
    have hhead := h (k, shards) List.mem_cons_self
    have htail : OnNodes node nodes := fun e he => h e (List.mem_cons_of_mem _ he)
    rw [Resource.insertShard]
    split
    · rename_i hk
      intro e he
      rcases List.mem_cons.mp he with rfl | he
      · constructor
        · rw [List.nodup_append]
          simp only [List.nodup_cons, List.not_mem_nil, not_false_eq_true, List.nodup_nil,
            and_self, List.mem_singleton]
          refine ⟨hhead.1, trivial, ?_⟩
          rintro a ha b rfl rfl
          exact hnew.1 ha
        · intro s hs
          rcases List.mem_append.mp hs with h | h
          · exact hhead.2 s h
          · rw [List.mem_singleton.mp h, hk]
      · exact htail e he
    · intro e he
      rcases List.mem_cons.mp he with rfl | he
      · exact hhead
      · exact ih htail hnew.2 e he

theorem numaNodes_spec (node : Nat → Nat) (n : Nat) :
    OnNodes node (numaNodes node n) ∧ ∀ s, s ∈ shardsOf (numaNodes node n) ↔ s < n := by
  induction n with
  | zero =>
    constructor
    · intro e he
      cases he
    · simp [numaNodes, shardsOf]
  | succ n ih =>
    have hstep : numaNodes node (n + 1) = insertShard (node n) n (numaNodes node n) := by
      simp [numaNodes, List.range_succ]
    rw [hstep]
    constructor
    · exact ih.1.insertShard fun h => Nat.lt_irrefl n ((ih.2 n).mp h)
    · intro s
      rw [mem_insertShard, ih.2]
      omega

/-! ## The coordinators -/

/-- `io` is no longer among the remaining shards. -/
theorem mem_shardsOf_erase (h : OnNodes node nodes) (io s : Nat) :
    s ∈ shardsOf (nodes.map fun (k, shards) => (k, if k = node io then shards.erase io else shards)) ↔
      s ∈ shardsOf nodes ∧ s ≠ io := by
  induction nodes with
  | nil => simp [shardsOf]
  | cons e nodes ih =>
    obtain ⟨k, shards⟩ := e
    have hhead := h (k, shards) List.mem_cons_self
    have ih := ih fun e he => h e (List.mem_cons_of_mem _ he)
    simp only [shardsOf, List.map_cons, List.flatMap_cons, List.mem_append] at ih ⊢
    rw [ih]
    split
    · rw [hhead.1.mem_erase_iff]
      tauto
    · rename_i hk
      have hne : s ∈ shards → s ≠ io := by
        rintro hs rfl
        exact hk (hhead.2 s hs).symm
      tauto

theorem OnNodes.erase (h : OnNodes node nodes) (io : Nat) : OnNodes node
    (nodes.map fun (k, shards) => (k, if k = node io then shards.erase io else shards)) := by
  intro e he
  obtain ⟨⟨k, shards⟩, hmem, rfl⟩ := List.mem_map.mp he
  have hold := h (k, shards) hmem
  dsimp only
  split
  · exact ⟨hold.1.erase io, fun s hs => hold.2 s (List.mem_of_mem_erase hs)⟩
  · exact hold

/-- The first step after the coordinators `ios`. -/
structure Placed (node : Nat → Nat) (n : Nat) (ios : List Nat) (s : Placement) : Prop where
  coordinators : s.ret.coordinators = ios
  length : s.ret.shardToCoordinator.length = n
  self : ∀ io ∈ ios, io < n ∧ s.ret.shardToCoordinator[io]? = some io
  known : ∀ k cs, s.nodeCoordinators k = some cs →
    cs ≠ [] ∧ ∀ io ∈ cs, io ∈ ios ∧ node io = k
  complete : ∀ io ∈ ios, ∃ cs, s.nodeCoordinators (node io) = some cs
  onNodes : OnNodes node s.numaNodes
  remaining : ∀ shard, shard ∈ shardsOf s.numaNodes ↔ shard < n ∧ shard ∉ ios

variable {ios : List Nat} {s : Placement} {io : Nat}

theorem Placed.place (h : Placed node n ios s) (hio : io < n) :
    Placed node n (ios ++ [io]) (placeCoordinator node io s) where
  coordinators := by rw [placeCoordinator, h.coordinators]
  length := by rw [placeCoordinator, List.length_set, h.length]
  self j hj := by
    have hlen : io < s.ret.shardToCoordinator.length := by rwa [h.length]
    rw [placeCoordinator]
    dsimp only
    by_cases heq : io = j
    · subst heq
      exact ⟨hio, List.getElem?_set_self hlen⟩
    · rcases List.mem_append.mp hj with hj | hj
      · rw [List.getElem?_set_ne heq]
        exact h.self j hj
      · exact absurd (List.mem_singleton.mp hj).symm heq
  known k cs hcs := by
    have hsub : ∀ c, c ∈ ios ∧ node c = k → c ∈ ios ++ [io] ∧ node c = k :=
      fun c hc => ⟨List.mem_append_left _ hc.1, hc.2⟩
    rw [placeCoordinator] at hcs
    dsimp only at hcs
    by_cases hk : k = node io
    · subst hk
      rw [Function.update_self] at hcs
      obtain rfl := Option.some.inj hcs
      refine ⟨by simp, fun c hc => ?_⟩
      rcases List.mem_append.mp hc with hc | hc
      · cases hold : s.nodeCoordinators (node io) with
        | none =>
          rw [hold] at hc
          cases hc
        | some old =>
          rw [hold] at hc
          exact hsub c ((h.known _ _ hold).2 c hc)
      · rw [List.mem_singleton.mp hc]
        exact ⟨List.mem_append_right _ (List.mem_singleton.mpr rfl), rfl⟩
    · rw [Function.update_of_ne hk] at hcs
      exact ⟨(h.known k cs hcs).1, fun c hc => hsub c ((h.known k cs hcs).2 c hc)⟩
  complete j hj := by
    rw [placeCoordinator]
    dsimp only
    by_cases hk : node j = node io
    · rw [hk, Function.update_self]
      exact ⟨_, rfl⟩
    · rw [Function.update_of_ne hk]
      rcases List.mem_append.mp hj with hj | hj
      · exact h.complete j hj
      · rw [List.mem_singleton.mp hj] at hk
        exact absurd rfl hk
  onNodes := h.onNodes.erase io
  remaining shard := by
    rw [placeCoordinator]
    dsimp only
    rw [mem_shardsOf_erase h.onNodes, h.remaining, List.mem_append, List.mem_singleton]
    tauto

theorem findShard_ok {t : Topology} {cpus : List Cpu} {cpuId : Nat}
    (h : ∃ cpu ∈ cpus, cpu.cpuId = cpuId) : ∃ io, findShard cpus cpuId = .ok io ∧
      io < cpus.length ∧ nodeOfShard t cpus io = t.id (t.nodeOf cpuId) := by
  obtain ⟨cpu, hmem, hcpu⟩ := h
  cases hfind : cpus.findIdx? (·.cpuId = cpuId) with
  | none =>
    rw [List.findIdx?_eq_none_iff] at hfind
    have := hfind cpu hmem
    simp [hcpu] at this
  | some io =>
    obtain ⟨hlt, hid, -⟩ := List.findIdx?_eq_some_iff_getElem.mp hfind
    refine ⟨io, by rw [findShard, hfind]; rfl, hlt, ?_⟩
    rw [nodeOfShard, List.getElem?_eq_getElem hlt, Option.elim_some, of_decide_eq_true hid]

/-- The nodes of the first processors are the nodes with coordinators. -/
theorem placeCoordinators_ok {t : Topology} {cpus : List Cpu} {cpuIds : List Nat}
    (hs : Placed (nodeOfShard t cpus) cpus.length ios s)
    (hmem : ∀ cpuId ∈ cpuIds, ∃ cpu ∈ cpus, cpu.cpuId = cpuId) :
    ∃ ios' s', placeCoordinators cpus (nodeOfShard t cpus) cpuIds s = .ok s' ∧
      Placed (nodeOfShard t cpus) cpus.length (ios ++ ios') s' ∧
      ∀ k, (∃ io ∈ ios', nodeOfShard t cpus io = k) ↔
        ∃ cpuId ∈ cpuIds, t.id (t.nodeOf cpuId) = k := by
  induction cpuIds generalizing ios s with
  | nil => exact ⟨[], s, rfl, by rwa [List.append_nil], by simp⟩
  | cons cpuId cpuIds ih =>
    obtain ⟨io, hfind, hlt, hnode⟩ := findShard_ok (t := t) (hmem cpuId List.mem_cons_self)
    obtain ⟨ios', s', hplace, hs', hnodes⟩ :=
      ih (hs.place hlt) fun c hc => hmem c (List.mem_cons_of_mem _ hc)
    refine ⟨io :: ios', s', ?_, ?_, fun k => ?_⟩
    · rw [placeCoordinators, hfind]
      exact hplace
    · rwa [List.append_assoc] at hs'
    · simp [hnodes, hnode]

/-! ## The remaining shards -/

variable {nodeCoordinators : Nat → Option (List Nat)} {cs shards ret ret' : List Nat}

theorem assignShards_ok (hcs : cs ≠ []) (cidIdx : Nat) (shards ret : List Nat) :
    ∃ ret', assignShards (some cs) cidIdx shards ret = .ok ret' ∧ ret'.length = ret.length ∧
      (∀ j, j ∉ shards → ret'[j]? = ret[j]?) ∧
      ∀ j ∈ shards, j < ret.length → ∃ io ∈ cs, ret'[j]? = some io := by
  induction shards generalizing cidIdx ret with
  | nil => exact ⟨ret, rfl, rfl, fun _ _ => rfl, fun j hj => by cases hj⟩
  | cons shard shards ih =>
    have hlt : cidIdx % cs.length < cs.length := Nat.mod_lt _ (List.length_pos_iff.mpr hcs)
    obtain ⟨ret', hok, hlen, hkept, hset⟩ :=
      ih (cidIdx + 1) (ret.set shard cs[cidIdx % cs.length])
    rw [List.length_set] at hlen
    refine ⟨ret', ?_, hlen, fun j hj => ?_, fun j hj hjlt => ?_⟩
    · rw [assignShards, List.getElem?_eq_getElem hlt]
      exact hok
    · rw [List.mem_cons, not_or] at hj
      rw [hkept j hj.2, List.getElem?_set_ne (Ne.symm hj.1)]
    · by_cases hlater : j ∈ shards
      · exact hset j hlater (by rwa [List.length_set])
      · obtain rfl : j = shard := (List.mem_cons.mp hj).resolve_right hlater
        refine ⟨_, List.getElem_mem hlt, ?_⟩
        rw [hkept j hlater, List.getElem?_set_self hjlt]

/-- Where every node with remaining shards has coordinators, each of the shards gets one of them. -/
theorem assignNodes_ok (hne : ∀ k cs, nodeCoordinators k = some cs → cs ≠ []) (nodes : NumaNodes)
    (ret : List Nat) (h : ∀ e ∈ nodes, e.2 ≠ [] → ∃ cs, nodeCoordinators e.1 = some cs) :
    ∃ ret', assignNodes nodeCoordinators nodes ret = .ok ret' ∧ ret'.length = ret.length ∧
      (∀ j, j ∉ shardsOf nodes → ret'[j]? = ret[j]?) ∧
      ∀ j ∈ shardsOf nodes, j < ret.length → ∃ e ∈ nodes, j ∈ e.2 ∧
        ∃ cs, nodeCoordinators e.1 = some cs ∧ ∃ io ∈ cs, ret'[j]? = some io := by
  induction nodes generalizing ret with
  | nil => exact ⟨ret, rfl, rfl, fun _ _ => rfl, fun j hj => by cases hj⟩
  | cons e nodes ih =>
    obtain ⟨k, shards⟩ := e
    have htail : ∀ e ∈ nodes, e.2 ≠ [] → ∃ cs, nodeCoordinators e.1 = some cs :=
      fun e he => h e (List.mem_cons_of_mem _ he)
    have hmem (j : Nat) : j ∈ shardsOf ((k, shards) :: nodes) ↔ j ∈ shards ∨ j ∈ shardsOf nodes := by
      simp [shardsOf]
    by_cases hshards : shards = []
    · subst hshards
      obtain ⟨ret', hok, hlen, hkept, hset⟩ := ih ret htail
      refine ⟨ret', ?_, hlen, fun j hj => ?_, fun j hj hjlt => ?_⟩
      · rw [assignNodes, assignShards]
        exact hok
      · exact hkept j fun hin => hj ((hmem j).mpr (Or.inr hin))
      · rcases (hmem j).mp hj with hin | hin
        · cases hin
        · obtain ⟨e, he, hje, hcs⟩ := hset j hin hjlt
          exact ⟨e, List.mem_cons_of_mem _ he, hje, hcs⟩
    · obtain ⟨cs, hcs⟩ := h (k, shards) List.mem_cons_self hshards
      obtain ⟨ret₁, hok₁, hlen₁, hkept₁, hset₁⟩ := assignShards_ok (hne k cs hcs) 0 shards ret
      obtain ⟨ret', hok, hlen, hkept, hset⟩ := ih ret₁ htail
      refine ⟨ret', ?_, hlen.trans hlen₁, fun j hj => ?_, fun j hj hjlt => ?_⟩
      · rw [assignNodes, hcs, hok₁]
        exact hok
      · rw [hmem, not_or] at hj
        rw [hkept j hj.2, hkept₁ j hj.1]
      · by_cases hin : j ∈ shardsOf nodes
        · obtain ⟨e, he, hje, hfound⟩ := hset j hin (by rwa [hlen₁])
          exact ⟨e, List.mem_cons_of_mem _ he, hje, hfound⟩
        · have hj' := ((hmem j).mp hj).resolve_right hin
          obtain ⟨io, hio, hget⟩ := hset₁ j hj' hjlt
          exact ⟨_, List.mem_cons_self, hj', cs, hcs, io, hio, by rw [hkept j hin, hget]⟩

/-- Where no exception is thrown, every node with remaining shards has coordinators. -/
theorem assignNodes_covered (h : assignNodes nodeCoordinators nodes ret = .ok ret') :
    ∀ e ∈ nodes, e.2 ≠ [] → ∃ cs, nodeCoordinators e.1 = some cs := by
  induction nodes generalizing ret with
  | nil =>
    intro e he
    cases he
  | cons e nodes ih =>
    rw [assignNodes] at h
    obtain ⟨ret₁, hfirst, hrest⟩ := Lib.bind_ok.mp h
    intro e' he' hne
    rcases List.mem_cons.mp he' with rfl | he'
    · cases hcs : nodeCoordinators e'.1 with
      | some cs => exact ⟨cs, rfl⟩
      | none =>
        obtain ⟨k, shards⟩ := e'
        cases shards with
        | nil => exact absurd rfl hne
        | cons shard shards =>
          dsimp only at hcs
          rw [hcs, assignShards] at hfirst
          cases hfirst
    · exact ih hrest e' he' hne

/-! ## Soundness -/

/-- Every shard has a coordinator from the list, one of its own node if that has any, and the
coordinators coordinate themselves. -/
structure Coordinated (t : Topology) (cpus : List Cpu) (r : IoQueueTopology) : Prop where
  length : r.shardToCoordinator.length = cpus.length
  shards : ∀ shard < cpus.length, ∃ io ∈ r.coordinators, r.shardToCoordinator[shard]? = some io ∧
    ((∃ c ∈ r.coordinators, nodeOfShard t cpus c = nodeOfShard t cpus shard) →
      nodeOfShard t cpus io = nodeOfShard t cpus shard)
  self : ∀ io ∈ r.coordinators, io < cpus.length ∧ r.shardToCoordinator[io]? = some io

/-- For every topology, all shards in it, every number of queues, every distribution to processors
of the shards and every order of the map: an assignment is returned, and a sound one, exactly if
every node with a shard has the first processor of a set. -/
theorem allocate_io_queues_iff (t : Topology) (ioQueues : Option UInt32) (cpus : List Cpu)
    (distrib : Nat → List Nat) (order : NumaNodes → NumaNodes)
    (hdistrib : ∀ cpuId ∈ distrib (numIoQueues ioQueues cpus), ∃ cpu ∈ cpus, cpu.cpuId = cpuId)
    (horder : ∀ nodes, (order nodes).Perm nodes) :
    (∃ r, allocateIoQueues t ioQueues cpus distrib order = .ok r ∧ Coordinated t cpus r) ↔
      ∀ shard < cpus.length, ∃ cpuId ∈ distrib (numIoQueues ioQueues cpus),
        t.id (t.nodeOf cpuId) = nodeOfShard t cpus shard := by
  have hstart : Placed (nodeOfShard t cpus) cpus.length [] {
      ret := { shardToCoordinator := List.replicate cpus.length 0, coordinators := [] }
      nodeCoordinators := fun _ => none
      numaNodes := numaNodes (nodeOfShard t cpus) cpus.length } := by
    obtain ⟨hon, hmem⟩ := numaNodes_spec (nodeOfShard t cpus) cpus.length
    constructor
    · rfl
    · exact List.length_replicate
    · intro io hio
      cases hio
    · intro k cs hcs
      cases hcs
    · intro io hio
      cases hio
    · exact hon
    · intro shard
      rw [hmem]
      simp
  obtain ⟨ios, s, hplace, hs, hnodes⟩ := placeCoordinators_ok hstart hdistrib
  rw [List.nil_append] at hs
  have hrun : allocateIoQueues t ioQueues cpus distrib order =
      (assignNodes s.nodeCoordinators (order s.numaNodes) s.ret.shardToCoordinator >>= fun a =>
        .ok { s.ret with shardToCoordinator := a }) := by
    rw [allocateIoQueues, hplace]
    rfl
  have hperm := horder s.numaNodes
  have hshards (j : Nat) : j ∈ shardsOf (order s.numaNodes) ↔ j < cpus.length ∧ j ∉ ios := by
    rw [← hs.remaining, shardsOf, shardsOf, (hperm.flatMap_right _).mem_iff]
  have hon : OnNodes (nodeOfShard t cpus) (order s.numaNodes) :=
    fun e he => hs.onNodes e (hperm.mem_iff.mp he)
  rw [hrun]
  constructor
  · rintro ⟨r, hr, -⟩ shard hshard
    obtain ⟨a, hassign, -⟩ := Lib.bind_ok.mp hr
    rw [← hnodes]
    by_cases hio : shard ∈ ios
    · exact ⟨shard, hio, rfl⟩
    · obtain ⟨e, he, hmem⟩ := List.mem_flatMap.mp ((hshards shard).mpr ⟨hshard, hio⟩)
      obtain ⟨cs, hcs⟩ := assignNodes_covered hassign e he (List.ne_nil_of_mem hmem)
      obtain ⟨hne, hknown⟩ := hs.known _ cs hcs
      obtain ⟨io, hin⟩ := List.exists_mem_of_ne_nil cs hne
      exact ⟨io, (hknown io hin).1, by rw [(hknown io hin).2, (hon e he).2 shard hmem]⟩
  · intro hcovered
    have hhave : ∀ e ∈ order s.numaNodes, e.2 ≠ [] → ∃ cs, s.nodeCoordinators e.1 = some cs := by
      intro e he hne
      obtain ⟨shard, hin⟩ := List.exists_mem_of_ne_nil e.2 hne
      obtain ⟨hlt, -⟩ := (hshards shard).mp (List.mem_flatMap.mpr ⟨e, he, hin⟩)
      obtain ⟨io, hio, hnode⟩ := (hnodes _).mpr (hcovered shard hlt)
      rw [← (hon e he).2 shard hin, ← hnode]
      exact hs.complete io hio
    obtain ⟨a, hassign, hlen, hkept, hset⟩ := assignNodes_ok (fun k cs hcs => (hs.known k cs hcs).1)
      (order s.numaNodes) s.ret.shardToCoordinator hhave
    have hself : ∀ io ∈ ios, io < cpus.length ∧ a[io]? = some io := by
      intro io hio
      refine ⟨(hs.self io hio).1, ?_⟩
      rw [hkept io fun h => ((hshards io).mp h).2 hio, (hs.self io hio).2]
    refine ⟨{ s.ret with shardToCoordinator := a }, by rw [hassign]; rfl, hlen.trans hs.length, ?_, ?_⟩
    · intro shard hshard
      rw [hs.coordinators]
      dsimp only
      by_cases hio : shard ∈ ios
      · exact ⟨shard, hio, (hself shard hio).2, fun _ => rfl⟩
      · obtain ⟨e, he, hmem, cs, hcs, io, hin, hget⟩ :=
          hset shard ((hshards shard).mpr ⟨hshard, hio⟩) (by rwa [hs.length])
        obtain ⟨hios, hnode⟩ := (hs.known _ cs hcs).2 io hin
        exact ⟨io, hios, hget, fun _ => by rw [hnode, (hon e he).2 shard hmem]⟩
    · intro io hio
      rw [hs.coordinators] at hio
      exact hself io hio

/-- Six shards on three nodes, with a queue for each node. -/
theorem allocate_io_queues_three : ∃ r,
    allocateIoQueues threeNodes (some 3) ((List.range 6).map (Cpu.mk · [])) List.range id = .ok r ∧
      Coordinated threeNodes ((List.range 6).map (Cpu.mk · [])) r :=
  (allocate_io_queues_iff threeNodes (some 3) ((List.range 6).map (Cpu.mk · [])) List.range id
    (by decide) (fun _ => .rfl)).mpr (by decide)

/-- One queue for three nodes: the second node has no coordinators. -/
theorem allocate_io_queues_one :
    ¬∀ (t : Topology) (ioQueues : Option UInt32) (cpus : List Cpu) (distrib : Nat → List Nat)
      (order : NumaNodes → NumaNodes), ioQueues ≠ some 0 →
      (distrib (numIoQueues ioQueues cpus)).length = numIoQueues ioQueues cpus →
      (distrib (numIoQueues ioQueues cpus)).Nodup →
      (∀ cpuId ∈ distrib (numIoQueues ioQueues cpus), ∃ cpu ∈ cpus, cpu.cpuId = cpuId) →
      (∀ nodes, (order nodes).Perm nodes) →
      ∃ r, allocateIoQueues t ioQueues cpus distrib order = .ok r ∧ Coordinated t cpus r := by
  intro h
  obtain ⟨r, hr, -⟩ := h threeNodes (some 1) ((List.range 3).map (Cpu.mk · [])) List.range id
    (by decide) (by decide) (by decide) (by decide) (fun _ => .rfl)
  have hthrows : allocateIoQueues threeNodes (some 1) ((List.range 3).map (Cpu.mk · []))
      List.range id = .error .outOfRange := by decide +kernel
  rw [hthrows] at hr
  cases hr

end Seastar.Resource
