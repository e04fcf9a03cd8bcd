import Mathlib.Algebra.BigOperators.Fin
import Mathlib.Algebra.Order.BigOperators.Group.Finset
import Mathlib.Data.Nat.ModEq
import Seastar.Core.Align
import Seastar.Core.Fault

/-!
How `core/resource.cc` divides the memory of the machine between the shards: every shard takes what
it can from its own node, then what is missing from the nodes that follow on the ring. `hwloc` is
the topology: the nodes in the order of `hwloc_get_next_obj_by_depth`, the node of each processing
unit, and the first unit of each of the sets that `hwloc_distrib` makes.
-/

namespace Seastar.Resource

/-! ## `resource::allocate` -/

/-- A memory node, with the first bit of its node set. -/
structure Node where
  localMemory : UInt64
  id : Nat
  deriving DecidableEq, Repr

structure Topology where
  nodes : List Node
  /-- the node above the processing unit with an operating system index -/
  nodeOf : Nat → Fin nodes.length
  processingUnits : UInt32
  totalMemory : UInt64
  total_eq : totalMemory.toNat = (nodes.map fun n => n.localMemory.toNat).sum
  ids_nodup : (nodes.map Node.id).Nodup

/-- The part of `configuration` that the memory depends on. -/
structure Configuration where
  totalMemory : Option UInt64 := none
  reserveMemory : Option UInt64 := none
  cpus : Option UInt64 := none
  deriving DecidableEq, Repr

/-- `memory`. -/
structure Memory where
  bytes : UInt64
  nodeid : Nat
  deriving DecidableEq, Repr

/-- `cpu`. -/
structure Cpu where
  cpuId : Nat
  mem : List Memory := []
  deriving DecidableEq, Repr

/-- The errors of `allocate`: its two `std::runtime_error`s, and what is undefined or aborts. -/
inductive Failure
  | insufficientMemory (needed available : UInt64)
  | insufficientProcessingUnits
  | fault (f : Fault)
  deriving DecidableEq, Repr

@[irreducible] def minMemory : UInt64 := 500000000

/-- `calculate_memory`. `defaultReserve` is the reserve for so much memory that the configuration
does not say, computed in floating point. -/
def calculateMemory (c : Configuration) (defaultReserve : UInt64 → UInt64)
    (availableMemory : UInt64) : Except Failure UInt64 :=
  let reserve := c.reserveMemory.getD (defaultReserve availableMemory)
  let availableMemory :=
    if availableMemory ≥ reserve + minMemory then availableMemory - reserve else minMemory
  let mem := c.totalMemory.getD availableMemory
  if mem > availableMemory then .error (.insufficientMemory mem availableMemory) else .ok mem

/-- `unsigned procs`. -/
def procs (t : Topology) (c : Configuration) : UInt32 :=
  (c.cpus.map (·.toUInt32)).getD t.processingUnits

/-- `mem_per_proc`. -/
def memPerProc (mem : UInt64) (procs : UInt32) : UInt64 :=
  alignDown (mem / procs.toUInt64) ((2 : UInt64) <<< 20)

namespace Topology

variable (t : Topology)

/-- A place in the ring of nodes. -/
abbrev Place := Fin t.nodes.length

/-- `topo_used_mem`. -/
abbrev Used := t.Place → UInt64

/-- `hwloc_get_next_obj_by_depth`, asked again behind the last node. -/
def next (i : t.Place) : t.Place :=
  ⟨(i.val + 1) % t.nodes.length, Nat.mod_lt _ (Nat.zero_lt_of_lt i.isLt)⟩

/-- `alloc_from_node`. -/
def allocFromNode (cpu : Cpu) (node : t.Place) (used : t.Used) (alloc : UInt64) :
    UInt64 × Cpu × t.Used :=
  let taken := min ((t.nodes.get node).localMemory - used node) alloc
  if taken ≠ 0 then
    (taken, { cpu with mem := cpu.mem ++ [⟨taken, (t.nodes.get node).id⟩] },
      Function.update used node (used node + taken))
  else (taken, cpu, used)

/-- The first loop: local memory. -/
def divideLocal (memPerProc : UInt64) : List Nat → t.Used → List (Cpu × UInt64) × t.Used
  | [], used => ([], used)
  | cpuId :: cpuIds, used =>
    let (taken, cpu, used) := t.allocFromNode { cpuId } (t.nodeOf cpuId) used memPerProc
    let (remains, used) := divideLocal memPerProc cpuIds used
    ((cpu, memPerProc - taken) :: remains, used)

/-- The `while (remain)` loop; `none` when it has more rounds than it is given. -/
def walk (node : t.Place) : Nat → t.Place → Cpu → UInt64 → t.Used → Option (Cpu × UInt64 × t.Used)
  | rounds, obj, cpu, remain, used =>
    if remain = 0 then some (cpu, remain, used) else
    match rounds with
    | 0 => none
    | rounds + 1 =>
      let (taken, cpu, used) := t.allocFromNode cpu obj used remain
      if t.next obj = node then some (cpu, remain - taken, used)
      else walk node rounds (t.next obj) cpu (remain - taken) used

/-- The second loop: the rest of the memory. -/
def divideRest : List (Cpu × UInt64) → t.Used → Except Failure (Option (List Cpu))
  | [], _ => .ok (some [])
  | (cpu, remain) :: remains, used =>
    let node := t.nodeOf cpu.cpuId
    match t.walk node t.nodes.length node cpu remain used with
    | none => .ok none
    | some (cpu, remain, used) =>
      if remain ≠ 0 then .error (.fault .assertFailed)
      else (divideRest remains used).map (·.map (cpu :: ·))

end Topology

/-- `allocate`, as far as the memory; `distrib` gives the first unit of each set. -/
def allocate (t : Topology) (c : Configuration) (defaultReserve : UInt64 → UInt64)
    (distrib : Nat → List Nat) : Except Failure (Option (List Cpu)) := do
  let mem ← calculateMemory c defaultReserve t.totalMemory
  let procs := procs t c
  if procs > t.processingUnits then .error .insufficientProcessingUnits
  else if procs = 0 then .error (.fault .divideByZero)
  else
    let (remains, used) :=
      t.divideLocal (memPerProc mem procs) (distrib procs.toNat) fun _ => 0
    t.divideRest remains used

/-! ## What is taken -/

namespace Cpu

/-- The bytes of a shard. -/
def total (cpu : Cpu) : Nat := (cpu.mem.map fun m => m.bytes.toNat).sum

/-- Its bytes that are from a node. -/
def ofNode (cpu : Cpu) (id : Nat) : Nat :=
  ((cpu.mem.filter fun m => m.nodeid = id).map fun m => m.bytes.toNat).sum

theorem total_concat (cpu : Cpu) (m : Memory) :
    { cpu with mem := cpu.mem ++ [m] }.total = cpu.total + m.bytes.toNat := by
  simp [total]

theorem ofNode_concat (cpu : Cpu) (m : Memory) (id : Nat) :
    { cpu with mem := cpu.mem ++ [m] }.ofNode id =
      cpu.ofNode id + if m.nodeid = id then m.bytes.toNat else 0 := by
  by_cases h : m.nodeid = id
  · simp [ofNode, h]
  · simp [ofNode, h]

end Cpu

namespace Topology

variable {t : Topology} {cpu cpu' cpu'' : Cpu} {used used' used'' : t.Used} {n m : Nat}

/-- The bytes of a node. -/
def size (t : Topology) (i : t.Place) : Nat := (t.nodes.get i).localMemory.toNat

def id (t : Topology) (i : t.Place) : Nat := (t.nodes.get i).id

/-- No node gives more than it has. -/
def Bounded (used : t.Used) : Prop := ∀ i, (used i).toNat ≤ t.size i

/-- All that the nodes gave. -/
def allUsed (used : t.Used) : Nat := ∑ i, (used i).toNat

/-- A shard takes `n` bytes, and the nodes count what it takes of each. -/
structure Takes (cpu : Cpu) (used : t.Used) (n : Nat) (cpu' : Cpu) (used' : t.Used) : Prop where
  bounded : t.Bounded used'
  cpuId : cpu'.cpuId = cpu.cpuId
  total : cpu'.total = cpu.total + n
  allUsed : t.allUsed used' = t.allUsed used + n
  ofNode : ∀ i, (used' i).toNat + cpu.ofNode (t.id i) = (used i).toNat + cpu'.ofNode (t.id i)
  mono : ∀ i, (used i).toNat ≤ (used' i).toNat

theorem Takes.nothing (hb : t.Bounded used) : t.Takes cpu used 0 cpu used :=
  ⟨hb, rfl, rfl, rfl, fun _ => rfl, fun _ => Nat.le_refl _⟩

theorem Takes.trans (h : t.Takes cpu used n cpu' used') (h' : t.Takes cpu' used' m cpu'' used'') :
    t.Takes cpu used (n + m) cpu'' used'' where
  bounded := h'.bounded
  cpuId := h'.cpuId.trans h.cpuId
  total := by rw [h'.total, h.total, Nat.add_assoc]
  allUsed := by rw [h'.allUsed, h.allUsed, Nat.add_assoc]
  ofNode i := by
    have h₁ := h.ofNode i
    have h₂ := h'.ofNode i
    omega
  mono i := Nat.le_trans (h.mono i) (h'.mono i)

theorem id_inj {i j : t.Place} (h : t.id i = t.id j) : i = j := by
  have hi : i.val < (t.nodes.map Node.id).length := by
    rw [List.length_map]
    exact i.isLt
  have hj : j.val < (t.nodes.map Node.id).length := by
    rw [List.length_map]
    exact j.isLt
  have hget : (t.nodes.map Node.id)[i.val] = (t.nodes.map Node.id)[j.val] := by
    rw [List.getElem_map, List.getElem_map]
    exact h
  exact Fin.ext (t.ids_nodup.getElem_inj_iff.mp hget)

theorem toNat_min (a b : UInt64) : (min a b).toNat = min a.toNat b.toNat := by
  change (if a ≤ b then a else b).toNat = _
  split
  · rename_i h
    rw [Nat.min_eq_left (UInt64.le_iff_toNat_le.mp h)]
  · rename_i h
    rw [Nat.min_eq_right (Nat.le_of_not_le fun hle => h (UInt64.le_iff_toNat_le.mpr hle))]

/-- A node gives what is asked for or all it has. -/
theorem allocFromNode_takes (cpu : Cpu) (node : t.Place) (alloc : UInt64) (hb : t.Bounded used) :
    ∃ taken cpu' used', t.allocFromNode cpu node used alloc = (taken, cpu', used') ∧
      t.Takes cpu used taken.toNat cpu' used' ∧ taken.toNat ≤ alloc.toNat ∧
      (taken = alloc ∨ (used' node).toNat = t.size node) := by
  have hfree : ((t.nodes.get node).localMemory - used node).toNat =
      t.size node - (used node).toNat := by
    rw [UInt64.toNat_sub_of_le _ _ (UInt64.le_iff_toNat_le.mpr (hb node))]
    rfl
  have hlt := (t.nodes.get node).localMemory.toNat_lt
  have hnode : (used node).toNat ≤ (t.nodes.get node).localMemory.toNat := hb node
  rw [allocFromNode]
  generalize htaken : min ((t.nodes.get node).localMemory - used node) alloc = taken
  have hmin : taken.toNat = min (t.size node - (used node).toNat) alloc.toNat := by
    rw [← htaken, ← hfree, toNat_min]
  have hdone : taken = alloc ∨ (used node).toNat + taken.toNat = t.size node := by
    rcases Nat.le_total (t.size node - (used node).toNat) alloc.toNat with h | h
    · right
      rw [hmin, Nat.min_eq_left h]
      exact Nat.add_sub_cancel' hnode
    · left
      apply UInt64.toNat_inj.mp
      rw [hmin, Nat.min_eq_right h]
  by_cases hzero : taken ≠ 0
  · rw [if_pos hzero]
    have hsum : (used node + taken).toNat = (used node).toNat + taken.toNat := by
      rw [UInt64.toNat_add, Nat.mod_eq_of_lt]
      have hle : taken.toNat ≤ t.size node - (used node).toNat := by omega
      rw [size] at hle
      omega
    have hused : ∀ i, (Function.update used node (used node + taken) i).toNat =
        (used i).toNat + if i = node then taken.toNat else 0 := by
      intro i
      by_cases hi : i = node
      · subst hi
        rw [Function.update_self, hsum, if_pos rfl]
      · rw [Function.update_of_ne hi, if_neg hi, Nat.add_zero]
    refine ⟨taken, _, _, rfl, ⟨?_, rfl, ?_, ?_, ?_, ?_⟩, by omega, ?_⟩
    · intro i
      rw [hused]
      split
      · rename_i hi
        subst hi
        rcases hdone with h | h
        · rw [hmin]
          have := hb i
          omega
        · exact Nat.le_of_eq h
      · exact hb i
    · exact cpu.total_concat _
    · rw [allUsed, Finset.sum_congr rfl fun i _ => hused i, Finset.sum_add_distrib]
      simp [allUsed]
    · intro i
      rw [hused, cpu.ofNode_concat]
      dsimp only
      by_cases hi : i = node
      · subst hi
        rw [if_pos rfl, if_pos (by rfl)]
        omega
      · have hid : (t.nodes.get node).id ≠ t.id i := fun h => hi (id_inj h).symm
        rw [if_neg hi, if_neg hid]
        omega
    · intro i
      rw [hused]
      exact Nat.le_add_right _ _
    · rcases hdone with h | h
      · exact Or.inl h
      · right
        rw [hused, if_pos rfl]
        exact h
  · obtain rfl : taken = 0 := not_not.mp hzero
    rw [if_neg hzero]
    refine ⟨0, cpu, used, rfl, Takes.nothing hb, Nat.zero_le _, ?_⟩
    rcases hdone with h | h
    · exact Or.inl h
    · exact Or.inr h

/-! ## The ring -/

/-- The node that is `k` places further. -/
def after (i : t.Place) (k : Nat) : t.Place :=
  ⟨(i.val + k) % t.nodes.length, Nat.mod_lt _ (Nat.zero_lt_of_lt i.isLt)⟩

theorem after_zero (i : t.Place) : after i 0 = i :=
  Fin.ext (Nat.mod_eq_of_lt i.isLt)

theorem after_next (i : t.Place) (k : Nat) : after (t.next i) k = after i (k + 1) := by
  apply Fin.ext
  simp only [after, next, Nat.mod_add_mod]
  congr 1
  omega

/-- One round leads from a node to every other one. -/
theorem exists_after (i j : t.Place) : ∃ k < t.nodes.length, after i k = j := by
  have hpos := Nat.zero_lt_of_lt i.isLt
  refine ⟨(j.val + (t.nodes.length - i.val)) % t.nodes.length, Nat.mod_lt _ hpos, ?_⟩
  apply Fin.ext
  have hi := i.isLt
  have hsum : i.val + (j.val + (t.nodes.length - i.val)) = j.val + t.nodes.length := by omega
  change (i.val + (j.val + (t.nodes.length - i.val)) % t.nodes.length) % t.nodes.length = j.val
  rw [Nat.add_mod_mod, hsum, Nat.add_mod_right, Nat.mod_eq_of_lt j.isLt]

/-- The ring closes for the first time after all of its nodes. -/
theorem next_eq_iff {obj node : t.Place} {rounds : Nat} (h : after obj (rounds + 1) = node)
    (hle : rounds < t.nodes.length) : t.next obj = node ↔ rounds = 0 := by
  constructor
  · intro hnext
    rw [← hnext, ← after_zero (t.next obj), after_next] at h
    have hsame : Nat.ModEq t.nodes.length (obj.val + (rounds + 1)) (obj.val + (0 + 1)) :=
      congrArg Fin.val h
    have hzero : Nat.ModEq t.nodes.length rounds 0 :=
      Nat.ModEq.add_right_cancel' 1 (Nat.ModEq.add_left_cancel' obj.val hsame)
    rwa [Nat.ModEq, Nat.mod_eq_of_lt hle, Nat.zero_mod] at hzero
  · rintro rfl
    rw [← h, ← after_zero (t.next obj), after_next]

/-- The walk comes to an end within one round of the ring. What is missing then, no node has. -/
theorem walk_takes {node obj : t.Place} {rounds : Nat} (cpu : Cpu) (remain : UInt64)
    (hback : after obj rounds = node) (hpos : 0 < rounds) (hle : rounds ≤ t.nodes.length)
    (hb : t.Bounded used) :
    ∃ cpu' remain' used', t.walk node rounds obj cpu remain used = some (cpu', remain', used') ∧
      t.Takes cpu used (remain.toNat - remain'.toNat) cpu' used' ∧
      remain'.toNat ≤ remain.toNat ∧
      (remain' = 0 ∨ ∀ k < rounds, (used' (after obj k)).toNat = t.size (after obj k)) := by
  induction rounds generalizing obj cpu remain used with
  | zero => exact absurd hpos (Nat.lt_irrefl 0)
  | succ rounds ih =>
    rw [walk]
    by_cases hzero : remain = 0
    · rw [if_pos hzero]
      refine ⟨cpu, remain, used, rfl, ?_, Nat.le_refl _, Or.inl hzero⟩
      rw [Nat.sub_self]
      exact Takes.nothing hb
    · rw [if_neg hzero]
      obtain ⟨taken, cpu₁, used₁, halloc, htakes, htaken, hfull⟩ :=
        allocFromNode_takes cpu obj remain hb
      have hrest : (remain - taken).toNat = remain.toNat - taken.toNat :=
        UInt64.toNat_sub_of_le _ _ (UInt64.le_iff_toNat_le.mpr htaken)
      have hfirst : remain - taken = 0 ∨ (used₁ obj).toNat = t.size obj := by
        rcases hfull with h | h
        · left
          rw [h, UInt64.sub_self]
        · exact Or.inr h
      rw [halloc]
      dsimp only
      by_cases hnext : t.next obj = node
      · obtain rfl := (next_eq_iff hback (by omega)).mp hnext
        rw [if_pos hnext]
        refine ⟨cpu₁, remain - taken, used₁, rfl, ?_, by omega, ?_⟩
        · rwa [hrest, Nat.sub_sub_self htaken]
        · rcases hfirst with h | h
          · exact Or.inl h
          · right
            intro k hk
            obtain rfl := Nat.lt_one_iff.mp hk
            rwa [after_zero]
      · have hpos' : 0 < rounds := Nat.pos_of_ne_zero fun h => hnext ((next_eq_iff hback (by omega)).mpr h)
        rw [if_neg hnext]
        obtain ⟨cpu₂, remain₂, used₂, hwalk, htakes₂, hremain₂, hdone⟩ :=
          ih cpu₁ (remain - taken) (by rw [after_next, hback]) hpos' (by omega) htakes.bounded
        refine ⟨cpu₂, remain₂, used₂, hwalk, ?_, by omega, ?_⟩
        · have hsum : remain.toNat - remain₂.toNat =
              taken.toNat + ((remain - taken).toNat - remain₂.toNat) := by omega
          rw [hsum]
          exact htakes.trans htakes₂
        · rcases hdone with h | h
          · exact Or.inl h
          · rcases hfirst with h' | h'
            · left
              rw [h', UInt64.toNat_zero] at hremain₂
              exact UInt64.toNat_inj.mp (Nat.le_zero.mp hremain₂)
            · right
              intro k hk
              cases k with
              | zero =>
                rw [after_zero]
                apply Nat.le_antisymm (htakes₂.bounded obj)
                rw [← h']
                exact htakes₂.mono obj
              | succ k =>
                rw [← after_next]
                exact h k (by omega)

/-- A whole round leaves nothing missing, or nothing in any node. -/
theorem walk_round (node : t.Place) (cpu : Cpu) (remain : UInt64) (hb : t.Bounded used) :
    ∃ cpu' remain' used',
      t.walk node t.nodes.length node cpu remain used = some (cpu', remain', used') ∧
      t.Takes cpu used (remain.toNat - remain'.toNat) cpu' used' ∧
      remain'.toNat ≤ remain.toNat ∧ (remain' = 0 ∨ ∀ i, (used' i).toNat = t.size i) := by
  have hback : after node t.nodes.length = node := by
    apply Fin.ext
    change (node.val + t.nodes.length) % t.nodes.length = node.val
    rw [Nat.add_mod_right, Nat.mod_eq_of_lt node.isLt]
  obtain ⟨cpu', remain', used', hwalk, htakes, hle, hdone⟩ :=
    walk_takes cpu remain hback (Nat.zero_lt_of_lt node.isLt) (Nat.le_refl _) hb
  refine ⟨cpu', remain', used', hwalk, htakes, hle, ?_⟩
  rcases hdone with h | h
  · exact Or.inl h
  · right
    intro i
    obtain ⟨k, hk, rfl⟩ := exists_after node i
    exact h k hk

/-! ## The two loops -/

theorem divideLocal_takes (share : UInt64) (cpuIds : List Nat) (hb : t.Bounded used) :
    ∃ remains used', t.divideLocal share cpuIds used = (remains, used') ∧ t.Bounded used' ∧
      remains.length = cpuIds.length ∧
      (∀ r ∈ remains, r.1.total + r.2.toNat = share.toNat) ∧
      t.allUsed used' + (remains.map fun r => r.2.toNat).sum =
        t.allUsed used + cpuIds.length * share.toNat ∧
      ∀ i, (used' i).toNat =
        (used i).toNat + (remains.map fun r => r.1.ofNode (t.id i)).sum := by
  induction cpuIds generalizing used with
  | nil => exact ⟨[], used, rfl, hb, rfl, by simp, by simp, by simp⟩
  | cons cpuId cpuIds ih =>
    obtain ⟨taken, cpu₁, used₁, halloc, htakes, htaken, -⟩ :=
      allocFromNode_takes { cpuId } (t.nodeOf cpuId) share hb
    obtain ⟨remains, used₂, hdivide, hb₂, hlen, hshare, hall, hplace⟩ := ih htakes.bounded
    have hrest : (share - taken).toNat = share.toNat - taken.toNat :=
      UInt64.toNat_sub_of_le _ _ (UInt64.le_iff_toNat_le.mpr htaken)
    have htotal : cpu₁.total = taken.toNat := by
      rw [htakes.total]
      exact Nat.zero_add _
    refine ⟨(cpu₁, share - taken) :: remains, used₂, ?_, hb₂, ?_, ?_, ?_, ?_⟩
    · rw [divideLocal, halloc]
      dsimp only
      rw [hdivide]
    · rw [List.length_cons, List.length_cons, hlen]
    · intro r hr
      rcases List.mem_cons.mp hr with h | h
      · rw [h, hrest, htotal]
        exact Nat.add_sub_cancel' htaken
      · exact hshare r h
    · rw [List.map_cons, List.sum_cons, List.length_cons, Nat.succ_mul, hrest]
      have := htakes.allUsed
      omega
    · intro i
      have hnode := htakes.ofNode i
      have hnone : ({ cpuId } : Cpu).ofNode (t.id i) = 0 := rfl
      rw [hplace i, List.map_cons, List.sum_cons]
      dsimp only
      omega

theorem sum_size (t : Topology) : ∑ i, t.size i = t.totalMemory.toNat := by
  rw [t.total_eq]
  exact Fin.sum_univ_fun_getElem t.nodes fun n => n.localMemory.toNat

theorem allUsed_le (hb : t.Bounded used) : t.allUsed used ≤ ∑ i, t.size i :=
  Finset.sum_le_sum fun i _ => hb i

/-- When the nodes have what is missing, every shard gets it. -/
theorem divideRest_ok {share : Nat} {remains : List (Cpu × UInt64)}
    (hshare : ∀ r ∈ remains, r.1.total + r.2.toNat = share) (hb : t.Bounded used)
    (hfit : t.allUsed used + (remains.map fun r => r.2.toNat).sum ≤ ∑ i, t.size i) :
    ∃ cpus used', t.divideRest remains used = .ok (some cpus) ∧ cpus.length = remains.length ∧
      (∀ cpu ∈ cpus, cpu.total = share) ∧ t.Bounded used' ∧
      ∀ i, (used' i).toNat + (remains.map fun r => r.1.ofNode (t.id i)).sum =
        (used i).toNat + (cpus.map fun cpu => cpu.ofNode (t.id i)).sum := by
  induction remains generalizing used with
  | nil => exact ⟨[], used, rfl, rfl, by simp, hb, fun _ => rfl⟩
  | cons r remains ih =>
    obtain ⟨cpu, remain⟩ := r
    obtain ⟨cpu₁, remain₁, used₁, hwalk, htakes, hle, hdone⟩ :=
      walk_round (t.nodeOf cpu.cpuId) cpu remain hb
    have hall := htakes.allUsed
    rw [List.map_cons, List.sum_cons] at hfit
    dsimp only at hfit
    have hzero : remain₁.toNat = 0 := by
      rcases hdone with h | h
      · rw [h]
        rfl
      · have hfull : t.allUsed used₁ = ∑ i, t.size i := Finset.sum_congr rfl fun i _ => h i
        omega
    have hone : cpu.total + remain.toNat = share := hshare _ List.mem_cons_self
    obtain ⟨cpus, used₂, hdivide, hlen, htotal, hb₂, hplace⟩ :=
      ih (fun r hr => hshare r (List.mem_cons_of_mem _ hr)) htakes.bounded (by omega)
    refine ⟨cpu₁ :: cpus, used₂, ?_, ?_, ?_, hb₂, ?_⟩
    · rw [divideRest, hwalk]
      dsimp only
      rw [if_neg (not_not_intro (UInt64.toNat_inj.mp hzero)), hdivide]
      rfl
    · rw [List.length_cons, List.length_cons, hlen]
    · intro c hc
      rcases List.mem_cons.mp hc with h | h
      · rw [h, htakes.total]
        omega
      · exact htotal c h
    · intro i
      have hnode := htakes.ofNode i
      have hrest := hplace i
      rw [List.map_cons, List.sum_cons, List.map_cons, List.sum_cons]
      dsimp only
      omega

/-- Without a failed assertion the nodes had what was missing. -/
theorem divideRest_fits {cpus : List Cpu} {remains : List (Cpu × UInt64)} (hb : t.Bounded used)
    (h : t.divideRest remains used = .ok (some cpus)) :
    t.allUsed used + (remains.map fun r => r.2.toNat).sum ≤ ∑ i, t.size i := by
  induction remains generalizing used cpus with
  | nil => simpa using allUsed_le hb
  | cons r remains ih =>
    obtain ⟨cpu, remain⟩ := r
    obtain ⟨cpu₁, remain₁, used₁, hwalk, htakes, hle, -⟩ :=
      walk_round (t.nodeOf cpu.cpuId) cpu remain hb
    rw [divideRest, hwalk] at h
    dsimp only at h
    split at h
    · cases h
    · rename_i hzero
      obtain ⟨rest, hrest, hmap⟩ := Lib.map_ok.mp h
      obtain rfl := not_not.mp hzero
      cases rest with
      | none => cases hmap
      | some rest =>
        have hall := htakes.allUsed
        have hfit := ih htakes.bounded hrest
        rw [UInt64.toNat_zero, Nat.sub_zero] at hall
        rw [List.map_cons, List.sum_cons]
        dsimp only
        omega

end Topology

/-! ## Soundness -/

/-- What the configuration reserves. -/
def reserve (c : Configuration) (defaultReserve : UInt64 → UInt64) (total : UInt64) : Nat :=
  (c.reserveMemory.getD (defaultReserve total)).toNat

/-- What is asked for on a machine that has not the reserve and `minMemory` on top of it: what the
configuration says, or `minMemory`; or, for a reserve that is too large for a sum with `minMemory`,
what the machine has, less the reserve, modulo `2 ^ 64`. -/
def asked (c : Configuration) (defaultReserve : UInt64 → UInt64) (total : UInt64) : UInt64 :=
  c.totalMemory.getD
    (if total.toNat + 2 ^ 64 < reserve c defaultReserve total + minMemory.toNat ∨
        reserve c defaultReserve total + minMemory.toNat < 2 ^ 64 then minMemory
      else total - c.reserveMemory.getD (defaultReserve total))

/-- The machine has the reserve and `minMemory` on top of it, or it has what is asked for by all
shards, rounded down for each to a multiple of 2 MiB. -/
def Enough (t : Topology) (c : Configuration) (defaultReserve : UInt64 → UInt64) : Prop :=
  reserve c defaultReserve t.totalMemory + minMemory.toNat ≤ t.totalMemory.toNat ∨
    (procs t c).toNat *
      ((asked c defaultReserve t.totalMemory).toNat / (procs t c).toNat / 2 ^ 21 * 2 ^ 21) ≤
        t.totalMemory.toNat

variable {t : Topology} {c : Configuration} {defaultReserve : UInt64 → UInt64} {mem : UInt64}

theorem toNat_memPerProc (mem : UInt64) (n : UInt32) :
    (memPerProc mem n).toNat = mem.toNat / n.toNat / 2 ^ 21 * 2 ^ 21 := by
  rw [memPerProc, toNat_alignDown _ ⟨21, by decide, by decide⟩, UInt64.toNat_div,
    UInt32.toNat_toUInt64]
  rfl

theorem calculateMemory_ok (h : calculateMemory c defaultReserve t.totalMemory = .ok mem) :
    ∃ available, mem = c.totalMemory.getD available ∧ mem ≤ available ∧
      available =
        if t.totalMemory ≥ c.reserveMemory.getD (defaultReserve t.totalMemory) + minMemory
          then t.totalMemory - c.reserveMemory.getD (defaultReserve t.totalMemory)
          else minMemory := by
  rw [calculateMemory] at h
  generalize havailable : (if t.totalMemory ≥
    c.reserveMemory.getD (defaultReserve t.totalMemory) + minMemory
      then t.totalMemory - c.reserveMemory.getD (defaultReserve t.totalMemory)
      else minMemory) = available at h
  split at h
  · cases h
  · rename_i hle
    obtain rfl := Except.ok.inj h
    exact ⟨available, rfl, UInt64.not_lt.mp hle, rfl⟩

/-- The rounded shares are no more than the memory they are shares of. -/
theorem shares_le (mem n : Nat) : n * (mem / n / 2 ^ 21 * 2 ^ 21) ≤ mem :=
  Nat.le_trans (Nat.mul_le_mul_left n (Nat.div_mul_le_self _ _)) (Nat.mul_div_le mem n)

/-- The shares of all shards fit into the machine exactly if there is enough. -/
theorem fits_iff (h : calculateMemory c defaultReserve t.totalMemory = .ok mem) :
    (procs t c).toNat * (memPerProc mem (procs t c)).toNat ≤ t.totalMemory.toNat ↔
      Enough t c defaultReserve := by
  obtain ⟨available, hmem, hle, havailable⟩ := calculateMemory_ok h
  rw [Enough, toNat_memPerProc]
  rw [UInt64.le_iff_toNat_le] at hle
  simp only [ge_iff_le, UInt64.le_iff_toNat_le, UInt64.toNat_add] at havailable
  have hreserve : reserve c defaultReserve t.totalMemory =
      (c.reserveMemory.getD (defaultReserve t.totalMemory)).toNat := rfl
  have hlt := t.totalMemory.toNat_lt
  have hmin : minMemory.toNat = 500000000 := by
    rw [minMemory]
    rfl
  by_cases hexact : reserve c defaultReserve t.totalMemory + minMemory.toNat ≤ t.totalMemory.toNat
  · have hall : mem.toNat ≤ t.totalMemory.toNat := by
      rw [hreserve] at hexact
      rw [Nat.mod_eq_of_lt (by omega), if_pos hexact] at havailable
      rw [havailable, UInt64.toNat_sub_of_le _ _ (UInt64.le_iff_toNat_le.mpr (by omega))] at hle
      omega
    exact iff_of_true (Nat.le_trans (shares_le _ _) hall) (Or.inl hexact)
  · have hasked : mem = asked c defaultReserve t.totalMemory := by
      rw [hmem, asked]
      congr 1
      rw [havailable, hreserve]
      rw [hreserve] at hexact
      have hres := (c.reserveMemory.getD (defaultReserve t.totalMemory)).toNat_lt
      by_cases hsmall : (c.reserveMemory.getD (defaultReserve t.totalMemory)).toNat +
          minMemory.toNat < 2 ^ 64
      · rw [Nat.mod_eq_of_lt hsmall, if_neg hexact, if_pos (Or.inr hsmall)]
      · by_cases hwrap : t.totalMemory.toNat + 2 ^ 64 <
            (c.reserveMemory.getD (defaultReserve t.totalMemory)).toNat + minMemory.toNat
        · rw [if_neg (by omega), if_pos (Or.inl hwrap)]
        · rw [if_pos (by omega), if_neg (not_or.mpr ⟨hwrap, hsmall⟩)]
    rw [hasked]
    exact (or_iff_right hexact).symm

/-- The memory of the shards is divided soundly: every shard has its share, and no node gives more
than it has. -/
def Divided (t : Topology) (share : UInt64) (cpus : List Cpu) : Prop :=
  (∀ cpu ∈ cpus, cpu.total = share.toNat) ∧
    ∀ i, (cpus.map fun cpu => cpu.ofNode (t.id i)).sum ≤ t.size i

/-- For every topology, every configuration that `calculate_memory` accepts and every placement of
at least one shard and no more than one for each processing unit: `allocate` comes to an end without
a failed assertion, with a sound division of the memory, exactly if there is enough. -/
theorem allocate_divides_iff (t : Topology) (c : Configuration) (defaultReserve : UInt64 → UInt64)
    (distrib : Nat → List Nat) (hdistrib : ∀ n, (distrib n).length = n)
    (haccept : calculateMemory c defaultReserve t.totalMemory = .ok mem)
    (hpos : procs t c ≠ 0) (hunits : procs t c ≤ t.processingUnits) :
    (∃ cpus, allocate t c defaultReserve distrib = .ok (some cpus) ∧
      cpus.length = (procs t c).toNat ∧ Divided t (memPerProc mem (procs t c)) cpus) ↔
        Enough t c defaultReserve := by
  have hb : t.Bounded fun _ => 0 := fun i => Nat.zero_le _
  have hnone : t.allUsed (fun _ => 0) = 0 := by simp [Topology.allUsed]
  obtain ⟨remains, used, hdivide, hb', hlen, hshare, hall, hplace⟩ :=
    Topology.divideLocal_takes (memPerProc mem (procs t c)) (distrib (procs t c).toNat) hb
  rw [hnone, Nat.zero_add, hdistrib] at hall
  have hrun : allocate t c defaultReserve distrib = t.divideRest remains used := by
    rw [allocate, haccept, Lib.ok_bind]
    dsimp only
    rw [if_neg (UInt32.not_lt.mpr hunits), if_neg hpos, hdivide]
  rw [← fits_iff haccept, hrun, ← hall, ← t.sum_size]
  constructor
  · rintro ⟨cpus, hcpus, -, -⟩
    exact Topology.divideRest_fits hb' hcpus
  · intro hfit
    obtain ⟨cpus, used', hrest, hcount, htotal, hb'', hnode⟩ :=
      Topology.divideRest_ok hshare hb' hfit
    refine ⟨cpus, hrest, by rw [hcount, hlen, hdistrib], htotal, fun i => ?_⟩
    have hi := hnode i
    rw [hplace i] at hi
    have hbound := hb'' i
    rw [UInt64.toNat_zero] at hi
    omega

/-- One node of 1 GiB and two of 512 MiB. -/
def threeNodes : Topology where
  nodes := [⟨1073741824, 0⟩, ⟨536870912, 1⟩, ⟨536870912, 2⟩]
  nodeOf cpuId := ⟨cpuId % 3, Nat.mod_lt _ (by decide)⟩
  processingUnits := 3
  totalMemory := 2147483648
  total_eq := by decide
  ids_nodup := by decide

theorem allocate_three_nodes :
    ∃ cpus, allocate threeNodes {} (fun _ => 1536 * 1024 * 1024) List.range = .ok (some cpus) ∧
      cpus.length = 3 ∧ Divided threeNodes (memPerProc 536870912 3) cpus :=
  have haccept : calculateMemory {} (fun _ => 1536 * 1024 * 1024) threeNodes.totalMemory =
      .ok 536870912 := by decide +kernel
  (allocate_divides_iff threeNodes {} (fun _ => 1536 * 1024 * 1024) List.range
    (fun _ => List.length_range) haccept (by decide) (by decide)).mpr (Or.inl (by decide +kernel))

/-- A machine with one node of 256 MiB. -/
def smallMachine : Topology where
  nodes := [⟨268435456, 0⟩]
  nodeOf _ := ⟨0, by decide⟩
  processingUnits := 1
  totalMemory := 268435456
  total_eq := by decide
  ids_nodup := by decide

/-- `calculate_memory` finds 500 MB in it, and the assertion fails. -/
theorem allocate_small_machine :
    ¬∀ (t : Topology) (c : Configuration) (defaultReserve : UInt64 → UInt64)
      (distrib : Nat → List Nat) (mem : UInt64), (∀ n, (distrib n).length = n) →
      calculateMemory c defaultReserve t.totalMemory = .ok mem →
      procs t c ≠ 0 → procs t c ≤ t.processingUnits →
      ∃ cpus, allocate t c defaultReserve distrib = .ok (some cpus) ∧
        cpus.length = (procs t c).toNat ∧ Divided t (memPerProc mem (procs t c)) cpus := by
  intro h
  obtain ⟨cpus, hcpus, -⟩ := h smallMachine {} (fun _ => 1536 * 1024 * 1024) List.range minMemory
    (fun _ => List.length_range) (by decide +kernel) (by decide) (by decide)
  have hfails : allocate smallMachine {} (fun _ => 1536 * 1024 * 1024) List.range =
      .error (.fault .assertFailed) := by decide +kernel
  rw [hfails] at hcpus
  cases hcpus

end Seastar.Resource
