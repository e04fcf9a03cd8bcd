import Seastar.Lib.Counting
import Seastar.Lib.Run
import Seastar.Net.Conntrack

/-!
Runs of the balancing of connections. Every connection goes to one `accept()` of its shard. The load
of a shard counts its connections as long as each has its handle, which one that waits in a queue has
lost.
-/

namespace Seastar.Conntrack

open Lib

variable {host count : Nat} {s s' : Conntrack} {i c shard pick : Nat} {x : Connection} {p : Place}
  {held : Option Nat} {op : Op}

/-! ## What is claimed -/

/-- The handle that goes with the connection. -/
def Place.handle : Place → Option Nat
  | .moving _ handle => some handle
  | .queued _ => none
  | .opened _ handle => handle
  | .closed => none

/-- The connection was returned by an `accept()`. -/
def Place.Returned : Place → Prop
  | .moving _ _ | .queued _ => False
  | .opened _ _ | .closed => True

instance : (p : Place) → Decidable p.Returned
  | .moving _ _ | .queued _ => inferInstanceAs (Decidable False)
  | .opened _ _ | .closed => inferInstanceAs (Decidable True)

/-- The connections of a shard that are alive. -/
def live (s : Conntrack) (c : Nat) : Nat :=
  s.connections.countP fun x => x.cpu = c ∧ x.place ≠ .closed

/-- The `closed_cpu` calls for a shard that are on the way. -/
def underWay (s : Conntrack) (c : Nat) : Nat := s.closing.count c

/-- A connection is handed to one `accept()`, on its shard, and to no other; every `accept()` has one
connection or waits; and none waits where there is a connection in the queue. -/
structure Handed (s : Conntrack) : Prop where
  once : ∀ {i x}, s.connections[i]? = some x →
    s.handed.filter (·.1 = i) = if x.place.Returned then [(i, x.cpu)] else []
  known : ∀ q ∈ s.handed, q.1 < s.connections.length
  matched : ∀ c, s.accepts.count c = (s.handed.map Prod.snd).count c + s.sockets.count c
  prompt : ∀ {i shard}, s.place i = some (.queued shard) → shard ∉ s.sockets

/-- The load of every shard is the number of its connections that are alive, when the `closed_cpu`
calls on the way have arrived, and the next connection goes to a shard with the fewest. -/
structure Balanced (s : Conntrack) : Prop where
  load : ∀ c < s.cpuLoad.length, s.cpuLoad[c]? = some (s.live c + s.underWay c)
  fewest : ∀ c < s.cpuLoad.length, s.live (nextCpu s.cpuLoad) + s.underWay (nextCpu s.cpuLoad) ≤
    s.live c + s.underWay c

/-- A connection that comes to its shard finds an `accept()` that waits. -/
def Waited (s : Conntrack) : Op → Prop
  | .arrive i => ∀ shard handle, s.place i = some (.moving shard handle) → shard ∈ s.sockets
  | _ => True

/-! ## Steps -/

/-- What a step does. -/
inductive Transition (host : Nat) (s : Conntrack) : Op → Conntrack → Prop
  | here (hwait : host ∈ s.sockets) (hcpu : nextCpu s.cpuLoad = host) :
    Transition host s .kernel { s with
      cpuLoad := s.cpuLoad.modify host (· + 1)
      connections := s.connections ++ [⟨host, .opened host (some host)⟩]
      sockets := s.sockets.erase host
      handed := s.handed ++ [(s.connections.length, host)] }
  | there (hcpu : nextCpu s.cpuLoad ≠ host) :
    Transition host s .kernel { s with
      cpuLoad := s.cpuLoad.modify (nextCpu s.cpuLoad) (· + 1)
      connections := s.connections ++
        [⟨nextCpu s.cpuLoad, .moving (nextCpu s.cpuLoad) (nextCpu s.cpuLoad)⟩] }
  | met {i shard handle : Nat} (hplace : s.place i = some (.moving shard handle))
    (hwait : shard ∈ s.sockets) :
    Transition host s (.arrive i)
      (handOver { s with sockets := s.sockets.erase shard } i shard (some handle))
  | queue {i shard handle : Nat} (hplace : s.place i = some (.moving shard handle))
    (hwait : shard ∉ s.sockets) :
    Transition host s (.arrive i)
      (destroyHandle host (s.put i (.queued shard)) shard (some handle))
  | wait {shard pick : Nat} (hnone : shard ≠ host → ∀ i, s.place i ≠ some (.queued shard)) :
    Transition host s (.accept shard pick)
      { s with accepts := s.accepts ++ [shard], sockets := s.sockets ++ [shard] }
  | take {shard pick i : Nat} (hplace : s.place i = some (.queued shard)) :
    Transition host s (.accept shard pick)
      (handOver { s with accepts := s.accepts ++ [shard] } i shard none)
  | close {i shard : Nat} {handle : Option Nat} (hplace : s.place i = some (.opened shard handle)) :
    Transition host s (.close i) (destroyHandle host (s.put i .closed) shard handle)
  | closed {j cpu : Nat} (hclosing : s.closing[j]? = some cpu) :
    Transition host s (.closed j) (closedCpu { s with closing := s.closing.eraseIdx j } cpu)

theorem mem_connQ : i ∈ s.connQ shard ↔ s.place i = some (.queued shard) := by
  rw [connQ, List.mem_filter, List.mem_range, decide_eq_true_iff, and_iff_right_iff_imp]
  intro hplace
  obtain ⟨x, hx, -⟩ := Option.map_eq_some_iff.mp hplace
  exact (List.getElem?_eq_some_iff.mp hx).1

theorem step_transition (h : step host s op = .ok s') : Transition host s op s' := by
  cases op with
  | kernel =>
    rw [step] at h
    split at h
    · rename_i hwait
      obtain rfl := Except.ok.inj h
      rw [accepted]
      by_cases hcpu : nextCpu s.cpuLoad = host
      · rw [if_pos hcpu, hcpu]
        exact .here hwait hcpu
      · rw [if_neg hcpu]
        exact .there hcpu
    · cases h
  | arrive i =>
    rw [step] at h
    split at h
    · rename_i shard handle hplace
      obtain rfl := Except.ok.inj h
      rw [moveConnectedSocket]
      split
      · rename_i hwait
        exact .met hplace hwait
      · rename_i hwait
        exact .queue hplace hwait
    · cases h
  | accept shard pick =>
    rw [step, accept] at h
    dsimp only at h
    split at h
    · rename_i hhost
      obtain rfl := Except.ok.inj h
      exact .wait fun hne => absurd hhost hne
    · split at h
      · rename_i i hi
        obtain rfl := Except.ok.inj h
        exact .take (mem_connQ.mp (List.mem_of_getElem? hi))
      · rename_i hnone
        split at h
        · cases h
        · obtain rfl := Except.ok.inj h
          refine .wait fun _ i hplace => ?_
          have hin : i ∈ s.connQ shard := mem_connQ.mpr hplace
          rw [List.getElem?_eq_none_iff] at hnone
          have hlt := Nat.mod_lt pick (List.length_pos_of_mem hin)
          exact absurd hnone (Nat.not_le_of_lt hlt)
  | close i =>
    rw [step] at h
    split at h
    · rename_i shard handle hplace
      obtain rfl := Except.ok.inj h
      exact .close hplace
    · cases h
  | closed j =>
    rw [step] at h
    split at h
    · rename_i cpu hclosing
      obtain rfl := Except.ok.inj h
      exact .closed hclosing
    · cases h

/-! ## Places -/

/-- A connection is where its shard says, with a handle for this shard or none. -/
def Placed (host count : Nat) (x : Connection) : Prop :=
  x.cpu < count ∧ (∀ c, x.place.handle = some c → c = x.cpu) ∧
    (∀ shard handle, x.place = .moving shard handle → shard = x.cpu ∧ shard ≠ host) ∧
    (∀ shard, x.place = .queued shard → shard = x.cpu ∧ shard ≠ host) ∧
    ∀ shard handle, x.place = .opened shard handle → shard = x.cpu

theorem put_eq (hx : s.connections[i]? = some x) :
    (s.put i p).connections = s.connections.set i { x with place := p } := by
  rw [put]
  dsimp only
  apply List.ext_getElem?
  intro j
  rw [List.getElem?_modify, List.getElem?_set]
  by_cases hij : i = j
  · subst hij
    obtain ⟨hi, rfl⟩ := List.getElem?_eq_some_iff.mp hx
    simp [hi]
  · simp [hij]

theorem exists_of_place (h : s.place i = some p) :
    ∃ x, s.connections[i]? = some x ∧ x.place = p := Option.map_eq_some_iff.mp h

/-- Where a connection is found after another one, or itself, was put somewhere. -/
theorem getElem?_put {j : Nat} {y : Connection} (hx : s.connections[i]? = some x)
    (hy : (s.put i p).connections[j]? = some y) :
    i = j ∧ y = { x with place := p } ∨ i ≠ j ∧ s.connections[j]? = some y := by
  rw [put_eq hx, List.getElem?_set] at hy
  by_cases hij : i = j
  · subst hij
    rw [if_pos rfl, if_pos (List.getElem?_eq_some_iff.mp hx).1] at hy
    exact .inl ⟨rfl, (Option.some.inj hy).symm⟩
  · rw [if_neg hij] at hy
    exact .inr ⟨hij, hy⟩

/-- What holds of all connections but the one that is put somewhere, and of this one there. -/
theorem forall_put {Q : Connection → Prop} (hx : s.connections[i]? = some x)
    (hQ : ∀ y ∈ s.connections, Q y) (hp : Q { x with place := p }) :
    ∀ y ∈ (s.put i p).connections, Q y := by
  intro y hy
  obtain ⟨j, hj⟩ := List.mem_iff_getElem?.mp hy
  rcases getElem?_put hx hj with ⟨-, rfl⟩ | ⟨-, hj⟩
  · exact hp
  · exact hQ y (List.mem_of_getElem? hj)

@[simp] theorem destroyHandle_connections (host : Nat) (s : Conntrack) (shard : Nat)
    (handle : Option Nat) : (destroyHandle host s shard handle).connections = s.connections := by
  cases handle with
  | none => rfl
  | some c =>
    rw [destroyHandle]
    split <;> rfl

@[simp] theorem destroyHandle_sockets (host : Nat) (s : Conntrack) (shard : Nat)
    (handle : Option Nat) : (destroyHandle host s shard handle).sockets = s.sockets := by
  cases handle with
  | none => rfl
  | some c =>
    rw [destroyHandle]
    split <;> rfl

@[simp] theorem destroyHandle_accepts (host : Nat) (s : Conntrack) (shard : Nat)
    (handle : Option Nat) : (destroyHandle host s shard handle).accepts = s.accepts := by
  cases handle with
  | none => rfl
  | some c =>
    rw [destroyHandle]
    split <;> rfl

@[simp] theorem destroyHandle_handed (host : Nat) (s : Conntrack) (shard : Nat)
    (handle : Option Nat) : (destroyHandle host s shard handle).handed = s.handed := by
  cases handle with
  | none => rfl
  | some c =>
    rw [destroyHandle]
    split <;> rfl

/-! ## The loads -/

/-- The connections with a handle for a shard. -/
def handles (s : Conntrack) (c : Nat) : Nat :=
  s.connections.countP fun x => x.place.handle = some c

/-- The load of every shard is the number of its handles: those of the connections, those in the
calls on the way, and the one in `held` that is about to end. -/
def Loads (count : Nat) (held : Option Nat) (s : Conntrack) : Prop :=
  ∀ c, s.cpuLoad[c]? = if c < count then
    some (s.handles c + s.underWay c + if held = some c then 1 else 0) else none

theorem loads_none : Loads count none s ↔ ∀ c, s.cpuLoad[c]? =
    if c < count then some (s.handles c + s.underWay c) else none := by
  simp [Loads]

theorem Loads.length (hl : Loads count held s) : s.cpuLoad.length = count := by
  have hout := hl s.cpuLoad.length
  have hin := hl count
  rw [List.getElem?_eq_none (Nat.le_refl _)] at hout
  rw [if_neg (Nat.lt_irrefl _), List.getElem?_eq_none_iff] at hin
  by_cases hlt : s.cpuLoad.length < count
  · rw [if_pos hlt] at hout
    cases hout
  · omega

theorem handles_put (hx : s.connections[i]? = some x) (p : Place) (c : Nat) :
    (s.put i p).handles c + (if x.place.handle = some c then 1 else 0) =
      s.handles c + if p.handle = some c then 1 else 0 := by
  have h := Counting.countP_set_add (fun x => decide (x.place.handle = some c)) hx
    { x with place := p }
  rw [← put_eq hx] at h
  simp only [decide_eq_true_eq] at h
  exact h

/-- A connection leaves its handle behind. -/
theorem Loads.put (hl : Loads count none s) (hx : s.connections[i]? = some x)
    (hp : p.handle = none) : Loads count x.place.handle (s.put i p) := by
  intro c
  have hhandles := handles_put hx p c
  rw [hp] at hhandles
  simp only [reduceCtorEq, if_false] at hhandles
  have hload := loads_none.mp hl c
  change s.cpuLoad[c]? = _
  rw [hload]
  by_cases hc : c < count
  · rw [if_pos hc, if_pos hc]
    have hunder : (s.put i p).underWay c = s.underWay c := rfl
    rw [hunder]
    congr 1
    omega
  · rw [if_neg hc, if_neg hc]

/-- ... or takes it along. -/
theorem Loads.keep (hl : Loads count none s) (hx : s.connections[i]? = some x)
    (hp : p.handle = x.place.handle) : Loads count none (s.put i p) := by
  intro c
  have hhandles := handles_put hx p c
  rw [hp] at hhandles
  have hsame : (s.put i p).handles c = s.handles c := by omega
  have hunder : (s.put i p).underWay c = s.underWay c := rfl
  rw [hsame, hunder]
  exact hl c

theorem Loads.closedCpu {cpu : Nat} (hl : Loads count (some cpu) s) :
    Loads count none (s.closedCpu cpu) := by
  intro c
  have hhandles : (s.closedCpu cpu).handles c = s.handles c := rfl
  have hunder : (s.closedCpu cpu).underWay c = s.underWay c := rfl
  rw [Conntrack.closedCpu, List.getElem?_modify, hl c]
  change _ = if _ then some ((s.closedCpu cpu).handles c + (s.closedCpu cpu).underWay c + _) else _
  rw [hhandles, hunder]
  by_cases hc : c < count
  · rw [if_pos hc, if_pos hc]
    by_cases hcpu : cpu = c
    · subst hcpu
      simp
    · simp [hcpu]
  · rw [if_neg hc, if_neg hc]
    rfl

/-- The destructor of the handle. -/
theorem Loads.destroyHandle (hl : Loads count held s) (host shard : Nat) :
    Loads count none (destroyHandle host s shard held) := by
  cases held with
  | none => exact hl
  | some cpu =>
    rw [Conntrack.destroyHandle]
    split
    · exact hl.closedCpu
    · rw [loads_none]
      intro c
      have hunder : underWay { s with closing := s.closing ++ [cpu] } c =
          s.underWay c + if cpu = c then 1 else 0 := by
        change (s.closing ++ [cpu]).count c = _
        rw [List.count_append, List.count_singleton]
        simp only [beq_iff_eq]
        rfl
      have hhandles : handles { s with closing := s.closing ++ [cpu] } c = s.handles c := rfl
      have hload := hl c
      simp only [Option.some.injEq] at hload
      rw [hunder, hhandles]
      change s.cpuLoad[c]? = _
      rw [hload]
      by_cases hc : c < count
      · rw [if_pos hc, if_pos hc]
        congr 1
        omega
      · rw [if_neg hc, if_neg hc]

/-- A `closed_cpu` arrives. -/
theorem Loads.closing {j cpu : Nat} (hl : Loads count none s) (hj : s.closing[j]? = some cpu) :
    Loads count (some cpu) { s with closing := s.closing.eraseIdx j } := by
  intro c
  have herase := Counting.countP_eraseIdx_add (· == c) hj
  have hunder : underWay { s with closing := s.closing.eraseIdx j } c +
      (if cpu = c then 1 else 0) = s.underWay c := by
    simp only [beq_iff_eq] at herase
    exact herase
  have hhandles : handles { s with closing := s.closing.eraseIdx j } c = s.handles c := rfl
  have hload := loads_none.mp hl c
  simp only [Option.some.injEq]
  change s.cpuLoad[c]? = _
  rw [hload, hhandles]
  by_cases hc : c < count
  · rw [if_pos hc, if_pos hc]
    congr 1
    omega
  · rw [if_neg hc, if_neg hc]

/-- `next_cpu` gives a handle. -/
theorem Loads.snoc {cpu : Nat} (hl : Loads count none s) (hx : x.place.handle = some cpu)
    {t : Conntrack} (hload : t.cpuLoad = s.cpuLoad.modify cpu (· + 1))
    (hconn : t.connections = s.connections ++ [x]) (hclosing : t.closing = s.closing) :
    Loads count none t := by
  rw [loads_none]
  intro c
  have hhandles : t.handles c = s.handles c + if cpu = c then 1 else 0 := by
    rw [handles, hconn, List.countP_append, List.countP_singleton]
    simp only [hx, Option.some.injEq, decide_eq_true_eq]
    rfl
  have hunder : t.underWay c = s.underWay c := by rw [underWay, hclosing, underWay]
  rw [hload, List.getElem?_modify, loads_none.mp hl c, hhandles, hunder]
  by_cases hc : c < count
  · rw [if_pos hc, if_pos hc]
    by_cases hcpu : cpu = c
    · subst hcpu
      simp
      omega
    · simp [hcpu]
  · rw [if_neg hc, if_neg hc]
    rfl

/-! ## The invariant -/

/-- The connections are where they belong, the loads are those of the handles, and the connections
went to one `accept()` each. -/
structure Inv (host count : Nat) (s : Conntrack) : Prop where
  placed : ∀ x ∈ s.connections, Placed host count x
  loads : Loads count none s
  handed : Handed s

/-- Every connection that is alive has its handle. -/
def AllHeld (s : Conntrack) : Prop :=
  ∀ x ∈ s.connections, x.place ≠ .closed → x.place.handle = some x.cpu

theorem nextCpu_spec {l : List Nat} (hc : c < l.length) :
    ∃ n m, l[nextCpu l]? = some n ∧ l[c]? = some m ∧ n ≤ m := by
  have hleast : ∃ x ∈ l, l.all (x ≤ ·) = true := by
    obtain ⟨n, hn⟩ : ∃ n, l.min? = some n := Option.isSome_iff_exists.mp (by
      rw [List.isSome_min?_iff]
      rintro rfl
      cases hc)
    obtain ⟨hmem, hle⟩ := List.min?_eq_some_iff.mp hn
    exact ⟨n, hmem, by simpa using hle⟩
  have hlt := List.findIdx_lt_length_of_exists hleast
  have hall := List.findIdx_getElem (w := hlt)
  rw [List.all_eq_true] at hall
  refine ⟨l[nextCpu l], l[c], List.getElem?_eq_getElem hlt, List.getElem?_eq_getElem hc, ?_⟩
  exact of_decide_eq_true (hall l[c] (List.getElem_mem hc))

/-- A shard with a connection is one of them, and so is the one that gets the next. -/
theorem nextCpu_lt (hhost : host < count) (hl : Loads count held s) : nextCpu s.cpuLoad < count := by
  obtain ⟨n, m, hn, -⟩ := nextCpu_spec (l := s.cpuLoad) (c := host) (by rw [hl.length]; exact hhost)
  rw [← hl.length]
  exact (List.getElem?_eq_some_iff.mp hn).1

/-- The handles are those of connections that are alive. -/
theorem live_of_handle (hx : Placed host count x) (hc : x.place.handle = some c) :
    x.cpu = c ∧ x.place ≠ .closed := by
  refine ⟨(hx.2.1 c hc).symm, fun hclosed => ?_⟩
  rw [hclosed] at hc
  cases hc

/-- The loads are balanced exactly if no connection has lost its handle. -/
theorem balanced_iff (hI : Inv host count s) : Balanced s ↔ AllHeld s := by
  have hle (x : Connection) (hx : x ∈ s.connections) (c : Nat) :
      decide (x.place.handle = some c) = true → decide (x.cpu = c ∧ x.place ≠ .closed) = true := by
    rw [decide_eq_true_iff, decide_eq_true_iff]
    exact live_of_handle (hI.placed x hx)
  have hlen := hI.loads.length
  constructor
  · intro hb x hx hlive
    by_contra hnone
    have hcpu := (hI.placed x hx).1
    have hless : s.handles x.cpu < s.live x.cpu :=
      Counting.countP_lt_countP (fun y hy => hle y hy x.cpu) hx (by simp [hlive]) (by simp [hnone])
    have hload := hb.load x.cpu (by rw [hlen]; exact hcpu)
    rw [loads_none.mp hI.loads, if_pos hcpu] at hload
    have := Option.some.inj hload
    omega
  · intro ha
    have hsame (c : Nat) : s.handles c = s.live c := by
      apply List.countP_congr
      intro x hx
      refine ⟨hle x hx c, fun h => ?_⟩
      rw [decide_eq_true_iff] at h ⊢
      rw [ha x hx h.2, h.1]
    have hload (c : Nat) (hc : c < s.cpuLoad.length) :
        s.cpuLoad[c]? = some (s.live c + s.underWay c) := by
      rw [hlen] at hc
      rw [loads_none.mp hI.loads, if_pos hc, hsame]
    refine ⟨hload, fun c hc => ?_⟩
    obtain ⟨n, m, hn, hm, hle⟩ := nextCpu_spec hc
    have hnext := (List.getElem?_eq_some_iff.mp hn).1
    rw [hload _ hnext] at hn
    rw [hload _ hc] at hm
    have := Option.some.inj hn
    have := Option.some.inj hm
    omega

/-! ## What a step keeps -/

theorem place_put {j : Nat} (hx : s.connections[i]? = some x) : (s.put i p).place j =
    if i = j then some p else s.place j := by
  rw [place, put_eq hx, List.getElem?_set]
  by_cases hij : i = j
  · rw [if_pos hij, if_pos hij, if_pos (List.getElem?_eq_some_iff.mp hx).1]
    rfl
  · rw [if_neg hij, if_neg hij]
    rfl

/-- A connection that goes somewhere else but to an `accept()`. -/
theorem Handed.put (hh : Handed s) (hx : s.connections[i]? = some x)
    (hp : p.Returned ↔ x.place.Returned) (hqueue : ∀ shard, p = .queued shard → shard ∉ s.sockets) :
    Handed (s.put i p) where
  once {j y} hy := by
    rcases getElem?_put hx hy with ⟨rfl, rfl⟩ | ⟨-, hy⟩
    · simp only [hp]
      exact hh.once hx
    · exact hh.once hy
  known q hq := by
    rw [put_eq hx, List.length_set]
    exact hh.known q hq
  matched := hh.matched
  prompt {j shard} hplace := by
    rw [place_put hx] at hplace
    split at hplace
    · exact hqueue shard (Option.some.inj hplace)
    · exact hh.prompt hplace

/-- A connection that goes to an `accept()`. -/
theorem Handed.handOver {sockets accepts : List Nat} (hh : Handed s)
    (hx : s.connections[i]? = some x) (hnot : ¬ x.place.Returned) (hshard : shard = x.cpu)
    (hsub : ∀ c ∈ sockets, c ∈ s.sockets)
    (hcount : ∀ c, accepts.count c + s.sockets.count c =
      s.accepts.count c + sockets.count c + if shard = c then 1 else 0) :
    Handed (handOver { s with sockets := sockets, accepts := accepts } i shard held) := by
  have hconn : (Conntrack.handOver { s with sockets := sockets, accepts := accepts } i shard
      held).connections = (s.put i (.opened shard held)).connections := rfl
  constructor
  · intro j y hy
    rw [hconn] at hy
    change (s.handed ++ [(i, shard)]).filter (·.1 = j) = _
    rw [List.filter_append]
    rcases getElem?_put hx hy with ⟨rfl, rfl⟩ | ⟨hne, hy⟩
    · rw [hh.once hx, if_neg hnot, hshard]
      simp [Place.Returned]
    · rw [hh.once hy]
      simp [hne]
  · intro q hq
    rw [hconn, put_eq hx, List.length_set]
    rcases List.mem_append.mp hq with hq | hq
    · exact hh.known q hq
    · obtain rfl := List.mem_singleton.mp hq
      exact (List.getElem?_eq_some_iff.mp hx).1
  · intro c
    change accepts.count c = ((s.handed ++ [(i, shard)]).map Prod.snd).count c + sockets.count c
    have hold := hh.matched c
    have hnew := hcount c
    rw [List.map_append, List.count_append, List.map_singleton, List.count_singleton]
    simp only [beq_iff_eq]
    omega
  · intro j shard' hplace hin
    change (s.put i (.opened shard held)).place j = _ at hplace
    rw [place_put hx] at hplace
    split at hplace
    · cases hplace
    · exact hh.prompt hplace (hsub shard' hin)

theorem Handed.destroyHandle (hh : Handed s) (host shard : Nat) (held : Option Nat) :
    Handed (destroyHandle host s shard held) := by
  constructor
  · intro i x hx
    rw [destroyHandle_connections] at hx
    rw [destroyHandle_handed]
    exact hh.once hx
  · rw [destroyHandle_connections, destroyHandle_handed]
    exact hh.known
  · rw [destroyHandle_accepts, destroyHandle_handed, destroyHandle_sockets]
    exact hh.matched
  · intro i shard' hplace
    rw [place, destroyHandle_connections] at hplace
    rw [destroyHandle_sockets]
    exact hh.prompt hplace

theorem place_snoc {t : Conntrack} (hconn : t.connections = s.connections ++ [x]) :
    t.place i = if i = s.connections.length then some x.place else s.place i := by
  rw [place, hconn, place, List.getElem?_append]
  by_cases hlt : i < s.connections.length
  · rw [if_pos hlt, if_neg (Nat.ne_of_lt hlt)]
  · rw [if_neg hlt]
    by_cases hi : i = s.connections.length
    · rw [if_pos hi, hi, Nat.sub_self]
      rfl
    · rw [if_neg hi, List.getElem?_eq_none (by rw [List.length_singleton]; omega),
        List.getElem?_eq_none (by omega)]

/-- A new connection, returned by an `accept()` at once or not. -/
theorem Handed.snoc {t : Conntrack} (hh : Handed s) (hconn : t.connections = s.connections ++ [x])
    (hqueued : ∀ shard, x.place ≠ .queued shard) (haccepts : t.accepts = s.accepts)
    (hhanded : t.handed = s.handed ++ if x.place.Returned then [(s.connections.length, x.cpu)] else [])
    (hsub : ∀ c ∈ t.sockets, c ∈ s.sockets)
    (hcount : ∀ c, s.sockets.count c =
      t.sockets.count c + if x.place.Returned ∧ x.cpu = c then 1 else 0) : Handed t := by
  have hnone : s.handed.filter (·.1 = s.connections.length) = [] := by
    rw [List.filter_eq_nil_iff]
    intro q hq
    have := hh.known q hq
    simp only [decide_eq_true_eq]
    omega
  constructor
  · intro j y hy
    rw [hconn, List.getElem?_append] at hy
    rw [hhanded, List.filter_append]
    split at hy
    · rename_i hlt
      rw [hh.once hy]
      have hne : s.connections.length ≠ j := by omega
      split <;> simp [hne]
    · obtain rfl := List.mem_singleton.mp (List.mem_of_getElem? hy)
      have hlen := (List.getElem?_eq_some_iff.mp hy).1
      rw [List.length_singleton] at hlen
      obtain rfl : j = s.connections.length := by omega
      rw [hnone]
      split <;> simp
  · intro q hq
    rw [hconn, List.length_append, List.length_singleton]
    rw [hhanded] at hq
    rcases List.mem_append.mp hq with hq | hq
    · have := hh.known q hq
      omega
    · split at hq
      · obtain rfl := List.mem_singleton.mp hq
        exact Nat.lt_succ_self _
      · cases hq
  · intro c
    have hold := hh.matched c
    have hnew := hcount c
    rw [haccepts, hhanded, List.map_append, List.count_append]
    by_cases hret : x.place.Returned
    · simp only [hret, true_and] at hnew
      rw [if_pos hret, List.map_singleton, List.count_singleton]
      simp only [beq_iff_eq]
      omega
    · simp only [hret, false_and, if_false] at hnew
      rw [if_neg hret, List.map_nil, List.count_nil]
      omega
  · intro j shard hplace hin
    rw [place_snoc hconn] at hplace
    split at hplace
    · exact hqueued shard (Option.some.inj hplace)
    · exact hh.prompt hplace (hsub shard hin)

theorem Handed.wait (hh : Handed s) (hnone : ∀ i, s.place i ≠ some (.queued shard)) :
    Handed { s with accepts := s.accepts ++ [shard], sockets := s.sockets ++ [shard] } where
  once := hh.once
  known := hh.known
  matched c := by
    have := hh.matched c
    change (s.accepts ++ [shard]).count c =
      (s.handed.map Prod.snd).count c + (s.sockets ++ [shard]).count c
    rw [List.count_append, List.count_append]
    omega
  prompt {i shard'} hplace hin := by
    rcases List.mem_append.mp hin with hin | hin
    · exact hh.prompt hplace hin
    · rw [List.mem_singleton.mp hin] at hplace
      exact hnone i hplace

theorem count_erase_add (hin : shard ∈ s.sockets) (c : Nat) :
    (s.sockets.erase shard).count c + (if shard = c then 1 else 0) = s.sockets.count c := by
  have h := Counting.countP_erase_add (· == c) hin
  simp only [beq_iff_eq] at h
  exact h

/-- Where a connection may be put. -/
theorem placed_put (hx : Placed host count x) (hhandle : ∀ c, p.handle = some c → c = x.cpu)
    (hmoving : ∀ shard handle, p ≠ .moving shard handle)
    (hqueued : ∀ shard, p = .queued shard → shard = x.cpu ∧ shard ≠ host)
    (hopened : ∀ shard handle, p = .opened shard handle → shard = x.cpu) :
    Placed host count { x with place := p } :=
  ⟨hx.1, hhandle, fun shard handle h => absurd h (hmoving shard handle), hqueued, hopened⟩

/-- The step lemma. -/
theorem Transition.inv (hhost : host < count) (hI : Inv host count s)
    (ht : Transition host s op s') : Inv host count s' := by
  cases ht with
  | here hwait hcpu =>
    refine ⟨?_, hI.loads.snoc (x := ⟨host, .opened host (some host)⟩) rfl rfl rfl rfl,
      hI.handed.snoc (x := ⟨host, .opened host (some host)⟩) rfl ?_ rfl rfl
        (fun c hc => List.mem_of_mem_erase hc) fun c => ?_⟩
    · intro x hx
      rcases List.mem_append.mp hx with hx | hx
      · exact hI.placed x hx
      · obtain rfl := List.mem_singleton.mp hx
        refine ⟨hhost, ?_, ?_, ?_, ?_⟩
        · rintro c hc
          exact (Option.some.inj hc).symm
        · intro shard handle h
          cases h
        · intro shard h
          cases h
        · rintro shard handle h
          cases h
          rfl
    · intro shard h
      cases h
    · have := count_erase_add hwait c
      simp only [Place.Returned, true_and]
      exact this.symm
  | there hcpu =>
    have hlt := nextCpu_lt hhost hI.loads
    refine ⟨?_, hI.loads.snoc (x := ⟨nextCpu s.cpuLoad, .moving (nextCpu s.cpuLoad)
        (nextCpu s.cpuLoad)⟩) rfl rfl rfl rfl,
      hI.handed.snoc (x := ⟨nextCpu s.cpuLoad, .moving (nextCpu s.cpuLoad) (nextCpu s.cpuLoad)⟩)
        rfl ?_ rfl ?_ (fun c hc => hc) fun c => ?_⟩
    · intro x hx
      rcases List.mem_append.mp hx with hx | hx
      · exact hI.placed x hx
      · obtain rfl := List.mem_singleton.mp hx
        refine ⟨hlt, ?_, ?_, ?_, ?_⟩
        · rintro c hc
          exact (Option.some.inj hc).symm
        · intro shard handle h
          cases h
          exact ⟨rfl, hcpu⟩
        · intro shard h
          cases h
        · intro shard handle h
          cases h
    · intro shard h
      cases h
    · exact (List.append_nil _).symm
    · simp [Place.Returned]
  | @met i shard handle hplace hwait =>
    obtain ⟨x, hx, hmoving⟩ := exists_of_place hplace
    have hplaced := hI.placed x (List.mem_of_getElem? hx)
    have hshard := (hplaced.2.2.1 shard handle hmoving).1
    have hhandle : some handle = x.place.handle := by rw [hmoving]; rfl
    refine ⟨forall_put hx hI.placed (placed_put hplaced ?_ ?_ ?_ ?_), hI.loads.keep hx hhandle,
      hI.handed.handOver hx ?_ hshard (fun c hc => List.mem_of_mem_erase hc) fun c => ?_⟩
    · intro c hc
      exact hplaced.2.1 c (hhandle.symm.trans hc)
    · intro shard' handle' h
      cases h
    · intro shard' h
      cases h
    · intro shard' handle' h
      cases h
      exact hshard
    · rw [hmoving]
      exact fun h => h
    · have := count_erase_add hwait c
      omega
  | @queue i shard handle hplace hwait =>
    obtain ⟨x, hx, hmoving⟩ := exists_of_place hplace
    have hplaced := hI.placed x (List.mem_of_getElem? hx)
    have hshard := hplaced.2.2.1 shard handle hmoving
    have hloads := hI.loads.put (p := .queued shard) hx rfl
    rw [hmoving] at hloads
    refine ⟨?_, hloads.destroyHandle host shard, ?_⟩
    · rw [destroyHandle_connections]
      apply forall_put hx hI.placed
      refine placed_put hplaced ?_ ?_ ?_ ?_
      · intro c hc
        cases hc
      · intro shard' handle' h
        cases h
      · intro shard' h
        cases h
        exact hshard
      · intro shard' handle' h
        cases h
    · apply Handed.destroyHandle
      apply hI.handed.put hx
      · rw [hmoving]
        exact Iff.rfl
      · intro shard' h
        cases h
        exact hwait
  | @wait shard pick hnone =>
    refine ⟨hI.placed, hI.loads, hI.handed.wait fun i hplace => ?_⟩
    obtain ⟨x, hx, hqueued⟩ := exists_of_place hplace
    exact hnone ((hI.placed x (List.mem_of_getElem? hx)).2.2.2.1 shard hqueued).2 i hplace
  | @take shard pick i hplace =>
    obtain ⟨x, hx, hqueued⟩ := exists_of_place hplace
    have hplaced := hI.placed x (List.mem_of_getElem? hx)
    have hshard := (hplaced.2.2.2.1 shard hqueued).1
    refine ⟨forall_put hx hI.placed (placed_put hplaced ?_ ?_ ?_ ?_),
      hI.loads.keep (p := .opened shard none) hx (by rw [hqueued]; rfl),
      hI.handed.handOver hx ?_ hshard (fun c hc => hc) fun c => ?_⟩
    · intro c hc
      cases hc
    · intro shard' handle' h
      cases h
    · intro shard' h
      cases h
    · intro shard' handle' h
      cases h
      exact hshard
    · rw [hqueued]
      exact fun h => h
    · rw [List.count_append, List.count_singleton]
      simp only [beq_iff_eq]
      omega
  | @close i shard handle hplace =>
    obtain ⟨x, hx, hopened⟩ := exists_of_place hplace
    have hplaced := hI.placed x (List.mem_of_getElem? hx)
    have hloads := hI.loads.put (p := .closed) hx rfl
    rw [hopened] at hloads
    refine ⟨?_, hloads.destroyHandle host shard, ?_⟩
    · rw [destroyHandle_connections]
      apply forall_put hx hI.placed
      refine placed_put hplaced ?_ ?_ ?_ ?_
      · intro c hc
        cases hc
      · intro shard' handle' h
        cases h
      · intro shard' h
        cases h
      · intro shard' handle' h
        cases h
    · apply Handed.destroyHandle
      apply hI.handed.put hx
      · rw [hopened]
        exact Iff.rfl
      · intro shard' h
        cases h
  | closed hclosing =>
    exact ⟨hI.placed, (hI.loads.closing hclosing).closedCpu,
      ⟨hI.handed.once, hI.handed.known, hI.handed.matched, hI.handed.prompt⟩⟩

/-- A step from a state where every connection has its handle leads to another one exactly if no
connection has to wait in a queue. -/
theorem Transition.allHeld (ha : AllHeld s) (ht : Transition host s op s') : Waited s op ↔ AllHeld s' := by
  cases ht with
  | here hwait hcpu =>
    refine iff_of_true trivial fun x hx hlive => ?_
    rcases List.mem_append.mp hx with hx | hx
    · exact ha x hx hlive
    · obtain rfl := List.mem_singleton.mp hx
      rfl
  | there hcpu =>
    refine iff_of_true trivial fun x hx hlive => ?_
    rcases List.mem_append.mp hx with hx | hx
    · exact ha x hx hlive
    · obtain rfl := List.mem_singleton.mp hx
      rfl
  | @met i shard handle hplace hwait =>
    obtain ⟨x, hx, hmoving⟩ := exists_of_place hplace
    refine iff_of_true (fun shard' handle' h => ?_) (forall_put hx ha fun _ => ?_)
    · rw [hplace] at h
      cases h
      exact hwait
    · have := ha x (List.mem_of_getElem? hx) (by rw [hmoving]; intro h; cases h)
      rw [hmoving] at this
      exact this
  | @queue i shard handle hplace hwait =>
    obtain ⟨x, hx, hmoving⟩ := exists_of_place hplace
    refine iff_of_false (fun h => hwait (h shard handle hplace)) fun h => ?_
    rw [AllHeld, destroyHandle_connections, put_eq hx] at h
    have hin : { x with place := .queued shard } ∈ s.connections.set i { x with place := .queued shard } :=
      List.mem_set (List.getElem?_eq_some_iff.mp hx).1 _
    have := h _ hin (by intro h; cases h)
    cases this
  | wait => exact iff_of_true trivial ha
  | @take shard pick i hplace =>
    obtain ⟨x, hx, hqueued⟩ := exists_of_place hplace
    have := ha x (List.mem_of_getElem? hx) (by rw [hqueued]; intro h; cases h)
    rw [hqueued] at this
    cases this
  | @close i shard handle hplace =>
    obtain ⟨x, hx, hopened⟩ := exists_of_place hplace
    refine iff_of_true trivial ?_
    rw [AllHeld, destroyHandle_connections]
    exact forall_put hx ha fun h => absurd rfl h
  | closed => exact iff_of_true trivial ha

/-! ## Runs -/

theorem inv_init (host count : Nat) : Inv host count (init count) where
  placed x hx := by cases hx
  loads := by
    rw [loads_none]
    intro c
    rw [init]
    by_cases hc : c < count
    · rw [if_pos hc, List.getElem?_eq_getElem (by rw [List.length_replicate]; exact hc),
        List.getElem_replicate]
      rfl
    · rw [if_neg hc, List.getElem?_eq_none (by rw [List.length_replicate]; omega)]
  handed := by
    constructor
    · intro i x hx
      cases hx
    · intro q hq
      cases hq
    · intro c
      rfl
    · intro i shard hplace
      cases hplace

/-- In every run each connection is handed to one `accept()`, on its shard. The loads are balanced
all through a run exactly if each connection that comes to its shard finds an `accept()` that
waits. -/
theorem run_balanced_iff {host count : Nat} (hhost : host < count) {ops : List Op} {s : Conntrack}
    (hr : Run.run (step host) (init count) ops = .ok s) :
    Run.Throughout (step host) Handed (init count) ops ∧
      (Run.Throughout (step host) Balanced (init count) ops ↔
        Run.Along (step host) Waited (init count) ops) := by
  have hstep (s : Conntrack) (op : Op) (s' : Conntrack) (hI : Inv host count s)
      (h : step host s op = .ok s') : Inv host count s' := (step_transition h).inv hhost hI
  constructor
  · exact Run.Throughout.of_along (P := fun _ _ => True) (fun s op s' hI _ h => hstep s op s' hI h)
      (fun s hI => hI.handed) (inv_init host count) (Run.Along.of_mem fun _ _ _ => trivial)
  · have hstart : Balanced (init count) := by
      rw [balanced_iff (inv_init host count)]
      intro x hx
      cases hx
    refine (Run.along_iff_throughout_of_run (fun s op s' hI hb h => ?_) (inv_init host count) hstart
      hr).symm
    have hI' := hstep s op s' hI h
    refine ⟨hI', ?_⟩
    rw [balanced_iff hI']
    exact (step_transition h).allHeld ((balanced_iff hI).mp hb)

/-- Two shards, and a connection for each of them that is met by an `accept()`. -/
theorem run_balanced_iff_two :
    Run.Throughout (step 0) Handed (init 2)
        [.accept 1 0, .accept 0 0, .kernel, .accept 0 0, .kernel, .arrive 1] ∧
      (Run.Throughout (step 0) Balanced (init 2)
          [.accept 1 0, .accept 0 0, .kernel, .accept 0 0, .kernel, .arrive 1] ↔
        Run.Along (step 0) Waited (init 2)
          [.accept 1 0, .accept 0 0, .kernel, .accept 0 0, .kernel, .arrive 1]) :=
  run_balanced_iff (by decide) (s := {
    cpuLoad := [1, 1]
    connections := [⟨0, .opened 0 (some 0)⟩, ⟨1, .opened 1 (some 1)⟩]
    sockets := [0]
    accepts := [1, 0, 0]
    handed := [(0, 0), (1, 1)] }) (by decide)

/-- Shard 1 has two connections that came when no `accept()` waited there, one of which was taken
from the queue since. Its load is 0, no call is on the way, and it gets the next connection too. -/
theorem run_queued : ∃ s, Run.run (step 0) (init 2)
      [.accept 0 0, .kernel, .accept 0 0, .kernel, .arrive 1, .closed 0, .accept 1 0, .kernel,
        .arrive 2, .closed 0] = .ok s ∧
    s.closing = [] ∧ s.cpuLoad = [1, 0] ∧ s.live 0 = 1 ∧ s.live 1 = 2 ∧ nextCpu s.cpuLoad = 1 := by
  refine ⟨{
    cpuLoad := [1, 0]
    connections := [⟨0, .opened 0 (some 0)⟩, ⟨1, .opened 1 none⟩, ⟨1, .queued 1⟩]
    sockets := [0]
    accepts := [0, 0, 1]
    handed := [(0, 0), (1, 1)] }, ?_, rfl, rfl, ?_, ?_, ?_⟩ <;> decide

end Seastar.Conntrack
