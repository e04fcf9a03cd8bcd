import Seastar.Core.Fault
import Seastar.Lib.Counting
import Seastar.Lib.Run

/-!
`file_data_sink_impl` of `core/fstream.cc`, as a state machine. A call is made
when the future of the one before it has resolved, as the output stream over the
sink does, so the semaphore has at most one waiter. The events are the calls,
and the ends of the operations on the file and of the futures chained to them.

What is written is left out: a buffer is its size.
-/

namespace Seastar

open Lib

/-- The calls of the sink. -/
inductive FileDataSink.Call
  | put (size : Nat)
  | flush
  | close
  deriving DecidableEq, Repr

/-- Where a `do_put` is: the `dma_write`, the `truncate` after it, or its end. -/
inductive FileDataSink.WriteState
  | writing
  | truncating
  | done (ok : Bool)
  deriving DecidableEq, Repr

/-- A `do_put`, with the number of the call that issued it and the number of `truncate` calls that
its completed writes have left to do. -/
structure FileDataSink.Write where
  call : Nat
  pos : Nat
  size : Nat
  truncates : Nat
  state : FileDataSink.WriteState := .writing
  deriving DecidableEq, Repr

/-- `_background_writes_done`: the writes whose results it merges, and how many of them it has
merged. -/
structure FileDataSink.Chain where
  writes : List Nat := []
  merged : Nat := 0
  deriving DecidableEq, Repr

/-- What the call that is being made waits for. -/
inductive FileDataSink.Stage
  /-- units of the semaphore -/
  | waiting
  /-- its own `do_put` -/
  | writing (write : Nat)
  /-- the background writes it has taken -/
  | draining (chain : FileDataSink.Chain)
  /-- `flush()` or `close()` of the file, after that result -/
  | filing (ok : Bool)
  deriving DecidableEq, Repr

/-- The call that is being made, with the position a `put` writes to. -/
structure FileDataSink.Pending where
  number : Nat
  call : FileDataSink.Call
  pos : Nat
  stage : FileDataSink.Stage
  deriving DecidableEq, Repr

/-- `class file_data_sink_impl`. -/
structure FileDataSink where
  writeBehind : Nat
  diskWriteDmaAlignment : Nat
  pos : Nat := 0
  /-- the units of `_write_behind_sem` -/
  available : Nat := writeBehind
  background : FileDataSink.Chain := {}
  failed : Bool := false
  /-- every `do_put`, in the order they were issued -/
  writes : List FileDataSink.Write := []
  pending : Option FileDataSink.Pending := none
  /-- history: the number of calls -/
  calls : Nat := 0
  /-- history: `close` has been called -/
  closed : Bool := false
  /-- history: the futures that have resolved, by the number of their call -/
  results : List (Nat × Bool) := []
  /-- history: the calls that issued a `dma_write` that failed -/
  writeErrors : List Nat := []
  deriving DecidableEq, Repr

namespace FileDataSink

/-- Not a multiple of the alignment, which is a power of two. -/
def unaligned (n align : Nat) : Bool := n &&& (align - 1) ≠ 0

/-- `align_up`. -/
def alignUp (n align : Nat) : Nat := (n + align - 1) / align * align

/-- `do_put` up to its `dma_write`. -/
def doPut (call pos size truncates : Nat) (s : FileDataSink) : Except Fault Write :=
  if unaligned pos s.diskWriteDmaAlignment then .error .assertFailed
  else if unaligned size s.diskWriteDmaAlignment then
    .ok { call, pos, size := alignUp size s.diskWriteDmaAlignment, truncates := truncates + 1 }
  else .ok { call, pos, size, truncates }

/-- The future of the call that is being made resolves. -/
def resolve (number : Nat) (ok : Bool) (s : FileDataSink) : FileDataSink :=
  { s with pending := none, results := s.results ++ [(number, ok)] }

/-- Changes the stage of the call that is being made. -/
def enter (p : Pending) (stage : Stage) (s : FileDataSink) : FileDataSink :=
  { s with pending := some { p with stage } }

/-- A call, up to its wait for the semaphore. -/
def call (c : Call) (s : FileDataSink) : Except Fault FileDataSink :=
  let p : Pending := ⟨s.calls, c, s.pos, .waiting⟩
  let s := { s with calls := s.calls + 1, pending := some p, closed := s.closed || c = .close }
  match c with
  | .put size => do
    let s := { s with pos := s.pos + size }
    if s.writeBehind = 0 then
      let write ← doPut p.number p.pos size 0 s
      .ok ({ s with writes := s.writes ++ [write] }.enter p (.writing s.writes.length))
    else .ok s
  | _ => .ok s

/-- The units that a call waits for. -/
def units (c : Call) (s : FileDataSink) : Nat :=
  match c with
  | .put _ => 1
  | _ => s.writeBehind

/-- The continuation of the wait for the semaphore. -/
def proceed (p : Pending) (s : FileDataSink) : Except Fault FileDataSink :=
  let s := { s with available := s.available - s.units p.call }
  match p.call with
  | .put size =>
    if s.failed then
      .ok ({ s with available := s.available + 1, background := {} }.enter p (.draining s.background))
    else do
      let write ← doPut p.number p.pos size 0 s
      .ok ({ s with
        writes := s.writes ++ [write]
        background := { s.background with writes := s.background.writes ++ [s.writes.length] }
      }.resolve p.number true)
  | _ => .ok ({ s with background := {} }.enter p (.draining s.background))

/-- A `do_put` ends: without write-behind its call resolves, otherwise a unit goes back to the
semaphore. -/
def finish (k : Nat) (w : Write) (ok : Bool) (s : FileDataSink) : FileDataSink :=
  let s := { s with writes := s.writes.set k { w with state := .done ok } }
  if s.writeBehind = 0 then s.resolve w.call ok else { s with available := s.available + 1 }

/-- A `dma_write` of a `do_put` ends, with an error or with the number of bytes. -/
def written (k : Nat) (w : Write) (result : Option Nat) (s : FileDataSink) :
    Except Fault FileDataSink :=
  match result with
  | none => .ok ({ s with writeErrors := s.writeErrors ++ [w.call] }.finish k w false)
  | some size =>
    if size < w.size then do
      let w ← doPut w.call (w.pos + size) (w.size - size) w.truncates s
      .ok { s with writes := s.writes.set k w }
    else if w.truncates = 0 then .ok (s.finish k w true)
    else .ok { s with writes := s.writes.set k { w with state := .truncating } }

/-- A `truncate` of a `do_put` ends. -/
def truncated (k : Nat) (w : Write) (ok : Bool) (s : FileDataSink) : FileDataSink :=
  if !ok then s.finish k w false
  else if w.truncates ≤ 1 then s.finish k { w with truncates := 0 } true
  else { s with writes := s.writes.set k { w with truncates := w.truncates - 1 } }

/-- The write of the chain has ended well. -/
def wroteOk (s : FileDataSink) (k : Nat) : Bool := (s.writes[k]?.map Write.state) = some (.done true)

/-- The next write of a chain that is to be merged has ended. -/
def mayMerge (s : FileDataSink) (c : Chain) : Bool :=
  match c.writes[c.merged]? with
  | none => false
  | some k =>
    match s.writes[k]? with
    | some { state := .done _, .. } => true
    | _ => false

/-- Whether merging the next write of a chain is what sets `_failed`. -/
def mergeFails (s : FileDataSink) (c : Chain) : Bool :=
  (c.writes.take c.merged).all s.wroteOk && !(c.writes.take (c.merged + 1)).all s.wroteOk

/-- The merge of a write's result into `_background_writes_done`. -/
def merge (s : FileDataSink) : FileDataSink :=
  { s with
    background := { s.background with merged := s.background.merged + 1 }
    failed := s.failed || s.mergeFails s.background }

/-- The merge of a write's result into the future that the call has taken. -/
def mergeTaken (p : Pending) (c : Chain) (s : FileDataSink) : FileDataSink :=
  { s with failed := s.failed || s.mergeFails c }.enter p
    (.draining { c with merged := c.merged + 1 })

/-- The background writes that the call has taken are done. -/
def drained (p : Pending) (c : Chain) (s : FileDataSink) : FileDataSink :=
  let ok := c.writes.all s.wroteOk
  match p.call with
  | .put _ => s.resolve p.number ok
  | .flush =>
    let s := { s with available := s.available + s.writeBehind }
    if ok then s.enter p (.filing true) else s.resolve p.number false
  | .close => { s with available := s.available + s.writeBehind }.enter p (.filing ok)

/-- The call that waits for background writes, and these. -/
def taken (s : FileDataSink) : Option (Pending × Chain) :=
  match s.pending with
  | some ⟨number, call, pos, .draining c⟩ => some (⟨number, call, pos, .draining c⟩, c)
  | _ => none

/-- What can happen. -/
inductive Action
  | call (c : Call)
  | proceed
  | written (write : Nat) (result : Option Nat)
  | truncated (write : Nat) (ok : Bool)
  | merge
  | mergeTaken
  | drained
  | filed (ok : Bool)
  deriving DecidableEq, Repr

/-- One action; one that `Valid` excludes changes nothing. -/
def step (s : FileDataSink) : Action → Except Fault FileDataSink
  | .call c => s.call c
  | .proceed =>
    match s.pending with
    | some p => s.proceed p
    | none => .ok s
  | .written k result =>
    match s.writes[k]? with
    | some w => s.written k w result
    | none => .ok s
  | .truncated k ok =>
    match s.writes[k]? with
    | some w => .ok (s.truncated k w ok)
    | none => .ok s
  | .merge => .ok s.merge
  | .mergeTaken =>
    match s.taken with
    | some (p, c) => .ok (s.mergeTaken p c)
    | none => .ok s
  | .drained =>
    match s.taken with
    | some (p, c) => .ok (s.drained p c)
    | none => .ok s
  | .filed ok =>
    match s.pending with
    | some ⟨number, _, _, .filing ok'⟩ => .ok (s.resolve number (ok' && ok))
    | _ => .ok s

/-- The sink after the actions, oldest first. -/
def run : FileDataSink → List Action → Except Fault FileDataSink := Run.run step

/-- A call is made when there is none and the sink is not closed; the others happen when what they
wait for has. -/
def Valid (s : FileDataSink) : Action → Prop
  | .call _ => s.pending = none ∧ s.closed = false
  | .proceed => ∃ p ∈ s.pending, p.stage = .waiting ∧ s.units p.call ≤ s.available
  | .written k result =>
    ∃ w ∈ s.writes[k]?, w.state = .writing ∧ ∀ n ∈ result, n ≤ w.size
  | .truncated k _ => ∃ w ∈ s.writes[k]?, w.state = .truncating
  | .merge => s.mayMerge s.background
  | .mergeTaken => ∃ x ∈ s.taken, s.mayMerge x.2
  | .drained => ∃ x ∈ s.taken, x.2.merged = x.2.writes.length
  | .filed _ => ∃ p ∈ s.pending, p.stage = .filing true ∨ p.stage = .filing false

instance (s : FileDataSink) (a : Action) : Decidable (Valid s a) := by
  cases a <;> unfold Valid <;> infer_instance

/-- The `do_put` has not ended. -/
def Write.running (w : Write) : Bool :=
  match w.state with
  | .done _ => false
  | _ => true

/-- The number of `do_put`s that have not ended; each has at most one `dma_write` in flight. -/
def inFlight (s : FileDataSink) : Nat := s.writes.countP Write.running

/-! ## Writes -/

variable {s : FileDataSink} {k : Nat} {w w' : Write}

/-- One unit for a running `do_put`. -/
def Write.unit (w : Write) : Nat := if w.running then 1 else 0

/-- Changing one `do_put` changes the number in flight by it. -/
theorem countP_set_add (h : s.writes[k]? = some w) (w' : Write) :
    (s.writes.set k w').countP Write.running + w.unit = s.inFlight + w'.unit := by
  exact Counting.countP_set_add Write.running h w'

theorem countP_snoc (hw : w.running = true) :
    (s.writes ++ [w]).countP Write.running = s.inFlight + 1 := by
  rw [List.countP_append, List.countP_singleton, if_pos hw]
  rfl

/-- The chain has a write of the call that has failed. -/
def Failing (s : FileDataSink) (c : Chain) (call : Nat) : Prop :=
  ∃ i ∈ c.writes, ∃ w, s.writes[i]? = some w ∧ w.call = call ∧ w.state = .done false

/-- Failed writes stay, in chains that keep their writes. -/
theorem Failing.mono {s' : FileDataSink} {c c' : Chain} {call : Nat} (h : Failing s c call)
    (hc : ∀ i ∈ c.writes, i ∈ c'.writes)
    (hw : ∀ (i : Nat) (w : Write), s.writes[i]? = some w → w.running = false →
      s'.writes[i]? = some w) :
    Failing s' c' call := by
  obtain ⟨i, hi, w, hget, hcall, hstate⟩ := h
  exact ⟨i, hc i hi, w, hw i w hget (by rw [Write.running, hstate]), hcall, hstate⟩

theorem getElem?_snoc_of_some {i : Nat} {w : Write} (h : s.writes[i]? = some w) (w' : Write) :
    (s.writes ++ [w'])[i]? = some w := by
  rw [List.getElem?_append_left (List.getElem?_eq_some_iff.mp h).1]
  exact h

theorem getElem?_set_of_ended (hk : s.writes[k]? = some w) (hr : w.running = true) (w' : Write)
    {i : Nat} {v : Write} (h : s.writes[i]? = some v) (hv : v.running = false) :
    (s.writes.set k w')[i]? = some v := by
  rw [List.getElem?_set_ne]
  · exact h
  · rintro rfl
    rw [hk] at h
    rw [Option.some.inj h, hv] at hr
    exact Bool.false_ne_true hr

/-- A chain with a failed write does not end well. -/
theorem Failing.not_ok {c : Chain} {call : Nat} (h : Failing s c call) :
    c.writes.all s.wroteOk = false := by
  obtain ⟨i, hi, w, hget, -, hstate⟩ := h
  rw [List.all_eq_false]
  refine ⟨i, hi, ?_⟩
  rw [wroteOk, hget, Option.map_some, hstate]
  decide

/-- The writes that a chain has merged have ended. -/
structure Merged (s : FileDataSink) (c : Chain) : Prop where
  le : c.merged ≤ c.writes.length
  ended : ∀ i ∈ c.writes.take c.merged, ∃ w, s.writes[i]? = some w ∧ w.running = false

theorem Merged.mono {s' : FileDataSink} {c : Chain} (h : s.Merged c)
    (hw : ∀ (i : Nat) (w : Write), s.writes[i]? = some w → w.running = false →
      s'.writes[i]? = some w) : s'.Merged c := by
  refine ⟨h.le, fun i hi => ?_⟩
  obtain ⟨w, hget, hr⟩ := h.ended i hi
  exact ⟨w, hw i w hget hr, hr⟩

theorem Merged.empty (s : FileDataSink) : s.Merged {} :=
  ⟨Nat.le_refl 0, fun _ hi => absurd hi List.not_mem_nil⟩

theorem Merged.snoc {c : Chain} (h : s.Merged c) (i : Nat) :
    s.Merged { c with writes := c.writes ++ [i] } := by
  refine ⟨?_, fun j hj => h.ended j ?_⟩
  · rw [List.length_append]
    exact Nat.le_add_right_of_le h.le
  · rw [List.take_append_of_le_length h.le] at hj
    exact hj

theorem Merged.next {c : Chain} (h : s.Merged c) (hm : s.mayMerge c = true) :
    s.Merged { c with merged := c.merged + 1 } := by
  unfold mayMerge at hm
  split at hm
  · exact absurd hm Bool.false_ne_true
  · rename_i k hk
    split at hm
    · rename_i call pos size truncates ok hw
      refine ⟨(List.getElem?_eq_some_iff.mp hk).1, fun i hi => ?_⟩
      rw [List.take_add_one, hk] at hi
      rcases List.mem_append.mp hi with hi | hi
      · exact h.ended i hi
      · rw [List.mem_singleton.mp hi]
        exact ⟨_, hw, rfl⟩
    · exact absurd hm Bool.false_ne_true

/-! ## The invariant -/

/-- The units that a call holds while it waits for the background writes. -/
def held (s : FileDataSink) : Nat :=
  match s.pending with
  | some ⟨_, .put _, _, .draining _⟩ => 0
  | some ⟨_, _, _, .draining _⟩ => s.writeBehind
  | _ => 0

/-- One for a call that waits for its own `do_put`. -/
def own (s : FileDataSink) : Nat :=
  match s.pending with
  | some ⟨_, _, _, .writing _⟩ => 1
  | _ => 0

/-- The failed write of the call is known: a future has failed, or one is going to. -/
def Accounted (s : FileDataSink) (call : Nat) : Prop :=
  (∃ j, (j, false) ∈ s.results ∧ (call < j ∨ (s.writeBehind = 0 ∧ j = call))) ∨
    s.Failing s.background call ∨
    ∃ p, s.pending = some p ∧ call < p.number ∧
      (p.stage = .filing false ∨ ∃ c, p.stage = .draining c ∧ s.Failing c call)

/-- The units of the semaphore are with the writes in flight or with the call, every write in flight
is in a chain, and no failed write is forgotten. -/
structure Inv (s : FileDataSink) : Prop where
  units : s.available + s.inFlight + s.held = s.writeBehind + s.own
  own : 0 < s.own → s.writeBehind = 0
  bound : ∀ w ∈ s.writes, w.call < s.calls
  order : ∀ p, s.pending = some p → p.number < s.calls ∧
    ((∀ k, p.stage ≠ .writing k) → ∀ w ∈ s.writes, w.call < p.number)
  listed : 0 < s.writeBehind → ∀ i w, s.writes[i]? = some w → w.running = true →
    i ∈ s.background.writes ∨ ∃ p c, s.pending = some p ∧ p.stage = .draining c ∧ i ∈ c.writes
  accounted : ∀ call ∈ s.writeErrors, s.Accounted call
  closing : s.closed = true → (s.pending = none → s.background.writes = []) ∧
    ∀ p, s.pending = some p → p.call = .close ∧ (p.stage ≠ .waiting → s.background.writes = [])
  background : s.Merged s.background
  taken : ∀ p c, s.pending = some p → p.stage = .draining c → s.Merged c

theorem Accounted.mono {s' : FileDataSink} {call : Nat} (h : s.Accounted call)
    (hr : ∀ x ∈ s.results, x ∈ s'.results) (hb : s'.background.writes = s.background.writes)
    (hw : ∀ (i : Nat) (w : Write), s.writes[i]? = some w → w.running = false →
      s'.writes[i]? = some w)
    (hwb : s'.writeBehind = s.writeBehind) (hp : s'.pending = s.pending) : s'.Accounted call := by
  rcases h with ⟨j, hj, hlt⟩ | hf | ⟨p, hpend, hlt, hstage⟩
  · exact Or.inl ⟨j, hr _ hj, hwb ▸ hlt⟩
  · exact Or.inr (Or.inl (hf.mono (fun i hi => hb ▸ hi) hw))
  · refine Or.inr (Or.inr ⟨p, hp.trans hpend, hlt, ?_⟩)
    rcases hstage with h | ⟨c, hc, hf⟩
    · exact Or.inl h
    · exact Or.inr ⟨c, hc, hf.mono (fun i hi => hi) hw⟩

theorem mem_set {i : Nat} {v : Write} (h : v ∈ s.writes.set i w') : v ∈ s.writes ∨ v = w' :=
  List.mem_or_eq_of_mem_set h

/-- A running `do_put` goes on. -/
theorem Inv.setWrite (h : Inv s) (hk : s.writes[k]? = some w) (hr : w.running = true)
    (hcall : w'.call = w.call) (hr' : w'.running = true) :
    Inv { s with writes := s.writes.set k w' } := by
  have hmem : w ∈ s.writes := List.mem_of_getElem? hk
  have hlt := (List.getElem?_eq_some_iff.mp hk).1
  have hcount := countP_set_add hk w'
  have hended : ∀ (i : Nat) (v : Write), s.writes[i]? = some v → v.running = false →
      (s.writes.set k w')[i]? = some v := fun i v hv hf => getElem?_set_of_ended hk hr w' hv hf
  refine ⟨?_, h.own, ?_, ?_, ?_, ?_, h.closing, h.background.mono hended,
    fun p c hp hc => (h.taken p c hp hc).mono hended⟩
  · have hflight : (s.writes.set k w').countP Write.running = s.inFlight := by
      rw [Write.unit, Write.unit, if_pos hr, if_pos hr'] at hcount
      exact Nat.add_right_cancel hcount
    show s.available + (s.writes.set k w').countP Write.running + s.held = s.writeBehind + s.own
    rw [hflight]
    exact h.units
  · intro v hv
    rcases mem_set hv with hv | rfl
    · exact h.bound v hv
    · rw [hcall]
      exact h.bound w hmem
  · intro p hp
    refine ⟨(h.order p hp).1, fun hstage v hv => ?_⟩
    rcases mem_set hv with hv | rfl
    · exact (h.order p hp).2 hstage v hv
    · rw [hcall]
      exact (h.order p hp).2 hstage w hmem
  · intro hwb i v hv hrun
    by_cases hi : i = k
    · subst hi
      exact h.listed hwb i w hk hr
    · rw [List.getElem?_set_ne (Ne.symm hi)] at hv
      exact h.listed hwb i v hv hrun
  · intro call hc
    exact (h.accounted call hc).mono (fun x hx => hx) rfl hended rfl rfl

/-- A failed write that is known is recorded. -/
theorem Inv.addError {call : Nat} (h : Inv s) (ha : s.Accounted call) :
    Inv { s with writeErrors := s.writeErrors ++ [call] } := by
  refine ⟨h.units, h.own, h.bound, h.order, h.listed, fun c hc => ?_, h.closing,
    h.background.mono fun _ _ hw _ => hw, fun p c hp hc => (h.taken p c hp hc).mono fun _ _ hw _ => hw⟩
  rcases List.mem_append.mp hc with hc | hc
  · exact h.accounted c hc
  · rw [List.mem_singleton.mp hc]
    exact ha

theorem finish_writeErrors (errors : List Nat) (k : Nat) (w : Write) (ok : Bool)
    (s : FileDataSink) : { s with writeErrors := errors }.finish k w ok =
      { s.finish k w ok with writeErrors := errors } := by
  unfold finish resolve
  dsimp only
  split <;> rfl

theorem own_le_one (s : FileDataSink) : s.own ≤ 1 := by
  unfold own
  split <;> decide

theorem own_eq_one (h : s.own = 1) : ∃ p k, s.pending = some p ∧ p.stage = .writing k := by
  unfold own at h
  split at h
  · rename_i number call pos k hp
    exact ⟨_, k, hp, rfl⟩
  · exact absurd h (by decide)

/-- A `do_put` ends. If it failed, that is known. -/
theorem Inv.finish (h : Inv s) (hk : s.writes[k]? = some w) (hr : w.running = true)
    (hcall : w'.call = w.call) (ok : Bool) :
    Inv (s.finish k w' ok) ∧ (ok = false → (s.finish k w' ok).Accounted w.call) := by
  have hmem : w ∈ s.writes := List.mem_of_getElem? hk
  have hlt := (List.getElem?_eq_some_iff.mp hk).1
  have hcount := countP_set_add hk { w' with state := .done ok }
  have hended : ∀ (i : Nat) (v : Write), s.writes[i]? = some v → v.running = false →
      (s.writes.set k { w' with state := .done ok })[i]? = some v :=
    fun i v hv hf => getElem?_set_of_ended hk hr _ hv hf
  have hself : (s.writes.set k { w' with state := .done ok })[k]? =
      some { w' with state := .done ok } := List.getElem?_set_self hlt
  have hflight : (s.writes.set k { w' with state := .done ok }).countP Write.running + 1 =
      s.inFlight := by
    rw [Write.unit, if_pos hr] at hcount
    exact hcount
  have hbound : ∀ v ∈ s.writes.set k { w' with state := .done ok }, v.call < s.calls := by
    intro v hv
    rcases mem_set hv with hv | rfl
    · exact h.bound v hv
    · show w'.call < s.calls
      rw [hcall]
      exact h.bound w hmem
  have hunits := h.units
  unfold FileDataSink.finish
  dsimp only
  split
  · -- without write-behind
    rename_i hwb
    have hown : s.own = 1 := by
      have := own_le_one s
      omega
    obtain ⟨p, j, hp, hstage⟩ := own_eq_one hown
    refine ⟨⟨?_, ?_, hbound, ?_, ?_, ?_, ?_, h.background.mono hended, fun q c hq => absurd hq nofun⟩,
      ?_⟩
    · show s.available + (s.writes.set k _).countP Write.running + 0 = s.writeBehind + 0
      omega
    · intro hpos
      exact hwb
    · intro q hq
      exact absurd hq (by rw [resolve]; exact nofun)
    · intro hpos
      exact absurd hwb (Nat.ne_of_gt hpos)
    · intro call hc
      rcases h.accounted call hc with ⟨i, hi, hlt⟩ | hf | ⟨q, hq, -, hq'⟩
      · exact Or.inl ⟨i, List.mem_append_left _ hi, hlt⟩
      · exact Or.inr (Or.inl (hf.mono (fun i hi => hi) hended))
      · rw [hp] at hq
        rw [← Option.some.inj hq, hstage] at hq'
        rcases hq' with hq' | ⟨c, hq', -⟩
        · exact absurd hq' nofun
        · exact absurd hq' nofun
    · intro hclosed
      obtain ⟨-, hc⟩ := h.closing hclosed
      have hb := (hc p hp).2 (by rw [hstage]; exact nofun)
      exact ⟨fun _ => hb, fun q hq => absurd hq nofun⟩
    · rintro rfl
      exact Or.inl ⟨w'.call, List.mem_append_right _ (List.mem_singleton_self _), Or.inr ⟨hwb, hcall⟩⟩
  · rename_i hwb
    have hpos : 0 < s.writeBehind := Nat.pos_of_ne_zero hwb
    have hlisted := h.listed hpos k w hk hr
    refine ⟨⟨?_, h.own, hbound, ?_, ?_, ?_, h.closing, h.background.mono hended,
      fun p c hp hc => (h.taken p c hp hc).mono hended⟩, ?_⟩
    · show s.available + 1 + (s.writes.set k _).countP Write.running + s.held =
        s.writeBehind + s.own
      omega
    · intro p hp
      refine ⟨(h.order p hp).1, fun hstage v hv => ?_⟩
      rcases mem_set hv with hv | rfl
      · exact (h.order p hp).2 hstage v hv
      · show w'.call < p.number
        rw [hcall]
        exact (h.order p hp).2 hstage w hmem
    · intro _ i v hv hrun
      by_cases hi : i = k
      · subst hi
        rw [hself] at hv
        rw [← Option.some.inj hv] at hrun
        exact absurd hrun Bool.false_ne_true
      · rw [List.getElem?_set_ne (Ne.symm hi)] at hv
        exact h.listed hpos i v hv hrun
    · intro call hc
      exact (h.accounted call hc).mono (fun x hx => hx) rfl hended rfl rfl
    · rintro rfl
      rcases hlisted with hb | ⟨p, c, hp, hstage, hc⟩
      · exact Or.inr (Or.inl ⟨k, hb, _, hself, hcall, rfl⟩)
      · refine Or.inr (Or.inr ⟨p, hp, ?_, Or.inr ⟨c, hstage, k, hc, _, hself, hcall, rfl⟩⟩)
        exact (h.order p hp).2 (fun i => by rw [hstage]; exact nofun) w hmem

theorem doPut_ok {call pos size truncates : Nat} (h : doPut call pos size truncates s = .ok w) :
    w.call = call ∧ w.state = .writing := by
  unfold doPut at h
  split at h
  · exact absurd h nofun
  · split at h
    · rw [← Except.ok.inj h]
      exact ⟨rfl, rfl⟩
    · rw [← Except.ok.inj h]
      exact ⟨rfl, rfl⟩

theorem running_of_state {st : WriteState} (h : w.state = st) (hst : ∀ ok, st ≠ .done ok) :
    w.running = true := by
  unfold Write.running
  split
  · rename_i hd
    exact absurd (h.symm.trans hd) (hst _)
  · rfl

theorem running_of_doPut {call pos size truncates : Nat}
    (h : doPut call pos size truncates s = .ok w) : w.running = true :=
  running_of_state (doPut_ok h).2 fun _ => nofun

theorem Inv.written (h : Inv s) (hk : s.writes[k]? = some w) (hr : w.running = true)
    {result : Option Nat} {s' : FileDataSink} (hs : s.written k w result = .ok s') : Inv s' := by
  unfold FileDataSink.written at hs
  cases result with
  | none =>
    obtain ⟨hinv, hacc⟩ := h.finish hk hr rfl false
    dsimp only at hs
    rw [← Except.ok.inj hs, finish_writeErrors]
    have herr : (s.finish k w false).writeErrors = s.writeErrors := by
      unfold FileDataSink.finish resolve
      dsimp only
      split <;> rfl
    rw [← herr]
    exact hinv.addError (hacc rfl)
  | some size =>
    dsimp only at hs
    split at hs
    · obtain ⟨w', hput, hs⟩ := bind_ok.mp hs
      rw [← Except.ok.inj hs]
      exact h.setWrite hk hr (doPut_ok hput).1 (running_of_doPut hput)
    · split at hs
      · rw [← Except.ok.inj hs]
        exact (h.finish hk hr rfl true).1
      · rw [← Except.ok.inj hs]
        exact h.setWrite hk hr rfl rfl

theorem Inv.truncated (h : Inv s) (hk : s.writes[k]? = some w) (hstate : w.state = .truncating)
    (ok : Bool) : Inv (s.truncated k w ok) := by
  have hr : w.running = true := running_of_state hstate fun _ => nofun
  unfold FileDataSink.truncated
  split
  · exact (h.finish hk hr rfl false).1
  · split
    · exact (h.finish hk hr (show ({ w with truncates := 0 } : Write).call = w.call from rfl) true).1
    · exact h.setWrite hk hr rfl (running_of_state hstate fun _ => nofun)

theorem Inv.merge (h : Inv s) (hm : s.mayMerge s.background = true) : Inv s.merge :=
  ⟨h.units, h.own, h.bound, h.order, h.listed,
    fun call hc => (h.accounted call hc).mono (fun _ hx => hx) rfl (fun _ _ hw _ => hw) rfl rfl,
    h.closing, (h.background.next hm).mono fun _ _ hw _ => hw,
    fun p c hp hc => (h.taken p c hp hc).mono fun _ _ hw _ => hw⟩

theorem taken_eq {p : Pending} {c : Chain} (h : s.taken = some (p, c)) :
    s.pending = some p ∧ p.stage = .draining c := by
  unfold taken at h
  split at h
  · rename_i number call pos chain hp
    obtain ⟨rfl, rfl⟩ := Prod.mk.inj (Option.some.inj h)
    exact ⟨hp, rfl⟩
  · exact absurd h nofun

theorem own_eq_zero {p : Pending} (hp : s.pending = some p) (hstage : ∀ k, p.stage ≠ .writing k) :
    s.own = 0 := by
  unfold FileDataSink.own
  rw [hp]
  split
  · rename_i number call pos k hq
    exact absurd rfl ((Option.some.inj hq) ▸ hstage k)
  · rfl

theorem Inv.mergeTaken (h : Inv s) {p : Pending} {c : Chain} (hp : s.pending = some p)
    (hstage : p.stage = .draining c) (hm : s.mayMerge c = true) : Inv (s.mergeTaken p c) := by
  have hmerged := (h.taken p c hp hstage).next hm
  obtain ⟨number, call, pos, stage⟩ := p
  obtain rfl : stage = .draining c := hstage
  have hown := own_eq_zero hp fun k => nofun
  have horder := h.order _ hp
  refine ⟨?_, fun hpos => absurd hpos (Nat.lt_irrefl 0), h.bound, ?_, ?_, ?_, ?_,
    h.background.mono fun _ _ hw _ => hw, ?_⟩
  · have hunits := h.units
    have hheld : (s.mergeTaken ⟨number, call, pos, .draining c⟩ c).held = s.held := by
      unfold held
      rw [hp]
      cases call <;> rfl
    show s.available + s.inFlight + (s.mergeTaken ⟨number, call, pos, .draining c⟩ c).held =
      s.writeBehind + 0
    rw [hheld, ← hown]
    exact hunits
  · intro q hq
    obtain rfl := Option.some.inj hq
    exact ⟨horder.1, fun _ => horder.2 fun k => nofun⟩
  · intro hwb i w hw hr
    rcases h.listed hwb i w hw hr with hb | ⟨q, d, hq, hqs, hd⟩
    · exact Or.inl hb
    · rw [hp] at hq
      rw [← Option.some.inj hq] at hqs
      obtain rfl := Stage.draining.inj hqs
      exact Or.inr ⟨_, _, rfl, rfl, hd⟩
  · intro j hj
    rcases h.accounted j hj with hres | hf | ⟨q, hq, hlt, hqs⟩
    · exact Or.inl hres
    · exact Or.inr (Or.inl (hf.mono (fun i hi => hi) fun _ _ hw _ => hw))
    · rw [hp] at hq
      obtain rfl := Option.some.inj hq
      refine Or.inr (Or.inr ⟨_, rfl, hlt, Or.inr ⟨_, rfl, ?_⟩⟩)
      rcases hqs with hqs | ⟨d, hqs, hf⟩
      · exact absurd hqs nofun
      · obtain rfl := Stage.draining.inj hqs
        exact hf.mono (fun i hi => hi) fun _ _ hw _ => hw
  · intro hclosed
    obtain ⟨-, hc⟩ := h.closing hclosed
    refine ⟨fun hnone => absurd hnone nofun, fun q hq => ?_⟩
    obtain rfl := Option.some.inj hq
    exact ⟨(hc _ hp).1, fun _ => (hc _ hp).2 nofun⟩
  · intro q d hq hqs
    obtain rfl := Option.some.inj hq
    obtain rfl := Stage.draining.inj hqs
    exact hmerged.mono fun _ _ hw _ => hw

/-- The future of a call resolves that has failed when the writes it was to report have. -/
theorem Inv.resolve (h : Inv s) {p : Pending} (hp : s.pending = some p)
    {ok : Bool} (hunits : s.available + s.inFlight = s.writeBehind)
    (hclosing : s.closed = true → s.background.writes = [])
    (hdrained : ∀ c, p.stage = .draining c → c.merged = c.writes.length)
    (hok : (p.stage = .filing false ∨ ∃ c, p.stage = .draining c ∧
      c.writes.all s.wroteOk = false) → ok = false) :
    Inv (s.resolve p.number ok) := by
  refine ⟨?_, fun hpos => absurd hpos (Nat.lt_irrefl 0), h.bound, fun q hq => absurd hq nofun, ?_, ?_,
    fun hclosed => ⟨fun _ => hclosing hclosed, fun q hq => absurd hq nofun⟩,
    h.background.mono fun _ _ hw _ => hw, fun q c hq => absurd hq nofun⟩
  · show s.available + s.inFlight + 0 = s.writeBehind + 0
    exact hunits
  · intro hwb i w hw hr
    rcases h.listed hwb i w hw hr with hb | ⟨q, d, hq, hqs, hd⟩
    · exact Or.inl hb
    · rw [hp] at hq
      obtain rfl := Option.some.inj hq
      have hended := (h.taken _ d hp hqs).ended i
      rw [hdrained d hqs, List.take_length] at hended
      obtain ⟨v, hv, hvr⟩ := hended hd
      have hwv : w = v := Option.some.inj (hw.symm.trans hv)
      rw [hwv, hvr] at hr
      exact absurd hr Bool.false_ne_true
  · intro j hj
    rcases h.accounted j hj with ⟨i, hi, hlt⟩ | hf | ⟨q, hq, hlt, hqs⟩
    · exact Or.inl ⟨i, List.mem_append_left _ hi, hlt⟩
    · exact Or.inr (Or.inl (hf.mono (fun i hi => hi) fun _ _ hw _ => hw))
    · rw [hp] at hq
      obtain rfl := Option.some.inj hq
      have hfalse : ok = false := by
        refine hok ?_
        rcases hqs with hqs | ⟨c, hqs, hf⟩
        · exact Or.inl hqs
        · exact Or.inr ⟨c, hqs, hf.not_ok⟩
      refine Or.inl ⟨p.number, ?_, Or.inl hlt⟩
      rw [← hfalse]
      exact List.mem_append_right _ (List.mem_singleton_self _)

theorem held_eq_zero {p : Pending} (hp : s.pending = some p) (hstage : ∀ c, p.stage ≠ .draining c) :
    s.held = 0 := by
  obtain ⟨number, call, pos, stage⟩ := p
  unfold held
  rw [hp]
  cases stage with
  | draining c => exact absurd rfl (hstage c)
  | waiting => cases call <;> rfl
  | writing k => cases call <;> rfl
  | filing ok => cases call <;> rfl

/-- A call goes on to its operation on the file. -/
theorem Inv.filing (h : Inv s) {p : Pending} {c : Chain} (hp : s.pending = some p)
    (hstage : p.stage = .draining c) (hmerged : c.merged = c.writes.length) {ok : Bool}
    (hok : c.writes.all s.wroteOk = false → ok = false)
    (hunits : s.available + s.inFlight + s.writeBehind = s.writeBehind) :
    Inv ({ s with available := s.available + s.writeBehind }.enter p (.filing ok)) := by
  have horder := h.order _ hp
  refine ⟨?_, fun hpos => absurd hpos (Nat.lt_irrefl 0), h.bound, ?_, ?_, ?_, ?_,
    h.background.mono fun _ _ hw _ => hw, ?_⟩
  · have hheld : ({ s with available := s.available + s.writeBehind }.enter p
        (.filing ok)).held = 0 := held_eq_zero rfl fun c => nofun
    rw [hheld]
    show s.available + s.writeBehind + s.inFlight + 0 = s.writeBehind + 0
    omega
  · intro q hq
    obtain rfl := Option.some.inj hq
    exact ⟨horder.1, fun _ => horder.2 fun k => by rw [hstage]; exact nofun⟩
  · intro hwb i w hw hr
    rcases h.listed hwb i w hw hr with hb | ⟨q, d, hq, hqs, hd⟩
    · exact Or.inl hb
    · rw [hp] at hq
      obtain rfl := Option.some.inj hq
      rw [hstage] at hqs
      obtain rfl := Stage.draining.inj hqs
      have hended := (h.taken _ c hp hstage).ended i
      rw [hmerged, List.take_length] at hended
      obtain ⟨v, hv, hvr⟩ := hended hd
      have hwv : w = v := Option.some.inj (hw.symm.trans hv)
      rw [hwv, hvr] at hr
      exact absurd hr Bool.false_ne_true
  · intro j hj
    rcases h.accounted j hj with hres | hf | ⟨q, hq, hlt, hqs⟩
    · exact Or.inl hres
    · exact Or.inr (Or.inl (hf.mono (fun i hi => hi) fun _ _ hw _ => hw))
    · rw [hp] at hq
      obtain rfl := Option.some.inj hq
      refine Or.inr (Or.inr ⟨_, rfl, hlt, Or.inl ?_⟩)
      rw [hstage] at hqs
      rcases hqs with hqs | ⟨d, hqs, hf⟩
      · exact absurd hqs nofun
      · obtain rfl := Stage.draining.inj hqs
        rw [hok hf.not_ok]
  · intro hclosed
    obtain ⟨-, hc⟩ := h.closing hclosed
    refine ⟨fun hnone => absurd hnone nofun, fun q hq => ?_⟩
    obtain rfl := Option.some.inj hq
    exact ⟨(hc _ hp).1, fun _ => (hc _ hp).2 (by rw [hstage]; exact nofun)⟩
  · intro q d hq hqs
    obtain rfl := Option.some.inj hq
    exact absurd hqs nofun

theorem Inv.drained (h : Inv s) {p : Pending} {c : Chain} (hp : s.pending = some p)
    (hstage : p.stage = .draining c) (hmerged : c.merged = c.writes.length) :
    Inv (s.drained p c) := by
  have hnw : ∀ k, p.stage ≠ .writing k := fun k => by rw [hstage]; exact nofun
  have hown := own_eq_zero hp hnw
  have hunits := h.units
  have hclosing : s.closed = true → s.background.writes = [] :=
    fun hclosed => ((h.closing hclosed).2 p hp).2 (by rw [hstage]; exact nofun)
  have hdrained : ∀ d, p.stage = .draining d → d.merged = d.writes.length := by
    intro d hd
    rw [hstage] at hd
    rw [← Stage.draining.inj hd]
    exact hmerged
  have hok : (p.stage = .filing false ∨ ∃ d, p.stage = .draining d ∧
      d.writes.all s.wroteOk = false) → c.writes.all s.wroteOk = false := by
    rw [hstage]
    rintro (hd | ⟨d, hd, hall⟩)
    · exact absurd hd nofun
    · rw [Stage.draining.inj hd]
      exact hall
  unfold FileDataSink.drained
  cases hcall : p.call with
  | put size =>
    have hheld : s.held = 0 := by
      unfold held
      obtain ⟨number, call, pos, stage⟩ := p
      obtain rfl : call = .put size := hcall
      obtain rfl : stage = .draining c := hstage
      rw [hp]
    exact h.resolve hp (by omega) hclosing hdrained hok
  | flush =>
    have hheld : s.held = s.writeBehind := by
      unfold held
      obtain ⟨number, call, pos, stage⟩ := p
      obtain rfl : call = .flush := hcall
      obtain rfl : stage = .draining c := hstage
      rw [hp]
    dsimp only
    have hfile : ∀ ok, (c.writes.all s.wroteOk = false → ok = false) →
        Inv ({ s with available := s.available + s.writeBehind }.enter p (.filing ok)) :=
      fun ok hok => h.filing hp hstage hmerged hok (by omega)
    split
    · rename_i hall
      exact hfile true fun hf => absurd hall (by rw [hf]; exact Bool.false_ne_true)
    · rename_i hall
      -- the future fails without the operation on the file
      have hinv := (hfile false fun _ => rfl).resolve (p := { p with stage := .filing false })
        rfl (by show s.available + s.writeBehind + s.inFlight = s.writeBehind; omega)
        hclosing (fun d hd => absurd hd nofun) fun _ => rfl
      exact hinv
  | close =>
    have hheld : s.held = s.writeBehind := by
      unfold held
      obtain ⟨number, call, pos, stage⟩ := p
      obtain rfl : call = .close := hcall
      obtain rfl : stage = .draining c := hstage
      rw [hp]
    exact h.filing hp hstage hmerged (fun hf => hf) (by omega)

theorem Inv.filed (h : Inv s) {p : Pending} {ok : Bool} (hp : s.pending = some p)
    (hstage : p.stage = .filing ok) (ok' : Bool) : Inv (s.resolve p.number (ok && ok')) := by
  have hown := own_eq_zero hp fun k => by rw [hstage]; exact nofun
  have hheld := held_eq_zero hp fun c => by rw [hstage]; exact nofun
  have hunits := h.units
  refine h.resolve hp (by omega) ?_ ?_ ?_
  · exact fun hclosed => ((h.closing hclosed).2 p hp).2 (by rw [hstage]; exact nofun)
  · intro d hd
    exact absurd (hstage.symm.trans hd) nofun
  · rw [hstage]
    rintro (hf | ⟨d, hd, -⟩)
    · rw [Stage.filing.inj hf]
      rfl
    · exact absurd hd nofun

/-- The call takes the background writes. -/
theorem Inv.take (h : Inv s) {p : Pending} (hp : s.pending = some p) (hstage : p.stage = .waiting)
    {available : Nat}
    (hunits : available + s.inFlight +
      (match p.call with | .put _ => 0 | _ => s.writeBehind) = s.writeBehind) :
    Inv ({ s with available, background := {} }.enter p (.draining s.background)) := by
  have horder := h.order _ hp
  have hnw : ∀ k, p.stage ≠ .writing k := fun k => by rw [hstage]; exact nofun
  refine ⟨?_, fun hpos => absurd hpos (Nat.lt_irrefl 0), h.bound, ?_, ?_, ?_, ?_, Merged.empty _, ?_⟩
  · obtain ⟨number, call, pos, stage⟩ := p
    cases call <;> exact hunits
  · intro q hq
    obtain rfl := Option.some.inj hq
    exact ⟨horder.1, fun _ => horder.2 hnw⟩
  · intro hwb i w hw hr
    rcases h.listed hwb i w hw hr with hb | ⟨q, d, hq, hqs, hd⟩
    · exact Or.inr ⟨_, _, rfl, rfl, hb⟩
    · rw [hp] at hq
      rw [← Option.some.inj hq, hstage] at hqs
      exact absurd hqs nofun
  · intro j hj
    rcases h.accounted j hj with hres | hf | ⟨q, hq, hlt, hqs⟩
    · exact Or.inl hres
    · obtain ⟨i, hi, w, hw, hcall, hstate⟩ := hf
      have hlt : j < p.number := hcall ▸ horder.2 hnw w (List.mem_of_getElem? hw)
      exact Or.inr (Or.inr ⟨_, rfl, hlt, Or.inr ⟨_, rfl, i, hi, w, hw, hcall, hstate⟩⟩)
    · rw [hp] at hq
      rw [← Option.some.inj hq, hstage] at hqs
      rcases hqs with hqs | ⟨d, hqs, -⟩
      · exact absurd hqs nofun
      · exact absurd hqs nofun
  · intro hclosed
    obtain ⟨-, hc⟩ := h.closing hclosed
    refine ⟨fun hnone => absurd hnone nofun, fun q hq => ?_⟩
    obtain rfl := Option.some.inj hq
    exact ⟨(hc _ hp).1, fun _ => rfl⟩
  · intro q d hq hqs
    obtain rfl := Option.some.inj hq
    obtain rfl := Stage.draining.inj hqs
    exact h.background.mono fun _ _ hw _ => hw

theorem Inv.proceed (h : Inv s) {p : Pending} (hp : s.pending = some p) (hstage : p.stage = .waiting)
    (hunit : s.units p.call ≤ s.available) {s' : FileDataSink} (hs : s.proceed p = .ok s') :
    Inv s' := by
  have hnw : ∀ k, p.stage ≠ .writing k := fun k => by rw [hstage]; exact nofun
  have hown := own_eq_zero hp hnw
  have hheld := held_eq_zero hp fun c => by rw [hstage]; exact nofun
  have hunits := h.units
  have horder := h.order _ hp
  unfold FileDataSink.proceed at hs
  cases hcall : p.call with
  | put size =>
    rw [hcall] at hs hunit
    have hunit : 1 ≤ s.available := hunit
    dsimp only at hs
    split at hs
    · rw [← Except.ok.inj hs]
      refine h.take hp hstage ?_
      rw [hcall]
      show s.available - 1 + 1 + s.inFlight + 0 = s.writeBehind
      omega
    · obtain ⟨w, hput, hs⟩ := bind_ok.mp hs
      have hwcall := (doPut_ok hput).1
      have hwr := running_of_doPut hput
      have hwb : 0 < s.writeBehind := by omega
      have hended : ∀ (i : Nat) (v : Write), s.writes[i]? = some v → v.running = false →
          (s.writes ++ [w])[i]? = some v := fun i v hv _ => getElem?_snoc_of_some hv w
      rw [← Except.ok.inj hs]
      refine ⟨?_, fun hpos => absurd hpos (Nat.lt_irrefl 0), ?_, fun q hq => absurd hq nofun, ?_, ?_, ?_,
        (h.background.snoc _).mono hended, fun q d hq => absurd hq nofun⟩
      · show s.available - 1 + (s.writes ++ [w]).countP Write.running + 0 = s.writeBehind + 0
        rw [countP_snoc hwr]
        omega
      · intro v hv
        rcases List.mem_append.mp hv with hv | hv
        · exact h.bound v hv
        · rw [List.mem_singleton.mp hv, hwcall]
          exact horder.1
      · intro _ i v hv hr
        have hv : (s.writes ++ [w])[i]? = some v := hv
        rcases Nat.lt_or_ge i s.writes.length with hi | hi
        · rw [List.getElem?_append_left hi] at hv
          rcases h.listed hwb i v hv hr with hb | ⟨q, d, hq, hqs, -⟩
          · exact Or.inl (List.mem_append_left _ hb)
          · rw [hp] at hq
            rw [← Option.some.inj hq, hstage] at hqs
            exact absurd hqs nofun
        · have hlt := (List.getElem?_eq_some_iff.mp hv).1
          rw [List.length_append, List.length_singleton] at hlt
          obtain rfl : i = s.writes.length := by omega
          exact Or.inl (List.mem_append_right _ (List.mem_singleton_self _))
      · intro j hj
        rcases h.accounted j hj with ⟨i, hi, hlt⟩ | hf | ⟨q, hq, -, hqs⟩
        · exact Or.inl ⟨i, List.mem_append_left _ hi, hlt⟩
        · exact Or.inr (Or.inl (hf.mono (fun i hi => List.mem_append_left _ hi) hended))
        · rw [hp] at hq
          rw [← Option.some.inj hq, hstage] at hqs
          rcases hqs with hqs | ⟨d, hqs, -⟩
          · exact absurd hqs nofun
          · exact absurd hqs nofun
      · intro hclosed
        have hc := ((h.closing hclosed).2 p hp).1
        rw [hcall] at hc
        exact absurd hc nofun
  | flush =>
    rw [hcall] at hs hunit
    have hunit : s.writeBehind ≤ s.available := hunit
    rw [← Except.ok.inj hs]
    refine h.take hp hstage ?_
    rw [hcall]
    show s.available - s.writeBehind + s.inFlight + s.writeBehind = s.writeBehind
    omega
  | close =>
    rw [hcall] at hs hunit
    have hunit : s.writeBehind ≤ s.available := hunit
    rw [← Except.ok.inj hs]
    refine h.take hp hstage ?_
    rw [hcall]
    show s.available - s.writeBehind + s.inFlight + s.writeBehind = s.writeBehind
    omega

/-- A call that waits for the semaphore. -/
theorem Inv.wait (h : Inv s) (hp : s.pending = none) (c : Call) (pos : Nat)
    (closed : Bool) (hclosed : closed = true → c = .close) :
    Inv { s with
      calls := s.calls + 1
      pending := some ⟨s.calls, c, s.pos, .waiting⟩
      closed
      pos } := by
  have hunits := h.units
  have hheld : s.held = 0 := by
    unfold held
    rw [hp]
  have hown : s.own = 0 := by
    unfold FileDataSink.own
    rw [hp]
  refine ⟨?_, fun hpos => absurd hpos (Nat.lt_irrefl 0), ?_, ?_, ?_, ?_, ?_,
    h.background.mono fun _ _ hw _ => hw, ?_⟩
  · show s.available + s.inFlight + held _ = s.writeBehind + 0
    rw [held_eq_zero (p := ⟨s.calls, c, s.pos, .waiting⟩) rfl fun c => nofun]
    omega
  · exact fun w hw => Nat.lt_succ_of_lt (h.bound w hw)
  · intro q hq
    obtain rfl := Option.some.inj hq
    exact ⟨Nat.lt_succ_self _, fun _ => h.bound⟩
  · intro hwb i w hw hr
    rcases h.listed hwb i w hw hr with hb | ⟨q, d, hq, -⟩
    · exact Or.inl hb
    · exact absurd (hp.symm.trans hq) nofun
  · intro j hj
    rcases h.accounted j hj with hres | hf | ⟨q, hq, -⟩
    · exact Or.inl hres
    · exact Or.inr (Or.inl (hf.mono (fun i hi => hi) fun _ _ hw _ => hw))
    · exact absurd (hp.symm.trans hq) nofun
  · intro hcl
    refine ⟨fun hnone => absurd hnone nofun, fun q hq => ?_⟩
    obtain rfl := Option.some.inj hq
    exact ⟨hclosed hcl, fun hne => absurd rfl hne⟩
  · intro q d hq hqs
    obtain rfl := Option.some.inj hq
    exact absurd hqs nofun

/-- A `put` without write-behind. -/
theorem Inv.putNow (h : Inv s) (hp : s.pending = none) (hwb : s.writeBehind = 0)
    (size pos : Nat) (hcall : w.call = s.calls) (hr : w.running = true) :
    Inv { s with
      calls := s.calls + 1
      closed := false
      pos
      writes := s.writes ++ [w]
      pending := some ⟨s.calls, .put size, s.pos, .writing s.writes.length⟩ } := by
  have hunits := h.units
  have hheld : s.held = 0 := by
    unfold held
    rw [hp]
  have hown : s.own = 0 := by
    unfold FileDataSink.own
    rw [hp]
  have hended : ∀ (i : Nat) (v : Write), s.writes[i]? = some v → v.running = false →
      (s.writes ++ [w])[i]? = some v := fun i v hv _ => getElem?_snoc_of_some hv w
  refine ⟨?_, fun _ => hwb, ?_, ?_, fun hpos => absurd hwb (Nat.ne_of_gt hpos), ?_,
    fun hcl => absurd hcl Bool.false_ne_true, h.background.mono hended, ?_⟩
  · show s.available + (s.writes ++ [w]).countP Write.running + 0 = s.writeBehind + 1
    rw [countP_snoc hr]
    omega
  · intro v hv
    rcases List.mem_append.mp hv with hv | hv
    · exact Nat.lt_succ_of_lt (h.bound v hv)
    · rw [List.mem_singleton.mp hv, hcall]
      exact Nat.lt_succ_self _
  · intro q hq
    obtain rfl := Option.some.inj hq
    exact ⟨Nat.lt_succ_self _, fun hne => absurd rfl (hne _)⟩
  · intro j hj
    rcases h.accounted j hj with hres | hf | ⟨q, hq, -⟩
    · exact Or.inl hres
    · exact Or.inr (Or.inl (hf.mono (fun i hi => hi) hended))
    · exact absurd (hp.symm.trans hq) nofun
  · intro q d hq hqs
    obtain rfl := Option.some.inj hq
    exact absurd hqs nofun

theorem Inv.call (h : Inv s) (hp : s.pending = none) (hopen : s.closed = false) {c : Call}
    {s' : FileDataSink} (hs : s.call c = .ok s') : Inv s' := by
  unfold FileDataSink.call at hs
  cases c with
  | put size =>
    dsimp only at hs
    rw [hopen] at hs
    split at hs
    · rename_i hwb
      obtain ⟨w, hput, hs⟩ := bind_ok.mp hs
      rw [← Except.ok.inj hs]
      exact h.putNow hp hwb size _ (doPut_ok hput).1 (running_of_doPut hput)
    · rw [← Except.ok.inj hs]
      exact h.wait hp _ _ _ fun hc => absurd hc Bool.false_ne_true
  | flush =>
    rw [← Except.ok.inj hs, hopen]
    exact h.wait hp _ _ _ fun hc => absurd hc Bool.false_ne_true
  | close =>
    rw [← Except.ok.inj hs]
    exact h.wait hp _ _ _ fun _ => rfl

/-! ## Runs -/

theorem Inv.step (h : Inv s) {a : Action} (hv : Valid s a) {s' : FileDataSink}
    (hs : step s a = .ok s') : Inv s' := by
  cases a with
  | call c => exact h.call hv.1 hv.2 hs
  | proceed =>
    obtain ⟨p, hp, hstage, hunit⟩ := hv
    unfold FileDataSink.step at hs
    dsimp only at hs
    rw [show s.pending = some p from hp] at hs
    exact h.proceed hp hstage hunit hs
  | written k result =>
    obtain ⟨w, hw, hstate, -⟩ := hv
    unfold FileDataSink.step at hs
    dsimp only at hs
    rw [show s.writes[k]? = some w from hw] at hs
    exact h.written hw (running_of_state hstate fun _ => nofun) hs
  | truncated k ok =>
    obtain ⟨w, hw, hstate⟩ := hv
    unfold FileDataSink.step at hs
    dsimp only at hs
    rw [show s.writes[k]? = some w from hw] at hs
    rw [← Except.ok.inj hs]
    exact h.truncated hw hstate ok
  | merge =>
    rw [← Except.ok.inj hs]
    exact h.merge hv
  | mergeTaken =>
    obtain ⟨⟨p, c⟩, hx, hm⟩ := hv
    have hx : s.taken = some (p, c) := hx
    obtain ⟨hp, hstage⟩ := taken_eq hx
    unfold FileDataSink.step at hs
    dsimp only at hs
    rw [hx] at hs
    rw [← Except.ok.inj hs]
    exact h.mergeTaken hp hstage hm
  | drained =>
    obtain ⟨⟨p, c⟩, hx, hm⟩ := hv
    have hx : s.taken = some (p, c) := hx
    obtain ⟨hp, hstage⟩ := taken_eq hx
    unfold FileDataSink.step at hs
    dsimp only at hs
    rw [hx] at hs
    rw [← Except.ok.inj hs]
    exact h.drained hp hstage hm
  | filed ok' =>
    obtain ⟨⟨number, call, pos, stage⟩, hp, hstage⟩ := hv
    have hp : s.pending = some ⟨number, call, pos, stage⟩ := hp
    obtain ⟨ok, rfl⟩ : ∃ ok, stage = .filing ok := by
      rcases hstage with h | h
      · exact ⟨true, h⟩
      · exact ⟨false, h⟩
    unfold FileDataSink.step at hs
    dsimp only at hs
    rw [hp] at hs
    rw [← Except.ok.inj hs]
    exact h.filed hp rfl ok'

theorem Inv.initial (writeBehind align : Nat) :
    Inv { writeBehind, diskWriteDmaAlignment := align } where
  units := rfl
  own hpos := absurd hpos (Nat.lt_irrefl 0)
  bound _ hw := absurd hw List.not_mem_nil
  order _ hp := absurd hp nofun
  listed _ i w hw := absurd hw (by rw [List.getElem?_nil]; exact nofun)
  accounted _ hc := absurd hc List.not_mem_nil
  closing hc := absurd hc Bool.false_ne_true
  background := Merged.empty _
  taken _ _ hp := absurd hp nofun

theorem Inv.inFlight_le (h : Inv s) : s.inFlight ≤ max 1 s.writeBehind := by
  have hunits := h.units
  have hle := own_le_one s
  by_cases hown : s.own = 0
  · exact Nat.le_trans (by omega) (Nat.le_max_right 1 _)
  · have hwb := h.own (Nat.pos_of_ne_zero hown)
    exact Nat.le_trans (by omega) (Nat.le_max_left 1 _)

theorem writeBehind_step {a : Action} {s' : FileDataSink} (hs : step s a = .ok s') :
    s'.writeBehind = s.writeBehind := by
  have hfin : ∀ (k : Nat) (w : Write) (ok : Bool) (s : FileDataSink),
      (s.finish k w ok).writeBehind = s.writeBehind := by
    intro k w ok s
    unfold finish
    dsimp only
    split <;> rfl
  unfold step at hs
  cases a with
  | call c =>
    dsimp only at hs
    unfold call at hs
    cases c with
    | put size =>
      dsimp only at hs
      split at hs
      · obtain ⟨w, -, hs⟩ := bind_ok.mp hs
        rw [← Except.ok.inj hs]
        rfl
      · rw [← Except.ok.inj hs]
    | flush => rw [← Except.ok.inj hs]
    | close => rw [← Except.ok.inj hs]
  | proceed =>
    dsimp only at hs
    split at hs
    · rename_i p hp
      unfold proceed at hs
      dsimp only at hs
      split at hs
      · split at hs
        · rw [← Except.ok.inj hs]
          rfl
        · obtain ⟨w, -, hs⟩ := bind_ok.mp hs
          rw [← Except.ok.inj hs]
          rfl
      · rw [← Except.ok.inj hs]
        rfl
    · rw [← Except.ok.inj hs]
  | written k result =>
    dsimp only at hs
    split at hs
    · unfold written at hs
      split at hs
      · rw [← Except.ok.inj hs, hfin]
      · split at hs
        · obtain ⟨w, -, hs⟩ := bind_ok.mp hs
          rw [← Except.ok.inj hs]
        · split at hs
          · rw [← Except.ok.inj hs, hfin]
          · rw [← Except.ok.inj hs]
    · rw [← Except.ok.inj hs]
  | truncated k ok =>
    dsimp only at hs
    split at hs
    · rw [← Except.ok.inj hs]
      unfold truncated
      split
      · exact hfin ..
      · split
        · exact hfin ..
        · rfl
    · rw [← Except.ok.inj hs]
  | merge =>
    rw [← Except.ok.inj hs]
    rfl
  | mergeTaken =>
    dsimp only at hs
    split at hs
    · rw [← Except.ok.inj hs]
      rfl
    · rw [← Except.ok.inj hs]
  | drained =>
    dsimp only at hs
    split at hs
    · rw [← Except.ok.inj hs]
      unfold drained
      dsimp only
      split
      · rfl
      · split <;> rfl
      · rfl
    · rw [← Except.ok.inj hs]
  | filed ok =>
    dsimp only at hs
    split at hs
    · rw [← Except.ok.inj hs]
      rfl
    · rw [← Except.ok.inj hs]

/-- However the operations on the file end: there are never more writes in flight than the sink may
write behind, or one; and when the sink is closed, for each call whose `dma_write` failed the future
of a later call has failed, or without write-behind its own. -/
theorem run_reports (writeBehind align : Nat) (as : List Action)
    (hv : Run.Along step Valid { writeBehind, diskWriteDmaAlignment := align } as)
    {s : FileDataSink} (hr : run { writeBehind, diskWriteDmaAlignment := align } as = .ok s) :
    s.inFlight ≤ max 1 writeBehind ∧
      (s.closed = true → s.pending = none → ∀ call ∈ s.writeErrors,
        ∃ j, (j, false) ∈ s.results ∧ (call < j ∨ (writeBehind = 0 ∧ j = call))) := by
  obtain ⟨hinv, hwb⟩ := Run.run_inv (I := fun s => Inv s ∧ s.writeBehind = writeBehind)
    (fun _ _ _ hi hP hstep => ⟨hi.1.step hP hstep, (writeBehind_step hstep).trans hi.2⟩)
    ⟨Inv.initial writeBehind align, rfl⟩ hv hr
  refine ⟨hwb ▸ hinv.inFlight_le, fun hclosed hp call hcall => ?_⟩
  rcases hinv.accounted call hcall with ⟨j, hj, hlt⟩ | ⟨i, hi, -⟩ | ⟨p, hp', -⟩
  · exact ⟨j, hj, hwb ▸ hlt⟩
  · rw [(hinv.closing hclosed).1 hp] at hi
    exact absurd hi List.not_mem_nil
  · exact absurd (hp.symm.trans hp') nofun

/-- The first of two writes fails while the second is in flight; closing the sink says so. -/
theorem run_reports_closed :
    ∃ s, run { writeBehind := 2, diskWriteDmaAlignment := 512 } [.call (.put 512), .proceed,
        .call (.put 512), .proceed, .written 0 none, .written 1 (some 512), .merge, .merge,
        .call .close, .proceed, .drained, .filed true] = .ok s ∧
      s.writeErrors = [0] ∧ ∃ j, (j, false) ∈ s.results ∧ (0 < j ∨ (2 = 0 ∧ j = 0)) := by
  refine ⟨_, rfl, rfl, ?_⟩
  exact (run_reports 2 512 [.call (.put 512), .proceed,
    .call (.put 512), .proceed, .written 0 none, .written 1 (some 512), .merge, .merge,
    .call .close, .proceed, .drained, .filed true] (by decide +kernel) rfl).2 rfl rfl 0
    (by decide +kernel)

/-- Without write-behind one write is in flight, and when it fails no later future does. -/
theorem run_reports_own :
    (∃ s, run { writeBehind := 0, diskWriteDmaAlignment := 512 } [.call (.put 512)] = .ok s ∧
      ¬ s.inFlight ≤ s.writeBehind) ∧
    Run.Along step Valid { writeBehind := 0, diskWriteDmaAlignment := 512 } [.call (.put 512),
      .written 0 none, .call .flush, .proceed, .drained, .filed true, .call .close, .proceed, .drained,
      .filed true] ∧
    ∃ s, run { writeBehind := 0, diskWriteDmaAlignment := 512 } [.call (.put 512),
      .written 0 none, .call .flush, .proceed, .drained, .filed true, .call .close, .proceed, .drained,
      .filed true] = .ok s ∧
      s.writeErrors = [0] ∧ s.results = [(0, false), (1, true), (2, true)] := by
  refine ⟨⟨_, rfl, by decide⟩, by decide +kernel, _, rfl, rfl, rfl⟩

end FileDataSink

end Seastar
