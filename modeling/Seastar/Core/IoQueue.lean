import Seastar.Core.FairQueue

/-!
`io_queue` of `core/reactor.cc`: reads and writes of a disk become requests of a `fair_queue`, whose
descriptors say what they cost in requests and in bytes. Writes cost more than reads, or less, by
configured multipliers. The requests of all shards reach the queue in some order; `requests` gives
the read or write behind each number.
-/

namespace Seastar

open Lib

/-- `io_queue::request_type`. -/
inductive RequestType
  | read
  | write
  deriving DecidableEq, Repr

/-- What `queue_request` is asked for. -/
structure IoRequest where
  reqType : RequestType
  len : UInt64
  deriving DecidableEq, Repr

namespace IoQueue

def readRequestBaseCount : UInt32 := 128

/-- `reactor::max_aio_per_queue`. -/
def maxAioPerQueue : UInt32 := 128

/-- `io_queue::config`, without the names. -/
structure Config where
  capacity : UInt32 := 4294967295
  maxReqCount : UInt32 := 4294967295
  maxBytesCount : UInt32 := 4294967295
  diskReqWriteToReadMultiplier : UInt32 := readRequestBaseCount
  diskBytesWriteToReadMultiplier : UInt32 := readRequestBaseCount
  deriving DecidableEq, Repr

/-- `make_fair_queue_config`. -/
def makeFairQueueConfig (iocfg : Config) : FairQueueConfig where
  capacity := min iocfg.capacity maxAioPerQueue
  maxReqCount := iocfg.maxReqCount
  maxBytesCount := iocfg.maxBytesCount

/-- The multipliers of a request, for its weight and for its length. -/
def multipliers (config : Config) : RequestType → UInt32 × UInt32
  | .write => (config.diskReqWriteToReadMultiplier, config.diskBytesWriteToReadMultiplier)
  | .read => (readRequestBaseCount, readRequestBaseCount)

/-- The descriptor that `queue_request` makes. The size is a `size_t`, but `io_desc` takes an
`unsigned`. -/
def descriptor (config : Config) (io : IoRequest) : RequestDescriptor :=
  let weight := (multipliers config io.reqType).1
  let size := (multipliers config io.reqType).2.toUInt64 * io.len
  { weight, size := size.toUInt32 }

/-- What can happen to the queue: a request of a number is queued, one is finished, and the queue is
polled, from outside or when the function of a request has returned. -/
inductive Action (ι : Type)
  | queueRequest (pc : ι) (n : Nat)
  | notifyRequestsFinished (req : Request)
  | pollIoQueue (top : FairQueue.Top ι)
  | funcReturns (top : FairQueue.Top ι)

variable {ι : Type} [DecidableEq ι]

/-- One action; only a running request finishes and only a running function returns, another one
changes nothing. -/
def step (config : Config) (requests : Nat → IoRequest) (s : FairQueue.State ι) :
    Action ι → Except Fault (FairQueue.State ι)
  | .queueRequest pc n => FairQueue.step s (.queue pc ⟨n, descriptor config (requests n)⟩)
  | .notifyRequestsFinished req =>
    if req ∈ s.running then FairQueue.step s (.notifyRequestsFinished req) else .ok s
  | .pollIoQueue top => FairQueue.step s (.dispatchRequests top)
  | .funcReturns top =>
    if 0 < s.depth then FairQueue.step s (.funcReturns top) else .ok s

/-- A new queue. -/
def init (config : Config) : FairQueue.State ι := { fq := { config := makeFairQueueConfig config } }

/-! ## Exact costs -/

/-- The costs of a read or write without the limits of the machine. -/
def reqCost (config : Config) (io : IoRequest) : Nat := (multipliers config io.reqType).1.toNat

def bytesCost (config : Config) (io : IoRequest) : Nat :=
  (multipliers config io.reqType).2.toNat * io.len.toNat

/-- What requests cost together. -/
def outstanding (cost : IoRequest → Nat) (requests : Nat → IoRequest) (reqs : List Request) : Nat :=
  (reqs.map fun req => cost (requests req.func)).sum

/-- The descriptors hold the exact costs of their requests, the counters those of the running ones,
and a request is started only while these are below the limits. -/
structure Accounted (config : Config) (requests : Nat → IoRequest) (s : FairQueue.State ι) :
    Prop where
  weight : ∀ x ∈ s.queued, x.2.desc.weight.toNat = reqCost config (requests x.2.func)
  size : ∀ x ∈ s.queued, x.2.desc.size.toNat = bytesCost config (requests x.2.func)
  reqCount : s.fq.reqCountExecuting.toNat = outstanding (reqCost config) requests s.running
  bytesCount : s.fq.bytesCountExecuting.toNat = outstanding (bytesCost config) requests s.running
  starts : ∀ a t, step config requests s a = .ok t → t.started = s.started ∨
    outstanding (reqCost config) requests s.running < config.maxReqCount.toNat ∧
      outstanding (bytesCost config) requests s.running < config.maxBytesCount.toNat

/-- The request that a round of `dispatch_requests` starts. -/
def nextRequest (top : FairQueue.Top ι) (fq : FairQueue ι) : Option Request :=
  if fq.canDispatch then (fq.dispatchNext top).toOption.map (·.2.1) else none

/-- A request that is started can be added to what is outstanding. -/
def StartFits (config : Config) (requests : Nat → IoRequest) (s : FairQueue.State ι)
    (top : FairQueue.Top ι) : Prop :=
  ∀ req, nextRequest top s.fq = some req →
    outstanding (reqCost config) requests s.running + reqCost config (requests req.func) < 2 ^ 32 ∧
      outstanding (bytesCost config) requests s.running + bytesCost config (requests req.func) <
        2 ^ 32

/-- A request that is queued costs less than `2 ^ 32`, and so does what is outstanding with one that
is started. -/
def Fits (config : Config) (requests : Nat → IoRequest) (s : FairQueue.State ι) : Action ι → Prop
  | .queueRequest _ n => bytesCost config (requests n) < 2 ^ 32
  | .notifyRequestsFinished _ => True
  | .pollIoQueue top => StartFits config requests s top
  | .funcReturns top => 0 < s.depth → StartFits config requests s top

variable {config : Config} {requests : Nat → IoRequest} {s t : FairQueue.State ι}
  {cost : IoRequest → Nat}

theorem outstanding_snoc (reqs : List Request) (req : Request) :
    outstanding cost requests (reqs ++ [req]) =
      outstanding cost requests reqs + cost (requests req.func) := by
  simp [outstanding]

theorem outstanding_erase_le {reqs : List Request} {req : Request} (h : req ∈ reqs) :
    outstanding cost requests (reqs.erase req) ≤ outstanding cost requests reqs := by
  have hsum := List.sum_map_erase (fun req : Request => cost (requests req.func)) h
  unfold outstanding
  rw [← hsum]
  exact Nat.le_add_left _ _

theorem size_eq_iff (io : IoRequest) :
    (descriptor config io).size.toNat = bytesCost config io ↔ bytesCost config io < 2 ^ 32 := by
  have hsize : (descriptor config io).size.toNat = bytesCost config io % 2 ^ 32 := by
    simp [descriptor, bytesCost]
  rw [hsize]
  exact Nat.mod_eq_iff_lt (by decide)

/-! ## Invariant -/

variable [Fintype ι]

/-- Every request has the descriptor of its read or write, and those that run were queued. -/
structure Traced (config : Config) (requests : Nat → IoRequest) (s : FairQueue.State ι) :
    Prop where
  conserved : FairQueue.Conserved s
  configured : s.fq.config = makeFairQueueConfig config
  desc : ∀ x ∈ s.queued, x.2.desc = descriptor config (requests x.2.func)
  running : ∀ req ∈ s.running, ∃ pc, (pc, req) ∈ s.queued

theorem init_traced (config : Config) (requests : Nat → IoRequest) :
    Traced config requests (init config : FairQueue.State ι) where
  conserved := FairQueue.Conserved.initial _
  configured := rfl
  desc _ h := absurd h List.not_mem_nil
  running _ h := absurd h List.not_mem_nil

/-- The requests are small enough for their descriptors, and what is outstanding for the counters. -/
structure Bounded (config : Config) (requests : Nat → IoRequest) (s : FairQueue.State ι) :
    Prop where
  size : ∀ x ∈ s.queued, bytesCost config (requests x.2.func) < 2 ^ 32
  reqCount : outstanding (reqCost config) requests s.running < 2 ^ 32
  bytesCount : outstanding (bytesCost config) requests s.running < 2 ^ 32

/-- The weights are never cut off. -/
theorem Traced.units_weight (h : Traced config requests s) :
    FairQueue.units RequestDescriptor.weight s.running =
      outstanding (reqCost config) requests s.running := by
  unfold FairQueue.units outstanding
  apply congrArg List.sum
  apply List.map_congr_left
  intro req hreq
  obtain ⟨pc, hmem⟩ := h.running req hreq
  rw [h.desc _ hmem]
  rfl

theorem Traced.units_size (h : Traced config requests s)
    (hsize : ∀ x ∈ s.queued, bytesCost config (requests x.2.func) < 2 ^ 32) :
    FairQueue.units RequestDescriptor.size s.running =
      outstanding (bytesCost config) requests s.running := by
  unfold FairQueue.units outstanding
  apply congrArg List.sum
  apply List.map_congr_left
  intro req hreq
  obtain ⟨pc, hmem⟩ := h.running req hreq
  rw [h.desc _ hmem]
  exact (size_eq_iff _).mpr (hsize _ hmem)

/-- What the fair queue guarantees of a start. -/
theorem Traced.starts_below (h : Traced config requests s) {a : Action ι}
    (ht : step config requests s a = .ok t) : FairQueue.StartsBelow s t := by
  have hstep : ∀ b : FairQueue.Action ι, FairQueue.Valid s b → FairQueue.step s b = .ok t →
      FairQueue.StartsBelow s t := by
    intro b hb hr
    obtain ⟨u, hu, -, hbelow⟩ := h.conserved.step hb
    obtain rfl := Except.ok.inj (hu.symm.trans hr)
    exact hbelow
  cases a with
  | queueRequest pc n => exact hstep (.queue pc _) trivial ht
  | notifyRequestsFinished req =>
    by_cases hreq : req ∈ s.running
    · exact hstep (.notifyRequestsFinished req) hreq ((if_pos hreq).symm.trans ht)
    · obtain rfl := Except.ok.inj ((if_neg hreq).symm.trans ht)
      exact Or.inl rfl
  | pollIoQueue top => exact hstep (.dispatchRequests top) trivial ht
  | funcReturns top =>
    by_cases hdepth : 0 < s.depth
    · exact hstep (.funcReturns top) hdepth ((if_pos hdepth).symm.trans ht)
    · obtain rfl := Except.ok.inj ((if_neg hdepth).symm.trans ht)
      exact Or.inl rfl

/-- Only the bounds are needed: the queue compares its counters with the limits. -/
theorem Traced.accounted_iff (h : Traced config requests s) :
    Accounted config requests s ↔ Bounded config requests s := by
  constructor
  · intro hacc
    constructor
    · intro x hx
      have hsize := hacc.size x hx
      rw [h.desc x hx] at hsize
      exact (size_eq_iff _).mp hsize
    · exact hacc.reqCount ▸ s.fq.reqCountExecuting.toNat_lt
    · exact hacc.bytesCount ▸ s.fq.bytesCountExecuting.toNat_lt
  · intro hb
    have hreq : s.fq.reqCountExecuting.toNat = outstanding (reqCost config) requests s.running := by
      rw [h.conserved.reqCountExecuting, h.units_weight, Nat.mod_eq_of_lt hb.reqCount]
    have hbytes : s.fq.bytesCountExecuting.toNat =
        outstanding (bytesCost config) requests s.running := by
      rw [h.conserved.bytesCountExecuting, h.units_size hb.size, Nat.mod_eq_of_lt hb.bytesCount]
    refine ⟨?_, ?_, hreq, hbytes, ?_⟩
    · intro x hx
      rw [h.desc x hx]
      rfl
    · intro x hx
      rw [h.desc x hx]
      exact (size_eq_iff _).mpr (hb.size x hx)
    · intro a t ht
      obtain hsame | ⟨-, -, -, hreqs, hsizes⟩ := h.starts_below ht
      · exact Or.inl hsame
      · rw [h.configured, UInt32.lt_iff_toNat_lt] at hreqs hsizes
        rw [← hreq, ← hbytes]
        exact Or.inr ⟨hreqs, hsizes⟩

/-! ## Steps and runs -/

/-- A request that is queued. -/
theorem Traced.queueRequest (h : Traced config requests s) (pc : ι) (n : Nat) :
    ∃ t, step config requests s (.queueRequest pc n) = .ok t ∧ Traced config requests t ∧
      (Bounded config requests s →
        (bytesCost config (requests n) < 2 ^ 32 ↔ Bounded config requests t)) := by
  refine ⟨_, rfl, ⟨h.conserved.queue pc _, ?_, ?_, ?_⟩, fun hb => ⟨fun hn => ⟨?_, ?_, ?_⟩, ?_⟩⟩
  · exact (FairQueue.push_same pc s.fq).config.trans h.configured
  · intro x hx
    obtain hx | hx := List.mem_append.mp hx
    · exact h.desc x hx
    · obtain rfl := List.mem_singleton.mp hx
      rfl
  · intro req hreq
    obtain ⟨d, hmem⟩ := h.running req hreq
    exact ⟨d, List.mem_append_left _ hmem⟩
  · intro x hx
    obtain hx | hx := List.mem_append.mp hx
    · exact hb.size x hx
    · obtain rfl := List.mem_singleton.mp hx
      exact hn
  · exact hb.reqCount
  · exact hb.bytesCount
  · intro ht
    exact ht.size (pc, ⟨n, descriptor config (requests n)⟩) (List.mem_append_right _ (by simp))

/-- A request that finishes only takes from what is outstanding. -/
theorem Traced.notify (h : Traced config requests s) {req : Request} (hreq : req ∈ s.running) :
    ∃ t, FairQueue.step s (.notifyRequestsFinished req) = .ok t ∧ Traced config requests t ∧
      (Bounded config requests s → Bounded config requests t) := by
  refine ⟨_, rfl, ⟨h.conserved.notify hreq, h.configured, h.desc, ?_⟩, fun hb => ⟨hb.size, ?_, ?_⟩⟩
  · intro r hr
    exact h.running r (List.mem_of_mem_erase hr)
  · exact Nat.lt_of_le_of_lt (outstanding_erase_le hreq) hb.reqCount
  · exact Nat.lt_of_le_of_lt (outstanding_erase_le hreq) hb.bytesCount

/-- From the head of the loop of `dispatch_requests` the next request is started, if there is one. -/
theorem Traced.loop (h : Traced config requests s) (top : FairQueue.Top ι) :
    ∃ t, FairQueue.loop top s = .ok t ∧ Traced config requests t ∧
      (Bounded config requests s →
        (StartFits config requests s top ↔ Bounded config requests t)) := by
  obtain ⟨t, ht, hconserved, -⟩ := h.conserved.loop top
  refine ⟨t, ht, ?_⟩
  obtain ⟨hd, pc, req, fq, hnext, hdisp, hloop⟩ | ⟨hd, hloop⟩ := h.conserved.loop_cases top
  · obtain rfl := Except.ok.inj (ht.symm.trans hloop)
    have hqueued : (pc, req) ∈ s.queued := by
      have hfifo := h.conserved.fifo pc
      rw [hdisp.queue] at hfifo
      have hmem : req ∈ FairQueue.ofClass pc s.queued := by
        rw [hfifo]
        simp
      simpa [FairQueue.ofClass] using hmem
    have hstart : nextRequest top s.fq = some req := by
      rw [nextRequest, if_pos hd, hnext]
      rfl
    refine ⟨⟨hconserved, hdisp.config.trans h.configured, h.desc, ?_⟩, fun hb => ⟨?_, ?_⟩⟩
    · intro r hr
      obtain hr | hr := List.mem_append.mp hr
      · exact h.running r hr
      · obtain rfl := List.mem_singleton.mp hr
        exact ⟨pc, hqueued⟩
    · intro hfits
      obtain ⟨hreqs, hbytes⟩ := hfits req hstart
      refine ⟨hb.size, ?_, ?_⟩
      · rw [outstanding_snoc]
        exact hreqs
      · rw [outstanding_snoc]
        exact hbytes
    · intro hb' r hr
      obtain rfl := Option.some.inj (hstart.symm.trans hr)
      have hreqs := hb'.reqCount
      have hbytes := hb'.bytesCount
      rw [outstanding_snoc] at hreqs hbytes
      exact ⟨hreqs, hbytes⟩
  · obtain rfl := Except.ok.inj (ht.symm.trans hloop)
    refine ⟨⟨hconserved, h.configured, h.desc, h.running⟩, fun hb => ⟨fun _ => ?_, fun _ => ?_⟩⟩
    · exact ⟨hb.size, hb.reqCount, hb.bytesCount⟩
    · intro r hr
      rw [nextRequest, if_neg (by simp [hd])] at hr
      cases hr

/-- An action keeps the bounds exactly when it fits. -/
theorem Traced.step (h : Traced config requests s) (a : Action ι) :
    ∃ t, IoQueue.step config requests s a = .ok t ∧ Traced config requests t ∧
      (Bounded config requests s → (Fits config requests s a ↔ Bounded config requests t)) := by
  cases a with
  | queueRequest pc n => exact h.queueRequest pc n
  | notifyRequestsFinished req =>
    by_cases hreq : req ∈ s.running
    · obtain ⟨t, ht, htraced, hb⟩ := h.notify hreq
      exact ⟨t, (if_pos hreq).trans ht, htraced, fun hs => ⟨fun _ => hb hs, fun _ => trivial⟩⟩
    · exact ⟨s, if_neg hreq, h, fun hb => ⟨fun _ => hb, fun _ => trivial⟩⟩
  | pollIoQueue top =>
    have hdeeper : Traced config requests { s with depth := s.depth + 1 } :=
      ⟨⟨h.conserved.handled, h.conserved.fifo, h.conserved.requestsQueued,
        h.conserved.requestsExecuting, h.conserved.reqCountExecuting,
        h.conserved.bytesCountExecuting⟩, h.configured, h.desc, h.running⟩
    obtain ⟨t, ht, htraced, hb⟩ := hdeeper.loop top
    exact ⟨t, ht, htraced, fun hs => hb ⟨hs.size, hs.reqCount, hs.bytesCount⟩⟩
  | funcReturns top =>
    by_cases hdepth : 0 < s.depth
    · obtain ⟨t, ht, htraced, hb⟩ := h.loop top
      refine ⟨t, (if_pos hdepth).trans ht, htraced, fun hs => ?_⟩
      exact (forall_prop_of_true hdepth).trans (hb hs)
    · refine ⟨s, if_neg hdepth, h, fun hb => ⟨fun _ => hb, fun _ hd => ?_⟩⟩
      exact absurd hd hdepth

/-- In a run the descriptors and the counters hold the exact costs all the time, and requests are
started below the limits only, exactly when each request that is queued costs less than `2 ^ 32` and
each one that is started leaves less than that outstanding. -/
theorem run_accounts_iff (config : Config) (requests : Nat → IoRequest) (as : List (Action ι)) :
    Run.Throughout (IoQueue.step config requests) (Accounted config requests) (init config) as ↔
      Run.Along (IoQueue.step config requests) (Fits config requests) (init config) as := by
  have hinit : Traced config requests (init config : FairQueue.State ι) := init_traced config requests
  refine (Run.along_iff_throughout (I := Traced config requests) ?_ hinit ?_).symm
  · intro s a hs hacc
    obtain ⟨t, ht, htraced, hb⟩ := hs.step a
    refine ⟨t, ht, htraced, ?_⟩
    rw [htraced.accounted_iff]
    exact hb (hs.accounted_iff.mp hacc)
  · rw [hinit.accounted_iff]
    exact ⟨fun _ hx => absurd hx List.not_mem_nil, by simp [init, outstanding],
      by simp [init, outstanding]⟩

/-- The descriptor of a read of 32 megabytes says that it costs nothing. -/
theorem run_misaccounts :
    ¬ Run.Throughout (IoQueue.step {} fun _ => ⟨.read, 33554432⟩)
      (Accounted {} fun _ => ⟨.read, 33554432⟩) (init {} : FairQueue.State Unit)
      [.queueRequest () 0] := by
  intro h
  have hacc := h.2 _ rfl
  have hsize := hacc.size _ (List.mem_singleton.mpr rfl)
  revert hsize
  decide

end IoQueue

end Seastar
