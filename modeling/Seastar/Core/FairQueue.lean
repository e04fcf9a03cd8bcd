import Mathlib
import Seastar.Core.Fault
import Seastar.Lib.Run

/-!
`fair_queue` of `core/fair_queue.hh`: requests wait in their priority class, and
the classes that have some wait in a heap ordered by what they have cost so
far. The costs are floating point numbers that only decide which class of the
heap is on top, so here any class of the heap may be.

The reactor is one thread, but a request's function runs in the middle of
`dispatch_requests` and may call the queue itself; so the state has the number
of calls of `dispatch_requests` whose function is running.
-/

namespace Seastar

open Lib

/-- `fair_queue_request_descriptor`. -/
structure RequestDescriptor where
  weight : UInt32 := 1
  size : UInt32 := 1
  deriving DecidableEq, Repr

/-- `priority_class::request`, with a name for its function. -/
structure Request where
  func : Nat
  desc : RequestDescriptor
  deriving DecidableEq, Repr

/-- `class priority_class`, without its share of the cost. -/
structure PriorityClass where
  queue : List Request := []
  queued : Bool := false

/-- `fair_queue::config`. -/
structure FairQueueConfig where
  capacity : UInt32 := 4294967295
  maxReqCount : UInt32 := 4294967295
  maxBytesCount : UInt32 := 4294967295

/-- `class fair_queue`, with the priority classes that are registered. -/
structure FairQueue (ι : Type) where
  config : FairQueueConfig
  requestsExecuting : UInt32 := 0
  reqCountExecuting : UInt32 := 0
  bytesCountExecuting : UInt32 := 0
  requestsQueued : UInt32 := 0
  handles : List ι := []
  classes : ι → PriorityClass := fun _ => {}

namespace FairQueue

variable {ι : Type} [DecidableEq ι]

/-- The class on top of the heap, as its comparison decides it. -/
abbrev Top (ι : Type) := { top : List ι → ι // ∀ l, l ≠ [] → top l ∈ l }

/-- Changes one class. -/
def update (pc : ι) (c : PriorityClass) (fq : FairQueue ι) : FairQueue ι :=
  { fq with classes := Function.update fq.classes pc c }

/-- `push_priority_class`. -/
def pushPriorityClass (pc : ι) (fq : FairQueue ι) : FairQueue ι :=
  if (fq.classes pc).queued then fq
  else { fq with handles := pc :: fq.handles }.update pc { fq.classes pc with queued := true }

/-- `pop_priority_class`. -/
def popPriorityClass (top : Top ι) (fq : FairQueue ι) : Except Fault (ι × FairQueue ι) :=
  if fq.handles.isEmpty then .error .assertFailed
  else
    let h := top.1 fq.handles
    let fq := { fq with handles := fq.handles.erase h }
    if (fq.classes h).queued then .ok (h, fq.update h { fq.classes h with queued := false })
    else .error .assertFailed

/-- `can_dispatch`. -/
def canDispatch (fq : FairQueue ι) : Bool :=
  fq.requestsQueued ≠ 0 && fq.requestsExecuting < fq.config.capacity &&
    fq.reqCountExecuting < fq.config.maxReqCount &&
    fq.bytesCountExecuting < fq.config.maxBytesCount

/-- `queue`. -/
def queue (pc : ι) (req : Request) (fq : FairQueue ι) : FairQueue ι :=
  let fq := fq.pushPriorityClass pc
  let fq := fq.update pc { fq.classes pc with queue := (fq.classes pc).queue ++ [req] }
  { fq with requestsQueued := fq.requestsQueued + 1 }

/-- `notify_requests_finished`. -/
def notifyRequestsFinished (desc : RequestDescriptor) (fq : FairQueue ι) : FairQueue ι :=
  { fq with
    requestsExecuting := fq.requestsExecuting - 1
    reqCountExecuting := fq.reqCountExecuting - desc.weight
    bytesCountExecuting := fq.bytesCountExecuting - desc.size }

/-- The inner loop of `dispatch_requests`: pops classes until one has a request. With one round more
than there are handles, the heap is empty before the rounds are used up. -/
def popWaiting (top : Top ι) : Nat → FairQueue ι → Except Fault (ι × FairQueue ι)
  | 0, _ => .error .assertFailed
  | rounds + 1, fq => do
    let (h, fq) ← fq.popPriorityClass top
    if (fq.classes h).queue.isEmpty then popWaiting top rounds fq else .ok (h, fq)

/-- A round of `dispatch_requests` up to the call of the function of the request it returns. -/
def dispatchNext (top : Top ι) (fq : FairQueue ι) :
    Except Fault (ι × Request × FairQueue ι) := do
  let (h, fq) ← popWaiting top (fq.handles.length + 1) fq
  match (fq.classes h).queue with
  | [] => .error .emptyQueue
  | req :: rest =>
    let fq := { fq with
      requestsExecuting := fq.requestsExecuting + 1
      reqCountExecuting := fq.reqCountExecuting + req.desc.weight
      bytesCountExecuting := fq.bytesCountExecuting + req.desc.size
      requestsQueued := fq.requestsQueued - 1 }.update h { fq.classes h with queue := rest }
    .ok (h, req, if rest.isEmpty then fq else fq.pushPriorityClass h)

/-- A fair queue in use: how many calls of `dispatch_requests` are running a function, and the
requests that have been queued, have been started, and are executing. -/
structure State (ι : Type) where
  fq : FairQueue ι
  depth : Nat := 0
  queued : List (ι × Request) := []
  started : List (ι × Request) := []
  running : List Request := []

/-- What can happen to a fair queue. Only `func_returns` ends a function, so the other actions also
happen inside of it. -/
inductive Action (ι : Type)
  | queue (pc : ι) (req : Request)
  | notifyRequestsFinished (req : Request)
  | dispatchRequests (top : Top ι)
  | funcReturns (top : Top ι)

/-- `dispatch_requests` from the head of its loop to the next function, or to its end. -/
def loop (top : Top ι) (s : State ι) : Except Fault (State ι) :=
  if s.fq.canDispatch then do
    let (h, req, fq) ← s.fq.dispatchNext top
    .ok { s with fq, started := s.started ++ [(h, req)], running := s.running ++ [req] }
  else .ok { s with depth := s.depth - 1 }

/-- One action. -/
def step (s : State ι) : Action ι → Except Fault (State ι)
  | .queue pc req => .ok { s with fq := s.fq.queue pc req, queued := s.queued ++ [(pc, req)] }
  | .notifyRequestsFinished req =>
    .ok { s with fq := s.fq.notifyRequestsFinished req.desc, running := s.running.erase req }
  | .dispatchRequests top => loop top { s with depth := s.depth + 1 }
  | .funcReturns top => loop top s

/-- The state after the actions, oldest first. -/
def run : State ι → List (Action ι) → Except Fault (State ι) := Run.run step

/-- Only a running request finishes, and only a running function returns. -/
def Valid (s : State ι) : Action ι → Prop
  | .notifyRequestsFinished req => req ∈ s.running
  | .funcReturns _ => 0 < s.depth
  | _ => True

instance (s : State ι) (a : Action ι) : Decidable (Valid s a) := by
  cases a <;> unfold Valid <;> infer_instance

/-- The requests of a class, in order. -/
def ofClass (pc : ι) (reqs : List (ι × Request)) : List Request :=
  (reqs.filter (·.1 = pc)).map Prod.snd

/-! ## The heap of classes -/

/-- A class is in the heap, once and with its flag set, exactly when it has requests. -/
structure Handled (fq : FairQueue ι) : Prop where
  nodup : fq.handles.Nodup
  flag : ∀ pc, (fq.classes pc).queued = true ↔ pc ∈ fq.handles
  waiting : ∀ pc, pc ∈ fq.handles ↔ (fq.classes pc).queue ≠ []

variable {fq : FairQueue ι} {top : Top ι}

@[simp] theorem update_self (pc : ι) (c : PriorityClass) (fq : FairQueue ι) :
    (fq.update pc c).classes pc = c := Function.update_self ..

theorem update_ne {pc d : ι} (h : d ≠ pc) (c : PriorityClass) (fq : FairQueue ι) :
    (fq.update pc c).classes d = fq.classes d := Function.update_of_ne h ..

@[simp] theorem update_handles (pc : ι) (c : PriorityClass) (fq : FairQueue ι) :
    (fq.update pc c).handles = fq.handles := rfl

/-- What `push_priority_class` and `pop_priority_class` leave alone. -/
structure SameRequests (fq fq' : FairQueue ι) : Prop where
  queue : ∀ pc, (fq'.classes pc).queue = (fq.classes pc).queue
  config : fq'.config = fq.config
  requestsExecuting : fq'.requestsExecuting = fq.requestsExecuting
  reqCountExecuting : fq'.reqCountExecuting = fq.reqCountExecuting
  bytesCountExecuting : fq'.bytesCountExecuting = fq.bytesCountExecuting
  requestsQueued : fq'.requestsQueued = fq.requestsQueued

/-- The flag of a class says whether it is in the heap. -/
structure Flagged (fq : FairQueue ι) : Prop where
  nodup : fq.handles.Nodup
  flag : ∀ pc, (fq.classes pc).queued = true ↔ pc ∈ fq.handles

omit [DecidableEq ι] in
theorem Handled.flagged (h : Handled fq) : Flagged fq := ⟨h.nodup, h.flag⟩

theorem push_same (pc : ι) (fq : FairQueue ι) : SameRequests fq (fq.pushPriorityClass pc) := by
  unfold pushPriorityClass
  split
  · exact ⟨fun _ => rfl, rfl, rfl, rfl, rfl, rfl⟩
  · refine ⟨fun d => ?_, rfl, rfl, rfl, rfl, rfl⟩
    by_cases hd : d = pc
    · rw [hd, update_self]
    · rw [update_ne hd]

theorem mem_push {pc d : ι} (h : Flagged fq) :
    d ∈ (fq.pushPriorityClass pc).handles ↔ d = pc ∨ d ∈ fq.handles := by
  unfold pushPriorityClass
  split
  · rename_i hq
    have hpc := (h.flag pc).mp hq
    constructor
    · exact Or.inr
    · rintro (rfl | hd)
      · exact hpc
      · exact hd
  · exact List.mem_cons

theorem Flagged.push (h : Flagged fq) (pc : ι) : Flagged (fq.pushPriorityClass pc) := by
  have hmem : ∀ d, d ∈ (fq.pushPriorityClass pc).handles ↔ d = pc ∨ d ∈ fq.handles :=
    fun _ => mem_push h
  refine ⟨?_, fun d => ?_⟩
  · unfold pushPriorityClass
    split
    · exact h.nodup
    · rename_i hq
      exact List.nodup_cons.mpr ⟨fun hc => hq ((h.flag pc).mpr hc), h.nodup⟩
  · rw [hmem]
    unfold pushPriorityClass
    split
    · rename_i hq
      rw [h.flag]
      refine ⟨Or.inr, ?_⟩
      rintro (rfl | hd)
      · exact (h.flag d).mp hq
      · exact hd
    · by_cases hd : d = pc
      · rw [hd, update_self]
        exact ⟨fun _ => Or.inl rfl, fun _ => rfl⟩
      · rw [update_ne hd]
        exact (h.flag d).trans ⟨Or.inr, fun hc => hc.resolve_left hd⟩

/-- `pop_priority_class` takes a class of the heap out of it; its assertions hold. -/
theorem Flagged.pop (h : Flagged fq) (hne : fq.handles ≠ []) (top : Top ι) :
    ∃ pc fq', fq.popPriorityClass top = .ok (pc, fq') ∧ pc ∈ fq.handles ∧
      SameRequests fq fq' ∧ Flagged fq' ∧ (∀ d, d ∈ fq'.handles ↔ d ≠ pc ∧ d ∈ fq.handles) := by
  have hmem := top.2 fq.handles hne
  have hflag := (h.flag _).mpr hmem
  have herase : ∀ d, d ∈ fq.handles.erase (top.1 fq.handles) ↔
      d ≠ top.1 fq.handles ∧ d ∈ fq.handles := fun d => h.nodup.mem_erase_iff
  refine ⟨top.1 fq.handles,
    FairQueue.update (top.1 fq.handles) { fq.classes (top.1 fq.handles) with queued := false }
      { fq with handles := fq.handles.erase (top.1 fq.handles) }, ?_, hmem, ?_, ?_, herase⟩
  · rw [popPriorityClass, if_neg (by simpa using hne)]
    exact if_pos hflag
  · refine ⟨fun d => ?_, rfl, rfl, rfl, rfl, rfl⟩
    by_cases hd : d = top.1 fq.handles
    · rw [hd, update_self]
    · rw [update_ne hd]
  · refine ⟨h.nodup.erase _, fun d => ?_⟩
    rw [update_handles, herase]
    by_cases hd : d = top.1 fq.handles
    · rw [hd, update_self]
      exact ⟨fun hf => (Bool.false_ne_true hf).elim, fun hc => (hc.1 rfl).elim⟩
    · rw [update_ne hd]
      exact (h.flag d).trans ⟨fun hc => ⟨hd, hc⟩, And.right⟩

theorem Handled.pop (h : Handled fq) (hne : fq.handles ≠ []) (top : Top ι) :
    ∃ pc fq', popWaiting top (fq.handles.length + 1) fq = .ok (pc, fq') ∧ pc ∈ fq.handles ∧
      SameRequests fq fq' ∧ Flagged fq' ∧ (∀ d, d ∈ fq'.handles ↔ d ≠ pc ∧ d ∈ fq.handles) := by
  obtain ⟨pc, fq', hpop, hpc, hsame, hflagged, hmem⟩ := h.flagged.pop hne top
  refine ⟨pc, fq', ?_, hpc, hsame, hflagged, hmem⟩
  have hq : (fq'.classes pc).queue ≠ [] := by
    rw [hsame.queue]
    exact (h.waiting pc).mp hpc
  rw [popWaiting, hpop, ok_bind]
  exact if_neg (by simpa using hq)

/-- `queue` puts the request at the end of its class, and the class into the heap. -/
theorem Handled.queue (h : Handled fq) (pc : ι) (req : Request) : Handled (fq.queue pc req) := by
  have hsame := push_same pc fq
  have hflagged := h.flagged.push pc
  have hmem : ∀ d, d ∈ (fq.pushPriorityClass pc).handles ↔ d = pc ∨ d ∈ fq.handles :=
    fun _ => mem_push h.flagged
  refine ⟨hflagged.nodup, fun d => ?_, fun d => ?_⟩
  · show (((fq.pushPriorityClass pc).update pc _).classes d).queued = true ↔
      d ∈ (fq.pushPriorityClass pc).handles
    rw [← hflagged.flag]
    by_cases hd : d = pc
    · rw [hd, update_self]
    · rw [update_ne hd]
  · show d ∈ (fq.pushPriorityClass pc).handles ↔
      (((fq.pushPriorityClass pc).update pc _).classes d).queue ≠ []
    rw [hmem]
    by_cases hd : d = pc
    · rw [hd, update_self]
      exact ⟨fun _ => List.append_ne_nil_of_right_ne_nil _ (List.cons_ne_nil _ _), fun _ => Or.inl rfl⟩
    · rw [update_ne hd, hsame.queue, ← h.waiting]
      exact ⟨fun hc => hc.resolve_left hd, Or.inr⟩

theorem queue_queue (pc d : ι) (req : Request) (fq : FairQueue ι) :
    ((fq.queue pc req).classes d).queue =
      if d = pc then (fq.classes d).queue ++ [req] else (fq.classes d).queue := by
  have hsame := push_same pc fq
  show (((fq.pushPriorityClass pc).update pc _).classes d).queue = _
  by_cases hd : d = pc
  · rw [if_pos hd, hd, update_self]
    exact congrArg (· ++ [req]) (hsame.queue pc)
  · rw [if_neg hd, update_ne hd, hsame.queue]

/-- What a round of `dispatch_requests` does: it starts the first request of a class. -/
structure Dispatched (fq : FairQueue ι) (pc : ι) (req : Request) (fq' : FairQueue ι) : Prop where
  handled : Handled fq'
  queue : (fq.classes pc).queue = req :: (fq'.classes pc).queue
  others : ∀ d, d ≠ pc → (fq'.classes d).queue = (fq.classes d).queue
  config : fq'.config = fq.config
  requestsExecuting : fq'.requestsExecuting = fq.requestsExecuting + 1
  reqCountExecuting : fq'.reqCountExecuting = fq.reqCountExecuting + req.desc.weight
  bytesCountExecuting : fq'.bytesCountExecuting = fq.bytesCountExecuting + req.desc.size
  requestsQueued : fq'.requestsQueued = fq.requestsQueued - 1

theorem Handled.dispatchNext (h : Handled fq) (hne : fq.handles ≠ []) (top : Top ι) :
    ∃ pc req fq', fq.dispatchNext top = .ok (pc, req, fq') ∧ Dispatched fq pc req fq' := by
  obtain ⟨pc, fq₁, hpop, hpc, hsame, hflagged, hmem⟩ := h.pop hne top
  rw [FairQueue.dispatchNext, hpop, ok_bind]
  dsimp only
  cases hq : (fq₁.classes pc).queue with
  | nil => exact absurd (hsame.queue pc ▸ hq) ((h.waiting pc).mp hpc)
  | cons req rest =>
    refine ⟨pc, req, _, rfl, ?_⟩
    generalize hfq₂ : FairQueue.update pc _ _ = fq₂
    have hself : fq₂.classes pc = { fq₁.classes pc with queue := rest } := hfq₂ ▸ update_self ..
    have hothers : ∀ d, d ≠ pc → fq₂.classes d = fq₁.classes d :=
      fun d hd => hfq₂ ▸ update_ne hd ..
    have hhandles : fq₂.handles = fq₁.handles := hfq₂ ▸ rfl
    have hflagged₂ : Flagged fq₂ := by
      refine ⟨hhandles ▸ hflagged.nodup, fun d => ?_⟩
      rw [hhandles, ← hflagged.flag]
      by_cases hd : d = pc
      · rw [hd, hself]
      · rw [hothers d hd]
    have hpcq : (fq.classes pc).queue = req :: rest := hsame.queue pc ▸ hq
    have hconfig : fq₂.config = fq.config := hfq₂ ▸ hsame.config
    have hexec : fq₂.requestsExecuting = fq.requestsExecuting + 1 :=
      hfq₂ ▸ congrArg (· + 1) hsame.requestsExecuting
    have hcount : fq₂.reqCountExecuting = fq.reqCountExecuting + req.desc.weight :=
      hfq₂ ▸ congrArg (· + req.desc.weight) hsame.reqCountExecuting
    have hbytes : fq₂.bytesCountExecuting = fq.bytesCountExecuting + req.desc.size :=
      hfq₂ ▸ congrArg (· + req.desc.size) hsame.bytesCountExecuting
    have hqueued : fq₂.requestsQueued = fq.requestsQueued - 1 :=
      hfq₂ ▸ congrArg (· - 1) hsame.requestsQueued
    cases rest with
    | nil =>
      refine ⟨⟨hflagged₂.nodup, hflagged₂.flag, fun d => ?_⟩, ?_, fun d hd => ?_, hconfig, hexec,
        hcount, hbytes, hqueued⟩
      · rw [show (if ([] : List Request).isEmpty = true then fq₂ else
          fq₂.pushPriorityClass pc) = fq₂ from rfl, hhandles, hmem]
        by_cases hd : d = pc
        · rw [hd, hself]
          exact ⟨fun hc => (hc.1 rfl).elim, fun hc => (hc rfl).elim⟩
        · rw [hothers d hd, hsame.queue, ← h.waiting]
          exact ⟨And.right, fun hc => ⟨hd, hc⟩⟩
      · show _ = req :: (fq₂.classes pc).queue
        rw [hpcq, hself]
      · show (fq₂.classes d).queue = _
        rw [hothers d hd, hsame.queue]
    | cons r rest =>
      have hpush := push_same pc fq₂
      have hflagged₃ := hflagged₂.push pc
      have hmem₃ : ∀ d, d ∈ (fq₂.pushPriorityClass pc).handles ↔ d = pc ∨ d ∈ fq₂.handles :=
        fun _ => mem_push hflagged₂
      refine ⟨⟨hflagged₃.nodup, hflagged₃.flag, fun d => ?_⟩, ?_, fun d hd => ?_,
        hpush.config.trans hconfig, hpush.requestsExecuting.trans hexec,
        hpush.reqCountExecuting.trans hcount, hpush.bytesCountExecuting.trans hbytes,
        hpush.requestsQueued.trans hqueued⟩
      · show d ∈ (fq₂.pushPriorityClass pc).handles ↔
          ((fq₂.pushPriorityClass pc).classes d).queue ≠ []
        rw [hmem₃, hhandles, hmem, hpush.queue]
        by_cases hd : d = pc
        · rw [hd, hself]
          exact ⟨fun _ => List.cons_ne_nil _ _, fun _ => Or.inl rfl⟩
        · rw [hothers d hd, hsame.queue, ← h.waiting]
          exact ⟨fun hc => (hc.resolve_left hd).2, fun hc => Or.inr ⟨hd, hc⟩⟩
      · show _ = req :: ((fq₂.pushPriorityClass pc).classes pc).queue
        rw [hpcq, hpush.queue, hself]
      · show ((fq₂.pushPriorityClass pc).classes d).queue = _
        rw [hpush.queue, hothers d hd, hsame.queue]

/-! ## Runs -/

theorem ofClass_snoc (pc d : ι) (req : Request) (reqs : List (ι × Request)) :
    ofClass pc (reqs ++ [(d, req)]) =
      if pc = d then ofClass pc reqs ++ [req] else ofClass pc reqs := by
  rw [ofClass, List.filter_append, List.map_append]
  by_cases h : pc = d
  · rw [if_pos h, List.filter_cons_of_pos (by simpa using h.symm)]
    rfl
  · rw [if_neg h, List.filter_cons_of_neg (by simpa using fun hc => h hc.symm), List.filter_nil,
      List.map_nil, List.append_nil]
    rfl

variable [Fintype ι]

/-- The number of requests that wait. -/
def waiting (fq : FairQueue ι) : Nat := ∑ pc, (fq.classes pc).queue.length

/-- When the queue of one class changes, the number of waiting requests changes with it. -/
theorem waiting_change {fq fq' : FairQueue ι} (pc : ι)
    (h : ∀ d, d ≠ pc → (fq'.classes d).queue = (fq.classes d).queue) :
    fq'.waiting + (fq.classes pc).queue.length = fq.waiting + (fq'.classes pc).queue.length := by
  have hrest : ∑ d ∈ Finset.univ.erase pc, (fq'.classes d).queue.length =
      ∑ d ∈ Finset.univ.erase pc, (fq.classes d).queue.length :=
    Finset.sum_congr rfl fun d hd => by rw [h d (Finset.ne_of_mem_erase hd)]
  unfold waiting
  rw [← Finset.add_sum_erase Finset.univ (fun d => (fq'.classes d).queue.length) (Finset.mem_univ pc),
    ← Finset.add_sum_erase Finset.univ (fun d => (fq.classes d).queue.length) (Finset.mem_univ pc),
    hrest]
  omega

/-- The units a kind of descriptor field adds up to. -/
def units (f : RequestDescriptor → UInt32) (reqs : List Request) : Nat :=
  (reqs.map fun req => (f req.desc).toNat).sum

theorem units_snoc (f : RequestDescriptor → UInt32) (reqs : List Request) (req : Request) :
    units f (reqs ++ [req]) = units f reqs + (f req.desc).toNat := by
  rw [units, List.map_append, List.sum_append]
  rfl

theorem units_erase {reqs : List Request} {req : Request} (h : req ∈ reqs)
    (f : RequestDescriptor → UInt32) :
    units f (reqs.erase req) + (f req.desc).toNat = units f reqs := by
  have hsum := List.sum_map_erase (fun req : Request => (f req.desc).toNat) h
  rw [units, units, ← hsum, Nat.add_comm]

/-- Requests leave their class in the order they came and none is lost; the counters of 32 bits
follow what is waiting and executing. -/
structure Conserved (s : State ι) : Prop where
  handled : Handled s.fq
  fifo : ∀ pc, ofClass pc s.queued = ofClass pc s.started ++ (s.fq.classes pc).queue
  requestsQueued : s.fq.requestsQueued.toNat = s.fq.waiting % 2 ^ 32
  requestsExecuting : s.fq.requestsExecuting.toNat = s.running.length
  reqCountExecuting : s.fq.reqCountExecuting.toNat =
    units RequestDescriptor.weight s.running % 2 ^ 32
  bytesCountExecuting : s.fq.bytesCountExecuting.toNat =
    units RequestDescriptor.size s.running % 2 ^ 32

/-- The counters are below the configured limits. -/
def BelowLimits (fq : FairQueue ι) : Prop :=
  fq.requestsExecuting < fq.config.capacity ∧ fq.reqCountExecuting < fq.config.maxReqCount ∧
    fq.bytesCountExecuting < fq.config.maxBytesCount

/-- An action starts no request, or one while the counters are below the limits. -/
def StartsBelow (s s' : State ι) : Prop :=
  s'.started = s.started ∨ ∃ x, s'.started = s.started ++ [x] ∧ BelowLimits s.fq

theorem Conserved.initial (config : FairQueueConfig) :
    Conserved ({ fq := { config } } : State ι) where
  handled :=
    ⟨List.nodup_nil, fun _ => ⟨fun h => (Bool.false_ne_true h).elim, fun h => absurd h List.not_mem_nil⟩,
      fun _ => ⟨fun h => absurd h List.not_mem_nil, fun h => (h rfl).elim⟩⟩
  fifo _ := rfl
  requestsQueued := by
    show 0 = (∑ pc : ι, 0) % 2 ^ 32
    rw [Finset.sum_const_zero, Nat.zero_mod]
  requestsExecuting := rfl
  reqCountExecuting := rfl
  bytesCountExecuting := rfl

variable {s : State ι}

theorem toNat_add_mod {a b : UInt32} {n : Nat} (h : a.toNat = n % 2 ^ 32) :
    (a + b).toNat = (n + b.toNat) % 2 ^ 32 := by
  rw [UInt32.toNat_add, h, Nat.mod_add_mod]

theorem toNat_sub_mod {a b : UInt32} {m n : Nat} (h : a.toNat = n % 2 ^ 32) (hn : m + b.toNat = n) :
    (a - b).toNat = m % 2 ^ 32 := by
  have := b.toNat_lt
  rw [UInt32.toNat_sub, h]
  omega

theorem Conserved.queue (h : Conserved s) (pc : ι) (req : Request) :
    Conserved { s with fq := s.fq.queue pc req, queued := s.queued ++ [(pc, req)] } := by
  have hsame := push_same pc s.fq
  have hqueue := fun d => queue_queue pc d req s.fq
  refine ⟨h.handled.queue pc req, fun d => ?_, ?_, ?_, ?_, ?_⟩
  · show ofClass d (s.queued ++ [(pc, req)]) = ofClass d s.started ++ ((s.fq.queue pc req).classes d).queue
    rw [ofClass_snoc, hqueue, h.fifo]
    split
    · rw [List.append_assoc]
    · rfl
  · have hchange : (s.fq.queue pc req).waiting + (s.fq.classes pc).queue.length =
        s.fq.waiting + ((s.fq.queue pc req).classes pc).queue.length :=
      waiting_change pc fun d hd => by rw [hqueue, if_neg hd]
    rw [hqueue, if_pos rfl, List.length_append, List.length_singleton] at hchange
    show ((s.fq.pushPriorityClass pc).requestsQueued + 1).toNat = _
    rw [hsame.requestsQueued, toNat_add_mod h.requestsQueued]
    exact congrArg (· % 2 ^ 32) (show s.fq.waiting + 1 = (s.fq.queue pc req).waiting by omega)
  · exact (congrArg UInt32.toNat hsame.requestsExecuting).trans h.requestsExecuting
  · exact (congrArg UInt32.toNat hsame.reqCountExecuting).trans h.reqCountExecuting
  · exact (congrArg UInt32.toNat hsame.bytesCountExecuting).trans h.bytesCountExecuting

theorem Conserved.notify (h : Conserved s) {req : Request} (hr : req ∈ s.running) :
    Conserved { s with
      fq := s.fq.notifyRequestsFinished req.desc
      running := s.running.erase req } := by
  refine ⟨⟨h.handled.nodup, h.handled.flag, h.handled.waiting⟩, h.fifo, h.requestsQueued, ?_, ?_, ?_⟩
  · have hpos := List.length_pos_of_mem hr
    have hlt := s.fq.requestsExecuting.toNat_lt
    have hexec := h.requestsExecuting
    show (s.fq.requestsExecuting - 1).toNat = (s.running.erase req).length
    rw [List.length_erase_of_mem hr, UInt32.toNat_sub, hexec]
    show (2 ^ 32 - 1 + s.running.length) % 2 ^ 32 = _
    omega
  · exact toNat_sub_mod h.reqCountExecuting (units_erase hr _)
  · exact toNat_sub_mod h.bytesCountExecuting (units_erase hr _)

theorem Conserved.handles_ne (h : Conserved s) (hd : s.fq.canDispatch = true) :
    s.fq.handles ≠ [] := by
  intro hnil
  have hq : s.fq.requestsQueued ≠ 0 := by
    simp only [canDispatch, Bool.and_eq_true, decide_eq_true_iff] at hd
    exact hd.1.1.1
  apply hq
  have hzero : s.fq.waiting = 0 := by
    refine Finset.sum_eq_zero fun pc _ => ?_
    rw [List.length_eq_zero_iff]
    by_contra hne
    rw [← ne_eq, ← h.handled.waiting, hnil] at hne
    exact absurd hne List.not_mem_nil
  have := h.requestsQueued
  rw [hzero] at this
  exact UInt32.toNat_inj.mp this

omit [DecidableEq ι] [Fintype ι] in
theorem canDispatch_below {fq : FairQueue ι} (h : fq.canDispatch = true) : BelowLimits fq := by
  simp only [canDispatch, Bool.and_eq_true, decide_eq_true_iff] at h
  exact ⟨h.1.1.2, h.1.2, h.2⟩

/-- From the head of the loop the assertions hold: a request of a class is started, or the call ends
because none may be. -/
theorem Conserved.loop_cases (h : Conserved s) (top : Top ι) :
    (s.fq.canDispatch = true ∧ ∃ pc req fq', s.fq.dispatchNext top = .ok (pc, req, fq') ∧
      Dispatched s.fq pc req fq' ∧ FairQueue.loop top s = .ok { s with
        fq := fq'
        started := s.started ++ [(pc, req)]
        running := s.running ++ [req] }) ∨
    (s.fq.canDispatch = false ∧ FairQueue.loop top s = .ok { s with depth := s.depth - 1 }) := by
  cases hd : s.fq.canDispatch with
  | true =>
    obtain ⟨pc, req, fq', hnext, hdisp⟩ := h.handled.dispatchNext (h.handles_ne hd) top
    refine Or.inl ⟨rfl, pc, req, fq', hnext, hdisp, ?_⟩
    rw [FairQueue.loop, if_pos hd, hnext, ok_bind]
  | false =>
    refine Or.inr ⟨rfl, ?_⟩
    rw [FairQueue.loop, if_neg (by simp [hd])]

/-- A request starts below the limits. -/
theorem Conserved.loop (h : Conserved s) (top : Top ι) :
    ∃ s', loop top s = .ok s' ∧ Conserved s' ∧ StartsBelow s s' := by
  obtain ⟨hd, pc, req, fq', -, hdisp, hloop⟩ | ⟨-, hloop⟩ := h.loop_cases top
  · have hbelow := canDispatch_below hd
    refine ⟨_, hloop, ⟨hdisp.handled, fun d => ?_, ?_, ?_, ?_, ?_⟩, Or.inr ⟨_, rfl, hbelow⟩⟩
    · show ofClass d s.queued = ofClass d (s.started ++ [(pc, req)]) ++ (fq'.classes d).queue
      rw [h.fifo, ofClass_snoc]
      split
      · rename_i hd
        rw [hd, hdisp.queue, List.append_assoc]
        rfl
      · rename_i hd
        rw [hdisp.others d hd]
    · have hchange := waiting_change pc hdisp.others
      rw [hdisp.queue, List.length_cons] at hchange
      show fq'.requestsQueued.toNat = _
      rw [hdisp.requestsQueued]
      exact toNat_sub_mod h.requestsQueued (show fq'.waiting + 1 = _ by omega)
    · show fq'.requestsExecuting.toNat = (s.running ++ [req]).length
      have hlt : s.fq.requestsExecuting.toNat < s.fq.config.capacity.toNat := hbelow.1
      have hcap := s.fq.config.capacity.toNat_lt
      rw [hdisp.requestsExecuting, UInt32.toNat_add, List.length_append, List.length_singleton,
        ← h.requestsExecuting]
      exact Nat.mod_eq_of_lt (by show s.fq.requestsExecuting.toNat + 1 < _; omega)
    · show fq'.reqCountExecuting.toNat = units _ (s.running ++ [req]) % 2 ^ 32
      rw [hdisp.reqCountExecuting, units_snoc]
      exact toNat_add_mod h.reqCountExecuting
    · show fq'.bytesCountExecuting.toNat = units _ (s.running ++ [req]) % 2 ^ 32
      rw [hdisp.bytesCountExecuting, units_snoc]
      exact toNat_add_mod h.bytesCountExecuting
  · exact ⟨_, hloop, ⟨h.handled, h.fifo, h.requestsQueued, h.requestsExecuting, h.reqCountExecuting,
      h.bytesCountExecuting⟩, Or.inl rfl⟩

theorem Conserved.step (h : Conserved s) {a : Action ι} (hv : Valid s a) :
    ∃ s', step s a = .ok s' ∧ Conserved s' ∧ StartsBelow s s' := by
  cases a with
  | queue pc req => exact ⟨_, rfl, h.queue pc req, Or.inl rfl⟩
  | notifyRequestsFinished req => exact ⟨_, rfl, h.notify hv, Or.inl rfl⟩
  | dispatchRequests top =>
    exact Conserved.loop (s := { s with depth := s.depth + 1 }) ⟨h.handled, h.fifo, h.requestsQueued,
      h.requestsExecuting, h.reqCountExecuting, h.bytesCountExecuting⟩ top
  | funcReturns top => exact h.loop top

theorem Conserved.run (h : Conserved s) {as : List (Action ι)}
    (hv : Run.Along FairQueue.step Valid s as) :
    ∃ s', run s as = .ok s' ∧ Conserved s' := by
  induction as generalizing s with
  | nil => exact ⟨s, rfl, h⟩
  | cons a as ih =>
    obtain ⟨t, ht, htc, -⟩ := h.step hv.1
    obtain ⟨s', hr, hs'⟩ := ih htc (hv.2 t ht)
    exact ⟨s', Run.run_cons_ok.mpr ⟨t, ht, hr⟩, hs'⟩

/-- In every run no assertion fails, the requests and the counters are conserved, and each request
starts while the counters are below the limits. -/
theorem run_conserves (config : FairQueueConfig) (as : List (Action ι))
    (hv : Run.Along step Valid { fq := { config } } as) :
    ∃ s, run { fq := { config } } as = .ok s ∧ Conserved s ∧
      ∀ a, Valid s a → ∃ s', step s a = .ok s' ∧ StartsBelow s s' := by
  obtain ⟨s, hr, hs⟩ := (Conserved.initial config).run hv
  refine ⟨s, hr, hs, fun a ha => ?_⟩
  obtain ⟨s', hstep, -, hbelow⟩ := hs.step ha
  exact ⟨s', hstep, hbelow⟩

/-- With one class there is nothing to choose. -/
def onlyClass : Top Unit := ⟨fun _ => (), fun
  | [], h => absurd rfl h
  | _ :: _, _ => List.mem_cons_self⟩

/-- Two requests of weight 1: the first one queues the second. -/
theorem run_conserves_nested :
    ∃ s, run ({ fq := { config := {} } } : State Unit) [.queue () ⟨0, {}⟩,
      .dispatchRequests onlyClass, .queue () ⟨1, {}⟩, .funcReturns onlyClass] = .ok s ∧
      Conserved s := by
  obtain ⟨s, hr, hs, -⟩ := run_conserves {} [.queue () ⟨0, {}⟩,
    .dispatchRequests onlyClass, .queue () ⟨1, {}⟩, .funcReturns onlyClass] (by decide +kernel)
  exact ⟨s, hr, hs⟩

/-- Two requests of weight 2^31 execute, and the counter of their weights is 0. -/
theorem run_weights_wrap :
    Run.Along step Valid ({ fq := { config := {} } } : State Unit)
      [.queue () ⟨0, ⟨2147483648, 1⟩⟩, .queue () ⟨1, ⟨2147483648, 1⟩⟩,
        .dispatchRequests onlyClass, .funcReturns onlyClass] ∧
    ∃ s, run ({ fq := { config := {} } } : State Unit)
      [.queue () ⟨0, ⟨2147483648, 1⟩⟩, .queue () ⟨1, ⟨2147483648, 1⟩⟩,
        .dispatchRequests onlyClass, .funcReturns onlyClass] = .ok s ∧
      s.fq.reqCountExecuting.toNat ≠ units RequestDescriptor.weight s.running := by
  refine ⟨by decide +kernel, _, rfl, ?_⟩
  decide +kernel

end FairQueue

end Seastar
