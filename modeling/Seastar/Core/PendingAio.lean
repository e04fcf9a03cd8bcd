import Seastar.Core.IoQueue

/-!
The control blocks of `core/reactor.cc`. The fair queues of the reactor start requests, each of
which takes a control block; `flush_pending_aio` gives the blocks to the kernel, which accepts some
of them or refuses the first, and those that would block go to the kernel once more from a thread
of the pool. Each thing the reactor or the thread does in one go is an action, and they come in any
order.
-/

namespace Seastar

open Lib

/-- `io_desc`: its queue, and the request whose function submits it. -/
structure IoDesc where
  ioq : Nat
  req : Request
  deriving DecidableEq, Repr

/-- What is read of an `iocb`: whether it may not block, and its user data. -/
structure Iocb where
  nowait : Bool := false
  data : Option IoDesc := none

/-- The errors of `io_submit` that `handle_aio_error` knows. -/
inductive AioErrno
  | einval
  | eopnotsupp
  | eagain
  | ebadf
  deriving DecidableEq, Repr

/-- What `io_submit` returns: how many blocks it takes, or why it does not take the first. -/
inductive SubmitResult
  | accepted (n : Nat)
  | failed (ec : AioErrno)
  deriving DecidableEq, Repr

/-- Blocks in the thread pool, before the `io_submit` of the thread and between it and the
continuation. -/
inductive Retries
  | submitting (iocbs : List Nat)
  | submitted (iocbs : List Nat) (result : SubmitResult)

/-- The members of `reactor`: control blocks go by their place in the pool. The kernel is modelled by
the blocks it has. Of the requests, how many there were, which ones were submitted, whose promises
were set and whose costs were returned. -/
structure Reactor (ι : Type) where
  ioQueues : List (IoQueue.Config × FairQueue.State ι)
  iocbPool : Nat → Iocb
  freeIocbs : List Nat
  pendingAio : List Nat
  pendingAioRetry : List Nat
  threadPool : List Retries
  kernel : List Nat
  aioNowaitSupported : Bool
  made : Nat
  submitted : List IoDesc
  resolved : List IoDesc
  returned : List IoDesc

/-- An event of the kernel: its block, and whether the result is `-EAGAIN`. -/
structure IoEvent where
  iocb : Nat
  again : Bool
  deriving DecidableEq, Repr

namespace SubmitResult

/-- How many of the blocks the kernel takes. -/
def count : SubmitResult → List Nat → Nat
  | accepted n, iocbs => min n iocbs.length
  | failed _, _ => 0

end SubmitResult

namespace Retries

def iocbs : Retries → List Nat
  | submitting iocbs => iocbs
  | submitted iocbs _ => iocbs

/-- The blocks that the kernel does not have. -/
def held : Retries → List Nat
  | submitting iocbs => iocbs
  | submitted iocbs result => iocbs.drop (result.count iocbs)

end Retries

namespace Reactor

def maxQueues : Nat := 8

def maxAio : Nat := 128 * maxQueues

variable {ι : Type} [DecidableEq ι]

/-- A reactor with new queues. -/
def init (configs : List IoQueue.Config) : Reactor ι where
  ioQueues := configs.map fun config => (config, IoQueue.init config)
  iocbPool _ := {}
  freeIocbs := List.range maxAio
  pendingAio := []
  pendingAioRetry := []
  threadPool := []
  kernel := []
  aioNowaitSupported := true
  made := 0
  submitted := []
  resolved := []
  returned := []

/-- `set_nowait`. -/
def setNowait (iocb : Nat) (nowait : Bool) (s : Reactor ι) : Reactor ι :=
  { s with iocbPool := Function.update s.iocbPool iocb { s.iocbPool iocb with nowait } }

/-- `submit_io`. -/
def submitIo (desc : IoDesc) (s : Reactor ι) : Except Fault (Reactor ι) :=
  match s.freeIocbs with
  | [] => .error .emptyQueue
  | io :: freeIocbs => .ok { s with
      freeIocbs
      iocbPool := Function.update s.iocbPool io
        { nowait := s.aioNowaitSupported, data := some desc }
      pendingAio := s.pendingAio ++ [io]
      submitted := s.submitted ++ [desc] }

/-- A block is freed, the promise of its `io_desc` is set, and what the request costs is returned
to its queue. -/
def finishRequest (iocb : Nat) (s : Reactor ι) : Except Fault (Reactor ι) :=
  match (s.iocbPool iocb).data with
  | none => .error .nullPointer
  | some desc =>
    match s.ioQueues[desc.ioq]? with
    | none => .error .nullPointer
    | some (config, q) => do
      let q ← FairQueue.step q (.notifyRequestsFinished desc.req)
      .ok { s with
        freeIocbs := iocb :: s.freeIocbs
        ioQueues := s.ioQueues.set desc.ioq (config, q)
        resolved := s.resolved ++ [desc]
        returned := s.returned ++ [desc] }

/-- `handle_aio_error`: how many blocks are consumed. -/
def handleAioError (iocb : Nat) (s : Reactor ι) : AioErrno → Except Fault (Nat × Reactor ι)
  | .einval => .ok (0, { s with aioNowaitSupported := false }.setNowait iocb false)
  | .eopnotsupp => .ok (0, { s with aioNowaitSupported := false }.setNowait iocb false)
  | .eagain => .ok (0, s)
  | .ebadf => do
    let s ← s.finishRequest iocb
    .ok (1, s)

/-- The kernel takes its part of the blocks. -/
def ioSubmit (iocbs : List Nat) (result : SubmitResult) (s : Reactor ι) : Reactor ι :=
  { s with kernel := s.kernel ++ iocbs.take (result.count iocbs) }

/-- `nr_consumed`. -/
def nrConsumed (iocbs : List Nat) (s : Reactor ι) : SubmitResult → Except Fault (Nat × Reactor ι)
  | .accepted n => .ok ((SubmitResult.accepted n).count iocbs, s)
  | .failed ec =>
    match iocbs with
    | [] => .error .readPast
    | iocb :: _ => s.handleAioError iocb ec

/-- The body of the loop of `flush_pending_aio`. -/
def flushOnce (result : SubmitResult) (s : Reactor ι) : Except Fault (Reactor ι) :=
  if s.pendingAio = [] then .ok s
  else do
    let (n, s) ← nrConsumed s.pendingAio (s.ioSubmit s.pendingAio result) result
    .ok { s with pendingAio := s.pendingAio.drop n }

/-- The blocks that are to be retried go to the thread pool. -/
def submitRetries (s : Reactor ι) : Reactor ι :=
  if s.pendingAioRetry = [] then s
  else { s with
    threadPool := s.threadPool ++ [.submitting s.pendingAioRetry]
    pendingAioRetry := [] }

/-- The `io_submit` of a thread. -/
def threadSubmits (k : Nat) (result : SubmitResult) (s : Reactor ι) : Reactor ι :=
  match s.threadPool[k]? with
  | some (.submitting iocbs) =>
    { s.ioSubmit iocbs result with threadPool := s.threadPool.set k (.submitted iocbs result) }
  | _ => s

/-- The continuation behind it. -/
def retriesSubmitted (k : Nat) (s : Reactor ι) : Except Fault (Reactor ι) :=
  match s.threadPool[k]? with
  | some (.submitted iocbs result) => do
    let (n, s) ← nrConsumed iocbs s result
    .ok { s with
      threadPool := s.threadPool.eraseIdx k
      pendingAioRetry := s.pendingAioRetry ++ iocbs.drop n }
  | _ => .ok s

/-- One event of the loop of `process_io`; the kernel has none for a block that it does not have. -/
def processEvent (s : Reactor ι) (ev : IoEvent) : Except Fault (Reactor ι) :=
  if ev.iocb ∈ s.kernel then
    let s := { s with kernel := s.kernel.erase ev.iocb }
    if ev.again then
      let s := s.setNowait ev.iocb false
      .ok { s with pendingAioRetry := s.pendingAioRetry ++ [ev.iocb] }
    else s.finishRequest ev.iocb
  else .ok s

/-- `process_io`. -/
def processIo (evs : List IoEvent) (s : Reactor ι) : Except Fault (Reactor ι) :=
  Run.run processEvent s evs

/-- `queue_request` on the queue `i`. -/
def queueRequest (i : Nat) (pc : ι) (io : IoRequest) (s : Reactor ι) : Except Fault (Reactor ι) :=
  match s.ioQueues[i]? with
  | none => .ok s
  | some (config, q) => do
    let q ← FairQueue.step q (.queue pc ⟨s.made, IoQueue.descriptor config io⟩)
    .ok { s with ioQueues := s.ioQueues.set i (config, q), made := s.made + 1 }

/-- A round of `dispatch_requests` in `poll_io_queue`, with the function of the request. -/
def dispatchRequest (i : Nat) (top : FairQueue.Top ι) (s : Reactor ι) : Except Fault (Reactor ι) :=
  match s.ioQueues[i]? with
  | none => .ok s
  | some (config, q) =>
    if q.fq.canDispatch then do
      let (pc, req, fq) ← q.fq.dispatchNext top
      let q := { q with fq, started := q.started ++ [(pc, req)], running := q.running ++ [req] }
      { s with ioQueues := s.ioQueues.set i (config, q) }.submitIo ⟨i, req⟩
    else .ok s

/-- What the reactor and the threads do. -/
inductive Action (ι : Type)
  | queueRequest (i : Nat) (pc : ι) (io : IoRequest)
  | dispatchRequest (i : Nat) (top : FairQueue.Top ι)
  | flushOnce (result : SubmitResult)
  | submitRetries
  | threadSubmits (k : Nat) (result : SubmitResult)
  | retriesSubmitted (k : Nat)
  | processIo (evs : List IoEvent)

def step (s : Reactor ι) : Action ι → Except Fault (Reactor ι)
  | .queueRequest i pc io => s.queueRequest i pc io
  | .dispatchRequest i top => s.dispatchRequest i top
  | .flushOnce result => s.flushOnce result
  | .submitRetries => .ok s.submitRetries
  | .threadSubmits k result => .ok (s.threadSubmits k result)
  | .retriesSubmitted k => s.retriesSubmitted k
  | .processIo evs => s.processIo evs

/-! ## What a step leaves alone -/

/-- The queues, the free blocks and the requests are the same. -/
structure Same (s t : Reactor ι) : Prop where
  ioQueues : t.ioQueues = s.ioQueues
  freeIocbs : t.freeIocbs = s.freeIocbs
  data : ∀ iocb, (t.iocbPool iocb).data = (s.iocbPool iocb).data
  made : t.made = s.made
  submitted : t.submitted = s.submitted
  resolved : t.resolved = s.resolved
  returned : t.returned = s.returned

/-- The blocks that are not free are where they were. -/
structure SamePlaces (s t : Reactor ι) : Prop where
  pendingAio : t.pendingAio = s.pendingAio
  pendingAioRetry : t.pendingAioRetry = s.pendingAioRetry
  threadPool : t.threadPool = s.threadPool
  kernel : t.kernel = s.kernel

/-- What `finishRequest` leaves, for the block, its description and its queue. -/
def finished (iocb : Nat) (desc : IoDesc) (config : IoQueue.Config) (q : FairQueue.State ι)
    (s : Reactor ι) : Reactor ι :=
  { s with
    freeIocbs := iocb :: s.freeIocbs
    ioQueues := s.ioQueues.set desc.ioq (config, { q with
      fq := q.fq.notifyRequestsFinished desc.req.desc
      running := q.running.erase desc.req })
    resolved := s.resolved ++ [desc]
    returned := s.returned ++ [desc] }

/-- The request of a block was resolved, and the block is free. -/
def Finished (iocb : Nat) (s t : Reactor ι) : Prop :=
  ∃ desc config q, (s.iocbPool iocb).data = some desc ∧
    s.ioQueues[desc.ioq]? = some (config, q) ∧ Same (finished iocb desc config q s) t

variable {s t u : Reactor ι} {iocb : Nat} {desc : IoDesc} {iocbs : List Nat}

omit [DecidableEq ι] in
theorem Same.refl (s : Reactor ι) : Same s s := ⟨rfl, rfl, fun _ => rfl, rfl, rfl, rfl, rfl⟩

omit [DecidableEq ι] in
theorem Same.trans (h : Same s t) (h' : Same t u) : Same s u where
  ioQueues := h'.ioQueues.trans h.ioQueues
  freeIocbs := h'.freeIocbs.trans h.freeIocbs
  data b := (h'.data b).trans (h.data b)
  made := h'.made.trans h.made
  submitted := h'.submitted.trans h.submitted
  resolved := h'.resolved.trans h.resolved
  returned := h'.returned.trans h.returned

omit [DecidableEq ι] in
theorem Finished.after (h : Same s t) (hf : Finished iocb t u) : Finished iocb s u := by
  obtain ⟨desc, config, q, hdata, hq, hsame⟩ := hf
  refine ⟨desc, config, q, (h.data iocb).symm.trans hdata, h.ioQueues ▸ hq, ?_⟩
  have hmid : Same (finished iocb desc config q s) (finished iocb desc config q t) := by
    refine ⟨?_, ?_, h.data, h.made, h.submitted, ?_, ?_⟩
    · simp only [finished, h.ioQueues]
    · simp only [finished, h.freeIocbs]
    · simp only [finished, h.resolved]
    · simp only [finished, h.returned]
  exact hmid.trans hsame

omit [DecidableEq ι] in
theorem Finished.before (hf : Finished iocb s t) (h : Same t u) : Finished iocb s u := by
  obtain ⟨desc, config, q, hdata, hq, hsame⟩ := hf
  exact ⟨desc, config, q, hdata, hq, hsame.trans h⟩

omit [DecidableEq ι] in
theorem setNowait_same (iocb : Nat) (nowait : Bool) (s : Reactor ι) :
    Same s (s.setNowait iocb nowait) := by
  refine ⟨rfl, rfl, fun b => ?_, rfl, rfl, rfl, rfl⟩
  rw [setNowait]
  by_cases hb : b = iocb
  · rw [hb]
    simp only [Function.update_self]
  · simp only [Function.update_of_ne hb]

omit [DecidableEq ι] in
theorem unsupported_same (iocb : Nat) (s : Reactor ι) :
    Same s ({ s with aioNowaitSupported := false }.setNowait iocb false) := by
  have hsame : Same s { s with aioNowaitSupported := false } :=
    ⟨rfl, rfl, fun _ => rfl, rfl, rfl, rfl, rfl⟩
  exact hsame.trans (setNowait_same iocb false _)

/-! ## Consumed blocks -/

theorem finishRequest_eq {config : IoQueue.Config} {q : FairQueue.State ι}
    (hdata : (s.iocbPool iocb).data = some desc) (hq : s.ioQueues[desc.ioq]? = some (config, q)) :
    s.finishRequest iocb = .ok (finished iocb desc config q s) := by
  simp only [finishRequest, hdata, hq]
  rfl

theorem finishRequest_ok (hdata : (s.iocbPool iocb).data = some desc)
    (hlt : desc.ioq < s.ioQueues.length) :
    ∃ t, s.finishRequest iocb = .ok t ∧ SamePlaces s t ∧ Finished iocb s t := by
  have hq := List.getElem?_eq_getElem hlt
  exact ⟨_, finishRequest_eq hdata hq, ⟨rfl, rfl, rfl, rfl⟩, desc, _, _, hdata, hq, Same.refl _⟩

/-- The blocks that are consumed went to the kernel, or the first of them was finished. -/
theorem nrConsumed_ok (result : SubmitResult) (hne : iocbs ≠ [])
    (hdescribed : result.count iocbs = 0 → ∃ desc,
      (s.iocbPool (iocbs.head hne)).data = some desc ∧ desc.ioq < s.ioQueues.length) :
    ∃ n t, s.nrConsumed iocbs result = .ok (n, t) ∧ SamePlaces s t ∧
      (n = result.count iocbs ∧ Same s t ∨
        result = .failed .ebadf ∧ n = 1 ∧ Finished (iocbs.head hne) s t) := by
  cases result with
  | accepted n => exact ⟨_, s, rfl, ⟨rfl, rfl, rfl, rfl⟩, Or.inl ⟨rfl, Same.refl s⟩⟩
  | failed ec =>
    cases iocbs with
    | nil => exact absurd rfl hne
    | cons iocb rest =>
      cases ec with
      | einval =>
        exact ⟨0, _, rfl, ⟨rfl, rfl, rfl, rfl⟩, Or.inl ⟨rfl, unsupported_same iocb s⟩⟩
      | eopnotsupp =>
        exact ⟨0, _, rfl, ⟨rfl, rfl, rfl, rfl⟩, Or.inl ⟨rfl, unsupported_same iocb s⟩⟩
      | eagain => exact ⟨0, s, rfl, ⟨rfl, rfl, rfl, rfl⟩, Or.inl ⟨rfl, Same.refl s⟩⟩
      | ebadf =>
        obtain ⟨desc, hdata, hlt⟩ := hdescribed rfl
        rw [List.head_cons] at hdata
        obtain ⟨t, ht, hplaces, hfin⟩ := finishRequest_ok hdata hlt
        refine ⟨1, t, ?_, hplaces, Or.inr ⟨rfl, rfl, hfin⟩⟩
        rw [nrConsumed, handleAioError, ht, ok_bind]

end Reactor

end Seastar
