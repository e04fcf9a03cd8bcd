import Seastar.Core.Semaphore

/-!
The server side of rpc connections and the memory they share, until the server is stopped: the read
loop of `server::connection::process` with the wait for resources that it makes for a verb without a
handler, and the one that `recv_helper` makes for a verb with a handler.
-/

namespace Seastar.Rpc

open Lib Lib.Run

/-- `resource_limits`. -/
structure ResourceLimits where
  basicRequestSize : Nat := 0
  bloatFactor : Nat := 1
  maxMemory : Nat
  deriving DecidableEq

/-- `estimate_request_size`. -/
def estimateRequestSize (lim : ResourceLimits) (serializedSize : UInt32) : Nat :=
  (lim.basicRequestSize + serializedSize.toNat * lim.bloatFactor) % 2 ^ 64

/-- A frame that was read, with the timeout that `process` made of its header. -/
structure Request where
  timeout : Option Int64
  type : UInt64
  msgId : Int64
  size : UInt32
  deriving DecidableEq

/-- What became of a request when the read loop went on. -/
inductive Outcome
  /-- an error reply: it needs more memory than the server may use -/
  | tooLarge
  /-- its handler was called -/
  | handled
  /-- an unknown verb exception was sent back -/
  | unknownVerb
  /-- its deadline passed while it waited -/
  | dropped
  deriving DecidableEq

/-- The read loop of a connection. -/
inductive Loop
  | reading
  /-- it waits for the units of its call number `pr` of the semaphore, in `recv_helper` or not -/
  | waiting (pr : Nat) (known : Bool) (req : Request)
  /-- the end of the stream -/
  | closed
  /-- an exception has left it -/
  | failed (req : Request)
  deriving DecidableEq

/-- A connection of the server. -/
structure ServerConnection where
  loop : Loop := .reading
  /-- history: the requests that were read -/
  read : List Request := []
  /-- history: what became of them -/
  outcomes : List (Request × Outcome) := []
  deriving DecidableEq

namespace ServerConnection

/-- The loop goes on after a request. -/
def next (c : ServerConnection) (req : Request) (o : Outcome) : ServerConnection :=
  { c with loop := .reading, outcomes := c.outcomes ++ [(req, o)] }

/-- The request that the loop is at. -/
def current (c : ServerConnection) : List Request :=
  match c.loop with
  | .reading => []
  | .waiting _ _ req => [req]
  | .closed => []
  | .failed req => [req]

end ServerConnection

/-- A server. -/
structure Server where
  limits : ResourceLimits
  handlers : List UInt64 := []
  resourcesAvailable : Semaphore
  /-- the waits that have ended with `semaphore_timed_out` -/
  timedOut : List Nat := []
  /-- the permits that handlers and replies hold -/
  permits : List Nat := []
  conns : List ServerConnection := []
  deriving DecidableEq

/-- What happens at the server: connections are accepted, requests arrive and timers expire,
continuations run, and handlers end. -/
inductive ServerOp
  | accept
  | registerHandler (type : UInt64)
  | unregisterHandler (type : UInt64)
  | request (i : Nat) (req : Request)
  | endOfStream (i : Nat)
  | expire (key : Nat)
  | resume (i : Nat)
  | finish (k : Nat)
  deriving DecidableEq

namespace Server

/-- `server::server`. -/
def init (limits : ResourceLimits) : Server where
  limits := limits
  resourcesAvailable := .init limits.maxMemory

/-- `wait_for_resources`, by a connection. Without a timeout the wait is until `time_point::max()`,
for which no timer is armed. -/
def waitForResources (s : Server) (i : Nat) (c : ServerConnection) (known : Bool)
    (memoryConsumed : Nat) (req : Request) : Server :=
  { s with
    resourcesAvailable :=
      s.resourcesAvailable.wait (req.timeout.any fun t => t < Int64.maxValue) memoryConsumed
    conns := s.conns.set i { c with loop := .waiting s.resourcesAvailable.calls known req } }

/-- What `recv_helper` makes of a request. -/
def recvHelper (s : Server) (i : Nat) (c : ServerConnection) (req : Request) : Server :=
  let memoryConsumed := estimateRequestSize s.limits req.size
  if memoryConsumed > s.limits.maxMemory then
    { s with conns := s.conns.set i (c.next req .tooLarge) }
  else s.waitForResources i c true memoryConsumed req

/-- The body of the loop of `process`, when a request was read. -/
def process (s : Server) (i : Nat) (c : ServerConnection) (req : Request) : Server :=
  let c := { c with read := c.read ++ [req] }
  if req.type ∈ s.handlers then s.recvHelper i c req
  else s.waitForResources i c false 28 req

/-- The timer of a waiter expires. -/
def expire (s : Server) (key : Nat) : Server :=
  match s.resourcesAvailable.waitList.expiring key with
  | none => s
  | some x =>
    { s with
      resourcesAvailable := s.resourcesAvailable.expire key
      timedOut := s.timedOut ++ [x.pr] }

/-- The continuation of `wait_for_resources`. `recv_helper` ignores `semaphore_timed_out` when there
is a timeout. -/
def resume (s : Server) (i : Nat) (c : ServerConnection) (pr : Nat) (known : Bool)
    (req : Request) : Server :=
  if pr ∈ s.timedOut then
    if known ∧ req.timeout.isSome then { s with conns := s.conns.set i (c.next req .dropped) }
    else { s with conns := s.conns.set i { c with loop := .failed req } }
  else
    match s.resourcesAvailable.granted.find? fun x => x.pr = pr with
    | none => s
    | some x =>
      { s with
        permits := s.permits ++ [x.nr]
        conns := s.conns.set i (c.next req (if known then .handled else .unknownVerb)) }

/-- The state after one of these. -/
def after (s : Server) : ServerOp → Server
  | .accept => { s with conns := s.conns ++ [{}] }
  | .registerHandler type => { s with handlers := type :: s.handlers }
  | .unregisterHandler type => { s with handlers := s.handlers.filter (· ≠ type) }
  | .request i req =>
    match s.conns[i]? with
    | none => s
    | some c =>
      match c.loop with
      | .reading => s.process i c req
      | _ => s
  | .endOfStream i =>
    match s.conns[i]? with
    | none => s
    | some c =>
      match c.loop with
      | .reading => { s with conns := s.conns.set i { c with loop := .closed } }
      | _ => s
  | .expire key => s.expire key
  | .resume i =>
    match s.conns[i]? with
    | none => s
    | some c =>
      match c.loop with
      | .waiting pr known req => s.resume i c pr known req
      | _ => s
  | .finish k =>
    match s.permits[k]? with
    | none => s
    | some nr =>
      { s with
        permits := s.permits.eraseIdx k
        resourcesAvailable := s.resourcesAvailable.signal nr }

/-- None of these fails. -/
def step (s : Server) (op : ServerOp) : Except Fault Server := .ok (s.after op)

/-! ## The invariant -/

/-- Whoever waits with the call number `pr` has a deadline. -/
def Deadlined (conns : List ServerConnection) (pr : Nat) : Prop :=
  ∀ c ∈ conns, ∀ known req, c.loop = .waiting pr known req → req.timeout.isSome

/-- A connection has an outcome for every request that it has read but the one its loop is at, and
drops none without a deadline. It waits for a call of the semaphore. -/
structure Accounted (calls : Nat) (c : ServerConnection) : Prop where
  read : c.read = c.outcomes.map Prod.fst ++ c.current
  dropped : ∀ req, (req, .dropped) ∈ c.outcomes → req.timeout.isSome
  calls : ∀ pr known req, c.loop = .waiting pr known req → pr < calls

/-- A waiter with a timer has a deadline, and so has one that has timed out. -/
structure Inv (s : Server) : Prop where
  accounted : ∀ c ∈ s.conns, Accounted s.resourcesAvailable.calls c
  timers : ∀ e ∈ s.resourcesAvailable.waitList.list, ∀ x, e.payload = some x →
    x.pr < s.resourcesAvailable.calls ∧ (e.armed → Deadlined s.conns x.pr)
  timedOut : ∀ pr ∈ s.timedOut, pr < s.resourcesAvailable.calls ∧ Deadlined s.conns pr

/-- No loop was ended by an exception. -/
def Undisturbed (s : Server) : Prop := ∀ c ∈ s.conns, ∀ req, c.loop ≠ .failed req

/-- The continuation does not find a time-out of a request without a handler. -/
def Spared (s : Server) : ServerOp → Prop
  | .resume i => ∀ c, s.conns[i]? = some c → ∀ pr known req, c.loop = .waiting pr known req →
      pr ∈ s.timedOut → known
  | _ => True

/-! ## What the semaphore does to its waiters -/

theorem wait_calls (sem : Semaphore) (armed : Bool) (nr : Nat) :
    (sem.wait armed nr).calls = sem.calls + 1 := by
  simp only [Semaphore.wait]
  split
  · rfl
  · split
    · rfl
    · rfl

theorem mem_wait {sem : Semaphore} {armed : Bool} {nr : Nat} {e : ExpiringFifo.Entry Waiter}
    (he : e ∈ (sem.wait armed nr).waitList.list) :
    e ∈ sem.waitList.list ∨ e.payload = some ⟨sem.calls, nr⟩ ∧ e.armed = armed := by
  simp only [Semaphore.wait] at he
  split at he
  · exact .inl he
  · split at he
    · exact .inl he
    · rcases List.mem_append.mp he with he | he
      · exact .inl he
      · rw [List.mem_singleton.mp he]
        exact .inr ⟨rfl, rfl⟩

theorem grantFront_frame (fuel : Nat) (sem : Semaphore) :
    (Semaphore.grantFront fuel sem).calls = sem.calls ∧
      (Semaphore.grantFront fuel sem).waitList.list.Sublist sem.waitList.list := by
  induction fuel generalizing sem with
  | zero => exact ⟨rfl, List.Sublist.refl _⟩
  | succ fuel ih =>
    rw [Semaphore.grantFront]
    split
    · exact ⟨rfl, List.Sublist.refl _⟩
    · split
      · obtain ⟨hcalls, hlist⟩ := ih _
        refine ⟨hcalls, hlist.trans ?_⟩
        exact (ExpiringFifo.dropExpiredFront_sublist _).trans (List.tail_sublist _)
      · exact ⟨rfl, List.Sublist.refl _⟩

theorem signal_frame (nr : Nat) (sem : Semaphore) :
    (sem.signal nr).calls = sem.calls ∧
      (sem.signal nr).waitList.list.Sublist sem.waitList.list := by
  rw [Semaphore.signal]
  split
  · exact ⟨rfl, List.Sublist.refl _⟩
  · exact grantFront_frame _ _

theorem mem_expire {sem : Semaphore} {key : Nat} {e : ExpiringFifo.Entry Waiter} {x : Waiter}
    (he : e ∈ (sem.expire key).waitList.list) (hx : e.payload = some x) :
    ∃ e' ∈ sem.waitList.list, e'.payload = some x ∧ e'.armed = e.armed := by
  rw [Semaphore.expire] at he
  split at he
  · exact ⟨e, he, hx, rfl⟩
  · have hmem := (ExpiringFifo.dropExpiredFront_sublist _).subset he
    obtain ⟨e', he', rfl⟩ := List.mem_map.mp hmem
    split at hx
    · cases hx
    · rename_i hkey
      exact ⟨e', he', hx, by rw [if_neg hkey]⟩

theorem expire_calls (sem : Semaphore) (key : Nat) : (sem.expire key).calls = sem.calls := by
  rw [Semaphore.expire]
  split
  · rfl
  · rfl

/-- Only an armed timer expires. -/
theorem mem_of_expiring {sem : Semaphore} {key : Nat} {x : Waiter}
    (h : sem.waitList.expiring key = some x) :
    ∃ e ∈ sem.waitList.list, e.payload = some x ∧ e.armed := by
  rw [ExpiringFifo.expiring] at h
  cases hfind : sem.waitList.list.find? fun e => e.key = key && e.armed with
  | none => simp [hfind] at h
  | some e =>
    rw [hfind] at h
    have harmed := List.find?_some hfind
    rw [Bool.and_eq_true] at harmed
    exact ⟨e, List.mem_of_find?_eq_some hfind, h, harmed.2⟩

/-! ## What the server does to its connections -/

theorem Deadlined.set {conns : List ServerConnection} {pr i : Nat} {c : ServerConnection}
    (h : Deadlined conns pr)
    (hc : ∀ known req, c.loop = .waiting pr known req → req.timeout.isSome) :
    Deadlined (conns.set i c) pr := by
  intro d hd
  rcases List.mem_or_eq_of_mem_set hd with hd | rfl
  · exact h d hd
  · exact hc

theorem Accounted.mono {calls calls' : Nat} {c : ServerConnection} (h : Accounted calls c)
    (hle : calls ≤ calls') : Accounted calls' c :=
  ⟨h.read, h.dropped, fun pr known req hloop => Nat.lt_of_lt_of_le (h.calls pr known req hloop) hle⟩

/-- A request has an outcome. -/
theorem accounted_next {calls : Nat} {c : ServerConnection} {req : Request}
    (hread : c.read = c.outcomes.map Prod.fst ++ [req])
    (hdropped : ∀ req, (req, .dropped) ∈ c.outcomes → req.timeout.isSome) (o : Outcome)
    (ho : o = .dropped → req.timeout.isSome) : Accounted calls (c.next req o) where
  read := by
    rw [ServerConnection.next, hread]
    simp [ServerConnection.current]
  dropped := by
    intro req' hmem
    rcases List.mem_append.mp hmem with hmem | hmem
    · exact hdropped req' hmem
    · obtain ⟨rfl, rfl⟩ := Prod.mk.inj (List.mem_singleton.mp hmem)
      exact ho rfl
  calls := by
    intro pr known req' hloop
    cases hloop

variable {s : Server}

/-- A connection that does not wait may be replaced. -/
theorem Inv.setConn (h : Inv s) (i : Nat) {c : ServerConnection}
    (hc : Accounted s.resourcesAvailable.calls c)
    (hloop : ∀ pr known req, c.loop ≠ .waiting pr known req) :
    Inv { s with conns := s.conns.set i c } where
  accounted := by
    intro d hd
    rcases List.mem_or_eq_of_mem_set hd with hd | rfl
    · exact h.accounted d hd
    · exact hc
  timers := by
    intro e he x hx
    obtain ⟨hlt, hdead⟩ := h.timers e he x hx
    exact ⟨hlt, fun harmed => (hdead harmed).set fun known req hwait => absurd hwait (hloop _ _ _)⟩
  timedOut := by
    intro pr hpr
    obtain ⟨hlt, hdead⟩ := h.timedOut pr hpr
    exact ⟨hlt, hdead.set fun known req hwait => absurd hwait (hloop _ _ _)⟩

theorem Inv.waitForResources (h : Inv s) (i : Nat) {c : ServerConnection} {req : Request}
    (hread : c.read = c.outcomes.map Prod.fst ++ [req])
    (hdropped : ∀ req, (req, .dropped) ∈ c.outcomes → req.timeout.isSome) (known : Bool)
    (memoryConsumed : Nat) : Inv (s.waitForResources i c known memoryConsumed req) where
  accounted := by
    simp only [Server.waitForResources, wait_calls]
    intro d hd
    rcases List.mem_or_eq_of_mem_set hd with hd | rfl
    · exact (h.accounted d hd).mono (Nat.le_succ _)
    · refine ⟨hread, hdropped, fun pr known' req' hloop => ?_⟩
      obtain ⟨rfl, -, -⟩ := Loop.waiting.inj hloop
      exact Nat.lt_succ_self _
  timers := by
    simp only [Server.waitForResources, wait_calls]
    intro e he x hx
    rcases mem_wait he with he | ⟨hpayload, harmed⟩
    · obtain ⟨hlt, hdead⟩ := h.timers e he x hx
      refine ⟨Nat.lt_succ_of_lt hlt, fun ha => (hdead ha).set fun known' req' hloop => ?_⟩
      obtain ⟨heq, -, -⟩ := Loop.waiting.inj hloop
      omega
    · obtain rfl := Option.some.inj (hpayload.symm.trans hx)
      refine ⟨Nat.lt_succ_self _, fun ha d hd known' req' hloop => ?_⟩
      rcases List.mem_or_eq_of_mem_set hd with hd | rfl
      · have hlt := (h.accounted d hd).calls _ _ _ hloop
        exact absurd hlt (Nat.lt_irrefl _)
      · obtain ⟨-, -, rfl⟩ := Loop.waiting.inj hloop
        rw [harmed] at ha
        cases htimeout : req.timeout with
        | none => simp [htimeout] at ha
        | some t => rfl
  timedOut := by
    simp only [Server.waitForResources, wait_calls]
    intro pr hpr
    obtain ⟨hlt, hdead⟩ := h.timedOut pr hpr
    refine ⟨Nat.lt_succ_of_lt hlt, hdead.set fun known' req' hloop => ?_⟩
    obtain ⟨heq, -, -⟩ := Loop.waiting.inj hloop
    omega

theorem Inv.recvHelper (h : Inv s) (i : Nat) {c : ServerConnection} {req : Request}
    (hread : c.read = c.outcomes.map Prod.fst ++ [req])
    (hdropped : ∀ req, (req, .dropped) ∈ c.outcomes → req.timeout.isSome) :
    Inv (s.recvHelper i c req) := by
  simp only [Server.recvHelper]
  split
  · apply h.setConn i
    · exact accounted_next hread hdropped _ (by intro ho; cases ho)
    · intro pr known req' hwait
      cases hwait
  · exact h.waitForResources i hread hdropped _ _

theorem Inv.process (h : Inv s) {i : Nat} {c : ServerConnection} (hmem : c ∈ s.conns)
    (hloop : c.loop = .reading) (req : Request) : Inv (s.process i c req) := by
  have hc := h.accounted c hmem
  have hread := hc.read
  simp only [ServerConnection.current, hloop, List.append_nil] at hread
  have hread' : ({ c with read := c.read ++ [req] } : ServerConnection).read =
      c.outcomes.map Prod.fst ++ [req] := by
    rw [← hread]
  simp only [Server.process]
  split
  · exact h.recvHelper i hread' hc.dropped
  · exact h.waitForResources i hread' hc.dropped _ _

theorem Inv.expire (h : Inv s) (key : Nat) : Inv (s.expire key) := by
  rw [Server.expire]
  cases hx : s.resourcesAvailable.waitList.expiring key with
  | none => exact h
  | some x =>
    obtain ⟨e, he, hpayload, harmed⟩ := mem_of_expiring hx
    obtain ⟨hlt, hdead⟩ := h.timers e he x hpayload
    constructor
    · simp only [expire_calls]
      exact h.accounted
    · simp only [expire_calls]
      intro e' he' y hy
      obtain ⟨e'', he'', hy', harmed'⟩ := mem_expire he' hy
      rw [← harmed']
      exact h.timers e'' he'' y hy'
    · simp only [expire_calls]
      intro pr hpr
      rcases List.mem_append.mp hpr with hpr | hpr
      · exact h.timedOut pr hpr
      · rw [List.mem_singleton.mp hpr]
        exact ⟨hlt, hdead harmed⟩

theorem Inv.resume (h : Inv s) {i pr : Nat} {c : ServerConnection} {known : Bool} {req : Request}
    (hmem : c ∈ s.conns) (hloop : c.loop = .waiting pr known req) :
    Inv (s.resume i c pr known req) := by
  have hc := h.accounted c hmem
  have hread : c.read = c.outcomes.map Prod.fst ++ [req] := by
    have := hc.read
    simp only [ServerConnection.current, hloop] at this
    exact this
  rw [Server.resume]
  split
  · split
    · rename_i hknown
      exact h.setConn i (accounted_next hread hc.dropped _ fun _ => hknown.2)
        (by intro pr known req' hwait; cases hwait)
    · refine h.setConn i ⟨hread, hc.dropped, ?_⟩ ?_
      · intro pr known req' hwait
        cases hwait
      · intro pr known req' hwait
        cases hwait
  · split
    · exact h
    · have hset := h.setConn i (c := c.next req (if known then .handled else .unknownVerb))
        (accounted_next hread hc.dropped _ (by cases known <;> (intro ho; cases ho)))
        (by intro pr known req' hwait; cases hwait)
      exact ⟨hset.accounted, hset.timers, hset.timedOut⟩

/-- Every step keeps the invariant. -/
theorem Inv.after (h : Inv s) (op : ServerOp) : Inv (s.after op) := by
  cases op with
  | accept =>
    have hnew : ∀ c ∈ s.conns ++ [({} : ServerConnection)], c ∈ s.conns ∨ c = {} := by
      intro c hc
      simpa using List.mem_append.mp hc
    constructor
    · intro c hc
      rcases hnew c hc with hc | rfl
      · exact h.accounted c hc
      · refine ⟨rfl, ?_, ?_⟩
        · intro req hreq
          cases hreq
        · intro pr known req hwait
          cases hwait
    · intro e he x hx
      obtain ⟨hlt, hdead⟩ := h.timers e he x hx
      refine ⟨hlt, fun harmed c hc => ?_⟩
      rcases hnew c hc with hc | rfl
      · exact hdead harmed c hc
      · intro known req hwait
        cases hwait
    · intro pr hpr
      obtain ⟨hlt, hdead⟩ := h.timedOut pr hpr
      refine ⟨hlt, fun c hc => ?_⟩
      rcases hnew c hc with hc | rfl
      · exact hdead c hc
      · intro known req hwait
        cases hwait
  | registerHandler type => exact ⟨h.accounted, h.timers, h.timedOut⟩
  | unregisterHandler type => exact ⟨h.accounted, h.timers, h.timedOut⟩
  | request i req =>
    simp only [Server.after]
    split
    · exact h
    · rename_i c hget
      split
      · rename_i hloop
        exact h.process (List.mem_of_getElem? hget) hloop req
      · exact h
  | endOfStream i =>
    simp only [Server.after]
    split
    · exact h
    · rename_i c hget
      split
      · rename_i hloop
        have hc := h.accounted c (List.mem_of_getElem? hget)
        have hread := hc.read
        simp only [ServerConnection.current, hloop] at hread
        refine h.setConn i ⟨hread, hc.dropped, ?_⟩ ?_
        · intro pr known req' hwait
          cases hwait
        · intro pr known req' hwait
          cases hwait
      · exact h
  | expire key => exact h.expire key
  | resume i =>
    simp only [Server.after]
    split
    · exact h
    · rename_i c hget
      split
      · rename_i hloop
        exact h.resume (List.mem_of_getElem? hget) hloop
      · exact h
  | finish k =>
    simp only [Server.after]
    split
    · exact h
    · rename_i nr hget
      obtain ⟨hcalls, hlist⟩ := signal_frame nr s.resourcesAvailable
      constructor
      · simp only [hcalls]
        exact h.accounted
      · simp only [hcalls]
        intro e he x hx
        exact h.timers e (hlist.subset he) x hx
      · simp only [hcalls]
        exact h.timedOut

/-! ## Runs -/

theorem Undisturbed.setConn (h : Undisturbed s) (i : Nat) {c : ServerConnection}
    (hc : ∀ req, c.loop ≠ .failed req) : ∀ d ∈ s.conns.set i c, ∀ req, d.loop ≠ .failed req := by
  intro d hd
  rcases List.mem_or_eq_of_mem_set hd with hd | rfl
  · exact h d hd
  · exact hc

theorem Undisturbed.process (h : Undisturbed s) (i : Nat) (c : ServerConnection) (req : Request) :
    Undisturbed (s.process i c req) := by
  simp only [Server.process, Server.recvHelper]
  split
  · split
    · exact h.setConn i (by intro req' hfail; cases hfail)
    · exact h.setConn i (by intro req' hfail; cases hfail)
  · exact h.setConn i (by intro req' hfail; cases hfail)

/-- A continuation leaves the loops going exactly if it does not find a time-out of a request
without a handler. -/
theorem Undisturbed.resume_iff (h : Undisturbed s) (hinv : Inv s) {i pr : Nat}
    {c : ServerConnection} {known : Bool} {req : Request} (hget : s.conns[i]? = some c)
    (hloop : c.loop = .waiting pr known req) :
    Undisturbed (s.resume i c pr known req) ↔ (pr ∈ s.timedOut → known) := by
  rw [Server.resume]
  by_cases hout : pr ∈ s.timedOut
  · have hdead := (hinv.timedOut pr hout).2 c (List.mem_of_getElem? hget) known req hloop
    rw [if_pos hout]
    cases known with
    | true =>
      rw [if_pos ⟨rfl, hdead⟩]
      exact ⟨fun _ _ => rfl, fun _ => h.setConn i (by intro req' hfail; cases hfail)⟩
    | false =>
      rw [if_neg (by rintro ⟨hknown, -⟩; cases hknown)]
      constructor
      · intro hafter
        have hmem : ({ c with loop := .failed req } : ServerConnection) ∈
            s.conns.set i { c with loop := .failed req } := by
          apply List.mem_set
          exact (List.getElem?_eq_some_iff.mp hget).1
        exact absurd rfl (hafter _ hmem req)
      · intro hknown
        cases hknown hout
  · rw [if_neg hout]
    constructor
    · intro _ hin
      exact absurd hin hout
    · intro _
      split
      · exact h
      · exact h.setConn i (by intro req' hfail; cases hfail)

/-- One step. -/
theorem Undisturbed.after_iff (h : Undisturbed s) (hinv : Inv s) (op : ServerOp) :
    Spared s op ↔ Undisturbed (s.after op) := by
  cases op with
  | accept =>
    refine ⟨fun _ c hc => ?_, fun _ => trivial⟩
    rcases List.mem_append.mp hc with hc | hc
    · exact h c hc
    · rw [List.mem_singleton.mp hc]
      intro req hfail
      cases hfail
  | registerHandler type => exact ⟨fun _ => h, fun _ => trivial⟩
  | unregisterHandler type => exact ⟨fun _ => h, fun _ => trivial⟩
  | request i req =>
    refine ⟨fun _ => ?_, fun _ => trivial⟩
    simp only [Server.after]
    split
    · exact h
    · split
      · exact h.process _ _ _
      · exact h
  | endOfStream i =>
    refine ⟨fun _ => ?_, fun _ => trivial⟩
    simp only [Server.after]
    split
    · exact h
    · split
      · exact h.setConn i (by intro req' hfail; cases hfail)
      · exact h
  | expire key =>
    refine ⟨fun _ => ?_, fun _ => trivial⟩
    simp only [Server.after, Server.expire]
    split
    · exact h
    · exact h
  | resume i =>
    simp only [Server.after, Spared]
    cases hget : s.conns[i]? with
    | none => simp [h]
    | some c =>
      cases hloop : c.loop with
      | waiting pr known req =>
        simp only [hloop]
        rw [h.resume_iff hinv hget hloop]
        constructor
        · intro hall hout
          exact hall c rfl pr known req hloop hout
        · intro hknown c' hc' pr' known' req' hloop' hout
          obtain rfl := Option.some.inj hc'
          obtain ⟨rfl, rfl, -⟩ := Loop.waiting.inj (hloop.symm.trans hloop')
          exact hknown hout
      | reading => simp [h, hloop]
      | closed => simp [h, hloop]
      | failed req => simp [h, hloop]
  | finish k =>
    refine ⟨fun _ => ?_, fun _ => trivial⟩
    simp only [Server.after]
    split
    · exact h
    · exact h

theorem inv_init (limits : ResourceLimits) : Inv (init limits) where
  accounted := by
    intro c hc
    cases hc
  timers := by
    intro e he
    cases he
  timedOut := by
    intro pr hpr
    cases hpr

/-- In every run each connection has an outcome for each of its requests. -/
theorem run_inv {limits : ResourceLimits} {ops : List ServerOp}
    (hrun : run step (init limits) ops = .ok s) : Inv s := by
  apply run_keeps (I := Inv) _ (inv_init limits) hrun
  intro s op s' h hstep
  obtain rfl := Except.ok.inj hstep
  exact h.after op

/-- The loop of each connection goes on, or has come to the end of its stream; each request that was
read has an outcome, or waits; and one that was dropped had a deadline. -/
def Serves (s : Server) : Prop :=
  ∀ c ∈ s.conns, (∀ req, c.loop ≠ .failed req) ∧
    c.read = c.outcomes.map Prod.fst ++ c.current ∧
      ∀ req, (req, .dropped) ∈ c.outcomes → req.timeout.isSome

theorem serves_iff (h : Inv s) : Serves s ↔ Undisturbed s := by
  constructor
  · intro hs c hc
    exact (hs c hc).1
  · intro hu c hc
    exact ⟨hu c hc, (h.accounted c hc).read, (h.accounted c hc).dropped⟩

/-- A server serves its connections all through a run, requests that are late being dropped on their
own, if and only if no continuation finds that a request without a handler has timed out. -/
theorem run_serves_iff (limits : ResourceLimits) (ops : List ServerOp) :
    Throughout step Serves (init limits) ops ↔ Along step Spared (init limits) ops := by
  symm
  apply along_iff_throughout (I := Inv) _ (inv_init limits)
  · intro c hc
    cases hc
  · intro s op h hs
    refine ⟨_, rfl, h.after op, ?_⟩
    rw [serves_iff (h.after op)]
    exact ((serves_iff h).mp hs).after_iff h op

/-- All memory is taken by a handler; a request without a handler times out, and the request behind
it is not read. -/
theorem unknownVerb_timedOut : ¬ ∀ (limits : ResourceLimits) (ops : List ServerOp),
    Throughout step Serves (init limits) ops := by
  intro h
  have hserves := h ⟨0, 1, 100⟩ [.accept, .registerHandler 7, .request 0 ⟨none, 7, 1, 90⟩, .resume 0,
    .request 0 ⟨some 50, 8, 2, 4⟩, .expire 0, .resume 0]
  have hlast := ((((((hserves.2 _ rfl).2 _ rfl).2 _ rfl).2 _ rfl).2 _ rfl).2 _ rfl).2 _ rfl
  exact (hlast _ List.mem_cons_self).1 _ rfl

end Server

end Seastar.Rpc
