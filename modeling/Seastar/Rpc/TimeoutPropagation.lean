import Seastar.Lib.Run
import Seastar.Rpc.Frame

/-!
The time a call may take, on its way to the server: `send_helper`, the outgoing queue and
`send_loop` at the client, and what `server::connection::process` makes of the header of the
request.
-/

namespace Seastar.Rpc

open Lib Lib.Run

/-- A reading of the low resolution clock, in milliseconds. The steady clock is not before its
epoch. -/
structure Reading where
  ms : Int64
  nonneg : 0 ≤ ms
  deriving DecidableEq

/-- A call of a verb, with the time point that it may last to. -/
structure Call where
  timeout : Option Int64
  type : UInt64
  msgId : Int64
  args : List Bytes
  deriving DecidableEq

/-- `outgoing_entry`: of its timer the expiry, which is `time_point()` until it is armed. -/
structure OutgoingEntry where
  armed : Bool := false
  expiry : Int64 := 0
  buf : SndBuf
  /-- history: the call -/
  call : Call
  deriving DecidableEq

/-- A request that was sent. -/
structure Sent where
  call : Call
  time : Reading
  deriving DecidableEq

/-- A client that has negotiated. -/
structure Client where
  now : Reading
  error : Bool := false
  messageId : Int64 := 1
  outgoingQueue : List OutgoingEntry := []
  /-- what was written to the socket -/
  wire : List SndBuf := []
  /-- history: the requests in `wire` -/
  sent : List Sent := []
  deriving DecidableEq

/-- What happens at the client. -/
inductive Op
  | call (timeout : Option Int64) (type : UInt64) (args : List Bytes)
  | clock (now : Reading)
  | expire (i : Nat)
  | cancel (i : Nat)
  | sendFront
  | abort
  deriving DecidableEq

namespace Client

/-- `connection::send`. A call that is late already is not sent at all. -/
def send (c : Client) (call : Call) (buf : SndBuf) : Client :=
  if c.error then c
  else
    match call.timeout with
    | none => { c with outgoingQueue := c.outgoingQueue ++ [{ buf, call }] }
    | some timeout =>
      if timeout ≤ c.now.ms then c
      else
        { c with
          outgoingQueue := c.outgoingQueue ++ [{ armed := true, expiry := timeout, buf, call }] }

/-- `send_helper::send`. Arguments that do not fit are an exception for the caller. -/
def call (c : Client) (timeout : Option Int64) (type : UInt64) (args : List Bytes) : Client :=
  if c.error then c
  else
    let msgId := c.messageId
    let c := { c with messageId := c.messageId + 1 }
    match requestBuf type msgId args with
    | .error _ => c
    | .ok data => c.send ⟨timeout, type, msgId, args⟩ data

/-- The timer of an entry, when it is due. -/
def expire (c : Client) (i : Nat) : Client :=
  match c.outgoingQueue[i]? with
  | none => c
  | some d =>
    if d.armed ∧ d.expiry ≤ c.now.ms then
      { c with outgoingQueue := c.outgoingQueue.eraseIdx i }
    else c

/-- The time that is left, as `send_loop` writes it. -/
def timeLeft (expiry : Int64) (now : Reading) : UInt64 :=
  if expiry ≠ 0 then (expiry - now.ms).toUInt64 else 0

/-- `send_loop` with the first entry of the queue. An exception of the compressor ends the loop. -/
def sendFront (l : Link) (c : Client) : Except Fault Client :=
  match c.outgoingQueue with
  | [] => .ok c
  | d :: queue => do
    let buf ← stampRequest l.timeoutNegotiated (timeLeft d.expiry c.now) d.buf
    match l.compress buf with
    | .error _ => .ok { c with outgoingQueue := queue, error := true }
    | .ok buf =>
      .ok { c with
        outgoingQueue := queue
        wire := c.wire ++ [buf]
        sent := c.sent ++ [⟨d.call, c.now⟩] }

/-- One of these. -/
def step (l : Link) (c : Client) : Op → Except Fault Client
  | .call timeout type args => .ok (c.call timeout type args)
  | .clock now => .ok { c with now }
  | .expire i => .ok (c.expire i)
  | .cancel i => .ok { c with outgoingQueue := c.outgoingQueue.eraseIdx i }
  | .sendFront => sendFront l c
  | .abort => .ok { c with error := true }

end Client

/-! ## At the server -/

/-- The overflow of a signed representation. -/
inductive Overflow
  | timePoint
  deriving DecidableEq

/-- `now() + std::chrono::milliseconds(left)`. -/
def addTime (now : Reading) (left : Int64) : Except Overflow Int64 :=
  if now.ms.toInt + left.toInt < 2 ^ 63 then .ok (now.ms + left) else .error .timePoint

/-- The timeout that `process` finds in the header of a request. -/
def deadline (now : Reading) (expire : Option UInt64) : Except Overflow (Option Int64) :=
  match expire with
  | none => .ok none
  | some left =>
    if left = 0 then .ok none
    else do
      let timeout ← addTime now left.toInt64
      .ok (some timeout)

/-- A deadline is seen by a server at `now` as it was supplied to the client, and with no more time
to it than there was when the request was sent. -/
def Propagated (s : Sent) (now : Reading) (expire : Option UInt64) : Prop :=
  match s.call.timeout with
  | none => deadline now expire = .ok none
  | some t =>
    ∃ d, deadline now expire = .ok (some d) ∧
      d.toInt - now.ms.toInt ≤ t.toInt - s.time.ms.toInt

/-- The deadline is not this very millisecond, and not too late for the clock of the server. -/
def Expressible (s : Sent) (now : Reading) : Prop :=
  ∀ t, s.call.timeout = some t →
    t ≠ s.time.ms ∧ now.ms.toInt + (t.toInt - s.time.ms.toInt) < 2 ^ 63

theorem Reading.toInt_nonneg (r : Reading) : 0 ≤ r.ms.toInt := by
  have h := Int64.le_iff_toInt_le.mp r.nonneg
  simpa using h

/-- The subtraction of `send_loop` does not overflow. -/
theorem toInt_timeLeft {t : Int64} (ht : 0 < t) (now : Reading) :
    (t - now.ms).toInt = t.toInt - now.ms.toInt := by
  have hnow := now.toInt_nonneg
  have hlt := now.ms.toInt_lt
  have hpos := Int64.lt_iff_toInt_lt.mp ht
  have htlt := t.toInt_lt
  rw [Int64.toInt_zero] at hpos
  rw [Int64.toInt_sub]
  apply Int.bmod_eq_of_le
  · omega
  · omega

theorem addTime_toInt {now : Reading} {left : Int64} (h : now.ms.toInt + left.toInt < 2 ^ 63) :
    (now.ms + left).toInt = now.ms.toInt + left.toInt := by
  have hnow := now.toInt_nonneg
  have hle := left.le_toInt
  rw [Int64.toInt_add]
  apply Int.bmod_eq_of_le
  · omega
  · omega

/-- No time is left exactly at the deadline. -/
theorem timeLeft_eq_zero {t : Int64} {now : Reading} (ht : 0 < t) :
    (t - now.ms).toUInt64 = 0 ↔ t = now.ms := by
  constructor
  · intro h
    have hzero : t - now.ms = 0 := by
      rw [← Int64.toInt64_toUInt64 (t - now.ms), h]
      rfl
    have hleft := toInt_timeLeft ht now
    rw [hzero, Int64.toInt_zero] at hleft
    rw [← Int64.toInt_inj]
    omega
  · rintro rfl
    rw [Int64.sub_self]
    rfl

/-- What the server makes of the time that `send_loop` writes. -/
theorem propagated_iff {s : Sent} (hpos : ∀ t, s.call.timeout = some t → 0 < t) (now : Reading) :
    Propagated s now (some (Client.timeLeft (s.call.timeout.getD 0) s.time)) ↔
      Expressible s now := by
  cases htimeout : s.call.timeout with
  | none => simp [Propagated, Expressible, htimeout, Client.timeLeft, deadline]
  | some t =>
    have ht := hpos t htimeout
    have hne : t ≠ 0 := (Int64.ne_of_lt ht).symm
    have hleft := toInt_timeLeft ht s.time
    simp only [Propagated, Expressible, htimeout, Option.getD_some, Client.timeLeft, if_pos hne,
      deadline, Option.some.injEq, forall_eq']
    by_cases hat : t = s.time.ms
    · rw [if_pos ((timeLeft_eq_zero ht).mpr hat)]
      constructor
      · rintro ⟨d, hd, -⟩
        cases hd
      · rintro ⟨hnot, -⟩
        exact absurd hat hnot
    · rw [if_neg (mt (timeLeft_eq_zero ht).mp hat), Int64.toInt64_toUInt64, addTime, hleft]
      by_cases hroom : now.ms.toInt + (t.toInt - s.time.ms.toInt) < 2 ^ 63
      · rw [if_pos hroom]
        have hsum : (now.ms + (t - s.time.ms)).toInt = now.ms.toInt + (t - s.time.ms).toInt := by
          apply addTime_toInt
          rw [hleft]
          exact hroom
        constructor
        · intro _
          exact ⟨hat, hroom⟩
        · intro _
          refine ⟨_, rfl, ?_⟩
          rw [hsum, hleft]
          omega
      · rw [if_neg hroom]
        constructor
        · rintro ⟨d, hd, -⟩
          cases hd
        · rintro ⟨-, h⟩
          exact absurd h hroom

/-! ## Runs -/

namespace Client

/-- The request of a call, with the time that is left at `time`. -/
def message (call : Call) (time : Reading) : Message :=
  .request (timeLeft (call.timeout.getD 0) time) call.type call.msgId call.args

/-- A call that was not late when it was made has its deadline after the epoch. -/
def InTime (call : Call) : Prop := ∀ t, call.timeout = some t → 0 < t

/-- An entry of the queue is what its call has put there. -/
structure Queued (d : OutgoingEntry) : Prop where
  inTime : InTime d.call
  expiry : d.expiry = d.call.timeout.getD 0
  buf : requestBuf d.call.type d.call.msgId d.call.args = .ok d.buf

/-- The queue holds requests, and so does the wire, in the order in which they were sent. -/
structure Inv (l : Link) (c : Client) : Prop where
  queued : ∀ d ∈ c.outgoingQueue, Queued d
  wire : List.Forall₂ (fun s b => InTime s.call ∧ l.send (message s.call s.time) = .ok b)
    c.sent c.wire

variable {l : Link} {c : Client}

theorem Inv.send (h : Inv l c) (call : Call) {buf : SndBuf}
    (hbuf : requestBuf call.type call.msgId call.args = .ok buf) : Inv l (c.send call buf) := by
  rw [Client.send]
  split
  · exact h
  · cases htimeout : call.timeout with
    | none =>
      refine ⟨fun d hd => ?_, h.wire⟩
      rcases List.mem_append.mp hd with hd | hd
      · exact h.queued d hd
      · rw [List.mem_singleton.mp hd]
        refine ⟨fun t ht => ?_, ?_, hbuf⟩
        · rw [htimeout] at ht
          cases ht
        · rw [htimeout]
          rfl
    | some timeout =>
      by_cases hlate : timeout ≤ c.now.ms
      · simp only [hlate, if_true]
        exact h
      · simp only [hlate, if_false]
        refine ⟨fun d hd => ?_, h.wire⟩
        rcases List.mem_append.mp hd with hd | hd
        · exact h.queued d hd
        · rw [List.mem_singleton.mp hd]
          refine ⟨fun t ht => ?_, ?_, hbuf⟩
          · rw [htimeout] at ht
            obtain rfl := Option.some.inj ht
            exact Int64.lt_of_le_of_lt c.now.nonneg (Int64.not_le.mp hlate)
          · rw [htimeout]
            rfl

theorem Inv.call (h : Inv l c) (timeout : Option Int64) (type : UInt64) (args : List Bytes) :
    Inv l (c.call timeout type args) := by
  have hnext : Inv l { c with messageId := c.messageId + 1 } := ⟨h.queued, h.wire⟩
  simp only [Client.call]
  split
  · exact h
  · cases hbuf : requestBuf type c.messageId args with
    | error e => exact hnext
    | ok data => exact hnext.send ⟨timeout, type, c.messageId, args⟩ hbuf

theorem Inv.eraseIdx (h : Inv l c) (i : Nat) :
    Inv l { c with outgoingQueue := c.outgoingQueue.eraseIdx i } :=
  ⟨fun d hd => h.queued d (List.mem_of_mem_eraseIdx hd), h.wire⟩

/-- What is in the queue is framed like any request. -/
theorem Queued.stamp {d : OutgoingEntry} (h : Queued d) (l : Link) (time : Reading) :
    ∃ buf, stampRequest l.timeoutNegotiated (timeLeft d.expiry time) d.buf = .ok buf ∧
      l.frame (message d.call time) = .ok buf := by
  have hfits : 28 + d.call.args.flatten.length < 2 ^ 32 := by
    by_contra hfull
    have hmarshall : marshall 28 d.call.args = .error .bufferOverflow :=
      marshall_full (Nat.not_lt.mp hfull)
    have hbuf := h.buf
    rw [requestBuf, hmarshall] at hbuf
    cases hbuf
  obtain ⟨b, hb, hhead⟩ := requestBuf_headed d.call.type d.call.msgId hfits
  obtain rfl := Except.ok.inj (h.buf.symm.trans hb)
  obtain ⟨buf, hstamp, -⟩ := stampRequest_headed hhead l.timeoutNegotiated (timeLeft d.expiry time)
  refine ⟨buf, hstamp, ?_⟩
  rw [h.expiry] at hstamp
  simp only [Link.frame, message]
  rw [h.buf, ok_bind]
  exact hstamp

theorem Inv.sendFront (h : Inv l c) : ∃ c', Client.sendFront l c = .ok c' ∧ Inv l c' := by
  rw [Client.sendFront]
  cases hqueue : c.outgoingQueue with
  | nil => exact ⟨c, rfl, h⟩
  | cons d queue =>
    have hd := h.queued d (by rw [hqueue]; exact List.mem_cons_self)
    have hrest : ∀ d' ∈ queue, Queued d' := by
      intro d' hd'
      apply h.queued
      rw [hqueue]
      exact List.mem_cons_of_mem _ hd'
    obtain ⟨buf, hstamp, hframe⟩ := hd.stamp l c.now
    simp only [hstamp, ok_bind]
    cases hcompress : l.compress buf with
    | error e => exact ⟨_, rfl, hrest, h.wire⟩
    | ok out =>
      refine ⟨_, rfl, hrest, ?_⟩
      apply List.rel_append h.wire
      refine .cons ⟨hd.inTime, ?_⟩ .nil
      exact bind_ok.mpr ⟨buf, hframe, hcompress⟩

/-- Every step returns, and keeps the queue and the wire as they have to be. -/
theorem step_inv (h : Inv l c) (op : Op) : ∃ c', step l c op = .ok c' ∧ Inv l c' := by
  cases op with
  | call timeout type args => exact ⟨_, rfl, h.call timeout type args⟩
  | clock now => exact ⟨_, rfl, ⟨h.queued, h.wire⟩⟩
  | expire i =>
    refine ⟨_, rfl, ?_⟩
    rw [expire]
    cases c.outgoingQueue[i]? with
    | none => exact h
    | some d =>
      by_cases hdue : d.armed ∧ d.expiry ≤ c.now.ms
      · simp only [if_pos hdue]
        exact h.eraseIdx i
      · simp only [if_neg hdue]
        exact h
  | cancel i => exact ⟨_, rfl, h.eraseIdx i⟩
  | sendFront => exact h.sendFront
  | abort => exact ⟨_, rfl, ⟨h.queued, h.wire⟩⟩

/-- A run returns, whatever happens at the client. -/
theorem run_inv (h : Inv l c) (ops : List Op) : ∃ c', run (step l) c ops = .ok c' ∧ Inv l c' := by
  induction ops generalizing c with
  | nil => exact ⟨c, rfl, h⟩
  | cons op ops ih =>
    obtain ⟨t, hstep, ht⟩ := step_inv h op
    obtain ⟨c', hrun, hc'⟩ := ih ht
    exact ⟨c', run_cons_ok.mpr ⟨t, hstep, hrun⟩, hc'⟩

theorem inv_start (l : Link) (now : Reading) : Inv l { now } where
  queued := by
    intro d hd
    cases hd
  wire := .nil

/-- The server reads a request as it was called, and `P` holds of the time in its header. -/
def Reads (s : Sent) (v : Received) (P : Option UInt64 → Prop) : Prop :=
  ∃ expire rb, v = .request expire s.call.type s.call.msgId (some rb) ∧
    rb.bufs.bytes = s.call.args.flatten ∧ P expire

theorem reads_of_delivered (hl : l.timeoutNegotiated = true) {s : Sent} {v : Received}
    (h : (message s.call s.time).Delivered l v) :
    Reads s v fun expire => expire = some (timeLeft (s.call.timeout.getD 0) s.time) := by
  obtain ⟨rb, rfl, -, hbytes⟩ := h
  refine ⟨_, rb, ?_, hbytes, rfl⟩
  simp [message, Message.value, hl]

/-- The requests on the wire, in whatever buffers they are delivered. -/
theorem Inv.receiveMany (hl : l.timeoutNegotiated = true)
    (hc : ∀ k, l.compressor = some k → k.RoundTrips) (h : Inv l c) {fd : DataSource UInt8}
    {rest : Bytes} (hfd : fd.bytes = (c.wire.map SndBuf.bytes).flatten ++ rest) :
    ∃ vs s, l.receiveMany .server c.sent.length { fd := fd } = .ok (vs, s) ∧
      List.Forall₂ (fun s v => InTime s.call ∧
        Reads s v fun expire => expire = some (timeLeft (s.call.timeout.getD 0) s.time))
          c.sent vs := by
  have hstart : ({ fd := fd } : InputStream UInt8).EofAtEnd := by
    intro h
    cases h
  have hsend : List.Forall₂ (fun m b => m.role = .server ∧ l.send m = .ok b)
      (c.sent.map fun s => message s.call s.time) c.wire := by
    rw [List.forall₂_map_left_iff]
    exact h.wire.imp fun _ _ hs => ⟨rfl, hs.2⟩
  obtain ⟨vs, s, hread, hvs, -, -⟩ := Link.receiveMany_value hc hsend hstart hfd
  rw [List.length_map] at hread
  refine ⟨vs, s, hread, ?_⟩
  rw [List.forall₂_map_left_iff] at hvs
  obtain ⟨hin, -⟩ := (List.forall₂_and_left _ _).mp h.wire
  rw [List.forall₂_and_left]
  exact ⟨hin, hvs.imp fun _ _ hv => reads_of_delivered hl hv.1⟩

/-- Over every run of a client that has negotiated timeouts, with the requests delivered in any
buffers: the server sees the deadline of a request as it was supplied if and only if that was not
the very millisecond in which the request was sent, and can be told by the clock of the server. -/
theorem run_propagated (hl : l.timeoutNegotiated = true)
    (hc : ∀ k, l.compressor = some k → k.RoundTrips) (now : Reading) (ops : List Op) :
    ∃ c', run (step l) { now } ops = .ok c' ∧
      ∀ (fd : DataSource UInt8) (rest : Bytes),
        fd.bytes = (c'.wire.map SndBuf.bytes).flatten ++ rest →
          ∃ vs s, l.receiveMany .server c'.sent.length { fd := fd } = .ok (vs, s) ∧
            List.Forall₂ (fun s v => Reads s v fun expire =>
              ∀ now : Reading, Propagated s now expire ↔ Expressible s now) c'.sent vs := by
  obtain ⟨c', hrun, hc'⟩ := run_inv (inv_start l now) ops
  refine ⟨c', hrun, fun fd rest hfd => ?_⟩
  obtain ⟨vs, s, hread, hvs⟩ := hc'.receiveMany hl hc hfd
  refine ⟨vs, s, hread, hvs.imp fun s v hv => ?_⟩
  obtain ⟨hin, expire, rb, hvalue, hbytes, rfl⟩ := hv
  exact ⟨_, rb, hvalue, hbytes, fun now => propagated_iff hin now⟩

/-- A call with a hundred milliseconds of which forty pass in the queue. -/
theorem run_propagated_queued : ∃ c', run (step ⟨true, none⟩) { now := ⟨10, by decide⟩ }
      [.call (some 110) 7 [[1], [2, 3]], .clock ⟨50, by decide⟩, .sendFront] = .ok c' ∧
    ∀ (fd : DataSource UInt8) (rest : Bytes),
      fd.bytes = (c'.wire.map SndBuf.bytes).flatten ++ rest →
        ∃ vs s, Link.receiveMany ⟨true, none⟩ .server c'.sent.length { fd := fd } = .ok (vs, s) ∧
          List.Forall₂ (fun s v => Reads s v fun expire =>
            ∀ now : Reading, Propagated s now expire ↔ Expressible s now) c'.sent vs :=
  run_propagated rfl (by intro k hk; cases hk) _ _

/-- A call that is sent in the millisecond of its deadline. -/
theorem run_noDeadline : ¬ ∀ (l : Link), l.timeoutNegotiated = true →
    (∀ k, l.compressor = some k → k.RoundTrips) → ∀ (now : Reading) (ops : List Op),
      ∃ c', run (step l) { now } ops = .ok c' ∧
        ∀ (fd : DataSource UInt8) (rest : Bytes),
          fd.bytes = (c'.wire.map SndBuf.bytes).flatten ++ rest →
            ∃ vs s, l.receiveMany .server c'.sent.length { fd := fd } = .ok (vs, s) ∧
              List.Forall₂ (fun s v => Reads s v fun expire =>
                ∀ now : Reading, Propagated s now expire) c'.sent vs := by
  intro h
  have hc : ∀ k, (⟨true, none⟩ : Link).compressor = some k → k.RoundTrips := by
    intro k hk
    cases hk
  obtain ⟨c', hrun, hall⟩ := h ⟨true, none⟩ rfl hc ⟨10, by decide⟩
    [.call (some 20) 7 [], .clock ⟨20, by decide⟩, .sendFront]
  have hrun' : run (step ⟨true, none⟩) { now := ⟨10, by decide⟩ }
      [.call (some 20) 7 [], .clock ⟨20, by decide⟩, .sendFront] = .ok
        { now := ⟨20, by decide⟩
          messageId := 2
          wire := [⟨28, .one (List.replicate 8 0 ++ le64 7 ++ le64 1 ++ le32 0)⟩]
          sent := [⟨⟨some 20, 7, 1, []⟩, ⟨20, by decide⟩⟩] } := rfl
  obtain ⟨c₀, hrun₀, hinv⟩ := run_inv (inv_start ⟨true, none⟩ ⟨10, by decide⟩)
    [.call (some 20) 7 [], .clock ⟨20, by decide⟩, .sendFront]
  obtain rfl := Except.ok.inj (hrun₀.symm.trans hrun')
  obtain rfl := Except.ok.inj (hrun.symm.trans hrun')
  obtain ⟨vs, s, hread, hvs⟩ := hall
    ⟨[List.replicate 8 0 ++ le64 7 ++ le64 1 ++ le32 0], by decide⟩ [] rfl
  obtain ⟨vs', s', hread', hvs'⟩ := @Inv.receiveMany ⟨true, none⟩ _ rfl hc hinv
    ⟨[List.replicate 8 0 ++ le64 7 ++ le64 1 ++ le32 0], by decide⟩ [] rfl
  obtain ⟨rfl, rfl⟩ := Prod.mk.inj (Except.ok.inj (hread.symm.trans hread'))
  cases hvs with
  | cons hv =>
    cases hvs' with
    | cons hv' =>
      obtain ⟨expire, rb, hvalue, -, hseen⟩ := hv
      obtain ⟨-, expire', rb', hvalue', -, hzero⟩ := hv'
      obtain ⟨rfl, -⟩ := Received.request.inj (hvalue.symm.trans hvalue')
      obtain ⟨d, hd, -⟩ := hseen ⟨10, by decide⟩
      rw [hzero] at hd
      cases hd

end Client

end Seastar.Rpc
