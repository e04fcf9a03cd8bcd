import Seastar.Core.Fault
import Seastar.IO.InputStream
import Seastar.Lib.Run

/-!
`output_stream` of `core/iostream.hh` and `core/iostream-impl.hh`, as a state
machine, for the buffered writes. The caller issues one operation after the
other; what the future of the operation waits for is part of the state. A batched
flush has a chain of futures of its own, which `poll_flush` starts and which runs
beside the caller's.
-/

namespace Seastar

open Lib InputStream

variable {α : Type}

/-- A buffer given to the sink, and whether a flush gave it. -/
structure OutputStream.Chunk (α : Type) where
  bytes : List α
  byFlush : Bool
  deriving DecidableEq, Repr

/-- What follows a `put` of the caller's. -/
inductive OutputStream.Next (α : Type)
  | done
  | put (tmp : List α)
  | splitAndPut (tmp : List α)
  /-- the next round of the loop of `split_and_put` -/
  | splitRound (buf : List α)
  /-- the `flush` of the sink -/
  | flush
  deriving DecidableEq, Repr

/-- What the future of the caller's operation waits for. -/
inductive OutputStream.Caller (α : Type)
  /-- the end of a batched flush, in `put`; whether it has come -/
  | waiting (chunk : OutputStream.Chunk α) (next : OutputStream.Next α) (ready : Bool)
  /-- a `put` of the sink -/
  | putting (next : OutputStream.Next α)
  /-- the `flush` of the sink -/
  | flushing
  /-- the end of a batched flush, in `close`; whether it has come -/
  | closing (ready : Bool)
  deriving DecidableEq, Repr

/-- What the chain of `poll_flush` waits for. -/
inductive OutputStream.Batch
  | putting
  | flushing
  deriving DecidableEq, Repr

/-- `class output_stream`, with the sink. -/
structure OutputStream (α : Type) where
  size : Nat
  trimToSize : Bool
  batchFlushes : Bool
  buf : List α := []
  «end» : Nat := 0
  inBatch : Bool := false
  /-- `_flush` -/
  flushDue : Bool := false
  flushing : Bool := false
  /-- the stream is in the list of the flush poller -/
  polled : Bool := false
  caller : Option (OutputStream.Caller α) := none
  batch : Option OutputStream.Batch := none
  /-- `close` was called; the sink was closed -/
  closing : Bool := false
  closed : Bool := false
  /-- puts of the sink that have not resolved -/
  puts : Nat := 0
  /-- history: the bytes that were written, and the buffers the sink was given -/
  written : List α := []
  received : List (OutputStream.Chunk α) := []
  deriving DecidableEq, Repr

namespace OutputStream

/-- `put` of the sink. -/
def fdPut (chunk : Chunk α) (s : OutputStream α) : OutputStream α :=
  { s with
    puts := s.puts + 1
    received := s.received ++ [chunk] }

/-- The caller's future resolves; that of `close` then waits for the batched flush and closes the
sink. -/
def resolved (s : OutputStream α) : OutputStream α :=
  if s.closing then
    if s.inBatch then { s with caller := some (.closing false) }
    else { s with
      caller := none
      closed := true }
  else { s with caller := none }

/-- `put`. The missing value of `_in_batch` is a failed assertion. -/
def put (chunk : Chunk α) (next : Next α) (s : OutputStream α) : Except Fault (OutputStream α) :=
  let s := { s with flushDue := false }
  if s.flushing then
    if s.inBatch then .ok { s with caller := some (.waiting chunk next false) }
    else .error .assertFailed
  else .ok { s.fdPut chunk with caller := some (.putting next) }

section Write

variable [Inhabited α]

/-- A round of the loop of `split_and_put`. -/
def splitRound (buf : List α) (s : OutputStream α) : Except Fault (OutputStream α) :=
  if buf.length < s.size then
    let out := if s.buf.isEmpty then allocate s.size else s.buf
    .ok (resolved { s with
      buf := copyTo out 0 buf
      «end» := buf.length })
  else s.put ⟨buf.take s.size, false⟩ (.splitRound (buf.drop s.size))

/-- `split_and_put`. -/
def splitAndPut (buf : List α) (s : OutputStream α) : Except Fault (OutputStream α) :=
  if s.end = 0 then s.splitRound buf else .error .assertFailed

/-- What `write` does with bytes that are not buffered. -/
def putTmp (tmp : List α) (s : OutputStream α) : Except Fault (OutputStream α) :=
  if s.trimToSize then s.splitAndPut tmp else s.put ⟨tmp, false⟩ .done

/-- `write` of bytes that fill the buffer and leave at least another of its size. -/
def writeBulk (bytes : List α) (s : OutputStream α) : Except Fault (OutputStream α) :=
  if s.end ≠ 0 then
    let now := s.size - s.end
    let buf := copyTo s.buf s.end (bytes.take now)
    let tmp := bytes.drop now
    let s := { s with
      buf := []
      «end» := 0 }
    s.put ⟨buf.take s.size, false⟩ (if s.trimToSize then .splitAndPut tmp else .put tmp)
  else s.putTmp bytes

/-- `write` of bytes that fit in the buffer and the next one. -/
def writeBuffered (bytes : List α) (s : OutputStream α) : Except Fault (OutputStream α) :=
  let n := bytes.length
  let buf := if s.buf.isEmpty then allocate s.size else s.buf
  let now := min n (s.size - s.end)
  let buf := copyTo buf s.end (bytes.take now)
  if now = n then
    .ok (resolved { s with
      buf
      «end» := s.end + now })
  else
    let next := copyTo (allocate s.size) 0 (bytes.drop now)
    let s := { s with
      buf := next
      «end» := n - now }
    s.put ⟨buf, false⟩ .done

/-- `write`. -/
def write (bytes : List α) (s : OutputStream α) : Except Fault (OutputStream α) :=
  let bulkThreshold := if s.end ≠ 0 then 2 * s.size - s.end else s.size
  if bytes.length ≥ bulkThreshold then s.writeBulk bytes else s.writeBuffered bytes

end Write

/-- `flush`. -/
def flush (s : OutputStream α) : Except Fault (OutputStream α) :=
  if !s.batchFlushes then
    if s.end ≠ 0 then
      let buf := s.buf.take s.end
      let s := { s with
        buf := []
        «end» := 0 }
      s.put ⟨buf, true⟩ .flush
    else .ok s.resolved
  else if s.inBatch then .ok { s with flushDue := true }.resolved
  else .ok { s with
    flushDue := true
    polled := true
    inBatch := true }.resolved

/-- `close`. -/
def close (s : OutputStream α) : Except Fault (OutputStream α) :=
  { s with closing := true }.flush

/-- The future of `_in_batch` resolves. -/
def Caller.resolve : Caller α → Caller α
  | .waiting chunk next _ => .waiting chunk next true
  | .closing _ => .closing true
  | c => c

/-- `poll_flush`. -/
def pollFlush (s : OutputStream α) : Except Fault (OutputStream α) :=
  if !s.flushDue then
    if s.inBatch then
      .ok { s with
        flushing := false
        inBatch := false
        batch := none
        caller := s.caller.map Caller.resolve }
    else .error .assertFailed
  else
    let s := { s with
      flushDue := false
      flushing := true }
    if s.end ≠ 0 then
      let chunk : Chunk α := ⟨s.buf.take s.end, true⟩
      .ok ({ s with
        buf := []
        «end» := 0
        batch := some .putting }.fdPut chunk)
    else .ok { s with batch := some .flushing }

/-- The calls of the stream. -/
inductive Call (α : Type)
  | write (bytes : List α)
  | flush
  | close
  deriving DecidableEq, Repr

/-- What can happen. -/
inductive Action (α : Type)
  | call (c : Call α)
  /-- the reactor polls the batched flushes -/
  | poll
  /-- an operation of the sink ends, for the chain of `poll_flush` -/
  | batchPut
  | batchFlushed
  /-- an operation of the sink ends, for the caller -/
  | put
  | flushed
  /-- the caller goes on after a batched flush -/
  | resume
  deriving DecidableEq, Repr

section Run

variable [Inhabited α]

/-- The operations, with the history of the bytes. -/
def call (s : OutputStream α) : Call α → Except Fault (OutputStream α)
  | .write bytes => { s with written := s.written ++ bytes }.write bytes
  | .flush => s.flush
  | .close => s.close

/-- The caller goes on after its `put`. -/
def goOn (s : OutputStream α) : Next α → Except Fault (OutputStream α)
  | .done => .ok s.resolved
  | .put tmp => s.put ⟨tmp, false⟩ .done
  | .splitAndPut tmp => s.splitAndPut tmp
  | .splitRound buf => s.splitRound buf
  | .flush => .ok { s with caller := some .flushing }

/-- One action; one that cannot happen in the state changes nothing. No operation is called while
the caller waits for one, nor after `close`. -/
def step (s : OutputStream α) : Action α → Except Fault (OutputStream α)
  | .call c => if s.caller.isNone && !s.closing then s.call c else .ok s
  | .poll => if s.polled then { s with polled := false }.pollFlush else .ok s
  | .batchPut =>
    if s.batch = some .putting then
      .ok { s with
        batch := some .flushing
        puts := s.puts - 1 }
    else .ok s
  | .batchFlushed => if s.batch = some .flushing then s.pollFlush else .ok s
  | .put =>
    match s.caller with
    | some (.putting next) => { s with puts := s.puts - 1 }.goOn next
    | _ => .ok s
  | .flushed =>
    match s.caller with
    | some .flushing => .ok s.resolved
    | _ => .ok s
  | .resume =>
    match s.caller with
    | some (.waiting chunk next true) => .ok { s.fdPut chunk with caller := some (.putting next) }
    | some (.closing true) =>
      .ok { s with
        caller := none
        closed := true }
    | _ => .ok s

/-- The stream after the actions, oldest first. -/
def run : OutputStream α → List (Action α) → Except Fault (OutputStream α) := Run.run step

/-- The size of the buffer is not 0; or the sink is given the bytes of a write as they are, and
there are some. -/
def Sized (s : OutputStream α) : Action α → Prop
  | .call (.write bytes) => 0 < s.size ∨ (s.trimToSize = false ∧ bytes ≠ [])
  | _ => True

instance [DecidableEq α] (s : OutputStream α) (a : Action α) : Decidable (Sized s a) := by
  cases a with
  | call c => cases c <;> unfold Sized <;> infer_instance
  | _ => exact .isTrue trivial

/-- The actions that are not calls. -/
def Action.Internal : Action α → Prop
  | .call _ => False
  | _ => True

end Run

/-! ## What the sink is given -/

/-- The bytes of the buffers. -/
def bytesOf (cs : List (Chunk α)) : List α := cs.flatMap Chunk.bytes

/-- A buffer the sink may be given. -/
structure Chunk.Ok (size : Nat) (trimToSize : Bool) (c : Chunk α) : Prop where
  nonempty : c.bytes ≠ []
  trimmed : trimToSize = true → c.bytes.length ≤ size
  full : trimToSize = true → c.byFlush = false → c.bytes.length = size

/-- What the stream guarantees of the sink. -/
structure Delivers [Inhabited α] (s : OutputStream α) : Prop where
  inOrder : bytesOf s.received <+: s.written
  complete : s.closed = true → bytesOf s.received = s.written
  chunks : ∀ c ∈ s.received, c.Ok s.size s.trimToSize
  exclusive : s.puts ≤ 1
  closes : s.closing = true → s.caller = none → s.closed = true
  resolves : ∃ as : List (Action α), (∀ a ∈ as, a.Internal) ∧
    ∃ t, s.run as = .ok t ∧ t.caller = none

/-! ## The invariant -/

variable {s t : OutputStream α}

/-- The bytes that are still to be put. -/
def Next.bytes : Next α → List α
  | .put tmp => tmp
  | .splitAndPut tmp => tmp
  | .splitRound buf => buf
  | _ => []

/-- The bytes that the caller's operation holds. -/
def Caller.bytes : Caller α → List α
  | .waiting chunk next _ => chunk.bytes ++ next.bytes
  | .putting next => next.bytes
  | _ => []

/-- The puts of the caller's operation. -/
def Caller.puts : Caller α → Nat
  | .putting _ => 1
  | _ => 0

/-- What the rest of an operation relies on. -/
def Next.Ok (s : OutputStream α) : Next α → Prop
  | .put tmp => s.end = 0 ∧ s.trimToSize = false ∧ tmp ≠ []
  | .splitAndPut _ => s.end = 0 ∧ 0 < s.size ∧ s.closing = false
  | .splitRound _ => s.end = 0 ∧ 0 < s.size ∧ s.closing = false
  | _ => True

/-- What the caller relies on as it waits: no flush is due while it puts. -/
def Caller.Ok (s : OutputStream α) : Caller α → Prop
  | .waiting chunk next ready =>
    chunk.Ok s.size s.trimToSize ∧ next.Ok s ∧ s.flushDue = false ∧ s.batch.isSome = !ready
  | .putting next => next.Ok s ∧ s.flushDue = false ∧ s.batch = none
  | .flushing => True
  | .closing ready =>
    s.closing = true ∧ (ready = false → s.inBatch = true) ∧ (ready = true → s.flushDue = false)

/-- What holds of the stream when the caller's operation has `n` puts in flight and holds `rest`. -/
structure Base (s : OutputStream α) (n : Nat) (rest : List α) : Prop where
  endLe : s.end ≤ s.size
  length : s.buf.length = s.size ∨ s.buf = [] ∧ s.end = 0
  chunks : ∀ c ∈ s.received, c.Ok s.size s.trimToSize
  content : s.written = bytesOf s.received ++ rest ++ s.buf.take s.end
  puts : s.puts = n + if s.batch = some .putting then 1 else 0
  flushing : s.flushing = s.batch.isSome
  inBatch : s.inBatch = (s.polled || s.batch.isSome)
  alone : s.polled = true → s.batch = none
  due : s.flushDue = true → s.inBatch = true
  drained : s.closing = true → s.flushDue = true ∨ s.end = 0

/-- The bytes and the puts of the caller's operation, if there is one. -/
def callerBytes (s : OutputStream α) : List α := s.caller.elim [] Caller.bytes

def callerPuts (s : OutputStream α) : Nat := s.caller.elim 0 Caller.puts

/-- The invariant of the runs. -/
structure Inv (s : OutputStream α) : Prop where
  base : Base s s.callerPuts s.callerBytes
  waits : ∀ c, s.caller = some c → c.Ok s
  ends : s.closed = true ↔ s.closing = true ∧ s.caller = none
  settled : s.closed = true → s.flushDue = false

theorem bytesOf_append (cs : List (Chunk α)) (c : Chunk α) :
    bytesOf (cs ++ [c]) = bytesOf cs ++ c.bytes := by
  simp [bytesOf]

/-- The caller is no part of it. -/
theorem Base.withCaller {n : Nat} {rest : List α} (h : Base s n rest) (c : Option (Caller α))
    (b : Bool) : Base { s with
      caller := c
      closed := b } n rest :=
  ⟨h.endLe, h.length, h.chunks, h.content, h.puts, h.flushing, h.inBatch, h.alone, h.due,
    h.drained⟩

/-- Without a batched flush none is due, and the close has nothing left to send. -/
theorem Base.idle {n : Nat} {rest : List α} (h : Base s n rest) (hb : s.inBatch = false) :
    s.flushDue = false := by
  cases hd : s.flushDue with
  | false => rfl
  | true => exact absurd (h.due hd) (by rw [hb]; decide)

/-- The buffer that is written to has the size of the stream, and what the old one held. -/
theorem buffer_of_length [Inhabited α] {buf : List α} {size e : Nat} (hle : e ≤ size)
    (h : buf.length = size ∨ buf = [] ∧ e = 0) :
    (if buf.isEmpty then allocate size else buf).length = size ∧
      (if buf.isEmpty then allocate size else buf).take e = buf.take e := by
  by_cases hbuf : buf = []
  · have hend : e = 0 := by
      obtain hlen | ⟨-, hend⟩ := h
      · rw [← hlen, hbuf] at hle
        exact Nat.le_zero.mp hle
      · exact hend
    rw [hbuf, hend]
    exact ⟨List.length_replicate, rfl⟩
  · rw [if_neg (by simpa using hbuf)]
    exact ⟨h.resolve_right fun hc => hbuf hc.1, rfl⟩

theorem Base.buffer [Inhabited α] {n : Nat} {rest : List α} (h : Base s n rest) :
    (if s.buf.isEmpty then allocate s.size else s.buf).length = s.size ∧
      (if s.buf.isEmpty then allocate s.size else s.buf).take s.end = s.buf.take s.end :=
  buffer_of_length h.endLe h.length

theorem resolved_inv (h : Base s 0 []) (hc : s.closed = false) : Inv s.resolved := by
  unfold resolved
  split
  · rename_i hclosing
    split
    · rename_i hb
      refine ⟨h.withCaller (some (.closing false)) s.closed, ?_, ?_, ?_⟩
      · rintro c ⟨⟩
        exact ⟨hclosing, fun _ => hb, nofun⟩
      · show s.closed = true ↔ s.closing = true ∧ some (Caller.closing false) = none
        simp [hc]
      · intro hclosed
        exact absurd hclosed (by rw [hc]; decide)
    · rename_i hb
      refine ⟨h.withCaller none true, nofun, ?_, ?_⟩
      · show true = true ↔ s.closing = true ∧ none = none
        simp [hclosing]
      · intro _
        exact h.idle (by simpa using hb)
  · rename_i hclosing
    refine ⟨h.withCaller none s.closed, nofun, ?_, ?_⟩
    · show s.closed = true ↔ s.closing = true ∧ none = none
      simp [hc, hclosing]
    · intro hclosed
      exact absurd hclosed (by rw [hc]; decide)

theorem put_inv {chunk : Chunk α} {next : Next α} (h : Base s 0 (chunk.bytes ++ next.bytes))
    (hchunk : chunk.Ok s.size s.trimToSize) (hnext : next.Ok s) (hclosed : s.closed = false)
    (hclosing : s.closing = true → s.end = 0) : ∃ t, s.put chunk next = .ok t ∧ Inv t := by
  have hends : ∀ c : Caller α, s.closed = true ↔ s.closing = true ∧ some c = none := by
    simp [hclosed]
  unfold OutputStream.put
  by_cases hf : s.flushing = true
  · have hbatch : s.batch.isSome = true := h.flushing ▸ hf
    have hb : s.inBatch = true := by rw [h.inBatch, hbatch, Bool.or_true]
    refine ⟨_, by rw [if_pos hf, if_pos hb], ?_, ?_, hends _, fun _ => rfl⟩
    · exact ⟨h.endLe, h.length, h.chunks, h.content, h.puts, h.flushing, h.inBatch, h.alone, nofun,
        fun hcl => Or.inr (hclosing hcl)⟩
    · rintro c ⟨⟩
      exact ⟨hchunk, by cases next <;> exact hnext, rfl, hbatch⟩
  · have hbatch : s.batch = none := by
      have := h.flushing
      cases hb : s.batch with
      | none => rfl
      | some b => exact absurd (this.trans (by rw [hb]; rfl)) hf
    refine ⟨_, if_neg hf, ?_, ?_, hends _, fun _ => rfl⟩
    · refine ⟨h.endLe, h.length, ?_, ?_, ?_, h.flushing, h.inBatch, h.alone, nofun,
        fun hcl => Or.inr (hclosing hcl)⟩
      · intro c hc
        obtain hc | hc := List.mem_append.mp hc
        · exact h.chunks c hc
        · obtain rfl := List.mem_singleton.mp hc
          exact hchunk
      · show s.written = bytesOf (s.received ++ [chunk]) ++ next.bytes ++ s.buf.take s.end
        rw [bytesOf_append, h.content]
        simp only [List.append_assoc]
      · show s.puts + 1 = 1 + if s.batch = some .putting then 1 else 0
        rw [h.puts]
        omega
    · rintro c ⟨⟩
      exact ⟨by cases next <;> exact hnext, rfl, hbatch⟩

/-- The buffer is filled or sent. -/
theorem Base.withBuffer {n e : Nat} {rest rest' buf written : List α} (h : Base s n rest)
    (hle : e ≤ s.size) (hlen : buf.length = s.size ∨ buf = [] ∧ e = 0)
    (hcontent : written = bytesOf s.received ++ rest' ++ buf.take e)
    (hclosing : s.closing = true → e = 0) :
    Base { s with
      buf
      «end» := e
      written } n rest' :=
  ⟨hle, hlen, h.chunks, hcontent, h.puts, h.flushing, h.inBatch, h.alone, h.due,
    fun hc => Or.inr (hclosing hc)⟩

/-- A chunk of the size of the stream. -/
theorem Chunk.ok_of_length {size : Nat} {trim byFlush : Bool} {bytes : List α} (hsize : 0 < size)
    (h : bytes.length = size) : (⟨bytes, byFlush⟩ : Chunk α).Ok size trim := by
  refine ⟨?_, fun _ => Nat.le_of_eq h, fun _ _ => h⟩
  show bytes ≠ []
  rintro rfl
  exact absurd h (Nat.ne_of_lt hsize)

/-- What is copied to the end of a buffer fills it. -/
theorem copyTo_fill {out bytes : List α} {pos : Nat} (h : pos + bytes.length = out.length) :
    copyTo out pos bytes = out.take pos ++ bytes := by
  rw [copyTo, h, List.drop_length, List.append_nil]

section Write

variable [Inhabited α]

theorem splitRound_inv {buf : List α} (h : Base s 0 buf) (hsize : 0 < s.size) (hend : s.end = 0)
    (hopen : s.closing = false) (hc : s.closed = false) :
    ∃ t, s.splitRound buf = .ok t ∧ Inv t := by
  have hcontent := h.content
  rw [hend, List.take_zero, List.append_nil] at hcontent
  unfold splitRound
  by_cases hlt : buf.length < s.size
  · have hle : 0 + buf.length ≤ (if s.buf.isEmpty then allocate s.size else s.buf).length := by
      rw [h.buffer.1, Nat.zero_add]
      exact Nat.le_of_lt hlt
    have htake := take_copyTo hle
    rw [Nat.zero_add] at htake
    refine ⟨_, if_pos hlt, resolved_inv (h.withBuffer (Nat.le_of_lt hlt) (Or.inl ?_) ?_ ?_) hc⟩
    · rw [length_copyTo hle]
      exact h.buffer.1
    · rw [htake, hcontent, List.append_nil]
      rfl
    · intro hcl
      exact absurd hcl (by rw [hopen]; decide)
  · rw [if_neg hlt]
    have hlen : (buf.take s.size).length = s.size := List.length_take_of_le (Nat.le_of_not_lt hlt)
    refine put_inv ?_ (Chunk.ok_of_length hsize hlen) ⟨hend, hsize, hopen⟩ hc fun _ => hend
    show Base s 0 (buf.take s.size ++ buf.drop s.size)
    rw [List.take_append_drop]
    exact h

theorem splitAndPut_inv {buf : List α} (h : Base s 0 buf) (hsize : 0 < s.size) (hend : s.end = 0)
    (hopen : s.closing = false) (hc : s.closed = false) :
    ∃ t, s.splitAndPut buf = .ok t ∧ Inv t := by
  unfold splitAndPut
  rw [if_pos hend]
  exact splitRound_inv h hsize hend hopen hc

theorem putTmp_inv {tmp : List α} (h : Base s 0 tmp) (hend : s.end = 0)
    (hsized : 0 < s.size ∨ s.trimToSize = false) (htmp : tmp ≠ [])
    (hopen : s.closing = false) (hc : s.closed = false) : ∃ t, s.putTmp tmp = .ok t ∧ Inv t := by
  unfold putTmp
  cases htrim : s.trimToSize with
  | true =>
    have hsize := hsized.resolve_right (by rw [htrim]; decide)
    exact splitAndPut_inv h hsize hend hopen hc
  | false =>
    refine put_inv ?_ ⟨htmp, ?_, ?_⟩ trivial hc fun _ => hend
    · show Base s 0 (tmp ++ [])
      rw [List.append_nil]
      exact h
    · exact fun h => absurd h (by rw [htrim]; decide)
    · exact fun h => absurd h (by rw [htrim]; decide)

theorem writeBulk_inv {bytes : List α} (h : Base s 0 [])
    (hsized : 0 < s.size ∨ s.trimToSize = false) (hne : bytes ≠ [])
    (hn : (if s.end ≠ 0 then 2 * s.size - s.end else s.size) ≤ bytes.length)
    (hopen : s.closing = false) (hc : s.closed = false) :
    ∃ t, { s with written := s.written ++ bytes }.writeBulk bytes = .ok t ∧ Inv t := by
  have hnot : ∀ {n : Nat}, s.closing = true → n = 0 := fun hcl =>
    absurd hcl (by rw [hopen]; decide)
  have hcontent : s.written = bytesOf s.received ++ s.buf.take s.end := by
    rw [h.content, List.append_nil]
  unfold writeBulk
  by_cases hend : s.end = 0
  · rw [if_neg (not_not_intro hend)]
    rw [hend, List.take_zero, List.append_nil] at hcontent
    refine putTmp_inv (h.withBuffer h.endLe h.length ?_ hnot) hend hsized hne hopen hc
    rw [hcontent, hend, List.take_zero, List.append_nil]
  · rw [if_pos hend] at hn ⊢
    have hle := h.endLe
    have hlen : s.buf.length = s.size := h.length.resolve_right fun hc => hend hc.2
    have htake : (bytes.take (s.size - s.end)).length = s.size - s.end :=
      List.length_take_of_le (by omega)
    have hcopy : s.end + (bytes.take (s.size - s.end)).length = s.buf.length := by
      rw [htake, hlen, Nat.add_sub_cancel' hle]
    have hfull : (copyTo s.buf s.end (bytes.take (s.size - s.end))).length = s.size :=
      (length_copyTo (Nat.le_of_eq hcopy)).trans hlen
    have hsize : 0 < s.size := Nat.lt_of_lt_of_le (Nat.pos_of_ne_zero hend) hle
    have hnext : ∀ next : Next α, next.bytes = bytes.drop (s.size - s.end) →
        next.Ok { s with
          buf := []
          «end» := 0
          written := s.written ++ bytes } →
        ∃ t, OutputStream.put
          ⟨(copyTo s.buf s.end (bytes.take (s.size - s.end))).take s.size, false⟩ next
          { s with
            buf := []
            «end» := 0
            written := s.written ++ bytes } = .ok t ∧ Inv t := by
      intro next hbytes hok
      refine put_inv ?_ (Chunk.ok_of_length hsize ?_) hok hc fun _ => rfl
      · refine h.withBuffer (Nat.zero_le s.size) (Or.inr ⟨rfl, rfl⟩) ?_ hnot
        rw [List.take_of_length_le (Nat.le_of_eq hfull), copyTo_fill hcopy, hbytes, hcontent]
        simp
      · rw [List.length_take, hfull, Nat.min_self]
    have hrest : bytes.drop (s.size - s.end) ≠ [] := by
      rw [← List.length_pos_iff, List.length_drop]
      omega
    refine hnext _ ?_ ?_
    · cases s.trimToSize <;> rfl
    · cases s.trimToSize with
      | true => exact ⟨rfl, hsize, hopen⟩
      | false => exact ⟨rfl, rfl, hrest⟩

theorem writeBuffered_inv {bytes : List α} (h : Base s 0 [])
    (hn : bytes.length < if s.end ≠ 0 then 2 * s.size - s.end else s.size)
    (hopen : s.closing = false) (hc : s.closed = false) :
    ∃ t, { s with written := s.written ++ bytes }.writeBuffered bytes = .ok t ∧ Inv t := by
  have hnot : ∀ {n : Nat}, s.closing = true → n = 0 := fun hcl =>
    absurd hcl (by rw [hopen]; decide)
  have hcontent : s.written = bytesOf s.received ++ s.buf.take s.end := by
    rw [h.content, List.append_nil]
  have hle := h.endLe
  obtain ⟨hlen, htake⟩ := h.buffer
  have hbound : bytes.length < 2 * s.size - s.end := by
    split at hn
    · exact hn
    · rename_i hend
      rw [not_not.mp hend]
      omega
  unfold writeBuffered
  dsimp only
  generalize (if s.buf.isEmpty then allocate s.size else s.buf) = buf at hlen htake
  by_cases hfit : bytes.length ≤ s.size - s.end
  · have hmin : min bytes.length (s.size - s.end) = bytes.length := Nat.min_eq_left hfit
    rw [hmin, List.take_length]
    have hcopy : s.end + bytes.length ≤ buf.length := by omega
    refine ⟨_, if_pos rfl, resolved_inv (h.withBuffer (by omega) (Or.inl ?_) ?_ hnot) hc⟩
    · exact (length_copyTo hcopy).trans hlen
    · rw [take_copyTo hcopy, htake, hcontent]
      simp
  · have hmin : min bytes.length (s.size - s.end) = s.size - s.end :=
      Nat.min_eq_right (Nat.le_of_not_le hfit)
    rw [hmin, if_neg (by omega)]
    have htaken : (bytes.take (s.size - s.end)).length = s.size - s.end :=
      List.length_take_of_le (Nat.le_of_not_le hfit)
    have hrest : (bytes.drop (s.size - s.end)).length = bytes.length - (s.size - s.end) :=
      List.length_drop
    have hcopy : s.end + (bytes.take (s.size - s.end)).length = buf.length := by
      rw [htaken, hlen, Nat.add_sub_cancel' hle]
    have hnext : 0 + (bytes.drop (s.size - s.end)).length ≤ (allocate (α := α) s.size).length := by
      rw [hrest, allocate, List.length_replicate]
      omega
    refine put_inv (h.withBuffer (by omega) (Or.inl ?_) ?_ hnot) (Chunk.ok_of_length ?_ ?_) trivial hc
      hnot
    · rw [length_copyTo hnext, allocate, List.length_replicate]
    · have hheld := take_copyTo hnext
      rw [Nat.zero_add, hrest] at hheld
      rw [copyTo_fill hcopy, hheld, htake, hcontent]
      simp [Next.bytes]
    · show 0 < s.size
      omega
    · exact (length_copyTo (Nat.le_of_eq hcopy)).trans hlen

theorem write_inv {bytes : List α} (h : Base s 0 [])
    (hsized : 0 < s.size ∨ (s.trimToSize = false ∧ bytes ≠ []))
    (hopen : s.closing = false) (hc : s.closed = false) :
    ∃ t, { s with written := s.written ++ bytes }.write bytes = .ok t ∧ Inv t := by
  unfold OutputStream.write
  dsimp only
  by_cases hn : (if s.end ≠ 0 then 2 * s.size - s.end else s.size) ≤ bytes.length
  · rw [if_pos hn]
    refine writeBulk_inv h (hsized.imp_right And.left) ?_ hn hopen hc
    obtain hsize | ⟨-, hne⟩ := hsized
    · rintro rfl
      have hle := h.endLe
      split at hn
      · exact absurd hn (by rw [List.length_nil]; omega)
      · exact absurd hn (by rw [List.length_nil]; omega)
    · exact hne
  · rw [if_neg hn]
    exact writeBuffered_inv h (Nat.lt_of_not_le hn) hopen hc

end Write

/-- What a flush sends. -/
theorem Base.chunk {n : Nat} {rest : List α} (h : Base s n rest) (hend : s.end ≠ 0) :
    (⟨s.buf.take s.end, true⟩ : Chunk α).Ok s.size s.trimToSize := by
  have hlen : (s.buf.take s.end).length = s.end := by
    refine List.length_take_of_le ?_
    rw [h.length.resolve_right fun hc => hend hc.2]
    exact h.endLe
  refine ⟨?_, fun _ => ?_, nofun⟩
  · show s.buf.take s.end ≠ []
    rw [← List.length_pos_iff, hlen]
    exact Nat.pos_of_ne_zero hend
  · show (s.buf.take s.end).length ≤ s.size
    rw [hlen]
    exact h.endLe

/-- A flush, by itself or of a `close`. -/
theorem flush_inv (h : Base s 0 []) (hc : s.closed = false) (b : Bool) :
    ∃ t, { s with closing := b }.flush = .ok t ∧ Inv t := by
  have hcontent : s.written = bytesOf s.received ++ s.buf.take s.end := by
    rw [h.content, List.append_nil]
  unfold OutputStream.flush
  dsimp only
  cases s.batchFlushes with
  | false =>
    rw [if_pos (by decide)]
    by_cases hend : s.end = 0
    · rw [if_neg (not_not_intro hend)]
      exact ⟨_, rfl, resolved_inv ⟨h.endLe, h.length, h.chunks, h.content, h.puts, h.flushing, h.inBatch,
        h.alone, h.due, fun _ => Or.inr hend⟩ hc⟩
    · rw [if_pos hend]
      refine put_inv ⟨Nat.zero_le s.size, Or.inr ⟨rfl, rfl⟩, h.chunks, ?_, h.puts, h.flushing,
        h.inBatch, h.alone, h.due, fun _ => Or.inr rfl⟩ (h.chunk hend) trivial hc fun _ => rfl
      rw [hcontent]
      simp [Next.bytes]
  | true =>
    rw [if_neg (by decide)]
    split
    · rename_i hb
      exact ⟨_, rfl, resolved_inv ⟨h.endLe, h.length, h.chunks, h.content, h.puts, h.flushing, h.inBatch,
        h.alone, fun _ => hb, fun _ => Or.inl rfl⟩ hc⟩
    · rename_i hb
      have hidle : s.polled = false ∧ s.batch.isSome = false := by
        have hin := h.inBatch
        rw [Bool.not_eq_true _ |>.mp hb] at hin
        exact Bool.or_eq_false_iff.mp hin.symm
      exact ⟨_, rfl, resolved_inv ⟨h.endLe, h.length, h.chunks, h.content, h.puts, h.flushing, rfl,
        fun _ => Option.isSome_eq_false_iff.mp hidle.2 |> Option.isNone_iff_eq_none.mp,
        fun _ => rfl, fun _ => Or.inl rfl⟩ hc⟩

/-- No flush is due while the caller has something to put. -/
theorem Inv.caller_of_due (h : Inv s) (hd : s.flushDue = true) :
    s.caller = none ∨ s.caller = some .flushing ∨ s.caller = some (.closing false) := by
  have hdue : ¬ s.flushDue = false := by
    rw [hd]
    decide
  cases hcaller : s.caller with
  | none => exact Or.inl rfl
  | some c =>
    have hok := h.waits c hcaller
    cases c with
    | waiting chunk next ready => exact absurd hok.2.2.1 hdue
    | putting next => exact absurd hok.2.1 hdue
    | flushing => exact Or.inr (Or.inl rfl)
    | closing ready =>
      cases ready with
      | false => exact Or.inr (Or.inr rfl)
      | true => exact absurd (hok.2.2 rfl) hdue

theorem Caller.bytes_resolve (c : Caller α) : c.resolve.bytes = c.bytes := by
  cases c <;> rfl

theorem Caller.puts_resolve (c : Caller α) : c.resolve.puts = c.puts := by
  cases c <;> rfl

theorem pollFlush_inv (h : Inv s) (hin : s.inBatch = true) (hputs : s.batch ≠ some .putting) :
    ∃ t, { s with polled := false }.pollFlush = .ok t ∧ Inv t := by
  have hbase := h.base
  have hzero : s.puts = s.callerPuts := by
    rw [hbase.puts, if_neg hputs]
    rfl
  unfold pollFlush
  dsimp only
  by_cases hd : s.flushDue = false
  · have hnot : (!s.flushDue) = true := by
      rw [hd]
      rfl
    rw [if_pos hnot, if_pos hin]
    refine ⟨_, rfl, ⟨hbase.endLe, hbase.length, hbase.chunks, ?_, ?_, rfl, rfl, nofun,
      fun hdue => absurd hdue (Bool.eq_false_iff.mp hd), hbase.drained⟩, ?_, ?_, fun _ => hd⟩
    · rw [hbase.content]
      unfold callerBytes
      cases s.caller with
      | none => rfl
      | some c =>
        show _ = bytesOf s.received ++ c.resolve.bytes ++ s.buf.take s.end
        rw [c.bytes_resolve]
        rfl
    · show s.puts = _
      rw [hzero]
      unfold callerPuts
      cases s.caller with
      | none => rfl
      | some c => exact c.puts_resolve.symm
    · intro c hc
      obtain ⟨d, hd', rfl⟩ := Option.map_eq_some_iff.mp hc
      have hok := h.waits d hd'
      cases d with
      | waiting chunk next ready => exact ⟨hok.1, by cases next <;> exact hok.2.1, hok.2.2.1, rfl⟩
      | putting next => exact ⟨by cases next <;> exact hok.1, hok.2.1, rfl⟩
      | flushing => trivial
      | closing ready => exact ⟨hok.1, nofun, fun _ => hd⟩
    · show s.closed = true ↔ s.closing = true ∧ s.caller.map Caller.resolve = none
      rw [Option.map_eq_none_iff]
      exact h.ends
  · have hd : s.flushDue = true := Bool.of_not_eq_false hd
    have hnot : ¬ (!s.flushDue) = true := by
      rw [hd]
      decide
    have hcaller := h.caller_of_due hd
    have hbytes : s.callerBytes = [] := by
      unfold callerBytes
      obtain h | h | h := hcaller <;> rw [h] <;> rfl
    have hnone : s.callerPuts = 0 := by
      unfold callerPuts
      obtain h | h | h := hcaller <;> rw [h] <;> rfl
    have hcontent := hbase.content
    rw [hbytes, List.append_nil] at hcontent
    have hwaits : ∀ {t : OutputStream α}, t.caller = s.caller → t.closing = s.closing →
        t.inBatch = true → ∀ c, t.caller = some c → c.Ok t := by
      intro t htc htcl htin c hc
      rw [htc] at hc
      have hok := h.waits c hc
      obtain h | h | h := hcaller
      · exact absurd (h.symm.trans hc) nofun
      · obtain rfl := Option.some.inj (h.symm.trans hc)
        trivial
      · obtain rfl := Option.some.inj (h.symm.trans hc)
        exact ⟨htcl.trans hok.1, fun _ => htin, nofun⟩
    rw [if_neg hnot]
    by_cases hend : s.end = 0
    · rw [if_neg (not_not_intro hend)]
      refine ⟨_, rfl, ⟨hbase.endLe, hbase.length, hbase.chunks, hbase.content, hzero, rfl, hin, nofun, nofun,
        fun _ => Or.inr hend⟩, hwaits rfl rfl hin, h.ends, fun _ => rfl⟩
    · rw [if_pos hend]
      refine ⟨_, rfl, ⟨Nat.zero_le s.size, Or.inr ⟨rfl, rfl⟩, ?_, ?_, ?_, rfl, hin, nofun, nofun,
        fun _ => Or.inr rfl⟩, hwaits rfl rfl hin, h.ends, fun _ => rfl⟩
      · intro c hc
        obtain hc | hc := List.mem_append.mp hc
        · exact hbase.chunks c hc
        · obtain rfl := List.mem_singleton.mp hc
          exact hbase.chunk hend
      · show s.written = bytesOf (s.received ++ [⟨s.buf.take s.end, true⟩]) ++ s.callerBytes ++ [].take 0
        rw [bytesOf_append, hcontent, hbytes]
        simp
      · show s.puts + 1 = s.callerPuts + 1
        rw [hzero]

/-- The sink is not closed while the caller waits. -/
theorem Inv.open_of_caller (h : Inv s) {c : Caller α} (hc : s.caller = some c) :
    s.closed = false := by
  cases hclosed : s.closed with
  | false => rfl
  | true =>
    have hnone := (h.ends.mp hclosed).2
    rw [hc] at hnone
    exact absurd hnone nofun

/-- The caller's bytes and puts are those of what it waits for. -/
theorem Inv.base_of_caller (h : Inv s) {c : Caller α} (hc : s.caller = some c) :
    Base s c.puts c.bytes := by
  have hbase := h.base
  rw [callerPuts, callerBytes, hc] at hbase
  exact hbase

section Step

variable [Inhabited α]

theorem goOn_inv {next : Next α} (h : Base s 0 next.bytes) (hok : next.Ok s)
    (hc : s.closed = false) : ∃ t, s.goOn next = .ok t ∧ Inv t := by
  cases next with
  | done => exact ⟨_, rfl, resolved_inv h hc⟩
  | put tmp =>
    obtain ⟨hend, htrim, hne⟩ := hok
    have hnot : ¬ s.trimToSize = true := Bool.eq_false_iff.mp htrim
    refine put_inv ?_ ⟨hne, fun h => absurd h hnot, fun h => absurd h hnot⟩ trivial hc fun _ => hend
    show Base s 0 (tmp ++ [])
    rw [List.append_nil]
    exact h
  | splitAndPut tmp => exact splitAndPut_inv h hok.2.1 hok.1 hok.2.2 hc
  | splitRound buf => exact splitRound_inv h hok.2.1 hok.1 hok.2.2 hc
  | flush =>
    refine ⟨_, rfl, h.withCaller (some .flushing) s.closed, ?_, ?_, ?_⟩
    · rintro c ⟨⟩
      trivial
    · show s.closed = true ↔ s.closing = true ∧ some Caller.flushing = none
      simp [hc]
    · exact fun hclosed => absurd hclosed (Bool.eq_false_iff.mp hc)

theorem call_inv (h : Inv s) (c : Call α) (hsized : Sized s (.call c)) (hcaller : s.caller = none)
    (hopen : s.closing = false) : ∃ t, s.call c = .ok t ∧ Inv t := by
  have hbase := h.base
  rw [callerPuts, callerBytes, hcaller] at hbase
  have hc : s.closed = false := by
    cases hclosed : s.closed with
    | false => rfl
    | true => exact absurd (h.ends.mp hclosed).1 (Bool.eq_false_iff.mp hopen)
  cases c with
  | write bytes => exact write_inv hbase hsized hopen hc
  | flush => exact flush_inv hbase hc s.closing
  | close => exact flush_inv hbase hc true

theorem put_step_inv (h : Inv s) : ∃ t, s.step .put = .ok t ∧ Inv t := by
  unfold step
  dsimp only
  split
  · rename_i next hcaller
    have hbase := h.base_of_caller hcaller
    obtain ⟨hok, hdue, hbatch⟩ := h.waits _ hcaller
    refine goOn_inv ⟨hbase.endLe, hbase.length, hbase.chunks, hbase.content, ?_, hbase.flushing,
      hbase.inBatch, hbase.alone, hbase.due, hbase.drained⟩ ?_ (h.open_of_caller hcaller)
    · have hputs := hbase.puts
      show s.puts - 1 = 0 + if s.batch = some .putting then 1 else 0
      rw [hputs, hbatch]
      rfl
    · cases next <;> exact hok
  · exact ⟨s, rfl, h⟩

theorem resume_inv (h : Inv s) : ∃ t, s.step .resume = .ok t ∧ Inv t := by
  unfold step
  dsimp only
  split
  · rename_i chunk next hcaller
    have hbase := h.base_of_caller hcaller
    obtain ⟨hchunk, hok, hdue, hbatch⟩ := h.waits _ hcaller
    have hnone : s.batch = none := Option.isNone_iff_eq_none.mp (Option.isSome_eq_false_iff.mp hbatch)
    refine ⟨_, rfl, ⟨hbase.endLe, hbase.length, ?_, ?_, ?_, hbase.flushing, hbase.inBatch,
      hbase.alone, hbase.due, hbase.drained⟩, ?_, ?_, fun _ => hdue⟩
    · intro c hc
      obtain hc | hc := List.mem_append.mp hc
      · exact hbase.chunks c hc
      · obtain rfl := List.mem_singleton.mp hc
        exact hchunk
    · show s.written = bytesOf (s.received ++ [chunk]) ++ next.bytes ++ s.buf.take s.end
      rw [bytesOf_append, hbase.content, Caller.bytes]
      simp only [List.append_assoc]
    · show s.puts + 1 = 1 + if s.batch = some .putting then 1 else 0
      rw [hbase.puts, hnone]
      rfl
    · rintro c ⟨⟩
      exact ⟨by cases next <;> exact hok, hdue, hnone⟩
    · show s.closed = true ↔ s.closing = true ∧ some (Caller.putting next) = none
      simp [h.open_of_caller hcaller]
  · rename_i hcaller
    have hbase := h.base_of_caller hcaller
    obtain ⟨hclosing, -, hdue⟩ := h.waits _ hcaller
    refine ⟨_, rfl, hbase.withCaller none true, nofun, ?_, fun _ => hdue rfl⟩
    show true = true ↔ s.closing = true ∧ none = none
    simp [hclosing]
  · exact ⟨s, rfl, h⟩

theorem batchPut_inv (h : Inv s) : ∃ t, s.step .batchPut = .ok t ∧ Inv t := by
  have hbase := h.base
  unfold step
  dsimp only
  split
  · rename_i hbatch
    have hputs := hbase.puts
    have hflushing := hbase.flushing
    have hin := hbase.inBatch
    have halone := hbase.alone
    rw [if_pos hbatch] at hputs
    rw [hbatch] at hflushing hin halone
    refine ⟨_, rfl, ⟨hbase.endLe, hbase.length, hbase.chunks, hbase.content, ?_, hflushing, hin,
      fun hp => absurd (halone hp) nofun, hbase.due, hbase.drained⟩, ?_, h.ends, h.settled⟩
    · show s.puts - 1 = s.callerPuts
      rw [hputs]
      rfl
    · intro c hc
      have hok := h.waits c hc
      cases c with
      | waiting chunk next ready =>
        obtain ⟨hchunk, hnext, hdue, hready⟩ := hok
        rw [hbatch] at hready
        exact ⟨hchunk, by cases next <;> exact hnext, hdue, hready⟩
      | putting next => exact absurd (hbatch.symm.trans hok.2.2) nofun
      | flushing => trivial
      | closing ready => exact hok
  · exact ⟨s, rfl, h⟩

/-- One action keeps the invariant. -/
theorem step_inv (h : Inv s) (a : Action α) (hsized : Sized s a) :
    ∃ t, s.step a = .ok t ∧ Inv t := by
  have hbase := h.base
  cases a with
  | call c =>
    unfold step
    dsimp only
    split
    · rename_i hidle
      have hidle : s.caller = none ∧ s.closing = false := by simpa using hidle
      exact call_inv h c hsized hidle.1 hidle.2
    · exact ⟨s, rfl, h⟩
  | poll =>
    unfold step
    dsimp only
    split
    · rename_i hp
      refine pollFlush_inv h ?_ ?_
      · rw [hbase.inBatch, hp, Bool.true_or]
      · rw [hbase.alone hp]
        exact nofun
    · exact ⟨s, rfl, h⟩
  | batchPut => exact batchPut_inv h
  | batchFlushed =>
    unfold step
    dsimp only
    split
    · rename_i hbatch
      have hp : s.polled = false := by
        cases hp : s.polled with
        | false => rfl
        | true => exact absurd (hbatch.symm.trans (hbase.alone hp)) nofun
      have heq : s = { s with polled := false } := by
        rw [← hp]
      rw [heq]
      refine pollFlush_inv h ?_ ?_
      · rw [hbase.inBatch, hbatch]
        exact Bool.or_true s.polled
      · rw [hbatch]
        decide
    · exact ⟨s, rfl, h⟩
  | put => exact put_step_inv h
  | flushed =>
    unfold step
    dsimp only
    split
    · rename_i hcaller
      exact ⟨_, rfl, resolved_inv (h.base_of_caller hcaller) (h.open_of_caller hcaller)⟩
    · exact ⟨s, rfl, h⟩
  | resume => exact resume_inv h

end Step

/-- A new stream. -/
def init (size : Nat) (trimToSize batchFlushes : Bool) : OutputStream α :=
  { size, trimToSize, batchFlushes }

theorem init_inv (size : Nat) (trimToSize batchFlushes : Bool) :
    Inv (init size trimToSize batchFlushes : OutputStream α) where
  base := ⟨Nat.zero_le size, Or.inr ⟨rfl, rfl⟩, nofun, rfl, rfl, rfl, rfl, nofun, nofun, nofun⟩
  waits := nofun
  ends := ⟨nofun, fun h => absurd h.1 nofun⟩
  settled := nofun

/-! ## Every operation ends

A bound on the internal actions there are before the caller's future resolves. -/

/-- The actions until an operation with this rest resolves, and the sink is closed. -/
def Next.work : Next α → Nat
  | .done => 3
  | .put _ => 7
  | .splitAndPut tmp => 4 + 4 * tmp.length
  | .splitRound buf => 4 + 4 * buf.length
  | .flush => 5

def Caller.work : Caller α → Nat
  | .waiting _ next ready => next.work + if ready then 2 else 3
  | .putting next => next.work + 1
  | .flushing => 4
  | .closing ready => if ready then 1 else 2

def Batch.work : Batch → Nat
  | .putting => 2
  | .flushing => 1

def callerWork (s : OutputStream α) : Nat := s.caller.elim 0 Caller.work

/-- The actions of the batched flush. -/
def batchWork (s : OutputStream α) : Nat :=
  s.batch.elim 0 Batch.work + (if s.polled then 1 else 0) + if s.flushDue then 2 else 0

def work (s : OutputStream α) : Nat := s.callerWork + s.batchWork

theorem Caller.work_resolve (c : Caller α) : c.resolve.work ≤ c.work := by
  cases c with
  | waiting chunk next ready => cases ready <;> simp [Caller.resolve, Caller.work]
  | closing ready => cases ready <;> simp [Caller.resolve, Caller.work]
  | _ => exact Nat.le_refl _

theorem work_resolved : s.resolved.work ≤ 2 + s.batchWork := by
  unfold resolved
  split
  · split
    · exact Nat.le_refl _
    · exact Nat.add_le_add_right (Nat.zero_le 2) s.batchWork
  · exact Nat.add_le_add_right (Nat.zero_le 2) s.batchWork

/-- A put makes no batched flush due. -/
theorem work_put {chunk : Chunk α} {next : Next α} (h : s.put chunk next = .ok t) :
    t.work ≤ next.work + 3 + s.batchWork := by
  have hdue : s.batch.elim 0 Batch.work + (if s.polled then 1 else 0) + 0 ≤ s.batchWork :=
    Nat.add_le_add_left (Nat.zero_le _) _
  unfold OutputStream.put at h
  dsimp only at h
  split at h
  · split at h
    · obtain rfl := Except.ok.inj h
      exact Nat.add_le_add (Nat.le_refl (next.work + 3)) hdue
    · exact absurd h nofun
  · obtain rfl := Except.ok.inj h
    exact Nat.add_le_add (Nat.add_le_add_left (by decide : 1 ≤ 3) next.work) hdue

section Write

variable [Inhabited α]

theorem work_splitRound {buf : List α} (hsize : 0 < s.size) (h : s.splitRound buf = .ok t) :
    t.work ≤ 4 + 4 * buf.length + s.batchWork := by
  unfold splitRound at h
  split at h
  · obtain rfl := Except.ok.inj h
    refine Nat.le_trans work_resolved (Nat.add_le_add_right ?_ s.batchWork)
    exact Nat.le_trans (by decide : 2 ≤ 4) (Nat.le_add_right 4 _)
  · have hwork := work_put h
    simp only [Next.work, List.length_drop] at hwork
    omega

theorem work_goOn {next : Next α} (hok : next.Ok s) (h : s.goOn next = .ok t) :
    t.work ≤ next.work + s.batchWork := by
  cases next with
  | done =>
    obtain rfl := Except.ok.inj h
    exact Nat.le_trans work_resolved (Nat.add_le_add_right (by decide : 2 ≤ 3) s.batchWork)
  | put tmp => exact Nat.le_trans (work_put h) (Nat.add_le_add_right (by decide : 6 ≤ 7) s.batchWork)
  | splitAndPut tmp =>
    obtain ⟨hend, hsize, -⟩ := hok
    refine work_splitRound hsize ?_
    rw [← h]
    exact (if_pos hend).symm
  | splitRound buf => exact work_splitRound hok.2.1 h
  | flush =>
    obtain rfl := Except.ok.inj h
    exact Nat.add_le_add_right (by decide : 4 ≤ 5) s.batchWork

end Write

theorem work_pollFlush (hsome : s.polled = true ∨ s.batch = some .flushing)
    (h : { s with polled := false }.pollFlush = .ok t) : t.work < s.work := by
  have hbatch : 1 + (if s.flushDue then 2 else 0) ≤ s.batchWork := by
    unfold batchWork
    refine Nat.add_le_add_right ?_ _
    obtain hp | hb := hsome
    · rw [hp]
      exact Nat.le_add_left 1 _
    · rw [hb]
      exact Nat.le_add_right 1 _
  unfold pollFlush at h
  dsimp only at h
  by_cases hd : s.flushDue = true
  · rw [hd] at hbatch
    have hnot : ¬ (!s.flushDue) = true := by
      rw [hd]
      decide
    rw [if_neg hnot] at h
    split at h
    · obtain rfl := Except.ok.inj h
      exact Nat.add_lt_add_left (Nat.lt_of_lt_of_le (by decide : 2 < 3) hbatch) s.callerWork
    · obtain rfl := Except.ok.inj h
      exact Nat.add_lt_add_left (Nat.lt_of_lt_of_le (by decide : 1 < 3) hbatch) s.callerWork
  · have hd : s.flushDue = false := Bool.eq_false_iff.mpr hd
    rw [hd] at hbatch
    have hnot : (!s.flushDue) = true := by
      rw [hd]
      rfl
    rw [if_pos hnot] at h
    split at h
    · obtain rfl := Except.ok.inj h
      show (s.caller.map Caller.resolve).elim 0 Caller.work +
        (0 + 0 + if s.flushDue then 2 else 0) < s.work
      have hcaller : (s.caller.map Caller.resolve).elim 0 Caller.work ≤ s.callerWork := by
        unfold callerWork
        cases s.caller with
        | none => exact Nat.le_refl 0
        | some c => exact c.work_resolve
      rw [hd]
      exact Nat.add_lt_add_of_le_of_lt hcaller hbatch
    · exact absurd h nofun

section Step

variable [Inhabited α]

/-- A batched flush goes on. -/
theorem Inv.batch_progress (h : Inv s) (hin : s.inBatch = true) :
    ∃ a : Action α, a.Internal ∧ ∃ t, s.step a = .ok t ∧ Inv t ∧ t.work < s.work := by
  have hbase := h.base
  cases hp : s.polled with
  | true =>
    obtain ⟨t, ht, hinv⟩ := step_inv h .poll trivial
    refine ⟨.poll, trivial, t, ht, hinv, ?_⟩
    refine work_pollFlush (Or.inl hp) ?_
    rw [← ht]
    exact (if_pos hp).symm
  | false =>
    cases hb : s.batch with
    | none =>
      rw [hbase.inBatch, hp, hb] at hin
      exact absurd hin (by decide)
    | some b =>
      cases b with
      | putting =>
        obtain ⟨t, ht, hinv⟩ := step_inv h .batchPut trivial
        refine ⟨.batchPut, trivial, t, ht, hinv, ?_⟩
        have heq : s.step .batchPut = .ok { s with
            batch := some .flushing
            puts := s.puts - 1 } := if_pos hb
        obtain rfl := Except.ok.inj (heq.symm.trans ht)
        refine Nat.add_lt_add_left ?_ s.callerWork
        unfold batchWork
        rw [hb]
        exact Nat.add_lt_add_right (Nat.add_lt_add_right (by decide : 1 < 2) _) _
      | flushing =>
        obtain ⟨t, ht, hinv⟩ := step_inv h .batchFlushed trivial
        refine ⟨.batchFlushed, trivial, t, ht, hinv, ?_⟩
        have heq : s.step .batchFlushed = { s with polled := false }.pollFlush := by
          rw [← hp]
          exact if_pos hb
        exact work_pollFlush (Or.inr hb) (heq ▸ ht)

/-- While the caller waits, something can happen that brings it closer to its end. -/
theorem Inv.progress (h : Inv s) (hcaller : s.caller ≠ none) :
    ∃ a : Action α, a.Internal ∧ ∃ t, s.step a = .ok t ∧ Inv t ∧ t.work < s.work := by
  obtain ⟨c, hc⟩ := Option.ne_none_iff_exists'.mp hcaller
  have hok := h.waits c hc
  have hwork : s.work = c.work + s.batchWork := by
    unfold work callerWork
    rw [hc]
    rfl
  cases c with
  | waiting chunk next ready =>
    obtain ⟨-, -, -, hbatch⟩ := hok
    cases ready with
    | false =>
      refine h.batch_progress ?_
      rw [h.base.inBatch, hbatch]
      exact Bool.or_true s.polled
    | true =>
      obtain ⟨t, ht, hinv⟩ := step_inv h .resume trivial
      refine ⟨.resume, trivial, t, ht, hinv, ?_⟩
      have heq : s.step .resume = .ok { s.fdPut chunk with caller := some (.putting next) } := by
        unfold step
        rw [hc]
      obtain rfl := Except.ok.inj (heq.symm.trans ht)
      rw [hwork]
      exact Nat.add_lt_add_right (Nat.lt_succ_self (next.work + 1)) s.batchWork
  | putting next =>
    obtain ⟨t, ht, hinv⟩ := step_inv h .put trivial
    refine ⟨.put, trivial, t, ht, hinv, ?_⟩
    have heq : s.step .put = { s with puts := s.puts - 1 }.goOn next := by
      unfold step
      rw [hc]
    have hle := work_goOn (by cases next <;> exact hok.1) (heq ▸ ht)
    rw [hwork]
    exact Nat.lt_of_le_of_lt hle (Nat.add_lt_add_right (Nat.lt_succ_self next.work) s.batchWork)
  | flushing =>
    obtain ⟨t, ht, hinv⟩ := step_inv h .flushed trivial
    refine ⟨.flushed, trivial, t, ht, hinv, ?_⟩
    have heq : s.step .flushed = .ok s.resolved := by
      unfold step
      rw [hc]
    obtain rfl := Except.ok.inj (heq.symm.trans ht)
    rw [hwork]
    exact Nat.lt_of_le_of_lt work_resolved (Nat.add_lt_add_right (by decide : 2 < 4) s.batchWork)
  | closing ready =>
    cases ready with
    | false => exact h.batch_progress (hok.2.1 rfl)
    | true =>
      obtain ⟨t, ht, hinv⟩ := step_inv h .resume trivial
      refine ⟨.resume, trivial, t, ht, hinv, ?_⟩
      have heq : s.step .resume = .ok { s with
          caller := none
          closed := true } := by
        unfold step
        rw [hc]
      obtain rfl := Except.ok.inj (heq.symm.trans ht)
      rw [hwork]
      exact Nat.add_lt_add_right (by decide : 0 < 1) s.batchWork

/-- Without further calls the caller's future resolves. -/
theorem Inv.resolves (h : Inv s) : ∃ as : List (Action α), (∀ a ∈ as, a.Internal) ∧
    ∃ t, s.run as = .ok t ∧ t.caller = none := by
  induction hw : s.work using Nat.strongRecOn generalizing s with
  | ind w ih =>
    by_cases hcaller : s.caller = none
    · exact ⟨[], nofun, s, rfl, hcaller⟩
    · obtain ⟨a, ha, t, ht, hinv, hlt⟩ := h.progress hcaller
      obtain ⟨as, has, u, hu, hnone⟩ := ih t.work (hw ▸ hlt) hinv rfl
      refine ⟨a :: as, ?_, u, Run.run_cons_ok.mpr ⟨t, ht, hu⟩, hnone⟩
      intro b hb
      obtain rfl | hb := List.mem_cons.mp hb
      · exact ha
      · exact has b hb

theorem Inv.delivers (h : Inv s) : Delivers s where
  inOrder := by
    rw [h.base.content, List.append_assoc]
    exact List.prefix_append _ _
  complete := by
    intro hclosed
    obtain ⟨hclosing, hcaller⟩ := h.ends.mp hclosed
    have hend : s.end = 0 :=
      (h.base.drained hclosing).resolve_left (Bool.eq_false_iff.mp (h.settled hclosed))
    rw [h.base.content, callerBytes, hcaller, hend]
    simp
  chunks := h.base.chunks
  exclusive := by
    rw [h.base.puts, callerPuts]
    cases hc : s.caller with
    | none =>
      show 0 + (if s.batch = some .putting then 1 else 0) ≤ 1
      split <;> decide
    | some c =>
      have hok := h.waits c hc
      cases c with
      | putting next =>
        rw [hok.2.2]
        exact Nat.le_refl 1
      | _ =>
        show 0 + (if s.batch = some .putting then 1 else 0) ≤ 1
        split <;> decide
  closes := fun hclosing hcaller => h.ends.mpr ⟨hclosing, hcaller⟩
  resolves := h.resolves

/-- A stream whose size is not 0 delivers what is written to it, in every order of the calls and of
what the sink and the reactor do. -/
theorem run_delivers (size : Nat) (trimToSize batchFlushes : Bool) (as : List (Action α))
    (hsized : Run.Along step Sized (init size trimToSize batchFlushes) as) :
    ∃ s, (init size trimToSize batchFlushes).run as = .ok s ∧ Delivers s := by
  obtain ⟨s, hr, hinv⟩ := Run.run_ok (fun _ a h hs => step_inv h a hs)
    (init_inv size trimToSize batchFlushes) hsized
  exact ⟨s, hr, hinv.delivers⟩

/-- With trimming and batching: a buffered write is flushed by the poller, another is split, and
the close sends what is left. -/
theorem run_delivers_trimmed :
    let as : List (Action Nat) := [.call (.write [1, 2]), .call .flush, .poll, .batchPut,
      .call (.write [3, 4, 5, 6, 7]), .batchFlushed, .resume, .put, .put, .call .close, .poll,
      .batchPut, .batchFlushed, .resume]
    ∃ s, (init 3 true true).run as = .ok s ∧ Delivers s :=
  run_delivers 3 true true _ (by decide)

/-- Without a buffer the sink is given an empty chunk, which it never should be. -/
theorem run_delivers_empty : ∃ s, (init 0 false false).run [.call (.write ([] : List Nat))] = .ok s ∧
    ⟨[], false⟩ ∈ s.received ∧ ¬ Delivers s := by
  refine ⟨_, rfl, List.mem_singleton.mpr rfl, fun h => ?_⟩
  exact (h.chunks ⟨[], false⟩ (List.mem_singleton.mpr rfl)).nonempty rfl

end Step

end OutputStream

end Seastar
