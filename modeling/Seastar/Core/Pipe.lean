import Seastar.Core.Queue
import Seastar.Lib.Run

/-!
`pipe` of `core/pipe.hh`: a bounded queue between a reader and a writer, either of which
may be destroyed or moved. The reader has room for one item that was given back to it.
Futures that wait have their continuation run later, in any order.
-/

namespace Seastar

open Lib

variable {T : Type}

/-- What the fibers at both ends of a pipe see. -/
inductive PipeEvent (T : Type)
  /-- a write that did not fail at once -/
  | wrote (x : T)
  /-- an `unread` that did not throw -/
  | gaveBack (x : T)
  /-- a `read` that had its result at once; without an item it is the end of stream -/
  | returned (r : Option T)
  /-- a `read` that has waited for its result -/
  | resumed (r : Option T)
  /-- a `read` that has waited for an exception -/
  | failed
  | closedRead
  | closedWrite
  deriving DecidableEq, Repr

/-- `pipe_buffer` and what is in `pipe_reader`, with the continuations that are to run: of a read,
and of a write with its data. -/
structure Pipe (T : Type) where
  buf : Queue (Option T)
  readOpen : Bool := true
  writeOpen : Bool := true
  unread_ : Option T := none
  reading : Bool := false
  writing : Option T := none
  /-- the buffer was deleted -/
  deleted : Bool := false
  /-- history -/
  log : List (PipeEvent T) := []
  deriving DecidableEq, Repr

namespace Pipe

/-- `pipe`. -/
def create (size : Nat) : Pipe T := { buf := { max := size } }

/-- Adds to the history. -/
def note (e : PipeEvent T) (p : Pipe T) : Pipe T := { p with log := p.log ++ [e] }

/-- `pipe_buffer::readable`. -/
def readable (p : Pipe T) : Bool := p.writeOpen || !p.buf.empty

/-- `pipe_buffer::writeable`. -/
def writeable (p : Pipe T) : Bool := p.readOpen

/-- `pipe_reader::read`. -/
def read (p : Pipe T) : Except Fault (Pipe T) :=
  match p.unread_ with
  | some x => .ok ({ p with unread_ := none }.note (.returned (some x)))
  | none =>
    if p.readable then do
      match ← p.buf.popEventually with
      | (.failed, buf) => .ok ({ p with buf }.note .failed)
      | (.done r, buf) => .ok ({ p with buf }.note (.returned r))
      | (.waits, buf) => .ok { p with buf, reading := true }
    else .ok (p.note (.returned none))

/-- The continuation of `pop_eventually`, in a buffer that may be gone. -/
def readResumes (p : Pipe T) : Except Fault (Pipe T) :=
  match p.buf.notEmpty with
  | some .ready =>
    if p.deleted then .error .destroyed
    else do
      match ← p.buf.popAfterWait with
      | (.done r, buf) => .ok ({ p with buf, reading := false }.note (.resumed r))
      | (_, buf) => .ok ({ p with buf, reading := false }.note .failed)
  | _ => .ok ({ p with reading := false }.note .failed)

/-- `pipe_reader::unread`; it throws when there is an item already. -/
def unread (x : T) (p : Pipe T) : Pipe T :=
  if p.unread_.isSome then p else { p with unread_ := some x }.note (.gaveBack x)

/-- `pipe_writer::write`. -/
def write (x : T) (p : Pipe T) : Pipe T :=
  if p.writeable then
    match p.buf.pushEventually (some x) with
    | (.failed, buf) => { p with buf }
    | (.done _, buf) => { p with buf }.note (.wrote x)
    | (.waits, buf) => { p with buf, writing := some x }.note (.wrote x)
  else p

/-- The continuation of `push_eventually`, which is not run when the future has failed. -/
def writeResumes (p : Pipe T) : Except Fault (Pipe T) :=
  match p.writing, p.buf.notFull with
  | some x, some .ready =>
    if p.deleted then .error .destroyed
    else .ok { p with buf := p.buf.pushAfterWait (some x), writing := none }
  | _, _ => .ok { p with writing := none }

/-- `~pipe_reader`, with `close_read`. -/
def closeRead (p : Pipe T) : Pipe T :=
  { p with
    buf := if p.buf.full then p.buf.abort else p.buf
    readOpen := false
    deleted := !p.writeOpen }.note .closedRead

/-- `~pipe_writer`, with `close_write`; the end of stream is pushed if there is room. -/
def closeWrite (p : Pipe T) : Pipe T :=
  { p with
    buf := if p.buf.empty then (p.buf.push none).2 else p.buf
    writeOpen := false
    deleted := !p.readOpen }.note .closedWrite

/-- The move constructor of `pipe_reader`: the item that was given back stays in the old reader. -/
def moveReader (p : Pipe T) : Pipe T := { p with unread_ := none }

/-- What can happen to a pipe. -/
inductive Action (T : Type)
  | read
  | readResumes
  | unread (x : T)
  | write (x : T)
  | writeResumes
  | closeRead
  | closeWrite
  | moveReader
  | moveWriter
  | assignReader
  | assignWriter
  deriving DecidableEq, Repr

/-- One action. The move assignments swap the buffers and do not return. -/
def step (p : Pipe T) : Action T → Except Fault (Pipe T)
  | .read => p.read
  | .readResumes => p.readResumes
  | .unread x => .ok (p.unread x)
  | .write x => .ok (p.write x)
  | .writeResumes => p.writeResumes
  | .closeRead => .ok p.closeRead
  | .closeWrite => .ok p.closeWrite
  | .moveReader => .ok p.moveReader
  | .moveWriter => .ok p
  | .assignReader => .error .noReturn
  | .assignWriter => .error .noReturn

/-- The pipe after the actions, oldest first. -/
def run : Pipe T → List (Action T) → Except Fault (Pipe T) := Run.run step

/-- The future was resolved. -/
def Resolved (f : Option Pending) : Prop := f = some .ready ∨ f = some .failed

instance (f : Option Pending) : Decidable (Resolved f) := by
  unfold Resolved
  infer_instance

/-- Only an end that is there is used, there is one read and one write at a time, and continuations
run once their future is resolved. -/
def Valid (p : Pipe T) : Action T → Prop
  | .read => p.readOpen = true ∧ p.reading = false
  | .readResumes => p.reading = true ∧ Resolved p.buf.notEmpty
  | .write _ => p.writeOpen = true ∧ p.writing = none
  | .writeResumes => p.writing.isSome ∧ Resolved p.buf.notFull
  | .unread _ | .closeRead | .moveReader | .assignReader => p.readOpen = true
  | .closeWrite | .moveWriter | .assignWriter => p.writeOpen = true

/-- A read that waits, and has not failed. -/
def ReadPending (p : Pipe T) : Prop := p.reading = true ∧ p.buf.notEmpty ≠ some .failed

/-- A write that waits, and has not failed. -/
def WritePending (p : Pipe T) : Prop := p.writing.isSome ∧ p.buf.notFull ≠ some .failed

/-- No item is in a reader that is moved, no end is assigned to, the writer is not destroyed while
its write waits, and the second end is not destroyed while a read waits. -/
def Careful (p : Pipe T) : Action T → Prop
  | .moveReader => p.unread_ = none
  | .assignReader | .assignWriter => False
  | .closeRead => p.writeOpen = false → ¬ReadPending p
  | .closeWrite => ¬WritePending p ∧ (p.readOpen = false → ¬ReadPending p)
  | _ => True

instance [DecidableEq T] (p : Pipe T) (a : Action T) : Decidable (Valid p a) := by
  cases a <;> unfold Valid <;> infer_instance

instance [DecidableEq T] (p : Pipe T) (a : Action T) : Decidable (Careful p a) := by
  cases a <;> unfold Careful <;> unfold ReadPending WritePending <;> infer_instance

/-! ## What a pipe is for -/

/-- The items that are still to be read. -/
structure Stream (T : Type) where
  unread : Option T := none
  items : List T := []
  readClosed : Bool := false
  writeClosed : Bool := false

variable [DecidableEq T]

/-- The next item, or the end of stream after the last one. -/
def Stream.deliver (σ : Stream T) : Option T → Option (Stream T)
  | some x => if σ.items.head? = some x then some { σ with items := σ.items.tail } else none
  | none => if σ.items = [] ∧ σ.writeClosed = true then some σ else none

/-- The events that may happen: each item that was written is delivered once and in order, after
one that was given back. -/
def Stream.accept (σ : Stream T) : PipeEvent T → Option (Stream T)
  | .wrote x => if σ.writeClosed then none else some { σ with items := σ.items ++ [x] }
  | .gaveBack x => if σ.unread = none then some { σ with unread := some x } else none
  | .returned r =>
    match σ.unread with
    | some x => if r = some x then some { σ with unread := none } else none
    | none => σ.deliver r
  | .resumed r => σ.deliver r
  | .failed => if σ.readClosed then some σ else none
  | .closedRead => some { σ with readClosed := true }
  | .closedWrite => some { σ with writeClosed := true }

/-- The stream after the events, oldest first, if all of them may happen. -/
def Stream.accepts (log : List (PipeEvent T)) : Option (Stream T) :=
  log.foldlM Stream.accept {}

end Pipe

end Seastar
