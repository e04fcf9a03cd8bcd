import Seastar.Core.Queue
import Seastar.Lib.Run

/-!
The two loops of a connection of `http/httpd.cc`. The read loop parses requests, has them handled,
and pushes the replies to `_replies`; the response loop pops the replies and writes them. Each loop
is the place its chain of continuations has come to, and an event runs the next continuation of one
of them, so that the events of a run are an interleaving.
-/

namespace Seastar.Http

open Lib

/-- What `generate_reply` decides by: `_version`, and the header `Connection`. -/
structure Request where
  version : String
  connection : Option String := none
  deriving DecidableEq, Repr

/-- `should_close`. -/
def Request.shouldClose (req : Request) : Bool :=
  let connKeepAlive := req.connection == some "Keep-Alive"
  let connClose := req.connection == some "Close"
  if req.version = "1.0" then !connKeepAlive
  else if req.version = "1.1" then connClose
  else true

/-- A reply: how many headers it has, and whether it has a `_body_writer`; with the number of the
request that it answers. -/
structure Reply where
  request : Nat
  headers : Nat
  bodyWriter : Bool
  deriving DecidableEq, Repr

/-- The place of the read loop. -/
inductive Reader
  /-- `do_until` is to look at `_done` -/
  | looping
  /-- `_read_buf.consume(_parser)` -/
  | consuming
  /-- `_replies.not_full()` of `read_one` -/
  | awaitingRoom (req : Request)
  /-- the handler of `generate_reply` -/
  | handling (req : Request)
  /-- the reply was pushed, and the continuation that sets `_done` is to run -/
  | settling (shouldClose : Bool)
  /-- the loop has ended, with or without an exception -/
  | ended (failed : Bool)
  /-- `_replies.push_eventually({})` -/
  | awaitingRoomForEof
  /-- `_read_buf.close()` -/
  | closing
  | finished
  deriving DecidableEq, Repr

/-- The place in the chain of a reply with a body writer. -/
inductive Stage
  /-- `write_reply_to_connection` -/
  | body
  /-- the closing sequence -/
  | lastChunk
  /-- the flush, and whether everything before it was written -/
  | flush (whole : Bool)
  deriving DecidableEq, Repr

/-- The place of the response loop. -/
inductive Responder
  /-- `do_response_loop` is to be called -/
  | popping
  /-- `_replies.pop_eventually()` -/
  | awaitingItem
  /-- an item was popped -/
  | popped (resp : Option Reply)
  /-- a write of `start_response`, and how many follow it -/
  | writing (resp : Reply) (left : Nat)
  /-- a write of `start_response` for a reply with a body writer -/
  | streaming (resp : Reply) (stage : Stage)
  /-- the loop has ended, with or without an exception -/
  | ended (failed : Bool)
  /-- `_write_buf.close()` -/
  | closing
  | finished
  deriving DecidableEq, Repr

/-- `connection`. -/
structure Connection where
  /-- a null element marks eof -/
  replies : Queue (Option Reply) := { max := 10 }
  done : Bool := false
  reader : Reader := .looping
  responder : Responder := .popping
  requestsServed : UInt64 := 0
  readErrors : UInt64 := 0
  respondErrors : UInt64 := 0
  /-- history: how many requests were parsed -/
  parsed : Nat := 0
  /-- history: the requests whose response was written -/
  written : List Nat := []
  /-- history: how many pushes were refused -/
  refused : Nat := 0
  /-- history: a write has failed -/
  writeFailed : Bool := false
  deriving DecidableEq, Repr

/-- What `consume` comes to: `_parser.eof()`, a request, or an exception. -/
inductive Consumed
  | eof
  | request (req : Request)
  | failed
  deriving DecidableEq, Repr

/-- What can happen next. An event that the loops do not wait for changes nothing. -/
inductive Event
  /-- the next continuation of the read loop runs -/
  | read
  | consumed (c : Consumed)
  /-- the handler gives a reply -/
  | handled (headers : Nat) (bodyWriter : Bool)
  | readClosed
  /-- the next continuation of the response loop runs -/
  | respond
  /-- the write or flush that the response loop waits for succeeds or fails -/
  | wrote (ok : Bool)
  | writeClosed
  deriving DecidableEq, Repr

namespace Connection

variable (c : Connection)

/-- `_replies.push`. -/
def push (resp : Option Reply) : Connection :=
  let (pushed, replies) := c.replies.push resp
  { c with replies, refused := if pushed then c.refused else c.refused + 1 }

/-- The end of `read`. -/
def readEnded (failed : Bool) : Connection :=
  let c := if failed then { c with readErrors := c.readErrors + 1 } else c
  match c.replies.pushEventually none with
  | (.waits, replies) => { c with replies, reader := .awaitingRoomForEof }
  | (_, replies) => { c with replies, reader := .closing }

/-- The future of `not_full` has been taken. -/
def takeNotFull : Connection := { c with replies := { c.replies with notFull := none } }

/-- The next continuation of `read` and `read_one`. -/
def readStep : Connection :=
  match c.reader, c.replies.notFull with
  | .looping, _ =>
    if c.done then { c with reader := .ended false } else { c with reader := .consuming }
  | .awaitingRoom req, some .ready => { c.takeNotFull with reader := .handling req }
  | .awaitingRoom _, some .failed => { c.takeNotFull with reader := .ended true }
  | .settling shouldClose, _ => { c with done := shouldClose, reader := .looping }
  | .ended failed, _ => c.readEnded failed
  | .awaitingRoomForEof, some .ready =>
    { c.takeNotFull with replies := c.takeNotFull.replies.pushAfterWait none, reader := .closing }
  | .awaitingRoomForEof, some .failed => { c.takeNotFull with reader := .closing }
  | _, _ => c

/-- The continuation of `consume` in `read_one`. -/
def consumed : Consumed → Connection
  | .eof => { c with done := true, reader := .looping }
  | .failed => { c with reader := .ended true }
  | .request req =>
    { c with
      requestsServed := c.requestsServed + 1
      parsed := c.parsed + 1
      replies := c.replies.waitNotFull
      reader := .awaitingRoom req }

/-- The continuation of `generate_reply`. -/
def handled (req : Request) (headers : Nat) (bodyWriter : Bool) : Connection :=
  { c.push (some { request := c.parsed - 1, headers, bodyWriter }) with
    reader := .settling req.shouldClose }

/-- How `start_response` ends both loops when a reply with a body writer fails. -/
def abortReplies : Connection :=
  { c with done := true, replies := c.replies.abort }.push none

/-- `start_response`: the response line, four writes for each header, the empty line, the body and
the flush, or what a body writer does. -/
def startResponse (resp : Reply) : Connection :=
  if resp.bodyWriter then { c with responder := .streaming resp .body }
  else { c with responder := .writing resp (4 * resp.headers + 3) }

/-- What `pop_eventually` has come to. -/
def gotItem : Queue.Eventually (Option Reply) × Queue (Option Reply) → Connection
  | (.failed, replies) => { c with replies, responder := .ended true }
  | (.waits, replies) => { c with replies, responder := .awaitingItem }
  | (.done resp, replies) => { c with replies, responder := .popped resp }

/-- The next continuation of `do_response_loop` and `respond`. -/
def respondStep : Except Fault Connection :=
  match c.responder, c.replies.notEmpty with
  | .popping, _ => c.replies.popEventually.map c.gotItem
  | .awaitingItem, some .ready =>
    { c.replies with notEmpty := none }.popAfterWait.map c.gotItem
  | .awaitingItem, some .failed =>
    .ok { c with replies := { c.replies with notEmpty := none }, responder := .ended true }
  | .popped none, _ => .ok { c with responder := .ended false }
  | .popped (some resp), _ => .ok (c.startResponse resp)
  | .ended failed, _ =>
    .ok { c with
      respondErrors := if failed then c.respondErrors + 1 else c.respondErrors
      responder := .closing }
  | _, _ => .ok c

/-- `_resp.reset()` after a response was written. -/
def responded (resp : Reply) : Connection :=
  { c with written := c.written ++ [resp.request], responder := .popping }

/-- A write or flush of `start_response` succeeds. -/
def wroteOk : Connection :=
  match c.responder with
  | .writing resp 0 => c.responded resp
  | .writing resp (left + 1) => { c with responder := .writing resp left }
  | .streaming resp .body => { c with responder := .streaming resp .lastChunk }
  | .streaming resp .lastChunk => { c with responder := .streaming resp (.flush true) }
  | .streaming resp (.flush true) => c.responded resp
  | .streaming _ (.flush false) => { c with responder := .popping }
  | _ => c

/-- A write or flush of `start_response` fails. -/
def wroteFailed : Connection :=
  match c.responder with
  -- the exception ends the response loop
  | .writing _ _ => { c with writeFailed := true, responder := .ended true }
  | .streaming resp .body =>
    { c.abortReplies with
      writeFailed := true
      respondErrors := c.respondErrors + 1
      responder := .streaming resp (.flush false) }
  | .streaming _ .lastChunk | .streaming _ (.flush _) =>
    { c.abortReplies with writeFailed := true, responder := .popping }
  | _ => c

/-- An event. -/
def step : Event → Except Fault Connection
  | .read => .ok c.readStep
  | .consumed o => .ok (if c.reader = .consuming then c.consumed o else c)
  | .handled headers bodyWriter =>
    match c.reader with
    | .handling req => .ok (c.handled req headers bodyWriter)
    | _ => .ok c
  | .readClosed => .ok (if c.reader = .closing then { c with reader := .finished } else c)
  | .respond => c.respondStep
  | .wrote ok => .ok (if ok then c.wroteOk else c.wroteFailed)
  | .writeClosed =>
    .ok (if c.responder = .closing then { c with responder := .finished } else c)

/-- The read loop waits for room in `_replies`. -/
def WaitsForRoom : Prop :=
  (c.reader = .awaitingRoomForEof ∨ ∃ req, c.reader = .awaitingRoom req) ∧
    c.replies.notFull = some .unresolved

/-- The response loop is still running. -/
def Responding : Prop :=
  match c.responder with
  | .ended _ | .closing | .finished => False
  | _ => True

end Connection

end Seastar.Http
