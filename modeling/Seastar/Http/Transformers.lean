import Seastar.Rpc.Wire

/-!
The content replacement of `http/transformers.cc`: `buffer_replace`, which looks for `{{key}}` in a
content that comes in buffers, and `content_replace_data_sink_impl`, which writes the result.

A possible match that the end of a buffer cuts is parked: for each key that may still come,
`buffer_replace_state` keeps what is missing of it.
-/

namespace Seastar.Http

abbrev Bytes := List UInt8

/-- The bytes of a text. -/
def text (s : String) : Bytes := s.toList.map fun c => UInt8.ofNat c.toNat

/-- `'{'`. -/
def openBrace : UInt8 := 123

/-- `'}'`. -/
def closeBrace : UInt8 := 125

/-- `"{{" + key + "}}"`. -/
def braced (key : Bytes) : Bytes :=
  [openBrace, openBrace] ++ key ++ [closeBrace, closeBrace]

/-- `strncmp`: the difference of the first bytes that differ among the first `n`; bytes after a null
are not compared. -/
def strncmp : Bytes → Bytes → Nat → Int
  | _, _, 0 => 0
  | a :: as, b :: bs, n + 1 =>
    if a ≠ b then (a.toNat : Int) - b.toNat
    else if a = 0 then 0
    else strncmp as bs n
  | _, _, _ + 1 => 0

/-- `potential_match_entry`: what is missing of a key, from `begin` to `end`, and the position of
the key. -/
structure PotentialMatchEntry where
  rest : Bytes
  pos : Nat
  deriving DecidableEq, Repr

/-- `buffer_replace`: the keys in their braces with their values, and the current state. -/
structure BufferReplace where
  values : List (Bytes × Bytes) := []
  current : List PotentialMatchEntry := []
  deriving DecidableEq, Repr

/-- `find_braces`: the place of an open brace that is followed by a second one or by the end. -/
def findBraces : Bytes → Option Nat
  | [] => none
  | [c] => if c = openBrace then some 0 else none
  | c :: d :: s =>
    if c = openBrace ∧ d = openBrace then some 0 else (findBraces (d :: s)).map (· + 1)

namespace BufferReplace

variable (br : BufferReplace)

/-- `add`. -/
def add (key value : Bytes) : BufferReplace :=
  { br with values := br.values ++ [(braced key, value)] }

/-- `get_key`. -/
def getKey (pos : Nat) : Bytes := (br.values.getD pos ([], [])).1

/-- `get_value`. -/
def getValue (pos : Nat) : Bytes := (br.values.getD pos ([], [])).2

/-- `is_consuming`. -/
def isConsuming : Bool := !br.current.isEmpty

/-- `get_remaining`: the part of the first key that was found. -/
def getRemaining : Bytes :=
  match br.current with
  | [] => []
  | e :: _ => (br.getKey e.pos).take ((br.getKey e.pos).length - e.rest.length)

/-- What `match` and `replace` give: the bytes to write, what they leave of the buffer, and the
state after them. -/
structure Result where
  out : Bytes
  buf : Bytes
  br : BufferReplace
  deriving DecidableEq, Repr

/-- The loop of `match` at `first`, which points behind the entries `before`. -/
def matchLoop (buf : Bytes) (before : List PotentialMatchEntry) :
    List PotentialMatchEntry → Result
  | [] => { out := [], buf := [], br := { br with current := before } }
  | first :: later =>
    let lenCompare := min buf.length first.rest.length
    if strncmp first.rest buf lenCompare ≠ 0 then
      -- the last entry fails too, so what was consumed goes out as it is
      if (before ++ first :: later).length = 1 then
        { out := { br with current := before ++ first :: later }.getRemaining
          buf
          br := { br with current := before ++ later } }
      else matchLoop buf before later
    else if lenCompare = first.rest.length then
      { out := br.getValue ((before ++ first :: later).head?.elim 0 PotentialMatchEntry.pos)
        buf := buf.drop lenCompare
        br := { br with current := [] } }
    else
      matchLoop buf (before ++ [{ first with rest := first.rest.drop lenCompare }]) later

/-- `match`. -/
def matchCurrent (buf : Bytes) : Result :=
  if br.current.isEmpty then { out := [], buf, br }
  else br.matchLoop buf [] br.current

/-- `replace`. -/
def replace (buf : Bytes) : Result :=
  if buf.isEmpty then { out := buf, buf := [], br }
  else if br.isConsuming then br.matchCurrent buf
  else
    match findBraces buf with
    | some start =>
      { out := buf.take start
        buf := buf.drop (start + 1)
        br := { br with
          current := br.current ++
            br.values.zipIdx.map fun kv => { rest := kv.1.1.drop 1, pos := kv.2 } } }
    | none => { out := buf, buf := [], br }

end BufferReplace

/-- `content_replace_data_sink_impl`, with the bytes that were written to `_out`. -/
structure ContentReplaceDataSink where
  br : BufferReplace
  out : Bytes := []
  deriving DecidableEq, Repr

/-- What the output stream hands to its sink. -/
inductive Put
  | buffer (buf : Bytes)
  | packet (data : Bytes)
  deriving DecidableEq, Repr

/-- The bytes of it. -/
def Put.bytes : Put → Bytes
  | buffer buf => buf
  | packet data => data

namespace ContentReplaceDataSink

/-- The constructor. -/
def init (keyValue : List (Bytes × Bytes)) : ContentReplaceDataSink where
  br := keyValue.foldl (fun br kv => br.add kv.1 kv.2) {}

variable (sink : ContentReplaceDataSink)

/-- The `repeat` of `put`, for at most `n` rounds. -/
def putLoop : Nat → Bytes → ContentReplaceDataSink → Option ContentReplaceDataSink
  | 0, _, _ => none
  | n + 1, buf, sink =>
    let bf := sink.br.replace buf
    let sink := { br := bf.br, out := sink.out ++ bf.out }
    if bf.buf.isEmpty then some sink else putLoop n bf.buf sink

/-- `put`. A round takes bytes of the buffer or gives up the parked match. -/
def put : Put → Option ContentReplaceDataSink
  | .packet _ => some sink
  | .buffer buf => if buf.isEmpty then some sink else putLoop (2 * buf.length) buf sink

/-- `close`, and the bytes that have reached the underlying stream then. -/
def close : Bytes :=
  if sink.br.isConsuming then sink.out ++ sink.br.getRemaining else sink.out

end ContentReplaceDataSink

/-- What reaches the underlying stream when the puts are made and the sink is closed. -/
def transformed (keyValue : List (Bytes × Bytes)) (puts : List Put) : Option Bytes :=
  (puts.foldlM ContentReplaceDataSink.put (ContentReplaceDataSink.init keyValue)).map
    ContentReplaceDataSink.close

/-- The keys of `content_replace::transform` with their values. -/
def contentReplaceKeys (protocol host : Bytes) : List (Bytes × Bytes) :=
  [(text "Protocol", protocol), (text "Host", host)]

end Seastar.Http
