import Seastar.Core.Fault
import Seastar.Lib.LittleEndian

/-!
The reports of `core/scollectd.cc`: `cpwriter`, which writes metrics into packets of 1024 bytes and
leaves out the parts of the identity that are the same as in the last record, and the loop of
`impl::run` over the metric families. A record that is too long for the packet is taken back and
written into the next one.
-/

namespace Seastar.Scollectd

open Lib

abbrev Bytes := List UInt8

/-! ## `cpwriter` -/

def payloadSize : Nat := 1024

/-- The parts that a report consists of. -/
inductive PartType
  | host
  | time
  | plugin
  | pluginInst
  | type
  | typeInst
  | values
  | intervalHr
  deriving DecidableEq, Repr

def PartType.code : PartType → UInt16
  | host => 0x0000
  | time => 0x0001
  | plugin => 0x0002
  | pluginInst => 0x0003
  | type => 0x0004
  | typeInst => 0x0005
  | values => 0x0006
  | intervalHr => 0x0009

/-- `data_type`, but for the histograms. -/
inductive ScalarType
  | counter
  | gauge
  | derive
  | absolute
  deriving DecidableEq, Repr

def ScalarType.code : ScalarType → UInt8
  | counter => 0
  | gauge => 1
  | derive => 2
  | absolute => 3

/-- `metric_value`, with the bits that are written of it: of the double of a gauge, and of the
integer that the others are converted to. -/
inductive MetricValue
  | scalar (type : ScalarType) (bits : UInt64)
  | histogram
  deriving DecidableEq, Repr

/-- The label `shard`. -/
def shardLabel : Bytes := [115, 104, 97, 114, 100]

/-- The label `type`. -/
def typeLabel : Bytes := [116, 121, 112, 101]

/-- `metric_id`; every registered metric has the labels `shard` and `type`. -/
structure MetricId where
  groupName : Bytes
  name : Bytes
  labels : List (Bytes × Bytes)
  hasShard : (labels.lookup shardLabel).isSome
  hasType : (labels.lookup typeLabel).isSome

namespace MetricId

def instanceId (id : MetricId) : Bytes := (id.labels.lookup shardLabel).get id.hasShard

def inheritType (id : MetricId) : Bytes := (id.labels.lookup typeLabel).get id.hasType

end MetricId

/-- `_cache`. -/
abbrev Cache := PartType → Bytes

/-- `cpwriter`; `buf` is the part of the buffer in front of `_pos`. -/
structure Writer where
  buf : Bytes := []
  overflow : Bool := false
  cache : Cache := fun _ => []

/-- A number of `n` bytes in network order. -/
def hton (n v : Nat) : Bytes := (LittleEndian.encode n v).reverse

namespace Writer

def empty (w : Writer) : Bool := w.buf.isEmpty

/-- `reset`, to a mark that is a length of the buffer. -/
def reset (mark : Nat) (w : Writer) : Writer := { w with buf := w.buf.take mark, overflow := false }

def clear (_ : Writer) : Writer := {}

def check (sz : Nat) (w : Writer) : Writer :=
  { w with overflow := w.overflow || decide (payloadSize - w.buf.length < sz) }

def write (bs : Bytes) (w : Writer) : Writer :=
  let w := w.check bs.length
  if w.overflow then w else { w with buf := w.buf ++ bs }

/-- `put` of a string, with the zero behind it. -/
def putString (part : PartType) (s : Bytes) (w : Writer) : Writer :=
  ((w.write (hton 2 part.code.toNat)).write (hton 2 (4 + s.length + 1))).write (s ++ [0])

def putCached (part : PartType) (s : Bytes) (w : Writer) : Writer :=
  if w.cache part ≠ s then
    let w := w.putString part s
    { w with cache := Function.update w.cache part s }
  else w

/-- `put` of a 64-bit number. -/
def putNumber (part : PartType) (t : UInt64) (w : Writer) : Writer :=
  ((w.write (hton 2 part.code.toNat)).write (hton 2 (4 + 8))).write (hton 8 t.toNat)

/-- `write_value`. -/
def writeValue (type : ScalarType) (bits : UInt64) (w : Writer) : Writer :=
  match type with
  | .gauge => w.write (LittleEndian.encode 8 bits.toNat)
  | _ => w.write (hton 8 bits.toNat)

/-- `put` of a `metric_value`. -/
def putValue (type : ScalarType) (bits : UInt64) (w : Writer) : Writer :=
  let w := w.check 15
  if w.overflow then w
  else ((((w.write (hton 2 PartType.values.code.toNat)).write (hton 2 15)).write (hton 2 1)).write
    [type.code]).writeValue type bits

/-- `get_type_instance`. -/
def getTypeInstance (id : MetricId) : Bytes :=
  id.labels.foldl (fun res l => if l.1 ≠ shardLabel ∧ l.1 ≠ typeLabel then res ++ 45 :: l.2 else res)
    id.name

end Writer

/-- `per_cpu_plugin_instance`. -/
def perCpuPluginInstance : Bytes := [35, 99, 112, 117]

/-- What the reports of a processor depend on: the name of the host, the number of the processor as
a text, the period in the units of the format, and the clock. -/
structure Reporter where
  host : Bytes
  cpuId : Bytes
  period : UInt64
  now : Nat → UInt64

/-- The plugin instance of a metric. -/
def Reporter.pluginInst (r : Reporter) (id : MetricId) : Bytes :=
  if id.instanceId = perCpuPluginInstance then r.cpuId else id.instanceId

/-- `put` of the identity, at the `tick`th reading of the clock. -/
def Writer.putId (r : Reporter) (id : MetricId) (tick : Nat) (w : Writer) : Writer :=
  (((((w.putCached .host r.host).putNumber .time (r.now tick)).putCached .plugin id.groupName).putCached
    .pluginInst (r.pluginInst id)).putCached .type id.inheritType).putCached .typeInst
      (getTypeInstance id)

/-- `put` of a record. -/
def Writer.put (r : Reporter) (id : MetricId) (type : ScalarType) (bits : UInt64) (tick : Nat)
    (w : Writer) : Writer :=
  let w := (w.putId r id tick).putValue type bits
  if r.period ≠ 0 then w.putNumber .intervalHr r.period else w

/-! ## `impl::run` -/

/-- `values_copy`: the values of the families and their metadata, filled in the same order. -/
structure Snapshot where
  values : List (List MetricValue)
  metadata : List (List MetricId)
  shape : values.map List.length = metadata.map List.length

/-- The context of the loop: the family, what is left of its metadata and of its values, the writer,
and how often the clock was read. -/
structure Context where
  family : Nat
  metadata : List MetricId
  value : List MetricValue
  out : Writer
  tick : Nat

/-- The loop over the values of a family, and whether it ran out of space. -/
def fillFamily (r : Reporter) : List MetricValue → List MetricId → Writer → Nat →
    Except Fault (Bool × List MetricValue × List MetricId × Writer × Nat)
  | [], md, out, tick => .ok (false, [], md, out, tick)
  | _ :: _, [], _, _ => .error .outOfBounds
  | .histogram :: vs, _ :: md, out, tick => fillFamily r vs md out tick
  | .scalar type bits :: vs, id :: md, out, tick =>
    let w := out.put r id type bits tick
    if w.overflow then
      .ok (true, .scalar type bits :: vs, id :: md, w.reset out.buf.length, tick + 1)
    else fillFamily r vs md w (tick + 1)

/-- The loop over the families. -/
def fill (r : Reporter) (s : Snapshot) (c : Context) : Except Fault Context :=
  if c.family < s.values.length then do
    let (outOfSpace, value, metadata, out, tick) ← fillFamily r c.value c.metadata c.out c.tick
    if outOfSpace then .ok { c with value, metadata, out, tick }
    else
      match s.values[c.family + 1]? with
      | none => .ok { c with family := c.family + 1, value, metadata, out, tick }
      | some value =>
        match s.metadata[c.family + 1]? with
        | none => .error .outOfRange
        | some metadata => fill r s { family := c.family + 1, value, metadata, out, tick }
  else .ok c
termination_by s.values.length - c.family

/-- The `do_until` loop with its packets; `none` when there are more than it is given. -/
def sendPackets (r : Reporter) (s : Snapshot) : Nat → Context → Except Fault (Option (List Bytes))
  | packets, c =>
    if c.family = s.metadata.length then .ok (some []) else
    match packets with
    | 0 => .ok none
    | packets + 1 => do
      let c ← fill r s { c with out := c.out.clear }
      let rest ← sendPackets r s packets c
      .ok (rest.map fun rest => if c.out.empty then rest else c.out.buf :: rest)

/-- The context at the beginning. -/
def Snapshot.start (s : Snapshot) : Context where
  family := 0
  value := s.values.headD []
  metadata := s.metadata.headD []
  out := {}
  tick := 0

/-- `run`, for at most so many packets. -/
def run (r : Reporter) (s : Snapshot) (packets : Nat) : Except Fault (Option (List Bytes)) :=
  sendPackets r s packets s.start

end Seastar.Scollectd
