import Seastar.Core.TimerSet
import Seastar.Memcached.Item

/-!
`class cache` of `apps/memcached/memcache.cc`: the items, the timer set of those that expire, the
two timers and the statistics. The hash table is the list of the items linked into it: the
bucket an item is in shows in no result.
-/

namespace Seastar.Memcached

open Lib

/-- `struct cache_stats`. -/
structure CacheStats where
  getHits : UInt64 := 0
  getMisses : UInt64 := 0
  setAdds : UInt64 := 0
  setReplaces : UInt64 := 0
  casHits : UInt64 := 0
  casMisses : UInt64 := 0
  casBadval : UInt64 := 0
  deleteMisses : UInt64 := 0
  deleteHits : UInt64 := 0
  incrMisses : UInt64 := 0
  incrHits : UInt64 := 0
  decrMisses : UInt64 := 0
  decrHits : UInt64 := 0
  expired : UInt64 := 0
  bytes : UInt64 := 0
  deriving DecidableEq, Repr

/-- `class cache`. -/
structure Cache where
  items : List Item := []
  alive : TimerSet := {}
  /-- `_timer`: the time it is armed for -/
  timer : Option Int64 := none
  flushTimer : Option Int64 := none
  wcToClockTypeDelta : Int64 := 0
  stats : CacheStats := {}
  /-- `clock_type::now()` -/
  now : Int64 := 0
  /-- the identity of the next item -/
  nextId : Nat := 0

/-- `enum class cas_result`. -/
inductive CasResult
  | notFound
  | stored
  | badVersion
  deriving DecidableEq, Repr

/-- What the operations return, items being of type `α`. -/
inductive Reply (α : Type)
  | set (replaced : Bool)
  | add (added : Bool)
  | replace (replaced : Bool)
  | remove (removed : Bool)
  | get (item : Option α)
  | cas (result : CasResult)
  | counter (item : Option α) (changed : Bool)
  | done
  deriving DecidableEq, Repr

def Reply.map {α β : Type} (f : α → β) : Reply α → Reply β
  | .set b => .set b
  | .add b => .add b
  | .replace b => .replace b
  | .remove b => .remove b
  | .get item => .get (item.map f)
  | .cas r => .cas r
  | .counter item changed => .counter (item.map f) changed
  | .done => .done

/-- The timer of an item in the timer set. -/
def Item.timer (it : Item) : Timer := ⟨it.id, it.expiry.time⟩

/-- `item_size(item)`. -/
def itemSize (cfg : Config) (it : Item) : UInt64 :=
  cfg.sizeofItem + alignUp (UInt64.ofNat it.keySize.toNat) 8 +
    alignUp (UInt64.ofNat it.asciiPrefixSize.toNat) 8 + UInt64.ofNat it.valueSize

/-- `item_size(insertion)`. -/
def insertionSize (cfg : Config) (ins : Insertion) : UInt64 :=
  cfg.sizeofItem + alignUp (UInt64.ofNat ins.key.length) 8 +
    alignUp (UInt64.ofNat ins.asciiPrefix.length) 8 + UInt64.ofNat ins.data.length

namespace Cache

/-- Bookkeeping of `_stats`. -/
def count (f : CacheStats → CacheStats) (c : Cache) : Cache := { c with stats := f c.stats }

/-- `erase<IsInCache, IsInTimerList>`. -/
def erase (isInCache isInTimerList : Bool) (cfg : Config) (it : Item) (c : Cache) : Cache :=
  { c with
    items := if isInCache then c.items.filter (·.id ≠ it.id) else c.items
    alive := if isInTimerList && it.expiry.everExpires then c.alive.remove it.timer else c.alive
    stats := { c.stats with bytes := c.stats.bytes - itemSize cfg it } }

/-- `find`. -/
def find (cfg : Config) (key : Bytes) (c : Cache) : Option Item :=
  c.items.find? (·.compare cfg key)

@[simp] theorem find_count (cfg : Config) (key : Bytes) (f : CacheStats → CacheStats) (c : Cache) :
    (c.count f).find cfg key = c.find cfg key := rfl

/-- `_cache.insert`: nothing happens when an equal item is there. -/
def link (it : Item) (c : Cache) : Bool × Cache :=
  if c.items.any (·.equal it) then (false, c) else (true, { c with items := c.items ++ [it] })

/-- Insert a new item into the timer set, when it expires, and set the timer. -/
def arm (expiry : Expiration) (it : Item) (c : Cache) : Cache :=
  if expiry.everExpires then
    let (next, alive) := c.alive.insert it.timer
    { c with alive, timer := if next then some it.expiry.time else c.timer }
  else c

section
variable {c : Cache} {it : Item}

@[simp] theorem arm_items (e : Expiration) : (c.arm e it).items = c.items := by
  rw [arm]
  split <;> rfl

@[simp] theorem arm_bytes (e : Expiration) : (c.arm e it).stats = c.stats := by
  rw [arm]
  split <;> rfl

@[simp] theorem arm_nextId (e : Expiration) : (c.arm e it).nextId = c.nextId := by
  rw [arm]
  split <;> rfl

@[simp] theorem arm_now (e : Expiration) : (c.arm e it).now = c.now := by
  rw [arm]
  split <;> rfl

end

/-- `slab->create`. -/
def createItem (cfg : Config) (ins : Insertion) (version : UInt64) (c : Cache) : Item × Cache :=
  (Item.create cfg c.nextId ins version, { c with nextId := c.nextId + 1 })

/-- The end of `add_overriding` and `add_new`. -/
def account (cfg : Config) (ins : Insertion) (it : Item) (c : Cache) : Cache :=
  (c.arm ins.expiry it).count fun s => { s with bytes := s.bytes + insertionSize cfg ins }

/-- `add_overriding`. -/
def addOverriding (cfg : Config) (old : Item) (ins : Insertion) (c : Cache) :
    Except Fault (Item × Cache) :=
  let c := c.erase true true cfg old
  let (it, c) := c.createItem cfg ins (old.version + 1)
  let (inserted, c) := c.link it
  if inserted then .ok (it, c.account cfg ins it) else .error .assertFailed

/-- `add_new`. -/
def addNew (cfg : Config) (ins : Insertion) (c : Cache) : Cache :=
  let (it, c) := c.createItem cfg ins 1
  let (_, c) := c.link it
  c.account cfg ins it

/-- `set`. -/
def set (cfg : Config) (ins : Insertion) (c : Cache) : Except Fault (Reply Item × Cache) :=
  match c.find cfg ins.key with
  | some old => do
    let (_, c) ← c.addOverriding cfg old ins
    .ok (.set true, c.count fun s => { s with setReplaces := s.setReplaces + 1 })
  | none =>
    .ok (.set false, (c.addNew cfg ins).count fun s => { s with setAdds := s.setAdds + 1 })

/-- `add`. -/
def add (cfg : Config) (ins : Insertion) (c : Cache) : Except Fault (Reply Item × Cache) :=
  match c.find cfg ins.key with
  | some _ => .ok (.add false, c)
  | none =>
    .ok (.add true, (c.count fun s => { s with setAdds := s.setAdds + 1 }).addNew cfg ins)

/-- `replace`. -/
def replace (cfg : Config) (ins : Insertion) (c : Cache) : Except Fault (Reply Item × Cache) :=
  match c.find cfg ins.key with
  | none => .ok (.replace false, c)
  | some old => do
    let c := c.count fun s => { s with setReplaces := s.setReplaces + 1 }
    let (_, c) ← c.addOverriding cfg old ins
    .ok (.replace true, c)

/-- `remove`. -/
def remove (cfg : Config) (key : Bytes) (c : Cache) : Except Fault (Reply Item × Cache) :=
  match c.find cfg key with
  | none => .ok (.remove false, c.count fun s => { s with deleteMisses := s.deleteMisses + 1 })
  | some it =>
    let c := c.count fun s => { s with deleteHits := s.deleteHits + 1 }
    .ok (.remove true, c.erase true true cfg it)

/-- `get`. -/
def get (cfg : Config) (key : Bytes) (c : Cache) : Except Fault (Reply Item × Cache) :=
  match c.find cfg key with
  | none => .ok (.get none, c.count fun s => { s with getMisses := s.getMisses + 1 })
  | some it => .ok (.get (some it), c.count fun s => { s with getHits := s.getHits + 1 })

/-- `cas`. -/
def cas (cfg : Config) (ins : Insertion) (version : UInt64) (c : Cache) :
    Except Fault (Reply Item × Cache) :=
  match c.find cfg ins.key with
  | none => .ok (.cas .notFound, c.count fun s => { s with casMisses := s.casMisses + 1 })
  | some it =>
    if it.version ≠ version then
      .ok (.cas .badVersion, c.count fun s => { s with casBadval := s.casBadval + 1 })
    else do
      let c := c.count fun s => { s with casHits := s.casHits + 1 }
      let (_, c) ← c.addOverriding cfg it ins
      .ok (.cas .stored, c)

/-- The common text of `incr` and `decr`, after `find`. -/
def modify (cfg : Config) (f : UInt64 → UInt64) (key : Bytes) (it : Item) (c : Cache) :
    Except Fault (Reply Item × Cache) :=
  match dataAsIntegral it.value with
  | none => .ok (.counter (some it) false, c)
  | some v => do
    let ins : Insertion :=
      { key, asciiPrefix := it.asciiPrefix, data := toSstring (f v), expiry := it.expiry }
    let (it, c) ← c.addOverriding cfg it ins
    .ok (.counter (some it) true, c)

/-- `incr`. -/
def incr (cfg : Config) (key : Bytes) (delta : UInt64) (c : Cache) :
    Except Fault (Reply Item × Cache) :=
  match c.find cfg key with
  | none => .ok (.counter none false, c.count fun s => { s with incrMisses := s.incrMisses + 1 })
  | some it =>
    (c.count fun s => { s with incrHits := s.incrHits + 1 }).modify cfg (· + delta) key it

/-- `decr`. -/
def decr (cfg : Config) (key : Bytes) (delta : UInt64) (c : Cache) :
    Except Fault (Reply Item × Cache) :=
  match c.find cfg key with
  | none => .ok (.counter none false, c.count fun s => { s with decrMisses := s.decrMisses + 1 })
  | some it =>
    (c.count fun s => { s with decrHits := s.decrHits + 1 }).modify cfg
      (fun v => v - min v delta) key it

/-- `flush_all`. -/
def flushAll (cfg : Config) (c : Cache) : Cache :=
  c.items.foldl (fun c it => c.erase false true cfg it) { c with items := [], flushTimer := none }

/-- `flush_at`. -/
def flushAt (time : UInt32) (c : Cache) : Cache :=
  { c with flushTimer := some (Expiration.ofSeconds c.now c.wcToClockTypeDelta time).time }

/-- The loop of `expire`. An item that is not linked is not erased from the hash table. -/
def expireLoop (cfg : Config) : List Timer → Cache → Except Fault Cache
  | [], c => .ok c
  | timer :: exp, c =>
    match c.items.find? (·.id = timer.id) with
    | none => .error .assertFailed
    | some it =>
      expireLoop cfg exp
        ((c.erase true false cfg it).count fun s => { s with expired := s.expired + 1 })

/-- The ticks between a clock in milliseconds and one in nanoseconds. -/
def clockDelta (now wall : Int64) : Int64 := (1000000 * now - wall) / 1000000

/-- `expire`, the wall clock being at `wall`. -/
def expire (cfg : Config) (wall : Int64) (c : Cache) : Except Fault Cache := do
  let c := { c with wcToClockTypeDelta := clockDelta c.now wall }
  let (exp, alive) ← c.alive.expire c.now
  let c ← expireLoop cfg exp { c with alive }
  .ok { c with timer := some c.alive.getNextTimeout }

/-- What can happen to a cache. -/
inductive Event
  | set (ins : Insertion)
  | add (ins : Insertion)
  | replace (ins : Insertion)
  | cas (ins : Insertion) (version : UInt64)
  | get (key : Bytes)
  | remove (key : Bytes)
  | incr (key : Bytes) (delta : UInt64)
  | decr (key : Bytes) (delta : UInt64)
  | flushAll
  | flushAt (time : UInt32)
  /-- `_timer` fires -/
  | timer (wall : Int64)
  /-- `_flush_timer` fires -/
  | flushTimer
  /-- time passes -/
  | clock (now : Int64)
  deriving DecidableEq, Repr

/-- The key that a command names. -/
def Event.key? : Event → Option Bytes
  | .set ins => some ins.key
  | .add ins => some ins.key
  | .replace ins => some ins.key
  | .cas ins _ => some ins.key
  | .get key => some key
  | .remove key => some key
  | .incr key _ => some key
  | .decr key _ => some key
  | _ => none

/-- The insertion that a command carries. -/
def Event.insertion? : Event → Option Insertion
  | .set ins => some ins
  | .add ins => some ins
  | .replace ins => some ins
  | .cas ins _ => some ins
  | _ => none

/-- `cache(..)`, with the two clocks. -/
def init (now wall : Int64) : Cache := { now, wcToClockTypeDelta := clockDelta now wall }

/-- A timer fires when its time has come, and time does not go back. -/
def Enabled (c : Cache) : Event → Prop
  | .timer _ => ∃ t ∈ c.timer, t ≤ c.now
  | .flushTimer => ∃ t ∈ c.flushTimer, t ≤ c.now
  | .clock now => c.now ≤ now
  | _ => True

instance (c : Cache) (e : Event) : Decidable (Enabled c e) := by
  cases e <;> unfold Enabled <;> infer_instance

/-- One event, with what it returns. -/
def step (cfg : Config) (c : Cache) : Event → Except Fault (Reply Item × Cache)
  | .set ins => c.set cfg ins
  | .add ins => c.add cfg ins
  | .replace ins => c.replace cfg ins
  | .cas ins version => c.cas cfg ins version
  | .get key => c.get cfg key
  | .remove key => c.remove cfg key
  | .incr key delta => c.incr cfg key delta
  | .decr key delta => c.decr cfg key delta
  | .flushAll => .ok (.done, c.flushAll cfg)
  | .flushAt time => .ok (.done, c.flushAt time)
  | .timer wall => do
    let c ← { c with timer := none }.expire cfg wall
    .ok (.done, c)
  | .flushTimer => .ok (.done, { c with flushTimer := none }.flushAll cfg)
  | .clock now => .ok (.done, { c with now })

end Cache

end Seastar.Memcached
