import Seastar.Core.Fault
import Seastar.Lib.Ring
import Seastar.Lib.Run

/-!
`circular_buffer` of `core/circular_buffer.hh`: a growing array used as a ring, whose
two indices run freely modulo `2 ^ 64`. The slots hold objects with their identity, so
that a run tells which objects were constructed and which were destroyed.
-/

namespace Seastar

open Lib

variable {T : Type}

/-! ## Memory for objects -/

/-- An object: its number among those constructed, and its value until that is moved away. -/
structure Element (T : Type) where
  id : Nat
  value : Option T
  deriving DecidableEq, Repr

/-- Memory for `size` objects; a slot without an object is raw. -/
structure Block (T : Type) where
  size : UInt64 := 0
  slots : Nat → Option (Element T) := fun _ => none

/-- history: how many objects were constructed, and the objects destroyed -/
structure Ledger where
  constructed : Nat := 0
  destroyed : List Nat := []
  deriving DecidableEq, Repr

namespace Block

/-- The object in a slot. -/
def get (p : UInt64) (m : Block T) : Except Fault (Element T) :=
  if m.size ≤ p then .error .outOfBounds
  else
    match m.slots p.toNat with
    | some e => .ok e
    | none => .error .noObject

/-- `construct`. -/
def construct (p : UInt64) (value : Option T) (m : Block T) (l : Ledger) :
    Except Fault (Block T × Ledger) :=
  if m.size ≤ p then .error .outOfBounds
  else
    .ok ({ m with slots := Function.update m.slots p.toNat (some ⟨l.constructed, value⟩) },
      { l with constructed := l.constructed + 1 })

/-- `destroy`. -/
def destroy (p : UInt64) (m : Block T) (l : Ledger) : Except Fault (Block T × Ledger) := do
  let e ← m.get p
  .ok ({ m with slots := Function.update m.slots p.toNat none },
    { l with destroyed := l.destroyed ++ [e.id] })

/-- `*dst = std::move(*src)`. -/
def moveAssign (dst src : UInt64) (m : Block T) : Except Fault (Block T) := do
  let source ← m.get src
  let target ← m.get dst
  .ok { m with
    slots := Function.update
      (Function.update m.slots dst.toNat (some { target with value := source.value }))
      src.toNat (some { source with value := none }) }

end Block

/-! ## The buffer -/

/-- `class circular_buffer`. -/
structure CircularBuffer (T : Type) where
  storage : Block T := {}
  begin : UInt64 := 0
  end_ : UInt64 := 0
  ledger : Ledger := {}

/-- What growing meets: whether `allocate` throws, whether the objects are copied because moving
them could throw, and the number of objects copied before a copy throws. -/
structure Growth where
  fails : Bool := false
  copies : Bool := false
  throwsAt : Option Nat := none
  deriving DecidableEq, Repr

/-- The objects on their way to new storage, up to `p` there. -/
structure Transfer (T : Type) where
  source : Block T
  target : Block T
  p : UInt64 := 0
  ledger : Ledger

/-- `std::allocator` throws for more objects than this. -/
def maxSize : UInt64 := 0x7fffffffffffffff

/-- `log2ceil`. -/
def log2ceil (n : UInt64) : Nat := if n = 1 then 0 else 64 - (63 - Nat.log2 (n - 1).toNat)

/-- A loop over `n` indices. -/
def forIndices {σ : Type} (f : UInt64 → σ → Except Fault σ) :
    Nat → UInt64 → σ → Except Fault σ
  | 0, _, s => .ok s
  | n + 1, i, s => do
    let s ← f i s
    forIndices f n (i + 1) s

namespace CircularBuffer

/-- `capacity`. -/
def capacity (b : CircularBuffer T) : UInt64 := b.storage.size

/-- `mask`. -/
def mask (b : CircularBuffer T) (idx : UInt64) : UInt64 := idx &&& (b.capacity - 1)

/-- `size`. -/
def size (b : CircularBuffer T) : UInt64 := b.end_ - b.begin

/-- `empty`. -/
def empty (b : CircularBuffer T) : Bool := b.begin == b.end_

/-- `for_each`: the loop stops at `end`. -/
def forEach {σ : Type} (b : CircularBuffer T) (f : UInt64 → σ → Except Fault σ) (s : σ) :
    Except Fault σ := forIndices (fun i => f (b.mask i)) b.size.toNat b.begin s

/-- The value of the object at an index; an object whose value was moved away has none. -/
def deref (b : CircularBuffer T) (idx : UInt64) : Except Fault T := do
  let e ← b.storage.get (b.mask idx)
  match e.value with
  | some x => .ok x
  | none => .error .noObject

/-- `operator[]`. -/
def at_ (b : CircularBuffer T) (idx : UInt64) : Except Fault T := b.deref (b.begin + idx)

/-- `front`. -/
def front (b : CircularBuffer T) : Except Fault T := b.deref b.begin

/-- `back`. -/
def back (b : CircularBuffer T) : Except Fault T := b.deref (b.end_ - 1)

/-- The values met by an iterator on its way from `begin` to `end`. -/
def iterate (b : CircularBuffer T) : Except Fault (List T) :=
  forIndices (fun idx xs => (b.deref idx).map fun x => xs ++ [x]) b.size.toNat b.begin []

/-- An assignment through the reference that `operator[]` returns. -/
def assign (idx : UInt64) (x : T) (b : CircularBuffer T) : Except Fault (CircularBuffer T) := do
  let e ← b.storage.get (b.mask (b.begin + idx))
  .ok { b with
    storage := { b.storage with
      slots := Function.update b.storage.slots (b.mask (b.begin + idx)).toNat
        (some { e with value := some x }) } }

/-- `destroy` of the object at an index. -/
def destroyAt (idx : UInt64) (b : CircularBuffer T) : Except Fault (CircularBuffer T) := do
  let (storage, ledger) ← b.storage.destroy (b.mask idx) b.ledger
  .ok { b with storage, ledger }

/-- `~circular_buffer`. -/
def destruct (b : CircularBuffer T) : Except Fault (CircularBuffer T) := do
  let (_, ledger) ← b.forEach (fun i (m, l) => m.destroy i l) (b.storage, b.ledger)
  .ok { b with storage := {}, ledger }

/-- The move constructor: the new buffer and what is left of the old one. -/
def move (b : CircularBuffer T) : CircularBuffer T × CircularBuffer T := (b, {})

/-! ## Growth -/

/-- `transfer_pass1` of objects that are moved: the object is destroyed at once. -/
def transferMove (i : UInt64) (t : Transfer T) : Except Fault (Transfer T) := do
  let e ← t.source.get i
  let (target, ledger) ← t.target.construct t.p e.value t.ledger
  let (source, ledger) ← t.source.destroy i ledger
  .ok { source, target, p := t.p + 1, ledger }

/-- `transfer_pass1` of objects that are copied. -/
def transferCopy (i : UInt64) (t : Transfer T) : Except Fault (Transfer T) := do
  let e ← t.source.get i
  let (target, ledger) ← t.target.construct t.p e.value t.ledger
  .ok { t with target, p := t.p + 1, ledger }

/-- `transfer_pass2` of objects that are copied. -/
def transferDestroy (i : UInt64) (t : Transfer T) : Except Fault (Transfer T) := do
  let (source, ledger) ← t.source.destroy i t.ledger
  .ok { t with source, ledger }

/-- The loop of the `catch` of `expand`: the copies are destroyed, the last one first. -/
def destroyCopies : Nat → Transfer T → Except Fault (Transfer T)
  | 0, t => .ok t
  | n + 1, t => do
    let (target, ledger) ← t.target.destroy (t.p - 1) t.ledger
    destroyCopies n { t with target, p := t.p - 1, ledger }

/-- The storage is replaced by the new one. -/
def adopt (t : Transfer T) : CircularBuffer T :=
  { storage := t.target, begin := 0, end_ := t.p, ledger := t.ledger }

/-- `expand`; tells whether an exception is thrown. -/
def expand (g : Growth) (newCap : UInt64) (b : CircularBuffer T) :
    Except Fault (Bool × CircularBuffer T) :=
  if g.fails || decide (maxSize < newCap) then .ok (true, b)
  else
    let t : Transfer T := { source := b.storage, target := { size := newCap }, ledger := b.ledger }
    if !g.copies then do
      let t ← b.forEach transferMove t
      .ok (false, adopt t)
    else
      match g.throwsAt.filter (· < b.size.toNat) with
      | some k => do
        -- the loop is left when the object of index `k` is copied
        let t ← forIndices (fun i => transferCopy (b.mask i)) k b.begin t
        let t ← destroyCopies k t
        .ok (true, { b with ledger := t.ledger })
      | none => do
        let t ← b.forEach transferCopy t
        let t ← b.forEach transferDestroy t
        .ok (false, adopt t)

/-- `maybe_expand` for one more object. -/
def maybeExpand (g : Growth) (b : CircularBuffer T) : Except Fault (Bool × CircularBuffer T) :=
  if b.capacity < b.end_ - b.begin + 1 then b.expand g (max (b.capacity * 2) 1)
  else .ok (false, b)

/-- `reserve`. -/
def reserve (g : Growth) (n : UInt64) (b : CircularBuffer T) :
    Except Fault (Bool × CircularBuffer T) :=
  if b.capacity < n then
    if 64 ≤ log2ceil n then .error .shiftTooFar
    else b.expand g (1 <<< UInt64.ofNat (log2ceil n))
  else .ok (false, b)

/-! ## Both ends -/

/-- `emplace_back`, and `push_back`; without a value the constructor throws. -/
def emplaceBack (g : Growth) (x : Option T) (b : CircularBuffer T) :
    Except Fault (Bool × CircularBuffer T) := do
  let (thrown, b) ← b.maybeExpand g
  if thrown || x.isNone then .ok (true, b)
  else
    let (storage, ledger) ← b.storage.construct (b.mask b.end_) x b.ledger
    .ok (false, { b with storage, ledger, end_ := b.end_ + 1 })

/-- `emplace_front`, and `push_front`. -/
def emplaceFront (g : Growth) (x : Option T) (b : CircularBuffer T) :
    Except Fault (Bool × CircularBuffer T) := do
  let (thrown, b) ← b.maybeExpand g
  if thrown || x.isNone then .ok (true, b)
  else
    let (storage, ledger) ← b.storage.construct (b.mask (b.begin - 1)) x b.ledger
    .ok (false, { b with storage, ledger, begin := b.begin - 1 })

/-- `pop_front`. -/
def popFront (b : CircularBuffer T) : Except Fault (CircularBuffer T) := do
  let b ← b.destroyAt b.begin
  .ok { b with begin := b.begin + 1 }

/-- `pop_back`. -/
def popBack (b : CircularBuffer T) : Except Fault (CircularBuffer T) := do
  let b ← b.destroyAt (b.end_ - 1)
  .ok { b with end_ := b.end_ - 1 }

/-! ## Erasing -/

/-- `std::distance` of two iterators. -/
def distance (first last : UInt64) : Int := (last - first).toInt64.toInt

/-- `std::move`: the objects from `first` on go to `result` and up. -/
def moveForward : Nat → UInt64 → UInt64 → CircularBuffer T →
    Except Fault (UInt64 × CircularBuffer T)
  | 0, _, result, b => .ok (result, b)
  | n + 1, first, result, b => do
    let storage ← b.storage.moveAssign (b.mask result) (b.mask first)
    moveForward n (first + 1) (result + 1) { b with storage }

/-- `std::move_backward`: the objects up to `last` go up to `result`. -/
def moveBackward : Nat → UInt64 → UInt64 → CircularBuffer T →
    Except Fault (UInt64 × CircularBuffer T)
  | 0, _, result, b => .ok (result, b)
  | n + 1, last, result, b => do
    let storage ← b.storage.moveAssign (b.mask (result - 1)) (b.mask (last - 1))
    moveBackward n (last - 1) (result - 1) { b with storage }

/-- The loops `while (i < e)` that destroy the objects from `i` on. -/
def destroyWhile : Nat → UInt64 → UInt64 → CircularBuffer T → Except Fault (CircularBuffer T)
  | 0, _, _, b => .ok b
  | fuel + 1, i, e, b =>
    if i < e then do
      let b ← b.destroyAt i
      destroyWhile fuel (i + 1) e b
    else .ok b

/-- `erase`, between two iterators. -/
def erase (first last : UInt64) (b : CircularBuffer T) : Except Fault (CircularBuffer T) :=
  if first = last then .ok b
  else if distance b.begin first < distance last b.end_ then do
    let (newStart, b) ← moveBackward (distance b.begin first).toNat first last b
    let b ← destroyWhile (newStart.toNat - b.begin.toNat) b.begin newStart b
    .ok { b with begin := newStart }
  else do
    let (newEnd, b) ← moveForward (distance last b.end_).toNat last first b
    let b ← destroyWhile (b.end_.toNat - newEnd.toNat) newEnd b.end_ b
    .ok { b with end_ := newEnd }

/-- `clear`. -/
def clear (b : CircularBuffer T) : Except Fault (CircularBuffer T) := b.erase b.begin b.end_

end CircularBuffer

end Seastar
