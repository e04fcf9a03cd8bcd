import Mathlib.Data.List.Flatten
import Seastar.Core.Fault
import Seastar.Lib.Counting

/-!
`lw_shared_ptr` and `shared_ptr` of `core/shared_ptr.hh`, on a heap of objects that hold pointers
themselves. An assignment destroys the target, with everything that only the target keeps alive,
and then copies or moves the source into its place.
-/

namespace Seastar.SharedPtr

/-! ## The heap -/

/-- The place of a pointer: null or to an object, or destroyed. -/
inductive Cell
  | dead
  | ptr (p : Option Nat)
  deriving DecidableEq, Repr

/-- An object with its count and the pointers that it holds. -/
structure Obj where
  count : Nat
  fields : List Cell
  deriving DecidableEq, Repr

/-- The pointers outside of objects, the objects with `none` for those that were destroyed, and
these in the order in which they were. -/
structure Heap where
  roots : List Cell := []
  objs : List (Option Obj) := []
  destroyed : List Nat := []
  deriving DecidableEq, Repr

/-- Where a pointer is stored. -/
inductive Loc
  | root (r : Nat)
  | field (o i : Nat)
  deriving DecidableEq, Repr

namespace Heap

def obj (h : Heap) (o : Nat) : Option Obj := (h.objs[o]?).join

def setObj (h : Heap) (o : Nat) (x : Option Obj) : Heap := { h with objs := h.objs.set o x }

def cell (h : Heap) : Loc → Option Cell
  | .root r => h.roots[r]?
  | .field o i => (h.obj o).bind (·.fields[i]?)

def setCell (h : Heap) (c : Cell) : Loc → Heap
  | .root r => { h with roots := h.roots.set r c }
  | .field o i => (h.obj o).elim h fun x => h.setObj o (some { x with fields := x.fields.set i c })

/-- The object is destroyed. -/
def dispose (h : Heap) (o : Nat) : Heap :=
  { h.setObj o none with destroyed := h.destroyed ++ [o] }

/-- The pointers that an object holds. -/
def fieldsOf (x : Option Obj) : List Cell := (x.map Obj.fields).getD []

/-- All pointers. -/
def cells (h : Heap) : List Cell := h.roots ++ h.objs.flatMap fieldsOf

/-- The live pointers to an object. -/
def pointers (h : Heap) (o : Nat) : Nat := h.cells.count (.ptr (some o))

/-- The objects that can still be destroyed, with their pointers. -/
def weight (h : Heap) : Nat := (h.objs.map fun x => (x.map fun x => x.fields.length + 1).getD 0).sum

end Heap

namespace Heap

variable {h : Heap} {o : Nat} {x : Obj} {y : Option Obj}

theorem objs_of_obj (hx : h.obj o = some x) : h.objs[o]? = some (some x) := by
  rw [obj, Option.join_eq_some_iff] at hx
  exact hx

theorem weight_setObj (hx : h.obj o = some x) (y : Option Obj) :
    (h.setObj o y).weight + (x.fields.length + 1) =
      h.weight + (y.map fun y => y.fields.length + 1).getD 0 :=
  Lib.Counting.sum_map_set (fun x => (x.map fun x => x.fields.length + 1).getD 0) (objs_of_obj hx) y

end Heap

/-! ## The pointers -/

/-- Destructors that are still to run: `~lw_shared_ptr` of the first pointer, with the destructors
of the pointers in the object that it destroys, the last one first, before those behind it. -/
def destroyAll (h : Heap) : List Cell → Except Fault Heap
  | [] => .ok h
  | .dead :: _ => .error .destroyed
  | .ptr none :: ps => destroyAll h ps
  | .ptr (some o) :: ps =>
    match _hx : h.obj o with
    | none => .error .destroyed
    | some x =>
      if x.count - 1 = 0 then destroyAll (h.dispose o) (x.fields.reverse ++ ps)
      else destroyAll (h.setObj o (some { x with count := x.count - 1 })) ps
termination_by ps => h.weight + ps.length
decreasing_by
  · exact Nat.lt_succ_self _
  · have hw := Heap.weight_setObj _hx none
    change (h.setObj o none).weight + _ < _
    rw [List.length_append, List.length_reverse, List.length_cons]
    dsimp only [Option.map_none, Option.getD_none] at hw
    omega
  · have hw := Heap.weight_setObj _hx (some { x with count := x.count - 1 })
    dsimp only [Option.map_some, Option.getD_some] at hw
    rw [List.length_cons]
    omega

namespace Heap

/-- A pointer is read. -/
def read (h : Heap) (l : Loc) : Except Fault (Option Nat) :=
  match h.cell l with
  | some (.ptr p) => .ok p
  | _ => .error .destroyed

/-- `++_p->_count`. -/
def retain (h : Heap) : Option Nat → Except Fault Heap
  | none => .ok h
  | some o =>
    match h.obj o with
    | none => .error .destroyed
    | some x => .ok (h.setObj o (some { x with count := x.count + 1 }))

/-- A pointer is constructed in a place that had one. -/
def construct (h : Heap) (p : Option Nat) (l : Loc) : Except Fault Heap :=
  match h.cell l with
  | none => .error .destroyed
  | some _ => .ok (h.setCell (.ptr p) l)

end Heap

/-- The two classes. -/
inductive Kind
  | lw
  | shared
  deriving DecidableEq, Repr

/-- What can be done with pointers: a new object with null pointers in it, a new pointer that is
copied or moved from another, an assignment, and the end of a pointer outside of objects. -/
inductive Op
  | make (fields : Nat)
  | copy (src : Loc)
  | move (src : Loc)
  | assignCopy (dst src : Loc)
  | assignMove (dst src : Loc)
  | destroy (r : Nat)
  deriving DecidableEq, Repr

/-- The `if` of the assignments: `lw_shared_ptr` compares the pointers, `shared_ptr` their places. -/
def same (k : Kind) (h : Heap) (dst src : Loc) : Except Fault Bool :=
  match k with
  | .lw => do
    let p ← h.read dst
    let q ← h.read src
    .ok (p = q)
  | .shared => .ok (dst = src)

/-- `this->~lw_shared_ptr()`. -/
def destruct (h : Heap) (l : Loc) : Except Fault Heap := do
  let p ← h.read l
  destroyAll (h.setCell .dead l) [.ptr p]

def step (k : Kind) (h : Heap) : Op → Except Fault Heap
  | .make fields =>
    .ok { h with
      roots := h.roots ++ [.ptr (some h.objs.length)]
      objs := h.objs ++ [some ⟨1, List.replicate fields (.ptr none)⟩] }
  | .copy src => do
    let p ← h.read src
    let h ← h.retain p
    .ok { h with roots := h.roots ++ [.ptr p] }
  | .move src => do
    let p ← h.read src
    let h := h.setCell (.ptr none) src
    .ok { h with roots := h.roots ++ [.ptr p] }
  | .assignCopy dst src => do
    if ← same k h dst src then .ok h else
    let h ← destruct h dst
    let p ← h.read src
    let h ← h.retain p
    h.construct p dst
  | .assignMove dst src => do
    if ← same k h dst src then .ok h else
    let h ← destruct h dst
    let p ← h.read src
    (h.setCell (.ptr none) src).construct p dst
  | .destroy r => destruct h (.root r)

end Seastar.SharedPtr
