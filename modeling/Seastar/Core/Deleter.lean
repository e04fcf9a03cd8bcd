import Mathlib.Data.Finset.Basic
import Seastar.Core.Fault
import Seastar.Lib.Assoc
import Seastar.Lib.Run

/-!
`deleter` of `core/deleter.hh`: a handle on actions that are to be carried out when the last deleter
with them is destroyed. A deleter is null, the address of an object to free with its low bit set, or
a pointer to a `deleter::impl` with a count of the pointers to it. The actions are numbered as they
are made; that of a raw object is to free it.
-/

namespace Seastar

open Lib

/-- `deleter::_impl`. -/
inductive Deleter
  | null
  /-- `from_raw_object` -/
  | raw (action : Nat)
  | impl (n : Nat)
  deriving DecidableEq, Repr

namespace Deleter

/-- What the destructor of an `impl` does before that of its `next`. -/
inductive Action
  /-- `lambda_deleter_impl`, `free_deleter_impl`, and `object_deleter_impl` of an object -/
  | carry (action : Nat)
  /-- `object_deleter_impl<deleter>` -/
  | drop (d : Deleter)
  deriving DecidableEq, Repr

/-- `struct deleter::impl`. -/
structure Impl where
  refs : UInt32 := 1
  next : Deleter
  action : Action
  deriving DecidableEq, Repr

/-- The memory of the `impl`s. -/
structure Heap where
  impls : Nat → Option Impl := fun _ => none
  /-- no `impl` has had this address or a larger one -/
  fresh : Nat := 0
  /-- history: the number of actions -/
  made : Nat := 0
  /-- history: the actions carried out -/
  ran : List Nat := []

/-- An `impl` is changed, or deleted. -/
def Heap.set (n : Nat) (i : Option Impl) (h : Heap) : Heap :=
  { h with impls := Function.update h.impls n i }

/-- `new impl`. -/
def Heap.new (next : Deleter) (action : Action) (h : Heap) : Heap :=
  { h.set h.fresh (some { next, action }) with fresh := h.fresh + 1 }

/-- `~deleter()`, for the deleters that are still to be destroyed, in turn. -/
def destroyLoop : Nat → List Deleter → Heap → Except Fault Heap
  | 0, _, h => .ok h
  | _ + 1, [], h => .ok h
  | k + 1, .null :: ds, h => destroyLoop k ds h
  | k + 1, .raw a :: ds, h => destroyLoop k ds { h with ran := h.ran ++ [a] }
  | k + 1, .impl n :: ds, h =>
    match h.impls n with
    | none => .error .destroyed
    | some i =>
      if i.refs - 1 = 0 then
        let h := h.set n none
        match i.action with
        | .carry a => destroyLoop k (i.next :: ds) { h with ran := h.ran ++ [a] }
        | .drop d => destroyLoop k (d :: i.next :: ds) h
      else destroyLoop k ds (h.set n (some { i with refs := i.refs - 1 }))

/-- `~deleter()`. -/
def destroy (d : Deleter) (h : Heap) : Except Fault Heap := destroyLoop (2 * h.fresh + 1) [d] h

/-- `share`: what the deleter becomes, which is also what is returned. -/
def share (d : Deleter) (h : Heap) : Except Fault (Deleter × Heap) :=
  match d with
  | .null => .ok (.null, h)
  | .raw a =>
    let h' := h.new .null (.carry a)
    .ok (.impl h.fresh, h'.set h.fresh (some { refs := 2, next := .null, action := .carry a }))
  | .impl n =>
    match h.impls n with
    | none => .error .destroyed
    | some i => .ok (.impl n, h.set n (some { i with refs := i.refs + 1 }))

/-- The loop of `append`: what comes in the place of the deleter that `next_d` points to. The place
is empty until then. -/
def appendLoop (d : Deleter) : Nat → Deleter → Heap → Except Fault (Deleter × Heap)
  | 0, next, h => .ok (next, h)
  | _ + 1, .null, h => .ok (d, h)
  | k + 1, .raw a, h =>
    if .raw a = d then .error .assertFailed
    else do
      let n := h.fresh
      let (next, h) ← appendLoop d k .null (h.new .null (.carry a))
      .ok (.impl n, h.set n (some { next, action := .carry a }))
  | k + 1, .impl m, h =>
    if .impl m = d then .error .assertFailed
    else
      match h.impls m with
      | none => .error .destroyed
      | some i =>
        let h := h.set m (some { i with next := .null })
        if i.refs ≠ 1 then do
          let n := h.fresh
          -- the rest of the chain moves from the shared `impl` to the new one
          let (next, h) ← appendLoop d k i.next (h.new .null (.drop (.impl m)))
          .ok (.impl n, h.set n (some { next, action := .drop (.impl m) }))
        else do
          let (next, h) ← appendLoop d k i.next h
          .ok (.impl m, h.set m (some { i with next }))

/-- `append`. -/
def append (d d' : Deleter) (h : Heap) : Except Fault (Deleter × Heap) :=
  match d' with
  | .null => .ok (d, h)
  | _ => appendLoop d' (h.fresh + 2) d h

end Deleter

/-- A deleter of the program, with the actions it encapsulates by what was done with it. -/
structure Deleter.Handle where
  impl : Deleter := .null
  actions : Finset Nat := ∅
  deriving DecidableEq

/-- The deleters of a program. -/
structure Deleters where
  handles : List (Nat × Deleter.Handle) := []
  heap : Deleter.Heap := {}

namespace Deleters

open Deleter

/-- The deleter at an address. -/
def handle (x : Nat) (s : Deleters) : Handle := (s.handles.lookup x).getD {}

/-- What a program does with deleters, which it names by their addresses. -/
inductive Event
  /-- `make_deleter`, also of an object, and `make_free_deleter`, with the deleter `next` -/
  | make (x : Nat) (next : Option Nat)
  /-- `make_free_deleter` of an object, or of a null pointer -/
  | makeFree (x : Nat) (isNull : Bool)
  | share (x y : Nat)
  /-- `deleter(deleter&&)` -/
  | move (x y : Nat)
  /-- `operator=` of `x` from `y` -/
  | assign (x y : Nat)
  /-- `x.append(std::move(y))` -/
  | append (x y : Nat)
  | destroy (x : Nat)
  deriving DecidableEq, Repr

/-- The deleter at an address is moved from. -/
def clear (x : Nat) (s : Deleters) : Deleters := { s with handles := Assoc.set x {} s.handles }

/-- A deleter is constructed. -/
def add (x : Nat) (d : Handle) (s : Deleters) : Deleters :=
  { s with handles := s.handles ++ [(x, d)] }

def step (s : Deleters) : Event → Except Fault Deleters
  | .make x next =>
    let a := s.heap.made
    let d := (next.map s.handle).getD {}
    let s := match next with
      | some y => s.clear y
      | none => s
    let heap := { s.heap.new d.impl (.carry a) with made := a + 1 }
    .ok ({ s with heap }.add x ⟨.impl s.heap.fresh, insert a d.actions⟩)
  | .makeFree x isNull =>
    if isNull then .ok (s.add x {})
    else
      let a := s.heap.made
      let heap := { s.heap with made := a + 1 }
      .ok ({ s with heap }.add x ⟨.raw a, {a}⟩)
  | .share x y => do
    let (d, heap) ← Deleter.share (s.handle x).impl s.heap
    let d : Handle := ⟨d, (s.handle x).actions⟩
    .ok ({ s with
      handles := Assoc.set x d s.handles
      heap }.add y d)
  | .move x y => .ok ((s.clear y).add x (s.handle y))
  | .assign x y =>
    if x = y then .ok s
    else do
      let heap ← Deleter.destroy (s.handle x).impl s.heap
      .ok { s with
        handles := Assoc.set x (s.handle y) (Assoc.set y {} s.handles)
        heap }
  | .append x y => do
    let (d, heap) ← Deleter.append (s.handle x).impl (s.handle y).impl s.heap
    .ok { s with
      handles := Assoc.set x ⟨d, (s.handle x).actions ∪ (s.handle y).actions⟩
        (Assoc.set y {} s.handles)
      heap }
  | .destroy x => do
    let heap ← Deleter.destroy (s.handle x).impl s.heap
    .ok { handles := Assoc.erase x s.handles, heap }

end Deleters

end Seastar
