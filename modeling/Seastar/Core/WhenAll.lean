import Seastar.Core.Fault

/-!
`when_all` of `core/future-util.hh`, in its two forms, and `parallel_for_each`. The promises of the
futures are set in any order, and the continuations that become ready run after that, each as a task
of its own.

A result is a value or an exception; `when_all` hands on both alike.
-/

namespace Seastar

variable {ρ ε : Type}

namespace WhenAll

/-- The variadic form, and the one over a range. -/
inductive Form
  | variadic
  | iterator
  deriving DecidableEq, Repr

/-- A continuation that waits for the future at a place; once the promise is set it has the result
and is scheduled. -/
structure Component (ρ : Type) where
  restingPlace : Nat
  state : Option ρ
  deriving DecidableEq, Repr

end WhenAll

/-- The promises of the futures that were given to `when_all`, with what they were set to; the futures
in the tuple or vector, with their results; `_nr_remain` or the position in the vector; the
continuations that live, for the variadic form in `_cont`; and what the promise of `when_all` was set
to. -/
structure WhenAll (ρ : Type) where
  promises : List (Option ρ)
  futures : List (Option ρ)
  pos : Nat
  slot : List (WhenAll.Component ρ) := []
  resolved : List (List (Option ρ)) := []
  deriving DecidableEq, Repr

namespace WhenAll

/-- The loop of `complete_one`, with `_nr_remain`: `process_one` on the last of those that remain. At
the end the state is deleted, and its destructor sets the promise. -/
def processAll (s : WhenAll ρ) : Nat → WhenAll ρ
  | 0 => { s with pos := 0, resolved := s.resolved ++ [s.futures] }
  | n + 1 =>
    if (s.futures[n]?).join.isSome then processAll s n
    else { s with pos := n + 1, slot := s.slot ++ [⟨n, none⟩] }

def completeOne (s : WhenAll ρ) : WhenAll ρ := processAll s (s.pos - 1)

/-- `++_nr_remain` is a completion that was not there. -/
def doWaitAll (s : WhenAll ρ) : WhenAll ρ := completeOne { s with pos := s.pos + 1 }

/-- The `while` of `complete_when_all`: the first future from `pos` on that is not available. -/
def skip (pos : Nat) : List (Option ρ) → Nat
  | some _ :: fs => skip (pos + 1) fs
  | _ => pos

def completeWhenAll (s : WhenAll ρ) : WhenAll ρ :=
  let pos := skip s.pos (s.futures.drop s.pos)
  if pos = s.futures.length then { s with pos := pos, resolved := s.resolved ++ [s.futures] }
  else { s with pos := pos, slot := s.slot ++ [⟨pos, none⟩] }

/-- `wait_all`, where `avoid` is `SEASTAR__WAIT_ALL__AVOID_ALLOCATION_WHEN_ALL_READY`, and
`do_when_all`. -/
def start (avoid : Bool) : Form → List (Option ρ) → WhenAll ρ
  | .variadic, fs =>
    if avoid ∧ fs.all Option.isSome then
      { promises := fs, futures := fs, pos := fs.length, resolved := [fs] }
    else doWaitAll { promises := fs, futures := fs, pos := fs.length }
  | .iterator, fs => completeWhenAll { promises := fs, futures := fs, pos := 0 }

/-- A promise is set, or a continuation that is scheduled runs. -/
inductive Op (ρ : Type)
  | resolve (i : Nat) (r : ρ)
  | run (k : Nat)
  deriving DecidableEq, Repr

/-- `set_value` or `set_exception`: the result goes to the continuation of the future, if there is
one. -/
def resolve (s : WhenAll ρ) (i : Nat) (r : ρ) : WhenAll ρ :=
  let s := { s with promises := s.promises.set i (some r) }
  match s.slot.findIdx? fun c => c.restingPlace = i ∧ c.state.isNone with
  | some k => { s with slot := s.slot.set k ⟨i, some r⟩ }
  | none => { s with futures := s.futures.set i (some r) }

/-- `run_and_dispose` or the lambda of `complete_when_all`. -/
def runAndDispose (form : Form) (s : WhenAll ρ) (k i : Nat) (r : ρ) : WhenAll ρ :=
  let s := { s with futures := s.futures.set i (some r), slot := s.slot.eraseIdx k }
  match form with
  | .variadic => completeOne s
  | .iterator => completeWhenAll { s with pos := s.pos + 1 }

/-- A promise is set once, and only what is scheduled runs. -/
def step (form : Form) (s : WhenAll ρ) : Op ρ → Except Fault (WhenAll ρ)
  | .resolve i r =>
    match s.promises[i]? with
    | some none => .ok (s.resolve i r)
    | _ => .error .assertFailed
  | .run k =>
    match s.slot[k]? with
    | some ⟨i, some r⟩ => .ok (s.runAndDispose form k i r)
    | _ => .error .noObject

end WhenAll

/-! ## parallel_for_each -/

/-- A call of `parallel_for_each` with a number of invocations: the results of those that have
started, where `some none` is success; the references to its state and the exception in there; the
continuations that live; whether the function has returned; and what its future resolved to. -/
structure ParallelForEach (ε : Type) where
  count : Nat
  results : List (Option (Option ε)) := []
  state : Option (Nat × Option ε) := none
  continuations : List (WhenAll.Component (Option ε)) := []
  returned : Bool := false
  resolved : List (Option ε) := []
  deriving DecidableEq, Repr

namespace ParallelForEach

/-- `make_lw_shared` if there is no state yet, and the reference of a new continuation. -/
def retain (s : ParallelForEach ε) : ParallelForEach ε :=
  { s with state :=
      match s.state with
      | none => some (2, none)
      | some (n, ex) => some (n + 1, ex) }

/-- A reference goes, with the last one the state, whose destructor sets the promise. -/
def release (s : ParallelForEach ε) : ParallelForEach ε :=
  match s.state with
  | none => s
  | some (n, ex) =>
    if n - 1 = 0 then { s with state := none, resolved := s.resolved ++ [ex] }
    else { s with state := some (n - 1, ex) }

/-- The lambda on the future of an invocation. Only one exception can be stored. -/
def store (s : ParallelForEach ε) (r : Option ε) : ParallelForEach ε :=
  { s with state := s.state.map fun (n, ex) => (n, ex.or r) }

/-- What happens: the next invocation returns a future, which the lambda looks at at once or as a
task if it has failed already; the function returns; the promise of an invocation is set; or a
continuation that is scheduled runs. -/
inductive Op (ε : Type)
  | invoke (r : Option (Option ε)) (preempt : Bool)
  | finish
  | resolve (i : Nat) (r : Option ε)
  | run (k : Nat)
  deriving DecidableEq, Repr

/-- An iteration of the loop. -/
def invoke (s : ParallelForEach ε) (r : Option (Option ε)) (preempt : Bool) : ParallelForEach ε :=
  let i := s.results.length
  let s := { s with results := s.results ++ [r] }
  match r with
  | some none => s
  | some (some e) =>
    if preempt then { s.retain with continuations := s.continuations ++ [⟨i, some (some e)⟩] }
    else (s.retain.store (some e)).release
  | none => { s.retain with continuations := s.continuations ++ [⟨i, none⟩] }

/-- The end of the function. The local reference goes after `get_future`. -/
def finish (s : ParallelForEach ε) : ParallelForEach ε :=
  let s := { s with returned := true }
  match s.state with
  | none => { s with resolved := s.resolved ++ [none] }
  | some _ => s.release

def resolve (s : ParallelForEach ε) (i : Nat) (r : Option ε) : ParallelForEach ε :=
  { s with
    results := s.results.set i (some r)
    continuations := s.continuations.map fun c =>
      if c.restingPlace = i ∧ c.state.isNone then ⟨i, some r⟩ else c }

def step (s : ParallelForEach ε) : Op ε → Except Fault (ParallelForEach ε)
  | .invoke r preempt =>
    if s.returned = false ∧ s.results.length < s.count then .ok (s.invoke r preempt)
    else .error .noObject
  | .finish =>
    if s.returned = false ∧ s.results.length = s.count then .ok s.finish else .error .noObject
  | .resolve i r =>
    match s.results[i]? with
    | some none => .ok (s.resolve i r)
    | _ => .error .assertFailed
  | .run k =>
    match s.continuations[k]? with
    | some ⟨_, some r⟩ =>
      .ok (({ s with continuations := s.continuations.eraseIdx k }.store r).release)
    | _ => .error .noObject

end ParallelForEach

end Seastar
