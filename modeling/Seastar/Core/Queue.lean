import Seastar.Core.Fault

/-!
`queue` of `core/queue.hh`: a bounded queue with one promise for a reader that waits for an item and
one for a writer that waits for room, and with an exception once it was aborted.
-/

namespace Seastar

/-- A future that was handed out: its promise is still to be resolved, or was, with a value or with
an exception, and the continuation is still to run. -/
inductive Pending
  | unresolved
  | ready
  | failed
  deriving DecidableEq, Repr

/-- `set_value`. -/
def Pending.setValue : Pending → Pending
  | unresolved => ready
  | f => f

/-- `set_exception`. -/
def Pending.setException : Pending → Pending
  | unresolved => failed
  | f => f

/-- `queue`. For each of the promises `_not_empty` and `_not_full` this has the future that it was
made for; the promise is engaged as long as that is not resolved. -/
structure Queue (α : Type) where
  q : List α := []
  max : Nat
  notEmpty : Option Pending := none
  notFull : Option Pending := none
  ex : Bool := false
  deriving DecidableEq, Repr

namespace Queue

variable {α : Type} (s : Queue α)

/-- `empty`. -/
def empty : Bool := s.q.isEmpty

/-- `full`. -/
def full : Bool := decide (s.max ≤ s.q.length)

/-- `notify_not_empty`. -/
def notifyNotEmpty : Queue α := { s with notEmpty := s.notEmpty.map Pending.setValue }

/-- `notify_not_full`. -/
def notifyNotFull : Queue α := { s with notFull := s.notFull.map Pending.setValue }

/-- `push`, and whether the item was pushed. -/
def push (a : α) : Bool × Queue α :=
  if s.q.length < s.max then (true, notifyNotEmpty { s with q := s.q ++ [a] }) else (false, s)

/-- `pop`. -/
def pop : Except Fault (α × Queue α) :=
  let s := if s.q.length = s.max then s.notifyNotFull else s
  match s.q with
  | [] => .error .emptyQueue
  | a :: q => .ok (a, { s with q })

/-- `not_empty`. -/
def waitNotEmpty : Queue α :=
  if s.ex then { s with notEmpty := some .failed }
  else if s.empty then { s with notEmpty := some .unresolved }
  else { s with notEmpty := some .ready }

/-- `not_full`. -/
def waitNotFull : Queue α :=
  if s.ex then { s with notFull := some .failed }
  else if s.full then { s with notFull := some .unresolved }
  else { s with notFull := some .ready }

/-- What `pop_eventually` and `push_eventually` come to at once: an exception, an item or a push, or
else a future to wait for. -/
inductive Eventually (β : Type)
  | failed
  | done (b : β)
  | waits
  deriving DecidableEq, Repr

/-- `pop_eventually`. -/
def popEventually : Except Fault (Eventually α × Queue α) :=
  if s.ex then .ok (.failed, s)
  else if s.empty then .ok (.waits, s.waitNotEmpty)
  else s.pop.map fun r => (.done r.1, r.2)

/-- The continuation of `pop_eventually` that runs when there is an item. -/
def popAfterWait : Except Fault (Eventually α × Queue α) :=
  if s.ex then .ok (.failed, s) else s.pop.map fun r => (.done r.1, r.2)

/-- The continuation of `push_eventually` that runs when there is room. -/
def pushAfterWait (a : α) : Queue α := notifyNotEmpty { s with q := s.q ++ [a] }

/-- `push_eventually`. -/
def pushEventually (a : α) : Eventually Unit × Queue α :=
  if s.ex then (.failed, s)
  else if s.full then (.waits, s.waitNotFull)
  else (.done (), s.pushAfterWait a)

/-- The loop of `consume`: the items that its function accepted, those behind the first one that it
did not accept, and whether it accepted all. -/
def consumeLoop (func : α → Bool) : List α → List α × List α × Bool
  | [] => ([], [], true)
  | a :: q =>
    if func a then
      let (accepted, q, running) := consumeLoop func q
      (a :: accepted, q, running)
    else ([], q, false)

/-- `consume`, with the items that its function accepted. -/
def consume (func : α → Bool) : Eventually (List α × Bool) × Queue α :=
  if s.ex then (.failed, s)
  else
    let (accepted, q, running) := consumeLoop func s.q
    let s := { s with q }
    (.done (accepted, running), if s.full then s else s.notifyNotFull)

/-- `abort`. -/
def abort : Queue α where
  q := []
  max := s.max
  notEmpty := s.notEmpty.map Pending.setException
  notFull := s.notFull.map Pending.setException
  ex := true

variable {func : α → Bool}

/-- The loop of `consume` takes everything, or it stops behind the first item not accepted. -/
theorem consumeLoop_cases (func : α → Bool) (q : List α) :
    (∀ a ∈ q, func a = true) ∧ consumeLoop func q = (q, [], true) ∨
      ∃ accepted a rest, q = accepted ++ a :: rest ∧ (∀ b ∈ accepted, func b = true) ∧
        func a = false ∧ consumeLoop func q = (accepted, rest, false) := by
  induction q with
  | nil => exact Or.inl ⟨fun _ h => absurd h List.not_mem_nil, rfl⟩
  | cons b q ih =>
    cases hb : func b with
    | false =>
      refine Or.inr ⟨[], b, q, rfl, fun _ h => absurd h List.not_mem_nil, hb, ?_⟩
      rw [consumeLoop, if_neg (by simp [hb])]
    | true =>
      obtain ⟨hall, hloop⟩ | ⟨accepted, a, rest, rfl, hall, ha, hloop⟩ := ih
      · refine Or.inl ⟨List.forall_mem_cons.mpr ⟨hb, hall⟩, ?_⟩
        rw [consumeLoop, if_pos hb, hloop]
      · refine Or.inr ⟨b :: accepted, a, rest, rfl, List.forall_mem_cons.mpr ⟨hb, hall⟩, ha, ?_⟩
        rw [consumeLoop, if_pos hb, hloop]

end Queue

end Seastar
