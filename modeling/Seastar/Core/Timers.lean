import Seastar.Core.TimerSet

/-!
The timers of one clock: `timer<Clock>` of `core/timer.hh` with `arm`, `cancel`, the move constructor
and the destructor, and `reactor::complete_timers`, which walks the list of the expired timers and
calls callbacks that may do all of this. A timer is named by its address, its link is an entry of the
`timer_set` or of the list.
-/

namespace Seastar

open Lib

namespace Timers

/-- `timer<Clock>`; `κ` are the callbacks. -/
structure Object (κ : Type) where
  callback : Option κ := none
  expiry : Int64 := 0
  period : Option Int64 := none
  armed : Bool := false
  queued : Bool := false
  expired : Bool := false
  /-- history: the number of the arming -/
  arming : Option Nat := none
  deriving DecidableEq, Repr

/-- A call of a callback. -/
structure Call (κ : Type) where
  arming : Nat
  time : Int64
  callback : Option κ
  deriving DecidableEq, Repr

/-- Whether `complete_timers` is running. -/
inductive Control
  | idle
  /-- in a callback -/
  | callback
  deriving DecidableEq, Repr

end Timers

/-- The timers of a clock, in the reactor. -/
structure Timers (κ : Type) where
  /-- `Clock::now()` -/
  now : Int64 := 0
  objects : Nat → Option (Timers.Object κ) := fun _ => none
  timers : TimerSet := {}
  expiredTimers : List Nat := []
  control : Timers.Control := .idle
  /-- history: the expiry of every arming -/
  armings : List Int64 := []
  /-- history: the armings before the last call of `complete_timers` -/
  before : Nat := 0
  /-- history: the callbacks that were called -/
  calls : List (Timers.Call κ) := []
  /-- history: the armings that were cancelled, or whose timer was destroyed -/
  ended : List Nat := []

/-- `swap_nodes` with a link that is in no list. -/
def TimerSet.swapNodes (src dst : Nat) (s : TimerSet) : TimerSet :=
  { s with buckets := fun i =>
      (s.buckets i).map fun t => if t.id = src then { t with id := dst } else t }

namespace Timers

variable {κ : Type}

/-- The timer at an address is changed. -/
def put (id : Nat) (o : Option (Object κ)) (r : Timers κ) : Timers κ :=
  { r with objects := Function.update r.objects id o }

/-- `arm_state` and `queue_timer`. -/
def queueTimer (id : Nat) (o : Object κ) (expiry : Int64) (period : Option Int64) (r : Timers κ) :
    Timers κ :=
  let o := { o with
    period, armed := true, expired := false, expiry, queued := true,
    arming := some r.armings.length }
  { r.put id (some o) with
    timers := (r.timers.insert ⟨id, expiry⟩).2
    armings := r.armings ++ [expiry] }

/-- `arm`. -/
def arm (id : Nat) (expiry : Int64) (period : Option Int64) (r : Timers κ) : Except Fault (Timers κ) :=
  match r.objects id with
  | none => .ok r
  | some o => if o.armed then .error .assertFailed else .ok (r.queueTimer id o expiry period)

/-- `del_timer`. -/
def delTimer (id : Nat) (o : Object κ) (r : Timers κ) : Object κ × Timers κ :=
  if o.expired then
    ({ o with expired := false }, { r with expiredTimers := r.expiredTimers.erase id })
  else (o, { r with timers := r.timers.remove ⟨id, o.expiry⟩ })

/-- `cancel`. -/
def cancel (id : Nat) (r : Timers κ) : Bool × Timers κ :=
  match r.objects id with
  | none => (false, r)
  | some o =>
    if !o.armed then (false, r)
    else
      let r := { r with ended := r.ended ++ o.arming.toList }
      let o := { o with armed := false }
      if o.queued then
        let (o, r) := r.delTimer id o
        (true, r.put id (some { o with queued := false }))
      else (true, r.put id (some o))

/-- `~timer()`. -/
def destroy (id : Nat) (r : Timers κ) : Timers κ :=
  match r.objects id with
  | none => r
  | some o =>
    let r := if o.queued then (r.delTimer id o).2 else r
    { r.put id none with ended := if o.armed then r.ended ++ o.arming.toList else r.ended }

/-- `timer(timer&&)`. -/
def move (src dst : Nat) (r : Timers κ) : Timers κ :=
  match r.objects src, r.objects dst with
  | some o, none =>
    { (r.put dst (some o)).put src
        (some { o with callback := none, queued := false, armed := false, arming := none }) with
      timers := r.timers.swapNodes src dst
      expiredTimers := r.expiredTimers.map fun id => if id = src then dst else id }
  | _, _ => r

/-- The loop of `complete_timers`, up to the next callback. -/
def nextCallback : List Nat → Timers κ → Except Fault (Timers κ)
  | [], r => .ok { r with expiredTimers := [], control := .idle }
  | id :: ids, r =>
    match r.objects id with
    | none => .error .destroyed
    | some o =>
      let o := { o with queued := false }
      if o.armed then
        let o := { o with armed := false }
        let r := { r with
          expiredTimers := ids
          control := .callback
          calls := r.calls ++ o.arming.toList.map fun n => Call.mk n r.now o.callback }
        match o.period with
        | some period => .ok (r.queueTimer id o (r.now + period) (some period))
        | none => .ok (r.put id (some o))
      else nextCallback ids (r.put id (some o))

/-- `complete_timers`, up to the first callback. -/
def completeTimers (r : Timers κ) : Except Fault (Timers κ) := do
  let (exp, timers) ← r.timers.expire r.now
  let ids := exp.map (·.id)
  let objects := fun id =>
    if id ∈ ids then (r.objects id).map fun o => { o with expired := true } else r.objects id
  nextCallback ids { r with timers, objects, expiredTimers := ids, before := r.armings.length }

/-- What can happen, in a callback or outside of one. -/
inductive Event (κ : Type)
  | construct (id : Nat) (callback : Option κ)
  | setCallback (id : Nat) (callback : κ)
  | arm (id : Nat) (expiry : Int64) (period : Option Int64)
  | armPeriodic (id : Nat) (delta : Int64)
  | rearm (id : Nat) (expiry : Int64) (period : Option Int64)
  | cancel (id : Nat)
  | move (src dst : Nat)
  | destroy (id : Nat)
  /-- the clock goes on -/
  | advance (now : Int64)
  | completeTimers
  /-- a callback returns, or throws -/
  | callbackDone
  deriving DecidableEq, Repr

/-- One event. What is done to a timer that is not there, a clock that goes back, and what cannot
happen where `complete_timers` is, is nothing. -/
def step (r : Timers κ) : Event κ → Except Fault (Timers κ)
  | .construct id callback =>
    .ok (if (r.objects id).isNone then r.put id (some { callback }) else r)
  | .setCallback id callback =>
    .ok (match r.objects id with
      | none => r
      | some o => r.put id (some { o with callback := some callback }))
  | .arm id expiry period => r.arm id expiry period
  | .armPeriodic id delta => r.arm id (r.now + delta) (some delta)
  | .rearm id expiry period => (r.cancel id).2.arm id expiry period
  | .cancel id => .ok (r.cancel id).2
  | .move src dst => .ok (r.move src dst)
  | .destroy id => .ok (r.destroy id)
  | .advance now => .ok (if r.now ≤ now then { r with now } else r)
  | .completeTimers => if r.control = .idle then r.completeTimers else .ok r
  | .callbackDone => if r.control = .callback then nextCallback r.expiredTimers r else .ok r

/-- The timers after the events, oldest first. -/
def run : Timers κ → List (Event κ) → Except Fault (Timers κ) := Run.run step

/-- Only timers that are not armed are armed. -/
def Allowed (r : Timers κ) : Event κ → Prop
  | .arm id _ _ => ∀ o ∈ r.objects id, o.armed = false
  | .armPeriodic id _ => ∀ o ∈ r.objects id, o.armed = false
  | _ => True

instance (r : Timers κ) (e : Event κ) : Decidable (Allowed r e) := by
  cases e <;> unfold Allowed <;> infer_instance

/-- The armings whose callback was called. -/
def ran (r : Timers κ) : List Nat := r.calls.map (·.arming)

end Timers

end Seastar
