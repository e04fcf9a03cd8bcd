import Seastar.Core.ExpiringFifo
import Seastar.Core.Fault
import Seastar.Lib.Run
import Mathlib.Data.Int.ModEq

/-!
`basic_semaphore` of `core/semaphore.hh`, as a state machine over its calls and
the expirations of its waiters. Waiters are granted in order, and the counter is
what was deposited minus what was taken. The oldest waiter asks for more than
there is, as long as no waiter expires in front of one that asks for less:
`signal` is the only place that looks at the front of the queue.
-/

namespace Seastar

open Lib

/-- A value stored in an `ssize_t`. -/
def ssize (n : Int) : Int := n.bmod (2 ^ 64)

theorem ssize_of_fits {n : Int} (h₁ : -2 ^ 63 ≤ n) (h₂ : n < 2 ^ 63) : ssize n = n :=
  Int.bmod_eq_of_le (by omega) (by omega)

/-- `basic_semaphore::entry`; the promise is named by the number of the call. -/
structure Waiter where
  pr : Nat
  nr : Nat
  deriving DecidableEq, Repr

/-- `class basic_semaphore`. -/
structure Semaphore where
  count : Int
  ex : Bool := false
  waitList : ExpiringFifo Waiter := {}
  /-- history: the number of calls of `wait` and `try_wait` -/
  calls : Nat := 0
  /-- history: the calls whose units were taken, oldest first -/
  granted : List Waiter := []
  /-- history: the units deposited -/
  signalled : Nat := 0
  /-- history: the units consumed -/
  consumed : Nat := 0
  deriving DecidableEq, Repr

namespace Semaphore

/-- `basic_semaphore(size_t count)`. -/
def init (count : Nat) : Semaphore := { count := ssize count }

/-- `has_available_units`. -/
def hasAvailableUnits (nr : Nat) (s : Semaphore) : Bool := 0 ≤ s.count && nr ≤ s.count.toNat

/-- `may_proceed`. -/
def mayProceed (nr : Nat) (s : Semaphore) : Bool := s.hasAvailableUnits nr && s.waitList.empty

/-- Take the units of a waiter. -/
def take (x : Waiter) (s : Semaphore) : Semaphore :=
  { s with count := ssize (s.count - x.nr), granted := s.granted ++ [x] }

/-- `wait`, with whether the timeout is less than `time_point::max()`. -/
def wait (armed : Bool) (nr : Nat) (s : Semaphore) : Semaphore :=
  let x : Waiter := ⟨s.calls, nr⟩
  let s := { s with calls := s.calls + 1 }
  if s.mayProceed nr then s.take x
  else if s.ex then s
  else { s with waitList := s.waitList.pushBack x armed }

/-- `try_wait`. -/
def tryWait (nr : Nat) (s : Semaphore) : Bool × Semaphore :=
  let x : Waiter := ⟨s.calls, nr⟩
  let s := { s with calls := s.calls + 1 }
  if s.mayProceed nr then (true, s.take x) else (false, s)

/-- The loop of `signal`: grant the front waiter while there are units for it. -/
def grantFront : Nat → Semaphore → Semaphore
  | 0, s => s
  | fuel + 1, s =>
    match s.waitList.front with
    | none => s
    | some x =>
      if s.hasAvailableUnits x.nr then
        grantFront fuel { s.take x with waitList := s.waitList.popFront }
      else s

/-- `signal`. -/
def signal (nr : Nat) (s : Semaphore) : Semaphore :=
  if s.ex then s
  else
    grantFront s.waitList.size
      { s with count := ssize (s.count + nr), signalled := s.signalled + nr }

/-- `consume`. -/
def consume (nr : Nat) (s : Semaphore) : Semaphore :=
  if s.ex then s
  else { s with count := ssize (s.count - nr), consumed := s.consumed + nr }

/-- The timer of a waiter expires. -/
def expire (key : Nat) (s : Semaphore) : Semaphore :=
  match s.waitList.expiring key with
  | none => s
  | some _ => { s with waitList := s.waitList.expire key }

/-- What can happen to a semaphore. -/
inductive Action
  | wait (armed : Bool) (nr : Nat)
  | tryWait (nr : Nat)
  | signal (nr : Nat)
  | consume (nr : Nat)
  | expire (key : Nat)
  deriving DecidableEq, Repr

/-- One action. -/
def step (s : Semaphore) : Action → Except Fault Semaphore
  | .wait armed nr => .ok (s.wait armed nr)
  | .tryWait nr => .ok (s.tryWait nr).2
  | .signal nr => .ok (s.signal nr)
  | .consume nr => .ok (s.consume nr)
  | .expire key => .ok (s.expire key)

/-- The semaphore after the actions, oldest first. -/
def run : Semaphore → List Action → Except Fault Semaphore := Run.run step

/-- The waiters left, oldest first. -/
def waiters (s : Semaphore) : List Waiter := s.waitList.live.map Prod.snd

/-! ## The invariant -/

/-- The exact number of units that are left. -/
def balance (initial : Nat) (s : Semaphore) : Int :=
  initial + s.signalled - s.consumed - (s.granted.map Waiter.nr).sum

/-- Calls are numbered, waiters wait and are granted in the order of their calls, and the
counter is exact. -/
structure Ordered (initial : Nat) (s : Semaphore) : Prop where
  fifo : s.waitList.WF
  notBroken : s.ex = false
  calls : (s.granted ++ s.waiters).Pairwise fun x y => x.pr < y.pr
  numbered : ∀ x ∈ s.granted ++ s.waiters, x.pr < s.calls
  count : s.count = s.balance initial
  lower : -2 ^ 63 ≤ s.count
  upper : s.count < 2 ^ 63

/-- The oldest waiter asks for more units than there are. -/
def Asleep (s : Semaphore) : Prop := ∀ x ∈ s.waiters.head?, s.hasAvailableUnits x.nr = false

variable {initial : Nat} {s : Semaphore}

theorem hasAvailableUnits_iff (nr : Nat) (s : Semaphore) :
    s.hasAvailableUnits nr = true ↔ (nr : Int) ≤ s.count := by
  rw [hasAvailableUnits, Bool.and_eq_true, decide_eq_true_eq, decide_eq_true_eq]
  omega

theorem Ordered.front (h : s.Ordered initial) : s.waitList.front = s.waiters.head? := by
  rw [h.fifo.front_eq, waiters, List.head?_map]

theorem Ordered.init (h : initial < 2 ^ 63) : (Semaphore.init initial).Ordered initial := by
  have hfit : ssize (initial : Int) = initial := by
    refine ssize_of_fits ?_ ?_
    · omega
    · omega
  have hc : (Semaphore.init initial).count = initial := by
    simp only [Semaphore.init, hfit]
  refine ⟨.initial, rfl, List.Pairwise.nil, by exact nofun, ?_, ?_, ?_⟩
  · rw [hc]
    simp [Semaphore.balance, Semaphore.init]
  · rw [hc]
    omega
  · rw [hc]
    omega

/-- The units of `x` are taken, when there are that many and `x` is next. -/
theorem Ordered.take {x : Waiter} {rest : List Waiter} {calls : Nat} {waitList : ExpiringFifo Waiter}
    (h : s.Ordered initial) (ha : s.hasAvailableUnits x.nr = true) (hf : waitList.WF)
    (hl : waitList.live.map Prod.snd = rest)
    (ho : (s.granted ++ x :: rest).Pairwise fun x y => x.pr < y.pr)
    (hn : ∀ y ∈ s.granted ++ x :: rest, y.pr < calls) :
    ({ s.take x with waitList := waitList, calls := calls } : Semaphore).Ordered initial := by
  rw [hasAvailableUnits_iff] at ha
  have hlow := h.lower
  have hup := h.upper
  have hc : ssize (s.count - x.nr) = s.count - x.nr := ssize_of_fits (by omega) (by omega)
  have hw : ({ s.take x with waitList := waitList, calls := calls } : Semaphore).waiters = rest := hl
  refine ⟨hf, h.notBroken, ?_, ?_, ?_, ?_, ?_⟩
  · rw [hw]
    simpa [Semaphore.take] using ho
  · rw [hw]
    simpa [Semaphore.take] using hn
  · show ssize (s.count - x.nr) = _
    rw [hc, h.count]
    simp [Semaphore.balance, Semaphore.take]
    omega
  · show -2 ^ 63 ≤ ssize (s.count - x.nr)
    omega
  · show ssize (s.count - x.nr) < 2 ^ 63
    omega

/-- Granting the front waiter. -/
theorem Ordered.grant {x : Waiter} {rest : List Waiter} (h : s.Ordered initial)
    (hw : s.waiters = x :: rest) (ha : s.hasAvailableUnits x.nr = true) :
    ({ s.take x with waitList := s.waitList.popFront } : Semaphore).Ordered initial ∧
      ({ s.take x with waitList := s.waitList.popFront } : Semaphore).waiters = rest := by
  have hl : s.waitList.popFront.live.map Prod.snd = rest := by
    have := congrArg List.tail hw
    rwa [waiters, ← List.map_tail, ← h.fifo.live_popFront] at this
  refine ⟨?_, hl⟩
  have := h.take ha h.fifo.popFront hl (by rw [← hw]; exact h.calls)
    (by rw [← hw]; exact h.numbered)
  exact this

/-- The loop of `signal` ends with a front waiter that has to wait. -/
theorem grantFront_spec {fuel : Nat} (h : s.Ordered initial) (hf : s.waiters.length ≤ fuel) :
    (grantFront fuel s).Ordered initial ∧ (grantFront fuel s).Asleep := by
  induction fuel generalizing s with
  | zero =>
    refine ⟨h, ?_⟩
    rw [grantFront, Asleep, List.eq_nil_of_length_eq_zero (Nat.le_zero.mp hf)]
    exact nofun
  | succ fuel ih =>
    rw [grantFront, h.front]
    rcases hw : s.waiters with _ | ⟨x, rest⟩
    · refine ⟨h, ?_⟩
      show s.Asleep
      rw [Asleep, hw]
      exact nofun
    · simp only [List.head?_cons]
      split
      · rename_i ha
        obtain ⟨ho, hr⟩ := h.grant hw ha
        refine ih ho ?_
        rw [hr]
        rw [hw, List.length_cons] at hf
        omega
      · rename_i ha
        refine ⟨h, ?_⟩
        rw [Asleep, hw]
        rintro y ⟨⟩
        simpa using ha

/-! ## One action -/

/-- A waiter expires in front of one for which there are enough units. -/
def Uncovers (s : Semaphore) : Action → Prop
  | .expire key => s.waitList.expiring key ≠ none ∧ s.waitList.live.head?.map Prod.fst = some key ∧
      ∃ y ∈ s.waiters.tail.head?, s.hasAvailableUnits y.nr = true
  | _ => False

/-- The counter does not fit the `ssize_t` it is kept in. -/
def Overflows (s : Semaphore) : Action → Prop
  | .signal nr => 2 ^ 63 ≤ s.count + nr
  | .consume nr => s.count - nr < -2 ^ 63
  | _ => False

instance (s : Semaphore) (a : Action) : Decidable (Uncovers s a) := by
  cases a <;> unfold Uncovers <;> infer_instance

instance (s : Semaphore) (a : Action) : Decidable (Overflows s a) := by
  cases a <;> unfold Overflows <;> infer_instance

theorem Asleep.of_count {t : Semaphore} (h : s.Asleep) (hw : t.waiters = s.waiters)
    (hc : t.count ≤ s.count) : t.Asleep := by
  intro x hx
  rw [hw] at hx
  have hn := h x hx
  rw [← Bool.not_eq_true, hasAvailableUnits_iff] at hn ⊢
  omega

theorem Ordered.empty_iff (h : s.Ordered initial) : s.waitList.empty = true ↔ s.waiters = [] := by
  rw [h.fifo.empty_iff, waiters, List.map_eq_nil_iff]

/-- A call that proceeds finds no waiter, so it is granted after all others. -/
theorem Ordered.proceed {nr : Nat} (h : s.Ordered initial)
    (hm : ({ s with calls := s.calls + 1 } : Semaphore).mayProceed nr = true) :
    (({ s with calls := s.calls + 1 } : Semaphore).take ⟨s.calls, nr⟩).Ordered initial ∧
      (({ s with calls := s.calls + 1 } : Semaphore).take ⟨s.calls, nr⟩).Asleep := by
  obtain ⟨ha, he⟩ := Bool.and_eq_true_iff.mp hm
  have hw : s.waiters = [] := h.empty_iff.mp he
  have hcalls := h.calls
  have hnum := h.numbered
  rw [hw, List.append_nil] at hcalls hnum
  refine ⟨h.take (x := ⟨s.calls, nr⟩) ha h.fifo hw ?_ ?_, ?_⟩
  · refine List.pairwise_append.mpr ⟨hcalls, List.pairwise_singleton _ _, fun x hx y hy => ?_⟩
    rw [List.mem_singleton.mp hy]
    exact hnum x hx
  · intro y hy
    rcases List.mem_append.mp hy with hy | hy
    · exact Nat.lt_succ_of_lt (hnum y hy)
    · rw [List.mem_singleton.mp hy]
      exact Nat.lt_succ_self _
  · intro x hx
    have : (({ s with calls := s.calls + 1 } : Semaphore).take ⟨s.calls, nr⟩).waiters = [] := hw
    rw [this] at hx
    cases hx

theorem wait_spec {armed : Bool} {nr : Nat} (h : s.Ordered initial) (hs : s.Asleep) :
    (s.wait armed nr).Ordered initial ∧ (s.wait armed nr).Asleep := by
  unfold wait
  simp only
  split
  · rename_i hm
    exact h.proceed hm
  · rename_i hm
    rw [if_neg (by simp [h.notBroken])]
    have hw : ({ s with
        calls := s.calls + 1, waitList := s.waitList.pushBack ⟨s.calls, nr⟩ armed } : Semaphore).waiters =
        s.waiters ++ [⟨s.calls, nr⟩] := by
      simp [waiters]
    refine ⟨⟨h.fifo.pushBack _ _, h.notBroken, ?_, ?_, h.count, h.lower, h.upper⟩, ?_⟩
    · rw [hw, ← List.append_assoc]
      refine List.pairwise_append.mpr ⟨h.calls, List.pairwise_singleton _ _, fun x hx y hy => ?_⟩
      rw [List.mem_singleton.mp hy]
      exact h.numbered x hx
    · rw [hw, ← List.append_assoc]
      intro y hy
      rcases List.mem_append.mp hy with hy | hy
      · exact Nat.lt_succ_of_lt (h.numbered y hy)
      · rw [List.mem_singleton.mp hy]
        exact Nat.lt_succ_self _
    · intro x hx
      rw [hw] at hx
      rcases hl : s.waiters with _ | ⟨y, rest⟩
      · -- the new waiter is the oldest: it did not proceed for lack of units
        rw [hl] at hx
        obtain rfl := Option.some.inj hx
        have he := h.empty_iff.mpr hl
        rw [Bool.not_eq_true, mayProceed, Bool.and_eq_false_iff] at hm
        rcases hm with hm | hm
        · exact hm
        · exact absurd he (by rw [show s.waitList.empty = false from hm]; decide)
      · rw [hl] at hx
        exact hs x (by rw [hl]; exact hx)

theorem tryWait_spec {nr : Nat} (h : s.Ordered initial) (hs : s.Asleep) :
    (s.tryWait nr).2.Ordered initial ∧ (s.tryWait nr).2.Asleep := by
  unfold tryWait
  simp only
  split
  · rename_i hm
    exact h.proceed hm
  · exact ⟨⟨h.fifo, h.notBroken, h.calls, fun x hx => Nat.lt_succ_of_lt (h.numbered x hx), h.count,
      h.lower, h.upper⟩, hs⟩

theorem signal_spec {nr : Nat} (h : s.Ordered initial) (hc : ¬ Overflows s (.signal nr)) :
    (s.signal nr).Ordered initial ∧ (s.signal nr).Asleep := by
  have hlow := h.lower
  have hfit : ssize (s.count + nr) = s.count + nr :=
    ssize_of_fits (by omega) (by simpa [Overflows] using hc)
  unfold Overflows at hc
  rw [signal, if_neg (by simp [h.notBroken])]
  refine grantFront_spec ⟨h.fifo, h.notBroken, h.calls, h.numbered, ?_, ?_, ?_⟩ ?_
  · show ssize (s.count + nr) = _
    rw [hfit, h.count]
    simp [balance]
    omega
  · show -2 ^ 63 ≤ ssize (s.count + nr)
    omega
  · show ssize (s.count + nr) < 2 ^ 63
    omega
  · rw [h.fifo.size]
    exact Nat.le_of_eq (List.length_map _)

theorem consume_spec {nr : Nat} (h : s.Ordered initial) (hs : s.Asleep)
    (hc : ¬ Overflows s (.consume nr)) :
    (s.consume nr).Ordered initial ∧ (s.consume nr).Asleep := by
  have hup := h.upper
  unfold Overflows at hc
  have hfit : ssize (s.count - nr) = s.count - nr := ssize_of_fits (by omega) (by omega)
  rw [consume, if_neg (by simp [h.notBroken])]
  refine ⟨⟨h.fifo, h.notBroken, h.calls, h.numbered, ?_, ?_, ?_⟩, hs.of_count rfl ?_⟩
  · show ssize (s.count - nr) = _
    rw [hfit, h.count]
    simp [balance]
    omega
  · show -2 ^ 63 ≤ ssize (s.count - nr)
    omega
  · show ssize (s.count - nr) < 2 ^ 63
    omega
  · show ssize (s.count - nr) ≤ s.count
    omega

/-- The waiters left after one has expired. -/
theorem Ordered.expire {key : Nat} {x : Waiter} (h : s.Ordered initial)
    (hx : s.waitList.expiring key = some x) :
    ({ s with waitList := s.waitList.expire key } : Semaphore).Ordered initial := by
  have hsub : ({ s with waitList := s.waitList.expire key } : Semaphore).waiters.Sublist s.waiters := by
    rw [waiters, waiters, ExpiringFifo.live_expire]
    exact List.filter_sublist.map _
  have happ := (List.Sublist.refl s.granted).append hsub
  exact ⟨h.fifo.expire hx, h.notBroken, h.calls.sublist happ, fun y hy => h.numbered y (happ.subset hy),
    h.count, h.lower, h.upper⟩

/-- Only the front of the queue matters. -/
theorem expire_front {key : Nat} {x : Waiter} (h : s.Ordered initial)
    (hx : s.waitList.expiring key = some x) :
    ({ s with waitList := s.waitList.expire key } : Semaphore).waiters.head? =
      if s.waitList.live.head?.map Prod.fst = some key then s.waiters.tail.head?
      else s.waiters.head? := by
  have hk := h.fifo.live_keys
  have hmem := ExpiringFifo.mem_live_of_expiring hx
  rw [waiters, waiters, ExpiringFifo.live_expire]
  generalize s.waitList.live = l at hk hmem ⊢
  rcases l with _ | ⟨e, l⟩
  · cases hmem
  · rw [List.pairwise_cons] at hk
    by_cases he : e.1 = key
    · have hl : l.filter (fun e => e.1 ≠ key) = l :=
        List.filter_eq_self.mpr fun d hd => decide_eq_true (he ▸ Nat.ne_of_gt (hk.1 d hd))
      rw [List.filter_cons_of_neg (by simp [he]), hl]
      simp [he]
    · simp [he]

theorem expire_spec {key : Nat} (h : s.Ordered initial) (hs : s.Asleep)
    (hu : ¬ Uncovers s (.expire key)) :
    (s.expire key).Ordered initial ∧ (s.expire key).Asleep := by
  unfold expire
  split
  · exact ⟨h, hs⟩
  · rename_i x hx
    refine ⟨h.expire hx, fun y hy => ?_⟩
    rw [expire_front h hx] at hy
    split at hy
    · rename_i hf
      rw [← Bool.not_eq_true]
      exact fun ha => hu ⟨by rw [hx]; exact nofun, hf, y, hy, ha⟩
    · exact hs y hy

/-- One action that uncovers no waiter and does not overflow keeps the invariant. -/
theorem step_spec {a : Action} {t : Semaphore} (h : s.Ordered initial ∧ s.Asleep)
    (ha : ¬ Uncovers s a ∧ ¬ Overflows s a) (ht : step s a = .ok t) :
    t.Ordered initial ∧ t.Asleep := by
  cases a with
  | wait armed nr =>
    obtain rfl := Except.ok.inj ht
    exact wait_spec h.1 h.2
  | tryWait nr =>
    obtain rfl := Except.ok.inj ht
    exact tryWait_spec h.1 h.2
  | signal nr =>
    obtain rfl := Except.ok.inj ht
    exact signal_spec h.1 ha.2
  | consume nr =>
    obtain rfl := Except.ok.inj ht
    exact consume_spec h.1 h.2 ha.2
  | expire key =>
    obtain rfl := Except.ok.inj ht
    exact expire_spec h.1 h.2 ha.1

/-! ## Runs -/

/-- In every run in which no waiter expires in front of one that could be granted, and the
counter does not overflow: in every state the oldest waiter asks for more units than
there are, units were granted in the order of the calls, and the counter is exact.
The expiry of such a waiter leaves one asleep that could be granted. -/
theorem run_grants (initial : Nat) (as : List Action) (hi : initial < 2 ^ 63)
    (h : Run.Along step (fun s a => ¬ Uncovers s a ∧ ¬ Overflows s a) (init initial) as) :
    (∀ pre post s, as = pre ++ post → run (init initial) pre = .ok s →
      s.Asleep ∧ s.granted.Pairwise (fun x y => x.pr < y.pr) ∧ s.count = s.balance initial) ∧
    ∀ s a t, run (init initial) as = .ok s → Uncovers s a → step s a = .ok t → ¬ t.Asleep := by
  have hstart : (init initial).Ordered initial ∧ (init initial).Asleep := by
    refine ⟨.init hi, ?_⟩
    intro x hx
    cases hx
  have hinv : ∀ pre post s, as = pre ++ post → run (init initial) pre = .ok s →
      s.Ordered initial ∧ s.Asleep := by
    rintro pre post s rfl hpre
    exact Run.run_inv (I := fun s => s.Ordered initial ∧ s.Asleep)
      (fun s a t hs ha ht => step_spec hs ha ht) hstart h.of_append hpre
  constructor
  · intro pre post s has hpre
    obtain ⟨ho, hs⟩ := hinv pre post s has hpre
    exact ⟨hs, (List.pairwise_append.mp ho.calls).1, ho.count⟩
  · intro s a t hr hu ht hs
    obtain ⟨ho, -⟩ := hinv as [] s (List.append_nil _).symm hr
    cases a with
    | expire key =>
      obtain ⟨hx, hf, y, hy, hav⟩ := hu
      obtain ⟨x, hx⟩ := Option.ne_none_iff_exists'.mp hx
      obtain rfl := Except.ok.inj ht
      have he : s.expire key = { s with waitList := s.waitList.expire key } := by
        rw [expire, hx]
      rw [he] at hs
      have := hs y (by rw [expire_front ho hx, if_pos hf]; exact hy)
      exact absurd hav (by rw [show s.hasAvailableUnits y.nr = false from this]; decide)
    | wait _ _ => exact hu
    | tryWait _ => exact hu
    | signal _ => exact hu
    | consume _ => exact hu

/-- One unit; a call for two units waits until it times out, a call for one unit waits
behind it. -/
def timedOut : List Action := [.wait true 2, .wait false 1, .expire 0]

/-- When the second waiter times out instead, nothing is uncovered. -/
theorem run_grants_expire : ∃ s, run (init 1) [.wait true 2, .wait true 1, .expire 1] = .ok s ∧
    s.Asleep ∧ s.granted.Pairwise (fun x y => x.pr < y.pr) ∧ s.count = s.balance 1 :=
  ⟨_, rfl, (run_grants 1 [.wait true 2, .wait true 1, .expire 1] (by decide) (by decide)).1
    [.wait true 2, .wait true 1, .expire 1] [] _ rfl rfl⟩

/-- The waiter for one unit sleeps on, with one unit available. -/
theorem timedOut_asleep : ∃ s, run (init 1) timedOut = .ok s ∧ s.waiters = [⟨1, 1⟩] ∧
    s.hasAvailableUnits 1 = true :=
  ⟨_, rfl, by decide, by decide⟩

end Semaphore

end Seastar
