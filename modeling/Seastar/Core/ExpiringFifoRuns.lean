import Seastar.Core.ExpiringFifo
import Seastar.Core.Fault
import Seastar.Lib.Run

/-!
Runs of an `expiring_fifo`, beside a list from which elements are popped in front and
expire anywhere. The container holds the elements of that list, it pops them in the
order in which they were pushed, and every element leaves it once.
-/

namespace Seastar

open Lib

variable {T : Type}

namespace ExpiringFifo

/-- What can happen to the container: its callers push and pop, and the timer of an element
expires. -/
inductive Action (T : Type)
  | pushBack (payload : T) (armed : Bool)
  | popFront
  | expire (key : Nat)
  deriving DecidableEq, Repr

/-- The container with its history: the elements pushed, popped, and given to `_on_expiry`,
each in order of time and with its key. -/
structure History (T : Type) where
  fifo : ExpiringFifo T := {}
  pushed : List (Nat × T) := []
  popped : List (Nat × T) := []
  expired : List (Nat × T) := []
  deriving DecidableEq, Repr

/-- One action. A container without elements has no front to take and pop, and a timer that
expires has its element in the container. -/
def step (h : History T) : Action T → Except Fault (History T)
  | .pushBack payload armed =>
    .ok { h with
      fifo := h.fifo.pushBack payload armed
      pushed := h.pushed ++ [(h.fifo.pushed, payload)] }
  | .popFront =>
    match h.fifo.list with
    | ⟨key, some payload, _⟩ :: _ =>
      .ok { h with fifo := h.fifo.popFront, popped := h.popped ++ [(key, payload)] }
    | _ => .error .emptyQueue
  | .expire key =>
    match h.fifo.expiring key with
    | some payload =>
      .ok { h with fifo := h.fifo.expire key, expired := h.expired ++ [(key, payload)] }
    | none => .error .emptyQueue

/-- The container after the actions, oldest first. -/
def run : History T → List (Action T) → Except Fault (History T) := Run.run step

/-- The front is popped only when there is one, and only the timer of an element that is left
expires. -/
def Valid (h : History T) : Action T → Prop
  | .pushBack _ _ => True
  | .popFront => h.fifo.empty = false
  | .expire key => (h.fifo.expiring key).isSome

instance (h : History T) (a : Action T) : Decidable (Valid h a) := by
  cases a <;> unfold Valid <;> infer_instance

/-! ## The list -/

/-- A list of elements with their numbers in the order of the pushes. -/
structure Plain (T : Type) where
  left : List (Nat × T) := []
  next : Nat := 0
  deriving DecidableEq, Repr

/-- A push goes to the end, a pop takes the first element, an expiry the one of its number. -/
def Plain.step (p : Plain T) : Action T → Plain T
  | .pushBack payload _ => { left := p.left ++ [(p.next, payload)], next := p.next + 1 }
  | .popFront => { p with left := p.left.tail }
  | .expire key => { p with left := p.left.filter fun e => e.1 ≠ key }

/-- The payloads that are pushed. -/
def payloads (as : List (Action T)) : List T :=
  as.filterMap fun
    | .pushBack payload _ => some payload
    | _ => none

/-! ## The invariant -/

/-- The container holds the elements of the list; every element that was pushed has been popped,
has expired or is left; and those popped were pushed before those left. -/
structure Refines (h : History T) (p : Plain T) : Prop where
  wf : h.fifo.WF
  live : h.fifo.live = p.left
  next : h.fifo.pushed = p.next
  numbers : h.pushed.map Prod.fst = List.range h.fifo.pushed
  once : (h.popped ++ (h.expired ++ h.fifo.live)).Perm h.pushed
  order : (h.popped ++ h.fifo.live).Pairwise fun a b => a.1 < b.1

variable {h h' : History T} {p : Plain T}

theorem Refines.initial : Refines ({} : History T) {} :=
  ⟨WF.initial, rfl, rfl, rfl, List.Perm.nil, List.Pairwise.nil⟩

theorem Refines.number_lt (hr : Refines h p) {e : Nat × T} (he : e ∈ h.popped ++ h.fifo.live) :
    e.1 < h.fifo.pushed := by
  have hp : e ∈ h.pushed := by
    apply hr.once.subset
    rcases List.mem_append.mp he with he | he
    · exact List.mem_append_left _ he
    · exact List.mem_append_right _ (List.mem_append_right _ he)
  apply List.mem_range.mp
  rw [← hr.numbers]
  exact List.mem_map_of_mem hp

theorem Refines.pushBack (hr : Refines h p) (x : T) (armed : Bool) :
    Refines { h with
      fifo := h.fifo.pushBack x armed
      pushed := h.pushed ++ [(h.fifo.pushed, x)] } (p.step (.pushBack x armed)) where
  wf := hr.wf.pushBack x armed
  live := by
    rw [live_pushBack, hr.live, hr.next]
    rfl
  next := congrArg (· + 1) hr.next
  numbers := by
    rw [List.map_append, hr.numbers]
    exact List.range_succ.symm
  once := by
    rw [live_pushBack, ← List.append_assoc, ← List.append_assoc, List.append_assoc h.popped]
    exact hr.once.append_right _
  order := by
    rw [live_pushBack, ← List.append_assoc, List.pairwise_append]
    refine ⟨hr.order, List.pairwise_singleton _ _, ?_⟩
    intro e he d hd
    rw [List.mem_singleton.mp hd]
    exact hr.number_lt he

/-- A container that is not empty has its oldest element in front. -/
theorem WF.front_entry {f : ExpiringFifo T} (hf : f.WF) (hne : f.empty = false) :
    ∃ key x armed l, f.list = ⟨key, some x, armed⟩ :: l ∧ f.live = (key, x) :: f.live.tail := by
  have hfront := hf.front
  have hlive : f.live ≠ [] := by
    intro h
    rw [hf.empty_iff.mpr h] at hne
    exact Bool.false_ne_true hne.symm
  unfold ExpiringFifo.live at hlive ⊢
  rcases hl : f.list with _ | ⟨⟨key, payload, armed⟩, l⟩
  · rw [hl] at hlive
    exact absurd rfl hlive
  · rw [hl] at hfront
    obtain ⟨x, rfl⟩ : ∃ x, payload = some x := Option.isSome_iff_exists.mp (hfront _ rfl)
    exact ⟨key, x, armed, l, rfl, rfl⟩

theorem Refines.popFront (hr : Refines h p) (hne : h.fifo.empty = false) :
    ∃ h', step h .popFront = .ok h' ∧ Refines h' (p.step .popFront) := by
  obtain ⟨key, x, armed, l, hl, hlive⟩ := hr.wf.front_entry hne
  have hpop := hr.wf.live_popFront
  refine ⟨_, by simp only [step, hl]; rfl, ?_⟩
  refine ⟨hr.wf.popFront, ?_, hr.next, hr.numbers, ?_, ?_⟩
  · rw [hpop, hr.live]
    rfl
  · refine List.Perm.trans ?_ hr.once
    show (h.popped ++ [(key, x)] ++ (h.expired ++ h.fifo.popFront.live)).Perm _
    rw [hpop, hlive, List.tail_cons, List.append_assoc, List.singleton_append]
    exact List.Perm.append_left _ List.perm_middle.symm
  · show (h.popped ++ [(key, x)] ++ h.fifo.popFront.live).Pairwise _
    rw [hpop, List.append_assoc, List.singleton_append, ← hlive]
    exact hr.order

theorem Refines.expire (hr : Refines h p) {key : Nat} {x : T}
    (hx : h.fifo.expiring key = some x) :
    Refines { h with fifo := h.fifo.expire key, expired := h.expired ++ [(key, x)] }
      (p.step (.expire key)) where
  wf := hr.wf.expire hx
  live := by
    rw [live_expire, hr.live]
    rfl
  next := hr.next
  numbers := hr.numbers
  once := by
    refine List.Perm.trans ?_ hr.once
    rw [List.append_assoc, List.singleton_append]
    exact ((hr.wf.perm_expire hx).append_left _).append_left _
  order := by
    apply List.Pairwise.sublist _ hr.order
    rw [live_expire]
    exact List.filter_sublist.append_left _

/-- An action on the container is the action on the list. -/
theorem Refines.step (hr : Refines h p) {a : Action T} (hv : Valid h a) :
    ∃ h', step h a = .ok h' ∧ Refines h' (p.step a) := by
  cases a with
  | pushBack payload armed => exact ⟨_, rfl, hr.pushBack payload armed⟩
  | popFront => exact hr.popFront hv
  | expire key =>
    obtain ⟨x, hx⟩ := Option.isSome_iff_exists.mp hv
    refine ⟨_, ?_, hr.expire hx⟩
    simp only [ExpiringFifo.step, hx]

theorem step_pushed {a : Action T} (hs : step h a = .ok h') :
    h'.pushed.map Prod.snd = h.pushed.map Prod.snd ++ payloads [a] := by
  cases a with
  | pushBack payload armed =>
    obtain rfl := Except.ok.inj hs
    simp [payloads]
  | popFront =>
    dsimp only [step] at hs
    split at hs
    · obtain rfl := Except.ok.inj hs
      simp [payloads]
    · cases hs
  | expire key =>
    dsimp only [step] at hs
    split at hs
    · obtain rfl := Except.ok.inj hs
      simp [payloads]
    · cases hs

theorem Refines.run {as : List (Action T)} (hr : Refines h p)
    (hv : Run.Along ExpiringFifo.step Valid h as) :
    ∃ h', run h as = .ok h' ∧ Refines h' (as.foldl Plain.step p) ∧
      h'.pushed.map Prod.snd = h.pushed.map Prod.snd ++ payloads as := by
  induction as generalizing h p with
  | nil => exact ⟨h, rfl, hr, by simp [payloads]⟩
  | cons a as ih =>
    obtain ⟨t, ht, hrt⟩ := hr.step hv.1
    obtain ⟨h', hrun, hr', hp⟩ := ih hrt (hv.2 t ht)
    refine ⟨h', Run.run_cons_ok.mpr ⟨t, ht, hrun⟩, hr', ?_⟩
    rw [hp, step_pushed ht, List.append_assoc]
    congr 1
    exact List.filterMap_append.symm

/-- In every run the container holds the elements of the list: `size` is their number, `front` the
oldest of them. The elements were pushed with the numbers `0, 1, …` in order, they are popped in
that order, and each of them has been popped once, has been given to `_on_expiry` once, or is
left. -/
theorem run_refines_list (as : List (Action T)) (hv : Run.Along step Valid {} as) :
    ∃ h, run {} as = .ok h ∧
      h.fifo.live = (as.foldl Plain.step {}).left ∧
      h.fifo.size = (as.foldl Plain.step {}).left.length ∧
      h.fifo.front = (as.foldl Plain.step {}).left.head?.map Prod.snd ∧
      h.pushed.map Prod.snd = payloads as ∧
      h.pushed.map Prod.fst = List.range (payloads as).length ∧
      h.popped.Pairwise (fun a b => a.1 < b.1) ∧
      (h.popped ++ (h.expired ++ (as.foldl Plain.step {}).left)).Perm h.pushed := by
  obtain ⟨h, hrun, hr, hp⟩ := Refines.initial.run hv
  have hp : h.pushed.map Prod.snd = payloads as := hp
  have hlen : h.fifo.pushed = (payloads as).length := by
    rw [← hp, List.length_map, ← List.length_range (n := h.fifo.pushed), ← hr.numbers,
      List.length_map]
  refine ⟨h, hrun, hr.live, ?_, ?_, hp, ?_, ?_, ?_⟩
  · rw [hr.wf.size, hr.live]
  · rw [hr.wf.front_eq, hr.live]
  · rw [hr.numbers, hlen]
  · exact (List.pairwise_append.mp hr.order).1
  · rw [← hr.live]
    exact hr.once

/-- Four elements: the second and the third expire, in the wrong order, and the first is popped. -/
theorem run_refines_list_expired :
    Run.Along step Valid {} ([.pushBack 'a' false, .pushBack 'b' true, .pushBack 'c' true,
      .pushBack 'd' false, .expire 2, .expire 1, .popFront] : List (Action Char)) ∧
    ∃ h, run {} ([.pushBack 'a' false, .pushBack 'b' true, .pushBack 'c' true,
      .pushBack 'd' false, .expire 2, .expire 1, .popFront] : List (Action Char)) = .ok h ∧
      h.fifo.size = 1 ∧ h.fifo.front = some 'd' := by
  have hv : Run.Along step Valid {} ([.pushBack 'a' false, .pushBack 'b' true,
      .pushBack 'c' true, .pushBack 'd' false, .expire 2, .expire 1, .popFront] :
      List (Action Char)) := by decide +kernel
  obtain ⟨h, hrun, -, hsize, hfront, -⟩ := run_refines_list _ hv
  exact ⟨hv, h, hrun, hsize, hfront⟩

end ExpiringFifo

end Seastar
