import Mathlib.Data.Fintype.Card
import Mathlib.Data.List.Sort
import Seastar.Core.Fault
import Seastar.Lib.Run

/-!
The task queues of `reactor`: `add_task`, `activate`, the sorted list of active queues and
`run_some_tasks`, in steps between which a running task may add tasks. The time a run has taken and
what `need_preempt()` says each time are inputs.
-/

namespace Seastar

open Lib

/-- `scheduling_group`: one of `max_scheduling_groups()`. -/
abbrev SchedulingGroup := Fin 16

namespace Scheduler

/-- A task of a group. -/
structure Task (τ : Type) where
  group : SchedulingGroup
  body : τ
  /-- history: it was added by `add_urgent_task` -/
  urgent : Bool
  deriving DecidableEq, Repr

/-- `reactor::task_queue`. -/
structure TaskQueue (τ : Type) where
  vruntime : Int64 := 0
  reciprocalShares : Int64
  current : Bool := false
  active : Bool := false
  q : List (Task τ) := []

/-- `to_vruntime`. -/
def TaskQueue.toVruntime {τ : Type} (runtime : Int64) (tq : TaskQueue τ) : Int64 :=
  max ((runtime * tq.reciprocalShares) >>> 32) 0

/-- Where `run_some_tasks` is. -/
inductive Control
  /-- not called -/
  | idle
  /-- in `run_tasks`, before the next task -/
  | next (tq : SchedulingGroup)
  /-- in a task -/
  | inTask (tq : SchedulingGroup)
  /-- `run_tasks` has returned -/
  | returned (tq : SchedulingGroup)
  deriving DecidableEq, Repr

/-- The queue that is run. -/
def Control.running : Control → Option SchedulingGroup
  | .idle => none
  | .next tq => some tq
  | .inTask tq => some tq
  | .returned tq => some tq

end Scheduler

/-- The scheduler of `reactor`. -/
structure Scheduler (τ : Type) where
  maxTaskBacklog : Nat := 1000
  taskQueues : SchedulingGroup → Scheduler.TaskQueue τ
  lastVruntime : Int64 := 0
  activeTaskQueues : List SchedulingGroup := []
  activatingTaskQueues : List SchedulingGroup := []
  control : Scheduler.Control := .idle
  /-- history: the tasks that were added, in the order of the calls -/
  added : List (Scheduler.Task τ) := []
  /-- history: the tasks that were run -/
  ran : List (Scheduler.Task τ) := []
  /-- history: the calls of `run_some_tasks` that had something to do and have returned -/
  calls : Nat := 0

namespace Scheduler

variable {τ : Type}

/-- A queue is changed. -/
def change (tq : SchedulingGroup) (f : TaskQueue τ → TaskQueue τ) (r : Scheduler τ) :
    Scheduler τ :=
  { r with taskQueues := Function.update r.taskQueues tq (f (r.taskQueues tq)) }

/-- `indirect_compare`. -/
def less (r : Scheduler τ) (tq1 tq2 : SchedulingGroup) : Bool :=
  (r.taskQueues tq1).vruntime < (r.taskQueues tq2).vruntime

/-- `have_more_tasks`. -/
def haveMoreTasks (r : Scheduler τ) : Bool :=
  r.activeTaskQueues.length + r.activatingTaskQueues.length ≠ 0

/-- The place that `insert_active_task_queue` finds: the back, or behind the queues at the front that
the new one is not less than. -/
def place (less : SchedulingGroup → SchedulingGroup → Bool) (tq : SchedulingGroup)
    (atq : List SchedulingGroup) : List SchedulingGroup :=
  match atq.getLast? with
  | none => [tq]
  | some back =>
    if less back tq then atq ++ [tq] else List.orderedInsert (fun a b => less a b = true) tq atq

/-- `insert_active_task_queue`. -/
def insertActiveTaskQueue (tq : SchedulingGroup) (r : Scheduler τ) : Scheduler τ :=
  let r := r.change tq fun q => { q with active := true }
  { r with activeTaskQueues := place r.less tq r.activeTaskQueues }

/-- `insert_activating_task_queues`. -/
def insertActivatingTaskQueues (r : Scheduler τ) : Scheduler τ :=
  { r.activatingTaskQueues.foldl (fun r tq => r.insertActiveTaskQueue tq) r with
    activatingTaskQueues := [] }

/-- `activate`. -/
def activate (tq : SchedulingGroup) (r : Scheduler τ) : Scheduler τ :=
  if (r.taskQueues tq).active then r
  else
    let r := r.change tq fun q => { q with vruntime := max r.lastVruntime q.vruntime }
    { r with activatingTaskQueues := r.activatingTaskQueues ++ [tq] }

/-- `add_task`, and `add_urgent_task` for a task that is urgent. -/
def addTask (t : Task τ) (r : Scheduler τ) : Scheduler τ :=
  let wasEmpty := (r.taskQueues t.group).q = []
  let r := { r with added := r.added ++ [t] }
  let r := r.change t.group fun q => { q with q := if t.urgent then t :: q.q else q.q ++ [t] }
  if wasEmpty then r.activate t.group else r

/-- The head of the loop of `run_tasks`. -/
def runTasks (tq : SchedulingGroup) (r : Scheduler τ) : Scheduler τ :=
  { r with control := if (r.taskQueues tq).q = [] then .returned tq else .next tq }

/-- The head of the loop of `run_some_tasks`. -/
def runTaskQueue (r : Scheduler τ) : Except Fault (Scheduler τ) :=
  let r := r.insertActivatingTaskQueues
  match r.activeTaskQueues with
  | [] => .error .emptyQueue
  | tq :: atq =>
    let r := { r with
      activeTaskQueues := atq
      lastVruntime := max (r.taskQueues tq).vruntime r.lastVruntime }
    .ok ((r.change tq fun q => { q with current := true }).runTasks tq)

/-- What can happen, in the reactor or around it. -/
inductive Event (τ : Type)
  /-- `add_task` or `add_urgent_task`, by a task or between two calls of `run_some_tasks` -/
  | add (group : SchedulingGroup) (urgent : Bool) (body : τ)
  /-- `run_some_tasks` -/
  | runSomeTasks
  /-- the next task starts -/
  | runTask
  /-- a task returns, `need_preempt()` being `preempt` -/
  | taskDone (preempt : Bool)
  /-- a queue has run for `runtime`, `need_preempt()` being `preempt` -/
  | runCompleted (runtime : Int64) (preempt : Bool)
  /-- `set_shares`, with the quotient it comes to -/
  | setShares (group : SchedulingGroup) (reciprocalShares : Int64)
  deriving DecidableEq, Repr

/-- The end of the loop of `run_some_tasks`, for the queue that was run. -/
def completeRun (tq : SchedulingGroup) (runtime : Int64) (preempt : Bool) (r : Scheduler τ) :
    Except Fault (Scheduler τ) :=
  let r := r.change tq fun q =>
    { q with current := false, vruntime := q.vruntime + q.toVruntime runtime }
  let r := if (r.taskQueues tq).q ≠ [] then r.insertActiveTaskQueue tq
    else r.change tq fun q => { q with active := false }
  if r.haveMoreTasks && !preempt then r.runTaskQueue
  else .ok { r with control := .idle, calls := r.calls + 1 }

/-- One event; one that cannot happen where `run_some_tasks` is leaves all as it is. -/
def step (r : Scheduler τ) (e : Event τ) : Except Fault (Scheduler τ) :=
  match e, r.control with
  | .add group urgent body, .idle => .ok (r.addTask ⟨group, body, urgent⟩)
  | .add group urgent body, .inTask _ => .ok (r.addTask ⟨group, body, urgent⟩)
  | .setShares group reciprocalShares, .idle =>
    .ok (r.change group fun q => { q with reciprocalShares })
  | .setShares group reciprocalShares, .inTask _ =>
    .ok (r.change group fun q => { q with reciprocalShares })
  | .runSomeTasks, .idle =>
    if r.haveMoreTasks then r.runTaskQueue else .ok r
  | .runTask, .next tq =>
    match (r.taskQueues tq).q with
    | [] => .error .emptyQueue
    | t :: q =>
      .ok { r.change tq fun tq => { tq with q } with control := .inTask tq, ran := r.ran ++ [t] }
  | .taskDone preempt, .inTask tq =>
    if preempt && (r.taskQueues tq).q.length ≤ r.maxTaskBacklog then
      .ok { r with control := .returned tq }
    else .ok (r.runTasks tq)
  | .runCompleted runtime preempt, .returned tq => r.completeRun tq runtime preempt
  | _, _ => .ok r

/-- The scheduler after the events, oldest first. -/
def run : Scheduler τ → List (Event τ) → Except Fault (Scheduler τ) := Run.run step

/-- No queue has been used. -/
def initial (maxTaskBacklog : Nat) (reciprocalShares : SchedulingGroup → Int64) : Scheduler τ :=
  { maxTaskBacklog, taskQueues := fun tq => { reciprocalShares := reciprocalShares tq } }

/-! ## The list of active queues -/

variable {r r' : Scheduler τ} {tq g h : SchedulingGroup} {atq : List SchedulingGroup}

/-- `_vruntime` of a queue. -/
def vruntime (r : Scheduler τ) (g : SchedulingGroup) : Int64 := (r.taskQueues g).vruntime

/-- The queues of a list are sorted by `_vruntime`. -/
def Sorted (r : Scheduler τ) (atq : List SchedulingGroup) : Prop :=
  atq.Pairwise fun g h => r.vruntime g ≤ r.vruntime h

theorem less_iff : r.less g h = true ↔ r.vruntime g < r.vruntime h := decide_eq_true_iff

theorem place_perm (less : SchedulingGroup → SchedulingGroup → Bool) (tq : SchedulingGroup)
    (atq : List SchedulingGroup) : (place less tq atq).Perm (tq :: atq) := by
  rw [place]
  cases hback : atq.getLast? with
  | none =>
    obtain rfl := List.getLast?_eq_none_iff.mp hback
    exact .refl _
  | some back =>
    dsimp only
    split
    · exact List.perm_append_singleton tq atq
    · exact List.perm_orderedInsert _ tq atq

/-- Behind the queues it is not less than. -/
theorem Sorted.orderedInsert (h : r.Sorted atq) :
    r.Sorted (List.orderedInsert (fun a b => r.less a b = true) tq atq) := by
  induction atq with
  | nil => exact List.pairwise_singleton _ _
  | cons a atq ih =>
    obtain ⟨ha, hrest⟩ := List.pairwise_cons.mp h
    rw [List.orderedInsert]
    split
    · rename_i hlt
      have hle := Int64.le_of_lt (less_iff.mp hlt)
      refine List.pairwise_cons.mpr ⟨?_, h⟩
      intro b hb
      rcases List.mem_cons.mp hb with rfl | hb
      · exact hle
      · exact Int64.le_trans hle (ha b hb)
    · rename_i hlt
      refine List.pairwise_cons.mpr ⟨?_, ih hrest⟩
      intro b hb
      rcases List.mem_cons.mp ((List.perm_orderedInsert _ tq atq).mem_iff.mp hb) with rfl | hb
      · exact Int64.not_lt.mp fun hlt' => hlt (less_iff.mpr hlt')
      · exact ha b hb

theorem Sorted.place (h : r.Sorted atq) (tq : SchedulingGroup) :
    r.Sorted (Scheduler.place r.less tq atq) := by
  rw [Scheduler.place]
  cases hback : atq.getLast? with
  | none => exact List.pairwise_singleton _ _
  | some back =>
    dsimp only
    split
    · rename_i hlt
      refine List.pairwise_append.mpr ⟨h, List.pairwise_singleton _ _, ?_⟩
      intro a ha b hb
      obtain rfl := List.mem_singleton.mp hb
      obtain ⟨front, rfl⟩ := List.getLast?_eq_some_iff.mp hback
      have hle := Int64.le_of_lt (less_iff.mp hlt)
      rcases List.mem_append.mp ha with ha | ha
      · exact Int64.le_trans ((List.pairwise_append.mp h).2.2 a ha back (List.mem_singleton_self _)) hle
      · obtain rfl := List.mem_singleton.mp ha
        exact hle
    · exact h.orderedInsert

/-- The queues of a list get active. -/
def activated (gs : List SchedulingGroup) (r : Scheduler τ) (g : SchedulingGroup) : TaskQueue τ :=
  { r.taskQueues g with active := decide (g ∈ gs) || (r.taskQueues g).active }

/-- The list after `insert_active_task_queue` for some queues. -/
theorem foldl_insertActive (gs : List SchedulingGroup) (hsorted : r.Sorted r.activeTaskQueues) :
    ∃ atq, gs.foldl (fun r tq => r.insertActiveTaskQueue tq) r =
        { r with taskQueues := r.activated gs, activeTaskQueues := atq } ∧
      atq.Perm (gs ++ r.activeTaskQueues) ∧ r.Sorted atq := by
  induction gs generalizing r with
  | nil =>
    refine ⟨r.activeTaskQueues, ?_, .refl _, hsorted⟩
    have hsame : r.activated [] = r.taskQueues := by
      funext g
      simp [activated]
    rw [hsame]
    rfl
  | cons tq gs ih =>
    have hv : ∀ g, (r.insertActiveTaskQueue tq).vruntime g = r.vruntime g := by
      intro g
      simp only [vruntime, insertActiveTaskQueue, change, Function.update_apply]
      split
      · rename_i hg
        rw [hg]
      · rfl
    have hcongr : ∀ atq, (r.insertActiveTaskQueue tq).Sorted atq ↔ r.Sorted atq := by
      intro atq
      simp only [Sorted, hv]
    have hless : (r.change tq fun q => { q with active := true }).less = r.less := by
      funext a b
      exact congrArg₂ (fun x y => decide (x < y)) (hv a) (hv b)
    have hatq : (r.insertActiveTaskQueue tq).activeTaskQueues =
        place r.less tq r.activeTaskQueues := by
      rw [← hless]
      rfl
    obtain ⟨atq, hfold, hperm, hsorted'⟩ := ih (r := r.insertActiveTaskQueue tq) (by
      rw [hcongr, hatq]
      exact hsorted.place tq)
    refine ⟨atq, ?_, ?_, (hcongr atq).mp hsorted'⟩
    · rw [List.foldl_cons, hfold]
      have hsame : (r.insertActiveTaskQueue tq).activated gs = r.activated (tq :: gs) := by
        funext g
        simp only [activated, insertActiveTaskQueue, change, Function.update_apply, List.mem_cons]
        by_cases hg : g = tq
        · simp [hg]
        · simp [hg]
      rw [hsame]
      rfl
    · rw [hatq] at hperm
      refine hperm.trans ?_
      rw [List.cons_append]
      exact ((place_perm _ tq _).append_left gs).trans List.perm_middle

/-! ## Where the queues are -/

/-- A queue that holds tasks or is run is in one place, `running` being the one that is run; the
active queues are sorted, and none of them is less than the one that is run. -/
structure Placed (running : Option SchedulingGroup) (r : Scheduler τ) : Prop where
  places : ∀ g, r.activeTaskQueues.count g + r.activatingTaskQueues.count g +
    (if running = some g then 1 else 0) =
      if (r.taskQueues g).q ≠ [] ∨ running = some g then 1 else 0
  active : ∀ g, (r.taskQueues g).active = true ↔ g ∈ r.activeTaskQueues ∨ running = some g
  current : ∀ g, (r.taskQueues g).current = true ↔ running = some g
  sorted : r.Sorted r.activeTaskQueues
  least : ∀ g, running = some g → ∀ h ∈ r.activeTaskQueues, r.vruntime g ≤ r.vruntime h

variable {running : Option SchedulingGroup}

theorem change_taskQueues (tq g : SchedulingGroup) (f : TaskQueue τ → TaskQueue τ)
    (r : Scheduler τ) :
    (r.change tq f).taskQueues g = if g = tq then f (r.taskQueues g) else r.taskQueues g := by
  simp only [change, Function.update_apply]
  split
  · rename_i hg
    rw [hg]
  · rfl

/-- Lists of queues with the same `_vruntime` are sorted alike. -/
theorem Sorted.congr (h : r.Sorted atq) (hv : ∀ g ∈ atq, r'.vruntime g = r.vruntime g) :
    r'.Sorted atq := by
  refine List.Pairwise.imp_of_mem ?_ h
  intro a b ha hb hab
  rwa [hv a ha, hv b hb]

/-- The places are the same when the lists are, and the queues that hold tasks or are run. -/
theorem Placed.congr (h : r.Placed running) (hatq : r'.activeTaskQueues = r.activeTaskQueues)
    (hnew : r'.activatingTaskQueues = r.activatingTaskQueues)
    (hq : ∀ g, ((r'.taskQueues g).q ≠ [] ∨ running = some g) ↔
      ((r.taskQueues g).q ≠ [] ∨ running = some g))
    (hflags : ∀ g, (r'.taskQueues g).active = (r.taskQueues g).active ∧
      (r'.taskQueues g).current = (r.taskQueues g).current ∧ r'.vruntime g = r.vruntime g) :
    r'.Placed running where
  places g := by
    rw [hatq, hnew, h.places g]
    simp only [hq]
  active g := by
    rw [hatq, (hflags g).1]
    exact h.active g
  current g := by
    rw [(hflags g).2.1]
    exact h.current g
  sorted := by
    rw [hatq]
    exact h.sorted.congr fun g _ => (hflags g).2.2
  least g hg a ha := by
    rw [(hflags g).2.2, (hflags a).2.2]
    exact h.least g hg a (hatq ▸ ha)

/-- The queue that is run is not in a list. -/
theorem Placed.not_mem (h : r.Placed (some tq)) :
    tq ∉ r.activeTaskQueues ∧ tq ∉ r.activatingTaskQueues := by
  have hone := h.places tq
  simp only [or_true, if_true] at hone
  constructor
  · intro hmem
    have := List.count_pos_iff.mpr hmem
    omega
  · intro hmem
    have := List.count_pos_iff.mpr hmem
    omega

/-- `have_more_tasks` when a queue that is not run holds a task. -/
theorem Placed.haveMoreTasks_iff (h : r.Placed running) :
    r.haveMoreTasks = true ↔ ∃ g, running ≠ some g ∧ (r.taskQueues g).q ≠ [] := by
  rw [haveMoreTasks, decide_eq_true_iff]
  constructor
  · intro hne
    obtain ⟨g, hg⟩ : ∃ g, g ∈ r.activeTaskQueues ++ r.activatingTaskQueues := by
      apply List.exists_mem_of_length_pos
      rw [List.length_append]
      omega
    have hcount := List.count_pos_iff.mpr hg
    rw [List.count_append] at hcount
    have hone := h.places g
    refine ⟨g, ?_, ?_⟩
    · intro hrun
      simp only [hrun, or_true, if_true] at hone
      omega
    · intro hq
      by_cases hrun : running = some g
      · simp only [hrun, or_true, if_true] at hone
        omega
      · simp only [hrun, hq, ne_eq, not_true_eq_false, or_self, if_false] at hone
        omega
  · rintro ⟨g, hrun, hq⟩ hzero
    have hone := h.places g
    rw [if_neg hrun, if_pos (Or.inl hq)] at hone
    have hactive := List.count_le_length (a := g) (l := r.activeTaskQueues)
    have hactivating := List.count_le_length (a := g) (l := r.activatingTaskQueues)
    omega

/-- The tasks and the histories are the same. -/
structure SameTasks (r r' : Scheduler τ) : Prop where
  q : ∀ g, (r'.taskQueues g).q = (r.taskQueues g).q
  added : r'.added = r.added
  ran : r'.ran = r.ran

/-- The second argument of `std::max`. -/
theorem le_max (a b : Int64) : b ≤ max a b := by
  show b ≤ if a ≤ b then b else a
  split
  · exact Int64.le_refl _
  · rename_i h
    exact Int64.le_of_lt (Int64.not_le.mp h)

theorem runTasks_next (h : (r.taskQueues tq).q ≠ []) :
    r.runTasks tq = { r with control := .next tq } := by
  rw [runTasks, if_neg h]

/-- The head of the loop takes the least of the queues with a task. -/
theorem Placed.runTaskQueue (h : r.Placed none) (hmore : r.haveMoreTasks = true) :
    ∃ tq r', r.runTaskQueue = .ok r' ∧ r'.Placed (some tq) ∧ r'.control = .next tq ∧
      (r'.taskQueues tq).q ≠ [] ∧ SameTasks r r' ∧ r'.calls = r.calls ∧
      r.lastVruntime ≤ r'.lastVruntime := by
  obtain ⟨atq, hfold, hperm, hsorted⟩ := foldl_insertActive r.activatingTaskQueues h.sorted
  have hcount : ∀ g, atq.count g = if (r.taskQueues g).q ≠ [] then 1 else 0 := by
    intro g
    have hone := h.places g
    simp only [reduceCtorEq, if_false, or_false] at hone
    rw [hperm.count_eq, List.count_append, ← hone]
    omega
  cases atq with
  | nil =>
    have hlen := hperm.length_eq
    rw [List.length_nil, List.length_append] at hlen
    rw [haveMoreTasks, decide_eq_true_iff] at hmore
    omega
  | cons tq atq =>
    have hq : (r.taskQueues tq).q ≠ [] := by
      intro hnil
      have := hcount tq
      rw [List.count_cons_self, if_neg (not_not_intro hnil)] at this
      omega
    obtain ⟨hleast, hrest⟩ := List.pairwise_cons.mp hsorted
    let r₁ : Scheduler τ := { r with
      taskQueues := r.activated r.activatingTaskQueues
      activeTaskQueues := atq
      activatingTaskQueues := []
      lastVruntime := max (r.vruntime tq) r.lastVruntime }
    let r₂ := r₁.change tq fun q => { q with current := true }
    have hqueue : ∀ g, r₂.taskQueues g =
        if g = tq then { r.activated r.activatingTaskQueues g with current := true }
        else r.activated r.activatingTaskQueues g := fun g => change_taskQueues tq g _ r₁
    have hnext : (r₂.taskQueues tq).q ≠ [] := by
      rw [hqueue, if_pos rfl]
      exact hq
    have hrun : r.runTaskQueue = .ok { r₂ with control := .next tq } := by
      rw [Scheduler.runTaskQueue, insertActivatingTaskQueues, hfold]
      exact congrArg Except.ok (runTasks_next hnext)
    have hv : ∀ g, r₂.vruntime g = r.vruntime g := by
      intro g
      rw [vruntime, hqueue]
      split <;> rfl
    have hmem : ∀ g, g ∈ r.activatingTaskQueues ∨ g ∈ r.activeTaskQueues ↔ g = tq ∨ g ∈ atq := by
      intro g
      rw [← List.mem_append, ← hperm.mem_iff, List.mem_cons]
    refine ⟨tq, _, hrun, ⟨?_, ?_, ?_, ?_, ?_⟩, rfl, hnext, ⟨?_, rfl, rfl⟩, rfl, le_max _ _⟩
    · intro g
      have hone := hcount g
      have hsame : (r₂.taskQueues g).q = (r.taskQueues g).q := by
        rw [hqueue]
        split <;> rfl
      show atq.count g + 0 + _ = if (r₂.taskQueues g).q ≠ [] ∨ _ then 1 else 0
      rw [hsame]
      rw [List.count_cons] at hone
      by_cases hg : g = tq
      · subst hg
        simp only [hq, ne_eq, not_false_eq_true, beq_self_eq_true, if_true] at hone
        simp only [or_true, if_true]
        omega
      · have hne : ¬ some tq = some g := fun hs => hg (Option.some.inj hs).symm
        rw [if_neg (fun hb => hg (beq_iff_eq.mp hb).symm)] at hone
        simp only [hne, if_false, or_false]
        exact hone
    · intro g
      show (r₂.taskQueues g).active = true ↔ g ∈ atq ∨ some tq = some g
      have hactive : (r₂.taskQueues g).active = true ↔
          g ∈ r.activatingTaskQueues ∨ g ∈ r.activeTaskQueues := by
        have hold := h.active g
        simp only [reduceCtorEq, or_false] at hold
        rw [hqueue]
        split <;> simp only [activated, Bool.or_eq_true, decide_eq_true_eq, hold]
      rw [hactive, hmem, or_comm, Option.some_inj, eq_comm]
    · intro g
      have hold := h.current g
      show (r₂.taskQueues g).current = true ↔ some tq = some g
      rw [hqueue, Option.some_inj]
      split
      · rename_i hg
        simp only [hg]
      · rename_i hg
        rw [activated]
        simp only [hold, reduceCtorEq, false_iff]
        exact fun h => hg h.symm
    · exact Sorted.congr hrest fun g _ => hv g
    · intro g hg a ha
      obtain rfl := Option.some.inj hg
      show r₂.vruntime tq ≤ r₂.vruntime a
      rw [hv, hv]
      exact hleast a ha
    · intro g
      show (r₂.taskQueues g).q = _
      rw [hqueue]
      split <;> rfl

/-- `activate` leaves a queue alone that is in a place, and puts another one into the list of
activating queues. -/
theorem Placed.addTask (h : r.Placed running) (t : Task τ) : (r.addTask t).Placed running := by
  let r₁ := { r with added := r.added ++ [t] }.change t.group fun q =>
    { q with q := if t.urgent then t :: q.q else q.q ++ [t] }
  have hqueue : ∀ g, r₁.taskQueues g =
      if g = t.group then
        { r.taskQueues g with q := if t.urgent then t :: (r.taskQueues g).q
                                    else (r.taskQueues g).q ++ [t] }
      else r.taskQueues g := fun g => change_taskQueues t.group g _ _
  have hq : (r₁.taskQueues t.group).q ≠ [] := by
    rw [hqueue, if_pos rfl]
    dsimp only
    split <;> simp
  have hother : ∀ g, g ≠ t.group → r₁.taskQueues g = r.taskQueues g := by
    intro g hg
    rw [hqueue, if_neg hg]
  have hflags : ∀ g, (r₁.taskQueues g).active = (r.taskQueues g).active ∧
      (r₁.taskQueues g).current = (r.taskQueues g).current ∧ r₁.vruntime g = r.vruntime g := by
    intro g
    rw [vruntime, hqueue]
    split <;> exact ⟨rfl, rfl, rfl⟩
  -- a queue that is in a place already, or is run
  have hkept : ((r.taskQueues t.group).q ≠ [] ∨ (r.taskQueues t.group).active = true) →
      r₁.Placed running := by
    intro hcase
    refine h.congr rfl rfl (fun g => ?_) hflags
    by_cases hg : g = t.group
    · subst hg
      have hone := h.places t.group
      refine iff_of_true (Or.inl hq) ?_
      rcases hcase with hne | hact
      · exact Or.inl hne
      · rcases (h.active t.group).mp hact with hmem | hrun
        · by_contra hno
          rw [if_neg hno] at hone
          have := List.count_pos_iff.mpr hmem
          omega
        · exact Or.inr hrun
    · rw [hother g hg]
  rw [Scheduler.addTask]
  by_cases hempty : (r.taskQueues t.group).q = []
  · rw [if_pos hempty]
    show (r₁.activate t.group).Placed running
    rw [activate]
    by_cases hact : (r₁.taskQueues t.group).active = true
    · rw [if_pos hact]
      exact hkept (Or.inr ((hflags _).1.symm.trans hact))
    · rw [if_neg hact]
      -- a queue that is nowhere
      rw [(hflags t.group).1] at hact
      have hnot := not_or.mp fun hor => hact ((h.active t.group).mpr hor)
      let r₂ := r₁.change t.group fun q => { q with vruntime := max r₁.lastVruntime q.vruntime }
      have hqueue₂ : ∀ g, r₂.taskQueues g = if g = t.group then
          { r₁.taskQueues g with vruntime := max r₁.lastVruntime (r₁.taskQueues g).vruntime }
          else r₁.taskQueues g := fun g => change_taskQueues t.group g _ r₁
      have hv₂ : ∀ g, g ≠ t.group → r₂.vruntime g = r.vruntime g := by
        intro g hg
        rw [vruntime, hqueue₂, if_neg hg]
        exact (hflags g).2.2
      have hne : ∀ g ∈ r.activeTaskQueues, g ≠ t.group := by
        rintro g hg rfl
        exact hnot.1 hg
      refine ⟨?_, ?_, ?_, h.sorted.congr fun g hg => hv₂ g (hne g hg), ?_⟩
      · intro g
        have hone := h.places g
        show r.activeTaskQueues.count g + (r.activatingTaskQueues ++ [t.group]).count g + _ =
          if (r₂.taskQueues g).q ≠ [] ∨ _ then 1 else 0
        rw [List.count_append, List.count_singleton]
        by_cases hg : g = t.group
        · subst hg
          have hq₂ : (r₂.taskQueues t.group).q ≠ [] := by
            rw [hqueue₂, if_pos rfl]
            exact hq
          rw [if_neg (not_or.mpr ⟨not_not_intro hempty, hnot.2⟩)] at hone
          rw [if_pos (Or.inl hq₂), if_pos (beq_self_eq_true _)]
          omega
        · rw [hqueue₂, if_neg hg, hother g hg, if_neg (fun hb => hg (beq_iff_eq.mp hb).symm)]
          exact hone
      · intro g
        show (r₂.taskQueues g).active = true ↔ _
        rw [hqueue₂]
        have hold := h.active g
        rw [← (hflags g).1] at hold
        split <;> exact hold
      · intro g
        show (r₂.taskQueues g).current = true ↔ _
        rw [hqueue₂]
        have hold := h.current g
        rw [← (hflags g).2.1] at hold
        split <;> exact hold
      · intro g hg a ha
        show r₂.vruntime g ≤ r₂.vruntime a
        rw [hv₂ a (hne a ha), hv₂ g fun heq => hnot.2 (heq ▸ hg)]
        exact h.least g hg a ha
  · rw [if_neg hempty]
    exact hkept (Or.inl hempty)

/-- The queue that was run is in no place and its `_vruntime` is changed. -/
def ranFor (tq : SchedulingGroup) (runtime : Int64) (r : Scheduler τ) : Scheduler τ :=
  r.change tq fun q => { q with current := false, vruntime := q.vruntime + q.toVruntime runtime }

theorem ranFor_taskQueues (runtime : Int64) (hg : g ≠ tq) :
    (r.ranFor tq runtime).taskQueues g = r.taskQueues g := by
  rw [ranFor, change_taskQueues, if_neg hg]

theorem ranFor_q (runtime : Int64) (g : SchedulingGroup) :
    ((r.ranFor tq runtime).taskQueues g).q = (r.taskQueues g).q := by
  rw [ranFor, change_taskQueues]
  split <;> rfl

theorem Placed.ranFor_current (h : r.Placed (some tq)) (runtime : Int64) (g : SchedulingGroup) :
    ((r.ranFor tq runtime).taskQueues g).current = false := by
  rw [ranFor, change_taskQueues]
  split
  · rfl
  · rename_i hg
    rw [← Bool.not_eq_true, h.current g]
    exact fun heq => hg (Option.some.inj heq).symm

theorem Placed.ranFor_sorted (h : r.Placed (some tq)) (runtime : Int64) :
    (r.ranFor tq runtime).Sorted r.activeTaskQueues := by
  refine h.sorted.congr fun g hg => ?_
  have hne : g ≠ tq := by
    rintro rfl
    exact h.not_mem.1 hg
  rw [vruntime, ranFor_taskQueues runtime hne, vruntime]

/-- Where the other queues are. -/
theorem Placed.others (h : r.Placed (some tq)) (hg : g ≠ tq) :
    r.activeTaskQueues.count g + r.activatingTaskQueues.count g =
        (if (r.taskQueues g).q ≠ [] then 1 else 0) ∧
      ((r.taskQueues g).active = true ↔ g ∈ r.activeTaskQueues) := by
  have hne : ¬ some tq = some g := fun heq => hg (Option.some.inj heq).symm
  have hone := h.places g
  have hactive := h.active g
  simp only [hne, if_false, or_false, Nat.add_zero] at hone hactive
  exact ⟨hone, hactive⟩

/-- After a run a queue with tasks goes back among the active ones. -/
theorem Placed.requeue (h : r.Placed (some tq)) (runtime : Int64) (hq : (r.taskQueues tq).q ≠ []) :
    ((r.ranFor tq runtime).insertActiveTaskQueue tq).Placed none ∧
      SameTasks r ((r.ranFor tq runtime).insertActiveTaskQueue tq) := by
  obtain ⟨atq, hinsert, hperm, hsorted⟩ := foldl_insertActive [tq] (h.ranFor_sorted runtime)
  rw [List.foldl_cons, List.foldl_nil] at hinsert
  rw [hinsert]
  have hactivated : ∀ g, ((r.ranFor tq runtime).activated [tq] g).q = (r.taskQueues g).q :=
    fun g => ranFor_q runtime g
  refine ⟨⟨?_, ?_, ?_, hsorted, ?_⟩, ⟨hactivated, rfl, rfl⟩⟩
  · intro g
    show atq.count g + r.activatingTaskQueues.count g + _ =
      if ((r.ranFor tq runtime).activated [tq] g).q ≠ [] ∨ _ then 1 else 0
    rw [hactivated, hperm.count_eq, List.count_append, List.count_singleton]
    simp only [reduceCtorEq, if_false, or_false]
    show _ + r.activeTaskQueues.count g + _ + 0 = _
    by_cases hg : g = tq
    · subst hg
      have hactive := List.count_eq_zero.mpr h.not_mem.1
      have hactivating := List.count_eq_zero.mpr h.not_mem.2
      rw [if_pos (beq_self_eq_true _), if_pos hq]
      omega
    · rw [if_neg (fun hb => hg (beq_iff_eq.mp hb).symm), ← (h.others hg).1]
      omega
  · intro g
    have hmem : g ∈ atq ↔ g = tq ∨ g ∈ r.activeTaskQueues := by
      rw [hperm.mem_iff, List.singleton_append, List.mem_cons]
      rfl
    show (decide (g ∈ [tq]) || ((r.ranFor tq runtime).taskQueues g).active) = true ↔
      g ∈ atq ∨ none = some g
    rw [hmem]
    by_cases hg : g = tq
    · simp [hg]
    · simp [hg, ranFor_taskQueues runtime hg, (h.others hg).2]
  · intro g
    show ((r.ranFor tq runtime).taskQueues g).current = true ↔ none = some g
    rw [h.ranFor_current]
    simp
  · intro g hg
    cases hg

/-- ... and one without tasks is no longer active. -/
theorem Placed.retire (h : r.Placed (some tq)) (runtime : Int64) (hq : (r.taskQueues tq).q = []) :
    ((r.ranFor tq runtime).change tq fun q => { q with active := false }).Placed none ∧
      SameTasks r ((r.ranFor tq runtime).change tq fun q => { q with active := false }) := by
  let r₁ := (r.ranFor tq runtime).change tq fun q => { q with active := false }
  have hqueue : ∀ g, r₁.taskQueues g = if g = tq then
      { (r.ranFor tq runtime).taskQueues g with active := false }
      else (r.ranFor tq runtime).taskQueues g := fun g => change_taskQueues tq g _ _
  have hsame : ∀ g, (r₁.taskQueues g).q = (r.taskQueues g).q := by
    intro g
    have hold : ((r.ranFor tq runtime).taskQueues g).q = (r.taskQueues g).q := ranFor_q runtime g
    rw [hqueue]
    split <;> exact hold
  refine ⟨⟨?_, ?_, ?_, ?_, ?_⟩, ⟨hsame, rfl, rfl⟩⟩
  · intro g
    show r.activeTaskQueues.count g + r.activatingTaskQueues.count g + _ =
      if (r₁.taskQueues g).q ≠ [] ∨ _ then 1 else 0
    simp only [hsame, reduceCtorEq, if_false, or_false]
    by_cases hg : g = tq
    · subst hg
      rw [List.count_eq_zero.mpr h.not_mem.1, List.count_eq_zero.mpr h.not_mem.2,
        if_neg (not_not_intro hq)]
    · exact (h.others hg).1
  · intro g
    show (r₁.taskQueues g).active = true ↔ g ∈ r.activeTaskQueues ∨ none = some g
    rw [hqueue]
    by_cases hg : g = tq
    · subst hg
      simp [h.not_mem.1]
    · simp [hg, ranFor_taskQueues runtime hg, (h.others hg).2]
  · intro g
    show (r₁.taskQueues g).current = true ↔ none = some g
    have hcurrent := h.ranFor_current runtime g
    rw [hqueue]
    split <;> simp [hcurrent]
  · refine (h.ranFor_sorted runtime).congr fun g hg => ?_
    show (r₁.taskQueues g).vruntime = _
    rw [hqueue]
    split <;> rfl
  · intro g hg
    cases hg

/-- What the end of a run leaves to the loop of `run_some_tasks`. -/
theorem Placed.completeRun (h : r.Placed (some tq)) (runtime : Int64) (preempt : Bool) :
    ∃ r₁ : Scheduler τ, r₁.Placed none ∧ SameTasks r r₁ ∧ r₁.calls = r.calls ∧
      r₁.lastVruntime = r.lastVruntime ∧
      r.completeRun tq runtime preempt =
        if r₁.haveMoreTasks && !preempt then r₁.runTaskQueue
        else .ok { r₁ with control := .idle, calls := r₁.calls + 1 } := by
  have hrun : r.completeRun tq runtime preempt =
      let r₁ := if ((r.ranFor tq runtime).taskQueues tq).q ≠ [] then
          (r.ranFor tq runtime).insertActiveTaskQueue tq
        else (r.ranFor tq runtime).change tq fun q => { q with active := false }
      if r₁.haveMoreTasks && !preempt then r₁.runTaskQueue
      else .ok { r₁ with control := .idle, calls := r₁.calls + 1 } := rfl
  rw [ranFor_q] at hrun
  by_cases hq : (r.taskQueues tq).q = []
  · obtain ⟨hplaced, hsame⟩ := h.retire runtime hq
    exact ⟨_, hplaced, hsame, rfl, rfl, by rw [hrun, if_neg (not_not_intro hq)]⟩
  · obtain ⟨hplaced, hsame⟩ := h.requeue runtime hq
    exact ⟨_, hplaced, hsame, rfl, rfl, by rw [hrun, if_pos hq]⟩

/-! ## The tasks -/

/-- The tasks of a group. -/
def ofGroup (g : SchedulingGroup) (ts : List (Task τ)) : List (Task τ) := ts.filter (·.group = g)

/-- The tasks that are not urgent. -/
def inTurn (ts : List (Task τ)) : List (Task τ) := ts.filter (!·.urgent)

/-- The tasks of a group that were added are those that were run and those of its queue, and the ones
that are not urgent are in the same order. -/
structure Accounted (r : Scheduler τ) : Prop where
  groups : ∀ g, ∀ t ∈ (r.taskQueues g).q, t.group = g
  perm : ∀ g, (ofGroup g r.ran ++ (r.taskQueues g).q).Perm (ofGroup g r.added)
  order : ∀ g, inTurn (ofGroup g r.ran ++ (r.taskQueues g).q) = inTurn (ofGroup g r.added)

theorem Accounted.same (h : r.Accounted) (hs : SameTasks r r') : r'.Accounted where
  groups g := by
    rw [hs.q]
    exact h.groups g
  perm g := by
    rw [hs.q, hs.ran, hs.added]
    exact h.perm g
  order g := by
    rw [hs.q, hs.ran, hs.added]
    exact h.order g

theorem ofGroup_snoc (g : SchedulingGroup) (ts : List (Task τ)) (t : Task τ) :
    ofGroup g (ts ++ [t]) = ofGroup g ts ++ if t.group = g then [t] else [] := by
  rw [ofGroup, List.filter_append, ofGroup]
  by_cases hg : t.group = g <;> simp [hg]

theorem inTurn_append (ts ts' : List (Task τ)) : inTurn (ts ++ ts') = inTurn ts ++ inTurn ts' :=
  List.filter_append ..

/-- `activate` does not touch the tasks. -/
theorem activate_same (tq : SchedulingGroup) (r : Scheduler τ) :
    SameTasks r (r.activate tq) ∧ (r.activate tq).control = r.control ∧
      (r.activate tq).calls = r.calls ∧ (r.activate tq).lastVruntime = r.lastVruntime := by
  by_cases hact : (r.taskQueues tq).active = true
  · rw [activate, if_pos hact]
    exact ⟨⟨fun _ => rfl, rfl, rfl⟩, rfl, rfl, rfl⟩
  · rw [activate, if_neg hact]
    refine ⟨⟨fun g => ?_, rfl, rfl⟩, rfl, rfl, rfl⟩
    have hqueue := change_taskQueues tq g
      (fun q : TaskQueue τ => { q with vruntime := max r.lastVruntime q.vruntime }) r
    show ((r.change tq fun q => { q with vruntime := max r.lastVruntime q.vruntime }).taskQueues g).q = _
    rw [hqueue]
    split <;> rfl

/-- A task is put into its queue. -/
def enqueue (t : Task τ) (r : Scheduler τ) : Scheduler τ :=
  { r with added := r.added ++ [t] }.change t.group fun q =>
    { q with q := if t.urgent then t :: q.q else q.q ++ [t] }

theorem addTask_eq (r : Scheduler τ) (t : Task τ) :
    r.addTask t = if (r.taskQueues t.group).q = [] then (r.enqueue t).activate t.group
      else r.enqueue t := rfl

/-- What `add_task` and `add_urgent_task` do to the tasks, and that they do nothing to the rest. -/
theorem addTask_spec (r : Scheduler τ) (t : Task τ) :
    (∀ g, ((r.addTask t).taskQueues g).q =
        if g = t.group then
          if t.urgent then t :: (r.taskQueues g).q else (r.taskQueues g).q ++ [t]
        else (r.taskQueues g).q) ∧
      (r.addTask t).added = r.added ++ [t] ∧ (r.addTask t).ran = r.ran ∧
      (r.addTask t).control = r.control ∧ (r.addTask t).calls = r.calls ∧
      (r.addTask t).lastVruntime = r.lastVruntime := by
  have hqueue : ∀ g, ((r.enqueue t).taskQueues g).q =
      if g = t.group then if t.urgent then t :: (r.taskQueues g).q else (r.taskQueues g).q ++ [t]
      else (r.taskQueues g).q := by
    intro g
    rw [enqueue, change_taskQueues]
    split <;> rfl
  rw [addTask_eq]
  by_cases hempty : (r.taskQueues t.group).q = []
  · obtain ⟨hsame, hcontrol, hcalls, hlast⟩ := activate_same t.group (r.enqueue t)
    rw [if_pos hempty]
    exact ⟨fun g => (hsame.q g).trans (hqueue g), hsame.added, hsame.ran, hcontrol, hcalls, hlast⟩
  · rw [if_neg hempty]
    exact ⟨hqueue, rfl, rfl, rfl, rfl, rfl⟩

theorem Accounted.addTask (h : r.Accounted) (t : Task τ) : (r.addTask t).Accounted := by
  obtain ⟨hqueue, hadded, hran, -⟩ := addTask_spec r t
  refine ⟨?_, ?_, ?_⟩
  · intro g a ha
    rw [hqueue] at ha
    split at ha
    · rename_i hg
      have hmem : a = t ∨ a ∈ (r.taskQueues g).q := by
        split at ha
        · exact List.mem_cons.mp ha
        · exact (List.mem_append.mp ha).symm.imp_left List.mem_singleton.mp
      rcases hmem with rfl | hmem
      · exact hg.symm
      · exact h.groups g a hmem
    · exact h.groups g a ha
  · intro g
    rw [hqueue, hadded, hran, ofGroup_snoc]
    by_cases hg : g = t.group
    · rw [if_pos hg, if_pos hg.symm]
      split
      · exact List.perm_middle.trans (((h.perm g).cons t).trans
          (List.perm_append_singleton t _).symm)
      · rw [← List.append_assoc]
        exact (h.perm g).append_right [t]
    · rw [if_neg hg, if_neg (Ne.symm hg), List.append_nil]
      exact h.perm g
  · intro g
    have hold := h.order g
    rw [hqueue, hadded, hran, ofGroup_snoc]
    by_cases hg : g = t.group
    · rw [if_pos hg, if_pos hg.symm]
      split
      · rename_i hu
        simp only [inTurn, List.filter_append, List.filter_cons, hu] at hold ⊢
        simpa using hold
      · rw [← List.append_assoc, inTurn_append, hold, ← inTurn_append]
    · rw [if_neg hg, if_neg (Ne.symm hg), List.append_nil]
      exact hold

/-- The task at the front of a queue starts. -/
theorem Accounted.runTask {t : Task τ} {q : List (Task τ)} (h : r.Accounted)
    (hq : (r.taskQueues tq).q = t :: q) (control : Control) :
    Accounted { r.change tq fun tq => { tq with q } with control, ran := r.ran ++ [t] } := by
  have hgroup : t.group = tq := h.groups tq t (hq ▸ List.mem_cons_self)
  have hqueue : ∀ g, ((r.change tq fun tq => { tq with q }).taskQueues g).q =
      if g = tq then q else (r.taskQueues g).q := by
    intro g
    rw [change_taskQueues]
    split <;> rfl
  have hsame : ∀ g, ofGroup g (r.ran ++ [t]) ++
      ((r.change tq fun tq => { tq with q }).taskQueues g).q =
        ofGroup g r.ran ++ (r.taskQueues g).q := by
    intro g
    rw [hqueue, ofGroup_snoc]
    by_cases hg : g = tq
    · rw [if_pos hg, if_pos (hgroup.trans hg.symm), hg, hq, List.append_assoc,
        List.singleton_append]
    · rw [if_neg hg, if_neg fun heq => hg (heq.symm.trans hgroup), List.append_nil]
  refine ⟨?_, ?_, ?_⟩
  · intro g a ha
    rw [hqueue] at ha
    split at ha
    · rename_i hg
      subst hg
      exact h.groups g a (hq ▸ List.mem_cons_of_mem _ ha)
    · exact h.groups g a ha
  · intro g
    show (ofGroup g (r.ran ++ [t]) ++ _).Perm _
    rw [hsame]
    exact h.perm g
  · intro g
    show inTurn (ofGroup g (r.ran ++ [t]) ++ _) = _
    rw [hsame]
    exact h.order g

/-! ## Runs -/

/-- A call of `run_some_tasks` that has run a task. -/
def Control.due : Control → Nat
  | .idle => 0
  | .next _ => 0
  | .inTask _ => 1
  | .returned _ => 1

/-- What holds of every reachable state. -/
structure Inv (r : Scheduler τ) : Prop where
  placed : r.Placed r.control.running
  next : ∀ tq, r.control = .next tq → (r.taskQueues tq).q ≠ []
  accounted : r.Accounted
  calls : r.calls + r.control.due ≤ r.ran.length

theorem Inv.initial (maxTaskBacklog : Nat) (reciprocalShares : SchedulingGroup → Int64) :
    (initial maxTaskBacklog reciprocalShares : Scheduler τ).Inv where
  placed :=
    { places := by
        intro g
        simp [Scheduler.initial, Control.running]
      active := by
        intro g
        simp [Scheduler.initial, Control.running]
      current := by
        intro g
        simp [Scheduler.initial, Control.running]
      sorted := List.Pairwise.nil
      least := by
        intro g hg
        cases hg }
  next := by
    intro tq h
    cases h
  accounted := by
    refine ⟨?_, ?_, ?_⟩
    · intro g t ht
      cases ht
    · intro g
      exact .refl _
    · intro g
      rfl
  calls := Nat.zero_le _

/-- Another field of the queues is changed. -/
theorem Placed.setShares (h : r.Placed running) (group : SchedulingGroup) (reciprocal : Int64) :
    (r.change group fun q => { q with reciprocalShares := reciprocal }).Placed running ∧
      SameTasks r (r.change group fun q => { q with reciprocalShares := reciprocal }) := by
  have hqueue : ∀ g, (r.change group fun q => { q with reciprocalShares := reciprocal }).taskQueues g =
      if g = group then { r.taskQueues g with reciprocalShares := reciprocal }
      else r.taskQueues g := fun g => change_taskQueues group g _ r
  refine ⟨h.congr rfl rfl (fun g => ?_) fun g => ?_, ⟨fun g => ?_, rfl, rfl⟩⟩
  · rw [hqueue]
    split <;> rfl
  · rw [vruntime, hqueue]
    split <;> exact ⟨rfl, rfl, rfl⟩
  · rw [hqueue]
    split <;> rfl

/-- What a step from a state with the invariant comes to. -/
def Steps (r : Scheduler τ) (result : Except Fault (Scheduler τ)) : Prop :=
  ∃ r', result = .ok r' ∧ r'.Inv ∧ r.lastVruntime ≤ r'.lastVruntime

theorem Inv.add (h : r.Inv) (hnext : ∀ tq, r.control ≠ .next tq) (t : Task τ) :
    r.Steps (.ok (r.addTask t)) := by
  obtain ⟨-, -, hran, hcontrol, hcalls, hlast⟩ := addTask_spec r t
  refine ⟨_, rfl, ⟨?_, ?_, h.accounted.addTask t, ?_⟩, ?_⟩
  · rw [hcontrol]
    exact h.placed.addTask t
  · intro tq htq
    exact absurd (hcontrol.symm.trans htq) (hnext tq)
  · rw [hcontrol, hcalls, hran]
    exact h.calls
  · rw [hlast]
    exact Int64.le_refl _

theorem Inv.setShares (h : r.Inv) (hnext : ∀ tq, r.control ≠ .next tq) (group : SchedulingGroup)
    (reciprocal : Int64) :
    r.Steps (.ok (r.change group fun q => { q with reciprocalShares := reciprocal })) := by
  obtain ⟨hplaced, hsame⟩ := h.placed.setShares group reciprocal
  exact ⟨_, rfl, ⟨hplaced, fun tq htq => absurd htq (hnext tq), h.accounted.same hsame, h.calls⟩,
    Int64.le_refl _⟩

/-- `run_some_tasks` gets to the first task of a queue. -/
theorem Inv.runTaskQueue {r₀ : Scheduler τ} (hplaced : r.Placed none) (hmore : r.haveMoreTasks = true)
    (haccounted : r.Accounted) (hcalls : r.calls ≤ r.ran.length)
    (hlast : r₀.lastVruntime = r.lastVruntime) : r₀.Steps r.runTaskQueue := by
  obtain ⟨tq, r', hrun, hplaced', hcontrol, hq, hsame, hcalls', hle⟩ := hplaced.runTaskQueue hmore
  refine ⟨r', hrun, ⟨?_, ?_, haccounted.same hsame, ?_⟩, hlast ▸ hle⟩
  · rw [hcontrol]
    exact hplaced'
  · intro g hg
    obtain rfl := Control.next.inj (hcontrol.symm.trans hg)
    exact hq
  · rw [hcontrol, hcalls', hsame.ran]
    exact hcalls

/-- The next task starts. -/
theorem Inv.runTask (h : r.Inv) (hcontrol : r.control = .next tq) : r.Steps (r.step .runTask) := by
  have hplaced := h.placed
  have hcalls := h.calls
  rw [hcontrol] at hplaced hcalls
  obtain ⟨t, q, hq⟩ := List.exists_cons_of_ne_nil (h.next tq hcontrol)
  have hqueue : ∀ g, (r.change tq fun tq => { tq with q }).taskQueues g =
      if g = tq then { r.taskQueues g with q } else r.taskQueues g :=
    fun g => change_taskQueues tq g _ r
  refine ⟨{ r.change tq fun tq => { tq with q } with control := .inTask tq, ran := r.ran ++ [t] },
    ?_, ⟨hplaced.congr rfl rfl (fun g => ?_) fun g => ?_, ?_, h.accounted.runTask hq _, ?_⟩,
    Int64.le_refl _⟩
  · simp only [Scheduler.step, hcontrol, hq]
  · show ((r.change tq fun tq => { tq with q }).taskQueues g).q ≠ [] ∨ some tq = some g ↔ _
    rw [hqueue]
    by_cases hg : g = tq
    · subst hg
      exact iff_of_true (Or.inr rfl) (Or.inr rfl)
    · rw [if_neg hg]
      rfl
  · show ((r.change tq fun tq => { tq with q }).taskQueues g).active = _ ∧
      ((r.change tq fun tq => { tq with q }).taskQueues g).current = _ ∧
        ((r.change tq fun tq => { tq with q }).taskQueues g).vruntime = _
    rw [hqueue]
    split <;> exact ⟨rfl, rfl, rfl⟩
  · intro g hg
    cases hg
  · show r.calls + 1 ≤ (r.ran ++ [t]).length
    rw [List.length_append]
    exact Nat.succ_le_succ hcalls

/-- A task returns. -/
theorem Inv.taskDone (h : r.Inv) (hcontrol : r.control = .inTask tq) (preempt : Bool) :
    r.Steps (r.step (.taskDone preempt)) := by
  have hplaced := h.placed
  have hcalls := h.calls
  rw [hcontrol] at hplaced hcalls
  have hother : ∀ control : Control, control.running = some tq → control.due ≤ 1 →
      (∀ g, control = .next g → (r.taskQueues g).q ≠ []) → r.Steps (.ok { r with control }) := by
    intro control hrun hdue hnext
    refine ⟨_, rfl, ⟨?_, hnext, ⟨h.accounted.groups, h.accounted.perm, h.accounted.order⟩, ?_⟩,
      Int64.le_refl _⟩
    · show Placed control.running _
      rw [hrun]
      exact ⟨hplaced.places, hplaced.active, hplaced.current, hplaced.sorted, hplaced.least⟩
    · exact Nat.le_trans (Nat.add_le_add_left hdue _) hcalls
  have hreturned := hother (.returned tq) rfl (Nat.le_refl _) fun g hg => by cases hg
  simp only [step, hcontrol]
  split
  · exact hreturned
  · rw [runTasks]
    split
    · exact hreturned
    · rename_i hq
      exact hother (.next tq) rfl (Nat.zero_le _) fun g hg => Control.next.inj hg ▸ hq

/-- A queue has run. -/
theorem Inv.runCompleted (h : r.Inv) (hcontrol : r.control = .returned tq) (runtime : Int64)
    (preempt : Bool) : r.Steps (r.completeRun tq runtime preempt) := by
  have hplaced := h.placed
  have hcalls := h.calls
  rw [hcontrol] at hplaced hcalls
  obtain ⟨r₁, hplaced₁, hsame, hcalls₁, hlast, hrun⟩ := hplaced.completeRun runtime preempt
  have haccounted := h.accounted.same hsame
  rw [hrun]
  by_cases hmore : (r₁.haveMoreTasks && !preempt) = true
  · rw [if_pos hmore]
    refine Inv.runTaskQueue hplaced₁ (Bool.and_eq_true_iff.mp hmore).1 haccounted ?_ hlast.symm
    rw [hcalls₁, hsame.ran]
    exact Nat.le_of_succ_le hcalls
  · rw [if_neg hmore]
    refine ⟨_, rfl, ⟨?_, ?_, ⟨haccounted.groups, haccounted.perm, haccounted.order⟩, ?_⟩, ?_⟩
    · exact ⟨hplaced₁.places, hplaced₁.active, hplaced₁.current, hplaced₁.sorted, hplaced₁.least⟩
    · intro g hg
      cases hg
    · show r₁.calls + 1 + 0 ≤ r₁.ran.length
      rw [hcalls₁, hsame.ran]
      exact hcalls
    · exact hlast ▸ Int64.le_refl _

/-- An event that cannot happen. -/
theorem Inv.skip (h : r.Inv) : r.Steps (.ok r) := ⟨r, rfl, h, Int64.le_refl _⟩

theorem Inv.step (h : r.Inv) (e : Event τ) : r.Steps (r.step e) := by
  have hidle : r.control = .idle → ∀ tq, r.control ≠ .next tq := by
    intro hc tq hn
    cases hc.symm.trans hn
  have htask : ∀ g, r.control = .inTask g → ∀ tq, r.control ≠ .next tq := by
    intro g hc tq hn
    cases hc.symm.trans hn
  cases e with
  | add group urgent body =>
    cases hc : r.control with
    | idle => simpa only [Scheduler.step, hc] using h.add (hidle hc) ⟨group, body, urgent⟩
    | inTask g => simpa only [Scheduler.step, hc] using h.add (htask g hc) ⟨group, body, urgent⟩
    | _ => simpa only [Scheduler.step, hc] using h.skip
  | setShares group reciprocal =>
    cases hc : r.control with
    | idle => simpa only [Scheduler.step, hc] using h.setShares (hidle hc) group reciprocal
    | inTask g => simpa only [Scheduler.step, hc] using h.setShares (htask g hc) group reciprocal
    | _ => simpa only [Scheduler.step, hc] using h.skip
  | runSomeTasks =>
    cases hc : r.control with
    | idle =>
      simp only [Scheduler.step, hc]
      split
      · rename_i hmore
        have hplaced := h.placed
        have hcalls := h.calls
        rw [hc] at hplaced hcalls
        exact Inv.runTaskQueue hplaced hmore h.accounted hcalls rfl
      · exact h.skip
    | _ => simpa only [Scheduler.step, hc] using h.skip
  | runTask =>
    cases hc : r.control with
    | next tq => exact h.runTask hc
    | _ => simpa only [Scheduler.step, hc] using h.skip
  | taskDone preempt =>
    cases hc : r.control with
    | inTask tq => exact h.taskDone hc preempt
    | _ => simpa only [Scheduler.step, hc] using h.skip
  | runCompleted runtime preempt =>
    cases hc : r.control with
    | returned tq => simpa only [Scheduler.step, hc] using h.runCompleted hc runtime preempt
    | _ => simpa only [Scheduler.step, hc] using h.skip

theorem Inv.run (h : r.Inv) (es : List (Event τ)) : r.Steps (run r es) := by
  induction es generalizing r with
  | nil => exact h.skip
  | cons e es ih =>
    obtain ⟨r₁, hstep, hinv, hlast⟩ := h.step e
    obtain ⟨r', hrun, hinv', hlast'⟩ := ih hinv
    exact ⟨r', Run.run_cons_ok.mpr ⟨r₁, hstep, hrun⟩, hinv', Int64.le_trans hlast hlast'⟩

/-- In every reachable state the queues with tasks are in one place each, sorted where they wait to be
run, and the tasks are run once and in turn; `have_more_tasks` misses no queue, and no call of
`run_some_tasks` returns without having run a task when there is one. -/
theorem run_schedules_tasks (maxTaskBacklog : Nat) (reciprocalShares : SchedulingGroup → Int64)
    (es : List (Event τ)) :
    ∃ r : Scheduler τ, run (initial maxTaskBacklog reciprocalShares) es = .ok r ∧
      (∀ g, r.activeTaskQueues.count g + r.activatingTaskQueues.count g +
        (if r.control.running = some g then 1 else 0) =
          if (r.taskQueues g).q ≠ [] ∨ r.control.running = some g then 1 else 0) ∧
      r.Sorted r.activeTaskQueues ∧
      (∀ g, r.control.running = some g → ∀ h ∈ r.activeTaskQueues, r.vruntime g ≤ r.vruntime h) ∧
      (∀ es' r', run r es' = .ok r' → r.lastVruntime ≤ r'.lastVruntime) ∧
      (∀ g, (ofGroup g r.ran ++ (r.taskQueues g).q).Perm (ofGroup g r.added)) ∧
      (∀ g, inTurn (ofGroup g r.ran ++ (r.taskQueues g).q) = inTurn (ofGroup g r.added)) ∧
      (r.haveMoreTasks = true ↔ ∃ g, r.control.running ≠ some g ∧ (r.taskQueues g).q ≠ []) ∧
      (r.control = .idle → r.calls ≤ r.ran.length) := by
  obtain ⟨r, hrun, hinv, -⟩ := (Inv.initial maxTaskBacklog reciprocalShares).run es
  refine ⟨r, hrun, hinv.placed.places, hinv.placed.sorted, hinv.placed.least, ?_,
    hinv.accounted.perm, hinv.accounted.order, hinv.placed.haveMoreTasks_iff, ?_⟩
  · intro es' r' hrun'
    obtain ⟨r'', hrun'', -, hlast⟩ := hinv.run es'
    obtain rfl := Except.ok.inj (hrun'.symm.trans hrun'')
    exact hlast
  · intro hidle
    have hcalls := hinv.calls
    rwa [hidle] at hcalls

example : (run (initial 1000 fun _ => 4194304) [.add 0 false "a", .add 2 false "b",
    .add 0 false "c", .runSomeTasks, .runTask, .add 0 true "d", .taskDone true,
    .runCompleted 5000 false, .runTask, .taskDone false, .runCompleted 100 false, .runTask]).map
      (fun r => (r.ran.map (·.body), r.activeTaskQueues, r.lastVruntime)) =
    .ok (["a", "b", "d"], [], 4) := by decide +kernel

end Scheduler

end Seastar
