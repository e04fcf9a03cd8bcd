import Seastar.Core.TimerSet

/-!
`clear`, `size` and `empty` of `core/timer-set.hh`, and runs in which a timer set is
cleared. `clear` takes the timers out of the buckets and leaves the marks of the buckets
as they are: a set that had timers is not `empty` afterwards. The marks agree with the
buckets in every state of a run exactly when only sets without timers are cleared.
A timer inserted after its timeout is before the next timeout whatever happens, since
`get_next_timeout` does not go back before `_last`.
-/

namespace Seastar

open Lib

namespace TimerSet

/-- `clear`. -/
def clear (s : TimerSet) : TimerSet :=
  { s with
    buckets := (forEachSet s.nonEmpty 0).foldl
      (fun buckets i => Function.update buckets i []) s.buckets }

/-- `size`. -/
def size (s : TimerSet) : Nat :=
  (forEachSet s.nonEmpty 0).foldl (fun res i => res + (s.buckets i).length) 0

/-- `empty`: no bit of the bitset is set. -/
def empty (s : TimerSet) : Bool := (List.range nBuckets).all fun i => !s.nonEmpty i

/-- What can happen to a timer set that is also cleared. -/
inductive Operation
  | action (a : Action)
  | clear
  deriving DecidableEq, Repr

/-- One operation. -/
def operate (s : TimerSet) : Operation → Except Fault TimerSet
  | .action a => step s a
  | .clear => .ok s.clear

/-- The timer set after the operations, oldest first. -/
def runAll : TimerSet → List Operation → Except Fault TimerSet := Run.run operate

/-- What the callers have to observe; a set can be cleared at any time. -/
def ValidOperation (s : TimerSet) : Operation → Prop
  | .action a => Valid s a
  | .clear => True

/-- The set that is cleared has no timers, and the timer that is inserted is not overdue. -/
def Clean (s : TimerSet) : Operation → Prop
  | .action (.insert timer) => s.last ≤ timer.timeout
  | .action _ => True
  | .clear => ∀ i < nBuckets, s.buckets i = []

/-- The marks agree with the buckets, `empty` with `size`, and the next timeout is not after
any timer of the set. -/
structure Agrees (s : TimerSet) : Prop where
  marked : ∀ i < nBuckets, s.nonEmpty i = true ↔ s.buckets i ≠ []
  empty_iff : s.empty = true ↔ s.size = 0
  next_le : ∀ t, Mem t s → s.getNextTimeout ≤ t.timeout

instance (s : TimerSet) (o : Operation) : Decidable (ValidOperation s o) := by
  cases o <;> unfold ValidOperation <;> infer_instance

instance (s : TimerSet) (o : Operation) : Decidable (Clean s o) := by
  unfold Clean
  split <;> infer_instance

variable {s s' : TimerSet}

/-! ## Size and clearing -/

theorem clear_buckets (s : TimerSet) (i : Nat) :
    s.clear.buckets i = if i ∈ forEachSet s.nonEmpty 0 then [] else s.buckets i := by
  unfold clear
  dsimp only
  generalize forEachSet s.nonEmpty 0 = is
  generalize s.buckets = buckets
  induction is generalizing buckets with
  | nil => simp
  | cons j is ih =>
    rw [List.foldl_cons, ih]
    by_cases hi : i ∈ is
    · simp [hi]
    · by_cases hj : i = j <;> simp [hi, hj]

theorem empty_eq_true : s.empty = true ↔ ∀ i < nBuckets, s.nonEmpty i = false := by
  simp [empty]

theorem foldl_length (buckets : Nat → List Timer) (is : List Nat) (n : Nat) :
    is.foldl (fun res i => res + (buckets i).length) n =
      n + (is.map fun i => (buckets i).length).sum := by
  induction is generalizing n with
  | nil => rfl
  | cons i is ih =>
    rw [List.foldl_cons, ih, List.map_cons, List.sum_cons]
    omega

theorem size_eq_zero :
    s.size = 0 ↔ ∀ i < nBuckets, s.nonEmpty i = true → s.buckets i = [] := by
  rw [size, foldl_length, Nat.zero_add, List.sum_eq_zero_iff_forall_eq_nat]
  constructor
  · intro h i hi hm
    apply List.length_eq_zero_iff.mp
    apply h
    exact List.mem_map_of_mem (mem_forEachSet.mpr ⟨hi, Nat.zero_le i, hm⟩)
  · intro h n hn
    obtain ⟨i, hi, rfl⟩ := List.mem_map.mp hn
    obtain ⟨hi, -, hm⟩ := mem_forEachSet.mp hi
    rw [h i hi hm]
    rfl

/-- When the marks agree with the buckets, `size` counts the timers. -/
theorem empty_iff_size (hm : ∀ i < nBuckets, s.nonEmpty i = true ↔ s.buckets i ≠ []) :
    s.empty = true ↔ s.size = 0 := by
  rw [empty_eq_true, size_eq_zero]
  constructor
  · intro h i hi hmark
    rw [h i hi] at hmark
    exact absurd hmark Bool.false_ne_true
  · intro h i hi
    apply Bool.eq_false_iff.mpr
    intro hmark
    exact (hm i hi).mp hmark (h i hi hmark)

/-- `clear` leaves a set without timers as it is. -/
theorem clear_eq_self (h : ∀ i < nBuckets, s.buckets i = []) : s.clear = s := by
  have hb : s.clear.buckets = s.buckets := by
    funext i
    rw [clear_buckets]
    split
    · rename_i hi
      exact (h i (mem_forEachSet.mp hi).1).symm
    · rfl
  show ({ s with buckets := s.clear.buckets } : TimerSet) = s
  rw [hb]

/-- After `clear` the marks agree with the buckets only if there was no timer. -/
theorem buckets_nil_of_clear (h : Agrees s) (hc : Agrees s.clear) :
    ∀ i < nBuckets, s.buckets i = [] := by
  intro i hi
  by_contra hne
  have hmark := (h.marked i hi).mpr hne
  apply (hc.marked i hi).mp hmark
  rw [clear_buckets, if_pos]
  exact mem_forEachSet.mpr ⟨hi, Nat.zero_le i, hmark⟩

/-! ## Clean runs -/

/-- The invariant of a run in which only sets without timers are cleared: the set is well formed
and no timer in it is overdue. -/
structure Fresh (s : TimerSet) : Prop where
  wellFormed : WellFormed s
  not_overdue : ∀ t, Mem t s → s.last ≤ t.timeout

theorem Fresh.empty : Fresh {} where
  wellFormed := WellFormed.empty
  not_overdue := by
    rintro t ⟨i, -, ht⟩
    exact absurd ht List.not_mem_nil

theorem max_le {a b c : Int64} (ha : a ≤ c) (hb : b ≤ c) : max a b ≤ c := by
  show (if a ≤ b then b else a) ≤ c
  split
  · exact hb
  · exact ha

theorem le_max_left (a b : Int64) : a ≤ max a b := by
  show a ≤ if a ≤ b then b else a
  split
  · assumption
  · exact Int64.le_refl a

theorem Fresh.agrees (h : Fresh s) : Agrees s where
  marked i _ := h.wellFormed.marked i
  empty_iff := empty_iff_size fun i _ => h.wellFormed.marked i
  next_le := by
    intro t ht
    apply max_le (h.not_overdue t ht)
    obtain ⟨i, -, ht⟩ := ht
    exact h.wellFormed.next_le ht

/-- A clean operation keeps the invariant. -/
theorem Fresh.operate (h : Fresh s) {o : Operation} (hv : ValidOperation s o) (hc : Clean s o) :
    ∃ s', operate s o = .ok s' ∧ Fresh s' := by
  cases o with
  | clear =>
    refine ⟨s, ?_, h⟩
    rw [TimerSet.operate, clear_eq_self hc]
  | action a =>
    cases a with
    | insert timer =>
      refine ⟨_, rfl, h.wellFormed.insert hv, ?_⟩
      intro t ht
      rw [insert_last]
      rcases mem_insert.mp ht with rfl | ht
      · exact hc
      · exact h.not_overdue t ht
    | remove timer =>
      refine ⟨_, rfl, h.wellFormed.remove timer, ?_⟩
      intro t ht
      exact h.not_overdue t (h.wellFormed.mem_remove.mp ht).1
    | expire now =>
      obtain ⟨exp, s', he, hs'⟩ := h.wellFormed.expire hv
      refine ⟨s', ?_, hs'.wellFormed, ?_⟩
      · rw [TimerSet.operate, step, he]
        rfl
      · intro t ht
        rw [hs'.last]
        exact Int64.le_of_lt ((hs'.kept t).mp ht).2

/-- The state after a valid operation agrees only if the operation is clean. -/
theorem clean_of_agrees (h : Agrees s) {o : Operation} (ho : operate s o = .ok s')
    (h' : Agrees s') : Clean s o := by
  cases o with
  | clear =>
    obtain rfl := Except.ok.inj ho
    exact buckets_nil_of_clear h h'
  | action a =>
    cases a with
    | insert timer =>
      obtain rfl := Except.ok.inj ho
      have hle := h'.next_le timer (mem_insert.mpr (Or.inl rfl))
      rw [getNextTimeout, insert_last] at hle
      exact Int64.le_trans (le_max_left _ _) hle
    | remove timer => trivial
    | expire now => trivial

theorem Fresh.clean {os : List Operation} (h : Fresh s)
    (hv : Run.Along TimerSet.operate ValidOperation s os)
    (hall : ∀ pre post s', os = pre ++ post → runAll s pre = .ok s' → Agrees s') :
    Run.Along TimerSet.operate Clean s os := by
  induction os generalizing s with
  | nil => trivial
  | cons o os ih =>
    have hc : ∀ t, TimerSet.operate s o = .ok t → Clean s o := by
      intro t ht
      apply clean_of_agrees h.agrees ht
      exact hall [o] os t rfl (Run.run_cons_ok.mpr ⟨t, ht, rfl⟩)
    have hok : ∃ t, TimerSet.operate s o = .ok t := by
      cases o with
      | clear => exact ⟨_, rfl⟩
      | action a =>
        have hs : Holds s ((List.range nBuckets).flatMap s.buckets) := by
          refine ⟨h.wellFormed, fun t => ?_⟩
          simp [Mem]
        obtain ⟨t, ht, -⟩ := hs.step hv.1
        exact ⟨t, ht⟩
    obtain ⟨t, ht⟩ := hok
    obtain ⟨u, hu, hf⟩ := h.operate hv.1 (hc t ht)
    refine ⟨hc t ht, fun s' hs' => ?_⟩
    obtain rfl := Except.ok.inj (hu.symm.trans hs')
    apply ih hf (hv.2 _ hu)
    intro pre post v hos hr
    exact hall (o :: pre) post v (by rw [hos, List.cons_append]) (Run.run_cons_ok.mpr ⟨_, hu, hr⟩)

/-- The marks agree with the buckets in every state of a run, `empty` with `size`, and no timer of
the set is before the next timeout, exactly when every set that is cleared has no timers and no
overdue timer is inserted. -/
theorem run_agrees (os : List Operation) (hv : Run.Along operate ValidOperation {} os) :
    (∀ pre post s, os = pre ++ post → runAll {} pre = .ok s → Agrees s) ↔
      Run.Along operate Clean {} os := by
  constructor
  · exact Fresh.empty.clean hv
  · rintro hc pre post s rfl hr
    have hkeep : ∀ s o s', Fresh s → ValidOperation s o ∧ Clean s o → operate s o = .ok s' →
        Fresh s' := by
      intro s o s' h ho hs'
      obtain ⟨t, ht, hf⟩ := h.operate ho.1 ho.2
      obtain rfl := Except.ok.inj (ht.symm.trans hs')
      exact hf
    exact (Run.run_inv hkeep Fresh.empty (hv.of_append.and hc.of_append) hr).agrees

/-- A set is cleared when its only timer has been removed; the timer of the second set is
not. -/
theorem run_agrees_cleared :
    (∀ pre post s, ([.action (.insert ⟨0, 5⟩), .action (.remove ⟨0, 5⟩), .clear,
        .action (.insert ⟨1, 7⟩)] : List Operation) = pre ++ post →
      runAll {} pre = .ok s → Agrees s) ∧
    ¬ ∀ pre post s, ([.action (.insert ⟨0, 5⟩), .clear] : List Operation) = pre ++ post →
      runAll {} pre = .ok s → Agrees s := by
  constructor
  · exact (run_agrees _ (by decide +kernel)).mpr (by decide +kernel)
  · rw [run_agrees _ (by decide +kernel)]
    decide +kernel

/-- A set with one timer is cleared: it has size zero and is not empty, and after another timer
has been inserted and time has passed the next timeout is after that timer. -/
theorem cleared_marked :
    Run.Along operate ValidOperation {} [.action (.insert ⟨0, 5⟩), .clear] ∧
    ∃ s, runAll {} [.action (.insert ⟨0, 5⟩), .clear] = .ok s ∧
    s.nonEmpty (s.getIndex 5) = true ∧ s.buckets (s.getIndex 5) = [] ∧
    s.size = 0 ∧ s.empty = false ∧
    ∃ s', runAll s [.action (.insert ⟨1, 40⟩), .action (.expire 1)] = .ok s' ∧
      Mem ⟨1, 40⟩ s' ∧ ¬ s'.getNextTimeout ≤ 40 := by
  refine ⟨by decide +kernel, _, rfl, ?_⟩
  refine ⟨by decide +kernel, by decide +kernel, by decide +kernel, by decide +kernel, _, rfl, ?_⟩
  constructor <;> decide +kernel

end TimerSet

end Seastar
