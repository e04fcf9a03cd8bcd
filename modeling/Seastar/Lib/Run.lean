import Seastar.Lib.Except

/-!
Runs of a system whose step may fail: the state after a list of inputs, the
states passed on the way, and the induction rules for both. A step that fails
ends the run with its error.
-/

namespace Lib.Run

variable {σ ι ε : Type}

/-- The state after the inputs, oldest first. -/
def run (step : σ → ι → Except ε σ) : σ → List ι → Except ε σ
  | s, [] => .ok s
  | s, i :: is => do
    let s ← step s i
    run step s is

/-- Every step of the run is taken by an input that meets `P` in the state it finds. -/
def Along (step : σ → ι → Except ε σ) (P : σ → ι → Prop) : σ → List ι → Prop
  | _, [] => True
  | s, i :: is => P s i ∧ ∀ s', step s i = .ok s' → Along step P s' is

/-- A decidable condition can be evaluated along a run. -/
def Along.dec (step : σ → ι → Except ε σ) (P : σ → ι → Prop) [∀ s i, Decidable (P s i)] :
    ∀ s is, Decidable (Along step P s is)
  | _, [] => .isTrue trivial
  | s, i :: is =>
    match h : step s i with
    | .error _ =>
      decidable_of_iff (P s i) ⟨fun hP => ⟨hP, fun _ h' => nomatch h.symm.trans h'⟩, fun hP => hP.1⟩
    | .ok t =>
      have := Along.dec step P t is
      decidable_of_iff (P s i ∧ Along step P t is)
        ⟨fun hP => ⟨hP.1, fun _ h' => Except.ok.inj (h.symm.trans h') ▸ hP.2⟩,
          fun hP => ⟨hP.1, hP.2 t h⟩⟩

instance (step : σ → ι → Except ε σ) (P : σ → ι → Prop) [∀ s i, Decidable (P s i)] (s : σ)
    (is : List ι) : Decidable (Along step P s is) := Along.dec step P s is

/-- Every state of the run meets `R`, the first and the last included. -/
def Throughout (step : σ → ι → Except ε σ) (R : σ → Prop) : σ → List ι → Prop
  | s, [] => R s
  | s, i :: is => R s ∧ ∀ s', step s i = .ok s' → Throughout step R s' is

/-- A decidable condition on states can be evaluated all through a run. -/
def Throughout.dec (step : σ → ι → Except ε σ) (R : σ → Prop) [∀ s, Decidable (R s)] :
    ∀ s is, Decidable (Throughout step R s is)
  | s, [] => inferInstanceAs (Decidable (R s))
  | s, i :: is =>
    match h : step s i with
    | .error _ =>
      decidable_of_iff (R s) ⟨fun hR => ⟨hR, fun _ h' => nomatch h.symm.trans h'⟩, fun hR => hR.1⟩
    | .ok t =>
      have := Throughout.dec step R t is
      decidable_of_iff (R s ∧ Throughout step R t is)
        ⟨fun hR => ⟨hR.1, fun _ h' => Except.ok.inj (h.symm.trans h') ▸ hR.2⟩,
          fun hR => ⟨hR.1, hR.2 t h⟩⟩

instance (step : σ → ι → Except ε σ) (R : σ → Prop) [∀ s, Decidable (R s)] (s : σ)
    (is : List ι) : Decidable (Throughout step R s is) := Throughout.dec step R s is

variable {step : σ → ι → Except ε σ} {P Q : σ → ι → Prop} {s s' : σ} {i : ι} {is js : List ι}

@[simp] theorem run_nil : run step s [] = .ok s := rfl

theorem run_cons : run step s (i :: is) = (step s i >>= fun s => run step s is) := rfl

theorem run_cons_ok : run step s (i :: is) = .ok s' ↔
    ∃ t, step s i = .ok t ∧ run step t is = .ok s' := by
  rw [run_cons, bind_ok]

theorem run_append : run step s (is ++ js) = (run step s is >>= fun s => run step s js) := by
  induction is generalizing s with
  | nil => rfl
  | cons i is ih =>
    rw [List.cons_append, run_cons, run_cons]
    cases step s i with
    | error e => rfl
    | ok t => exact ih

/-- A condition on every step of a run holds of every step of its beginning. -/
theorem Along.of_append (h : Along step P s (is ++ js)) : Along step P s is := by
  induction is generalizing s with
  | nil => trivial
  | cons i is ih => exact ⟨h.1, fun t ht => ih (h.2 t ht)⟩

/-- ... and of every step after that. -/
theorem Along.of_run (h : Along step P s (is ++ js)) (hr : run step s is = .ok s') :
    Along step P s' js := by
  induction is generalizing s with
  | nil =>
    obtain rfl := Except.ok.inj hr
    exact h
  | cons i is ih =>
    obtain ⟨t, ht, hr⟩ := run_cons_ok.mp hr
    exact ih (h.2 t ht) hr

/-- The two together: a condition on the steps of both parts holds of every step. -/
theorem Along.append (h : Along step P s is)
    (h' : ∀ s', run step s is = .ok s' → Along step P s' js) : Along step P s (is ++ js) := by
  induction is generalizing s with
  | nil => exact h' s rfl
  | cons i is ih =>
    exact ⟨h.1, fun t ht => ih (h.2 t ht) fun s' hs' => h' s' (run_cons_ok.mpr ⟨t, ht, hs'⟩)⟩

theorem Along.mono (h : Along step P s is) (hPQ : ∀ s i, P s i → Q s i) : Along step Q s is := by
  induction is generalizing s with
  | nil => trivial
  | cons i is ih => exact ⟨hPQ _ _ h.1, fun t ht => ih (h.2 t ht)⟩

theorem Along.and (hP : Along step P s is) (hQ : Along step Q s is) :
    Along step (fun s i => P s i ∧ Q s i) s is := by
  induction is generalizing s with
  | nil => trivial
  | cons i is ih => exact ⟨⟨hP.1, hQ.1⟩, fun t ht => ih (hP.2 t ht) (hQ.2 t ht)⟩

/-- A condition that every input meets holds of every step. -/
theorem Along.of_mem (h : ∀ i ∈ is, ∀ s, P s i) : Along step P s is := by
  induction is generalizing s with
  | nil => trivial
  | cons i is ih =>
    exact ⟨h i List.mem_cons_self s, fun t _ => ih fun j hj => h j (List.mem_cons_of_mem i hj)⟩

/-- In a run that returns, conditions that agree on every step that returns agree. -/
theorem Along.congr (hPQ : ∀ s i t, step s i = .ok t → (P s i ↔ Q s i))
    (hr : run step s is = .ok s') : Along step P s is ↔ Along step Q s is := by
  induction is generalizing s with
  | nil => exact Iff.rfl
  | cons i is ih =>
    obtain ⟨t, ht, hr⟩ := run_cons_ok.mp hr
    refine and_congr (hPQ s i t ht) ⟨fun h u hu => ?_, fun h u hu => ?_⟩
    · obtain rfl := Except.ok.inj (ht.symm.trans hu)
      exact (ih hr).mp (h t ht)
    · obtain rfl := Except.ok.inj (ht.symm.trans hu)
      exact (ih hr).mpr (h t ht)

/-- Every step of a run that returns returns. -/
theorem along_of_ok (hr : run step s is = .ok s') :
    Along step (fun s i => ∃ t, step s i = .ok t) s is := by
  induction is generalizing s with
  | nil => trivial
  | cons i is ih =>
    obtain ⟨t, ht, hr⟩ := run_cons_ok.mp hr
    refine ⟨⟨t, ht⟩, fun u hu => ?_⟩
    obtain rfl := Except.ok.inj (ht.symm.trans hu)
    exact ih hr

/-- The invariant rule: what every step keeps, the run keeps. -/
theorem run_inv {I : σ → Prop}
    (hstep : ∀ s i s', I s → P s i → step s i = .ok s' → I s')
    (hs : I s) (hP : Along step P s is) (hr : run step s is = .ok s') : I s' := by
  induction is generalizing s with
  | nil =>
    obtain rfl := Except.ok.inj hr
    exact hs
  | cons i is ih =>
    obtain ⟨t, ht, hr⟩ := run_cons_ok.mp hr
    exact ih (hstep _ _ _ hs hP.1 ht) (hP.2 t ht) hr

/-- An invariant of every step is one of the run. -/
theorem run_keeps {I : σ → Prop} (hstep : ∀ s i s', I s → step s i = .ok s' → I s')
    (hs : I s) (hr : run step s is = .ok s') : I s' := by
  induction is generalizing s with
  | nil =>
    obtain rfl := Except.ok.inj hr
    exact hs
  | cons i is ih =>
    obtain ⟨t, ht, hr⟩ := run_cons_ok.mp hr
    exact ih (hstep _ _ _ hs ht) hr

/-- ... and when no step fails from the invariant, nor does the run. -/
theorem run_ok {I : σ → Prop}
    (hstep : ∀ s i, I s → P s i → ∃ s', step s i = .ok s' ∧ I s')
    (hs : I s) (hP : Along step P s is) : ∃ s', run step s is = .ok s' ∧ I s' := by
  induction is generalizing s with
  | nil => exact ⟨s, rfl, hs⟩
  | cons i is ih =>
    obtain ⟨t, ht, hinv⟩ := hstep s i hs hP.1
    obtain ⟨s', hr, hinv'⟩ := ih hinv (hP.2 t ht)
    exact ⟨s', run_cons_ok.mpr ⟨t, ht, hr⟩, hinv'⟩

/-- ... and when no step fails at all from the invariant, no run does. -/
theorem run_total {I : σ → Prop} (hstep : ∀ s i, I s → ∃ s', step s i = .ok s' ∧ I s')
    (hs : I s) (is : List ι) : ∃ s', run step s is = .ok s' ∧ I s' := by
  induction is generalizing s with
  | nil => exact ⟨s, rfl, hs⟩
  | cons i is ih =>
    obtain ⟨t, ht, hinv⟩ := hstep s i hs
    obtain ⟨s', hr, hinv'⟩ := ih hinv
    exact ⟨s', run_cons_ok.mpr ⟨t, ht, hr⟩, hinv'⟩

/-- The termination rule: inputs that keep coming lead to a state with `D` when every step from
another one decreases a measure. -/
theorem run_reaches {I D : σ → Prop} (m : σ → Nat)
    (hstep : ∀ s i, I s → ¬ D s → ∃ s', step s i = .ok s' ∧ I s' ∧ m s' < m s)
    (hs : I s) (input : Nat → ι) :
    ∃ n s', run step s ((List.range n).map input) = .ok s' ∧ D s' := by
  induction hk : m s using Nat.strongRecOn generalizing s input with
  | ind k ih =>
    by_cases hD : D s
    · exact ⟨0, s, rfl, hD⟩
    · obtain ⟨t, ht, hI, hlt⟩ := hstep s (input 0) hs hD
      obtain ⟨n, s', hr, hD'⟩ := ih (m t) (hk ▸ hlt) hI (fun i => input (i + 1)) rfl
      refine ⟨n + 1, s', ?_, hD'⟩
      rw [List.range_succ_eq_map, List.map_cons, List.map_map]
      exact run_cons_ok.mpr ⟨t, ht, hr⟩

/-- What holds of every step from a state with the invariant holds all along the run. -/
theorem Along.of_inv {I : σ → Prop}
    (hstep : ∀ s i s', I s → P s i → step s i = .ok s' → I s')
    (hQ : ∀ s i, I s → P s i → Q s i) (hs : I s) (hP : Along step P s is) :
    Along step Q s is := by
  induction is generalizing s with
  | nil => trivial
  | cons i is ih =>
    exact ⟨hQ _ _ hs hP.1, fun t ht => ih (hstep _ _ _ hs hP.1 ht) (hP.2 t ht)⟩

theorem Throughout.head {R : σ → Prop} (h : Throughout step R s is) : R s := by
  cases is with
  | nil => exact h
  | cons i is => exact h.1

/-- The invariant rule for states: when `R` holds all through a run, a step may use it of the
state it finds and of the one it leaves. -/
theorem Throughout.of_inv {I R S : σ → Prop}
    (hstep : ∀ s i s', I s → R s → R s' → step s i = .ok s' → I s')
    (hS : ∀ s, I s → R s → S s) (hs : I s) (hR : Throughout step R s is) :
    Throughout step S s is := by
  induction is generalizing s with
  | nil => exact hS s hs hR
  | cons i is ih =>
    refine ⟨hS s hs hR.1, fun t ht => ?_⟩
    exact ih (hstep s i t hs hR.1 (hR.2 t ht).head ht) (hR.2 t ht)

/-- ... and when `P` holds of every step, it may be used of the step. -/
theorem Throughout.of_along {I R : σ → Prop}
    (hstep : ∀ s i s', I s → P s i → step s i = .ok s' → I s')
    (hR : ∀ s, I s → R s) (hs : I s) (hP : Along step P s is) : Throughout step R s is := by
  induction is generalizing s with
  | nil => exact hR s hs
  | cons i is ih =>
    exact ⟨hR s hs, fun t ht => ih (hstep s i t hs hP.1 ht) (hP.2 t ht)⟩

/-- When a step from a state with `R` leads to one with `R` exactly if it meets `P`, all states of a
run have `R` exactly if all of its steps meet `P`. -/
theorem along_iff_throughout {I R : σ → Prop}
    (hstep : ∀ s i, I s → R s → ∃ s', step s i = .ok s' ∧ I s' ∧ (P s i ↔ R s'))
    (hs : I s) (hR : R s) : Along step P s is ↔ Throughout step R s is := by
  induction is generalizing s with
  | nil => exact ⟨fun _ => hR, fun _ => trivial⟩
  | cons i is ih =>
    obtain ⟨t, ht, hI, hPR⟩ := hstep s i hs hR
    constructor
    · rintro ⟨hP, hrest⟩
      refine ⟨hR, fun u hu => ?_⟩
      obtain rfl := Except.ok.inj (ht.symm.trans hu)
      exact (ih hI (hPR.mp hP)).mp (hrest t ht)
    · rintro ⟨-, hrest⟩
      have hR' := (hrest t ht).head
      refine ⟨hPR.mpr hR', fun u hu => ?_⟩
      obtain rfl := Except.ok.inj (ht.symm.trans hu)
      exact (ih hI hR').mpr (hrest t ht)

/-- ... or as far as the steps return, in a run that does. -/
theorem along_iff_throughout_of_run {I R : σ → Prop}
    (hstep : ∀ s i s', I s → R s → step s i = .ok s' → I s' ∧ (P s i ↔ R s'))
    (hs : I s) (hR : R s) (hr : run step s is = .ok s') :
    Along step P s is ↔ Throughout step R s is := by
  induction is generalizing s with
  | nil => exact ⟨fun _ => hR, fun _ => trivial⟩
  | cons i is ih =>
    obtain ⟨t, ht, hr⟩ := run_cons_ok.mp hr
    obtain ⟨hI, hPR⟩ := hstep s i t hs hR ht
    constructor
    · rintro ⟨hP, hrest⟩
      refine ⟨hR, fun u hu => ?_⟩
      obtain rfl := Except.ok.inj (ht.symm.trans hu)
      exact (ih hI (hPR.mp hP) hr).mp (hrest t ht)
    · rintro ⟨-, hrest⟩
      have hR' := (hrest t ht).head
      refine ⟨hPR.mpr hR', fun u hu => ?_⟩
      obtain rfl := Except.ok.inj (ht.symm.trans hu)
      exact (ih hI hR' hr).mpr (hrest t ht)

/-- When the invariant makes `P` and `Q` the same, and is kept by steps from states with `Q`, then
`P` holds in every state of the run if `Q` does, and the other way. -/
theorem everywhere_iff {I R S : σ → Prop} (hRS : ∀ s, I s → (R s ↔ S s))
    (hstep : ∀ s i, I s → S s → P s i → ∃ s', step s i = .ok s' ∧ I s')
    (hs : I s) (hP : Along step P s is) :
    (∀ pre post, is = pre ++ post → ∃ s', run step s pre = .ok s' ∧ R s') ↔
      ∀ pre post s', is = pre ++ post → run step s pre = .ok s' → S s' := by
  induction is generalizing s with
  | nil =>
    constructor
    · intro h pre post s' hpre hr
      obtain ⟨rfl, -⟩ := List.append_eq_nil_iff.mp hpre.symm
      obtain ⟨t, ht, hR⟩ := h [] [] rfl
      obtain rfl := Except.ok.inj ht
      obtain rfl := Except.ok.inj hr
      exact (hRS _ hs).mp hR
    · intro h pre post hpre
      obtain ⟨rfl, -⟩ := List.append_eq_nil_iff.mp hpre.symm
      exact ⟨s, rfl, (hRS s hs).mpr (h [] [] s rfl rfl)⟩
  | cons i is ih =>
    constructor
    · intro h
      obtain ⟨t, ht, hR⟩ := h [] (i :: is) rfl
      obtain rfl := Except.ok.inj ht
      have hS := (hRS _ hs).mp hR
      obtain ⟨u, hu, hI⟩ := hstep _ i hs hS hP.1
      intro pre post s' hpre hr
      cases pre with
      | nil =>
        obtain rfl := Except.ok.inj hr
        exact hS
      | cons j pre =>
        obtain ⟨rfl, htail⟩ := List.cons.inj hpre
        obtain ⟨v, hv, hr⟩ := run_cons_ok.mp hr
        obtain rfl := Except.ok.inj (hu.symm.trans hv)
        refine (ih hI (hP.2 _ hu)).mp ?_ pre post s' htail hr
        rintro pre' post' rfl
        obtain ⟨w, hw, hRw⟩ := h (i :: pre') post' rfl
        obtain ⟨v', hv', hw⟩ := run_cons_ok.mp hw
        obtain rfl := Except.ok.inj (hu.symm.trans hv')
        exact ⟨w, hw, hRw⟩
    · intro h pre post hpre
      have hS := h [] (i :: is) s rfl rfl
      cases pre with
      | nil => exact ⟨s, rfl, (hRS s hs).mpr hS⟩
      | cons j pre =>
        obtain ⟨rfl, htail⟩ := List.cons.inj hpre
        obtain ⟨u, hu, hI⟩ := hstep s i hs hS hP.1
        obtain ⟨w, hw, hRw⟩ := (ih hI (hP.2 _ hu)).mpr (by
          rintro pre' post' s' rfl hr
          exact h (i :: pre') post' s' rfl (run_cons_ok.mpr ⟨u, hu, hr⟩)) pre post htail
        exact ⟨w, run_cons_ok.mpr ⟨u, hu, hw⟩, hRw⟩

/-- A failed run has a first step that fails. -/
theorem run_error {e : ε} : run step s is = .error e ↔
    ∃ pre i post t, is = pre ++ i :: post ∧ run step s pre = .ok t ∧ step t i = .error e := by
  induction is generalizing s with
  | nil => simp
  | cons i is ih =>
    rw [run_cons, bind_error]
    constructor
    · rintro (h | ⟨t, ht, h⟩)
      · exact ⟨[], i, is, s, rfl, rfl, h⟩
      · obtain ⟨pre, j, post, u, rfl, hr, hj⟩ := ih.mp h
        exact ⟨i :: pre, j, post, u, rfl, run_cons_ok.mpr ⟨t, ht, hr⟩, hj⟩
    · rintro ⟨pre, j, post, u, his, hr, hj⟩
      cases pre with
      | nil =>
        obtain ⟨rfl, rfl⟩ := List.cons.inj his
        obtain rfl := Except.ok.inj hr
        exact Or.inl hj
      | cons k pre =>
        obtain ⟨rfl, rfl⟩ := List.cons.inj his
        obtain ⟨t, ht, hr⟩ := run_cons_ok.mp hr
        exact Or.inr ⟨t, ht, ih.mpr ⟨pre, j, post, u, rfl, hr, hj⟩⟩

/-- A run none of whose steps fails with `e` does not fail with `e`. -/
theorem run_ne_error {e : ε} (h : Along step (fun s i => step s i ≠ .error e) s is) :
    run step s is ≠ .error e := by
  intro hr
  obtain ⟨pre, i, post, t, rfl, hpre, hi⟩ := run_error.mp hr
  exact (h.of_run hpre).1 hi

end Lib.Run
