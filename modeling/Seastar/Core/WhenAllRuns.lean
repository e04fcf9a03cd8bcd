import Seastar.Core.WhenAll
import Seastar.Lib.Run

/-!
Runs of `when_all`. Both forms wait for one future at a time, with those behind it all available; so
the future of `when_all` resolves once, with all the results, when the last one is there.
-/

namespace Seastar.WhenAll

open Lib

variable {ρ : Type} {s : WhenAll ρ} {form : Form} {i j k n m : Nat} {r : ρ}
  {fs : List (Option ρ)}

/-! ## What is claimed -/

/-- One continuation at most lives; the future resolves once, when all futures are ready and the last
continuation is gone, to their results in their places; and when they are ready it has resolved, or
the one task that is scheduled resolves it. -/
structure Sound (form : Form) (s : WhenAll ρ) : Prop where
  slot : s.slot.length ≤ 1
  resolved : s.resolved = [] ∨
    s.resolved = [s.promises] ∧ (∀ p ∈ s.promises, p ≠ none) ∧ s.slot = []
  complete : (∀ p ∈ s.promises, p ≠ none) → s.resolved = [s.promises] ∨
    ∃ s', step form s (.run 0) = .ok s' ∧ s'.promises = s.promises ∧ s'.resolved = [s.promises]

/-! ## The invariant -/

/-- The futures that were looked at before the one at `k`. -/
def Form.Passed (k j : Nat) : Form → Prop
  | .variadic => k < j
  | .iterator => j < k

/-- `_nr_remain` or the position, while the future at `k` is waited for. -/
def Form.pos (k : Nat) : Form → Nat
  | .variadic => k + 1
  | .iterator => k

/-- The future at `k` is waited for, and those before it are ready; or the future of `when_all` has
resolved. -/
inductive Inv (form : Form) (s : WhenAll ρ) : Prop
  | waiting (k : Nat) (st : Option ρ) (hslot : s.slot = [⟨k, st⟩]) (hresolved : s.resolved = [])
    (hpending : s.futures[k]? = some none) (hpromises : s.promises = s.futures.set k st)
    (hpos : s.pos = form.pos k)
    (hpassed : ∀ j, form.Passed k j → s.futures[j]? ≠ some none)
  | done (hslot : s.slot = []) (hresolved : s.resolved = [s.futures])
    (hpromises : s.promises = s.futures) (hready : ∀ p ∈ s.futures, p ≠ none)

/-- Between a future that was waited for and the next one. -/
structure Between (s : WhenAll ρ) : Prop where
  slot : s.slot = []
  resolved : s.resolved = []
  promises : s.promises = s.futures

theorem isSome_of_ne (hi : i < fs.length) (h : fs[i]? ≠ some none) : (fs[i]?).join.isSome = true := by
  rw [List.getElem?_eq_getElem hi] at h ⊢
  cases hfs : fs[i] with
  | none =>
    rw [hfs] at h
    exact absurd rfl h
  | some r => rfl

theorem forall_ready (h : ∀ j : Nat, fs[j]? ≠ some none) : ∀ p ∈ fs, p ≠ none := by
  rintro p hp rfl
  obtain ⟨j, hj⟩ := List.mem_iff_getElem?.mp hp
  exact h j hj

theorem set_none (hi : fs[i]? = some none) : fs.set i none = fs := by
  obtain ⟨hlt, hfs⟩ := List.getElem?_eq_some_iff.mp hi
  rw [← hfs]
  exact List.set_getElem_self hlt

/-- The next future is waited for from now on. -/
theorem Between.wait (hb : Between s) (form : Form) (hk : s.futures[k]? = some none)
    (hpassed : ∀ j, form.Passed k j → s.futures[j]? ≠ some none) :
    Inv form { s with pos := form.pos k, slot := s.slot ++ [⟨k, none⟩] } := by
  refine .waiting k none ?_ hb.resolved hk ?_ rfl hpassed
  · rw [hb.slot, List.nil_append]
  · rw [set_none hk]
    exact hb.promises

theorem Between.finish (hb : Between s) (hready : ∀ j : Nat, s.futures[j]? ≠ some none) :
    Inv form { s with pos := m, resolved := s.resolved ++ [s.futures] } := by
  refine .done hb.slot ?_ hb.promises (forall_ready hready)
  rw [hb.resolved, List.nil_append]

/-- What is waited for next has not been set. -/
def Fresh (s : WhenAll ρ) : Prop := ∀ c ∈ s.slot, c.state = none

/-- The loop of the variadic form, with the futures from `n` on ready. -/
theorem processAll_inv (hb : Between s) (hn : n ≤ s.futures.length)
    (hready : ∀ j, n ≤ j → s.futures[j]? ≠ some none) :
    Inv .variadic (processAll s n) ∧ Fresh (processAll s n) ∧
      (processAll s n).promises = s.promises := by
  induction n with
  | zero =>
    refine ⟨hb.finish fun j => hready j (Nat.zero_le j), fun c hc => ?_, rfl⟩
    change c ∈ s.slot at hc
    rw [hb.slot] at hc
    cases hc
  | succ n ih =>
    rw [processAll]
    split
    · rename_i hsome
      refine ih (Nat.le_of_succ_le hn) fun j hj => ?_
      rcases Nat.eq_or_lt_of_le hj with rfl | hlt
      · intro hnone
        rw [hnone] at hsome
        cases hsome
      · exact hready j hlt
    · rename_i hnone
      have hpending : s.futures[n]? = some none := by
        by_contra hne
        exact hnone (isSome_of_ne hn hne)
      refine ⟨hb.wait .variadic hpending fun j hj => hready j hj, fun c hc => ?_, rfl⟩
      change c ∈ s.slot ++ [⟨n, none⟩] at hc
      rw [hb.slot, List.nil_append] at hc
      rw [List.mem_singleton.mp hc]

theorem skip_spec (pos : Nat) (l : List (Option ρ)) : pos ≤ skip pos l ∧
    skip pos l ≤ pos + l.length ∧ (∀ j, pos + j < skip pos l → l[j]? ≠ some none) ∧
      (skip pos l < pos + l.length → l[skip pos l - pos]? = some none) := by
  induction l generalizing pos with
  | nil =>
    refine ⟨Nat.le_refl _, Nat.le_add_right _ _, fun j hj => ?_, fun h => ?_⟩
    · exact absurd hj (Nat.not_lt_of_le (Nat.le_add_right _ _))
    · exact absurd h (Nat.lt_irrefl _)
  | cons a l ih =>
    cases a with
    | none =>
      refine ⟨Nat.le_refl _, Nat.le_add_right _ _, fun j hj => ?_, fun _ => ?_⟩
      · exact absurd hj (Nat.not_lt_of_le (Nat.le_add_right _ _))
      · have hskip : skip pos (none :: l) = pos := rfl
        rw [hskip, Nat.sub_self]
        rfl
    | some r =>
      obtain ⟨hle, hge, hready, hnone⟩ := ih (pos + 1)
      rw [skip, List.length_cons]
      refine ⟨by omega, by omega, fun j hj => ?_, fun h => ?_⟩
      · cases j with
        | zero =>
          rw [List.getElem?_cons_zero]
          intro h
          cases h
        | succ j =>
          rw [List.getElem?_cons_succ]
          exact hready j (by omega)
      · have hnone := hnone (by omega)
        have hsub : skip (pos + 1) l - pos = skip (pos + 1) l - (pos + 1) + 1 := by omega
        rw [hsub, List.getElem?_cons_succ]
        exact hnone

/-- The loop of the form over a range, with the futures before the position ready. -/
theorem completeWhenAll_inv (hb : Between s) (hpos : s.pos ≤ s.futures.length)
    (hready : ∀ j, j < s.pos → s.futures[j]? ≠ some none) :
    Inv .iterator (completeWhenAll s) ∧ Fresh (completeWhenAll s) ∧
      (completeWhenAll s).promises = s.promises := by
  obtain ⟨hle, hge, hskipped, hstop⟩ := skip_spec s.pos (s.futures.drop s.pos)
  rw [List.length_drop] at hge hstop
  have hbefore (j : Nat) (hj : j < skip s.pos (s.futures.drop s.pos)) :
      s.futures[j]? ≠ some none := by
    by_cases hlt : j < s.pos
    · exact hready j hlt
    · have := hskipped (j - s.pos) (by omega)
      rw [List.getElem?_drop, Nat.add_sub_cancel' (by omega)] at this
      exact this
  rw [completeWhenAll]
  split
  · rename_i hend
    refine ⟨hb.finish fun j => ?_, fun c hc => ?_, rfl⟩
    · by_cases hlt : j < s.futures.length
      · exact hbefore j (by omega)
      · rw [List.getElem?_eq_none (by omega)]
        intro h
        cases h
    · change c ∈ s.slot at hc
      rw [hb.slot] at hc
      cases hc
  · rename_i hend
    have hpending := hstop (by omega)
    rw [List.getElem?_drop, Nat.add_sub_cancel' hle] at hpending
    refine ⟨hb.wait .iterator hpending hbefore, fun c hc => ?_, rfl⟩
    change c ∈ s.slot ++ [⟨_, none⟩] at hc
    rw [hb.slot, List.nil_append] at hc
    rw [List.mem_singleton.mp hc]

/-! ## Steps -/

/-- The promise of the future that is waited for is set. -/
theorem resolve_waited (hslot : s.slot = [⟨i, none⟩]) (r : ρ) : s.resolve i r =
    { s with promises := s.promises.set i (some r), slot := [⟨i, some r⟩] } := by
  rw [resolve]
  dsimp only
  rw [hslot, List.findIdx?_singleton, if_pos (by simp)]
  rfl

/-- ... or the promise of another one. -/
theorem resolve_other (hslot : ∀ c ∈ s.slot, c.restingPlace ≠ i) (r : ρ) : s.resolve i r =
    { s with promises := s.promises.set i (some r), futures := s.futures.set i (some r) } := by
  have hnone : s.slot.findIdx? (fun c => c.restingPlace = i ∧ c.state.isNone) = none := by
    rw [List.findIdx?_eq_none_iff]
    intro c hc
    simp [hslot c hc]
  rw [resolve]
  dsimp only
  rw [hnone]

theorem Inv.resolve (hI : Inv form s) (hi : s.promises[i]? = some none) (r : ρ) :
    Inv form (s.resolve i r) := by
  cases hI with
  | waiting k st hslot hresolved hpending hpromises hpos hpassed =>
    have hk := (List.getElem?_eq_some_iff.mp hpending).1
    by_cases hik : i = k
    · subst hik
      rw [hpromises, List.getElem?_set_self hk] at hi
      obtain rfl := Option.some.inj hi
      rw [resolve_waited hslot]
      refine .waiting i (some r) rfl hresolved hpending ?_ hpos hpassed
      dsimp only
      rw [hpromises, List.set_set]
    · rw [resolve_other (by
        intro c hc
        rw [hslot] at hc
        rw [List.mem_singleton.mp hc]
        exact Ne.symm hik)]
      refine .waiting k st hslot hresolved ?_ ?_ hpos fun j hj => ?_
      · dsimp only
        rw [List.getElem?_set_ne hik, hpending]
      · dsimp only
        rw [hpromises, List.set_comm _ _ (Ne.symm hik)]
      · dsimp only
        by_cases hij : i = j
        · subst hij
          rw [List.getElem?_set]
          split
          · split <;> intro h <;> cases h
          · contradiction
        · rw [List.getElem?_set_ne hij]
          exact hpassed j hj
  | done hslot hresolved hpromises hready =>
    rw [hpromises] at hi
    exact absurd rfl (hready none (List.mem_of_getElem? hi))

/-- The continuation that is scheduled runs. -/
theorem Inv.run (hI : Inv form s) (hk : s.slot[k]? = some ⟨i, some r⟩) :
    k = 0 ∧ Inv form (s.runAndDispose form k i r) ∧ Fresh (s.runAndDispose form k i r) ∧
      (s.runAndDispose form k i r).promises = s.promises := by
  cases hI with
  | waiting k' st hslot hresolved hpending hpromises hpos hpassed =>
    rw [hslot] at hk
    have hk0 : k = 0 := by
      have := (List.getElem?_eq_some_iff.mp hk).1
      rw [List.length_singleton] at this
      omega
    subst hk0
    cases Option.some.inj hk
    have hlt := (List.getElem?_eq_some_iff.mp hpending).1
    have hb : Between { s with futures := s.futures.set i (some r), slot := s.slot.eraseIdx 0 } :=
      ⟨by dsimp only; rw [hslot]; rfl, hresolved, hpromises⟩
    have hself : (s.futures.set i (some r))[i]? ≠ some none := by
      rw [List.getElem?_set_self hlt]
      intro h
      cases h
    refine ⟨rfl, ?_⟩
    cases form with
    | variadic =>
      rw [runAndDispose]
      have hpos' : s.pos - 1 = i := by
        rw [hpos]
        rfl
      change Inv _ (processAll _ (s.pos - 1)) ∧ Fresh (processAll _ (s.pos - 1)) ∧
        (processAll _ (s.pos - 1)).promises = _
      rw [hpos']
      refine processAll_inv hb (by dsimp only; rw [List.length_set]; omega) fun j hj => ?_
      rcases Nat.eq_or_lt_of_le hj with rfl | hlt
      · exact hself
      · dsimp only
        rw [List.getElem?_set_ne (Nat.ne_of_lt hlt)]
        exact hpassed j hlt
    | iterator =>
      rw [runAndDispose]
      have hpos' : s.pos = i := hpos
      refine completeWhenAll_inv (s := { s with
        futures := s.futures.set i (some r), slot := s.slot.eraseIdx 0, pos := s.pos + 1 })
        ⟨hb.slot, hb.resolved, hb.promises⟩ ?_ fun j hj => ?_
      · dsimp only
        rw [List.length_set, hpos']
        omega
      · dsimp only at hj ⊢
        rw [hpos'] at hj
        rcases Nat.eq_or_lt_of_le (Nat.le_of_lt_succ hj) with rfl | hlt
        · exact hself
        · rw [List.getElem?_set_ne (Ne.symm (Nat.ne_of_lt hlt))]
          exact hpassed j hlt
  | done hslot =>
    rw [hslot] at hk
    cases hk

/-- The step lemma. -/
theorem Inv.step {op : Op ρ} {s' : WhenAll ρ} (hI : Inv form s) (h : step form s op = .ok s') :
    Inv form s' := by
  cases op with
  | resolve i r =>
    rw [WhenAll.step] at h
    split at h
    · rename_i hi
      obtain rfl := Except.ok.inj h
      exact hI.resolve hi r
    · cases h
  | run k =>
    rw [WhenAll.step] at h
    split at h
    · rename_i i r hk
      obtain rfl := Except.ok.inj h
      exact (hI.run hk).2.1
    · cases h

/-- When all promises are set, a state that waits for none of them has resolved. -/
theorem Inv.resolved_of_fresh (hI : Inv form s) (hf : Fresh s) (hready : ∀ p ∈ s.promises, p ≠ none) :
    s.resolved = [s.promises] := by
  cases hI with
  | waiting k st hslot hresolved hpending hpromises hpos hpassed =>
    obtain rfl : st = none := hf ⟨k, st⟩ (by rw [hslot]; exact List.mem_singleton_self _)
    rw [set_none hpending] at hpromises
    rw [hpromises] at hready
    exact absurd rfl (hready none (List.mem_of_getElem? hpending))
  | done hslot hresolved hpromises _ => rw [hresolved, hpromises]

theorem Inv.sound (hI : Inv form s) : Sound form s := by
  have hcopy := hI
  cases hI with
  | waiting k st hslot hresolved hpending hpromises hpos hpassed =>
    refine ⟨by rw [hslot]; exact Nat.le_refl 1, .inl hresolved, fun hready => ?_⟩
    cases st with
    | none =>
      left
      apply hcopy.resolved_of_fresh _ hready
      intro c hc
      rw [hslot] at hc
      rw [List.mem_singleton.mp hc]
    | some r =>
      right
      have hrun : s.slot[0]? = some ⟨k, some r⟩ := by rw [hslot]; rfl
      obtain ⟨-, hI', hf, hsame⟩ := hcopy.run hrun
      refine ⟨_, by rw [WhenAll.step, hrun], hsame, ?_⟩
      rw [← hsame]
      apply hI'.resolved_of_fresh hf
      rw [hsame]
      exact hready
  | done hslot hresolved hpromises hready =>
    have hall : s.resolved = [s.promises] := by rw [hresolved, hpromises]
    refine ⟨by rw [hslot]; exact Nat.zero_le _, .inr ⟨hall, ?_, hslot⟩, fun _ => .inl hall⟩
    rw [hpromises]
    exact hready

/-! ## Runs -/

theorem inv_start (avoid : Bool) (form : Form) (fs : List (Option ρ)) :
    Inv form (start avoid form fs) := by
  cases form with
  | variadic =>
    rw [start]
    split
    · rename_i hall
      refine .done rfl rfl rfl ?_
      rintro p hp rfl
      have := List.all_eq_true.mp hall.2 none hp
      cases this
    · rw [doWaitAll, completeOne]
      refine (processAll_inv ⟨rfl, rfl, rfl⟩ (Nat.le_refl _) fun j hj => ?_).1
      change fs.length + 1 - 1 ≤ j at hj
      change fs[j]? ≠ _
      rw [List.getElem?_eq_none (by omega)]
      intro h
      cases h
  | iterator =>
    rw [start]
    exact (completeWhenAll_inv ⟨rfl, rfl, rfl⟩ (Nat.zero_le _)
      fun j hj => absurd hj (Nat.not_lt_zero j)).1

/-- Whatever the order in which the promises are set and the continuations run. -/
theorem throughout_sound (avoid : Bool) (form : Form) (fs : List (Option ρ)) (ops : List (Op ρ)) :
    Run.Throughout (step form) (Sound form) (start avoid form fs) ops :=
  Run.Throughout.of_along (P := fun _ _ => True) (fun _ _ _ hI _ h => hI.step h)
    (fun _ hI => hI.sound) (inv_start avoid form fs) (Run.Along.of_mem fun _ _ _ => trivial)

/-- Two continuations for three futures, one of which is ready from the start. -/
example : (Run.run (step .variadic) (start true .variadic [none, some 1, none])
    [.resolve 2 3, .run 0, .resolve 0 2, .run 0]).map WhenAll.resolved =
      .ok [[some 2, some 1, some 3]] := rfl

end Seastar.WhenAll
