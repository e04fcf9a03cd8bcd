import Seastar.Core.WhenAllRuns

/-!
Runs of `parallel_for_each`. Its state is there from the first invocation that is not ready or has
failed to the last continuation, and its references are counted by them; so its destructor, which
sets the promise, comes after all invocations.
-/

namespace Seastar.ParallelForEach

open Lib

variable {ε : Type} {s s' : ParallelForEach ε} {i j k : Nat} {r : Option (Option ε)} {x ex : Option ε}

/-! ## What is claimed -/

/-- The function returns when all invocations have started. Its future resolves once, after all of
them have completed, with an exception exactly if one of them failed, and then with one of theirs; and
when all of them have completed, it resolves when the continuations have run. -/
structure Sound (s : ParallelForEach ε) : Prop where
  started : s.returned = true → s.results.length = s.count
  resolved : s.resolved = [] ∨ ∃ ex, s.resolved = [ex] ∧ s.results.length = s.count ∧
    (∀ r ∈ s.results, r ≠ none) ∧ (ex = none ↔ ∀ r ∈ s.results, r = some none) ∧
    ∀ e, ex = some e → some (some e) ∈ s.results
  complete : s.returned = true → (∀ r ∈ s.results, r ≠ none) →
    ∃ s', Run.run step s (List.replicate s.continuations.length (.run 0)) = .ok s' ∧
      s'.results = s.results ∧ s'.resolved ≠ []

/-! ## The invariant -/

/-- The references to the state: those of the continuations and that of the function. -/
def refs (s : ParallelForEach ε) : Nat := s.continuations.length + if s.returned then 0 else 1

/-- What is known of an invocation while the state is there: it succeeded, its continuation is still
to run, or there is an exception already. -/
def Watched (s : ParallelForEach ε) (ex : Option ε) (i : Nat) (r : Option (Option ε)) : Prop :=
  r = some none ∨ (∃ c ∈ s.continuations, c.restingPlace = i) ∨
    ∃ e, r = some (some e) ∧ ex ≠ none

/-- Before the state, with it, and after it. -/
inductive Phase (s : ParallelForEach ε) : Prop
  | fresh (hstate : s.state = none) (hreturned : s.returned = false) (hnil : s.continuations = [])
    (hresolved : s.resolved = []) (hresults : ∀ r ∈ s.results, r = some none)
  | running (ex : Option ε)
    (hstate : s.state = some (s.refs, ex))
    (hpos : s.returned = true → s.continuations ≠ []) (hresolved : s.resolved = [])
    (hex : ∀ e, ex = some e → some (some e) ∈ s.results)
    (hwatched : ∀ i r, s.results[i]? = some r → Watched s ex i r)
    (hstates : ∀ c ∈ s.continuations, s.results[c.restingPlace]? = some c.state)
  | done (ex : Option ε) (hreturned : s.returned = true) (hnil : s.continuations = [])
    (hresolved : s.resolved = [ex]) (hex : ∀ e, ex = some e → some (some e) ∈ s.results)
    (hwatched : ∀ i r, s.results[i]? = some r → Watched s ex i r)

structure Inv (s : ParallelForEach ε) : Prop where
  started : s.results.length ≤ s.count
  all : s.returned = true → s.results.length = s.count
  phase : Phase s

/-- The state with one reference too many. -/
structure Holding (s : ParallelForEach ε) (ex : Option ε) : Prop where
  state : s.state = some (s.refs + 1, ex)
  resolved : s.resolved = []
  exception : ∀ e, ex = some e → some (some e) ∈ s.results
  watched : ∀ i r, s.results[i]? = some r → Watched s ex i r
  states : ∀ c ∈ s.continuations, s.results[c.restingPlace]? = some c.state

/-- The reference goes. -/
theorem Holding.release (hh : Holding s ex) : Phase s.release ∧ s.release.results = s.results ∧
    s.release.count = s.count ∧ s.release.returned = s.returned ∧
      s.release.continuations = s.continuations := by
  rw [ParallelForEach.release, hh.state]
  dsimp only
  rw [Nat.add_sub_cancel]
  by_cases hzero : s.refs = 0
  · obtain ⟨hnil, hret⟩ := Nat.add_eq_zero_iff.mp hzero
    have hreturned : s.returned = true := by
      by_contra hne
      rw [if_neg hne] at hret
      cases hret
    rw [if_pos hzero]
    refine ⟨.done ex hreturned (List.length_eq_zero_iff.mp hnil) ?_ hh.exception hh.watched,
      rfl, rfl, rfl, rfl⟩
    dsimp only
    rw [hh.resolved, List.nil_append]
  · rw [if_neg hzero]
    refine ⟨.running ex rfl (fun hreturned hnil => hzero ?_) hh.resolved hh.exception hh.watched
      hh.states, rfl, rfl, rfl, rfl⟩
    dsimp only at hreturned hnil
    rw [refs, hreturned, hnil]
    rfl

/-- The reference of the next continuation. -/
theorem Phase.retain (hP : Phase s) (hreturned : s.returned = false) :
    ∃ ex, Holding s.retain ex := by
  cases hP with
  | fresh hstate _ hnil hresolved hresults =>
    refine ⟨none, ⟨?_, hresolved, fun e he => ?_, fun i r hr => ?_, fun c hc => ?_⟩⟩
    · rw [ParallelForEach.retain, hstate, refs]
      dsimp only
      rw [hnil, hreturned]
      rfl
    · cases he
    · exact .inl (hresults r (List.mem_of_getElem? hr))
    · change c ∈ s.continuations at hc
      rw [hnil] at hc
      cases hc
  | running ex hstate _ hresolved hex hwatched hstates =>
    refine ⟨ex, ⟨?_, hresolved, hex, hwatched, hstates⟩⟩
    rw [ParallelForEach.retain, hstate]
    rfl
  | done _ hreturned' =>
    rw [hreturned] at hreturned'
    cases hreturned'

theorem getElem?_snoc {α : Type} {l : List α} {a b : α} (h : (l ++ [a])[i]? = some b) :
    l[i]? = some b ∨ i = l.length ∧ b = a := by
  rw [List.getElem?_append] at h
  split at h
  · exact .inl h
  · rename_i hlt
    right
    have hlen := (List.getElem?_eq_some_iff.mp h).1
    rw [List.length_singleton] at hlen
    exact ⟨by omega, List.mem_singleton.mp (List.mem_of_getElem? h)⟩

theorem getElem?_snoc_left {α : Type} {l : List α} {b : α} (h : l[i]? = some b) (a : α) :
    (l ++ [a])[i]? = some b := by
  rw [List.getElem?_append_left (List.getElem?_eq_some_iff.mp h).1]
  exact h

/-- The next invocation gets a continuation. -/
theorem Holding.watch (hh : Holding s ex) (hreturned : s.returned = false) :
    Phase { s with
      results := s.results ++ [r]
      continuations := s.continuations ++ [⟨s.results.length, r⟩] } := by
  refine .running ex ?_ (fun h => ?_) hh.resolved (fun e he => ?_) (fun i r' hr => ?_) fun c hc => ?_
  · change s.state = _
    rw [hh.state, refs, refs]
    dsimp only
    rw [List.length_append, List.length_singleton]
    congr 2
    omega
  · change s.returned = true at h
    rw [hreturned] at h
    cases h
  · exact List.mem_append_left _ (hh.exception e he)
  · rcases getElem?_snoc hr with hr | ⟨rfl, rfl⟩
    · rcases hh.watched i r' hr with h | ⟨c, hc, hi⟩ | h
      · exact .inl h
      · exact .inr (.inl ⟨c, List.mem_append_left _ hc, hi⟩)
      · exact .inr (.inr h)
    · exact .inr (.inl ⟨_, List.mem_append_right _ (List.mem_singleton_self _), rfl⟩)
  · rcases List.mem_append.mp hc with hc | hc
    · exact getElem?_snoc_left (hh.states c hc) r
    · obtain rfl := List.mem_singleton.mp hc
      exact List.getElem?_concat_length

theorem or_eq_some {e : ε} (h : ex.or x = some e) : ex = some e ∨ x = some e := by
  cases ex with
  | none => exact .inr h
  | some e' => exact .inl h

theorem or_ne_none_left (h : ex ≠ none) (x : Option ε) : ex.or x ≠ none := by
  cases ex with
  | none => exact absurd rfl h
  | some e => exact h

theorem or_ne_none_right (h : x ≠ none) (ex : Option ε) : ex.or x ≠ none := by
  cases ex with
  | none => exact h
  | some e =>
    intro h
    cases h

/-- An invocation that has failed already is looked at at once. -/
theorem Holding.fail (hh : Holding s ex) (e : ε) :
    Holding (store { s with results := s.results ++ [some (some e)] } (some e))
      (ex.or (some e)) := by
  refine ⟨?_, hh.resolved, fun e' he => ?_, fun i r hr => ?_, fun c hc => ?_⟩
  · rw [store, hh.state]
    rfl
  · rcases or_eq_some he with he | he
    · exact List.mem_append_left _ (hh.exception e' he)
    · cases he
      exact List.mem_append_right _ (List.mem_singleton_self _)
  · rcases getElem?_snoc hr with hr | ⟨-, rfl⟩
    · rcases hh.watched i r hr with h | h | ⟨e', he, hne⟩
      · exact .inl h
      · exact .inr (.inl h)
      · exact .inr (.inr ⟨e', he, or_ne_none_left hne _⟩)
    · exact .inr (.inr ⟨e, rfl, or_ne_none_right (by intro h; cases h) ex⟩)
  · exact getElem?_snoc_left (hh.states c hc) _

/-- The result of a continuation is stored, which ends. -/
theorem Holding.of_run (hstate : s.state = some (s.refs, ex)) (hresolved : s.resolved = [])
    (hex : ∀ e, ex = some e → some (some e) ∈ s.results)
    (hwatched : ∀ i r, s.results[i]? = some r → Watched s ex i r)
    (hstates : ∀ c ∈ s.continuations, s.results[c.restingPlace]? = some c.state)
    (hk : s.continuations[k]? = some ⟨i, some x⟩) :
    Holding (store { s with continuations := s.continuations.eraseIdx k } x) (ex.or x) := by
  have hresult := hstates _ (List.mem_of_getElem? hk)
  dsimp only at hresult
  have hlt := (List.getElem?_eq_some_iff.mp hk).1
  refine ⟨?_, hresolved, fun e he => ?_, fun j r hr => ?_, fun c hc => ?_⟩
  · rw [store]
    dsimp only
    rw [hstate, Option.map_some, refs, refs]
    dsimp only
    rw [List.length_eraseIdx_of_lt hlt]
    congr 2
    omega
  · rcases or_eq_some he with he | rfl
    · exact hex e he
    · exact List.mem_of_getElem? hresult
  · rcases hwatched j r hr with h | ⟨c, hc, rfl⟩ | ⟨e, he, hne⟩
    · exact .inl h
    · obtain ⟨m, hm⟩ := List.mem_iff_getElem?.mp hc
      by_cases hmk : m = k
      · subst hmk
        obtain rfl := Option.some.inj (hk.symm.trans hm)
        have hsame := Option.some.inj (hresult.symm.trans hr)
        cases x with
        | none => exact .inl hsame.symm
        | some e => exact .inr (.inr ⟨e, hsame.symm, or_ne_none_right (by intro h; cases h) ex⟩)
      · refine .inr (.inl ⟨c, ?_, rfl⟩)
        rw [store]
        exact List.mem_eraseIdx_iff_getElem?.mpr ⟨m, hmk, hm⟩
    · exact .inr (.inr ⟨e, he, or_ne_none_left hne x⟩)
  · exact hstates c (List.mem_of_mem_eraseIdx hc)

/-! ## Steps -/

/-- An invocation that succeeded at once leaves no trace. -/
theorem Phase.succeed (hP : Phase s) (hreturned : s.returned = false) :
    Phase { s with results := s.results ++ [some none] } := by
  cases hP with
  | fresh hstate _ hnil hresolved hresults =>
    refine .fresh hstate hreturned hnil hresolved fun r hr => ?_
    rcases List.mem_append.mp hr with hr | hr
    · exact hresults r hr
    · exact List.mem_singleton.mp hr
  | running ex hstate hpos hresolved hex hwatched hstates =>
    refine .running ex hstate hpos hresolved (fun e he => List.mem_append_left _ (hex e he))
      (fun i r hr => ?_) fun c hc => getElem?_snoc_left (hstates c hc) _
    rcases getElem?_snoc hr with hr | ⟨-, rfl⟩
    · exact hwatched i r hr
    · exact .inl rfl
  | done _ hreturned' =>
    rw [hreturned] at hreturned'
    cases hreturned'

theorem Inv.invoke (hI : Inv s) (hreturned : s.returned = false) (hlt : s.results.length < s.count)
    (r : Option (Option ε)) (preempt : Bool) : Inv (s.invoke r preempt) := by
  obtain ⟨ex, hh⟩ := hI.phase.retain hreturned
  have hstarted : (s.results ++ [r]).length ≤ s.count := by
    rw [List.length_append, List.length_singleton]
    exact hlt
  have hall {b : Bool} (hb : s.returned = b) (h : b = true) :
      (s.results ++ [r]).length = s.count := by
    rw [← hb, hreturned] at h
    cases h
  cases r with
  | none => exact ⟨hstarted, hall rfl, hh.watch (r := none) hreturned⟩
  | some r =>
    cases r with
    | none => exact ⟨hstarted, hall rfl, hI.phase.succeed hreturned⟩
    | some e =>
      cases preempt with
      | true => exact ⟨hstarted, hall rfl, hh.watch (r := some (some e)) hreturned⟩
      | false =>
        obtain ⟨hphase, hresults, hcount, hret, -⟩ := (hh.fail e).release
        have heq : s.invoke (some (some e)) false =
            (store { s.retain with results := s.retain.results ++ [some (some e)] }
              (some e)).release := rfl
        rw [heq]
        refine ⟨?_, fun h => ?_, hphase⟩
        · rw [hresults, hcount]
          exact hstarted
        · rw [hresults, hcount]
          rw [hret] at h
          exact hall rfl h

theorem finish_some {p : Nat × Option ε} (hstate : s.state = some p) :
    s.finish = release { s with returned := true } := by
  rw [ParallelForEach.finish]
  dsimp only
  split
  · rename_i hnone
    rw [hstate] at hnone
    cases hnone
  · rfl

theorem Inv.finish (hI : Inv s) (hreturned : s.returned = false)
    (hlen : s.results.length = s.count) : Inv s.finish := by
  cases hI.phase with
  | fresh hstate _ hnil hresolved hresults =>
    rw [ParallelForEach.finish]
    dsimp only
    rw [hstate]
    refine ⟨hI.started, fun _ => hlen, .done none rfl hnil ?_ (fun e he => ?_) fun i r hr => ?_⟩
    · dsimp only
      rw [hresolved, List.nil_append]
    · cases he
    · exact .inl (hresults r (List.mem_of_getElem? hr))
  | running ex hstate hpos hresolved hex hwatched hstates =>
    have hh : Holding { s with returned := true } ex := by
      refine ⟨?_, hresolved, hex, hwatched, hstates⟩
      dsimp only
      rw [hstate, refs, refs, hreturned]
      rfl
    obtain ⟨hphase, hresults, hcount, -, -⟩ := hh.release
    rw [finish_some hstate]
    refine ⟨?_, fun _ => ?_, hphase⟩
    · rw [hresults, hcount]
      exact hI.started
    · rw [hresults, hcount]
      exact hlen
  | done _ hreturned' =>
    rw [hreturned] at hreturned'
    cases hreturned'

theorem Inv.resolve (hI : Inv s) (hi : s.results[i]? = some none) (x : Option ε) :
    Inv (s.resolve i x) := by
  have hlen : (s.resolve i x).results.length = s.results.length := List.length_set
  have hilt := (List.getElem?_eq_some_iff.mp hi).1
  refine ⟨by rw [hlen]; exact hI.started, fun h => by rw [hlen]; exact hI.all h, ?_⟩
  cases hI.phase with
  | fresh _ _ _ _ hresults =>
    have := hresults none (List.mem_of_getElem? hi)
    cases this
  | running ex hstate hpos hresolved hex hwatched hstates =>
    refine .running ex ?_ (fun h hnil => ?_) hresolved (fun e he => ?_) (fun j r hr => ?_)
      fun c hc => ?_
    · change s.state = some (refs (s.resolve i x), ex)
      rw [hstate, refs, refs, ParallelForEach.resolve]
      dsimp only
      rw [List.length_map]
    · exact hpos h (List.map_eq_nil_iff.mp hnil)
    · obtain ⟨j, hj⟩ := List.mem_iff_getElem?.mp (hex e he)
      have hne : i ≠ j := by
        rintro rfl
        rw [hi] at hj
        cases hj
      apply List.mem_of_getElem? (i := j)
      rw [← hj]
      exact List.getElem?_set_ne hne
    · have hmap {c : WhenAll.Component (Option ε)} (hc : c ∈ s.continuations) (hcj : c.restingPlace = j) :
          ∃ c ∈ (s.resolve i x).continuations, c.restingPlace = j := by
        refine ⟨_, List.mem_map_of_mem hc, ?_⟩
        split
        · rename_i h
          exact h.1.symm.trans hcj
        · exact hcj
      by_cases hij : i = j
      · subst hij
        rcases hwatched i none hi with h | ⟨c, hc, hci⟩ | ⟨e, h, -⟩
        · cases h
        · exact .inr (.inl (hmap hc hci))
        · cases h
      · change (s.results.set i (some x))[j]? = some r at hr
        rw [List.getElem?_set_ne hij] at hr
        rcases hwatched j r hr with h | ⟨c, hc, hcj⟩ | h
        · exact .inl h
        · exact .inr (.inl (hmap hc hcj))
        · exact .inr (.inr h)
    · obtain ⟨d, hd, rfl⟩ := List.mem_map.mp hc
      have hold := hstates d hd
      change (s.results.set i (some x))[_]? = _
      split
      · exact List.getElem?_set_self hilt
      · rename_i hnot
        by_cases hdi : d.restingPlace = i
        · rw [hdi, hi] at hold
          rw [← Option.some.inj hold] at hnot
          exact absurd ⟨hdi, rfl⟩ hnot
        · rw [List.getElem?_set_ne (Ne.symm hdi)]
          exact hold
  | done ex _ hnil _ _ hwatched =>
    rcases hwatched i none hi with h | ⟨c, hc, -⟩ | ⟨e, h, -⟩
    · cases h
    · rw [hnil] at hc
      cases hc
    · cases h

/-- A continuation runs; with the results as they are, and one continuation fewer. -/
theorem Inv.run (hI : Inv s) (hk : s.continuations[k]? = some ⟨i, some x⟩) :
    Inv (({ s with continuations := s.continuations.eraseIdx k }.store x).release) ∧
      (({ s with continuations := s.continuations.eraseIdx k }.store x).release).results = s.results ∧
      (({ s with continuations := s.continuations.eraseIdx k }.store x).release).returned =
        s.returned ∧
      (({ s with continuations := s.continuations.eraseIdx k }.store x).release).continuations =
        s.continuations.eraseIdx k := by
  cases hI.phase with
  | fresh _ _ hnil =>
    rw [hnil] at hk
    cases hk
  | running ex hstate hpos hresolved hex hwatched hstates =>
    obtain ⟨hphase, hresults, hcount, hret, hconts⟩ :=
      (Holding.of_run hstate hresolved hex hwatched hstates hk).release
    refine ⟨⟨?_, fun h => ?_, hphase⟩, hresults, hret, hconts⟩
    · rw [hresults, hcount]
      exact hI.started
    · rw [hresults, hcount]
      rw [hret] at h
      exact hI.all h
  | done _ _ hnil =>
    rw [hnil] at hk
    cases hk

/-- The step lemma. -/
theorem Inv.step {op : Op ε} (hI : Inv s) (h : step s op = .ok s') : Inv s' := by
  cases op with
  | invoke r preempt =>
    rw [ParallelForEach.step] at h
    split at h
    · rename_i hnext
      obtain rfl := Except.ok.inj h
      exact hI.invoke hnext.1 hnext.2 r preempt
    · cases h
  | finish =>
    rw [ParallelForEach.step] at h
    split at h
    · rename_i hend
      obtain rfl := Except.ok.inj h
      exact hI.finish hend.1 hend.2
    · cases h
  | resolve i r =>
    rw [ParallelForEach.step] at h
    split at h
    · rename_i hi
      obtain rfl := Except.ok.inj h
      exact hI.resolve hi r
    · cases h
  | run k =>
    rw [ParallelForEach.step] at h
    split at h
    · rename_i i r hk
      obtain rfl := Except.ok.inj h
      exact (hI.run hk).1
    · cases h

/-! ## The end -/

/-- When all invocations have completed, the continuations that are left resolve the future. -/
theorem Inv.drain (hI : Inv s) (hreturned : s.returned = true) (hready : ∀ r ∈ s.results, r ≠ none) :
    ∃ s', Run.run ParallelForEach.step s (List.replicate s.continuations.length (.run 0)) = .ok s' ∧
      s'.results = s.results ∧ s'.resolved ≠ [] := by
  induction hn : s.continuations.length generalizing s with
  | zero =>
    refine ⟨s, rfl, rfl, ?_⟩
    have hnil := List.length_eq_zero_iff.mp hn
    cases hI.phase with
    | fresh _ hreturned' =>
      rw [hreturned] at hreturned'
      cases hreturned'
    | running _ _ hpos => exact absurd hnil (hpos hreturned)
    | done ex _ _ hresolved =>
      rw [hresolved]
      exact List.cons_ne_nil _ _
  | succ n ih =>
    obtain ⟨c, hc⟩ : ∃ c, s.continuations[0]? = some c := by
      rw [List.getElem?_eq_getElem (by omega)]
      exact ⟨_, rfl⟩
    have hscheduled : ∃ x, c.state = some x := by
      cases hI.phase with
      | fresh _ _ hnil =>
        rw [hnil] at hc
        cases hc
      | running _ _ _ _ _ _ hstates =>
        have hresult := hstates c (List.mem_of_getElem? hc)
        exact Option.ne_none_iff_exists'.mp (hready _ (List.mem_of_getElem? hresult))
      | done _ _ hnil =>
        rw [hnil] at hc
        cases hc
    obtain ⟨x, hx⟩ := hscheduled
    have hk : s.continuations[0]? = some ⟨c.restingPlace, some x⟩ := by rw [hc, ← hx]
    obtain ⟨hI', hresults, hret, hconts⟩ := hI.run hk
    have hlen := congrArg List.length hconts
    rw [List.length_eraseIdx_of_lt (by omega)] at hlen
    obtain ⟨s', hrun, hsame, hresolved⟩ := ih hI' (by rw [hret]; exact hreturned)
      (by rw [hresults]; exact hready) (by omega)
    refine ⟨s', ?_, hsame.trans hresults, hresolved⟩
    rw [List.replicate_succ]
    exact Run.run_cons_ok.mpr ⟨_, by rw [ParallelForEach.step, hk], hrun⟩

theorem Inv.sound (hI : Inv s) : Sound s := by
  refine ⟨hI.all, ?_, hI.drain⟩
  cases hI.phase with
  | fresh _ _ _ hresolved => exact .inl hresolved
  | running _ _ _ hresolved => exact .inl hresolved
  | done ex hreturned hnil hresolved hex hwatched =>
    right
    have hdone (r : Option (Option ε)) (hr : r ∈ s.results) :
        r = some none ∨ ∃ e, r = some (some e) ∧ ex ≠ none := by
      obtain ⟨i, hi⟩ := List.mem_iff_getElem?.mp hr
      rcases hwatched i r hi with h | ⟨c, hc, -⟩ | h
      · exact .inl h
      · rw [hnil] at hc
        cases hc
      · exact .inr h
    refine ⟨ex, hresolved, hI.all hreturned, fun r hr => ?_, ?_, hex⟩
    · rcases hdone r hr with rfl | ⟨e, rfl, -⟩ <;> exact Option.some_ne_none _
    · constructor
      · intro hnone r hr
        rcases hdone r hr with h | ⟨e, -, hne⟩
        · exact h
        · exact absurd hnone hne
      · intro hall
        cases ex with
        | none => rfl
        | some e =>
          have := hall _ (hex e rfl)
          cases this

/-! ## Runs -/

theorem inv_init (count : Nat) : Inv ({ count := count } : ParallelForEach ε) where
  started := Nat.zero_le _
  all h := by cases h
  phase := .fresh rfl rfl rfl rfl fun r hr => by cases hr

/-- Whatever the order in which the futures become ready and the continuations run: both forms of
`when_all`, and `parallel_for_each`. -/
theorem fan_in_sound {ρ ε : Type} (avoid : Bool) (form : WhenAll.Form) (fs : List (Option ρ))
    (ops : List (WhenAll.Op ρ)) (count : Nat) (pops : List (Op ε)) :
    Run.Throughout (WhenAll.step form) (WhenAll.Sound form) (WhenAll.start avoid form fs) ops ∧
      Run.Throughout step Sound { count := count } pops :=
  ⟨WhenAll.throughout_sound avoid form fs ops,
    Run.Throughout.of_along (P := fun _ _ => True) (fun _ _ _ hI _ h => hI.step h)
      (fun _ hI => hI.sound) (inv_init count) (Run.Along.of_mem fun _ _ _ => trivial)⟩

end Seastar.ParallelForEach
