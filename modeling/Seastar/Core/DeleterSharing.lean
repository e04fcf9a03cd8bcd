import Seastar.Core.DeleterOwners

/-!
Runs of programs with deleters: an action is carried out once, when the last deleter that
encapsulates it is destroyed, as long as no deleter is appended to a shared one that has a `next`.
-/

namespace Seastar

open Lib

namespace Deleters

open Deleter

variable {s s' : Deleters} {x y a : Nat} {d : Handle} {ds : List Deleter}

/-- What a program may do: it names live deleters, and makes new ones elsewhere. A deleter that is
appended shares no action with the target. -/
def Allowed (s : Deleters) : Event → Prop
  | .make x next => s.handles.lookup x = none ∧ ∀ y ∈ next, s.handles.lookup y ≠ none
  | .makeFree x _ => s.handles.lookup x = none
  | .share x y => s.handles.lookup x ≠ none ∧ s.handles.lookup y = none
  | .move x y => s.handles.lookup x = none ∧ s.handles.lookup y ≠ none
  | .assign x y => s.handles.lookup x ≠ none ∧ s.handles.lookup y ≠ none
  | .append x y => s.handles.lookup x ≠ none ∧ s.handles.lookup y ≠ none ∧ x ≠ y ∧
    Disjoint (s.handle x).actions (s.handle y).actions
  | .destroy x => s.handles.lookup x ≠ none

instance (s : Deleters) : ∀ e, Decidable (Allowed s e)
  | .make x next => inferInstanceAs (Decidable (s.handles.lookup x = none ∧
    ∀ y ∈ next, s.handles.lookup y ≠ none))
  | .makeFree x _ => inferInstanceAs (Decidable (s.handles.lookup x = none))
  | .share x y | .move y x => inferInstanceAs (Decidable (_ ∧ _))
  | .assign _ _ => inferInstanceAs (Decidable (_ ∧ _))
  | .append _ _ => inferInstanceAs (Decidable (_ ∧ _ ∧ _ ∧ _))
  | .destroy x => inferInstanceAs (Decidable (s.handles.lookup x ≠ none))

/-- `append` meets no shared `impl` that has a `next`, and `share` no `impl` with 2³² pointers. -/
def Sound (s : Deleters) : Event → Prop
  | .share x _ => countFree (s.handle x).impl s.heap = true
  | .append x y => (s.handle y).impl = .null ∨
    tailsFree (s.heap.fresh + 2) (s.handle x).impl s.heap = true
  | _ => True

instance (s : Deleters) : ∀ e, Decidable (Sound s e)
  | .share x _ => inferInstanceAs (Decidable (countFree (s.handle x).impl s.heap = true))
  | .append _ _ => inferInstanceAs (Decidable (_ ∨ _))
  | .make _ _ | .makeFree _ _ | .move _ _ | .assign _ _ | .destroy _ =>
    inferInstanceAs (Decidable True)

/-- The deleters out of the memory. -/
def impls (l : List (Nat × Handle)) : List Deleter := l.map fun e => e.2.impl

/-- The memory is in order, with the deleters `ds` in hand, and every deleter reaches the actions it
encapsulates. -/
structure Inv (ds : List Deleter) (s : Deleters) : Prop where
  keyed : Assoc.Keyed s.handles
  heap : Deleter.Inv (ds ++ impls s.handles) s.heap
  owns : ∀ e ∈ s.handles, ∀ a, a ∈ e.2.actions ↔ Owns s.heap e.2.impl a

theorem Inv.init : Inv [] {} := by
  refine ⟨List.nodup_nil, ⟨fun _ _ => rfl, fun _ _ => rfl, ?_, ?_, ⟨fun _ => 0, ?_⟩, ?_⟩, ?_⟩
  · exact fun n i hi => by cases hi
  · exact fun a => rfl
  · exact fun n i m hi => by cases hi
  · exact fun n i hi => by cases hi
  · exact fun e he => by cases he

theorem handle_of_lookup (hx : s.handles.lookup x = some d) : s.handle x = d := by
  rw [handle, hx, Option.getD_some]

theorem Inv.handle_owns (hinv : Inv ds s) (hx : s.handles.lookup x ≠ none) (a : Nat) :
    a ∈ (s.handle x).actions ↔ Owns s.heap (s.handle x).impl a := by
  obtain ⟨d, hd⟩ := Option.ne_none_iff_exists'.mp hx
  rw [handle_of_lookup hd]
  exact hinv.owns _ (Assoc.mem_of_lookup hd) a

/-- The memory changes, and what the deleters reach does not. -/
theorem Inv.onHeap {ds' : List Deleter} {h : Heap} (hinv : Inv ds s)
    (hheap : Deleter.Inv (ds' ++ impls s.handles) h)
    (hown : ∀ d ∈ impls s.handles, ∀ a, Owns h d a ↔ Owns s.heap d a) :
    Inv ds' { s with heap := h } := by
  refine ⟨hinv.keyed, hheap, ?_⟩
  intro e he a
  rw [hown _ (List.mem_map_of_mem he) a]
  exact hinv.owns e he a

/-- A deleter in hand is exchanged for that at an address. -/
theorem Inv.exchange (hinv : Inv (d.impl :: ds) s) (hx : s.handles.lookup x ≠ none)
    (hown : ∀ a, a ∈ d.actions ↔ Owns s.heap d.impl a) :
    Inv ((s.handle x).impl :: ds) { s with handles := Assoc.set x d s.handles } := by
  obtain ⟨e, he⟩ := Option.ne_none_iff_exists'.mp hx
  obtain ⟨l₁, l₂, hsplit⟩ := hinv.keyed.split he
  have hset := hsplit.set d
  refine ⟨hinv.keyed.set x d, hinv.heap.perm ?_, ?_⟩
  · rw [handle_of_lookup he, hset.eq, hsplit.eq]
    simp only [impls, List.map_append, List.map_cons, List.cons_append]
    rw [List.perm_iff_count]
    intro b
    simp only [List.count_append, List.count_cons]
    omega
  · show ∀ e ∈ Assoc.set x d s.handles, _
    rw [hset.forall_mem]
    exact ⟨hown, (hsplit.forall_mem.mp hinv.owns).2⟩

/-- A deleter is moved from. -/
theorem Inv.clear (hinv : Inv ds s) (hx : s.handles.lookup x ≠ none) :
    Inv ((s.handle x).impl :: ds) (s.clear x) := by
  apply Inv.exchange _ hx
  · intro a
    simp
  · exact ⟨hinv.keyed, Deleter.Inv.null_cons.mpr hinv.heap, hinv.owns⟩

/-- A deleter in hand goes to an address that was moved from. -/
theorem Inv.put (hinv : Inv (d.impl :: ds) s) (hx : s.handles.lookup x = some {})
    (hown : ∀ a, a ∈ d.actions ↔ Owns s.heap d.impl a) :
    Inv ds { s with handles := Assoc.set x d s.handles } := by
  have hex := hinv.exchange (by rw [hx]; simp) hown
  rw [handle_of_lookup hx] at hex
  exact ⟨hex.keyed, Deleter.Inv.null_cons.mp hex.heap, hex.owns⟩

/-- A deleter is constructed from one in hand. -/
theorem Inv.add (hinv : Inv (d.impl :: ds) s) (hx : s.handles.lookup x = none)
    (hown : ∀ a, a ∈ d.actions ↔ Owns s.heap d.impl a) : Inv ds (s.add x d) := by
  refine ⟨hinv.keyed.concat hx d, hinv.heap.perm ?_, ?_⟩
  · rw [List.perm_iff_count]
    intro b
    simp only [Deleters.add, impls, List.map_append, List.map_cons, List.map_nil, List.cons_append,
      List.count_append, List.count_cons, List.count_nil]
    omega
  · intro e he
    rcases List.mem_append.mp he with he | he
    · exact hinv.owns e he
    · obtain rfl := List.mem_singleton.mp he
      exact hown

theorem Inv.erase (hinv : Inv ds s) (hx : s.handles.lookup x ≠ none) :
    Inv ((s.handle x).impl :: ds) { s with handles := Assoc.erase x s.handles } := by
  obtain ⟨e, he⟩ := Option.ne_none_iff_exists'.mp hx
  obtain ⟨l₁, l₂, hsplit⟩ := hinv.keyed.split he
  refine ⟨hinv.keyed.erase x, hinv.heap.perm ?_, ?_⟩
  · rw [handle_of_lookup he, hsplit.erase, hsplit.eq, List.perm_iff_count]
    intro b
    simp only [impls, List.map_append, List.map_cons, List.cons_append, List.count_append,
      List.count_cons]
    omega
  · show ∀ e ∈ Assoc.erase x s.handles, _
    rw [hsplit.erase]
    exact (hsplit.forall_mem.mp hinv.owns).2

theorem lookup_clear : (s.clear y).handles.lookup x =
    if x = y then (s.handles.lookup y).map fun _ => {} else s.handles.lookup x :=
  Assoc.lookup_set ..

theorem handle_clear (hne : x ≠ y) : (s.clear y).handle x = s.handle x := by
  rw [handle, lookup_clear, if_neg hne, handle]

theorem lookup_clear_self (hx : s.handles.lookup x ≠ none) :
    (s.clear x).handles.lookup x = some {} := by
  obtain ⟨d, hd⟩ := Option.ne_none_iff_exists'.mp hx
  rw [lookup_clear, if_pos rfl, hd]
  rfl

theorem set_clear : Assoc.set x d (s.clear x).handles = Assoc.set x d s.handles := by
  rw [clear, Assoc.set, Assoc.set, Assoc.set, List.map_map]
  refine List.map_congr_left fun e _ => ?_
  by_cases he : e.1 = x
  · simp [he]
  · simp [he]

/-! ## Steps -/

theorem step_make (hinv : Inv [d.impl] s) (hown : ∀ a, a ∈ d.actions ↔ Owns s.heap d.impl a)
    (hx : s.handles.lookup x = none) :
    Inv [] ({ s with heap := { s.heap.new d.impl (.carry s.heap.made) with made := s.heap.made + 1 } }.add
      x ⟨.impl s.heap.fresh, insert s.heap.made d.actions⟩) := by
  have hsame : ∀ e, 0 < pointers (d.impl :: impls s.handles) s.heap e → ∀ a,
      Owns { s.heap.new d.impl (.carry s.heap.made) with made := s.heap.made + 1 } e a ↔
        Owns s.heap e a :=
    fun e he a => owns_congr_eq (hinv.heap.same_of_new _ _ he)
  have hheap : Inv [.impl s.heap.fresh] { s with heap :=
      { s.heap.new d.impl (.carry s.heap.made) with made := s.heap.made + 1 } } :=
    hinv.onHeap hinv.heap.newCarry fun e he =>
      hsame e (Deleter.Inv.pointers_of_mem (List.mem_cons_of_mem _ he))
  apply hheap.add (d := ⟨.impl s.heap.fresh, insert s.heap.made d.actions⟩) hx
  have hself : ({ s.heap.new d.impl (.carry s.heap.made) with made := s.heap.made + 1 } : Heap).impls
      s.heap.fresh = some { next := d.impl, action := .carry s.heap.made } := Heap.new_self
  intro a
  rw [owns_impl hself, Finset.mem_insert, hown,
    ← hsame _ (Deleter.Inv.pointers_of_mem List.mem_cons_self)]
  simp [Impl.holds, eq_comm]

theorem step_makeFree (hinv : Inv [] s) (hx : s.handles.lookup x = none) :
    Inv [] ({ s with heap := { s.heap with made := s.heap.made + 1 } }.add x
      ⟨.raw s.heap.made, {s.heap.made}⟩) := by
  have hheap : Inv [.raw s.heap.made] { s with heap := { s.heap with made := s.heap.made + 1 } } :=
    hinv.onHeap hinv.heap.makeRaw fun e _ a => owns_congr_eq fun m _ => rfl
  apply hheap.add (d := ⟨.raw s.heap.made, {s.heap.made}⟩) hx
  intro a
  simp

theorem step_share (hinv : Inv [] s) (ha : Allowed s (.share x y)) (hs : Sound s (.share x y)) :
    ∃ s', step s (.share x y) = .ok s' ∧ Inv [] s' := by
  have hclear := hinv.clear ha.1
  obtain ⟨d, h', hrun, hinv', -, hown, hframe⟩ := share_spec hclear.heap hs
  have hd : ∀ a, a ∈ (s.handle x).actions ↔ Owns h' d a := by
    intro a
    rw [hown, hinv.handle_owns ha.1]
    rfl
  have hheap : Inv [d, d] { s.clear x with heap := h' } := hclear.onHeap hinv' hframe
  have hput := hheap.put (d := ⟨d, (s.handle x).actions⟩) (lookup_clear_self ha.1) hd
  have hy : (Assoc.set x ⟨d, (s.handle x).actions⟩ (s.clear x).handles).lookup y = none := by
    rw [Assoc.lookup_set, lookup_clear_self ha.1]
    split
    · rename_i h
      subst h
      exact absurd ha.2 ha.1
    · rename_i h
      rw [lookup_clear, if_neg h]
      exact ha.2
  have hadd := hput.add (d := ⟨d, (s.handle x).actions⟩) hy hd
  refine ⟨_, ?_, hadd⟩
  rw [set_clear]
  have hrun : Deleter.share (s.handle x).impl s.heap = .ok (d, h') := hrun
  simp only [step, hrun]
  rfl

theorem step_move (hinv : Inv [] s) (ha : Allowed s (.move x y)) :
    Inv [] ((s.clear y).add x (s.handle y)) := by
  apply (hinv.clear ha.2).add
  · rw [lookup_clear, if_neg]
    · exact ha.1
    · rintro rfl
      exact ha.2 ha.1
  · exact hinv.handle_owns ha.2

/-- Both deleters are in hand, and have left their addresses. -/
theorem Inv.clear_two (hinv : Inv [] s) (hx : s.handles.lookup x ≠ none)
    (hy : s.handles.lookup y ≠ none) (hne : x ≠ y) :
    Inv [(s.handle x).impl, (s.handle y).impl] ((s.clear y).clear x) := by
  have hx' : (s.clear y).handles.lookup x ≠ none := by
    rw [lookup_clear, if_neg hne]
    exact hx
  have hclear := (hinv.clear hy).clear hx'
  rw [handle_clear hne] at hclear
  exact hclear

theorem step_assign (hinv : Inv [] s) (ha : Allowed s (.assign x y)) :
    ∃ s', step s (.assign x y) = .ok s' ∧ Inv [] s' := by
  by_cases hne : x = y
  · exact ⟨s, if_pos hne, hinv⟩
  · have hclear := hinv.clear_two ha.1 ha.2 hne
    obtain ⟨h', hrun, hinv', -, hframe⟩ := destroy_spec hclear.heap
    have hheap : Inv [(s.handle y).impl] { (s.clear y).clear x with heap := h' } :=
      hclear.onHeap hinv' fun e he => hframe e (List.mem_cons_of_mem _ he)
    have hx : (s.clear y).handles.lookup x ≠ none := by
      rw [lookup_clear, if_neg hne]
      exact ha.1
    have hput := hheap.put (lookup_clear_self hx) (by
      intro a
      rw [hinv.handle_owns ha.2]
      exact (hframe _ List.mem_cons_self a).symm)
    refine ⟨_, ?_, hput⟩
    rw [set_clear]
    have hrun : Deleter.destroy (s.handle x).impl s.heap = .ok h' := hrun
    simp only [step, if_neg hne, hrun]
    rfl

theorem step_append (hinv : Inv [] s) (ha : Allowed s (.append x y)) (hs : Sound s (.append x y)) :
    ∃ s', step s (.append x y) = .ok s' ∧ Inv [] s' := by
  obtain ⟨hx, hy, hne, hdisj⟩ := ha
  have hclear := hinv.clear_two hx hy hne
  have hownx := hinv.handle_owns hx
  have howny := hinv.handle_owns hy
  obtain ⟨r, h', hrun, happ⟩ := append_spec hclear.heap hs (by
    intro a hoy hox
    exact Finset.disjoint_left.mp hdisj ((hownx a).mpr hox) ((howny a).mpr hoy))
  have hheap : Inv [r] { (s.clear y).clear x with heap := h' } :=
    hclear.onHeap happ.inv fun e he a => owns_congr_eq (happ.frame e he)
  have hx' : (s.clear y).handles.lookup x ≠ none := by
    rw [lookup_clear, if_neg hne]
    exact hx
  have hput := hheap.put (d := ⟨r, (s.handle x).actions ∪ (s.handle y).actions⟩)
    (lookup_clear_self hx') (by
      intro a
      rw [Finset.mem_union, hownx, howny]
      exact (happ.owns a).symm)
  refine ⟨_, ?_, hput⟩
  rw [set_clear]
  have hrun : Deleter.append (s.handle x).impl (s.handle y).impl s.heap = .ok (r, h') := hrun
  simp only [step, hrun]
  rfl

theorem step_destroy (hinv : Inv [] s) (ha : Allowed s (.destroy x)) :
    ∃ s', step s (.destroy x) = .ok s' ∧ Inv [] s' := by
  have herase := hinv.erase ha
  obtain ⟨h', hrun, hinv', -, hframe⟩ := destroy_spec herase.heap
  refine ⟨_, ?_, herase.onHeap hinv' hframe⟩
  have hrun : Deleter.destroy (s.handle x).impl s.heap = .ok h' := hrun
  simp only [step, hrun]
  rfl

theorem step_ok {e : Event} (hinv : Inv [] s) (ha : Allowed s e) (hs : Sound s e) :
    ∃ s', step s e = .ok s' ∧ Inv [] s' := by
  cases e with
  | make x next =>
    cases next with
    | none =>
      have hnull : Inv [Deleter.null] s :=
        ⟨hinv.keyed, Deleter.Inv.null_cons.mpr hinv.heap, hinv.owns⟩
      exact ⟨_, rfl, step_make (d := {}) hnull (by simp) ha.1⟩
    | some y =>
      have hy := ha.2 y rfl
      have hx : (s.clear y).handles.lookup x = none := by
        rw [lookup_clear, if_neg]
        · exact ha.1
        · rintro rfl
          exact hy ha.1
      exact ⟨_, rfl, step_make (hinv.clear hy) (hinv.handle_owns hy) hx⟩
  | makeFree x isNull =>
    cases isNull with
    | true =>
      have hnull : Inv [Deleter.null] s :=
        ⟨hinv.keyed, Deleter.Inv.null_cons.mpr hinv.heap, hinv.owns⟩
      exact ⟨_, rfl, hnull.add (d := {}) ha (by simp)⟩
    | false => exact ⟨_, rfl, step_makeFree hinv ha⟩
  | share x y => exact step_share hinv ha hs
  | move x y => exact ⟨_, rfl, step_move hinv ha⟩
  | assign x y => exact step_assign hinv ha
  | append x y => exact step_append hinv ha hs
  | destroy x => exact step_destroy hinv ha

/-! ## Runs -/

/-- An action has been carried out, once, unless it is still encapsulated by a deleter. -/
def CarriesOut (s : Deleters) : Prop :=
  ∀ a, s.heap.ran.count a = if a < s.heap.made ∧ ¬ ∃ e ∈ s.handles, a ∈ e.2.actions then 1 else 0

theorem Inv.carriesOut (hinv : Inv [] s) : CarriesOut s := by
  classical
  intro a
  have hcount := hinv.heap.count_ran a
  have hiff : (∃ d ∈ [] ++ impls s.handles, Owns s.heap d a) ↔
      ∃ e ∈ s.handles, a ∈ e.2.actions := by
    constructor
    · rintro ⟨d, hd, ho⟩
      obtain ⟨e, he, rfl⟩ := List.mem_map.mp hd
      exact ⟨e, he, (hinv.owns e he a).mpr ho⟩
    · rintro ⟨e, he, ho⟩
      exact ⟨_, List.mem_map_of_mem he, (hinv.owns e he a).mp ho⟩
  simp only [hiff] at hcount
  rw [hcount]

/-- In every run in which no deleter is appended to a shared one with a `next`, no assertion fails,
and each action is carried out once, when no deleter encapsulates it any more. -/
theorem run_carriesOut (es : List Event)
    (hes : Run.Along step (fun s e => Allowed s e ∧ Sound s e) {} es) :
    ∃ s, Run.run step {} es = .ok s ∧ CarriesOut s := by
  obtain ⟨s, hrun, hinv⟩ :=
    Run.run_ok (fun s e hs he => step_ok hs he.1 he.2) Inv.init hes
  exact ⟨s, hrun, hinv.carriesOut⟩

/-- A buffer is shared, and something is appended to one of the deleters, which goes first. -/
theorem run_carriesOut_shared :
    let es := [.makeFree 0 false, .share 0 1, .make 2 none, .append 0 2, .destroy 0, .destroy 1]
    ∃ s, Run.run step {} es = .ok s ∧ CarriesOut s := by
  intro es
  exact run_carriesOut es (by decide +kernel)

/-- The end of a chain is carried out with the deleter that something was appended to, while
another deleter that shares the chain is alive. -/
theorem append_loses_tail :
    ¬ ∀ es, Run.Along step Allowed {} es → ∃ s, Run.run step {} es = .ok s ∧ CarriesOut s := by
  intro hall
  let es : List Event :=
    [.make 0 none, .make 1 (some 0), .share 1 2, .make 3 none, .append 1 3, .destroy 1]
  obtain ⟨s, hrun, hs⟩ := hall es (by decide +kernel)
  have hend : (Run.run step {} es).map (fun s => (s.heap.ran.count 0,
      decide (∃ e ∈ s.handles, 0 ∈ e.2.actions))) = .ok (1, true) := by decide +kernel
  rw [hrun] at hend
  obtain ⟨hcount, hmem⟩ := Prod.mk.inj (Except.ok.inj hend)
  have hzero := hs 0
  rw [if_neg fun hn => hn.2 (of_decide_eq_true hmem)] at hzero
  omega

end Deleters

end Seastar
