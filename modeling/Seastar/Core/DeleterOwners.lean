import Seastar.Core.DeleterHeap

/-!
What a deleter encapsulates is what it reaches, and an action has been carried out once nothing
reaches it. What `~deleter()`, `share` and `append` leave to the deleters.
-/

namespace Seastar

open Lib

namespace Deleter

variable {h h' : Heap} {n m a k : Nat} {i : Impl} {d e next : Deleter} {os l : List Deleter}

/-! ## Owners -/

theorem owns_impl (hi : h.impls n = some i) :
    Owns h (.impl n) a ↔ i.action = .carry a ∨ ∃ d ∈ i.holds, Owns h d a := by
  constructor
  · intro ho
    cases ho with
    | carry hj haction =>
      obtain rfl := Option.some.inj (hi.symm.trans hj)
      exact Or.inl haction
    | held hj hd ho =>
      obtain rfl := Option.some.inj (hi.symm.trans hj)
      exact Or.inr ⟨_, hd, ho⟩
  · rintro (haction | ⟨d, hd, ho⟩)
    · exact .carry hi haction
    · exact .held hi hd ho

@[simp] theorem not_owns_null : ¬ Owns h .null a := by
  intro ho
  cases ho

@[simp] theorem owns_raw {b : Nat} : Owns h (.raw b) a ↔ a = b := by
  constructor
  · intro ho
    cases ho
    rfl
  · rintro rfl
    exact .raw a

theorem Reaches.mono (hr : Reaches h d n) (hs : ∀ m, Reaches h d m → SameAt h h' m) :
    Reaches h' d n := by
  induction hr with
  | here n => exact .here n
  | @held n m i d hi hd _ ih =>
    obtain ⟨j, hj, -, hholds⟩ := (hs n (.here n)).some hi
    exact .held hj (hholds ▸ hd) (ih fun k hk => hs k (.held hi hd hk))

namespace Inv

theorem pointers_of_mem (hd : d ∈ os) : 0 < pointers os h d :=
  Nat.add_pos_left (List.count_pos_iff.mpr hd) _

theorem pointers_of_held (hinv : Inv os h) (hi : h.impls n = some i) (hd : d ∈ i.holds) :
    0 < pointers os h d := by
  have hle := Heap.le_total (fun i => i.holds.count d) (hinv.alive hi) hi
  have hpos := List.count_pos_iff.mpr hd
  rw [pointers, Heap.weight]
  omega

/-- What is pointed to is alive. -/
theorem exists_of_pointers (hinv : Inv os h) (hp : 0 < pointers os h (.impl n)) :
    ∃ i, h.impls n = some i := by
  cases hi : h.impls n with
  | none => exact absurd (hinv.freed n hi) (Nat.ne_of_gt hp)
  | some i => exact ⟨i, rfl⟩

theorem exists_of_mem (hinv : Inv os h) (hmem : .impl n ∈ os) : ∃ i, h.impls n = some i :=
  hinv.exists_of_pointers (pointers_of_mem hmem)

theorem exists_of_reaches (hinv : Inv os h) (hp : 0 < pointers os h d) (hr : Reaches h d n) :
    ∃ i, h.impls n = some i := by
  induction hr with
  | here n => exact hinv.exists_of_pointers hp
  | held hi hd _ ih => exact ih (hinv.pointers_of_held hi hd)

/-- Every `impl` encapsulates something. -/
theorem impl_owns (hinv : Inv os h) (hi : h.impls n = some i) : ∃ a, Owns h (.impl n) a := by
  obtain ⟨rank, hrank⟩ := hinv.ranked
  generalize hr : rank n = r
  induction r using Nat.strong_induction_on generalizing n i with
  | _ r ih =>
    subst hr
    cases ha : i.action with
    | carry a => exact ⟨a, .carry hi ha⟩
    | drop d =>
      have hmem : d ∈ i.holds := by simp [Impl.holds, ha]
      cases d with
      | null => exact absurd ha (hinv.drops n i hi)
      | raw a => exact ⟨a, .held hi hmem (.raw a)⟩
      | impl m =>
        obtain ⟨j, hj⟩ := hinv.exists_of_pointers (hinv.pointers_of_held hi hmem)
        obtain ⟨a, ho⟩ := ih _ (hrank n i m hi hmem) hj rfl
        exact ⟨a, .held hi hmem ho⟩

theorem exists_owns (hinv : Inv os h) (hd : d ∈ os) (hne : d ≠ .null) : ∃ a, Owns h d a := by
  cases d with
  | null => exact absurd rfl hne
  | raw a => exact ⟨a, .raw a⟩
  | impl n =>
    obtain ⟨i, hi⟩ := hinv.exists_of_mem hd
    exact hinv.impl_owns hi

/-- Every `impl` is reached from out of the memory: upwards from holder to holder. -/
theorem reached (hinv : Inv os h) (hi : h.impls n = some i) : ∃ d ∈ os, Reaches h d n := by
  obtain ⟨rank, hrank⟩ := hinv.ranked
  obtain ⟨b, hb⟩ : ∃ b, ∀ m < h.fresh, rank m ≤ b :=
    ⟨_, fun m hm => Finset.single_le_sum (fun _ _ => Nat.zero_le _) (Finset.mem_range.mpr hm)⟩
  generalize hr : b - rank n = r
  induction r using Nat.strong_induction_on generalizing n i with
  | _ r ih =>
    subst hr
    have hpos := (hinv.counts n i hi).pos
    rw [pointers] at hpos
    by_cases hos : .impl n ∈ os
    · exact ⟨_, hos, .here n⟩
    · rw [List.count_eq_zero_of_not_mem hos, Nat.zero_add] at hpos
      obtain ⟨m, j, hj, hcount⟩ := Heap.total_pos hpos
      have hmem := List.count_pos_iff.mp hcount
      have hlt := hrank m j n hj hmem
      have hle := hb m (hinv.alive hj)
      obtain ⟨d, hd, hreach⟩ := ih (b - rank m) (by omega) hj rfl
      exact ⟨d, hd, hreach.trans (.held hj hmem (.here n))⟩

/-- What is encapsulated is in some place. -/
theorem placed (hinv : Inv os h) (ho : Owns h d a) (hp : 0 < pointers os h d) :
    0 < pointers os h (.raw a) + h.total (fun i => i.carries a) := by
  induction ho with
  | raw a => omega
  | @carry n a i hi haction =>
    have hle := Heap.le_total (fun i => i.carries a) (hinv.alive hi) hi
    have hone : i.carries a = 1 := if_pos haction
    omega
  | held hi hd _ ih => exact ih (hinv.pointers_of_held hi hd)

/-- ... and what is in some place is encapsulated. -/
theorem owned (hinv : Inv os h) (hp : 0 < pointers os h (.raw a) + h.total fun i => i.carries a) :
    ∃ d ∈ os, Owns h d a := by
  by_cases hraw : .raw a ∈ os
  · exact ⟨_, hraw, .raw a⟩
  · obtain ⟨n, i, hi, ho⟩ : ∃ n i, h.impls n = some i ∧ Owns h (.impl n) a := by
      rw [pointers, List.count_eq_zero_of_not_mem hraw, Nat.zero_add] at hp
      by_cases hw : 0 < h.weight (.raw a)
      · obtain ⟨n, i, hi, hcount⟩ := Heap.total_pos hw
        exact ⟨n, i, hi, .held hi (List.count_pos_iff.mp hcount) (.raw a)⟩
      · obtain ⟨n, i, hi, hcount⟩ := Heap.total_pos (f := fun i => i.carries a) (h := h) (by omega)
        have haction : i.action = .carry a := by
          by_contra hne
          rw [Impl.carries, if_neg hne] at hcount
          exact Nat.lt_irrefl _ hcount
        exact ⟨n, i, hi, .carry hi haction⟩
    obtain ⟨d, hd, hr⟩ := hinv.reached hi
    exact ⟨d, hd, hr.owns ho⟩

open Classical in
/-- An action has been carried out, once, unless it is still encapsulated. -/
theorem count_ran (hinv : Inv os h) (a : Nat) :
    h.ran.count a = if a < h.made ∧ ¬ ∃ d ∈ os, Owns h d a then 1 else 0 := by
  have hplaces := hinv.places a
  by_cases ho : ∃ d ∈ os, Owns h d a
  · obtain ⟨d, hd, hown⟩ := ho
    have hpos := hinv.placed hown (pointers_of_mem hd)
    rw [if_neg fun hn => hn.2 ⟨d, hd, hown⟩]
    split at hplaces
    · omega
    · omega
  · have hzero : ¬ 0 < pointers os h (.raw a) + h.total fun i => i.carries a :=
      fun hp => ho (hinv.owned hp)
    simp only [ho, not_false_eq_true, and_true]
    omega

/-- The one pointer to an `impl` is out of the memory: nothing else reaches it. -/
theorem alone (hinv : Inv (.impl n :: os) h) (hi : h.impls n = some i) (h1 : i.refs = 1)
    (hd : d ∈ os) : ¬ Reaches h d n := by
  have hone := (hinv.counts n i hi).eq_one_iff.mp h1
  rw [pointers, List.count_cons_self] at hone
  apply hinv.not_reaches
  · omega
  · rintro rfl
    have hpos := List.count_pos_iff.mpr hd
    omega

/-- What a deleter out of the memory reaches is untouched when such an `impl` is changed. -/
theorem same_of_alone (hinv : Inv (.impl n :: os) h) (hi : h.impls n = some i) (h1 : i.refs = 1)
    (hd : d ∈ os) (o : Option Impl) : ∀ m, Reaches h d m → (h.set n o).impls m = h.impls m := by
  intro m hm
  apply Heap.set_of_ne
  rintro rfl
  exact hinv.alone hi h1 hd hm

end Inv

/-- Nothing reaches a new `impl` yet. -/
theorem Inv.same_of_new (hinv : Inv os h) (next : Deleter) (action : Action)
    (hp : 0 < pointers os h d) :
    ∀ m, Reaches h d m → (h.new next action).impls m = h.impls m := by
  intro m hm
  obtain ⟨i, hi⟩ := hinv.exists_of_reaches hp hm
  exact Heap.new_of_ne (Nat.ne_of_lt (hinv.alive hi))

theorem owns_congr_eq (hs : ∀ m, Reaches h d m → h'.impls m = h.impls m) :
    Owns h' d a ↔ Owns h d a :=
  owns_congr fun m hm => .of_eq (hs m hm)

/-! ## `~deleter()` -/

/-- How many `impl`s there are. -/
def live (h : Heap) : Nat := h.total fun _ => 1

theorem live_le : live h ≤ h.fresh := by
  have hle : ∀ n ∈ Finset.range h.fresh, ((h.impls n).map fun _ => 1).getD 0 ≤ 1 := by
    intro n _
    cases h.impls n with
    | none => exact Nat.zero_le _
    | some i => exact Nat.le_refl _
  have hsum := Finset.sum_le_card_nsmul _ _ _ hle
  simpa [live, Heap.total] using hsum

/-- The destruction of deleters: what the others encapsulate stays. -/
theorem destroyLoop_spec (hinv : Inv (l ++ os) h) (hk : 2 * live h + l.length ≤ k) :
    ∃ h', destroyLoop k l h = .ok h' ∧ Inv os h' ∧ h'.made = h.made ∧
      ∀ d ∈ os, ∀ a, Owns h' d a ↔ Owns h d a := by
  induction k generalizing l h with
  | zero =>
    obtain rfl : l = [] := List.eq_nil_of_length_eq_zero (by omega)
    exact ⟨h, rfl, hinv, rfl, fun d _ a => Iff.rfl⟩
  | succ k ih =>
    cases l with
    | nil => exact ⟨h, rfl, hinv, rfl, fun d _ a => Iff.rfl⟩
    | cons d l =>
      rw [List.length_cons] at hk
      rw [List.cons_append] at hinv
      cases d with
      | null => exact ih (Inv.null_cons.mp hinv) (by omega)
      | raw a =>
        obtain ⟨h', hrun, hinv', hmade, hown⟩ := ih hinv.freeRaw (by show 2 * live h + _ ≤ _; omega)
        refine ⟨h', hrun, hinv', hmade, ?_⟩
        intro d hd b
        rw [hown d hd b]
        exact owns_congr_eq fun m _ => rfl
      | impl n =>
        obtain ⟨i, hi⟩ := hinv.exists_of_mem List.mem_cons_self
        by_cases hlast : i.refs - 1 = 0
        · have h1 : i.refs = 1 := by
            rw [UInt32.sub_eq_iff_eq_add, UInt32.zero_add] at hlast
            exact hlast
          have hlive := Heap.total_set (o := none) (fun _ => 1) (hinv.alive hi)
          rw [hi, Option.map_some, Option.map_none, Option.getD_some, Option.getD_none] at hlive
          have hsame : ∀ d ∈ os, ∀ b, ∀ ran : List Nat,
              Owns { h.set n none with ran } d b ↔ Owns h d b := by
            intro d hd b ran
            exact owns_congr_eq (hinv.same_of_alone hi h1 (List.mem_append_right _ hd) none)
          cases ha : i.action with
          | carry a =>
            have hran : ∀ b, (h.ran ++ [a]).count b = h.ran.count b + i.carries b := by
              intro b
              simp [Impl.carries, ha, List.count_singleton, List.count_append]
            have hdel := hinv.delete hi hlast hran
            simp only [Impl.holds, ha] at hdel
            obtain ⟨h', hrun, hinv', hmade, hown⟩ := ih (l := i.next :: l) hdel (by
              show 2 * (h.set n none).total _ + _ ≤ _
              rw [List.length_cons]
              rw [live] at hk
              omega)
            refine ⟨h', ?_, hinv', hmade, fun d hd b => (hown d hd b).trans (hsame d hd b _)⟩
            simp only [destroyLoop, hi, if_pos hlast, ha]
            exact hrun
          | drop d =>
            have hran : ∀ b, h.ran.count b = h.ran.count b + i.carries b := by
              intro b
              simp [Impl.carries, ha]
            have hdel := hinv.delete hi hlast hran
            simp only [Impl.holds, ha] at hdel
            obtain ⟨h', hrun, hinv', hmade, hown⟩ := ih (l := d :: i.next :: l) hdel (by
              show 2 * (h.set n none).total _ + _ ≤ _
              rw [List.length_cons, List.length_cons]
              rw [live] at hk
              omega)
            refine ⟨h', ?_, hinv', hmade, fun e he b => (hown e he b).trans (hsame e he b _)⟩
            simp only [destroyLoop, hi, if_pos hlast, ha]
            exact hrun
        · have hlive := Heap.total_set (o := some { i with refs := i.refs - 1 }) (fun _ => 1)
            (hinv.alive hi)
          rw [hi, Option.map_some, Option.map_some, Option.getD_some] at hlive
          obtain ⟨h', hrun, hinv', hmade, hown⟩ := ih (hinv.decRef hi hlast) (by
            rw [live] at hk ⊢
            omega)
          refine ⟨h', ?_, hinv', hmade, ?_⟩
          · simp only [destroyLoop, hi, if_neg hlast]
            exact hrun
          · intro d hd b
            rw [hown d hd b]
            exact owns_congr fun m _ => SameAt.setRefs hi

theorem destroy_spec (hinv : Inv (d :: os) h) :
    ∃ h', destroy d h = .ok h' ∧ Inv os h' ∧ h'.made = h.made ∧
      ∀ d ∈ os, ∀ a, Owns h' d a ↔ Owns h d a := by
  apply destroyLoop_spec (l := [d]) hinv
  have hle := live_le (h := h)
  rw [List.length_singleton]
  omega

/-! ## `share` -/

/-- The count of the `impl`, if any, is not that of 2³² pointers. -/
def countFree (d : Deleter) (h : Heap) : Bool :=
  match d with
  | .impl n => (h.impls n).all fun i => i.refs ≠ 0
  | _ => true

theorem share_spec (hinv : Inv (d :: os) h) (hfree : countFree d h = true) :
    ∃ d' h', share d h = .ok (d', h') ∧ Inv (d' :: d' :: os) h' ∧ h'.made = h.made ∧
      (∀ a, Owns h' d' a ↔ Owns h d a) ∧ ∀ e ∈ os, ∀ a, Owns h' e a ↔ Owns h e a := by
  cases d with
  | null =>
    exact ⟨_, _, rfl, Inv.null_cons.mpr hinv, rfl, fun a => Iff.rfl, fun e _ a => Iff.rfl⟩
  | raw a =>
    have hnew := hinv.newRaw
    have hself : (h.new .null (.carry a)).impls h.fresh = some { next := .null, action := .carry a } :=
      Heap.new_self
    have hone : (1 : UInt32) ≠ 0 := by decide
    refine ⟨.impl h.fresh, _, rfl, hnew.incRef hself hone, rfl, ?_, ?_⟩
    · intro b
      rw [owns_impl Heap.set_self]
      simp [Impl.holds, eq_comm]
    · intro e he b
      have hsame := hinv.same_of_new .null (.carry a)
        (Inv.pointers_of_mem (List.mem_cons_of_mem _ he))
      exact (owns_congr fun m _ => SameAt.setRefs hself).trans (owns_congr_eq hsame)
  | impl n =>
    obtain ⟨i, hi⟩ := hinv.exists_of_mem List.mem_cons_self
    refine ⟨.impl n, h.set n (some { i with refs := i.refs + 1 }), ?_, ?_, rfl, ?_, ?_⟩
    · simp only [share, hi]
    · simp only [countFree, hi, Option.all_some, decide_eq_true_eq] at hfree
      exact hinv.incRef hi hfree
    · exact fun a => owns_congr fun m _ => SameAt.setRefs hi
    · exact fun e _ a => owns_congr fun m _ => SameAt.setRefs hi

/-! ## `append` -/

/-- The `impl`s that `append` walks and that are shared have no `next`. -/
def tailsFree : Nat → Deleter → Heap → Bool
  | k + 1, .impl n, h =>
    match h.impls n with
    | none => true
    | some i => if i.refs ≠ 1 then i.next = .null else tailsFree k i.next h
  | _, _, _ => true

theorem tailsFree_congr (hs : ∀ m, Reaches h d m → h'.impls m = h.impls m) :
    tailsFree k d h' = tailsFree k d h := by
  induction k generalizing d with
  | zero => rfl
  | succ k ih =>
    cases d with
    | null => rfl
    | raw a => rfl
    | impl n =>
      have hn := hs n (.here n)
      cases hi : h.impls n with
      | none => simp only [tailsFree, hn, hi]
      | some i =>
        have hmem : i.next ∈ i.holds := Impl.mem_holds.mpr (Or.inl rfl)
        have hrec := ih fun m hm => hs m (.held hi hmem hm)
        simp only [tailsFree, hn, hi, hrec]

/-- How many `impl`s have a `next`. -/
def links (h : Heap) : Nat := h.total fun i => if i.next = .null then 0 else 1

theorem links_le : links h ≤ h.fresh := by
  have hle : ∀ n ∈ Finset.range h.fresh,
      ((h.impls n).map fun i => if i.next = .null then 0 else 1).getD 0 ≤ 1 := by
    intro n _
    cases h.impls n with
    | none => exact Nat.zero_le _
    | some i =>
      rw [Option.map_some, Option.getD_some]
      split
      · exact Nat.zero_le _
      · exact Nat.le_refl _
  have hsum := Finset.sum_le_card_nsmul _ _ _ hle
  simpa [links, Heap.total] using hsum

/-- `d` is appended to `next`: the outcome has what both had, the deleters `os` what they had. -/
structure Appended (next d : Deleter) (os : List Deleter) (h : Heap) (r : Deleter) (h' : Heap) :
    Prop where
  inv : Inv (r :: os) h'
  made : h'.made = h.made
  owns : ∀ a, Owns h' r a ↔ Owns h next a ∨ Owns h d a
  frame : ∀ e ∈ os, ∀ m, Reaches h e m → h'.impls m = h.impls m

/-- The fuel is enough for the rest of the chain, once a `next` is taken off. -/
theorem links_take (hinv : Inv os h) (hi : h.impls n = some i) (hk : links h + 1 ≤ k) :
    (if i.next = .null then 1 else links (h.set n (some { i with next := .null })) + 2) ≤ k := by
  have hset := Heap.total_set (o := some { i with next := .null })
    (fun i => if i.next = .null then 0 else 1) (hinv.alive hi)
  simp only [hi, Option.map_some, Option.getD_some, if_true] at hset
  unfold links at hk ⊢
  split
  · omega
  · rename_i hne
    rw [if_neg hne] at hset
    omega

theorem appendLoop_null (hk : 0 < k) : appendLoop d k .null h = .ok (d, h) := by
  cases k with
  | zero => cases hk
  | succ k => rfl

/-- The end of the chain becomes a new `impl`, with `d` for its `next`. -/
theorem Appended.new {action : Action} (hinv : Inv (next :: d :: os) h)
    (hnew : Inv (.impl h.fresh :: d :: os) (h.new .null action))
    (hown : ∀ a, Owns h next a ↔ action = .carry a ∨ ∃ e, action = .drop e ∧ Owns h e a)
    (hheld : ∀ e, action = .drop e → 0 < pointers (next :: d :: os) h e) :
    Appended next d os h (.impl h.fresh)
      ((h.new .null action).set h.fresh (some { next := d, action })) := by
  have hself : (h.new .null action).impls h.fresh = some { next := .null, action } := Heap.new_self
  have hsame : ∀ e, 0 < pointers (next :: d :: os) h e → ∀ m, Reaches h e m →
      ((h.new .null action).set h.fresh (some { next := d, action })).impls m = h.impls m := by
    intro e he m hm
    obtain ⟨i, hi⟩ := hinv.exists_of_reaches he hm
    have hne := Nat.ne_of_lt (hinv.alive hi)
    rw [Heap.set_of_ne hne, Heap.new_of_ne hne]
  have hd : 0 < pointers (next :: d :: os) h d := Inv.pointers_of_mem (by simp)
  refine ⟨?_, rfl, ?_, ?_⟩
  · exact (hnew.perm (List.Perm.swap ..)).putNext hself rfl (hnew.alone hself rfl List.mem_cons_self)
  · intro a
    rw [owns_impl Heap.set_self, hown]
    cases ha : action with
    | carry b =>
      subst ha
      simp [Impl.holds, owns_congr_eq (hsame d hd)]
    | drop e =>
      subst ha
      simp [Impl.holds, owns_congr_eq (hsame d hd), owns_congr_eq (hsame e (hheld e rfl))]
  · intro e he
    exact hsame e (Inv.pointers_of_mem (List.mem_cons_of_mem _ (List.mem_cons_of_mem _ he)))

/-- No `impl` is reached from what it holds. -/
theorem Inv.not_reaches_held (hinv : Inv os h) (hi : h.impls n = some i) (hd : d ∈ i.holds) :
    ¬ Reaches h d n := by
  obtain ⟨rank, hrank⟩ := hinv.ranked
  have hle : ∀ d m, Reaches h d m → ∀ k, d = .impl k → rank m ≤ rank k := by
    intro d m hr
    induction hr with
    | here n =>
      rintro k ⟨⟩
      exact Nat.le_refl _
    | @held n m j e hj he hr ih =>
      rintro k ⟨⟩
      cases hr with
      | here m => exact Nat.le_of_lt (hrank n j m hj he)
      | @held l _ _ _ _ _ _ => exact (ih l rfl).trans (Nat.le_of_lt (hrank n j l hj he))
  intro hr
  cases d with
  | null => cases hr
  | raw a => cases hr
  | impl k => exact Nat.not_le.mpr (hrank n i k hi hd) (hle _ _ hr k rfl)

theorem Inv.same_of_held (hinv : Inv os h) (hi : h.impls n = some i) (hd : d ∈ i.holds)
    (o : Option Impl) : ∀ m, Reaches h d m → (h.set n o).impls m = h.impls m := by
  intro m hm
  apply Heap.set_of_ne
  rintro rfl
  exact hinv.not_reaches_held hi hd hm

/-- What is appended to the `next` of an `impl` that has one pointer to it is appended to that. -/
theorem Appended.under {r : Deleter} (hinv : Inv (.impl n :: d :: os) h) (hi : h.impls n = some i)
    (h1 : i.refs = 1)
    (happ : Appended i.next d (.impl n :: os) (h.set n (some { i with next := .null })) r h') :
    Appended (.impl n) d os h (.impl n) (h'.set n (some { i with next := r })) := by
  have hn : h'.impls n = some { i with next := .null } := by
    rw [happ.frame (.impl n) List.mem_cons_self n (.here n)]
    exact Heap.set_self
  have hinv' : Inv (.impl n :: r :: os) h' := happ.inv.perm (List.Perm.swap ..)
  have hr : ∀ a, Owns (h'.set n (some { i with next := r })) r a ↔ Owns h i.next a ∨ Owns h d a := by
    intro a
    rw [owns_congr_eq (hinv'.same_of_alone hn h1 List.mem_cons_self _), happ.owns,
      owns_congr_eq (hinv.same_of_held hi (Impl.mem_holds.mpr (Or.inl rfl)) _),
      owns_congr_eq (hinv.same_of_alone hi h1 List.mem_cons_self _)]
  refine ⟨?_, happ.made, ?_, ?_⟩
  · have hput := happ.inv.putNext hn rfl (hinv'.alone hn h1 List.mem_cons_self)
    exact hput
  · intro a
    have he : ∀ e, i.action = .drop e →
        (Owns (h'.set n (some { i with next := r })) e a ↔ Owns h e a) := by
      intro e hdrop
      have hmem : e ∈ Impl.holds { i with next := .null } := Impl.mem_holds.mpr (Or.inr hdrop)
      have hself : (h.set n (some { i with next := .null })).impls n =
          some { i with next := .null } := Heap.set_self
      rw [owns_congr_eq (happ.inv.same_of_held hn hmem _), owns_congr_eq (fun m hm =>
        happ.frame (.impl n) List.mem_cons_self m (.held hself hmem hm)),
        owns_congr_eq (hinv.same_of_held hi (Impl.mem_holds.mpr (Or.inr hdrop)) _)]
    have hex := exists_congr fun e => and_congr_right (he e)
    rw [owns_impl Heap.set_self, owns_impl hi]
    simp only [Impl.mem_holds, or_and_right, exists_or, exists_eq_left, hr, hex]
    rw [or_right_comm, ← or_assoc, ← or_assoc]
  · intro e he m hm
    have hsame := hinv.same_of_alone hi h1 (List.mem_cons_of_mem _ he)
    have hne : m ≠ n := by
      rintro rfl
      exact hinv.alone hi h1 (List.mem_cons_of_mem _ he) hm
    have hm' := hm.mono fun k hk => .of_eq (hsame (some { i with next := .null }) k hk)
    rw [Heap.set_of_ne hne, happ.frame e (List.mem_cons_of_mem _ he) m hm', hsame _ m hm]

theorem appendLoop_spec (hd : d ≠ .null) (hinv : Inv (next :: d :: os) h)
    (htails : tailsFree k next h = true) (hk : (if next = .null then 1 else links h + 2) ≤ k)
    (hdisj : ∀ a, Owns h d a → ¬ Owns h next a) :
    ∃ r h', appendLoop d k next h = .ok (r, h') ∧ Appended next d os h r h' := by
  have hmem : d ∈ next :: d :: os := by simp
  induction k generalizing next h os with
  | zero =>
    split at hk
    · cases hk
    · cases hk
  | succ k ih =>
    cases next with
    | null =>
      refine ⟨d, h, rfl, Inv.null_cons.mp hinv, rfl, ?_, fun _ _ _ _ => rfl⟩
      simp
    | raw a =>
      have hne : .raw a ≠ d := by
        rintro rfl
        exact hdisj a (.raw a) (.raw a)
      rw [if_neg (by simp)] at hk
      refine ⟨_, _, ?_, Appended.new hinv hinv.newRaw ?_ ?_⟩
      · simp only [appendLoop, if_neg hne, appendLoop_null (show 0 < k by omega)]
        rfl
      · simp [eq_comm]
      · simp
    | impl n =>
      have hne : .impl n ≠ d := by
        rintro rfl
        obtain ⟨a, ho⟩ := hinv.exists_owns List.mem_cons_self (by simp)
        exact hdisj a ho ho
      rw [if_neg (by simp)] at hk
      obtain ⟨i, hi⟩ := hinv.exists_of_mem List.mem_cons_self
      by_cases hrefs : i.refs ≠ 1
      · simp only [tailsFree, hi, if_pos hrefs, decide_eq_true_eq] at htails
        have hsame : h.set n (some { i with next := .null }) = h := by
          rw [← htails]
          exact Heap.set_eq_self hi
        refine ⟨_, _, ?_, Appended.new hinv (hinv.newDrop (by simp)) ?_ ?_⟩
        · simp only [appendLoop, if_neg hne, hi, if_pos hrefs, hsame, htails,
            appendLoop_null (show 0 < k by omega)]
          rfl
        · simp
        · rintro e ⟨⟩
          exact Inv.pointers_of_mem List.mem_cons_self
      · have hone := not_not.mp hrefs
        simp only [tailsFree, hi, if_neg hrefs] at htails
        have htake := (hinv.takeNext hi).perm ((List.Perm.swap d (.impl n) os).cons i.next)
        have hnext := hinv.same_of_held hi (Impl.mem_holds.mpr (Or.inl rfl)) (some { i with next := .null })
        have happended := hinv.same_of_alone hi hone List.mem_cons_self
          (some { i with next := .null })
        obtain ⟨r, h', hrun, happ⟩ := ih htake (by rw [tailsFree_congr hnext]; exact htails)
          (links_take hinv hi (by omega))
          (by
            intro a ho ho'
            rw [owns_congr_eq happended] at ho
            rw [owns_congr_eq hnext] at ho'
            exact hdisj a ho (.held hi (Impl.mem_holds.mpr (Or.inl rfl)) ho')) (by simp)
        refine ⟨_, _, ?_, happ.under hinv hi hone⟩
        simp only [appendLoop, if_neg hne, hi, if_neg hrefs, hrun]
        rfl

/-- `append`, of a deleter that encapsulates nothing that the other one does. -/
theorem append_spec (hinv : Inv (d :: e :: os) h)
    (htails : e = .null ∨ tailsFree (h.fresh + 2) d h = true)
    (hdisj : ∀ a, Owns h e a → ¬ Owns h d a) :
    ∃ r h', append d e h = .ok (r, h') ∧ Appended d e os h r h' := by
  by_cases he : e = .null
  · subst he
    have hinv' := Inv.null_cons.mp (hinv.perm (List.Perm.swap ..))
    exact ⟨d, h, rfl, hinv', rfl, by simp, fun _ _ _ _ => rfl⟩
  · have hfuel : (if d = .null then 1 else links h + 2) ≤ h.fresh + 2 := by
      have hle := links_le (h := h)
      split
      · omega
      · omega
    obtain ⟨r, h', hrun, happ⟩ :=
      appendLoop_spec he hinv (htails.resolve_left he) hfuel hdisj
    refine ⟨r, h', ?_, happ⟩
    cases e with
    | null => exact absurd rfl he
    | raw a => exact hrun
    | impl n => exact hrun

end Deleter

end Seastar
