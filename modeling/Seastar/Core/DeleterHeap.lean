import Mathlib.Algebra.Order.BigOperators.Group.Finset
import Seastar.Core.Deleter

/-!
The memory of the deleters in order: the count of an `impl` is the number of the deleters that point
to it, and no `impl` holds itself. Each thing that `deleter` does to the memory keeps it so.
-/

namespace Seastar

open Lib

namespace Deleter

/-! ## What the impls hold -/

/-- The deleters in an `impl`. -/
def Impl.holds (i : Impl) : List Deleter :=
  match i.action with
  | .carry _ => [i.next]
  | .drop d => [d, i.next]

theorem Impl.mem_holds {i : Impl} {d : Deleter} : d ∈ i.holds ↔ d = i.next ∨ i.action = .drop d := by
  cases ha : i.action with
  | carry a => simp [Impl.holds, ha]
  | drop e => simp [Impl.holds, ha, eq_comm, or_comm]

/-- How often an `impl` carries an action itself. -/
def Impl.carries (i : Impl) (a : Nat) : Nat := if i.action = .carry a then 1 else 0

namespace Heap

/-- What is counted over the live `impl`s. -/
def total (f : Impl → Nat) (h : Heap) : Nat := ∑ n ∈ Finset.range h.fresh, ((h.impls n).map f).getD 0

/-- How many `impl`s hold a deleter. -/
def weight (d : Deleter) (h : Heap) : Nat := h.total fun i => i.holds.count d

variable {h : Heap} {n m : Nat} {i : Impl} {o : Option Impl} {next d : Deleter} {action : Action}

@[simp] theorem set_fresh : (h.set n o).fresh = h.fresh := rfl

@[simp] theorem set_self : (h.set n o).impls n = o := Function.update_self ..

theorem set_of_ne (hne : m ≠ n) : (h.set n o).impls m = h.impls m := Function.update_of_ne hne ..

theorem set_eq_self (hi : h.impls n = some i) : h.set n (some i) = h := by
  rw [set, ← hi, Function.update_eq_self]

@[simp] theorem new_fresh : (h.new next action).fresh = h.fresh + 1 := rfl

@[simp] theorem new_self : (h.new next action).impls h.fresh = some { next, action } :=
  Function.update_self ..

theorem new_of_ne (hne : m ≠ h.fresh) : (h.new next action).impls m = h.impls m :=
  Function.update_of_ne hne ..

theorem total_set (f : Impl → Nat) (hi : n < h.fresh) :
    (h.set n o).total f + ((h.impls n).map f).getD 0 = h.total f + (o.map f).getD 0 := by
  have hn := Finset.mem_range.mpr hi
  rw [total, total, set_fresh, ← Finset.add_sum_erase _ _ hn, ← Finset.add_sum_erase _ _ hn, set_self]
  have hrest : ∑ x ∈ (Finset.range h.fresh).erase n, (((h.set n o).impls x).map f).getD 0 =
      ∑ x ∈ (Finset.range h.fresh).erase n, ((h.impls x).map f).getD 0 := by
    refine Finset.sum_congr rfl fun x hx => ?_
    rw [set_of_ne (Finset.ne_of_mem_erase hx)]
  rw [hrest]
  omega

theorem total_new (f : Impl → Nat) (h : Heap) (next : Deleter) (action : Action) :
    (h.new next action).total f = h.total f + f { next, action } := by
  rw [total, total, new_fresh, Finset.sum_range_succ, new_self]
  congr 1
  refine Finset.sum_congr rfl fun x hx => ?_
  rw [new_of_ne (Nat.ne_of_lt (Finset.mem_range.mp hx))]

theorem le_total (f : Impl → Nat) (hn : n < h.fresh) (hi : h.impls n = some i) : f i ≤ h.total f := by
  have hle := Finset.single_le_sum (f := fun x => ((h.impls x).map f).getD 0)
    (fun _ _ => Nat.zero_le _) (Finset.mem_range.mpr hn)
  rw [total]
  simpa [hi] using hle

theorem total_pos {f : Impl → Nat} (h0 : 0 < h.total f) : ∃ n i, h.impls n = some i ∧ 0 < f i := by
  obtain ⟨n, -, hn⟩ := Finset.exists_ne_zero_of_sum_ne_zero (Nat.pos_iff_ne_zero.mp h0)
  cases hi : h.impls n with
  | none =>
    rw [hi] at hn
    exact absurd rfl hn
  | some i =>
    rw [hi] at hn
    exact ⟨n, i, hi, Nat.pos_of_ne_zero hn⟩

end Heap

/-! ## What a deleter reaches -/

/-- The actions that a deleter has, itself and through what it points to. -/
inductive Owns (h : Heap) : Deleter → Nat → Prop
  | raw (a : Nat) : Owns h (.raw a) a
  | carry {n a : Nat} {i : Impl} : h.impls n = some i → i.action = .carry a → Owns h (.impl n) a
  | held {n a : Nat} {i : Impl} {d : Deleter} :
    h.impls n = some i → d ∈ i.holds → Owns h d a → Owns h (.impl n) a

/-- The `impl`s that a deleter reaches. -/
inductive Reaches (h : Heap) : Deleter → Nat → Prop
  | here (n : Nat) : Reaches h (.impl n) n
  | held {n m : Nat} {i : Impl} {d : Deleter} :
    h.impls n = some i → d ∈ i.holds → Reaches h d m → Reaches h (.impl n) m

/-- An `impl` is the same in both heaps, up to its count. -/
def SameAt (h h' : Heap) (n : Nat) : Prop :=
  (h'.impls n).map (fun i => (i.next, i.action)) = (h.impls n).map fun i => (i.next, i.action)

variable {h h' : Heap} {n m a : Nat} {i : Impl} {d d' : Deleter} {os os' : List Deleter}

theorem Impl.holds_congr {i j : Impl} (hnext : j.next = i.next) (haction : j.action = i.action) :
    j.holds = i.holds := by
  rw [Impl.holds, Impl.holds, hnext, haction]

theorem SameAt.symm (hs : SameAt h h' n) : SameAt h' h n := Eq.symm hs

theorem SameAt.of_eq (heq : h'.impls n = h.impls n) : SameAt h h' n := by
  rw [SameAt, heq]

theorem SameAt.setRefs (hi : h.impls n = some i) {refs : UInt32} :
    SameAt h (h.set n (some { i with refs })) m := by
  by_cases hne : m = n
  · subst hne
    rw [SameAt, Heap.set_self, hi]
    rfl
  · exact .of_eq (Heap.set_of_ne hne)

theorem SameAt.some (hs : SameAt h h' n) (hi : h.impls n = some i) :
    ∃ j, h'.impls n = some j ∧ j.action = i.action ∧ j.holds = i.holds := by
  rw [SameAt, hi, Option.map_some, Option.map_eq_some_iff] at hs
  obtain ⟨j, hj, heq⟩ := hs
  obtain ⟨hnext, haction⟩ := Prod.mk.inj heq
  exact ⟨j, hj, haction, Impl.holds_congr hnext haction⟩

theorem Owns.mono (ho : Owns h d a) (hs : ∀ m, Reaches h d m → SameAt h h' m) : Owns h' d a := by
  induction ho with
  | raw a => exact .raw a
  | @carry n a i hi haction =>
    obtain ⟨j, hj, hja, -⟩ := (hs n (.here n)).some hi
    exact .carry hj (hja.trans haction)
  | @held n a i d hi hd _ ih =>
    obtain ⟨j, hj, -, hholds⟩ := (hs n (.here n)).some hi
    exact .held hj (hholds ▸ hd) (ih fun m hm => hs m (.held hi hd hm))

/-- What a deleter reaches decides what it owns. -/
theorem owns_congr (hs : ∀ m, Reaches h d m → SameAt h h' m) : Owns h' d a ↔ Owns h d a := by
  constructor
  · intro ho
    induction ho with
    | raw a => exact .raw a
    | @carry n a j hj haction =>
      obtain ⟨i, hi, hia, -⟩ := (hs n (.here n)).symm.some hj
      exact .carry hi (hia.trans haction)
    | @held n a j d hj hd _ ih =>
      obtain ⟨i, hi, -, hholds⟩ := (hs n (.here n)).symm.some hj
      have hd' : d ∈ i.holds := hholds ▸ hd
      exact .held hi hd' (ih fun m hm => hs m (.held hi hd' hm))
  · exact fun ho => ho.mono hs

theorem Reaches.owns (hr : Reaches h d n) (ho : Owns h (.impl n) a) : Owns h d a := by
  induction hr with
  | here n => exact ho
  | held hi hd _ ih => exact .held hi hd (ih ho)

theorem Reaches.trans (hr : Reaches h d n) (hm : Reaches h (.impl n) m) : Reaches h d m := by
  induction hr with
  | here n => exact hm
  | held hi hd _ ih => exact .held hi hd (ih hm)

/-! ## The heap in order -/

/-- How many deleters equal this one: of those in `os` and of those in `impl`s. -/
def pointers (os : List Deleter) (h : Heap) (d : Deleter) : Nat := os.count d + h.weight d

/-- The count of an `impl`, of 32 bits, for the pointers there are. -/
structure Counts (i : Impl) (c : Nat) : Prop where
  pos : 0 < c
  le : c ≤ 2 ^ 32
  refs : i.refs = UInt32.ofNat c

/-- Nothing holds itself, not even through others. -/
def Ranked (h : Heap) : Prop :=
  ∃ rank : Nat → Nat, ∀ n i m, h.impls n = some i → .impl m ∈ i.holds → rank m < rank n

/-- The memory with the deleters `os` out of it. Every action is in one place, or was carried out. -/
structure Inv (os : List Deleter) (h : Heap) : Prop where
  bound : ∀ n, h.fresh ≤ n → h.impls n = none
  freed : ∀ n, h.impls n = none → pointers os h (.impl n) = 0
  counts : ∀ n i, h.impls n = some i → Counts i (pointers os h (.impl n))
  places : ∀ a, pointers os h (.raw a) + h.total (fun i => i.carries a) + h.ran.count a =
    if a < h.made then 1 else 0
  ranked : Ranked h
  drops : ∀ n i, h.impls n = some i → i.action ≠ .drop .null

namespace Counts

variable {c : Nat}

theorem eq_one_iff (hc : Counts i c) : i.refs = 1 ↔ c = 1 := by
  rw [hc.refs, ← UInt32.toNat_inj, UInt32.toNat_ofNat']
  have hle := hc.le
  have hpos := hc.pos
  constructor
  · intro h
    by_cases hlt : c < 2 ^ 32
    · rw [Nat.mod_eq_of_lt hlt] at h
      exact h
    · obtain rfl : c = 2 ^ 32 := by omega
      simp at h
  · rintro rfl
    rfl

theorem last_iff (hc : Counts i c) : i.refs - 1 = 0 ↔ c = 1 := by
  rw [UInt32.sub_eq_iff_eq_add, UInt32.zero_add]
  exact hc.eq_one_iff

theorem lt_of_ne_zero (hc : Counts i c) (h0 : i.refs ≠ 0) : c < 2 ^ 32 := by
  refine lt_of_le_of_ne hc.le ?_
  rintro rfl
  exact h0 hc.refs

/-- `++_impl->refs`. -/
theorem succ (hc : Counts i c) (hlt : c < 2 ^ 32) : Counts { i with refs := i.refs + 1 } (c + 1) := by
  refine ⟨Nat.succ_pos c, hlt, ?_⟩
  show i.refs + 1 = _
  rw [hc.refs, UInt32.ofNat_add]
  rfl

/-- `--_impl->refs`. -/
theorem pred (hc : Counts i (c + 1)) (h0 : 0 < c) : Counts { i with refs := i.refs - 1 } c := by
  refine ⟨h0, by have := hc.le; omega, ?_⟩
  show i.refs - 1 = _
  rw [hc.refs, UInt32.ofNat_add, UInt32.sub_eq_iff_eq_add]
  rfl

end Counts

namespace Inv

theorem alive (hinv : Inv os h) (hi : h.impls n = some i) : n < h.fresh := by
  by_contra hle
  rw [hinv.bound n (Nat.le_of_not_lt hle)] at hi
  cases hi

/-- The `impl`s stay as they are: their pointers only have to be as many as before. -/
theorem recount (hinv : Inv os h) {made : Nat} {ran : List Nat}
    (himpl : ∀ n, os'.count (.impl n) = os.count (.impl n))
    (hraw : ∀ a, os'.count (.raw a) + ran.count a + (if a < h.made then 1 else 0) =
      os.count (.raw a) + h.ran.count a + if a < made then 1 else 0) :
    Inv os' { h with made, ran } := by
  have hp : ∀ n, pointers os' { h with made, ran } (.impl n) = pointers os h (.impl n) := by
    intro n
    rw [pointers, pointers, himpl]
    rfl
  refine ⟨hinv.bound, ?_, ?_, ?_, hinv.ranked, hinv.drops⟩
  · intro n hn
    rw [hp]
    exact hinv.freed n hn
  · intro n i hi
    rw [hp]
    exact hinv.counts n i hi
  · intro a
    have hplaces := hinv.places a
    have hrec := hraw a
    rw [pointers] at hplaces ⊢
    show os'.count (.raw a) + h.weight (.raw a) + h.total _ + ran.count a = if a < made then 1 else 0
    omega

/-- Only the numbers of the deleters matter, and those of null deleters do not. -/
theorem congr (hinv : Inv os h) (hos : ∀ d, d ≠ .null → os'.count d = os.count d) : Inv os' h := by
  apply hinv.recount
  · intro n
    exact hos _ (by simp)
  · intro a
    rw [hos _ (by simp)]

theorem perm (hinv : Inv os h) (hos : os.Perm os') : Inv os' h :=
  hinv.congr fun d _ => (hos.count_eq d).symm

theorem null_cons : Inv (.null :: os) h ↔ Inv os h := by
  have hos : ∀ d, d ≠ .null → (.null :: os).count d = os.count d := by
    intro d hd
    exact List.count_cons_of_ne hd.symm
  exact ⟨fun hinv => hinv.congr fun d hd => (hos d hd).symm, fun hinv => hinv.congr hos⟩

/-- `make_free_deleter`. -/
theorem makeRaw (hinv : Inv os h) : Inv (.raw h.made :: os) { h with made := h.made + 1 } := by
  apply hinv.recount
  · intro n
    exact List.count_cons_of_ne (by simp)
  · intro a
    rw [List.count_cons]
    by_cases ha : a = h.made
    · simp [ha]
      omega
    · have hne : ¬ (Deleter.raw h.made = .raw a) := by simpa using Ne.symm ha
      have hlt : a < h.made + 1 ↔ a < h.made := by omega
      simp [hne, hlt]

/-- The deleter of a raw object frees it. -/
theorem freeRaw (hinv : Inv (.raw a :: os) h) : Inv os { h with ran := h.ran ++ [a] } := by
  apply hinv.recount
  · intro n
    exact (List.count_cons_of_ne (by simp)).symm
  · intro b
    rw [List.count_cons, List.count_append, List.count_singleton]
    by_cases hb : a = b
    · simp [hb]
      omega
    · simp [hb]

/-! An `impl` is changed. -/

theorem pointers_set (os' : List Deleter) (hinv : Inv os h) (hi : h.impls n = some i)
    (o : Option Impl) (d : Deleter) :
    pointers os' (h.set n o) d + i.holds.count d + os.count d =
      pointers os h d + (o.map fun j => j.holds.count d).getD 0 + os'.count d := by
  have hset := Heap.total_set (o := o) (fun j => j.holds.count d) (hinv.alive hi)
  rw [hi, Option.map_some, Option.getD_some] at hset
  rw [pointers, pointers, Heap.weight, Heap.weight]
  omega

theorem set (ran : List Nat) (hinv : Inv os h) (hi : h.impls n = some i) {o : Option Impl}
    (hother : ∀ m, m ≠ n → pointers os' (h.set n o) (.impl m) = pointers os h (.impl m))
    (hfreed : o = none → pointers os' (h.set n o) (.impl n) = 0)
    (hcounts : ∀ j, o = some j → Counts j (pointers os' (h.set n o) (.impl n)))
    (hplaces : ∀ a, pointers os' (h.set n o) (.raw a) + (o.map fun j => j.carries a).getD 0 +
      ran.count a = pointers os h (.raw a) + i.carries a + h.ran.count a)
    (hranked : Ranked (h.set n o)) (hdrops : ∀ j, o = some j → j.action ≠ .drop .null) :
    Inv os' { h.set n o with ran } := by
  have hn := hinv.alive hi
  refine ⟨?_, ?_, ?_, ?_, hranked, ?_⟩
  · intro m hm
    have hne : m ≠ n := by
      rintro rfl
      exact absurd hn (Nat.not_lt.mpr hm)
    exact (Heap.set_of_ne hne).trans (hinv.bound m hm)
  · intro m hm
    by_cases hne : m = n
    · subst hne
      exact hfreed (Heap.set_self.symm.trans hm)
    · exact (hother m hne).trans (hinv.freed m ((Heap.set_of_ne hne).symm.trans hm))
  · intro m j hj
    by_cases hne : m = n
    · subst hne
      exact hcounts j (Heap.set_self.symm.trans hj)
    · have hc := hinv.counts m j ((Heap.set_of_ne hne).symm.trans hj)
      rw [← hother m hne] at hc
      exact hc
  · intro a
    have hold := hinv.places a
    have hnew := hplaces a
    have hset := Heap.total_set (o := o) (fun j => j.carries a) hn
    rw [hi, Option.map_some, Option.getD_some] at hset
    show pointers os' (h.set n o) (.raw a) + (h.set n o).total _ + ran.count a =
      if a < h.made then 1 else 0
    omega
  · intro m j hj
    by_cases hne : m = n
    · subst hne
      exact hdrops j (Heap.set_self.symm.trans hj)
    · exact hinv.drops m j ((Heap.set_of_ne hne).symm.trans hj)

/-- Only the count of the `impl` changes, with the deleters out of the memory that point to it. -/
theorem setRefs (hinv : Inv os h) (hi : h.impls n = some i) {refs : UInt32}
    (hos : ∀ d, d ≠ .impl n → os'.count d = os.count d)
    (hc : Counts { i with refs } (h.weight (.impl n) + os'.count (.impl n))) :
    Inv os' (h.set n (some { i with refs })) := by
  have hp : ∀ d, pointers os' (h.set n (some { i with refs })) d = h.weight d + os'.count d := by
    intro d
    have hset := hinv.pointers_set os' hi (some { i with refs }) d
    rw [Option.map_some, Option.getD_some] at hset
    unfold pointers at hset ⊢
    have hholds : ({ i with refs } : Impl).holds = i.holds := Impl.holds_congr rfl rfl
    rw [hholds] at hset
    omega
  refine hinv.set h.ran hi ?_ ?_ ?_ ?_ ?_ ?_
  · intro m hm
    rw [hp, hos _ (by simpa using hm), pointers, Nat.add_comm]
  · exact fun h => by cases h
  · rintro j ⟨⟩
    rw [hp]
    exact hc
  · intro a
    rw [hp, hos _ (by simp), pointers, Nat.add_comm (h.weight _)]
    rfl
  · obtain ⟨rank, hrank⟩ := hinv.ranked
    refine ⟨rank, ?_⟩
    intro m j k hj hk
    by_cases hne : m = n
    · subst hne
      obtain rfl := Option.some.inj (Heap.set_self.symm.trans hj)
      exact hrank m i k hi hk
    · exact hrank m j k ((Heap.set_of_ne hne).symm.trans hj) hk
  · rintro j ⟨⟩
    exact hinv.drops n i hi

/-- A deleter that points to the `impl` is copied. -/
theorem incRef (hinv : Inv os h) (hi : h.impls n = some i) (h0 : i.refs ≠ 0) :
    Inv (.impl n :: os) (h.set n (some { i with refs := i.refs + 1 })) := by
  apply hinv.setRefs hi
  · intro d hd
    exact List.count_cons_of_ne hd.symm
  · have hc := hinv.counts n i hi
    have hsucc := hc.succ (hc.lt_of_ne_zero h0)
    rw [List.count_cons_self, ← Nat.add_assoc, Nat.add_comm (h.weight _)]
    exact hsucc

/-- A deleter that points to the `impl` is destroyed, and is not the last. -/
theorem decRef (hinv : Inv (.impl n :: os) h) (hi : h.impls n = some i) (h0 : i.refs - 1 ≠ 0) :
    Inv os (h.set n (some { i with refs := i.refs - 1 })) := by
  apply hinv.setRefs hi
  · intro d hd
    exact (List.count_cons_of_ne hd.symm).symm
  · have hc := hinv.counts n i hi
    have hlast := (not_congr hc.last_iff).mp h0
    rw [pointers, List.count_cons_self] at hc hlast
    rw [Nat.add_comm (h.weight _)]
    rw [Nat.add_right_comm] at hc
    exact hc.pred (by omega)

/-- The last deleter that points to the `impl` is destroyed: what it holds is still to be. -/
theorem delete (hinv : Inv (.impl n :: os) h) (hi : h.impls n = some i) (h0 : i.refs - 1 = 0)
    {ran : List Nat} (hran : ∀ a, ran.count a = h.ran.count a + i.carries a) :
    Inv (i.holds ++ os) { h.set n none with ran } := by
  have hp : ∀ d, pointers (i.holds ++ os) (h.set n none) d + List.count d [.impl n] =
      pointers (.impl n :: os) h d := by
    intro d
    have hset := hinv.pointers_set (i.holds ++ os) hi none d
    have hcons : (.impl n :: os).count d = List.count d [.impl n] + os.count d := by
      rw [← List.count_append, List.singleton_append]
    rw [List.count_append, Option.map_none, Option.getD_none] at hset
    omega
  refine hinv.set ran hi ?_ ?_ ?_ ?_ ?_ ?_
  · intro m hm
    have hpm := hp (.impl m)
    rw [List.count_singleton, if_neg (by simpa using Ne.symm hm)] at hpm
    exact hpm
  · intro _
    have hlast := (hinv.counts n i hi).last_iff.mp h0
    have hpn := hp (.impl n)
    rw [hlast, List.count_singleton_self] at hpn
    omega
  · exact fun j hj => by cases hj
  · intro a
    have hpa := hp (.raw a)
    rw [List.count_singleton, if_neg (by simp)] at hpa
    rw [hran, Option.map_none, Option.getD_none]
    omega
  · obtain ⟨rank, hrank⟩ := hinv.ranked
    refine ⟨rank, ?_⟩
    intro m j k hj hk
    by_cases hne : m = n
    · subst hne
      cases Heap.set_self.symm.trans hj
    · exact hrank m j k ((Heap.set_of_ne hne).symm.trans hj) hk
  · exact fun j hj => by cases hj

/-- An `impl` that no other one holds is reached by its own pointers only. -/
theorem not_reaches (hinv : Inv os h) (hw : h.weight (.impl n) = 0) (hne : d ≠ .impl n) :
    ¬ Reaches h d n := by
  intro hr
  generalize hk : n = k at hr
  induction hr with
  | here n => exact hne (by rw [hk])
  | @held m k i d hi hd _ ih =>
    subst hk
    refine ih ?_ rfl
    rintro rfl
    have hle := Heap.le_total (fun i => i.holds.count (.impl n)) (hinv.alive hi) hi
    have hpos := List.count_pos_iff.mpr hd
    rw [Heap.weight] at hw
    omega

end Inv

/-- The `next` of an `impl` becomes a deleter that does not reach it: the `impl`s that do reach it
move up. -/
theorem Ranked.setNext (hr : Ranked h) (hi : h.impls n = some i) {next : Deleter}
    (hnot : ¬ Reaches h next n) : Ranked (h.set n (some { i with next })) := by
  classical
  obtain ⟨rank, hrank⟩ := hr
  obtain ⟨r, hr⟩ : ∃ r, ∀ k, next = .impl k → rank k ≤ r := by
    cases next with
    | null => exact ⟨0, fun k hk => by cases hk⟩
    | raw a => exact ⟨0, fun k hk => by cases hk⟩
    | impl m => exact ⟨rank m, fun k hk => by cases hk; exact le_refl _⟩
  refine ⟨fun m => if Reaches h (.impl m) n then rank m + r + 1 else rank m, ?_⟩
  intro m j k hj hk
  dsimp only
  by_cases hne : m = n
  · subst hne
    obtain rfl := Option.some.inj (Heap.set_self.symm.trans hj)
    rw [if_pos (Reaches.here m)]
    by_cases hnext : next = .impl k
    · rw [if_neg (hnext ▸ hnot)]
      have hle := hr k hnext
      omega
    · have hold : .impl k ∈ i.holds := by
        cases ha : i.action with
        | carry a =>
          simp only [Impl.holds, ha, List.mem_singleton] at hk
          exact absurd hk.symm hnext
        | drop d =>
          simp only [Impl.holds, ha, List.mem_cons, List.not_mem_nil, or_false] at hk ⊢
          exact Or.inl (hk.resolve_right (Ne.symm hnext))
      have hlt := hrank m i k hi hold
      split
      · omega
      · omega
  · have hj := (Heap.set_of_ne hne).symm.trans hj
    have hlt := hrank m j k hj hk
    by_cases hreach : Reaches h (.impl k) n
    · rw [if_pos hreach, if_pos (.held hj hk hreach)]
      omega
    · rw [if_neg hreach]
      split
      · omega
      · exact hlt

/-- A new `impl` comes above what it holds. -/
theorem Ranked.new (hr : Ranked h) {next : Deleter} {action : Action}
    (hheld : ∀ n i, h.impls n = some i → .impl h.fresh ∉ i.holds)
    (hholds : ∀ k, .impl k ∈ Impl.holds { next, action } → k < h.fresh) :
    Ranked (h.new next action) := by
  obtain ⟨rank, hrank⟩ := hr
  refine ⟨fun m => if m = h.fresh then (∑ k ∈ Finset.range h.fresh, rank k) + 1 else rank m, ?_⟩
  intro m j k hj hk
  dsimp only
  by_cases hne : m = h.fresh
  · subst hne
    obtain rfl := Option.some.inj (Heap.new_self.symm.trans hj)
    have hlt := hholds k hk
    have hle := Finset.single_le_sum (f := rank) (fun _ _ => Nat.zero_le _) (Finset.mem_range.mpr hlt)
    rw [if_pos rfl, if_neg (Nat.ne_of_lt hlt)]
    omega
  · have hj := (Heap.new_of_ne hne).symm.trans hj
    have hkne : k ≠ h.fresh := by
      rintro rfl
      exact hheld m j hj hk
    rw [if_neg hne, if_neg hkne]
    exact hrank m j k hj hk

theorem Impl.holds_setNext (i : Impl) (next d : Deleter) :
    ({ i with next } : Impl).holds.count d + List.count d [i.next] =
      i.holds.count d + List.count d [next] := by
  cases ha : i.action with
  | carry a =>
    simp only [Impl.holds, ha]
    omega
  | drop e =>
    simp only [Impl.holds, ha, List.count_cons]
    omega

namespace Inv

/-- `next` of an `impl` is exchanged for a deleter out of the memory. -/
theorem setNext {next : Deleter} (hinv : Inv (next :: os) h) (hi : h.impls n = some i)
    (hnot : ¬ Reaches h next n) : Inv (i.next :: os) (h.set n (some { i with next })) := by
  have hp : ∀ d, pointers (i.next :: os) (h.set n (some { i with next })) d =
      pointers (next :: os) h d := by
    intro d
    have hset := hinv.pointers_set (i.next :: os) hi (some { i with next }) d
    have hholds := i.holds_setNext next d
    rw [Option.map_some, Option.getD_some, List.count_cons, List.count_cons] at hset
    rw [List.count_singleton, List.count_singleton] at hholds
    omega
  refine hinv.set h.ran hi ?_ ?_ ?_ ?_ ?_ ?_
  · exact fun m _ => hp _
  · exact fun h => by cases h
  · rintro j ⟨⟩
    rw [hp]
    have hc := hinv.counts n i hi
    exact ⟨hc.pos, hc.le, hc.refs⟩
  · intro a
    rw [hp]
    rfl
  · exact hinv.ranked.setNext hi hnot
  · rintro j ⟨⟩
    exact hinv.drops n i hi

/-- `next` is moved from an `impl`. -/
theorem takeNext (hinv : Inv os h) (hi : h.impls n = some i) :
    Inv (i.next :: os) (h.set n (some { i with next := .null })) := by
  refine (null_cons.mpr hinv).setNext hi ?_
  intro hr
  cases hr

/-- ... and to it. -/
theorem putNext {next : Deleter} (hinv : Inv (next :: os) h) (hi : h.impls n = some i)
    (hnext : i.next = .null) (hnot : ¬ Reaches h next n) :
    Inv os (h.set n (some { i with next })) := by
  have hset := hinv.setNext hi hnot
  rw [hnext] at hset
  exact null_cons.mp hset

/-! An `impl` is made. -/

theorem fresh_pointers (hinv : Inv os h) : pointers os h (.impl h.fresh) = 0 :=
  hinv.freed _ (hinv.bound _ (Nat.le_refl _))

theorem new {next : Deleter} {action : Action} (made : Nat) (hinv : Inv os' h)
    (himpl : ∀ m, os.count (.impl m) + (Impl.holds { next, action }).count (.impl m) =
      os'.count (.impl m))
    (hraw : ∀ a, os.count (.raw a) + (Impl.holds { next, action }).count (.raw a) +
        (Impl.carries { next, action } a) + (if a < h.made then 1 else 0) =
      os'.count (.raw a) + if a < made then 1 else 0)
    (hdrop : action ≠ .drop .null) :
    Inv (.impl h.fresh :: os) { h.new next action with made } := by
  have hp : ∀ d, pointers (.impl h.fresh :: os) { h.new next action with made } d =
      List.count d [.impl h.fresh] + os.count d + h.weight d +
        (Impl.holds { next, action }).count d := by
    intro d
    have hnew := Heap.total_new (·.holds.count d) h next action
    have hcons : (.impl h.fresh :: os).count d = List.count d [.impl h.fresh] + os.count d := by
      rw [← List.count_append, List.singleton_append]
    rw [pointers, hcons, Heap.weight]
    show _ + (h.new next action).total _ = _
    rw [hnew, Heap.weight]
    omega
  have hfresh := hinv.fresh_pointers
  rw [pointers] at hfresh
  have hself : pointers (.impl h.fresh :: os) { h.new next action with made } (.impl h.fresh) = 1 := by
    have hm := himpl h.fresh
    rw [hp, List.count_singleton_self]
    omega
  have hother : ∀ m, m ≠ h.fresh → pointers (.impl h.fresh :: os) { h.new next action with made }
      (.impl m) = pointers os' h (.impl m) := by
    intro m hm
    have hmm := himpl m
    rw [hp, List.count_singleton, if_neg (by simpa using Ne.symm hm), pointers]
    omega
  refine ⟨?_, ?_, ?_, ?_, ?_, ?_⟩
  · intro m hm
    have hle : h.fresh + 1 ≤ m := hm
    exact (Heap.new_of_ne (by omega)).trans (hinv.bound m (by omega))
  · intro m hm
    by_cases hne : m = h.fresh
    · subst hne
      cases Heap.new_self.symm.trans hm
    · rw [hother m hne]
      exact hinv.freed m ((Heap.new_of_ne hne).symm.trans hm)
  · intro m j hj
    by_cases hne : m = h.fresh
    · subst hne
      obtain rfl := Option.some.inj (Heap.new_self.symm.trans hj)
      rw [hself]
      exact ⟨Nat.one_pos, by decide, rfl⟩
    · rw [hother m hne]
      exact hinv.counts m j ((Heap.new_of_ne hne).symm.trans hj)
  · intro a
    have hold := hinv.places a
    have hrec := hraw a
    have htot := Heap.total_new (·.carries a) h next action
    rw [pointers] at hold
    rw [hp, List.count_singleton, if_neg (by simp)]
    show _ + (h.new next action).total _ + h.ran.count a = if a < made then 1 else 0
    omega
  · apply hinv.ranked.new
    · intro m j hj hmem
      have hle := Heap.le_total (fun i => i.holds.count (.impl h.fresh)) (hinv.alive hj) hj
      have hpos := List.count_pos_iff.mpr hmem
      rw [Heap.weight] at hfresh
      omega
    · intro k hk
      by_contra hle
      have hpos := List.count_pos_iff.mpr hk
      have hm := himpl k
      have hfreed := hinv.freed k (hinv.bound k (Nat.le_of_not_lt hle))
      rw [pointers] at hfreed
      omega
  · intro m j hj
    by_cases hne : m = h.fresh
    · subst hne
      obtain rfl := Option.some.inj (Heap.new_self.symm.trans hj)
      exact hdrop
    · exact hinv.drops m j ((Heap.new_of_ne hne).symm.trans hj)

/-- `make_deleter`: the action is a new one. -/
theorem newCarry {next : Deleter} (hinv : Inv (next :: os) h) :
    Inv (.impl h.fresh :: os) { h.new next (.carry h.made) with made := h.made + 1 } := by
  apply hinv.new (h.made + 1)
  · intro m
    simp only [Impl.holds, List.count_cons, List.count_nil]
    omega
  · intro a
    simp only [Impl.holds, Impl.carries, List.count_cons, List.count_nil, Action.carry.injEq]
    by_cases ha : h.made = a
    · subst ha
      simp
    · have hlt : a < h.made + 1 ↔ a < h.made := by omega
      simp only [if_neg ha, hlt]
      omega
  · simp

/-- An action moves from a raw object to a `free_deleter_impl`. -/
theorem newRaw (hinv : Inv (.raw a :: os) h) : Inv (.impl h.fresh :: os) (h.new .null (.carry a)) := by
  apply hinv.new h.made
  · intro m
    simp [Impl.holds]
  · intro b
    simp [Impl.holds, Impl.carries, List.count_cons]
  · simp

/-- A deleter moves to an `object_deleter_impl`. -/
theorem newDrop (hinv : Inv (d :: os) h) (hd : d ≠ .null) :
    Inv (.impl h.fresh :: os) (h.new .null (.drop d)) := by
  apply hinv.new h.made
  · intro m
    simp [Impl.holds, List.count_cons]
  · intro b
    simp [Impl.holds, Impl.carries, List.count_cons]
  · simpa using hd

end Inv

end Deleter

end Seastar
