import Mathlib.Data.List.Forall2
import Mathlib.Data.List.Pairwise
import Mathlib.Tactic.Linarith

/-!
Segments of a stream. A segment is a start position and the elements found from
there on; a list of segments describes which positions of the stream are known.
`Separated` lists, where no two segments overlap or touch, are the normal form:
`sweep` brings every start-sorted list into it without changing the positions
covered or the elements held.
-/

namespace Lib

/-- A stretch of a stream, starting at position `beg`. -/
structure Segment (α : Type) where
  beg : Nat
  data : List α
  deriving DecidableEq, Repr

namespace Segment

variable {α : Type}

/-- The first position after the segment. -/
def stop (s : Segment α) : Nat := s.beg + s.data.length

theorem beg_le_stop (s : Segment α) : s.beg ≤ s.stop := Nat.le_add_right _ _

/-- The elements of the stream `S` at positions `a`, `a + 1`, ..., `a + n - 1`. -/
def slice (S : Nat → α) (a n : Nat) : List α := (List.range n).map fun i => S (a + i)

@[simp] theorem length_slice (S : Nat → α) (a n : Nat) : (slice S a n).length = n := by
  simp [slice]

theorem getElem?_slice (S : Nat → α) (a n i : Nat) (h : i < n) :
    (slice S a n)[i]? = some (S (a + i)) := by
  simp [slice, h]

theorem slice_append (S : Nat → α) (a m n : Nat) :
    slice S a m ++ slice S (a + m) n = slice S a (m + n) := by
  apply List.ext_getElem?
  intro i
  by_cases h : i < m
  · rw [List.getElem?_append_left (by simpa using h), getElem?_slice _ _ _ _ h,
      getElem?_slice _ _ _ _ (by omega)]
  · rw [List.getElem?_append_right (by simpa using h), length_slice]
    by_cases h' : i < m + n
    · rw [getElem?_slice _ _ _ _ (by omega), getElem?_slice _ _ _ _ h']
      congr 2
      omega
    · rw [List.getElem?_eq_none (by simp; omega), List.getElem?_eq_none (by simp; omega)]

theorem drop_slice (S : Nat → α) (a n k : Nat) :
    (slice S a n).drop k = slice S (a + k) (n - k) := by
  apply List.ext_getElem?
  intro i
  rw [List.getElem?_drop]
  by_cases h : k + i < n
  · rw [getElem?_slice _ _ _ _ h, getElem?_slice _ _ _ _ (by omega), Nat.add_assoc]
  · rw [List.getElem?_eq_none (by simp; omega), List.getElem?_eq_none (by simp; omega)]

/-- The segment agrees with the stream `S`. -/
def Holds (S : Nat → α) (s : Segment α) : Prop := s.data = slice S s.beg s.data.length

/-- Position `x` lies in one of the segments. -/
def Covered (l : List (Segment α)) (x : Nat) : Prop := ∃ s ∈ l, s.beg ≤ x ∧ x < s.stop

/-- Starts strictly increase. -/
def Sorted (l : List (Segment α)) : Prop := l.Pairwise fun a b => a.beg < b.beg

/-- No two segments overlap or touch, and they stand in order. -/
def Separated (l : List (Segment α)) : Prop := l.Pairwise fun a b => a.stop < b.beg

theorem Separated.sorted {l : List (Segment α)} (h : Separated l) : Sorted l :=
  h.imp fun {a _} hab => Nat.lt_of_le_of_lt a.beg_le_stop hab

@[simp] theorem covered_nil (x : Nat) : ¬ Covered ([] : List (Segment α)) x := by
  simp [Covered]

@[simp] theorem covered_cons (s : Segment α) (l : List (Segment α)) (x : Nat) :
    Covered (s :: l) x ↔ (s.beg ≤ x ∧ x < s.stop) ∨ Covered l x := by
  simp [Covered]

/-! ## Joining and sweeping -/

/-- Extend `a` by what `b` holds beyond it. -/
def join (a b : Segment α) : Segment α := ⟨a.beg, a.data ++ b.data.drop (a.stop - b.beg)⟩

theorem join_stop {a b : Segment α} (h : a.stop ≤ b.stop) (ht : b.beg ≤ a.stop) :
    (a.join b).stop = b.stop := by
  simp only [join, stop, List.length_append, List.length_drop] at *
  omega

theorem join_holds {S : Nat → α} {a b : Segment α} (ha : a.Holds S) (hb : b.Holds S)
    (ht : b.beg ≤ a.stop) : (a.join b).Holds S := by
  have hd : b.data.drop (a.stop - b.beg) =
      slice S (a.beg + a.data.length) (b.data.length - (a.stop - b.beg)) := by
    rw [hb, drop_slice, length_slice]
    congr 1
    simp only [stop] at ht ⊢
    omega
  unfold Holds join
  simp only [List.length_append, List.length_drop]
  rw [hd, ← slice_append, ← ha]

/-- Merge a start-sorted list into separated segments, the first of which grows
from `s`. -/
def sweep (s : Segment α) : List (Segment α) → List (Segment α)
  | [] => [s]
  | t :: l =>
    if t.beg ≤ s.stop ∧ s.stop < t.stop then sweep (s.join t) l
    else if t.stop ≤ s.stop then sweep s l
    else s :: sweep t l

theorem covered_sweep (s : Segment α) (l : List (Segment α)) (h : Sorted (s :: l)) (x : Nat) :
    Covered (sweep s l) x ↔ Covered (s :: l) x := by
  induction l generalizing s with
  | nil => rfl
  | cons t l ih =>
    obtain ⟨hst, htl⟩ := List.pairwise_cons.mp h
    have hlt := hst t List.mem_cons_self
    rw [sweep]
    split
    · rename_i hj
      have hsl : Sorted (s.join t :: l) :=
        List.pairwise_cons.mpr ⟨fun u hu => hst u (List.mem_cons_of_mem _ hu), htl.of_cons⟩
      rw [ih _ hsl]
      simp only [covered_cons, join_stop (Nat.le_of_lt hj.2) hj.1]
      simp only [join]
      rw [← or_assoc]
      apply or_congr_left
      omega
    · split
      · have hsl : Sorted (s :: l) :=
          List.pairwise_cons.mpr ⟨fun u hu => hst u (List.mem_cons_of_mem _ hu), htl.of_cons⟩
        rw [ih _ hsl]
        simp only [covered_cons]
        rw [← or_assoc]
        apply or_congr_left
        omega
      · rw [covered_cons, ih _ htl]
        simp only [covered_cons]

theorem sweep_beg_ge (s : Segment α) (l : List (Segment α)) (h : Sorted (s :: l)) :
    ∀ t ∈ sweep s l, s.beg ≤ t.beg := by
  induction l generalizing s with
  | nil => simp [sweep]
  | cons t l ih =>
    obtain ⟨hst, htl⟩ := List.pairwise_cons.mp h
    have hlt := hst t List.mem_cons_self
    have hsl : ∀ u : Segment α, u.beg = s.beg → Sorted (u :: l) := fun u hu =>
      List.pairwise_cons.mpr
        ⟨fun v hv => hu ▸ hst v (List.mem_cons_of_mem _ hv), htl.of_cons⟩
    rw [sweep]
    split
    · exact ih _ (hsl _ rfl)
    · split
      · exact ih _ (hsl _ rfl)
      · intro u hu
        rcases List.mem_cons.mp hu with rfl | hu
        · exact Nat.le_refl _
        · exact Nat.le_trans (Nat.le_of_lt hlt) (ih _ htl u hu)

theorem sweep_separated (s : Segment α) (l : List (Segment α)) (h : Sorted (s :: l)) :
    Separated (sweep s l) := by
  induction l generalizing s with
  | nil => exact List.pairwise_singleton _ _
  | cons t l ih =>
    obtain ⟨hst, htl⟩ := List.pairwise_cons.mp h
    have hsl : ∀ u : Segment α, u.beg = s.beg → Sorted (u :: l) := fun u hu =>
      List.pairwise_cons.mpr
        ⟨fun v hv => hu ▸ hst v (List.mem_cons_of_mem _ hv), htl.of_cons⟩
    rw [sweep]
    split
    · exact ih _ (hsl _ rfl)
    · rename_i hj
      split
      · exact ih _ (hsl _ rfl)
      · rename_i hd
        refine List.pairwise_cons.mpr ⟨fun u hu => ?_, ih _ htl⟩
        have := sweep_beg_ge t l htl u hu
        omega

/-! ## Insertion by start -/

/-- Insert a segment by its start; a segment with the same start stays. -/
def place (s : Segment α) : List (Segment α) → List (Segment α)
  | [] => [s]
  | t :: l => if t.beg < s.beg then t :: place s l else if s.beg < t.beg then s :: t :: l else t :: l

theorem mem_place {s : Segment α} {l : List (Segment α)} (h : ∀ t ∈ l, t.beg ≠ s.beg)
    (t : Segment α) : t ∈ place s l ↔ t = s ∨ t ∈ l := by
  induction l with
  | nil => simp [place]
  | cons u l ih =>
    have hu := h u List.mem_cons_self
    have ih := ih fun t ht => h t (List.mem_cons_of_mem _ ht)
    rw [place]
    split
    · rw [List.mem_cons, ih, List.mem_cons]
      exact or_left_comm
    · rw [if_pos (by omega), List.mem_cons]

theorem sorted_place {s : Segment α} {l : List (Segment α)} (hl : Sorted l)
    (h : ∀ t ∈ l, t.beg ≠ s.beg) : Sorted (place s l) := by
  induction l with
  | nil => exact List.pairwise_singleton _ _
  | cons u l ih =>
    obtain ⟨hul, hl'⟩ := List.pairwise_cons.mp hl
    have hu := h u List.mem_cons_self
    have hne : ∀ t ∈ l, t.beg ≠ s.beg := fun t ht => h t (List.mem_cons_of_mem _ ht)
    rw [place]
    split
    · rename_i hlt
      refine List.pairwise_cons.mpr ⟨fun t ht => ?_, ih hl' hne⟩
      rcases (mem_place hne t).mp ht with rfl | ht
      · exact hlt
      · exact hul t ht
    · rw [if_pos (by omega)]
      refine List.pairwise_cons.mpr ⟨fun t ht => ?_, hl⟩
      rcases List.mem_cons.mp ht with rfl | ht
      · omega
      · have := hul t ht
        omega

theorem covered_place {s : Segment α} {l : List (Segment α)} (h : ∀ t ∈ l, t.beg ≠ s.beg)
    (x : Nat) : Covered (place s l) x ↔ (s.beg ≤ x ∧ x < s.stop) ∨ Covered l x := by
  constructor
  · rintro ⟨t, ht, hx⟩
    rcases (mem_place h t).mp ht with rfl | ht
    · exact Or.inl hx
    · exact Or.inr ⟨t, ht, hx⟩
  · rintro (hx | ⟨t, ht, hx⟩)
    · exact ⟨s, (mem_place h s).mpr (Or.inl rfl), hx⟩
    · exact ⟨t, (mem_place h t).mpr (Or.inr ht), hx⟩

end Segment

end Lib
