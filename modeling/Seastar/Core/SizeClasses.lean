import Seastar.Lib.LogLinear

/-!
The size classes of the small pools of `core/memory.cc`, with unbounded sizes and indices. A power
of two is divided into four classes; smaller objects than a free object, which has the size of a
pointer, are not allocated.
-/

namespace Seastar.SmallPool

open Lib

def idxFracBits : Nat := 2

/-- `log2floor`. -/
def log2floor (n : Nat) : Nat := Nat.log2 n

/-- `idx_to_size`. -/
def idxToSize (idx : Nat) : Nat :=
  (((1 <<< idxFracBits) ||| (idx &&& ((1 <<< idxFracBits) - 1))) <<< (idx >>> idxFracBits))
    >>> idxFracBits

/-- `size_to_idx`. -/
def sizeToIdx (size : Nat) : Nat :=
  ((log2floor size <<< idxFracBits) - ((1 <<< idxFracBits) - 1)) +
    ((size - 1) >>> (log2floor size - idxFracBits))

/-- The bits of the fraction are below the one of the power of two. -/
theorem idxToSize_eq (idx : Nat) : idxToSize idx = LogLinear.size 2 idx := by
  have hand : idx &&& ((1 <<< idxFracBits) - 1) = idx % 2 ^ 2 := Nat.and_two_pow_sub_one_eq_mod idx 2
  have hor : (1 <<< idxFracBits) ||| (idx % 2 ^ 2) = 2 ^ 2 + idx % 2 ^ 2 := by
    have hall : ∀ f < 4, (1 <<< idxFracBits) ||| f = 2 ^ 2 + f := by decide
    exact hall _ (Nat.mod_lt idx (by decide))
  rw [idxToSize, hand, hor, Nat.shiftLeft_eq, Nat.shiftRight_eq_div_pow, Nat.shiftRight_eq_div_pow]
  rfl

theorem sizeToIdx_eq (size : Nat) : sizeToIdx size = LogLinear.index 2 size := by
  rw [sizeToIdx, Nat.shiftLeft_eq, Nat.shiftRight_eq_div_pow]
  rfl

/-- A size goes to the class of the smallest objects that it fits into; from four bytes on, the
classes have their own sizes, in the order of their indices. -/
theorem size_classes :
    (∀ s, 4 ≤ s → IsLeast {t | t ∈ Set.range idxToSize ∧ s ≤ t} (idxToSize (sizeToIdx s))) ∧
      StrictMonoOn idxToSize (Set.Ici (sizeToIdx 4)) ∧ MonotoneOn sizeToIdx (Set.Ici 4) ∧
      ∀ i, sizeToIdx 4 ≤ i → sizeToIdx (idxToSize i) = i := by
  have hsize : idxToSize = LogLinear.size 2 := funext idxToSize_eq
  have hindex : sizeToIdx = LogLinear.index 2 := funext sizeToIdx_eq
  have hfirst : LogLinear.index 2 4 = 2 * 2 ^ 2 := by decide
  rw [hsize, hindex, hfirst]
  exact ⟨fun s hs => LogLinear.isLeast_size_index hs, LogLinear.size_strictMonoOn 2,
    LogLinear.index_monotoneOn 2, fun i hi => LogLinear.index_size hi⟩

end Seastar.SmallPool
