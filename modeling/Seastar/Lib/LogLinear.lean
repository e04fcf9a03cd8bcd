import Mathlib.Algebra.Ring.Nat
import Mathlib.Data.Nat.Log
import Mathlib.Order.Bounds.Basic

/-!
Log-linear size classes: a power of two and the next are divided into `2 ^ k` classes of the same
width. The index of a size and the size of an index make a Galois connection, from the power of two
on from which the classes are not narrower than one; so a size is rounded up to the next class.
-/

namespace Lib.LogLinear

variable {k s t i e f : Nat}

/-- The greatest size of the class `i`. -/
def size (k i : Nat) : Nat := (2 ^ k + i % 2 ^ k) * 2 ^ (i / 2 ^ k) / 2 ^ k

/-- The class of the size `s`. -/
def index (k s : Nat) : Nat := Nat.log2 s * 2 ^ k - (2 ^ k - 1) + (s - 1) / 2 ^ (Nat.log2 s - k)

/-- The class `f` above the power of two `e`. -/
theorem size_eq (he : k ≤ e) (hf : f < 2 ^ k) :
    size k (e * 2 ^ k + f) = (2 ^ k + f) * 2 ^ (e - k) := by
  have hpos : 0 < 2 ^ k := Nat.two_pow_pos k
  have hdiv : (e * 2 ^ k + f) / 2 ^ k = e := by
    rw [Nat.mul_comm, Nat.mul_add_div hpos, Nat.div_eq_of_lt hf, Nat.add_zero]
  have hmod : (e * 2 ^ k + f) % 2 ^ k = f := by
    rw [Nat.mul_comm, Nat.mul_add_mod, Nat.mod_eq_of_lt hf]
  have hpow : 2 ^ e = 2 ^ (e - k) * 2 ^ k := by
    rw [← Nat.pow_add, Nat.sub_add_cancel he]
  rw [size, hdiv, hmod, hpow, ← Nat.mul_assoc, Nat.mul_div_cancel _ hpos]

/-- The classes from a power of two on. -/
theorem exists_class (hi : k * 2 ^ k ≤ i) : ∃ e f, k ≤ e ∧ f < 2 ^ k ∧ i = e * 2 ^ k + f := by
  refine ⟨i / 2 ^ k, i % 2 ^ k, ?_, Nat.mod_lt i (Nat.two_pow_pos k), (Nat.div_add_mod' i _).symm⟩
  exact (Nat.le_div_iff_mul_le (Nat.two_pow_pos k)).mpr hi

/-- The index counts the classes below the power of two of the size, and those above it. -/
theorem index_add (hs : 2 ^ k ≤ s) :
    index k s + 2 ^ k = Nat.log2 s * 2 ^ k + 1 + (s - 1) / 2 ^ (Nat.log2 s - k) ∧ k ≤ Nat.log2 s ∧
      2 ^ k * 2 ^ (Nat.log2 s - k) ≤ s ∧ s < 2 * (2 ^ k * 2 ^ (Nat.log2 s - k)) := by
  have hpos : 0 < 2 ^ k := Nat.two_pow_pos k
  have hne : s ≠ 0 := by omega
  have hlog : k ≤ Nat.log2 s := (Nat.le_log2 hne).mpr hs
  have hpow : 2 ^ Nat.log2 s = 2 ^ k * 2 ^ (Nat.log2 s - k) := by
    rw [← Nat.pow_add, Nat.add_sub_cancel' hlog]
  have hlo : 2 ^ Nat.log2 s ≤ s := Nat.log2_self_le hne
  have hhi : s < 2 ^ (Nat.log2 s + 1) := Nat.lt_log2_self
  have hwhole : 2 ^ k - 1 ≤ Nat.log2 s * 2 ^ k := by
    cases k with
    | zero => exact Nat.zero_le _
    | succ k => exact Nat.le_trans (Nat.sub_le _ _) (Nat.le_mul_of_pos_left _ (by omega))
  rw [Nat.pow_succ] at hhi
  refine ⟨?_, hlog, by omega, by omega⟩
  rw [index]
  omega

/-- The index of a size is at most a class exactly when the size is at most that of the class. -/
theorem index_le_iff (hs : 2 ^ k ≤ s) (hi : k * 2 ^ k ≤ i) : index k s ≤ i ↔ s ≤ size k i := by
  obtain ⟨e, f, he, hf, rfl⟩ := exists_class hi
  obtain ⟨hindex, hlog, hlo, hhi⟩ := index_add hs
  rw [size_eq he hf]
  have hpos : 0 < 2 ^ (Nat.log2 s - k) := Nat.two_pow_pos _
  rcases Nat.lt_trichotomy (Nat.log2 s) e with hlt | heq | hgt
  · -- the power of two of the size is below that of the class
    have hle : (Nat.log2 s + 1) * 2 ^ k ≤ e * 2 ^ k := Nat.mul_le_mul_right _ hlt
    have hdiv : (s - 1) / 2 ^ (Nat.log2 s - k) < 2 * 2 ^ k := by
      rw [Nat.div_lt_iff_lt_mul hpos, Nat.mul_assoc]
      omega
    have hpow : 2 * 2 ^ (Nat.log2 s - k) ≤ 2 ^ (e - k) := by
      rw [← Nat.pow_succ']
      exact Nat.pow_le_pow_right (by decide) (by omega)
    have hsize : 2 ^ k * (2 * 2 ^ (Nat.log2 s - k)) ≤ (2 ^ k + f) * 2 ^ (e - k) :=
      Nat.mul_le_mul (Nat.le_add_right _ _) hpow
    rw [Nat.add_mul, Nat.one_mul] at hle
    refine iff_of_true (by omega) ?_
    rw [Nat.mul_left_comm] at hsize
    omega
  · subst heq
    have hq : (s - 1) / 2 ^ (Nat.log2 s - k) < 2 ^ k + f ↔
        s - 1 < (2 ^ k + f) * 2 ^ (Nat.log2 s - k) := Nat.div_lt_iff_lt_mul hpos
    have hs' : 0 < s := Nat.lt_of_lt_of_le (Nat.two_pow_pos k) hs
    omega
  · -- ... or above it
    have hle : (e + 1) * 2 ^ k ≤ Nat.log2 s * 2 ^ k := Nat.mul_le_mul_right _ hgt
    have hdiv : 2 ^ k - 1 ≤ (s - 1) / 2 ^ (Nat.log2 s - k) := by
      rw [Nat.le_div_iff_mul_le hpos, Nat.sub_mul]
      omega
    have hpow : 2 * 2 ^ (e - k) ≤ 2 ^ (Nat.log2 s - k) := by
      rw [← Nat.pow_succ']
      exact Nat.pow_le_pow_right (by decide) (by omega)
    have hsize : (2 ^ k + f) * 2 ^ (e - k) < 2 * 2 ^ k * 2 ^ (e - k) :=
      Nat.mul_lt_mul_of_pos_right (by omega) (Nat.two_pow_pos _)
    have hbelow : 2 ^ k * (2 * 2 ^ (e - k)) ≤ 2 ^ k * 2 ^ (Nat.log2 s - k) :=
      Nat.mul_le_mul_left _ hpow
    rw [Nat.add_mul, Nat.one_mul] at hle
    rw [← Nat.mul_assoc, Nat.mul_comm (2 ^ k) 2] at hbelow
    exact iff_of_false (by omega) (by omega)

/-- A class is wider than the one before it. -/
theorem size_lt_succ (hi : k * 2 ^ k ≤ i) : size k i < size k (i + 1) := by
  obtain ⟨e, f, he, hf, rfl⟩ := exists_class hi
  have hpos : 0 < 2 ^ (e - k) := Nat.two_pow_pos _
  rw [size_eq he hf]
  by_cases hlast : f + 1 = 2 ^ k
  · have hnext : e * 2 ^ k + f + 1 = (e + 1) * 2 ^ k + 0 := by
      rw [Nat.add_mul, Nat.one_mul]
      omega
    rw [hnext, size_eq (Nat.le_succ_of_le he) (Nat.two_pow_pos k), Nat.succ_sub he, Nat.pow_succ',
      Nat.add_zero, ← Nat.mul_assoc]
    exact Nat.mul_lt_mul_of_pos_right (by omega) hpos
  · rw [Nat.add_assoc, size_eq he (by omega)]
    exact Nat.mul_lt_mul_of_pos_right (by omega) hpos

theorem size_strictMonoOn (k : Nat) : StrictMonoOn (size k) (Set.Ici (k * 2 ^ k)) := by
  intro i hi j _ hlt
  induction j, hlt using Nat.le_induction with
  | base => exact size_lt_succ hi
  | succ j hle ih =>
    have hj : k * 2 ^ k ≤ j := Nat.le_trans hi (Nat.le_of_lt hle)
    exact Nat.lt_trans (ih hj) (size_lt_succ hj)

/-- The class of a size is one of those with their own sizes. -/
theorem le_index (hs : 2 ^ k ≤ s) : k * 2 ^ k ≤ index k s := by
  obtain ⟨hindex, hlog, hlo, -⟩ := index_add hs
  have hle : k * 2 ^ k ≤ Nat.log2 s * 2 ^ k := Nat.mul_le_mul_right _ hlog
  have hpos : 0 < 2 ^ (Nat.log2 s - k) := Nat.two_pow_pos _
  have hdiv : 2 ^ k - 1 ≤ (s - 1) / 2 ^ (Nat.log2 s - k) := by
    rw [Nat.le_div_iff_mul_le hpos, Nat.sub_mul]
    omega
  omega

theorem le_size_index (hs : 2 ^ k ≤ s) : s ≤ size k (index k s) :=
  (index_le_iff hs (le_index hs)).mp (Nat.le_refl _)

theorem two_pow_le_size (hi : k * 2 ^ k ≤ i) : 2 ^ k ≤ size k i := by
  obtain ⟨e, f, he, hf, rfl⟩ := exists_class hi
  rw [size_eq he hf]
  exact Nat.le_trans (Nat.le_add_right _ f) (Nat.le_mul_of_pos_right _ (Nat.two_pow_pos _))

theorem index_size (hi : k * 2 ^ k ≤ i) : index k (size k i) = i := by
  have hsize := two_pow_le_size hi
  have hle : index k (size k i) ≤ i := (index_le_iff hsize hi).mpr (Nat.le_refl _)
  refine Nat.le_antisymm hle (Nat.le_of_not_lt fun hlt => ?_)
  have := size_strictMonoOn k (le_index hsize) hi hlt
  exact Nat.not_lt.mpr (le_size_index hsize) this

theorem index_monotoneOn (k : Nat) : MonotoneOn (index k) (Set.Ici (2 ^ k)) := by
  intro s hs t ht hle
  exact (index_le_iff hs (le_index ht)).mpr (Nat.le_trans hle (le_size_index ht))

/-- The classes below those with their own sizes are small. -/
theorem size_lt (hi : i < k * 2 ^ k) : size k i < 2 ^ k := by
  have hpos : 0 < 2 ^ k := Nat.two_pow_pos k
  have he : i / 2 ^ k < k := Nat.div_lt_of_lt_mul (by rwa [Nat.mul_comm])
  have hpow : 2 * 2 ^ (i / 2 ^ k) ≤ 2 ^ k := by
    rw [← Nat.pow_succ']
    exact Nat.pow_le_pow_right (by decide) he
  have hmod : i % 2 ^ k < 2 ^ k := Nat.mod_lt i hpos
  rw [size, Nat.div_lt_iff_lt_mul hpos]
  calc (2 ^ k + i % 2 ^ k) * 2 ^ (i / 2 ^ k)
      < (2 ^ k + 2 ^ k) * 2 ^ (i / 2 ^ k) :=
        Nat.mul_lt_mul_of_pos_right (by omega) (Nat.two_pow_pos _)
    _ = 2 ^ k * (2 * 2 ^ (i / 2 ^ k)) := by rw [← Nat.two_mul, Nat.mul_comm 2, Nat.mul_assoc]
    _ ≤ 2 ^ k * 2 ^ k := Nat.mul_le_mul_left _ hpow

/-- A size is rounded up to the least one of a class. -/
theorem isLeast_size_index (hs : 2 ^ k ≤ s) :
    IsLeast {t | t ∈ Set.range (size k) ∧ s ≤ t} (size k (index k s)) := by
  refine ⟨⟨⟨_, rfl⟩, le_size_index hs⟩, ?_⟩
  rintro t ⟨⟨i, rfl⟩, hle⟩
  by_cases hi : k * 2 ^ k ≤ i
  · exact (size_strictMonoOn k).monotoneOn (le_index hs) hi ((index_le_iff hs hi).mpr hle)
  · exact absurd (Nat.le_trans hs hle) (Nat.not_le.mpr (size_lt (Nat.lt_of_not_le hi)))

end Lib.LogLinear
