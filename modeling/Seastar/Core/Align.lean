import Mathlib.Data.Nat.Bitwise

/-!
`align_up` and `align_down` of `core/align.hh`, for 64-bit numbers. An alignment is
a power of two; the masks then round to its multiples.
-/

namespace Seastar

/-- `align_down`. -/
def alignDown (v align : UInt64) : UInt64 := v &&& ~~~(align - 1)

/-- `align_up`. -/
def alignUp (v align : UInt64) : UInt64 := (v + align - 1) &&& ~~~(align - 1)

/-- A mask without the low bits rounds down. -/
theorem and_high_bits {k x : Nat} (hk : k < 64) (hx : x < 2 ^ 64) :
    x &&& (2 ^ 64 - 2 ^ k) = x / 2 ^ k * 2 ^ k := by
  have hmask : 2 ^ 64 - 2 ^ k = 2 ^ k * (2 ^ (64 - k) - 1) := by
    rw [Nat.mul_sub, ← Nat.pow_add, Nat.add_sub_cancel' (Nat.le_of_lt hk), Nat.mul_one]
  apply Nat.eq_of_testBit_eq
  intro i
  rw [Nat.testBit_and, hmask, Nat.testBit_two_pow_mul, Nat.mul_comm, Nat.testBit_two_pow_mul,
    Nat.testBit_two_pow_sub_one, Nat.testBit_div_two_pow]
  by_cases hi : k ≤ i
  · by_cases hi' : i < 64
    · simp [hi, show i - k < 64 - k by omega]
    · have hbit : x.testBit i = false :=
        Nat.testBit_lt_two_pow (Nat.lt_of_lt_of_le hx (Nat.pow_le_pow_right (by decide) (Nat.le_of_not_lt hi')))
      simp [hi, hbit]
  · simp [hi]

/-- The mask of an alignment. -/
theorem toNat_mask {align : UInt64} {k : Nat} (h : align.toNat = 2 ^ k) :
    (~~~(align - 1)).toNat = 2 ^ 64 - 2 ^ k := by
  have hpos : 0 < 2 ^ k := Nat.two_pow_pos k
  have hlt := align.toNat_lt
  have hone : (align - 1).toNat = 2 ^ k - 1 := by
    rw [UInt64.toNat_sub_of_le _ _ (by rw [UInt64.le_iff_toNat_le, h]; exact hpos), h]
    rfl
  rw [UInt64.toNat_not, hone]
  show 2 ^ 64 - 1 - _ = _
  omega

theorem toNat_alignDown {align : UInt64} (v : UInt64) (h : ∃ k < 64, align.toNat = 2 ^ k) :
    (alignDown v align).toNat = v.toNat / align.toNat * align.toNat := by
  obtain ⟨k, hk, h⟩ := h
  rw [alignDown, UInt64.toNat_and, toNat_mask h, and_high_bits hk v.toNat_lt, h]

theorem toNat_alignUp {v align : UInt64} (h : ∃ k < 64, align.toNat = 2 ^ k)
    (hfit : v.toNat + align.toNat - 1 < 2 ^ 64) :
    (alignUp v align).toNat = (v.toNat + align.toNat - 1) / align.toNat * align.toNat := by
  obtain ⟨k, hk, h⟩ := h
  have hpos : 0 < 2 ^ k := Nat.two_pow_pos k
  have hsum : (v + align - 1).toNat = v.toNat + align.toNat - 1 := by
    have hone : (1 : UInt64).toNat = 1 := rfl
    rw [UInt64.toNat_sub, UInt64.toNat_add, hone]
    have hv := v.toNat_lt
    have ha := align.toNat_lt
    omega
  rw [alignUp, UInt64.toNat_and, toNat_mask h, and_high_bits hk (v + align - 1).toNat_lt, hsum, h]

/-- What does not fit is rounded up to 0. -/
theorem alignUp_wraps {v align : UInt64} (h : ∃ k < 64, align.toNat = 2 ^ k)
    (hwrap : 2 ^ 64 ≤ v.toNat + align.toNat - 1) : (alignUp v align).toNat = 0 := by
  obtain ⟨k, hk, h⟩ := h
  have hpos : 0 < 2 ^ k := Nat.two_pow_pos k
  have hsum : (v + align - 1).toNat = v.toNat + align.toNat - 1 - 2 ^ 64 := by
    have hone : (1 : UInt64).toNat = 1 := rfl
    rw [UInt64.toNat_sub, UInt64.toNat_add, hone]
    have hv := v.toNat_lt
    have ha := align.toNat_lt
    omega
  rw [alignUp, UInt64.toNat_and, toNat_mask h, and_high_bits hk (v + align - 1).toNat_lt, hsum,
    Nat.div_eq_of_lt, Nat.zero_mul]
  have hv := v.toNat_lt
  omega

theorem dvd_alignUp (v : UInt64) {align : UInt64} (h : ∃ k < 64, align.toNat = 2 ^ k) :
    align.toNat ∣ (alignUp v align).toNat := by
  rcases Nat.lt_or_ge (v.toNat + align.toNat - 1) (2 ^ 64) with hfit | hwrap
  · rw [toNat_alignUp h hfit]
    exact Nat.dvd_mul_left _ _
  · rw [alignUp_wraps h hwrap]
    exact Nat.dvd_zero _

/-- A number is rounded up to the next multiple, or to 0. -/
theorem alignUp_cases (v : UInt64) {align : UInt64} (h : ∃ k < 64, align.toNat = 2 ^ k) :
    (alignUp v align).toNat = 0 ∨
      v.toNat ≤ (alignUp v align).toNat ∧ (alignUp v align).toNat < v.toNat + align.toNat := by
  have hpos : 0 < align.toNat := by
    obtain ⟨k, -, hk⟩ := h
    rw [hk]
    exact Nat.two_pow_pos k
  rcases Nat.lt_or_ge (v.toNat + align.toNat - 1) (2 ^ 64) with hfit | hwrap
  · right
    rw [toNat_alignUp h hfit]
    have hdiv := Nat.div_add_mod (v.toNat + align.toNat - 1) align.toNat
    have hmod := Nat.mod_lt (v.toNat + align.toNat - 1) hpos
    rw [Nat.mul_comm] at hdiv
    omega
  · exact Or.inl (alignUp_wraps h hwrap)

/-- Only a number that does not fit is rounded up to 0. -/
theorem alignUp_eq_zero {v align : UInt64} (h : ∃ k < 64, align.toNat = 2 ^ k) (hv : 0 < v.toNat) :
    (alignUp v align).toNat = 0 ↔ 2 ^ 64 ≤ v.toNat + align.toNat - 1 := by
  refine ⟨fun hzero => ?_, alignUp_wraps h⟩
  by_contra hfit
  rw [toNat_alignUp h (Nat.lt_of_not_le hfit)] at hzero
  have hpos : 0 < align.toNat := by
    obtain ⟨k, -, hk⟩ := h
    rw [hk]
    exact Nat.two_pow_pos k
  have hdiv : 1 ≤ (v.toNat + align.toNat - 1) / align.toNat :=
    (Nat.one_le_div_iff hpos).mpr (by omega)
  have := Nat.mul_le_mul_right align.toNat hdiv
  omega

/-- The bits that an alignment rounds away. -/
theorem toNat_and_sub_one {align : UInt64} (v : UInt64) (h : ∃ k < 64, align.toNat = 2 ^ k) :
    (v &&& (align - 1)).toNat = v.toNat % align.toNat := by
  obtain ⟨k, -, hk⟩ := h
  have hone : (align - 1).toNat = 2 ^ k - 1 := by
    rw [UInt64.toNat_sub_of_le _ _ (by rw [UInt64.le_iff_toNat_le, hk]; exact Nat.two_pow_pos k), hk]
    rfl
  rw [UInt64.toNat_and, hone, hk, Nat.and_two_pow_sub_one_eq_mod]

end Seastar
