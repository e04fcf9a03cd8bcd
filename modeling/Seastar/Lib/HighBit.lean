import Mathlib.Data.Nat.Bitwise
import Mathlib.Data.Nat.Log

/-!
Two numbers agree above bit `n` when they are equal up to their last `n` bits.
The highest bit in which they differ is the logarithm of their exclusive or; it
decides which of them is greater, and it says all about how a third number
compares with both.
-/

namespace Lib

/-- Equal but for the last `n` bits. -/
def AgreeAbove (n a b : Nat) : Prop := a / 2 ^ n = b / 2 ^ n

namespace AgreeAbove

variable {n m a b c : Nat}

theorem symm (h : AgreeAbove n a b) : AgreeAbove n b a := Eq.symm h

theorem trans (h : AgreeAbove n a b) (h' : AgreeAbove n b c) : AgreeAbove n a c := Eq.trans h h'

theorem mono (h : AgreeAbove n a b) (hm : n ≤ m) : AgreeAbove m a b := by
  obtain ⟨k, rfl⟩ := Nat.exists_eq_add_of_le hm
  unfold AgreeAbove at h ⊢
  rw [Nat.pow_add, ← Nat.div_div_eq_div_mul, ← Nat.div_div_eq_div_mul, h]

/-- Numbers that differ above bit `n` are ordered by what is there. -/
theorem div_lt (h : ¬ AgreeAbove n a b) (hab : a < b) : a / 2 ^ n < b / 2 ^ n :=
  Nat.lt_of_le_of_ne (Nat.div_le_div_right (Nat.le_of_lt hab)) h

theorem lt_of_div_lt (h : a / 2 ^ n < b / 2 ^ n) : a < b := by
  by_contra hc
  exact Nat.not_le.mpr h (Nat.div_le_div_right (Nat.le_of_not_lt hc))

/-- Two numbers greater than a third one that leave it at the same bit agree there. -/
theorem of_leave (ha : AgreeAbove (n + 1) a c) (hb : AgreeAbove (n + 1) b c)
    (ha' : ¬ AgreeAbove n a c) (hb' : ¬ AgreeAbove n b c) (hca : c < a) (hcb : c < b) :
    AgreeAbove n a b := by
  have h₁ := div_lt (fun h => ha' h.symm) hca
  have h₂ := div_lt (fun h => hb' h.symm) hcb
  unfold AgreeAbove at ha hb ⊢
  rw [Nat.pow_succ, ← Nat.div_div_eq_div_mul, ← Nat.div_div_eq_div_mul] at ha hb
  omega

end AgreeAbove

variable {a b k : Nat}

theorem agreeAbove_iff_xor_lt (n a b : Nat) : AgreeAbove n a b ↔ a ^^^ b < 2 ^ n := by
  have h : (a ^^^ b) >>> n = a >>> n ^^^ b >>> n := Nat.shiftRight_xor_distrib
  rw [Nat.shiftRight_eq_div_pow, Nat.shiftRight_eq_div_pow, Nat.shiftRight_eq_div_pow] at h
  rw [AgreeAbove, ← Nat.div_eq_zero_iff_lt (Nat.two_pow_pos n), h, Nat.xor_eq_zero_iff]

/-- The highest bit in which two numbers differ. -/
theorem log2_xor_eq_iff (h : a ≠ b) :
    Nat.log2 (a ^^^ b) = k ↔ AgreeAbove (k + 1) a b ∧ ¬ AgreeAbove k a b := by
  rw [Nat.log2_eq_iff (by rwa [Ne, Nat.xor_eq_zero_iff]), agreeAbove_iff_xor_lt,
    agreeAbove_iff_xor_lt, Nat.not_lt, and_comm]

end Lib
